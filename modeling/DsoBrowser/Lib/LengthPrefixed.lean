import Mathlib.Data.List.Basic

/-!
# Length-prefixed blocks

A block of bytes preceded by one byte that holds its length, and sequences of such blocks.
`putBlocks` writes a sequence; `takeBlocks` reads so many blocks off the front of a byte list and
refuses the lengths that `refuses` names. What is read is exactly what was written
(`takeBlocks_eq_some_iff`), so a sequence is determined by its bytes (`putBlocks_injective`).
-/

namespace LengthPrefixed

/-- A block with its length in front. -/
def putBlock (block : List UInt8) : List UInt8 := UInt8.ofNat block.length :: block

/-- Blocks one after the other. -/
def putBlocks (blocks : List (List UInt8)) : List UInt8 := blocks.flatMap putBlock

/-- One block, and the bytes after it. -/
def takeBlock (refuses : Nat → Bool) : List UInt8 → Option (List UInt8 × List UInt8)
  | [] => none
  | len :: buf =>
    if buf.length < len.toNat ∨ refuses len.toNat then none
    else some (buf.take len.toNat, buf.drop len.toNat)

/-- So many blocks, and the bytes after them. -/
def takeBlocks (refuses : Nat → Bool) :
    Nat → List UInt8 → Option (List (List UInt8) × List UInt8)
  | 0, buf => some ([], buf)
  | count + 1, buf =>
    (takeBlock refuses buf).bind fun (block, buf) =>
      (takeBlocks refuses count buf).map fun (blocks, rest) => (block :: blocks, rest)

@[simp] theorem putBlocks_nil : putBlocks [] = [] := rfl

@[simp] theorem putBlocks_cons (block : List UInt8) (blocks : List (List UInt8)) :
    putBlocks (block :: blocks) = putBlock block ++ putBlocks blocks := rfl

@[simp] theorem length_putBlock (block : List UInt8) : (putBlock block).length = block.length + 1 :=
  rfl

variable {refuses : Nat → Bool}

theorem takeBlock_eq_some_iff {buf block rest : List UInt8} :
    takeBlock refuses buf = some (block, rest) ↔
      buf = putBlock block ++ rest ∧ block.length < 256 ∧ refuses block.length = false := by
  cases buf with
  | nil => simp [takeBlock, putBlock]
  | cons len buf =>
    rw [takeBlock]
    constructor
    · intro h
      split at h
      · exact nomatch h
      · rename_i hfits
        rw [not_or, Nat.not_lt, Bool.not_eq_true] at hfits
        obtain ⟨rfl, rfl⟩ := Prod.mk.inj (Option.some.inj h)
        have hlen : (buf.take len.toNat).length = len.toNat := List.length_take_of_le hfits.1
        rw [putBlock, hlen, UInt8.ofNat_toNat, List.cons_append, List.take_append_drop]
        exact ⟨rfl, len.toNat_lt, hfits.2⟩
    · rintro ⟨hbuf, hlt, hrefuses⟩
      rw [putBlock, List.cons_append, List.cons.injEq] at hbuf
      obtain ⟨rfl, rfl⟩ := hbuf
      have hlen : (UInt8.ofNat block.length).toNat = block.length := UInt8.toNat_ofNat_of_lt hlt
      rw [hlen, if_neg (by simp [hrefuses]), List.take_left, List.drop_left]

/-- A block read from a position on. -/
theorem takeBlock_drop {buf : List UInt8} {pos : Nat} {len : UInt8} (h : buf[pos]? = some len) :
    takeBlock refuses (buf.drop pos) =
      if buf.length < pos + 1 + len.toNat ∨ refuses len.toNat then none
      else some ((buf.drop (pos + 1)).take len.toNat, buf.drop (pos + 1 + len.toNat)) := by
  obtain ⟨hpos, hlen⟩ := List.getElem?_eq_some_iff.mp h
  have hfits : (buf.drop (pos + 1)).length < len.toNat ↔ buf.length < pos + 1 + len.toNat := by
    rw [List.length_drop]
    omega
  rw [List.drop_eq_getElem_cons hpos, hlen, takeBlock, List.drop_drop]
  simp only [hfits]

theorem takeBlock_drop_of_le {buf : List UInt8} {pos : Nat} (h : buf.length ≤ pos) :
    takeBlock refuses (buf.drop pos) = none := by
  rw [List.drop_eq_nil_of_le h]
  rfl

/-- **Reading and writing are inverse.** -/
theorem takeBlocks_eq_some_iff {count : Nat} : ∀ {buf rest : List UInt8}
    {blocks : List (List UInt8)}, takeBlocks refuses count buf = some (blocks, rest) ↔
      buf = putBlocks blocks ++ rest ∧ blocks.length = count ∧
        ∀ block ∈ blocks, block.length < 256 ∧ refuses block.length = false := by
  induction count with
  | zero =>
    intro buf rest blocks
    rw [takeBlocks, List.length_eq_zero_iff]
    constructor
    · intro h
      obtain ⟨rfl, rfl⟩ := Prod.mk.inj (Option.some.inj h)
      exact ⟨rfl, rfl, nofun⟩
    · rintro ⟨rfl, rfl, -⟩
      rfl
  | succ count ih =>
    intro buf rest blocks
    rw [takeBlocks, Option.bind_eq_some_iff]
    constructor
    · rintro ⟨⟨block, buf'⟩, hblock, hblocks⟩
      obtain ⟨⟨blocks', rest'⟩, htake, hcons⟩ := Option.map_eq_some_iff.mp hblocks
      obtain ⟨rfl, rfl⟩ := Prod.mk.inj hcons
      obtain ⟨rfl, hlt, hrefuses⟩ := takeBlock_eq_some_iff.mp hblock
      obtain ⟨rfl, rfl, hall⟩ := ih.mp htake
      exact ⟨by rw [putBlocks_cons, List.append_assoc], rfl,
        List.forall_mem_cons.mpr ⟨⟨hlt, hrefuses⟩, hall⟩⟩
    · rintro ⟨rfl, hcount, hall⟩
      cases blocks with
      | nil => exact nomatch hcount
      | cons block blocks =>
        obtain ⟨hblock, hblocks⟩ := List.forall_mem_cons.mp hall
        refine ⟨(block, putBlocks blocks ++ rest), ?_, ?_⟩
        · rw [takeBlock_eq_some_iff, putBlocks_cons, List.append_assoc]
          exact ⟨rfl, hblock⟩
        · dsimp only
          rw [ih.mpr ⟨rfl, Nat.succ.inj hcount, hblocks⟩]
          rfl

/-- Blocks of one count with the same bytes are the same. -/
theorem putBlocks_injective {blocks blocks' : List (List UInt8)}
    (hcount : blocks.length = blocks'.length) (hlt : ∀ block ∈ blocks, block.length < 256)
    (hlt' : ∀ block ∈ blocks', block.length < 256) (h : putBlocks blocks = putBlocks blocks') :
    blocks = blocks' := by
  have hread {bs : List (List UInt8)} (hbs : ∀ block ∈ bs, block.length < 256) :
      takeBlocks (fun _ => false) bs.length (putBlocks bs) = some (bs, []) :=
    takeBlocks_eq_some_iff.mpr ⟨(List.append_nil _).symm, rfl, fun b hb => ⟨hbs b hb, rfl⟩⟩
  have hread' := hread hlt'
  rw [← hcount, ← h, hread hlt] at hread'
  exact congrArg Prod.fst (Option.some.inj hread')

end LengthPrefixed
