import Mathlib.Data.List.Basic

/-!
# A heap of immutable blocks

Blocks of data at addresses, as a program sees the memory it got from an allocator and does not
write to again. An allocator may run out of memory; all that is asked of it is that an address
it hands out is not in use.

* `allocAll` — store a list of blocks, which gives the list of their addresses;
* `Extends` — a later heap still has every block of an earlier one;
* `freeAll` — give blocks back, which leaves an earlier heap as it was (`extends_freeAll`);
* `Holds` — the addresses lead to the blocks; what is allocated is held (`holds_of_allocAll`) and
  stays held while the heap extends (`Holds.mono`);
* `Supplies` — the allocator has memory for that many blocks, so that they are allocated
  (`allocAll_of_supplies`);
* `countUp` — a concrete allocator, which hands out the word after the greatest address in use.
-/

namespace Heap

universe u v

variable {κ : Type u} {β : Type v} [DecidableEq κ]

/-- The block at an address. -/
def read (h : List (κ × β)) (a : κ) : Option β := (h.find? fun b => decide (b.1 = a)).map Prod.snd

/-- An allocator: an address that is not in use, if there is memory left. -/
structure Allocator (κ : Type u) (β : Type v) [DecidableEq κ] where
  /-- the next address -/
  addr : List (κ × β) → Option κ
  /-- it is not in use -/
  fresh : ∀ h a, addr h = some a → read h a = none

/-- Store blocks one after the other. -/
def allocAll (m : Allocator κ β) : List β → List (κ × β) → Option (List κ × List (κ × β))
  | [], h => some ([], h)
  | b :: bs, h =>
    match m.addr h with
    | none => none
    | some a => (allocAll m bs ((a, b) :: h)).map fun r => (a :: r.1, r.2)

/-- Give blocks back. -/
def freeAll (ptrs : List κ) (h : List (κ × β)) : List (κ × β) :=
  h.filter fun b => decide (b.1 ∉ ptrs)

/-- Every block of the first heap is at the same address in the second. -/
def Extends (h h' : List (κ × β)) : Prop := ∀ a b, read h a = some b → read h' a = some b

/-- The addresses lead to the blocks. -/
def Holds (h : List (κ × β)) (ptrs : List κ) (bs : List β) : Prop :=
  ptrs.map (read h) = bs.map some

theorem Extends.refl (h : List (κ × β)) : Extends h h := fun _ _ hr => hr

theorem Extends.trans {h₁ h₂ h₃ : List (κ × β)} (h : Extends h₁ h₂) (h' : Extends h₂ h₃) :
    Extends h₁ h₃ := fun a b hr => h' a b (h a b hr)

theorem read_cons (a : κ) (b : β) (h : List (κ × β)) (a' : κ) :
    read ((a, b) :: h) a' = if a = a' then some b else read h a' := by
  by_cases he : a = a' <;> simp [read, he]

theorem extends_cons {h : List (κ × β)} {a : κ} (hfresh : read h a = none) (b : β) :
    Extends h ((a, b) :: h) := by
  intro a' b' hr
  rw [read_cons]
  split
  · rename_i he
    rw [← he, hfresh] at hr
    cases hr
  · exact hr

theorem Holds.mono {h h' : List (κ × β)} (hext : Extends h h') :
    ∀ {ptrs : List κ} {bs : List β}, Holds h ptrs bs → Holds h' ptrs bs := by
  intro ptrs
  induction ptrs with
  | nil => exact fun hh => hh
  | cons p ps ih =>
    intro bs hh
    cases bs with
    | nil => cases hh
    | cons b bs =>
      obtain ⟨hp, hps⟩ := List.cons.inj hh
      exact List.cons_eq_cons.mpr ⟨hext p b hp, ih hps⟩

/-- **Allocation** keeps every block and holds the new ones. -/
theorem holds_of_allocAll {m : Allocator κ β} :
    ∀ {bs : List β} {h h' : List (κ × β)} {ptrs : List κ},
      allocAll m bs h = some (ptrs, h') → Extends h h' ∧ Holds h' ptrs bs := by
  intro bs
  induction bs with
  | nil =>
    intro h h' ptrs hal
    obtain ⟨rfl, rfl⟩ := Prod.mk.inj (Option.some.inj hal)
    exact ⟨Extends.refl _, rfl⟩
  | cons b bs ih =>
    intro h h' ptrs hal
    simp only [allocAll] at hal
    split at hal
    · simp at hal
    · rename_i a ha
      obtain ⟨⟨ptrs', h₂⟩, hrest, heq⟩ := Option.map_eq_some_iff.mp hal
      obtain ⟨rfl, rfl⟩ := Prod.mk.inj heq
      obtain ⟨hext, hholds⟩ := ih hrest
      refine ⟨(extends_cons (m.fresh h a ha) b).trans hext, ?_⟩
      have hhead : read h₂ a = some b := hext a b (by rw [read_cons, if_pos rfl])
      exact List.cons_eq_cons.mpr ⟨hhead, hholds⟩

theorem Extends.none_of_none {h h' : List (κ × β)} (hext : Extends h h') {p : κ}
    (hp : read h' p = none) : read h p = none := by
  cases hr : read h p with
  | none => rfl
  | some b =>
    rw [hext p b hr] at hp
    cases hp

/-- The addresses it hands out were not in use. -/
theorem fresh_of_allocAll {m : Allocator κ β} :
    ∀ {bs : List β} {h h' : List (κ × β)} {ptrs : List κ},
      allocAll m bs h = some (ptrs, h') → ∀ p ∈ ptrs, read h p = none := by
  intro bs
  induction bs with
  | nil =>
    intro h h' ptrs hal
    obtain ⟨rfl, -⟩ := Prod.mk.inj (Option.some.inj hal)
    exact fun p hp => absurd hp List.not_mem_nil
  | cons b bs ih =>
    intro h h' ptrs hal
    simp only [allocAll] at hal
    split at hal
    · cases hal
    · rename_i a ha
      obtain ⟨⟨ptrs', h₂⟩, hrest, heq⟩ := Option.map_eq_some_iff.mp hal
      obtain ⟨rfl, -⟩ := Prod.mk.inj heq
      have hfresh := m.fresh h a ha
      refine List.forall_mem_cons.mpr ⟨hfresh, fun p hp => ?_⟩
      exact (extends_cons hfresh b).none_of_none (ih hrest p hp)

/-- **Giving back** what the first heap did not have leaves it as it was. -/
theorem extends_freeAll {h h' : List (κ × β)} (hext : Extends h h') {ptrs : List κ}
    (hfresh : ∀ p ∈ ptrs, read h p = none) : Extends h (freeAll ptrs h') := by
  intro a b hr
  have ha : a ∉ ptrs := by
    intro ha
    rw [hfresh a ha] at hr
    cases hr
  rw [read, freeAll, List.find?_filter]
  have hread := hext a b hr
  rw [read] at hread
  rw [← hread]
  congr 2
  funext c
  by_cases hc : c.1 = a
  · simp [hc, ha]
  · simp [hc]

/-! ## Allocators with memory left -/

/-- The next `n` allocations succeed, whatever is stored. -/
def Supplies (m : Allocator κ β) : Nat → List (κ × β) → Prop
  | 0, _ => True
  | n + 1, h => ∃ a, m.addr h = some a ∧ ∀ b, Supplies m n ((a, b) :: h)

theorem Supplies.mono {m : Allocator κ β} :
    ∀ {n k : Nat} {h : List (κ × β)}, Supplies m n h → k ≤ n → Supplies m k h := by
  intro n
  induction n with
  | zero =>
    intro k h hs hk
    rwa [Nat.le_zero.mp hk]
  | succ n ih =>
    intro k h hs hk
    cases k with
    | zero => trivial
    | succ k =>
      obtain ⟨a, ha, hrest⟩ := hs
      exact ⟨a, ha, fun b => ih (hrest b) (Nat.le_of_succ_le_succ hk)⟩

theorem allocAll_of_supplies {m : Allocator κ β} {n : Nat} :
    ∀ {bs : List β} {h : List (κ × β)}, Supplies m (bs.length + n) h →
      ∃ ptrs h', allocAll m bs h = some (ptrs, h') ∧ Supplies m n h' := by
  intro bs
  induction bs with
  | nil =>
    intro h hs
    rw [List.length_nil, Nat.zero_add] at hs
    exact ⟨[], h, rfl, hs⟩
  | cons b bs ih =>
    intro h hs
    rw [List.length_cons, Nat.succ_add] at hs
    obtain ⟨a, ha, hrest⟩ := hs
    obtain ⟨ptrs, h', hal, hs'⟩ := ih (hrest b)
    refine ⟨a :: ptrs, h', ?_, hs'⟩
    rw [allocAll, ha]
    simp only [hal, Option.map_some]

/-! ## A concrete allocator -/

/-- The greatest address in use. -/
def top (h : List (UInt64 × β)) : Nat := (h.map fun b => b.1.toNat).foldr max 0

theorem le_top {h : List (UInt64 × β)} {b : UInt64 × β} (hb : b ∈ h) : b.1.toNat ≤ top h := by
  induction h with
  | nil => cases hb
  | cons c h ih =>
    have hstep : top (c :: h) = max c.1.toNat (top h) := rfl
    rcases List.mem_cons.mp hb with rfl | hb
    · exact hstep ▸ Nat.le_max_left _ _
    · exact hstep ▸ Nat.le_trans (ih hb) (Nat.le_max_right _ _)

/-- Hand out the word after the greatest address in use. -/
def countUp : Allocator UInt64 β where
  addr h := if top h + 1 < UInt64.size then some (UInt64.ofNat (top h + 1)) else none
  fresh h a ha := by
    split at ha
    · rename_i hlt
      obtain rfl := Option.some.inj ha
      rw [read, Option.map_eq_none_iff, List.find?_eq_none]
      intro b hb hba
      have hle := le_top hb
      rw [of_decide_eq_true hba, UInt64.toNat_ofNat_of_lt' hlt] at hle
      omega
    · simp at ha

/-- Counting up has memory as long as there are words left. -/
theorem supplies_countUp : ∀ {n : Nat} {h : List (UInt64 × β)}, top h + n < UInt64.size →
    Supplies countUp n h := by
  intro n
  induction n with
  | zero => exact fun _ => trivial
  | succ n ih =>
    intro h hlt
    refine ⟨UInt64.ofNat (top h + 1), if_pos (by omega), fun b => ih ?_⟩
    have htop : top ((UInt64.ofNat (top h + 1), b) :: h) = top h + 1 := by
      change max (UInt64.ofNat (top h + 1)).toNat (top h) = _
      rw [UInt64.toNat_ofNat_of_lt' (by omega)]
      omega
    omega

end Heap
