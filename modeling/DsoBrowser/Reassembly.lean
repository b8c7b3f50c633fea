import DsoBrowser.Accounting
import DsoBrowser.ChunkTransfer

/-!
# What reassembly writes and reads

`psirp_cs_lookup_chunked` compares the length a manifest states with the capacity of the buffer,
and then copies the entries its slots lead to, as long as they are now. Both numbers come from the
manifest, and any Data packet of the right size under the right name is one. So the reader stays
inside the buffer and the slots exactly when every manifest **covers** what its slots lead to
(`reassemblyInBounds_iff`).
-/

namespace DsoBrowser

open Heap Machine Table

/-! ## The accesses of a call -/

/-- An access to the caller's buffer or to the slots of the manifest. -/
inductive ChunkAccess where
  /-- slot `i` is read -/
  | slot : Nat → ChunkAccess
  /-- so many bytes are written from an offset on -/
  | write : Nat → Nat → ChunkAccess
  deriving DecidableEq

/-- The access stays inside a buffer of `outCap` bytes and the slots. -/
def ChunkAccess.InBounds (outCap : Nat) : ChunkAccess → Prop
  | .slot i => i < psirpMaxChunks
  | .write off len => off + len ≤ outCap

/-- The bytes an access writes. -/
def ChunkAccess.written : ChunkAccess → Nat
  | .slot _ => 0
  | .write _ len => len

/-- The accesses of `reassembleLoop`, with `off` bytes written already. They end where C leaves the
loop undefined. -/
def reassembleAccesses (heap : StringHeap) (refs : List PsirpChunkRef) (now : Nat → UInt64) :
    (left : Nat) → (i : Nat) → PsirpCs → (off : Nat) → List ChunkAccess
  | 0, _, _, _ => []
  | left + 1, i, cs, off =>
    .slot i ::
      match refs[i]? with
      | none => []
      | some ref =>
        match rawLookupIndex heap cs.entries ref.name (now i) with
        | none => []
        | some none => []
        | some (some j) =>
          match cs.entries[j]? with
          | none => []
          | some ce =>
            .write off ce.data.length ::
              reassembleAccesses heap refs now left (i + 1)
                { cs with entries := cs.entries.modify j (touch (now i)) } (off + ce.data.length)

/-- The accesses of `psirp_cs_lookup_chunked`. -/
def lookupChunkedAccesses (s : ChunkState) (name : PsirpName) (outCap : Nat)
    (direct now : Nat → UInt64) : List ChunkAccess :=
  match psirpNameInit (manifestPath name) with
  | (false, _) => []
  | (true, mn) =>
    let cs := (psirpCsLookup s.cs mn (direct 0)).2
    match lookupEntry s.cs mn (direct 0) with
    | none =>
      match lookupEntry cs name (direct 1) with
      | none => []
      | some e => if e.data.length ≤ outCap then [.write 0 e.data.length] else []
    | some me =>
      if me.data.length ≠ sizeofManifest then []
      else
        let m := readManifest me.data
        if outCap < m.totalLen.toNat then []
        else reassembleAccesses s.heap m.chunks now m.chunkCount.toNat 0 cs 0

/-- The loop writes the bytes it returns. -/
theorem length_reassembleLoop {heap : StringHeap} {refs : List PsirpChunkRef} {now : Nat → UInt64}
    (left : Nat) : ∀ {i : Nat} {cs cs' : PsirpCs} {out out' : List UInt8} {ok : Bool},
      reassembleLoop heap refs now left i cs out = some (ok, out', cs') →
      out'.length = out.length +
        total ChunkAccess.written (reassembleAccesses heap refs now left i cs out.length) := by
  induction left with
  | zero =>
    intro i cs cs' out out' ok h
    obtain ⟨-, rfl, -⟩ : true = ok ∧ out = out' ∧ cs = cs' := by simpa [reassembleLoop] using h
    rfl
  | succ left ih =>
    intro i cs cs' out out' ok h
    rw [reassembleLoop] at h
    rw [reassembleAccesses, total_cons]
    cases href : refs[i]? with
    | none =>
      rw [href] at h
      cases h
    | some ref =>
      rw [href] at h
      dsimp only at h ⊢
      cases hj : rawLookupIndex heap cs.entries ref.name (now i) with
      | none =>
        rw [hj] at h
        cases h
      | some found =>
        rw [hj] at h
        cases found with
        | none =>
          obtain ⟨-, rfl, -⟩ : false = ok ∧ out = out' ∧ cs = cs' := by simpa using h
          rfl
        | some j =>
          dsimp only at h ⊢
          cases hce : cs.entries[j]? with
          | none =>
            rw [hce] at h
            cases h
          | some ce =>
            rw [hce] at h
            have hrest := ih h
            rw [List.length_append] at hrest
            dsimp only
            rw [total_cons, hrest, ChunkAccess.written, ChunkAccess.written, Nat.zero_add,
              Nat.add_assoc]

section Accesses

variable {s : ChunkState} {name : PsirpName} {outCap : Nat} {direct now : Nat → UInt64}

theorem lookupChunkedAccesses_unnamed (hmn : (psirpNameInit (manifestPath name)).1 = false) :
    lookupChunkedAccesses s name outCap direct now = [] := by
  rw [lookupChunkedAccesses]
  split
  · rfl
  · rename_i hpair
    rw [hpair] at hmn
    cases hmn

/-- Without a manifest, only the bytes of the entry under the name itself are written. -/
theorem lookupChunkedAccesses_unlisted (hmn : (psirpNameInit (manifestPath name)).1 = true)
    (hnone : lookupEntry s.cs (manifestName name) (direct 0) = none) :
    lookupChunkedAccesses s name outCap direct now = [] ∧
        (directAnswer (lookupEntry s.cs name (direct 1)) outCap).out = [] ∨
      ∃ x : List UInt8, lookupChunkedAccesses s name outCap direct now = [.write 0 x.length] ∧
        (directAnswer (lookupEntry s.cs name (direct 1)) outCap).out = x ∧ x.length ≤ outCap := by
  have hmiss : psirpCsLookup s.cs (manifestName name) (direct 0) = (none, s.cs) := by
    rw [psirpCsLookup, lookupEntry_eq_none.mp hnone]
  rw [lookupChunkedAccesses, psirpNameInit_manifestName hmn]
  simp only [hnone, hmiss]
  cases lookupEntry s.cs name (direct 1) with
  | none => exact Or.inl ⟨rfl, rfl⟩
  | some e =>
    rw [directAnswer]
    by_cases hcap : e.data.length ≤ outCap
    · exact Or.inr ⟨e.data, if_pos hcap, by rw [if_pos hcap], hcap⟩
    · exact Or.inl ⟨if_neg hcap, by rw [if_neg hcap]; rfl⟩

theorem lookupChunkedAccesses_rejected (hmn : (psirpNameInit (manifestPath name)).1 = true)
    {me : PsirpCsEntry} (hme : lookupEntry s.cs (manifestName name) (direct 0) = some me)
    (hbad : ¬ (me.data.length = sizeofManifest ∧
      (readManifest me.data).totalLen.toNat ≤ outCap)) :
    lookupChunkedAccesses s name outCap direct now = [] := by
  rw [lookupChunkedAccesses, psirpNameInit_manifestName hmn]
  simp only [hme]
  split
  · rfl
  · rename_i hsize
    rw [if_pos (Nat.not_le.mp fun hcap => hbad ⟨not_not.mp hsize, hcap⟩)]

/-- With a manifest, those of the loop over its slots. -/
theorem lookupChunkedAccesses_listed (hmn : (psirpNameInit (manifestPath name)).1 = true)
    {me : PsirpCsEntry} (hme : lookupEntry s.cs (manifestName name) (direct 0) = some me)
    (hsize : me.data.length = sizeofManifest)
    (hcap : (readManifest me.data).totalLen.toNat ≤ outCap) :
    lookupChunkedAccesses s name outCap direct now =
      reassembleAccesses s.heap (readManifest me.data).chunks now
        (readManifest me.data).chunkCount.toNat 0
        (psirpCsLookup s.cs (manifestName name) (direct 0)).2 0 := by
  rw [lookupChunkedAccesses, psirpNameInit_manifestName hmn]
  simp only [hme]
  rw [if_neg (not_not.mpr hsize), if_neg (Nat.not_lt.mpr hcap)]

/-- **The accesses are those of the call**: what it leaves in the buffer is what they write. -/
theorem length_out_eq {answer : ChunkAnswer} {cs : PsirpCs}
    (h : psirpCsLookupChunked s name outCap direct now = some (answer, cs)) :
    answer.out.length =
      total ChunkAccess.written (lookupChunkedAccesses s name outCap direct now) := by
  rcases psirpCsLookupChunked_cases s name outCap direct now with
    ⟨hmn, heq⟩ | ⟨hmn, ⟨hnone, heq⟩ | ⟨me, hme, ⟨hbad, heq⟩ | ⟨hsize, hcap, heq⟩⟩⟩
  · obtain ⟨rfl, -⟩ := Prod.mk.inj (Option.some.inj (heq.symm.trans h))
    rw [lookupChunkedAccesses_unnamed hmn]
    rfl
  · obtain ⟨rfl, -⟩ := Prod.mk.inj (Option.some.inj (heq.symm.trans h))
    rcases lookupChunkedAccesses_unlisted hmn hnone with ⟨hacc, hout⟩ | ⟨x, hacc, hout, -⟩
    · rw [hacc, hout]
      rfl
    · rw [hacc, hout]
      rfl
  · obtain ⟨rfl, -⟩ := Prod.mk.inj (Option.some.inj (heq.symm.trans h))
    rw [lookupChunkedAccesses_rejected hmn hme hbad]
    rfl
  · rw [heq] at h
    obtain ⟨⟨ok, out, cs'⟩, hloop, hpair⟩ := Option.map_eq_some_iff.mp h
    obtain ⟨rfl, -⟩ := Prod.mk.inj hpair
    have hout : (reassembledAnswer (readManifest me.data) ok out).out = out := by
      cases ok with
      | false => rfl
      | true => rfl
    rw [lookupChunkedAccesses_listed hmn hme hsize hcap, hout]
    exact (length_reassembleLoop _ hloop).trans (Nat.zero_add _)

end Accesses

/-! ## What the slots lead to -/

/-- The name in memory is that of an entry with this data. -/
def LeadsToData (heap : StringHeap) (cs : PsirpCs) (r : RawName) (t : UInt64) (x : List UInt8) :
    Prop := ∃ k, Refers heap r k ∧ lookupData cs k t = some x

/-- The slots from `i` on lead to these pieces, one after the other. -/
def SlotsLeadTo (heap : StringHeap) (cs : PsirpCs) (refs : List PsirpChunkRef)
    (now : Nat → UInt64) : Nat → List (List UInt8) → Prop
  | _, [] => True
  | i, x :: xs =>
    (∃ ref, refs[i]? = some ref ∧ LeadsToData heap cs ref.name (now i) x) ∧
      SlotsLeadTo heap cs refs now (i + 1) xs

/-- **The manifest covers its chunks**, as they are in the store. -/
structure PsirpManifest.Covers (s : ChunkState) (m : PsirpManifest) : Prop where
  /-- it states at least the length of what its slots lead to -/
  total_ge : ∀ now pieces, pieces.length ≤ m.chunkCount.toNat →
    SlotsLeadTo s.heap s.cs m.chunks now 0 pieces → pieces.flatten.length ≤ m.totalLen.toNat
  /-- it states no more slots than there are, or one of them leads to nothing -/
  slots_lt : ∀ now pieces, pieces.length < m.chunkCount.toNat →
    SlotsLeadTo s.heap s.cs m.chunks now 0 pieces → pieces.length < psirpMaxChunks

/-- The manifest that a reader of `name` finds, if it finds one. -/
def ReaderFinds (s : ChunkState) (name : PsirpName) (m : PsirpManifest) : Prop :=
  (psirpNameInit (manifestPath name)).1 = true ∧
    ∃ t me, lookupEntry s.cs (manifestName name) t = some me ∧ me.data.length = sizeofManifest ∧
      m = readManifest me.data

section Loop

variable {heap : StringHeap} {refs : List PsirpChunkRef} {now : Nat → UInt64} {cs₀ : PsirpCs}

theorem leadsToData_iff {cs : PsirpCs} (h : FindsAlike cs₀ cs) {r : RawName} {t : UInt64}
    {x : List UInt8} : LeadsToData heap cs₀ r t x ↔
      ∃ j e, rawLookupIndex heap cs.entries r t = some (some j) ∧ cs.entries[j]? = some e ∧
        e.data = x := by
  refine ⟨?_, ?_⟩
  · rintro ⟨k, hk, hx⟩
    rw [← h k t] at hx
    exact rawLookupIndex_of_lookupData hk hx
  · rintro ⟨j, e, hj, he, rfl⟩
    obtain ⟨k, hk, hx⟩ := exists_refers_of_rawLookupIndex hj he
    rw [h k t] at hx
    exact ⟨k, hk, hx⟩

/-- A slot that leads to data is copied. -/
theorem reassembleAccesses_of_leads {cs : PsirpCs} (hcs : FindsAlike cs₀ cs) {i : Nat}
    {ref : PsirpChunkRef} (href : refs[i]? = some ref) {x : List UInt8}
    (hx : LeadsToData heap cs₀ ref.name (now i) x) (left off : Nat) :
    ∃ cs', FindsAlike cs₀ cs' ∧ reassembleAccesses heap refs now (left + 1) i cs off =
      .slot i :: .write off x.length ::
        reassembleAccesses heap refs now left (i + 1) cs' (off + x.length) := by
  obtain ⟨j, e, hj, he, rfl⟩ := (leadsToData_iff hcs).mp hx
  refine ⟨_, hcs.touch j (now i), ?_⟩
  rw [reassembleAccesses, href]
  dsimp only
  rw [hj]
  dsimp only
  rw [he]

/-- A slot that leads nowhere ends the loop. -/
theorem reassembleAccesses_of_nowhere {cs : PsirpCs} (hcs : FindsAlike cs₀ cs) {i : Nat}
    (h : ∀ ref x, refs[i]? = some ref → ¬ LeadsToData heap cs₀ ref.name (now i) x)
    (left off : Nat) : reassembleAccesses heap refs now (left + 1) i cs off = [.slot i] := by
  rw [reassembleAccesses]
  cases href : refs[i]? with
  | none => rfl
  | some ref =>
    dsimp only
    split
    · rfl
    · rfl
    · rename_i j hj
      split
      · rfl
      · rename_i e he
        exact absurd ((leadsToData_iff hcs).mpr ⟨j, e, hj, he, rfl⟩) (h ref e.data href)

/-- A slot leads to one piece at most. -/
theorem LeadsToData.unique {r : RawName} {t : UInt64} {x y : List UInt8}
    (hx : LeadsToData heap cs₀ r t x) (hy : LeadsToData heap cs₀ r t y) : x = y := by
  have hself : FindsAlike cs₀ cs₀ := fun _ _ => rfl
  obtain ⟨j, e, hj, he, rfl⟩ := (leadsToData_iff hself).mp hx
  obtain ⟨j', e', hj', he', rfl⟩ := (leadsToData_iff hself).mp hy
  obtain rfl := Option.some.inj (Option.some.inj (hj.symm.trans hj'))
  rw [Option.some.inj (he.symm.trans he')]

/-- **The loop stays in bounds exactly when** whatever its slots lead to fits what is left of the
buffer, and there is a slot to go on with. -/
theorem reassembleAccesses_inBounds_iff {cap : Nat} (left : Nat) : ∀ {i : Nat} {cs : PsirpCs}
    {off : Nat}, FindsAlike cs₀ cs → off ≤ cap →
      ((∀ a ∈ reassembleAccesses heap refs now left i cs off, a.InBounds cap) ↔
        ∀ pieces, pieces.length ≤ left → SlotsLeadTo heap cs₀ refs now i pieces →
          off + pieces.flatten.length ≤ cap ∧
            (pieces.length < left → i + pieces.length < psirpMaxChunks)) := by
  induction left with
  | zero =>
    intro i cs off _ hoff
    refine iff_of_true (fun a ha => absurd ha List.not_mem_nil) fun pieces hlen _ => ?_
    rw [List.eq_nil_of_length_eq_zero (Nat.le_zero.mp hlen)]
    exact ⟨hoff, fun h => absurd h (Nat.lt_irrefl 0)⟩
  | succ left ih =>
    intro i cs off hcs hoff
    by_cases hleads : ∃ ref x, refs[i]? = some ref ∧ LeadsToData heap cs₀ ref.name (now i) x
    · obtain ⟨ref, x, href, hx⟩ := hleads
      obtain ⟨cs', hcs', haccesses⟩ := reassembleAccesses_of_leads hcs href hx left off
      rw [haccesses, List.forall_mem_cons, List.forall_mem_cons]
      refine ⟨?_, ?_⟩
      · rintro ⟨hi, hwrite, hrest⟩ pieces hlen hpieces
        cases pieces with
        | nil => exact ⟨hoff, fun _ => hi⟩
        | cons y ys =>
          obtain ⟨⟨ref', href', hy⟩, hys⟩ := hpieces
          obtain rfl := Option.some.inj (href.symm.trans href')
          obtain rfl := hx.unique hy
          obtain ⟨hfits, hslot⟩ :=
            (ih hcs' hwrite).mp hrest ys (Nat.le_of_succ_le_succ hlen) hys
          rw [List.flatten_cons, List.length_append, List.length_cons]
          exact ⟨by omega, fun hlt => by have := hslot (by omega); omega⟩
      · intro h
        obtain ⟨-, hi⟩ := h [] (Nat.zero_le _) trivial
        obtain ⟨hwrite, -⟩ := h [x] (by simp) ⟨⟨ref, href, hx⟩, trivial⟩
        rw [List.flatten_cons, List.flatten_nil, List.append_nil] at hwrite
        refine ⟨hi (Nat.succ_pos _), hwrite, (ih hcs' hwrite).mpr fun ys hlen hys => ?_⟩
        obtain ⟨hfits, hslot⟩ :=
          h (x :: ys) (Nat.succ_le_succ hlen) ⟨⟨ref, href, hx⟩, hys⟩
        rw [List.flatten_cons, List.length_append] at hfits
        rw [List.length_cons] at hslot
        exact ⟨by omega, fun hlt => by have := hslot (by omega); omega⟩
    · have hnowhere : ∀ ref x, refs[i]? = some ref →
          ¬ LeadsToData heap cs₀ ref.name (now i) x :=
        fun ref x href hx => hleads ⟨ref, x, href, hx⟩
      rw [reassembleAccesses_of_nowhere hcs hnowhere, List.forall_mem_singleton]
      refine ⟨?_, ?_⟩
      · intro hi pieces _ hpieces
        cases pieces with
        | nil => exact ⟨hoff, fun _ => hi⟩
        | cons x xs =>
          obtain ⟨⟨ref, href, hx⟩, -⟩ := hpieces
          exact absurd hx (hnowhere ref x href)
      · intro h
        exact (h [] (Nat.zero_le _) trivial).2 (Nat.succ_pos _)

end Loop

/-! ## The call -/

/-- Every call of `psirp_cs_lookup_chunked` under the name stays in bounds. -/
def ReassemblyInBounds (s : ChunkState) (name : PsirpName) : Prop :=
  ∀ outCap direct now, ∀ a ∈ lookupChunkedAccesses s name outCap direct now, a.InBounds outCap

/-- It does exactly when a manifest that is found covers its chunks. -/
theorem reassemblyInBounds_iff_covers {s : ChunkState} {name : PsirpName} :
    ReassemblyInBounds s name ↔ ∀ m, ReaderFinds s name m → m.Covers s := by
  refine ⟨?_, ?_⟩
  · rintro h m ⟨hmn, t, me, hme, hsize, rfl⟩
    have hloop : ∀ now, ∀ a ∈ reassembleAccesses s.heap (readManifest me.data).chunks now
        (readManifest me.data).chunkCount.toNat 0 (psirpCsLookup s.cs (manifestName name) t).2 0,
        a.InBounds (readManifest me.data).totalLen.toNat := by
      intro now a ha
      refine h (readManifest me.data).totalLen.toNat (fun _ => t) now a ?_
      rwa [@lookupChunkedAccesses_listed s name _ (fun _ => t) now hmn me hme hsize le_rfl]
    have hfits := fun now => (reassembleAccesses_inBounds_iff _
      (findsAlike_lookup s.cs (manifestName name) t) (Nat.zero_le _)).mp (hloop now)
    refine ⟨?_, ?_⟩
    · intro now pieces hlen hpieces
      have := (hfits now pieces hlen hpieces).1
      rwa [Nat.zero_add] at this
    · intro now pieces hlt hpieces
      have := (hfits now pieces hlt.le hpieces).2 hlt
      rwa [Nat.zero_add] at this
  · intro h outCap direct now a ha
    rcases psirpCsLookupChunked_cases s name outCap direct now with
      ⟨hmn, -⟩ | ⟨hmn, ⟨hnone, -⟩ | ⟨me, hme, ⟨hbad, -⟩ | ⟨hsize, hcap, -⟩⟩⟩
    · rw [lookupChunkedAccesses_unnamed hmn] at ha
      cases ha
    · rcases lookupChunkedAccesses_unlisted hmn hnone with ⟨hacc, -⟩ | ⟨x, hacc, -, hx⟩
      · rw [hacc] at ha
        cases ha
      · rw [hacc] at ha
        rw [List.mem_singleton.mp ha, ChunkAccess.InBounds, Nat.zero_add]
        exact hx
    · rw [lookupChunkedAccesses_rejected hmn hme hbad] at ha
      cases ha
    · rw [lookupChunkedAccesses_listed hmn hme hsize hcap] at ha
      obtain ⟨htotal, hslots⟩ := h _ ⟨hmn, direct 0, me, hme, hsize, rfl⟩
      refine (reassembleAccesses_inBounds_iff _
        (findsAlike_lookup s.cs (manifestName name) (direct 0)) (Nat.zero_le _)).mpr ?_ a ha
      intro pieces hlen hpieces
      rw [Nat.zero_add, Nat.zero_add]
      exact ⟨(htotal now pieces hlen hpieces).trans hcap,
        fun hlt => hslots now pieces hlt hpieces⟩

/-- **Reassembly stays in bounds exactly when** every manifest a reader finds covers its chunks, in
every store that calls of the whole interface lead to. -/
theorem reassemblyInBounds_iff (malloc : Allocator UInt64 CString) (ops : List ContentOp) :
    let s := exec (contentStep malloc) ⟨psirpCsInit, []⟩ ops
    ∀ name, ReassemblyInBounds s name ↔ ∀ m, ReaderFinds s name m → m.Covers s :=
  fun _ => reassemblyInBounds_iff_covers

/-! ## A forged manifest -/

/-- A manifest of no bytes in nineteen slots, which all lead to the name `/`. -/
def forgedManifest : PsirpManifest := .of 0 (List.replicate 19 .zero)

/-- A node that received two Data packets: one byte under `/`, and the manifest of `/x`. -/
def forgedStore : ChunkState :=
  exec (contentStep countUp) ⟨psirpCsInit, []⟩
    [.plain (.store (psirpNameInit (text ['/'])).2 [0] 0 0),
      .plain (.store (psirpNameInit (text ['/', 'x', '/', 'c', 'h', 'u', 'n', 'k', 's'])).2
        forgedManifest.bytes 0 0)]

/-- A call for `/x` writes to a buffer of no bytes. -/
theorem not_reassemblyInBounds_forged :
    ¬ ReassemblyInBounds forgedStore (psirpNameInit (text ['/', 'x'])).2 := by
  intro h
  have hroot := h 0 (fun _ => 0) (fun _ => 0) (.write 0 1) (by decide +kernel)
  exact absurd hroot (Nat.not_succ_le_zero 0)

end DsoBrowser
