import DsoBrowser.StoredNames
import DsoBrowser.Chunk

/-!
# Names and manifests in memory

What becomes of a name that goes through a manifest:

* a manifest is read as it was written (`readManifest_bytes`);
* a name in memory **refers** to a name if its addresses lead to the components (`Refers`), which
  it keeps doing while the heap grows; a lookup by it is then the lookup by that name
  (`rawLookupIndex_of_refers`);
* any other name in memory finds at most an entry whose components its addresses lead to
  (`rawLookupIndex_eq_some`), and among entries of one name at most the first
  (`rawLookupIndex_eq_zero`).
-/

namespace DsoBrowser

open ByteOrder Heap

/-! ## Manifests are read as they were written -/

theorem RawName.ext {a b : RawName} (hp : a.ptrs = b.ptrs) (hc : a.count = b.count)
    (hh : a.hash = b.hash) (hv : a.version = b.version) (hb : a.hasVersion = b.hasVersion) :
    a = b := by
  cases a; cases b
  subst hp; subst hc; subst hh; subst hv; subst hb
  rfl

@[simp] theorem readName_append (r : RawName) (rest : List UInt8) :
    readName (r.bytes ++ rest) = (r, rest) := by
  have hptrs : readList readU64 psirpMaxComponents (r.bytes ++ rest) =
      (r.ptrs, (u64Bytes r.count ++ (u64Bytes r.hash ++ (u64Bytes r.version ++
        (if r.hasVersion then 1 else 0) :: List.replicate 7 0))) ++ rest) := by
    rw [RawName.bytes, List.append_assoc, ← r.length_ptrs]
    exact readList_flatMap readU64_append _ _
  rw [readName]
  simp only [hptrs, List.append_assoc, readU64_append, List.cons_append, List.head?_cons,
    Option.getD_some, List.drop_succ_cons]
  refine Prod.ext (RawName.ext rfl rfl rfl rfl ?_) ?_
  · change decide ((if r.hasVersion then (1 : UInt8) else 0) ≠ 0) = r.hasVersion
    cases r.hasVersion <;> rfl
  · exact List.drop_left' (List.length_replicate ..)

@[simp] theorem readChunkRef_append (ref : PsirpChunkRef) (rest : List UInt8) :
    readChunkRef (ref.bytes ++ rest) = (ref, rest) := by
  rw [readChunkRef, PsirpChunkRef.bytes, List.append_assoc]
  simp only [readName_append, readU64_append]

/-- **A manifest is read as it was written.** -/
theorem readManifest_bytes (m : PsirpManifest) : readManifest m.bytes = m := by
  have hchunks : readList readChunkRef psirpMaxChunks (m.chunks.flatMap PsirpChunkRef.bytes) =
      (m.chunks, []) := by
    rw [← m.length_chunks, ← List.append_nil (m.chunks.flatMap _)]
    exact readList_flatMap readChunkRef_append _ _
  rw [readManifest, PsirpManifest.bytes]
  simp only [readU64_append, hchunks]

theorem length_bytes_rawName (r : RawName) : r.bytes.length = 160 := by
  rw [RawName.bytes, List.length_append, length_flatMap_of_const length_u64Bytes, r.length_ptrs]
  simp [psirpMaxComponents]

theorem PsirpChunkRef.length_bytes (ref : PsirpChunkRef) : ref.bytes.length = 168 := by
  rw [PsirpChunkRef.bytes, List.length_append, length_bytes_rawName, length_u64Bytes]

/-- A manifest has the size it is stored with. -/
theorem PsirpManifest.length_bytes (m : PsirpManifest) : m.bytes.length = sizeofManifest := by
  rw [PsirpManifest.bytes, List.length_append, List.length_append,
    length_flatMap_of_const PsirpChunkRef.length_bytes, m.length_chunks]
  simp [psirpMaxChunks, psirpMaxData, psirpChunkSize, sizeofManifest]

/-! ## Names in memory that lead to their components -/

/-- The name in memory is `n`: its addresses lead to the components of `n`. -/
structure Refers (heap : StringHeap) (r : RawName) (n : PsirpName) : Prop where
  /-- the strings -/
  holds : Holds heap (r.ptrs.take n.components.length) n.components
  /-- their number -/
  count_eq : r.count = UInt64.ofNat n.components.length
  /-- the hash -/
  hash_eq : r.hash = n.hash
  /-- the version flag -/
  hasVersion_eq : r.hasVersion = n.hasVersion

theorem Refers.mono {heap heap' : StringHeap} (hext : Extends heap heap') {r : RawName}
    {n : PsirpName} (h : Refers heap r n) : Refers heap' r n :=
  ⟨h.holds.mono hext, h.count_eq, h.hash_eq, h.hasVersion_eq⟩

/-- A name whose strings were just allocated. -/
theorem refers_of {heap : StringHeap} {n : PsirpName} {ptrs : List UInt64}
    (h : Holds heap ptrs n.components) : Refers heap (RawName.of n ptrs) n := by
  have hlen : ptrs.length = n.components.length := by
    have hmap := congrArg List.length h
    rwa [List.length_map, List.length_map] at hmap
  refine ⟨?_, rfl, rfl, rfl⟩
  change Holds heap (List.take _ (List.take _ _)) _
  rw [List.take_take, min_eq_left n.count_le, ← hlen, List.take_left]
  exact h

theorem ofNat_length_inj {a b : PsirpName}
    (h : UInt64.ofNat a.components.length = UInt64.ofNat b.components.length) :
    a.components.length = b.components.length := by
  have hlt : ∀ n : PsirpName, n.components.length < UInt64.size := fun n =>
    lt_of_le_of_lt n.count_le (by decide)
  have := congrArg UInt64.toNat h
  rwa [UInt64.toNat_ofNat_of_lt' (hlt a), UInt64.toNat_ofNat_of_lt' (hlt b)] at this

/-- The `strcmp` loop against strings that are there. -/
theorem rawComponentsEqual_of_holds {heap : StringHeap} :
    ∀ {cs cs' : List CString} {ptrs : List UInt64}, cs.length = cs'.length →
      Holds heap (ptrs.take cs'.length) cs' →
      rawComponentsEqual heap cs ptrs = some (decide (cs = cs')) := by
  intro cs
  induction cs with
  | nil =>
    intro cs' ptrs hlen _
    obtain rfl := List.eq_nil_of_length_eq_zero hlen.symm
    rfl
  | cons c cs ih =>
    intro cs' ptrs hlen hholds
    cases cs' with
    | nil =>
      simp at hlen
    | cons c' cs' =>
      cases ptrs with
      | nil =>
        cases hholds
      | cons p ps =>
        obtain ⟨hp, hps⟩ := List.cons.inj hholds
        rw [rawComponentsEqual, hp]
        by_cases hc : c = c'
        · simp only [hc, if_true]
          rw [ih (Nat.succ.inj hlen) hps]
          simp
        · simp [hc]

theorem rawBaseEqual_of_refers {heap : StringHeap} {e n : PsirpName} {r : RawName}
    (h : Refers heap r n) : rawBaseEqual heap e r = some (nameBaseEqual e n) := by
  rw [rawBaseEqual, h.count_eq]
  split
  · rename_i hlen
    rw [nameBaseEqual, decide_eq_false fun he => hlen (by rw [he])]
  · rename_i hlen
    rw [rawComponentsEqual_of_holds (ofNat_length_inj (not_not.mp hlen)) h.holds]
    rfl

theorem rawNameEqual_of_refers {heap : StringHeap} {e n : PsirpName} {r : RawName}
    (h : Refers heap r n) : rawNameEqual heap e r = some (psirpNameEqual e n) := by
  rw [rawNameEqual, h.count_eq, h.hash_eq]
  split
  · rename_i hlen
    have hne : psirpNameEqual e n = false :=
      Bool.eq_false_iff.mpr fun he => hlen (by rw [(psirpNameEqual_iff.mp he).2])
    rw [hne]
  · rename_i hlen
    split
    · rename_i hhash
      have hne : psirpNameEqual e n = false :=
        Bool.eq_false_iff.mpr fun he => hhash (psirpNameEqual_iff.mp he).1
      rw [hne]
    · rename_i hhash
      rw [rawComponentsEqual_of_holds (ofNat_length_inj (not_not.mp hlen)) h.holds,
        Option.some_inj, Bool.eq_iff_iff, decide_eq_true_eq, psirpNameEqual_iff]
      exact (and_iff_right (not_not.mp hhash)).symm

/-- **A lookup by a name in memory** that leads to its components is the lookup by that name. -/
theorem rawLookupIndex_of_refers {heap : StringHeap} {r : RawName} {n : PsirpName}
    (h : Refers heap r n) (es : List PsirpCsEntry) (now : UInt64) :
    rawLookupIndex heap es r now = some (lookupIndex es n now) := by
  -- entry by entry, either scan compares as the other one does
  have hexact : ∀ es : List PsirpCsEntry,
      rawFindExact heap r now es = some (es.findIdx? (liveExact n now)) := by
    intro es
    induction es with
    | nil => rfl
    | cons e es ih =>
      rw [rawFindExact, List.findIdx?_cons, liveExact, rawNameEqual_of_refers h, ih]
      cases entryExpired e now <;> cases psirpNameEqual e.name n <;> rfl
  have hnewest : ∀ (es : List PsirpCsEntry) (i : Nat) (best : Option (Nat × UInt64)),
      rawFindNewest heap r now es i best = some (findNewest (liveBase n now) es i best) := by
    intro es
    induction es with
    | nil => exact fun _ _ => rfl
    | cons e es ih =>
      intro i best
      rw [rawFindNewest, findNewest, liveBase, rawBaseEqual_of_refers h]
      cases entryExpired e now
      · simp only [Bool.false_eq_true, if_false, ih, Bool.not_false, Bool.true_and]
        split <;> rfl
      · simp only [if_true, ih, Bool.not_true, Bool.false_and, Bool.false_eq_true, if_false]
  rw [rawLookupIndex, lookupIndex, h.hasVersion_eq, hexact, hnewest]
  split <;> rfl

/-! ## The entry a name in memory leads to -/

section RawLookup

variable {heap : StringHeap} {r : RawName} {now : UInt64}

theorem rawComponentsEqual_of_base {e : PsirpName} (h : rawBaseEqual heap e r = some true) :
    rawComponentsEqual heap e.components r.ptrs = some true := by
  simp only [rawBaseEqual] at h
  split at h
  · simp at h
  · exact h

theorem rawComponentsEqual_of_equal {e : PsirpName} (h : rawNameEqual heap e r = some true) :
    rawComponentsEqual heap e.components r.ptrs = some true := by
  simp only [rawNameEqual] at h
  split at h
  · simp at h
  · split at h
    · simp at h
    · exact h

/-- In an empty heap no address leads to a component. -/
theorem rawComponentsEqual_nil_heap {cs : List CString} (hne : cs ≠ []) (ptrs : List UInt64) :
    rawComponentsEqual [] cs ptrs = none := by
  obtain ⟨c, cs, rfl⟩ := List.exists_cons_of_ne_nil hne
  cases ptrs with
  | nil => rfl
  | cons p ps => rfl

theorem rawFindExact_eq_some : ∀ {es : List PsirpCsEntry} {j : Nat},
    rawFindExact heap r now es = some (some j) →
      ∃ e, es[j]? = some e ∧ rawNameEqual heap e.name r = some true := by
  intro es
  induction es with
  | nil => exact fun h => by cases h
  | cons e es ih =>
    intro j h
    have hrest : (rawFindExact heap r now es).map (Option.map (· + 1)) = some (some j) →
        ∃ e', (e :: es)[j]? = some e' ∧ rawNameEqual heap e'.name r = some true := by
      intro h
      obtain ⟨found, hfound, hj⟩ := Option.map_eq_some_iff.mp h
      obtain ⟨j', rfl, rfl⟩ := Option.map_eq_some_iff.mp hj
      exact ih hfound
    simp only [rawFindExact] at h
    split at h
    · exact hrest h
    · split at h
      · simp at h
      · rename_i heq
        obtain rfl : 0 = j := Option.some.inj (Option.some.inj h)
        exact ⟨e, rfl, heq⟩
      · exact hrest h

theorem rawFindNewest_eq_some : ∀ {es : List PsirpCsEntry} {i : Nat}
    {best : Option (Nat × UInt64)} {j : Nat},
    rawFindNewest heap r now es i best = some (some j) →
      (∃ v, best = some (j, v)) ∨
        ∃ k e, j = i + k ∧ es[k]? = some e ∧ rawBaseEqual heap e.name r = some true ∧
          ∀ b ∈ best, b.2 < e.name.version := by
  intro es
  induction es with
  | nil =>
    intro i best j h
    obtain ⟨⟨j', v⟩, hb, rfl⟩ := Option.map_eq_some_iff.mp (Option.some.inj h)
    exact Or.inl ⟨v, hb⟩
  | cons e es ih =>
    intro i best j h
    -- an entry that is passed over moves the position, and nothing else
    have hskip : rawFindNewest heap r now es (i + 1) best = some (some j) →
        (∃ v, best = some (j, v)) ∨
          ∃ k e', j = i + k ∧ (e :: es)[k]? = some e' ∧ rawBaseEqual heap e'.name r = some true ∧
            ∀ b ∈ best, b.2 < e'.name.version := by
      intro h
      rcases ih h with hb | ⟨k, e', rfl, hk, heq, hbeat⟩
      · exact Or.inl hb
      · exact Or.inr ⟨k + 1, e', by omega, hk, heq, hbeat⟩
    simp only [rawFindNewest] at h
    split at h
    · exact hskip h
    · split at h
      · simp at h
      · rename_i eq heq
        split at h
        · -- the entry at the front becomes the best
          rename_i hcond
          rw [Bool.and_eq_true] at hcond
          have hbeat : ∀ b ∈ best, b.2 < e.name.version := by
            rintro b rfl
            simpa using hcond.2
          rcases ih h with ⟨v, hb⟩ | ⟨k, e', rfl, hk, heq', hbeat'⟩
          · obtain ⟨rfl, -⟩ := Prod.mk.inj (Option.some.inj hb)
            exact Or.inr ⟨0, e, rfl, rfl, by rw [heq, hcond.1], hbeat⟩
          · refine Or.inr ⟨k + 1, e', by omega, hk, heq', fun b hb => ?_⟩
            exact UInt64.lt_trans (hbeat b hb) (hbeat' _ rfl)
        · exact hskip h

/-- A lookup by a name in memory chooses an entry whose components its addresses lead to. -/
theorem rawLookupIndex_eq_some {es : List PsirpCsEntry} {j : Nat}
    (h : rawLookupIndex heap es r now = some (some j)) :
    ∃ e, es[j]? = some e ∧ rawComponentsEqual heap e.name.components r.ptrs = some true := by
  simp only [rawLookupIndex] at h
  split at h
  · obtain ⟨e, he, heq⟩ := rawFindExact_eq_some h
    exact ⟨e, he, rawComponentsEqual_of_equal heq⟩
  · rcases rawFindNewest_eq_some h with ⟨v, hb⟩ | ⟨k, e, rfl, hk, heq, -⟩
    · simp at hb
    · rw [Nat.zero_add]
      exact ⟨e, hk, rawComponentsEqual_of_base heq⟩

/-- Among live entries of one name it chooses the first or none. -/
theorem rawLookupIndex_eq_zero {es : List PsirpCsEntry}
    (hlive : ∀ e ∈ es, entryExpired e now = false)
    (hname : ∀ e ∈ es, ∀ e' ∈ es, e'.name.components = e.name.components ∧
      e'.name.hash = e.name.hash ∧ e'.name.version = e.name.version)
    {j : Nat} (h : rawLookupIndex heap es r now = some (some j)) : j = 0 := by
  cases es with
  | nil =>
    obtain ⟨e, he, -⟩ := rawLookupIndex_eq_some h
    cases he
  | cons e es =>
    have hfront := hlive e List.mem_cons_self
    have hsame := fun e' he' => hname e List.mem_cons_self e' (List.mem_cons_of_mem _ he')
    simp only [rawLookupIndex] at h
    split at h
    · rw [rawFindExact, hfront, if_neg Bool.false_ne_true] at h
      split at h
      · simp at h
      · exact (Option.some.inj (Option.some.inj h)).symm
      · -- no later entry fares better
        rename_i hmiss
        obtain ⟨found, hfound, hj⟩ := Option.map_eq_some_iff.mp h
        obtain ⟨k, rfl, -⟩ := Option.map_eq_some_iff.mp hj
        obtain ⟨e', he', heq⟩ := rawFindExact_eq_some hfound
        obtain ⟨hcomps, hhash, -⟩ := hsame e' (List.mem_of_getElem? he')
        rw [rawNameEqual, hcomps, hhash, ← rawNameEqual, hmiss] at heq
        cases heq
    · rw [rawFindNewest, hfront, if_neg Bool.false_ne_true] at h
      split at h
      · simp at h
      · rename_i eq heq
        split at h
        · rcases rawFindNewest_eq_some h with ⟨v, hb⟩ | ⟨k, e', rfl, hk, -, hbeat⟩
          · exact (congrArg Prod.fst (Option.some.inj hb)).symm
          · -- a later entry would have to be of a greater version
            obtain ⟨-, -, hversion⟩ := hsame e' (List.mem_of_getElem? hk)
            have hlt := hbeat _ rfl
            rw [hversion] at hlt
            exact absurd hlt (UInt64.lt_irrefl _)
        · rename_i hcond
          rcases rawFindNewest_eq_some h with ⟨v, hb⟩ | ⟨k, e', rfl, hk, heq', -⟩
          · simp at hb
          · -- a later entry has the components that were just refused
            obtain ⟨hcomps, -, -⟩ := hsame e' (List.mem_of_getElem? hk)
            rw [rawBaseEqual, hcomps, ← rawBaseEqual, heq] at heq'
            rw [Option.some.inj heq'] at hcond
            exact absurd rfl hcond

end RawLookup

end DsoBrowser
