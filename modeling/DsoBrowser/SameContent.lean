import DsoBrowser.ChunkRoundTrip

/-!
# What readers see of the content store

Two stores that differ in their bookkeeping alone (`SameContent`) are read alike, also where the
heap has grown in the meantime (`psirpCsLookupChunked_of_same`). Data that is found under a name
without a manifest (`Shows`) is read under that name, so where it was not there before, a reader
sees the difference (`Shows.not_answersAlike`).
-/

namespace DsoBrowser

open Heap Table

/-! ## The same content -/

/-- The entries have the same name and data, and never expire. -/
structure SameEntry (e e' : PsirpCsEntry) : Prop where
  /-- the name -/
  name_eq : e'.name = e.name
  /-- the data -/
  data_eq : e'.data = e.data
  /-- the first is kept for ever -/
  kept : e.freshnessMs = 0
  /-- and so is the second -/
  kept' : e'.freshnessMs = 0

/-- The stores have the same entries but for the bookkeeping. -/
structure SameContent (cs cs' : PsirpCs) : Prop where
  /-- entry by entry -/
  entries : List.Forall₂ SameEntry cs.entries cs'.entries
  /-- the table has the same size -/
  capacity_eq : cs'.capacity = cs.capacity
  /-- there is no byte budget -/
  maxBytes_eq : cs'.maxBytes = 0

theorem SameEntry.expired {e e' : PsirpCsEntry} (h : SameEntry e e') (now : UInt64) :
    entryExpired e now = false ∧ entryExpired e' now = false :=
  ⟨if_pos h.kept, if_pos h.kept'⟩

theorem SameEntry.touch {e e' : PsirpCsEntry} (h : SameEntry e e') (now : UInt64) :
    SameEntry (touch now e) (touch now e') := ⟨h.name_eq, h.data_eq, h.kept, h.kept'⟩

section Same

variable {es es' : List PsirpCsEntry} {cs cs' : PsirpCs}

theorem findNewest_of_same (h : List.Forall₂ SameEntry es es') {p : PsirpCsEntry → Bool}
    (hp : ∀ e e', SameEntry e e' → p e = p e') : ∀ (i : Nat) (best : Option (Nat × UInt64)),
      findNewest p es i best = findNewest p es' i best := by
  induction h with
  | nil => exact fun _ _ => rfl
  | cons he _ ih =>
    intro i best
    rw [findNewest, findNewest, hp _ _ he, he.name_eq, ih, ih]

theorem lookupIndex_of_same (h : List.Forall₂ SameEntry es es') (n : PsirpName) (now : UInt64) :
    lookupIndex es n now = lookupIndex es' n now := by
  have hexact : ∀ e e', SameEntry e e' → liveExact n now e = liveExact n now e' := by
    intro e e' he
    rw [liveExact, liveExact, (he.expired now).1, (he.expired now).2, he.name_eq]
  have hbase : ∀ e e', SameEntry e e' → liveBase n now e = liveBase n now e' := by
    intro e e' he
    rw [liveBase, liveBase, (he.expired now).1, (he.expired now).2, he.name_eq]
  rw [lookupIndex, lookupIndex, findIdx?_of_forall₂ h hexact, findNewest_of_same h hbase]

/-- A lookup finds nothing in either, or entries that are the same. -/
theorem SameContent.lookupEntry (h : SameContent cs cs') (n : PsirpName) (now : UInt64) :
    (lookupEntry cs n now = none ∧ DsoBrowser.lookupEntry cs' n now = none) ∨
      ∃ e e', DsoBrowser.lookupEntry cs n now = some e ∧
        DsoBrowser.lookupEntry cs' n now = some e' ∧ e'.data = e.data := by
  have hindex := lookupIndex_of_same h.entries n now
  rw [lookupEntry_eq, lookupEntry_eq, ← hindex]
  cases hi : lookupIndex cs.entries n now with
  | none => exact Or.inl ⟨rfl, rfl⟩
  | some i =>
    obtain ⟨e, he, -⟩ := lookupIndex_eq_some hi
    obtain ⟨e', he', hsame⟩ := exists_getElem?_of_forall₂ h.entries he
    refine Or.inr ⟨touch now e, touch now e', ?_, ?_, hsame.data_eq⟩
    · rw [Option.bind_some, he, Option.map_some]
    · rw [Option.bind_some, he', Option.map_some]

theorem SameContent.directAnswer_eq (h : SameContent cs cs') (n : PsirpName) (now : UInt64)
    (outCap : Nat) : directAnswer (DsoBrowser.lookupEntry cs' n now) outCap =
      directAnswer (DsoBrowser.lookupEntry cs n now) outCap := by
  rcases h.lookupEntry n now with ⟨he, he'⟩ | ⟨e, e', he, he', hdata⟩
  · rw [he, he']
  · rw [he, he', directAnswer, directAnswer, hdata]

theorem SameContent.touch (h : SameContent cs cs') (i : Nat) (now : UInt64) :
    SameContent { cs with entries := cs.entries.modify i (touch now) }
      { cs' with entries := cs'.entries.modify i (DsoBrowser.touch now) } :=
  ⟨forall₂_modify h.entries (fun _ _ he => he.touch now) i, h.capacity_eq, h.maxBytes_eq⟩

theorem SameContent.lookup (h : SameContent cs cs') (n : PsirpName) (now : UInt64) :
    SameContent (psirpCsLookup cs n now).2 (psirpCsLookup cs' n now).2 := by
  rw [psirpCsLookup, psirpCsLookup, ← lookupIndex_of_same h.entries]
  cases lookupIndex cs.entries n now with
  | none => exact h
  | some i => exact h.touch i now

end Same

/-! ## The same answers -/

section Answers

variable {heap heap' : StringHeap} {r : RawName} {now : UInt64}

/-- In a heap that has grown the `strcmp` loop gets as far. -/
theorem rawComponentsEqual_mono (hext : Extends heap heap') :
    ∀ {cs : List CString} {ptrs : List UInt64} {b : Bool},
      rawComponentsEqual heap cs ptrs = some b → rawComponentsEqual heap' cs ptrs = some b := by
  intro cs
  induction cs with
  | nil => exact fun h => h
  | cons c cs ih =>
    intro ptrs b h
    cases ptrs with
    | nil => cases h
    | cons p ps =>
      rw [rawComponentsEqual] at h ⊢
      split at h
      · cases h
      · rename_i s hs
        rw [hext p s hs]
        dsimp only
        split at h
        · rename_i hc
          rw [if_pos hc]
          exact ih h
        · rename_i hc
          rw [if_neg hc]
          exact h

theorem rawBaseEqual_mono (hext : Extends heap heap') {e : PsirpName} {b : Bool}
    (h : rawBaseEqual heap e r = some b) : rawBaseEqual heap' e r = some b := by
  rw [rawBaseEqual] at h ⊢
  split at h
  · rename_i hcount
    rw [if_pos hcount]
    exact h
  · rename_i hcount
    rw [if_neg hcount]
    exact rawComponentsEqual_mono hext h

theorem rawNameEqual_mono (hext : Extends heap heap') {e : PsirpName} {b : Bool}
    (h : rawNameEqual heap e r = some b) : rawNameEqual heap' e r = some b := by
  rw [rawNameEqual] at h ⊢
  split at h
  · rename_i hcount
    rw [if_pos hcount]
    exact h
  · rename_i hcount
    rw [if_neg hcount]
    split at h
    · rename_i hhash
      rw [if_pos hhash]
      exact h
    · rename_i hhash
      rw [if_neg hhash]
      exact rawComponentsEqual_mono hext h

theorem rawFindExact_of_same (hext : Extends heap heap') {es es' : List PsirpCsEntry}
    (h : List.Forall₂ SameEntry es es') : ∀ {found : Option Nat},
      rawFindExact heap r now es = some found → rawFindExact heap' r now es' = some found := by
  induction h with
  | nil => exact fun hf => hf
  | cons he _ ih =>
    intro found hf
    rw [rawFindExact, (he.expired now).1, if_neg Bool.false_ne_true] at hf
    rw [rawFindExact, (he.expired now).2, if_neg Bool.false_ne_true, he.name_eq]
    split at hf
    · cases hf
    · rename_i heq
      rw [rawNameEqual_mono hext heq]
      exact hf
    · rename_i heq
      rw [rawNameEqual_mono hext heq]
      obtain ⟨rest, hrest, rfl⟩ := Option.map_eq_some_iff.mp hf
      dsimp only
      rw [ih hrest, Option.map_some]

theorem rawFindNewest_of_same (hext : Extends heap heap') {es es' : List PsirpCsEntry}
    (h : List.Forall₂ SameEntry es es') :
    ∀ {i : Nat} {best : Option (Nat × UInt64)} {found : Option Nat},
      rawFindNewest heap r now es i best = some found →
        rawFindNewest heap' r now es' i best = some found := by
  induction h with
  | nil => exact fun hf => hf
  | cons he _ ih =>
    intro i best found hf
    rw [rawFindNewest, (he.expired now).1, if_neg Bool.false_ne_true] at hf
    rw [rawFindNewest, (he.expired now).2, if_neg Bool.false_ne_true, he.name_eq]
    split at hf
    · cases hf
    · rename_i eq heq
      rw [rawBaseEqual_mono hext heq]
      dsimp only
      split at hf
      · rename_i hbest
        rw [if_pos hbest]
        exact ih hf
      · rename_i hbest
        rw [if_neg hbest]
        exact ih hf

/-- A lookup by a name in memory finds the same. -/
theorem rawLookupIndex_of_same (hext : Extends heap heap') {es es' : List PsirpCsEntry}
    (h : List.Forall₂ SameEntry es es') {found : Option Nat}
    (hf : rawLookupIndex heap es r now = some found) :
    rawLookupIndex heap' es' r now = some found := by
  rw [rawLookupIndex] at hf ⊢
  split at hf
  · rename_i hv
    rw [if_pos hv]
    exact rawFindExact_of_same hext h hf
  · rename_i hv
    rw [if_neg hv]
    exact rawFindNewest_of_same hext h hf

/-- Reassembly writes the same. -/
theorem reassembleLoop_of_same (hext : Extends heap heap') {refs : List PsirpChunkRef}
    {now : Nat → UInt64} (left : Nat) : ∀ {i : Nat} {cs cs' cs₁ : PsirpCs} {out out' : List UInt8}
      {ok : Bool}, SameContent cs cs' →
      reassembleLoop heap refs now left i cs out = some (ok, out', cs₁) →
      ∃ cs₁', reassembleLoop heap' refs now left i cs' out = some (ok, out', cs₁') := by
  induction left with
  | zero =>
    intro i cs cs' cs₁ out out' ok _ h
    obtain ⟨rfl, rfl, -⟩ : true = ok ∧ out = out' ∧ cs = cs₁ := by simpa [reassembleLoop] using h
    exact ⟨cs', rfl⟩
  | succ left ih =>
    intro i cs cs' cs₁ out out' ok hsame h
    rw [reassembleLoop] at h ⊢
    split at h
    · cases h
    · rename_i ref href
      split at h
      · cases h
      · rename_i hmiss
        obtain ⟨rfl, rfl, -⟩ : false = ok ∧ out = out' ∧ cs = cs₁ := by simpa using h
        rw [rawLookupIndex_of_same hext hsame.entries hmiss]
        exact ⟨cs', rfl⟩
      · rename_i j hj
        rw [rawLookupIndex_of_same hext hsame.entries hj]
        dsimp only
        split at h
        · cases h
        · rename_i ce hce
          obtain ⟨ce', hce', he⟩ := exists_getElem?_of_forall₂ hsame.entries hce
          rw [hce']
          dsimp only
          rw [he.data_eq]
          exact ih (hsame.touch j (now i)) h

/-- **Readers do not see the bookkeeping.** Whatever `psirp_cs_lookup_chunked` answers, it answers
from a store with the same content and a heap that has grown. -/
theorem psirpCsLookupChunked_of_same {s s' : ChunkState} (hsame : SameContent s.cs s'.cs)
    (hext : Extends s.heap s'.heap) {name : PsirpName} {outCap : Nat} {direct now : Nat → UInt64}
    {answer : ChunkAnswer} {cs : PsirpCs}
    (h : psirpCsLookupChunked s name outCap direct now = some (answer, cs)) :
    ∃ cs', psirpCsLookupChunked s' name outCap direct now = some (answer, cs') := by
  rcases psirpCsLookupChunked_cases s name outCap direct now with
    ⟨hmn, heq⟩ | ⟨hmn, ⟨hnone, heq⟩ | ⟨me, hme, hrest⟩⟩
  · rw [heq] at h
    obtain ⟨rfl, -⟩ := Prod.mk.inj (Option.some.inj h)
    exact ⟨s'.cs, psirpCsLookupChunked_unnamed hmn⟩
  · -- the entry under the name itself
    rw [heq] at h
    obtain ⟨rfl, -⟩ := Prod.mk.inj (Option.some.inj h)
    rcases hsame.lookupEntry (manifestName name) (direct 0) with ⟨-, hnone'⟩ | ⟨me, -, hme, -, -⟩
    · rw [psirpCsLookupChunked_unlisted hmn hnone', hsame.directAnswer_eq]
      exact ⟨_, rfl⟩
    · rw [hnone] at hme
      cases hme
  · rcases hsame.lookupEntry (manifestName name) (direct 0) with
      ⟨hnone, -⟩ | ⟨me₀, me', hme₀, hme', hdata⟩
    · rw [hnone] at hme
      cases hme
    · obtain rfl := Option.some.inj (hme.symm.trans hme₀)
      rcases hrest with ⟨hbad, heq⟩ | ⟨hsize, hcap, heq⟩
      · rw [heq] at h
        obtain ⟨rfl, -⟩ := Prod.mk.inj (Option.some.inj h)
        exact ⟨_, psirpCsLookupChunked_rejected hmn hme' (by rwa [hdata])⟩
      · -- the slots of the manifest
        rw [heq] at h
        obtain ⟨⟨ok, out, cs₁⟩, hloop, hpair⟩ := Option.map_eq_some_iff.mp h
        obtain ⟨cs₁', hloop'⟩ := reassembleLoop_of_same hext _ (hsame.lookup _ _) hloop
        obtain ⟨rfl, -⟩ := Prod.mk.inj hpair
        rw [psirpCsLookupChunked_listed hmn hme' (by rwa [hdata]) (by rwa [hdata]), hdata, hloop',
          Option.map_some]
        exact ⟨cs₁', rfl⟩

end Answers

/-! ## Different answers -/

/-- What `psirp_cs_lookup_chunked` answers in the first state, it answers in the second. Where the
first leaves the answer undefined, nothing is asked of the second. -/
def AnswersAlike (s s' : ChunkState) : Prop :=
  ∀ name outCap direct now answer cs,
    psirpCsLookupChunked s name outCap direct now = some (answer, cs) →
    ∃ cs', psirpCsLookupChunked s' name outCap direct now = some (answer, cs')

/-- The piece is found under the name, which has no manifest. -/
structure Shows (cs : PsirpCs) (n : PsirpName) (x : List UInt8) : Prop where
  /-- all names in the store are unversioned -/
  table : PlainTable cs
  /-- the piece -/
  content : contentAt cs n.components = some x
  /-- no manifest -/
  unlisted : contentAt cs (manifestComponents n) = none

section Seen

variable {cs cs' : PsirpCs} {s s' : ChunkState} {n : PsirpName} {x : List UInt8}

theorem row_data_of_same {es es' : List PsirpCsEntry} (h : List.Forall₂ SameEntry es es')
    (k : List CString) : (row PsirpCsEntry.components es' k).map PsirpCsEntry.data =
      (row PsirpCsEntry.components es k).map PsirpCsEntry.data := by
  induction h with
  | nil => rfl
  | @cons e e' es es' he _ ih =>
    have hcomps : e'.components = e.components := congrArg PsirpName.components he.name_eq
    rw [row_cons, row_cons, hcomps]
    split
    · exact congrArg some he.data_eq
    · exact ih

theorem SameContent.contentAt_eq (h : SameContent cs cs') (k : List CString) :
    contentAt cs' k = contentAt cs k := row_data_of_same h.entries k

theorem SameContent.plainTable (h : SameContent cs cs') (htable : PlainTable cs) :
    PlainTable cs' := by
  refine ⟨fun e' he' => ?_, h.maxBytes_eq⟩
  obtain ⟨i, hi⟩ := List.mem_iff_getElem?.mp he'
  obtain ⟨e, he, hsame⟩ := exists_getElem?_of_forall₂ h.entries.flip hi
  have hplain := htable.plain e (List.mem_of_getElem? he)
  have hname : e'.name = e.name := hsame.name_eq
  exact ⟨hname ▸ hplain.selfHashed, hname ▸ hplain.version_eq, hsame.kept'⟩

/-- A store under another name leaves it there. -/
theorem Shows.store (h : Shows cs n x) {m : PsirpName} (hm : Parsed m) (hv : m.hasVersion = false)
    (hne : n.components ≠ m.components) (hne' : manifestComponents n ≠ m.components)
    (d : List UInt8) (t : UInt64) : Shows (psirpCsStore cs m d 0 t).2 n x := by
  cases hok : (psirpCsStore cs m d 0 t).1 with
  | false =>
    rw [psirpCsStore_of_refused hok]
    exact h
  | true =>
    obtain ⟨htable, hother, -⟩ := h.table.store hm hv (Prod.ext hok rfl)
    exact ⟨htable, (hother _ hne).trans h.content, (hother _ hne').trans h.unlisted⟩

/-- **A reader of the name sees it.** -/
theorem Shows.not_answersAlike (h : Shows s'.cs n x) (hn : Parsed n) (hv : n.hasVersion = false)
    (hshallow : Shallow n) (htable : PlainTable s.cs)
    (hunlisted : contentAt s.cs (manifestComponents n) = none)
    (hbefore : contentAt s.cs n.components ≠ some x) (hx : x ≠ []) : ¬ AnswersAlike s s' := by
  have hpath := hn.pathComponent hv
  have hmn := psirpNameInit_manifestPath_fst hv hpath
  obtain ⟨hcomps, hversioned⟩ := components_manifestName hv hpath hshallow
  have hmiss : ∀ {cs : PsirpCs}, PlainTable cs → contentAt cs (manifestComponents n) = none →
      lookupEntry cs (manifestName n) 0 = none := by
    intro cs htable hnone
    have hdata := htable.lookup_data hversioned 0
    rwa [hcomps, hnone, Option.map_eq_none_iff] at hdata
  intro halike
  -- what it gets afterwards
  have hdata := h.table.lookup_data hv 0
  rw [h.content] at hdata
  obtain ⟨e, he, rfl⟩ := Option.map_eq_some_iff.mp hdata
  have hafter := @psirpCsLookupChunked_of_none s' n e.data.length (fun _ => 0) (fun _ => 0) hmn
    (hmiss h.table h.unlisted) e he le_rfl
  -- what it got before
  have hanswer := @psirpCsLookupChunked_unlisted s n e.data.length (fun _ => 0) (fun _ => 0) hmn
    (hmiss htable hunlisted)
  obtain ⟨cs', hafter'⟩ := halike _ _ _ _ _ _ hanswer
  have hout := congrArg (fun r => r.map fun a => a.1.out) (hafter.symm.trans hafter')
  have hdata' := htable.lookup_data hv 0
  rw [← hdata'] at hbefore
  cases he₀ : lookupEntry s.cs n 0 with
  | none =>
    rw [he₀] at hout
    exact hx (Option.some.inj hout)
  | some e₀ =>
    rw [he₀] at hout hbefore
    rw [directAnswer] at hout
    split at hout
    · exact hbefore hout.symm
    · exact hx (Option.some.inj hout)

end Seen

end DsoBrowser
