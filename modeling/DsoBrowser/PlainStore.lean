import DsoBrowser.StoredNames

/-!
# On plain names the content store is a finite map

Restricted to unversioned names of canonical paths, data stored for ever and no byte budget,
the content store answers every sequence of calls as a finite map from component lists to data
does, bounded at `psirpCsMaxEntries` keys (`psirpCs_refines_map`).

The **invariant** that carries the simulation is `StandsFor`: the table, keyed by component
lists, represents the map, and every entry is one such a call left behind (`PlainEntry`).
-/

namespace DsoBrowser

open Table

/-! ## The restricted interface -/

/-- The components `c1, ..., ck` of a canonical path `/c1/.../ck` a name has room for. -/
structure PlainKey where
  /-- the components -/
  components : List CString
  /-- each is one path segment of at most 63 bytes, without `'@'` -/
  path : ∀ c ∈ components, PathComponent c
  /-- there is one -/
  ne_nil : components ≠ []
  /-- there are at most sixteen -/
  length_le : components.length ≤ psirpMaxComponents

/-- The name `psirp_name_init` builds from the canonical path. -/
def PlainKey.name (k : PlainKey) : PsirpName := (psirpNameInit (pathOf k.components)).2

/-- `/a` -/
def keyA : PlainKey := ⟨[text ['a']], by decide, by decide, by decide⟩

/-- A call on plain names, with data that is not rejected and never expires. -/
inductive PlainOp where
  /-- `psirp_cs_store` -/
  | store : PlainKey → {d : List UInt8 // Storable d} → UInt64 → PlainOp
  /-- `psirp_cs_lookup` -/
  | lookup : PlainKey → UInt64 → PlainOp
  /-- `psirp_cs_remove` -/
  | remove : PlainKey → PlainOp
  /-- `psirp_cs_gc` -/
  | gc : UInt64 → PlainOp

/-- The call itself. -/
def PlainOp.call : PlainOp → CsOp
  | .store k d now => .store k.name d.val 0 now
  | .lookup k now => .lookup k.name now
  | .remove k => .remove k.name
  | .gc now => .gc now

/-- An answer with the data of the entry a lookup points to in place of the entry. -/
def CsAnswer.observe : CsAnswer PsirpCsEntry → CsAnswer (List UInt8)
  | .done => .done
  | .verdict ok => .verdict ok
  | .found e => .found (e.map PsirpCsEntry.data)
  | .evicted n => .evicted n

/-- The content store under plain calls. -/
def plainStep (cs : PsirpCs) (op : PlainOp) : CsAnswer (List UInt8) × PsirpCs :=
  ((csStep cs op.call).1.observe, (csStep cs op.call).2)

/-! ## The map -/

/-- A finite map from component lists to data. -/
abbrev ContentMap : Type := Finmap fun _ : List CString => List UInt8

/-- The same calls on the bounded map. -/
def mapStep (m : ContentMap) : PlainOp → CsAnswer (List UInt8) × ContentMap
  | .store k d _ =>
    if k.components ∈ m ∨ m.keys.card < psirpCsMaxEntries then
      (.verdict true, m.insert k.components d.val)
    else (.verdict false, m)
  | .lookup k _ => (.found (m.lookup k.components), m)
  | .remove k => (.verdict (decide (k.components ∈ m)), m.erase k.components)
  | .gc _ => (.evicted 0, m)

/-! ## The simulation -/

theorem PlainKey.name_eq (k : PlainKey) :
    k.name = ⟨k.components, pathHash k.components, 0, false, k.length_le⟩ :=
  congrArg Prod.snd (psirpNameInit_pathOf k.path k.ne_nil k.length_le)

theorem PlainKey.parsed (k : PlainKey) : Parsed k.name :=
  ⟨pathOf k.components, by
    rw [k.name_eq]
    exact psirpNameInit_pathOf k.path k.ne_nil k.length_le⟩

@[simp] theorem PlainKey.components_name (k : PlainKey) : k.name.components = k.components := by
  rw [k.name_eq]

@[simp] theorem PlainKey.hasVersion_name (k : PlainKey) : k.name.hasVersion = false := by
  rw [k.name_eq]

theorem PlainKey.selfHashed_name (k : PlainKey) : k.name.SelfHashed := by
  rw [k.name_eq]
  rfl

/-- An entry that a store under a plain name left behind. -/
structure PlainEntry (e : PsirpCsEntry) : Prop where
  /-- hashed over the canonical path -/
  selfHashed : e.name.SelfHashed
  /-- version `0` -/
  version_eq : e.name.version = 0
  /-- kept for ever -/
  freshness_eq : e.freshnessMs = 0

theorem plainEntry_newEntry {n : PsirpName} (hn : Parsed n) (hv : n.hasVersion = false)
    (d : List UInt8) (now : UInt64) : PlainEntry (newEntry n d 0 now) := by
  refine ⟨hn.selfHashed_entryName, ?_, rfl⟩
  change (entryName n).version = 0
  rw [hn.entryName_eq]
  exact hn.wellFormed.version_eq hv

/-- A store under an unversioned name, of data kept for ever, leaves plain entries. -/
theorem EveryEntry.plain_store {cs : PsirpCs} (h : EveryEntry PlainEntry cs) {n : PsirpName}
    (hn : Parsed n) (hv : n.hasVersion = false) (d : List UInt8) (now : UInt64) :
    EveryEntry PlainEntry (psirpCsStore cs n d 0 now).2 :=
  h.store (fun _ => plainEntry_newEntry hn hv d now)
    fun _ _ _ he => ⟨he.selfHashed, he.version_eq, rfl⟩

/-- The bookkeeping of a hit leaves plain entries. -/
theorem EveryEntry.plain_touch {cs : PsirpCs} (h : EveryEntry PlainEntry cs) (i : Nat)
    (now : UInt64) :
    EveryEntry PlainEntry { cs with entries := cs.entries.modify i (touch now) } :=
  h.modify_touch (fun _ _ he => ⟨he.selfHashed, he.version_eq, he.freshness_eq⟩) i now

/-- Among plain entries a lookup under an unversioned name is a scan by components. -/
theorem lookupIndex_of_plain {es : List PsirpCsEntry} (h : ∀ e ∈ es, PlainEntry e) {n : PsirpName}
    (hv : n.hasVersion = false) (now : UInt64) :
    lookupIndex es n now = es.findIdx? fun e => decide (e.components = n.components) := by
  rw [lookupIndex, hv, if_neg Bool.false_ne_true,
    findNewest_of_version_zero fun e he _ => (h e he).version_eq]
  apply findIdx?_congr
  intro e he
  rw [liveBase, entryExpired_of_freshness_zero (h e he).freshness_eq, Bool.not_false,
    Bool.true_and, nameBaseEqual]

/-- So it returns the first entry with the components of the name. -/
theorem lookupEntry_of_plain {cs : PsirpCs} (h : EveryEntry PlainEntry cs) {n : PsirpName}
    (hv : n.hasVersion = false) (now : UInt64) :
    lookupEntry cs n now =
      (row PsirpCsEntry.components cs.entries n.components).map (touch now) := by
  rw [lookupEntry_eq, lookupIndex_of_plain h hv, row, List.find?_eq_bind_findIdx?_getElem?,
    Option.map_bind]
  rfl

/-- A store of plain entries without a byte budget. -/
structure PlainTable (cs : PsirpCs) : Prop where
  /-- its entries -/
  plain : EveryEntry PlainEntry cs
  /-- there is no byte budget -/
  maxBytes_eq : cs.maxBytes = 0

/-- The data found first under the components. -/
def contentAt (cs : PsirpCs) (k : List CString) : Option (List UInt8) :=
  (row PsirpCsEntry.components cs.entries k).map PsirpCsEntry.data

section Contents

variable {cs : PsirpCs} {n : PsirpName}

theorem plainTable_init : PlainTable psirpCsInit := ⟨fun _ he => absurd he List.not_mem_nil, rfl⟩

/-- That is the data of a lookup. -/
theorem PlainTable.lookup_data (h : PlainTable cs) (hv : n.hasVersion = false) (now : UInt64) :
    (lookupEntry cs n now).map PsirpCsEntry.data = contentAt cs n.components := by
  rw [lookupEntry_of_plain h.plain hv, Option.map_map]
  rfl

/-- And a lookup chooses the entry that has it. -/
theorem PlainTable.lookupIndex_of_content (h : PlainTable cs) (hv : n.hasVersion = false)
    {d : List UInt8} (hd : contentAt cs n.components = some d) (now : UInt64) :
    ∃ j e, lookupIndex cs.entries n now = some j ∧ cs.entries[j]? = some e ∧ e.data = d := by
  have hmap := h.lookup_data hv now
  rw [hd, DsoBrowser.lookupEntry_eq] at hmap
  obtain ⟨e, he, hdata⟩ := Option.map_eq_some_iff.mp hmap
  obtain ⟨j, hj, hj'⟩ := Option.bind_eq_some_iff.mp he
  obtain ⟨e₀, he₀, rfl⟩ := Option.map_eq_some_iff.mp hj'
  exact ⟨j, e₀, hj, he₀, hdata⟩

theorem PlainTable.touch (h : PlainTable cs) (i : Nat) (now : UInt64) :
    PlainTable { cs with entries := cs.entries.modify i (touch now) } :=
  ⟨h.plain.plain_touch i now, h.maxBytes_eq⟩

theorem contentAt_touch (cs : PsirpCs) (i : Nat) (now : UInt64) (k : List CString) :
    contentAt { cs with entries := cs.entries.modify i (touch now) } k = contentAt cs k :=
  row_map_modify_of_comp (f := touch now) (fun _ => rfl) (fun _ => rfl) k

/-- A lookup changes nothing that is found. -/
theorem PlainTable.lookup_frame (h : PlainTable cs) (n : PsirpName) (now : UInt64) :
    PlainTable (psirpCsLookup cs n now).2 ∧
      ∀ k, contentAt (psirpCsLookup cs n now).2 k = contentAt cs k := by
  rcases psirpCsLookup_frame cs n now with hs | ⟨i, hs⟩
  · rw [hs]
    exact ⟨h, fun _ => rfl⟩
  · rw [hs]
    exact ⟨h.touch i now, contentAt_touch cs i now⟩

/-- **A store** changes what is found under the components of its name alone, and there the new data
is found, or what was found before, if the name has another hash than its components. -/
theorem PlainTable.store (h : PlainTable cs) (hn : Parsed n) (hv : n.hasVersion = false)
    {d : List UInt8} {now : UInt64} {cs' : PsirpCs}
    (hs : psirpCsStore cs n d 0 now = (true, cs')) :
    PlainTable cs' ∧ (∀ k ≠ n.components, contentAt cs' k = contentAt cs k) ∧
      (contentAt cs' n.components = some d ∨
        ¬ n.SelfHashed ∧ contentAt cs' n.components = contentAt cs n.components ∧
          contentAt cs n.components ≠ none) := by
  have hplain : EveryEntry PlainEntry cs' := by
    have hplain := h.plain.plain_store hn hv d now
    rwa [hs] at hplain
  rcases psirpCsStore_cases_of_unlimited h.maxBytes_eq n d 0 now with
    ⟨hs', -⟩ | ⟨-, i, b, hi, hs'⟩ | ⟨-, -, hnone, b, hs'⟩
  · rw [hs'] at hs
    cases hs
  · -- an entry with the components of the name is overwritten: the first of them
    obtain rfl := (Prod.mk.inj (hs'.symm.trans hs)).2
    obtain ⟨hlt, heq, -⟩ := List.findIdx?_eq_some_iff_getElem.mp hi
    have hself : n.SelfHashed := ((psirpNameEqual_of_selfHashed
      (h.plain _ (List.getElem_mem hlt)).selfHashed).mp heq).1
    rw [findIdx?_of_selfHashed (fun e he => (h.plain e he).selfHashed) hself] at hi
    have hrow := row_modify_first (f := overwrite d 0 now) hi fun _ => rfl
    refine ⟨⟨hplain, h.maxBytes_eq⟩, fun k hk => ?_, Or.inl ?_⟩
    · rw [contentAt, hrow, if_neg hk, contentAt]
    · rw [contentAt, hrow, if_pos rfl, row_eq_of_findIdx? hi, List.getElem?_eq_getElem hlt]
      rfl
  · -- a new entry comes last
    obtain rfl := (Prod.mk.inj (hs'.symm.trans hs)).2
    have hcomps : (newEntry n d 0 now).components = n.components := by
      change (entryName n).components = _
      rw [hn.entryName_eq]
    refine ⟨⟨hplain, h.maxBytes_eq⟩, fun k hk => ?_, ?_⟩
    · rw [contentAt, row_concat, hcomps, if_neg (Ne.symm hk), Option.or_none, contentAt]
    · rw [contentAt, contentAt, row_concat, hcomps, if_pos rfl]
      cases hrow : row PsirpCsEntry.components cs.entries n.components with
      | none => exact Or.inl rfl
      | some e =>
        refine Or.inr ⟨fun hself => ?_, rfl, nofun⟩
        rw [findIdx?_of_selfHashed (fun e he => (h.plain e he).selfHashed) hself] at hnone
        rw [row, List.find?_eq_bind_findIdx?_getElem?, hnone] at hrow
        cases hrow

end Contents

/-- The content store stands for the map. -/
structure StandsFor (cs : PsirpCs) (m : ContentMap) : Prop where
  /-- the table represents it -/
  represents : Represents PsirpCsEntry.components PsirpCsEntry.data cs.entries m
  /-- by plain entries -/
  plain : EveryEntry PlainEntry cs
  /-- the table has its initial size -/
  capacity_eq : cs.capacity = psirpCsMaxEntries
  /-- there is no byte budget -/
  maxBytes_eq : cs.maxBytes = 0

theorem StandsFor.table {cs : PsirpCs} {m : ContentMap} (h : StandsFor cs m) : PlainTable cs :=
  ⟨h.plain, h.maxBytes_eq⟩

/-- The map has what is found first. -/
theorem StandsFor.contentAt_eq {cs : PsirpCs} {m : ContentMap} (h : StandsFor cs m)
    (k : List CString) : contentAt cs k = m.lookup k := (h.represents.lookup_eq k).symm

theorem standsFor_init : StandsFor psirpCsInit ∅ :=
  ⟨Represents.nil, fun _ he => absurd he List.not_mem_nil, rfl, rfl⟩

section Steps

variable {cs : PsirpCs} {m : ContentMap}

/-- The duplicate check is a scan by components. -/
theorem StandsFor.findIdx?_eq (h : StandsFor cs m) (k : PlainKey) :
    cs.entries.findIdx? (fun e => psirpNameEqual e.name k.name) =
      cs.entries.findIdx? fun e => decide (e.components = k.components) := by
  rw [findIdx?_of_selfHashed (fun e he => (h.plain e he).selfHashed) k.selfHashed_name,
    k.components_name]

/-- The map has a key exactly when the duplicate check finds it. -/
theorem StandsFor.notMem_iff (h : StandsFor cs m) (k : PlainKey) :
    k.components ∉ m ↔
      cs.entries.findIdx? (fun e => psirpNameEqual e.name k.name) = none := by
  rw [h.findIdx?_eq, List.findIdx?_eq_none_iff, h.represents.mem_iff]
  simp

theorem StandsFor.store (h : StandsFor cs m) (k : PlainKey) (d : {d : List UInt8 // Storable d})
    (now : UInt64) :
    (plainStep cs (.store k d now)).1 = (mapStep m (.store k d now)).1 ∧
      StandsFor (plainStep cs (.store k d now)).2 (mapStep m (.store k d now)).2 := by
  have hcard : m.keys.card = cs.entries.length := h.represents.card_keys
  have hplain : EveryEntry PlainEntry (psirpCsStore cs k.name d.val 0 now).2 :=
    h.plain.plain_store k.parsed k.hasVersion_name d.val now
  simp only [plainStep, PlainOp.call, csStep, mapStep]
  rcases psirpCsStore_cases_of_unlimited h.maxBytes_eq k.name d.val 0 now with
    ⟨hs, hfull⟩ | ⟨-, i, b, hi, hs⟩ | ⟨-, hroom, hnone, b, hs⟩
  · -- refused: the key is new and the table is full
    obtain ⟨hcap, hnone⟩ := hfull d.property
    rw [h.capacity_eq, ← hcard] at hcap
    have hm : ¬ (k.components ∈ m ∨ m.keys.card < psirpCsMaxEntries) := by
      rintro (hk | hlt)
      · exact (h.notMem_iff k).mpr hnone hk
      · omega
    rw [hs, if_neg hm]
    exact ⟨rfl, h⟩
  · -- the key is present: its data is overwritten
    have hk : k.components ∈ m := by
      by_contra hk
      rw [(h.notMem_iff k).mp hk] at hi
      cases hi
    rw [hs] at hplain ⊢
    rw [if_pos (Or.inl hk)]
    rw [h.findIdx?_eq] at hi
    exact ⟨rfl, h.represents.modify_first hi (fun _ => rfl) (fun _ => rfl), hplain,
      h.capacity_eq, h.maxBytes_eq⟩
  · -- the key is new and there is room: an entry is appended
    have hk : k.components ∉ m := (h.notMem_iff k).mpr hnone
    rw [hs] at hplain ⊢
    rw [if_pos (Or.inr (by rw [hcard, ← h.capacity_eq]; exact hroom))]
    have hcomps : (newEntry k.name d.val 0 now).components = k.components := by
      change (entryName k.name).components = _
      rw [k.parsed.entryName_eq]
      exact k.components_name
    have hrep := h.represents.concat (a := newEntry k.name d.val 0 now) (by rwa [hcomps])
    rw [hcomps] at hrep
    exact ⟨rfl, hrep, hplain, h.capacity_eq, h.maxBytes_eq⟩

/-- A successful store inserts. -/
theorem StandsFor.store_of_true (h : StandsFor cs m) (k : PlainKey) {d : List UInt8}
    {now : UInt64} {cs' : PsirpCs} (hs : psirpCsStore cs k.name d 0 now = (true, cs')) :
    StandsFor cs' (m.insert k.components d) := by
  have hd : Storable d := storable_of_psirpCsStore hs
  obtain ⟨hans, hstands⟩ := h.store k ⟨d, hd⟩ now
  simp only [plainStep, PlainOp.call, csStep, hs, CsAnswer.observe, mapStep] at hans hstands
  split at hans
  · rename_i hroom
    rwa [if_pos hroom] at hstands
  · simp at hans

/-- The bookkeeping of a hit changes nothing the map sees. -/
theorem StandsFor.touch (h : StandsFor cs m) (i : Nat) (now : UInt64) :
    StandsFor { cs with entries := cs.entries.modify i (touch now) } m :=
  ⟨h.represents.modify_of_comp (fun _ => rfl) (fun _ => rfl), h.plain.plain_touch i now,
    h.capacity_eq, h.maxBytes_eq⟩

theorem StandsFor.lookup (h : StandsFor cs m) (k : PlainKey) (now : UInt64) :
    (plainStep cs (.lookup k now)).1 = (mapStep m (.lookup k now)).1 ∧
      StandsFor (plainStep cs (.lookup k now)).2 (mapStep m (.lookup k now)).2 := by
  have hrow : m.lookup k.components =
      (row PsirpCsEntry.components cs.entries k.components).map PsirpCsEntry.data :=
    h.represents.lookup_eq _
  simp only [plainStep, PlainOp.call, csStep, mapStep, lookupEntry, psirpCsLookup_fst]
  have hi := lookupIndex_of_plain h.plain k.hasVersion_name now
  rw [k.components_name] at hi
  cases hidx : cs.entries.findIdx? fun e => decide (e.components = k.components) with
  | none =>
    rw [hidx] at hi
    have hnone : row PsirpCsEntry.components cs.entries k.components = none := by
      rw [row_eq_none]
      intro e he
      simpa using List.findIdx?_eq_none_iff.mp hidx e he
    rw [psirpCsLookup, hi, hrow, hnone]
    exact ⟨rfl, h⟩
  | some i =>
    rw [hidx] at hi
    have hfound : (psirpCsLookup cs k.name now).2.entries[i]?.map PsirpCsEntry.data =
        cs.entries[i]?.map PsirpCsEntry.data := by
      rw [psirpCsLookup_getElem? hi, Option.map_map]
      rfl
    rw [hi, hrow, row_eq_of_findIdx? hidx, ← hfound]
    rw [psirpCsLookup, hi]
    exact ⟨rfl, h.touch i now⟩

/-- What a lookup under an unversioned name finds is what the map has under its components. -/
theorem StandsFor.lookup_data (h : StandsFor cs m) {n : PsirpName} (hv : n.hasVersion = false)
    (now : UInt64) :
    (lookupEntry cs n now).map PsirpCsEntry.data = m.lookup n.components := by
  rw [h.table.lookup_data hv, h.contentAt_eq]

theorem StandsFor.lookup_frame (h : StandsFor cs m) (n : PsirpName) (now : UInt64) :
    StandsFor (psirpCsLookup cs n now).2 m := by
  rcases psirpCsLookup_frame cs n now with hs | ⟨i, hs⟩
  · rw [hs]
    exact h
  · rw [hs]
    exact h.touch i now

theorem StandsFor.remove (h : StandsFor cs m) (k : PlainKey) :
    (plainStep cs (.remove k)).1 = (mapStep m (.remove k)).1 ∧
      StandsFor (plainStep cs (.remove k)).2 (mapStep m (.remove k)).2 := by
  have hplain : EveryEntry PlainEntry (psirpCsRemove cs k.name).2 := h.plain.remove k.name
  simp only [plainStep, PlainOp.call, csStep, mapStep]
  rcases psirpCsRemove_cases cs k.name with ⟨hnone, hs⟩ | ⟨i, e, hi, he, heq, hs⟩
  · -- nothing is found, and there is nothing to erase
    have hk : k.components ∉ m := (h.notMem_iff k).mpr hnone
    have herase : m.erase k.components = m := by
      apply Finmap.ext_lookup
      intro k'
      by_cases hk' : k' = k.components
      · rw [hk', Finmap.lookup_erase, Finmap.lookup_eq_none.mpr hk]
      · rw [Finmap.lookup_erase_ne hk']
    rw [hs, herase, decide_eq_false hk]
    exact ⟨rfl, h⟩
  · have hcomps : e.components = k.components := by
      rw [← k.components_name]
      exact (psirpNameEqual_iff.mp heq).2
    have hk : k.components ∈ m :=
      (h.represents.mem_iff _).mpr ⟨e, List.mem_of_getElem? he, hcomps⟩
    have hrep := h.represents.swapRemove he
    rw [← entries_removeAt he, hcomps] at hrep
    rw [hs] at hplain ⊢
    rw [decide_eq_true hk]
    exact ⟨rfl, hrep, hplain, (capacity_removeAt cs i).trans h.capacity_eq,
      (maxBytes_removeAt cs i).trans h.maxBytes_eq⟩

theorem StandsFor.gc (h : StandsFor cs m) (now : UInt64) :
    (plainStep cs (.gc now)).1 = (mapStep m (.gc now)).1 ∧
      StandsFor (plainStep cs (.gc now)).2 (mapStep m (.gc now)).2 := by
  have hgc : psirpCsGc cs now = (0, cs) := psirpCsGc_of_fresh h.maxBytes_eq fun e he =>
    entryExpired_of_freshness_zero (h.plain e he).freshness_eq now
  simp only [plainStep, PlainOp.call, csStep, mapStep, hgc]
  exact ⟨rfl, h⟩

/-- **Step.** Related states answer a call alike and stay related. -/
theorem StandsFor.step (h : StandsFor cs m) (op : PlainOp) :
    (plainStep cs op).1 = (mapStep m op).1 ∧
      StandsFor (plainStep cs op).2 (mapStep m op).2 := by
  cases op with
  | store k d now => exact h.store k d now
  | lookup k now => exact h.lookup k now
  | remove k => exact h.remove k
  | gc now => exact h.gc now

end Steps

/-- **Refinement.** Over every sequence of plain calls the content store gives the answers of
the bounded finite map. -/
theorem psirpCs_refines_map (ops : List PlainOp) :
    Machine.outs plainStep psirpCsInit ops = Machine.outs mapStep ∅ ops :=
  (Machine.outs_eq_of_simulates (P := fun _ _ => True) (fun _ _ op h _ => h.step op)
    standsFor_init (Machine.along_input.mpr fun _ _ => trivial)).1

end DsoBrowser
