import DsoBrowser.NameParse
import DsoBrowser.ContentStore

/-!
# The names a store holds

A new entry does not keep the hash of the name it was stored under: the name is rebuilt from
its components, so the entry is hashed over the canonical path. For the names the parser
builds this file says what that comes to:

* the entry has the components, the version and the version flag of the name, and the hash of
  the canonical path (`entryName_of_plain`);
* so in a store of such entries `psirp_name_equal` finds the first entry with the same
  components if the name is **self-hashed** (its own hash is that of its canonical path), and
  finds nothing otherwise (`findIdx?_of_selfHashed`, `findIdx?_of_not_selfHashed`);
* `csStep_forall` is the **entry rule**: what holds of new entries and survives an overwrite and
  a hit holds of every entry of the store.
-/

namespace DsoBrowser

open Table

/-! ## Hashes -/

/-- The hash of a component list: that of its canonical path. -/
def pathHash (components : List CString) : UInt64 := fnv1aHash (pathOf components).bytes

/-- A name whose hash is that of its canonical path. -/
def PsirpName.SelfHashed (n : PsirpName) : Prop := n.hash = pathHash n.components

instance (n : PsirpName) : Decidable n.SelfHashed := inferInstanceAs (Decidable (_ = _))

theorem psirpNameEqual_iff {a b : PsirpName} :
    psirpNameEqual a b = true ↔ a.hash = b.hash ∧ a.components = b.components := by
  simp only [psirpNameEqual, Bool.and_eq_true, decide_eq_true_eq]
  constructor
  · rintro ⟨⟨-, hhash⟩, hcomps⟩
    exact ⟨hhash, hcomps⟩
  · rintro ⟨hhash, hcomps⟩
    exact ⟨⟨congrArg List.length hcomps, hhash⟩, hcomps⟩

theorem nameBaseEqual_iff {a b : PsirpName} :
    nameBaseEqual a b = true ↔ a.components = b.components := by
  simp [nameBaseEqual]

/-- Against a self-hashed name, `psirp_name_equal` compares components and asks the other name
to be self-hashed too. -/
theorem psirpNameEqual_of_selfHashed {a b : PsirpName} (ha : a.SelfHashed) :
    psirpNameEqual a b = true ↔ b.SelfHashed ∧ a.components = b.components := by
  rw [psirpNameEqual_iff]
  constructor
  · rintro ⟨hhash, hcomps⟩
    refine ⟨?_, hcomps⟩
    rw [PsirpName.SelfHashed, ← hhash, ← hcomps]
    exact ha
  · rintro ⟨hb, hcomps⟩
    refine ⟨?_, hcomps⟩
    rw [ha, hcomps]
    exact hb.symm

/-! ## What a lookup returns -/

/-- A lookup chooses a live entry with the components of the name. -/
theorem lookupIndex_eq_some {es : List PsirpCsEntry} {n : PsirpName} {now : UInt64} {i : Nat}
    (h : lookupIndex es n now = some i) :
    ∃ e, es[i]? = some e ∧ entryExpired e now = false ∧ e.name.components = n.components := by
  simp only [lookupIndex] at h
  split at h
  · obtain ⟨hi, he, -⟩ := List.findIdx?_eq_some_iff_getElem.mp h
    rw [liveExact, Bool.and_eq_true, Bool.not_eq_true'] at he
    exact ⟨es[i], List.getElem?_eq_getElem hi, he.1, (psirpNameEqual_iff.mp he.2).2⟩
  · obtain ⟨e, hi, hel, -⟩ := findNewest_eq_some h
    rw [liveBase, Bool.and_eq_true, Bool.not_eq_true'] at hel
    exact ⟨e, hi, hel.1, nameBaseEqual_iff.mp hel.2⟩

theorem lookupEntry_eq (cs : PsirpCs) (n : PsirpName) (now : UInt64) :
    lookupEntry cs n now =
      (lookupIndex cs.entries n now).bind fun i => cs.entries[i]?.map (touch now) := by
  rw [lookupEntry, psirpCsLookup_fst]
  cases hi : lookupIndex cs.entries n now with
  | none => rfl
  | some i => exact psirpCsLookup_getElem? hi

theorem lookupEntry_eq_none {cs : PsirpCs} {n : PsirpName} {now : UInt64} :
    lookupEntry cs n now = none ↔ lookupIndex cs.entries n now = none := by
  rw [lookupEntry_eq]
  cases hi : lookupIndex cs.entries n now with
  | none => exact iff_of_true rfl rfl
  | some i =>
    obtain ⟨e, he, -⟩ := lookupIndex_eq_some hi
    simp [he]

/-- A lookup returns the entry it chooses, but for the bookkeeping. -/
theorem lookupEntry_eq_some_iff {cs : PsirpCs} {n : PsirpName} {now : UInt64} {e : PsirpCsEntry} :
    lookupEntry cs n now = some e ↔ ∃ i e₀, lookupIndex cs.entries n now = some i ∧
      cs.entries[i]? = some e₀ ∧ e = touch now e₀ := by
  rw [lookupEntry_eq]
  constructor
  · intro h
    obtain ⟨i, hi, he⟩ := Option.bind_eq_some_iff.mp h
    obtain ⟨e₀, he₀, rfl⟩ := Option.map_eq_some_iff.mp he
    exact ⟨i, e₀, hi, he₀, rfl⟩
  · rintro ⟨i, e₀, hi, he₀, rfl⟩
    rw [hi, Option.bind_some, he₀, Option.map_some]

/-- What a lookup returns is an entry of the store but for the bookkeeping. -/
theorem lookupEntry_eq_some {cs : PsirpCs} {n : PsirpName} {now : UInt64} {e : PsirpCsEntry}
    (h : lookupEntry cs n now = some e) : ∃ e₀ ∈ cs.entries, e = touch now e₀ := by
  obtain ⟨i, e₀, -, he₀, rfl⟩ := lookupEntry_eq_some_iff.mp h
  exact ⟨e₀, List.mem_of_getElem? he₀, rfl⟩

/-- What a lookup returns has the components looked for. -/
theorem components_of_lookupEntry {cs : PsirpCs} {n : PsirpName} {now : UInt64} {e : PsirpCsEntry}
    (h : lookupEntry cs n now = some e) : e.name.components = n.components := by
  obtain ⟨i, e₀, hi, he₀, rfl⟩ := lookupEntry_eq_some_iff.mp h
  obtain ⟨e₁, he₁, -, hcomps⟩ := lookupIndex_eq_some hi
  obtain rfl := Option.some.inj (he₀.symm.trans he₁)
  exact hcomps

/-- What a lookup returns has not expired. -/
theorem live_of_lookupEntry {cs : PsirpCs} {n : PsirpName} {now : UInt64} {e : PsirpCsEntry}
    (h : lookupEntry cs n now = some e) :
    ∃ e₀ ∈ cs.entries, e = touch now e₀ ∧ entryExpired e₀ now = false := by
  obtain ⟨i, e₀, hi, he₀, rfl⟩ := lookupEntry_eq_some_iff.mp h
  obtain ⟨e₁, he₁, hlive, -⟩ := lookupIndex_eq_some hi
  obtain rfl := Option.some.inj (he₀.symm.trans he₁)
  exact ⟨e₀, List.mem_of_getElem? he₀, rfl, hlive⟩

/-! ## New entries -/

/-- **The name of a new entry** keeps components and version and gets the hash of the canonical
path, whatever hash the name came with. -/
theorem entryName_of_plain {n : PsirpName} (h : ∀ c ∈ n.components, PlainComponent c) :
    entryName n = { n with hash := pathHash n.components } := by
  rw [entryName, psirpNameInitComponents_of_plain h n.count_le]
  rfl

theorem Parsed.entryName_eq {n : PsirpName} (h : Parsed n) :
    entryName n = { n with hash := pathHash n.components } :=
  entryName_of_plain h.wellFormed.plain

/-- A parsed name is stored under a self-hashed one. -/
theorem Parsed.selfHashed_entryName {n : PsirpName} (h : Parsed n) : (entryName n).SelfHashed := by
  rw [h.entryName_eq]
  rfl

/-! ## Scans of a store of self-hashed names -/

/-- The components of an entry's name, which tables of entries are searched by. -/
abbrev PsirpCsEntry.components (e : PsirpCsEntry) : List CString := e.name.components

/-- For a self-hashed name the scan is by components alone. -/
theorem findIdx?_of_selfHashed {es : List PsirpCsEntry} (h : ∀ e ∈ es, e.name.SelfHashed)
    {n : PsirpName} (hn : n.SelfHashed) :
    es.findIdx? (fun e => psirpNameEqual e.name n) =
      es.findIdx? fun e => decide (e.components = n.components) := by
  apply findIdx?_congr
  intro e he
  rw [Bool.eq_iff_iff, psirpNameEqual_of_selfHashed (h e he), decide_eq_true_eq]
  exact and_iff_right hn

/-- For any other name the scan finds nothing. -/
theorem findIdx?_of_not_selfHashed {es : List PsirpCsEntry} (h : ∀ e ∈ es, e.name.SelfHashed)
    {n : PsirpName} (hn : ¬ n.SelfHashed) :
    es.findIdx? (fun e => psirpNameEqual e.name n) = none := by
  rw [List.findIdx?_eq_none_iff]
  intro e he
  rw [Bool.eq_false_iff, ne_eq, psirpNameEqual_of_selfHashed (h e he)]
  exact fun hb => hn hb.1

/-! ## The entry rule -/

/-- Every entry of the store has `Q`. -/
def EveryEntry (Q : PsirpCsEntry → Prop) (cs : PsirpCs) : Prop := ∀ e ∈ cs.entries, Q e

theorem EveryEntry.subperm {Q : PsirpCsEntry → Prop} {cs cs' : PsirpCs} (h : EveryEntry Q cs)
    (hs : cs'.entries.Subperm cs.entries) : EveryEntry Q cs' :=
  fun e he => h e (hs.subset he)

/-- An update that keeps `Q` keeps it for every entry. -/
theorem EveryEntry.modify {Q : PsirpCsEntry → Prop} {es : List PsirpCsEntry} {i : Nat}
    {f : PsirpCsEntry → PsirpCsEntry} (h : ∀ e ∈ es, Q e)
    (hf : ∀ e, es[i]? = some e → Q e → Q (f e)) : ∀ e ∈ es.modify i f, Q e := by
  intro e he
  rcases mem_modify he with he | ⟨a, ha, rfl⟩
  · exact h e he
  · exact hf a ha (h a (List.mem_of_getElem? ha))

theorem EveryEntry.store {Q : PsirpCsEntry → Prop} {cs : PsirpCs} (h : EveryEntry Q cs)
    {n : PsirpName} {d : List UInt8} {f : UInt32} {now : UInt64}
    (hnew : Storable d → Q (newEntry n d f now))
    (hover : ∀ e, Storable d → psirpNameEqual e.name n = true → Q e → Q (overwrite d f now e)) :
    EveryEntry Q (psirpCsStore cs n d f now).2 := by
  rcases psirpCsStore_cases cs n d f now with ⟨hs, -⟩ | ⟨hd, i, b, hi, hs⟩ | ⟨hd, -, -, hs⟩
  · rw [hs]
    exact h
  · rw [hs]
    obtain ⟨hlt, heq, -⟩ := List.findIdx?_eq_some_iff_getElem.mp hi
    refine EveryEntry.modify h fun e he hQ => hover e hd ?_ hQ
    rw [List.getElem?_eq_getElem hlt] at he
    exact Option.some.inj he ▸ heq
  · rw [hs]
    intro e he
    rcases List.mem_append.mp ((enforceBudget_frame _).1.subset he) with he | he
    · exact h e he
    · rw [List.mem_singleton.mp he]
      exact hnew hd

theorem EveryEntry.modify_touch {Q : PsirpCsEntry → Prop} {cs : PsirpCs} (h : EveryEntry Q cs)
    (htouch : ∀ now e, Q e → Q (touch now e)) (i : Nat) (now : UInt64) :
    EveryEntry Q { cs with entries := cs.entries.modify i (touch now) } :=
  EveryEntry.modify h fun e _ hQ => htouch now e hQ

theorem EveryEntry.lookup {Q : PsirpCsEntry → Prop} {cs : PsirpCs} (h : EveryEntry Q cs)
    {n : PsirpName} {now : UInt64} (htouch : ∀ e, Q e → Q (touch now e)) :
    EveryEntry Q (psirpCsLookup cs n now).2 := by
  rcases psirpCsLookup_frame cs n now with hs | ⟨i, hs⟩
  · rw [hs]
    exact h
  · rw [hs]
    exact EveryEntry.modify h fun e _ hQ => htouch e hQ

theorem EveryEntry.remove {Q : PsirpCsEntry → Prop} {cs : PsirpCs} (h : EveryEntry Q cs)
    (n : PsirpName) : EveryEntry Q (psirpCsRemove cs n).2 := by
  rcases psirpCsRemove_cases cs n with ⟨-, hs⟩ | ⟨i, e, -, -, -, hs⟩
  · rw [hs]
    exact h
  · rw [hs]
    exact h.subperm (removeAt_subperm cs i)

/-- **Entry rule.** What the entry a call appends has, and overwriting and touching keep, every
entry keeps having. -/
theorem csStep_forall {Q : PsirpCsEntry → Prop} {op : CsOp}
    (hnew : ∀ n d f now, op = .store n d f now → Storable d → Q (newEntry n d f now))
    (hover : ∀ n d f now e, op = .store n d f now → Storable d →
      psirpNameEqual e.name n = true → Q e → Q (overwrite d f now e))
    (htouch : ∀ now e, Q e → Q (touch now e)) {cs : PsirpCs} (h : EveryEntry Q cs) :
    EveryEntry Q (csStep cs op).2 := by
  cases op with
  | init => exact fun e he => absurd he List.not_mem_nil
  | setBudget maxBytes => exact h
  | store n d f now => exact h.store (hnew n d f now rfl) fun e => hover n d f now e rfl
  | lookup n now => exact h.lookup (htouch now)
  | remove n => exact h.remove n
  | gc now => exact h.subperm (psirpCsGc_frame cs now).1

/-- The capacity never changes. -/
theorem capacity_csStep (cs : PsirpCs) (op : CsOp) (h : cs.capacity = psirpCsMaxEntries) :
    (csStep cs op).2.capacity = psirpCsMaxEntries := by
  cases op with
  | init => rfl
  | setBudget maxBytes => exact h
  | store n d f now =>
    change (psirpCsStore cs n d f now).2.capacity = _
    rcases psirpCsStore_cases cs n d f now with ⟨hs, -⟩ | ⟨-, i, b, -, hs⟩ | ⟨-, -, -, hs⟩
    · rw [hs]
      exact h
    · rw [hs]
      exact h
    · rw [hs]
      exact (enforceBudget_frame _).2.1.trans h
  | lookup n now =>
    change (psirpCsLookup cs n now).2.capacity = _
    rcases psirpCsLookup_frame cs n now with hs | ⟨i, hs⟩
    · rw [hs]
      exact h
    · rw [hs]
      exact h
  | remove n =>
    change (psirpCsRemove cs n).2.capacity = _
    rcases psirpCsRemove_cases cs n with ⟨-, hs⟩ | ⟨i, e, -, -, -, hs⟩
    · rw [hs]
      exact h
    · rw [hs]
      exact (capacity_removeAt cs i).trans h
  | gc now => exact (psirpCsGc_frame cs now).2.1.trans h

theorem Reachable.capacity {cs : PsirpCs} (h : Reachable cs) : cs.capacity = psirpCsMaxEntries := by
  obtain ⟨ops, rfl⟩ := h
  exact Machine.exec_inv (P := fun _ _ => True) (fun cs op hI _ => capacity_csStep cs op hI) rfl
    (Machine.along_input.mpr fun _ _ => trivial)

end DsoBrowser
