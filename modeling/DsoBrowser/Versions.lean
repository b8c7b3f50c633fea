import DsoBrowser.StoredNames

/-!
# Versions in the content store

`psirp_cs_store` and `psirp_cs_remove` find the entry they act on with `psirp_name_equal`, which
compares the hash the caller's name came with and the components, but not the versions. A
versioned name is hashed over its text, version included, while its entry is hashed over the
canonical path alone. This file says exactly when the store treats the versions of one name as
separate entries all the same:

* `versionIsolated_iff` — store and remove leave the other versions alone;
* `versionedReadYourWrites_iff` — what is stored under a versioned name can be read back and
  removed;
* `keysNodup_of_run` — no two entries share components and version, and data that was stored
  over is gone.

Each follows from what one call does to a table **cut at the entry it acts on**.
-/

namespace DsoBrowser

open Table Machine

/-- What the versions of a name are told apart by: components and version, which is `0` for an
unversioned name. -/
def PsirpName.key (n : PsirpName) : List CString × UInt64 := (n.components, n.version)

/-- The key of an entry. -/
abbrev PsirpCsEntry.key (e : PsirpCsEntry) : List CString × UInt64 := e.name.key

/-- The entry a store or a remove under a name acts on. -/
def actsOn (cs : PsirpCs) (n : PsirpName) : Option PsirpCsEntry :=
  cs.entries.find? fun e => psirpNameEqual e.name n

/-- A new entry has the key of the name it is stored under. -/
theorem key_newEntry {n : PsirpName} (h : Parsed n) (d : List UInt8) (f : UInt32) (now : UInt64) :
    (newEntry n d f now).key = n.key := by
  change (entryName n).key = n.key
  rw [h.entryName_eq]
  rfl

/-! ## Calls on a table cut at the entry they act on -/

section Cut

variable {cs : PsirpCs} {n : PsirpName} {l₁ l₂ : List PsirpCsEntry} {e : PsirpCsEntry}

/-- Either nothing matches the name, or the table can be cut at the first entry that does. -/
theorem actsOn_cut (cs : PsirpCs) (n : PsirpName) :
    (actsOn cs n = none ∧ ∀ e ∈ cs.entries, psirpNameEqual e.name n = false) ∨
      ∃ l₁ e l₂, actsOn cs n = some e ∧ cs.entries = l₁ ++ e :: l₂ ∧
        (∀ b ∈ l₁, psirpNameEqual b.name n = false) ∧ psirpNameEqual e.name n = true := by
  rcases cut_at_first (fun e => psirpNameEqual e.name n) cs.entries with h | ⟨l₁, e, l₂, hl, h₁, he⟩
  · refine Or.inl ⟨?_, h⟩
    rw [actsOn, List.find?_eq_none]
    intro e hmem
    simp [h e hmem]
  · refine Or.inr ⟨l₁, e, l₂, ?_, hl, h₁, he⟩
    rw [actsOn, List.find?_eq_some_iff_append]
    exact ⟨he, l₁, l₂, hl, fun b hb => by simp [h₁ b hb]⟩

theorem psirpCsStore_cut (hl : cs.entries = l₁ ++ e :: l₂)
    (h₁ : ∀ b ∈ l₁, psirpNameEqual b.name n = false) (he : psirpNameEqual e.name n = true)
    {d : List UInt8} (hd : Storable d) (f : UInt32) (now : UInt64) :
    ∃ bytes, psirpCsStore cs n d f now = (true, { cs with
      entries := l₁ ++ overwrite d f now e :: l₂
      bytesUsed := bytes }) := by
  have hidx : cs.entries.findIdx? (fun e => psirpNameEqual e.name n) = some l₁.length := by
    rw [hl]
    exact findIdx?_append_cons h₁ he
  rcases psirpCsStore_cases cs n d f now with ⟨-, hs⟩ | ⟨-, i, b, hi, hs⟩ | ⟨-, -, hi, -⟩
  · rw [(hs hd).2] at hidx
    cases hidx
  · obtain rfl : i = l₁.length := Option.some.inj (hi.symm.trans hidx)
    refine ⟨b, ?_⟩
    rw [hs, hl, modify_append_cons]
  · rw [hi] at hidx
    cases hidx

theorem psirpCsStore_fresh (hb : cs.maxBytes = 0) (hroom : cs.entries.length < cs.capacity)
    (h : ∀ e ∈ cs.entries, psirpNameEqual e.name n = false)
    {d : List UInt8} (hd : Storable d) (f : UInt32) (now : UInt64) :
    ∃ bytes, psirpCsStore cs n d f now = (true, { cs with
      entries := cs.entries ++ [newEntry n d f now]
      bytesUsed := bytes }) := by
  have hidx : cs.entries.findIdx? (fun e => psirpNameEqual e.name n) = none :=
    List.findIdx?_eq_none_iff.mpr h
  rcases psirpCsStore_cases_of_unlimited hb n d f now with
    ⟨-, hs⟩ | ⟨-, i, b, hi, -⟩ | ⟨-, -, -, b, hs⟩
  · exact absurd (hs hd).1 (Nat.not_le.mpr hroom)
  · rw [hi] at hidx
    cases hidx
  · exact ⟨b, hs⟩

theorem psirpCsRemove_cut (hl : cs.entries = l₁ ++ e :: l₂)
    (h₁ : ∀ b ∈ l₁, psirpNameEqual b.name n = false) (he : psirpNameEqual e.name n = true) :
    (psirpCsRemove cs n).1 = true ∧ ((psirpCsRemove cs n).2.entries).Perm (l₁ ++ l₂) := by
  have hidx : cs.entries.findIdx? (fun e => psirpNameEqual e.name n) = some l₁.length := by
    rw [hl]
    exact findIdx?_append_cons h₁ he
  rcases psirpCsRemove_cases cs n with ⟨hi, -⟩ | ⟨i, e', hi, he', -, hs⟩
  · rw [hi] at hidx
    cases hidx
  · obtain rfl : i = l₁.length := Option.some.inj (hi.symm.trans hidx)
    rw [hs]
    refine ⟨rfl, ?_⟩
    rw [entries_removeAt he', hl]
    exact swapRemove_append_cons_perm l₁ e l₂

theorem psirpCsRemove_fresh (h : ∀ e ∈ cs.entries, psirpNameEqual e.name n = false) :
    psirpCsRemove cs n = (false, cs) := by
  rcases psirpCsRemove_cases cs n with ⟨-, hs⟩ | ⟨i, e, -, he, heq, -⟩
  · exact hs
  · rw [h e (List.mem_of_getElem? he)] at heq
    cases heq

/-- A lookup under a versioned name returns the first match if it is live. -/
theorem psirpCsLookup_cut (hl : cs.entries = l₁ ++ e :: l₂)
    (h₁ : ∀ b ∈ l₁, psirpNameEqual b.name n = false) (he : psirpNameEqual e.name n = true)
    (hv : n.hasVersion = true) {now : UInt64} (hlive : entryExpired e now = false) :
    psirpCsLookup cs n now =
      (some l₁.length, { cs with entries := l₁ ++ touch now e :: l₂ }) := by
  have hidx : lookupIndex cs.entries n now = some l₁.length := by
    rw [lookupIndex, if_pos hv, hl]
    apply findIdx?_append_cons
    · intro b hb
      rw [liveExact, h₁ b hb, Bool.and_false]
    · rw [liveExact, hlive, he]
      rfl
  rw [psirpCsLookup, hidx]
  simp only [hl, modify_append_cons]

theorem lookupIndex_versioned_eq_none {es : List PsirpCsEntry} (hv : n.hasVersion = true)
    {now : UInt64} :
    lookupIndex es n now = none ↔
      ∀ e ∈ es, psirpNameEqual e.name n = true → entryExpired e now = true := by
  rw [lookupIndex, if_pos hv, List.findIdx?_eq_none_iff]
  refine forall₂_congr fun e _ => ?_
  rw [liveExact]
  cases entryExpired e now <;> simp

end Cut

/-! ## Isolation -/

/-- The key and the data of each entry under another key than `k`, in table order. -/
def contentOutside (k : List CString × UInt64) (es : List PsirpCsEntry) :
    List ((List CString × UInt64) × List UInt8) :=
  (es.filter fun e => decide (e.key ≠ k)).map fun e => (e.key, e.data)

theorem contentOutside_append (k : List CString × UInt64) (l₁ l₂ : List PsirpCsEntry) :
    contentOutside k (l₁ ++ l₂) = contentOutside k l₁ ++ contentOutside k l₂ := by
  rw [contentOutside, List.filter_append, List.map_append]
  rfl

theorem contentOutside_cons_of_eq {k : List CString × UInt64} {e : PsirpCsEntry} (h : e.key = k)
    (es : List PsirpCsEntry) : contentOutside k (e :: es) = contentOutside k es := by
  rw [contentOutside, List.filter_cons_of_neg (by simp [h])]
  rfl

theorem contentOutside_cons_of_ne {k : List CString × UInt64} {e : PsirpCsEntry} (h : e.key ≠ k)
    (es : List PsirpCsEntry) :
    contentOutside k (e :: es) = (e.key, e.data) :: contentOutside k es := by
  rw [contentOutside, List.filter_cons_of_pos (by simpa using h)]
  rfl

theorem contentOutside_perm {k : List CString × UInt64} {es es' : List PsirpCsEntry}
    (h : es.Perm es') : (contentOutside k es).Perm (contentOutside k es') :=
  (h.filter _).map _

/-- Storing and removing under a name leave the entries under other keys as they are. -/
structure VersionIsolated (cs : PsirpCs) (n : PsirpName) : Prop where
  /-- a store changes no data or version of theirs and neither adds nor drops one -/
  store : ∀ d f now,
    contentOutside n.key (psirpCsStore cs n d f now).2.entries = contentOutside n.key cs.entries
  /-- a remove drops none of them -/
  remove : (contentOutside n.key (psirpCsRemove cs n).2.entries).Perm
    (contentOutside n.key cs.entries)

/-- Entries that match a name differ from it at most in the version. -/
theorem key_eq_iff_of_equal {e n : PsirpName} (h : psirpNameEqual e n = true) :
    e.key = n.key ↔ e.version = n.version := by
  rw [PsirpName.key, PsirpName.key, (psirpNameEqual_iff.mp h).2, Prod.mk.injEq]
  exact and_iff_right rfl

/-- There is data unlike any given data. -/
theorem exists_storable_ne (d : List UInt8) : ∃ d', Storable d' ∧ d' ≠ d := by
  by_cases h : d = [0]
  · refine ⟨[1], ⟨by decide, by decide⟩, ?_⟩
    rw [h]
    decide
  · exact ⟨[0], ⟨by decide, by decide⟩, Ne.symm h⟩

/-- **Versions are isolated exactly when** the entry a store or a remove under the name acts on,
if there is one, has the version of the name. -/
theorem versionIsolated_iff {cs : PsirpCs} {n : PsirpName} (hb : cs.maxBytes = 0)
    (hn : Parsed n) :
    VersionIsolated cs n ↔ ∀ e, actsOn cs n = some e → e.name.version = n.version := by
  rcases actsOn_cut cs n with ⟨hnone, hfresh⟩ | ⟨l₁, e, l₂, hsome, hl, h₁, he⟩
  · -- nothing matches: a store appends an entry under the key, a remove does nothing
    refine iff_of_true ⟨?_, ?_⟩ ?_
    · intro d f now
      rcases psirpCsStore_cases_of_unlimited hb n d f now with
        ⟨hs, -⟩ | ⟨-, i, b, hi, -⟩ | ⟨-, -, -, b, hs⟩
      · rw [hs]
      · rw [List.findIdx?_eq_none_iff.mpr hfresh] at hi
        cases hi
      · rw [hs]
        change contentOutside n.key (cs.entries ++ [newEntry n d f now]) = _
        rw [contentOutside_append, contentOutside_cons_of_eq (key_newEntry hn d f now)]
        exact List.append_nil _
    · rw [psirpCsRemove_fresh hfresh]
    · intro e he
      rw [hnone] at he
      cases he
  · constructor
    · intro h e' he'
      obtain rfl : e = e' := Option.some.inj (hsome.symm.trans he')
      by_contra hne
      -- the entry belongs to another version, and a store overwrites its data
      have hkey : e.key ≠ n.key := fun hk => hne ((key_eq_iff_of_equal he).mp hk)
      obtain ⟨d, hd, hdne⟩ := exists_storable_ne e.data
      obtain ⟨b, hs⟩ := psirpCsStore_cut hl h₁ he hd 0 0
      have hiso := h.store d 0 0
      rw [hs, hl] at hiso
      simp only [contentOutside_append] at hiso
      have hkey' : (overwrite d 0 0 e).key ≠ n.key := hkey
      rw [contentOutside_cons_of_ne hkey, contentOutside_cons_of_ne hkey',
        List.append_cancel_left_eq] at hiso
      exact hdne (congrArg Prod.snd (List.cons.inj hiso).1)
    · -- the entry is under the key itself, which is left out
      intro h
      have hkey : e.key = n.key := (key_eq_iff_of_equal he).mpr (h e hsome)
      refine ⟨?_, ?_⟩
      · intro d f now
        by_cases hd : Storable d
        · obtain ⟨b, hs⟩ := psirpCsStore_cut hl h₁ he hd f now
          have hkey' : (overwrite d f now e).key = n.key := hkey
          rw [hs, hl]
          simp only [contentOutside_append, contentOutside_cons_of_eq hkey,
            contentOutside_cons_of_eq hkey']
        · rcases psirpCsStore_cases cs n d f now with ⟨hs, -⟩ | ⟨hd', -⟩ | ⟨hd', -⟩
          · rw [hs]
          · exact absurd hd' hd
          · exact absurd hd' hd
      · have hperm := contentOutside_perm (k := n.key) (psirpCsRemove_cut hl h₁ he).2
        rw [hl, contentOutside_append, contentOutside_cons_of_eq hkey, ← contentOutside_append]
        exact hperm

/-- A store under `/news` overwrites the data of `/news@1`: the two share components and the
hash the entry was given. -/
theorem not_versionIsolated_news :
    let cs := exec csStep psirpCsInit
      [.store (psirpNameInit (text ['/', 'n', 'e', 'w', 's', '@', '1'])).2 [1] 0 0]
    let n := (psirpNameInit (text ['/', 'n', 'e', 'w', 's'])).2
    Reachable cs ∧ cs.maxBytes = 0 ∧ Parsed n ∧ ¬ VersionIsolated cs n := by
  refine ⟨⟨_, rfl⟩, by decide, ⟨text ['/', 'n', 'e', 'w', 's'], by decide⟩, fun h => ?_⟩
  exact absurd (h.store [2] 0 0) (by decide +kernel)

/-- A store under `/news@2` does not. -/
theorem versionIsolated_iff_news :
    VersionIsolated (exec csStep psirpCsInit
        [.store (psirpNameInit (text ['/', 'n', 'e', 'w', 's', '@', '1'])).2 [1] 0 0])
      (psirpNameInit (text ['/', 'n', 'e', 'w', 's', '@', '2'])).2 := by
  refine (versionIsolated_iff (by decide) ⟨text ['/', 'n', 'e', 'w', 's', '@', '2'], by decide⟩).mpr
    fun e he => ?_
  have hnone : actsOn (exec csStep psirpCsInit
      [.store (psirpNameInit (text ['/', 'n', 'e', 'w', 's', '@', '1'])).2 [1] 0 0])
      (psirpNameInit (text ['/', 'n', 'e', 'w', 's', '@', '2'])).2 = none := by
    rw [actsOn, List.find?_eq_none]
    decide +kernel
  rw [hnone] at he
  cases he

/-! ## Reading back what was stored under a version -/

/-- After a successful store of `d` under `n`, a lookup returns an entry with that data and
version, a remove then succeeds, and a lookup after it returns nothing. The calls read the
clock as `now₁`, `now₂` and `now₃`. -/
def VersionedReadYourWrites (cs : PsirpCs) (n : PsirpName) (d : List UInt8)
    (now₁ now₂ now₃ : UInt64) : Prop :=
  (psirpCsStore cs n d 0 now₁).1 = true →
    let stored := (psirpCsStore cs n d 0 now₁).2
    let found := (psirpCsLookup stored n now₂).2
    let removed := (psirpCsRemove found n).2
    (∃ e, lookupEntry stored n now₂ = some e ∧ e.data = d ∧ e.name.version = n.version) ∧
      (psirpCsRemove found n).1 = true ∧ lookupEntry removed n now₃ = none

/-- The condition on the store and the name: the entry a store under `n` acts on has the
version of `n`, and all later matches have expired; if nothing matches, `n` is hashed over its
canonical path. -/
def ReadsBack (cs : PsirpCs) (n : PsirpName) (now : UInt64) : Prop :=
  match cs.entries.filter fun e => psirpNameEqual e.name n with
  | [] => n.SelfHashed
  | e :: rest => e.name.version = n.version ∧ ∀ e' ∈ rest, entryExpired e' now = true

section ReadBack

variable {n : PsirpName} {l₁ l₂ : List PsirpCsEntry} {e : PsirpCsEntry}

/-- Reading and removing the first match `e`, kept for ever: the read returns it, the remove
drops it, and the last read finds nothing when the later matches have expired. -/
theorem readBack_cut (cs : PsirpCs) (now₂ now₃ : UInt64) (hl : cs.entries = l₁ ++ e :: l₂)
    (h₁ : ∀ b ∈ l₁, psirpNameEqual b.name n = false) (he : psirpNameEqual e.name n = true)
    (hv : n.hasVersion = true) (hf : e.freshnessMs = 0) :
    lookupEntry cs n now₂ = some (touch now₂ e) ∧
      (psirpCsRemove (psirpCsLookup cs n now₂).2 n).1 = true ∧
      (lookupEntry (psirpCsRemove (psirpCsLookup cs n now₂).2 n).2 n now₃ = none ↔
        ∀ b ∈ l₂, psirpNameEqual b.name n = true → entryExpired b now₃ = true) := by
  have hlook := psirpCsLookup_cut hl h₁ he hv (entryExpired_of_freshness_zero hf now₂)
  have hfound : (psirpCsLookup cs n now₂).2.entries = l₁ ++ touch now₂ e :: l₂ := by
    rw [hlook]
  have hremoved := psirpCsRemove_cut hfound h₁ (by exact he)
  refine ⟨?_, hremoved.1, ?_⟩
  · rw [lookupEntry, hfound, hlook]
    exact getElem?_append_cons _ _ _
  · rw [lookupEntry_eq_none, lookupIndex_versioned_eq_none hv]
    constructor
    · intro h b hb hbn
      exact h b (hremoved.2.mem_iff.mpr (List.mem_append_right _ hb)) hbn
    · intro h b hb hbn
      rcases List.mem_append.mp (hremoved.2.mem_iff.mp hb) with hb | hb
      · rw [h₁ b hb] at hbn
        cases hbn
      · exact h b hb hbn

/-- Where nothing matches, a new entry is stored under the rebuilt name, and the lookups find it if
the name has that entry's hash. -/
theorem readYourWrites_fresh_iff {cs : PsirpCs} {d : List UInt8} (hr : Reachable cs)
    (hb : cs.maxBytes = 0) (hroom : cs.entries.length < psirpCsMaxEntries) (hn : Parsed n)
    (hv : n.hasVersion = true) (hd : Storable d)
    (hfresh : ∀ e ∈ cs.entries, psirpNameEqual e.name n = false) (now₁ now₂ now₃ : UInt64) :
    VersionedReadYourWrites cs n d now₁ now₂ now₃ ↔ n.SelfHashed := by
  rw [← hr.capacity] at hroom
  obtain ⟨b, hs⟩ := psirpCsStore_fresh hb hroom hfresh hd 0 now₁
  rw [VersionedReadYourWrites, hs]
  have hself : (newEntry n d 0 now₁).name.SelfHashed := hn.selfHashed_entryName
  have hcomps : (newEntry n d 0 now₁).name.components = n.components :=
    congrArg Prod.fst (key_newEntry hn d 0 now₁)
  refine ⟨fun h => ?_, fun hsn _ => ?_⟩
  · by_contra hsn
    obtain ⟨⟨e, he, -⟩, -⟩ := h rfl
    -- the new entry's hash is not the name's, so the lookup misses it
    have hmiss : lookupIndex (cs.entries ++ [newEntry n d 0 now₁]) n now₂ = none := by
      rw [lookupIndex_versioned_eq_none hv]
      intro e he heq
      rcases List.mem_append.mp he with he | he
      · rw [hfresh e he] at heq
        cases heq
      · rw [List.mem_singleton.mp he] at heq
        exact absurd ((psirpNameEqual_of_selfHashed hself).mp heq).1 hsn
    rw [lookupEntry_eq_none.mpr hmiss] at he
    cases he
  · obtain ⟨hfound, hrem, hlast⟩ := readBack_cut
      { cs with entries := cs.entries ++ [newEntry n d 0 now₁], bytesUsed := b } now₂ now₃ rfl
      hfresh ((psirpNameEqual_of_selfHashed hself).mpr ⟨hsn, hcomps⟩) hv rfl
    exact ⟨⟨_, hfound, rfl, congrArg Prod.snd (key_newEntry hn d 0 now₁)⟩, hrem,
      hlast.mpr fun b hb => absurd hb List.not_mem_nil⟩

/-- Otherwise the first match is overwritten, and the later matches come to light when it is
removed. -/
theorem readYourWrites_cut_iff {cs : PsirpCs} {d : List UInt8} (hv : n.hasVersion = true)
    (hd : Storable d) (hl : cs.entries = l₁ ++ e :: l₂)
    (h₁ : ∀ b ∈ l₁, psirpNameEqual b.name n = false) (he : psirpNameEqual e.name n = true)
    (now₁ now₂ now₃ : UInt64) :
    VersionedReadYourWrites cs n d now₁ now₂ now₃ ↔ e.name.version = n.version ∧
      ∀ b ∈ l₂, psirpNameEqual b.name n = true → entryExpired b now₃ = true := by
  obtain ⟨b, hs⟩ := psirpCsStore_cut hl h₁ he hd 0 now₁
  have he' : psirpNameEqual (overwrite d 0 now₁ e).name n = true := he
  obtain ⟨hfound, hrem, hlast⟩ := readBack_cut
    { cs with entries := l₁ ++ overwrite d 0 now₁ e :: l₂, bytesUsed := b } now₂ now₃ rfl h₁ he'
    hv rfl
  rw [VersionedReadYourWrites, hs]
  refine ⟨fun h => ?_, ?_⟩
  · obtain ⟨⟨e₁, he₁, -, hver⟩, -, hnone⟩ := h rfl
    obtain rfl := Option.some.inj (hfound.symm.trans he₁)
    exact ⟨hver, hlast.mp hnone⟩
  · rintro ⟨hver, hexp⟩ -
    exact ⟨⟨_, hfound, rfl, hver⟩, hrem, hlast.mpr hexp⟩

end ReadBack

/-- **What is stored under a version can be read back exactly when** `ReadsBack` holds of the
store and the name, at the time of the last lookup. -/
theorem versionedReadYourWrites_iff {cs : PsirpCs} {n : PsirpName} {d : List UInt8}
    (hr : Reachable cs) (hb : cs.maxBytes = 0) (hroom : cs.entries.length < psirpCsMaxEntries)
    (hn : Parsed n) (hv : n.hasVersion = true) (hd : Storable d) (now₁ now₂ now₃ : UInt64) :
    VersionedReadYourWrites cs n d now₁ now₂ now₃ ↔ ReadsBack cs n now₃ := by
  rcases actsOn_cut cs n with ⟨-, hfresh⟩ | ⟨l₁, e, l₂, -, hl, h₁, he⟩
  · have hnone : cs.entries.filter (fun e => psirpNameEqual e.name n) = [] := by
      rw [List.filter_eq_nil_iff]
      intro e he
      simp [hfresh e he]
    rw [ReadsBack, hnone]
    exact readYourWrites_fresh_iff hr hb hroom hn hv hd hfresh now₁ now₂ now₃
  · have hfilter : cs.entries.filter (fun e => psirpNameEqual e.name n) =
        e :: l₂.filter fun e => psirpNameEqual e.name n := by
      have hnil : l₁.filter (fun e => psirpNameEqual e.name n) = [] := by
        rw [List.filter_eq_nil_iff]
        intro b hb
        simp [h₁ b hb]
      rw [hl, List.filter_append, hnil, List.filter_cons_of_pos (by exact he)]
      rfl
    rw [ReadsBack, hfilter, readYourWrites_cut_iff hv hd hl h₁ he now₁ now₂ now₃]
    refine and_congr_right fun _ => forall_congr' fun b => ?_
    rw [List.mem_filter, and_imp]

theorem versionedReadYourWrites_iff_init :
    VersionedReadYourWrites psirpCsInit (psirpNameInit (text ['/', 'a', '@', '1'])).2 [7] 0 0 0 ↔
      ReadsBack psirpCsInit (psirpNameInit (text ['/', 'a', '@', '1'])).2 0 :=
  versionedReadYourWrites_iff ⟨[], rfl⟩ (by decide) (by decide)
    ⟨text ['/', 'a', '@', '1'], by decide⟩ (by decide) (by decide) 0 0 0

/-- What is stored under `/a@1` in an empty store is not found again. -/
theorem not_versionedReadYourWrites_a :
    let n := (psirpNameInit (text ['/', 'a', '@', '1'])).2
    Reachable psirpCsInit ∧ Parsed n ∧ n.hasVersion = true ∧
      ¬ VersionedReadYourWrites psirpCsInit n [7] 0 0 0 := by
  refine ⟨⟨[], rfl⟩, ⟨text ['/', 'a', '@', '1'], by decide⟩, by decide, fun h => ?_⟩
  obtain ⟨⟨e, he, -⟩, -⟩ := h (by decide +kernel)
  exact absurd he (by
    rw [lookupEntry_eq_none.mpr (by decide +kernel)]
    exact nofun)

/-! ## Distinct keys -/

/-- No two entries have the same key. -/
abbrev KeysNodup (cs : PsirpCs) : Prop := Keyed PsirpCsEntry.key cs.entries

/-- The call names content by names `psirp_name_init` built. -/
def CsOp.NamesParsed : CsOp → Prop
  | .store n _ _ _ => Parsed n
  | .lookup n _ => Parsed n
  | .remove n => Parsed n
  | _ => True

/-- If the call is a store of data that `psirp_cs_store` takes, and an entry has the key of its
name, then the entry the store acts on has the version of that name too. -/
def StoresOver (cs : PsirpCs) : CsOp → Prop
  | .store n d _ _ => Storable d → (∃ e ∈ cs.entries, e.key = n.key) →
      ∃ e, actsOn cs n = some e ∧ e.name.version = n.version
  | _ => True

/-- The data the stores among the calls were given. -/
def storedData (ops : List CsOp) : List (List UInt8) :=
  ops.filterMap fun
    | .store _ d _ _ => some d
    | _ => none

section DistinctKeys

variable {cs : PsirpCs} {n : PsirpName} {d : List UInt8} {f : UInt32} {now : UInt64}

/-- A store either leaves the keys alone or, when nothing had the key, adds it. -/
theorem KeysNodup.store (h : KeysNodup cs) (hn : Parsed n)
    (hover : StoresOver cs (.store n d f now)) : KeysNodup (psirpCsStore cs n d f now).2 := by
  rcases psirpCsStore_cases cs n d f now with ⟨hs, -⟩ | ⟨-, i, b, -, hs⟩ | ⟨hd, -, hi, hs⟩
  · rw [hs]
    exact h
  · rw [hs]
    exact Keyed.modify h fun _ => rfl
  · rw [hs]
    refine Keyed.subperm (Keyed.concat h fun e he hkey => ?_) (enforceBudget_frame _).1
    obtain ⟨e', he', -⟩ := hover hd ⟨e, he, hkey.trans (key_newEntry hn d f now)⟩
    -- an entry the store acts on would have been found
    have hmatch := List.findIdx?_eq_none_iff.mp hi e' (List.mem_of_find?_eq_some he')
    rw [List.find?_some he'] at hmatch
    cases hmatch

theorem KeysNodup.step (h : KeysNodup cs) {op : CsOp} (hop : op.NamesParsed)
    (hover : StoresOver cs op) : KeysNodup (csStep cs op).2 := by
  cases op with
  | init => exact List.nodup_nil
  | setBudget maxBytes => exact h
  | store n d f now => exact h.store hop hover
  | lookup n now =>
    rw [KeysNodup, Keyed]
    change ((psirpCsLookup cs n now).2.entries.map _).Nodup
    rw [psirpCsLookup_map fun _ _ => rfl]
    exact h
  | remove n =>
    change KeysNodup (psirpCsRemove cs n).2
    rcases psirpCsRemove_cases cs n with ⟨-, hs⟩ | ⟨i, e, -, -, -, hs⟩
    · rw [hs]
      exact h
    · rw [hs]
      exact Keyed.subperm h (removeAt_subperm cs i)
  | gc now => exact Keyed.subperm h (psirpCsGc_frame cs now).1

/-- After a successful store every entry under the key of the name holds the data stored. -/
theorem KeysNodup.data_of_store (h : KeysNodup cs)
    (hover : StoresOver cs (.store n d f now)) (hok : (psirpCsStore cs n d f now).1 = true) :
    ∀ e ∈ (psirpCsStore cs n d f now).2.entries, e.key = n.key → e.data = d := by
  intro e he hkey
  rcases psirpCsStore_cases cs n d f now with ⟨hs, -⟩ | ⟨hd, i, b, hi, hs⟩ | ⟨hd, -, hi, hs⟩
  · rw [hs] at hok
    cases hok
  · rcases actsOn_cut cs n with ⟨-, hfresh⟩ | ⟨l₁, e₀, l₂, hsome, hl, h₁, he₀⟩
    · rw [List.findIdx?_eq_none_iff.mpr hfresh] at hi
      cases hi
    · obtain ⟨b', hs'⟩ := psirpCsStore_cut hl h₁ he₀ hd f now
      rw [hs'] at he
      have hsplit : e = overwrite d f now e₀ ∨ e ∈ l₁ ++ l₂ := by
        rcases List.mem_append.mp he with he | he
        · exact Or.inr (List.mem_append_left _ he)
        · exact (List.mem_cons.mp he).imp_right (List.mem_append_right _)
      rcases hsplit with rfl | hmem
      · rfl
      · -- another entry with the key would share it with the one acted on
        have hmem' : e ∈ cs.entries := by
          rw [hl]
          exact (List.perm_middle.mem_iff).mpr (List.mem_cons_of_mem _ hmem)
        obtain ⟨e₁, he₁, hver⟩ := hover hd ⟨e, hmem', hkey⟩
        obtain rfl : e₀ = e₁ := Option.some.inj (hsome.symm.trans he₁)
        rw [KeysNodup, hl] at h
        exact absurd (hkey.trans ((key_eq_iff_of_equal he₀).mpr hver).symm) (h.key_ne_of_cut hmem)
  · rw [hs] at he
    rcases List.mem_append.mp ((enforceBudget_frame _).1.subset he) with he | he
    · -- no entry had the key, or the store would have acted on it
      obtain ⟨e', he', -⟩ := hover hd ⟨e, he, hkey⟩
      have hmatch := List.findIdx?_eq_none_iff.mp hi e' (List.mem_of_find?_eq_some he')
      rw [List.find?_some he'] at hmatch
      cases hmatch
    · rw [List.mem_singleton.mp he]
      rfl

/-- From a store in which every entry under `k` holds data from `D`, calls that only store data
from `D` lead to such a store. -/
theorem data_mem_of_run {k : List CString × UInt64} {D : List (List UInt8)} {ops : List CsOp}
    (hops : ∀ op ∈ ops, ∀ n d f now, op = .store n d f now → d ∈ D)
    (h : EveryEntry (fun e => e.key = k → e.data ∈ D) cs) :
    EveryEntry (fun e => e.key = k → e.data ∈ D) (exec csStep cs ops) := by
  refine exec_inv (P := fun _ op => ∀ n d f now, op = .store n d f now → d ∈ D) ?_ h
    (along_input.mpr hops)
  intro cs op hI hop
  refine csStep_forall ?_ ?_ ?_ hI
  · intro n d f now hst _ _
    exact hop n d f now hst
  · intro n d f now e hst _ _ _ _
    exact hop n d f now hst
  · intro now e hQ
    exact hQ

theorem mem_storedData {ops : List CsOp} (hop : CsOp.store n d f now ∈ ops) :
    d ∈ storedData ops :=
  List.mem_filterMap.mpr ⟨_, hop, rfl⟩

end DistinctKeys

/-- **Distinct keys.** In a run whose stores all store over the entry under their key, if there
is one, no two entries of the store reached have the same key; and once data was stored under a
key, neither the table nor a lookup has data under it that was stored before. -/
theorem keysNodup_of_run {ops : List CsOp} (hparsed : ∀ op ∈ ops, op.NamesParsed)
    (hover : Along csStep StoresOver psirpCsInit ops) :
    KeysNodup (exec csStep psirpCsInit ops) ∧
      ∀ before n d f now after, ops = before ++ .store n d f now :: after →
        (psirpCsStore (exec csStep psirpCsInit before) n d f now).1 = true →
        (∀ e ∈ (exec csStep psirpCsInit ops).entries, e.key = n.key →
          e.data ∈ d :: storedData after) ∧
        ∀ m t e, lookupEntry (exec csStep psirpCsInit ops) m t = some e → e.key = n.key →
          e.data ∈ d :: storedData after := by
  have hrun : Along csStep (fun cs op => op.NamesParsed ∧ StoresOver cs op) psirpCsInit ops :=
    (along_input.mpr hparsed).and hover
  have hstep : ∀ cs op, KeysNodup cs → op.NamesParsed ∧ StoresOver cs op →
      KeysNodup (csStep cs op).2 := fun cs op h hop => h.step hop.1 hop.2
  refine ⟨exec_inv hstep List.nodup_nil hrun, ?_⟩
  rintro before n d f now after rfl hok
  obtain ⟨hbefore, ⟨-, hstore⟩, -⟩ := (along_append _ _ _ _).mp hrun
  have hkeys : KeysNodup (exec csStep psirpCsInit before) :=
    exec_inv hstep List.nodup_nil hbefore
  -- from the store on, every entry under the key holds its data or data stored later
  have hentries : EveryEntry (fun e => e.key = n.key → e.data ∈ d :: storedData after)
      (exec csStep psirpCsInit (before ++ .store n d f now :: after)) := by
    rw [exec_append, exec_cons]
    apply data_mem_of_run
    · rintro op hop n' d' f' now' rfl
      exact List.mem_cons_of_mem _ (mem_storedData hop)
    · intro e he hkey
      rw [hkeys.data_of_store hstore hok e he hkey]
      exact List.mem_cons_self
  refine ⟨hentries, ?_⟩
  intro m t e he hkey
  obtain ⟨e₀, he₀, rfl⟩ := lookupEntry_eq_some he
  exact hentries e₀ he₀ hkey

/-- A run that stores over what it stored. -/
theorem keysNodup_of_run_a :
    let n := (psirpNameInit (text ['/', 'a'])).2
    let ops : List CsOp := [.store n [1] 0 0, .store n [2] 0 1]
    KeysNodup (exec csStep psirpCsInit ops) ∧
      ∀ before n d f now after, ops = before ++ .store n d f now :: after →
        (psirpCsStore (exec csStep psirpCsInit before) n d f now).1 = true →
        (∀ e ∈ (exec csStep psirpCsInit ops).entries, e.key = n.key →
          e.data ∈ d :: storedData after) ∧
        ∀ m t e, lookupEntry (exec csStep psirpCsInit ops) m t = some e → e.key = n.key →
          e.data ∈ d :: storedData after := by
  have hn : Parsed (psirpNameInit (text ['/', 'a'])).2 := ⟨text ['/', 'a'], by decide⟩
  refine keysNodup_of_run ?_ ⟨?_, ?_, trivial⟩
  · intro op hop
    rcases List.mem_cons.mp hop with rfl | hop
    · exact hn
    · exact List.mem_singleton.mp hop ▸ hn
  · rintro - ⟨e, he, -⟩
    exact absurd he List.not_mem_nil
  · intro _ _
    exact ⟨newEntry (psirpNameInit (text ['/', 'a'])).2 [1] 0 0, by decide +kernel, by decide⟩

/-- Storing `/a@1` twice makes two entries of one key. -/
theorem not_keysNodup_a :
    let n := (psirpNameInit (text ['/', 'a', '@', '1'])).2
    Parsed n ∧
      ¬ KeysNodup (exec csStep psirpCsInit [.store n [1] 0 0, .store n [2] 0 1]) :=
  ⟨⟨text ['/', 'a', '@', '1'], by decide⟩, by
    rw [KeysNodup, Keyed]
    decide +kernel⟩

end DsoBrowser
