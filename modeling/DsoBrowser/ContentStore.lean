import DsoBrowser.Name
import DsoBrowser.Lib.Machine
import DsoBrowser.Lib.Table
import DsoBrowser.Lib.FirstMax

/-!
# The content store

The LRU, byte-budgeted content store of `psirp.c`. The entry array and its `count` are one list;
slots past `count` are never read. Entry data is the list of its bytes, `data_len` its length.
Every operation that reads the clock takes the reading as an argument. Pointers are non-null and
`malloc` succeeds.

`psirp_cs_lookup` returns a pointer into the table, which is modelled by the index of the entry.

After the operations come their **specification lemmas**, one per operation
(`psirpCsStore_cases`, `psirpCsLookup_eq`, `psirpCsRemove_cases`, `psirpCsGc_of_fresh`): the
results about runs cite these and unfold no operation.
-/

namespace DsoBrowser

open Table FirstMax

/-- `PSIRP_MAX_DATA` -/
def psirpMaxData : Nat := 1048576

/-- `PSIRP_CHUNK_SIZE` -/
def psirpChunkSize : Nat := 64 * 1024

/-- `PSIRP_CS_MAX_ENTRIES` -/
def psirpCsMaxEntries : Nat := 4096

/-- `psirp_cs_entry` -/
structure PsirpCsEntry where
  /-- content name -/
  name : PsirpName
  /-- content data; `data_len` is its length -/
  data : List UInt8
  /-- when published (ns) -/
  timestamp : UInt64
  /-- validity period, `0` for ever -/
  freshnessMs : UInt32
  /-- for LRU eviction -/
  lastAccessNs : UInt64
  /-- number of lookups that returned the entry -/
  accessCount : UInt64
  /-- never set by the store -/
  isChunk : Bool
  deriving DecidableEq

/-- `e->data_len` -/
def PsirpCsEntry.dataLen (e : PsirpCsEntry) : UInt64 := UInt64.ofNat e.data.length

/-- `psirp_cs` -/
structure PsirpCs where
  /-- the first `count` slots of the entry table -/
  entries : List PsirpCsEntry
  /-- maximal number of entries -/
  capacity : Nat
  /-- byte budget, `0` for unlimited -/
  maxBytes : UInt64
  /-- bytes currently held -/
  bytesUsed : UInt64
  deriving DecidableEq

/-- `psirp_cs_init` -/
def psirpCsInit : PsirpCs := ⟨[], psirpCsMaxEntries, 0, 0⟩

/-- `psirp_cs_set_budget` -/
def psirpCsSetBudget (cs : PsirpCs) (maxBytes : UInt64) : PsirpCs := { cs with maxBytes := maxBytes }

/-- `entry_expired` -/
def entryExpired (e : PsirpCsEntry) (now : UInt64) : Bool :=
  if e.freshnessMs = 0 then false
  else e.freshnessMs.toUInt64 < (now - e.timestamp) / 1000000

/-- Free an entry and swap-remove its slot, as the store, remove and gc all do. -/
def removeAt (cs : PsirpCs) (i : Nat) : PsirpCs :=
  match cs.entries[i]? with
  | none => cs
  | some e => { cs with
      entries := swapRemove cs.entries i
      bytesUsed := cs.bytesUsed - e.dataLen }

/-- The scan for the least recently used entry, from position `i` on. -/
def lruLoop : List PsirpCsEntry → Nat → Nat → UInt64 → Nat
  | [], _, lru, _ => lru
  | e :: es, i, lru, least =>
    if e.lastAccessNs < least then lruLoop es (i + 1) i e.lastAccessNs
    else lruLoop es (i + 1) lru least

/-- The first entry with the smallest `last_access_ns`. -/
def lruIndex : List PsirpCsEntry → Nat
  | [] => 0
  | e :: es => lruLoop es 1 0 e.lastAccessNs

/-- The `while (cs->bytes_used > cs->max_bytes && cs->count > 0)` loop. It frees one entry a
round, so the entry count is enough fuel. -/
def budgetLoop : Nat → PsirpCs → Nat × PsirpCs
  | 0, cs => (0, cs)
  | fuel + 1, cs =>
    if cs.maxBytes < cs.bytesUsed ∧ cs.entries ≠ [] then
      let (evicted, cs') := budgetLoop fuel (removeAt cs (lruIndex cs.entries))
      (evicted + 1, cs')
    else (0, cs)

/-- The budget step at the end of `psirp_cs_store` and of `psirp_cs_gc`. -/
def enforceBudget (cs : PsirpCs) : Nat × PsirpCs :=
  if 0 < cs.maxBytes then budgetLoop cs.entries.length cs else (0, cs)

/-- The in-place update of a duplicate. -/
def overwrite (data : List UInt8) (freshnessMs : UInt32) (now : UInt64) (e : PsirpCsEntry) :
    PsirpCsEntry :=
  { e with data := data, timestamp := now, freshnessMs := freshnessMs, lastAccessNs := now }

/-- The name written into a new entry: rebuilt from the components, with the version copied
over. The verdict of the rebuild is ignored. -/
def entryName (name : PsirpName) : PsirpName :=
  { (psirpNameInitComponents name.components).2 with
    version := name.version
    hasVersion := name.hasVersion }

/-- A new entry. -/
def newEntry (name : PsirpName) (data : List UInt8) (freshnessMs : UInt32) (now : UInt64) :
    PsirpCsEntry :=
  ⟨entryName name, data, now, freshnessMs, now, 0, false⟩

/-- `psirp_cs_store` -/
def psirpCsStore (cs : PsirpCs) (name : PsirpName) (data : List UInt8) (freshnessMs : UInt32)
    (now : UInt64) : Bool × PsirpCs :=
  if data.length = 0 then (false, cs)
  else if psirpMaxData < data.length then (false, cs)
  else
    match cs.entries.findIdx? fun e => psirpNameEqual e.name name with
    | some i =>
      let oldLen := (cs.entries[i]?.map PsirpCsEntry.dataLen).getD 0
      (true, { cs with
        entries := cs.entries.modify i (overwrite data freshnessMs now)
        bytesUsed := cs.bytesUsed - oldLen + UInt64.ofNat data.length })
    | none =>
      if cs.capacity ≤ cs.entries.length then (false, cs)
      else
        (true, (enforceBudget { cs with
          entries := cs.entries ++ [newEntry name data freshnessMs now]
          bytesUsed := cs.bytesUsed + UInt64.ofNat data.length }).2)

/-- The scan of an unversioned lookup from position `i` on; `best` is the entry chosen so far,
with its version. -/
def findNewest (eligible : PsirpCsEntry → Bool) :
    List PsirpCsEntry → Nat → Option (Nat × UInt64) → Option Nat
  | [], _, best => best.map Prod.fst
  | e :: es, i, best =>
    if eligible e && best.all fun b => b.2 < e.name.version then
      findNewest eligible es (i + 1) (some (i, e.name.version))
    else findNewest eligible es (i + 1) best

/-- An entry the versioned scan of a lookup stops at. -/
def liveExact (name : PsirpName) (now : UInt64) (e : PsirpCsEntry) : Bool :=
  !entryExpired e now && psirpNameEqual e.name name

/-- An entry the unversioned scan of a lookup considers. -/
def liveBase (name : PsirpName) (now : UInt64) (e : PsirpCsEntry) : Bool :=
  !entryExpired e now && nameBaseEqual e.name name

/-- The entry `psirp_cs_lookup` chooses. -/
def lookupIndex (entries : List PsirpCsEntry) (name : PsirpName) (now : UInt64) : Option Nat :=
  if name.hasVersion then entries.findIdx? (liveExact name now)
  else findNewest (liveBase name now) entries 0 none

/-- The LRU bookkeeping of a hit. -/
def touch (now : UInt64) (e : PsirpCsEntry) : PsirpCsEntry :=
  { e with lastAccessNs := now, accessCount := e.accessCount + 1 }

/-- `psirp_cs_lookup` -/
def psirpCsLookup (cs : PsirpCs) (name : PsirpName) (now : UInt64) : Option Nat × PsirpCs :=
  match lookupIndex cs.entries name now with
  | none => (none, cs)
  | some i => (some i, { cs with entries := cs.entries.modify i (touch now) })

/-- The entry `psirp_cs_lookup` returns a pointer to. -/
def lookupEntry (cs : PsirpCs) (name : PsirpName) (now : UInt64) : Option PsirpCsEntry :=
  (psirpCsLookup cs name now).1.bind ((psirpCsLookup cs name now).2.entries[·]?)

/-- `psirp_cs_remove` -/
def psirpCsRemove (cs : PsirpCs) (name : PsirpName) : Bool × PsirpCs :=
  match cs.entries.findIdx? fun e => psirpNameEqual e.name name with
  | none => (false, cs)
  | some i => (true, removeAt cs i)

/-- The expiry loop of `psirp_cs_gc`, over positions `i - 1` down to `0`. -/
def gcLoop (now : UInt64) : Nat → PsirpCs → Nat × PsirpCs
  | 0, cs => (0, cs)
  | i + 1, cs =>
    match cs.entries[i]? with
    | none => gcLoop now i cs
    | some e =>
      if entryExpired e now then
        let (evicted, cs') := gcLoop now i (removeAt cs i)
        (evicted + 1, cs')
      else gcLoop now i cs

/-- `psirp_cs_gc` -/
def psirpCsGc (cs : PsirpCs) (now : UInt64) : Nat × PsirpCs :=
  let (expired, cs') := gcLoop now cs.entries.length cs
  let (evicted, cs'') := enforceBudget cs'
  (expired + evicted, cs'')

/-! ## The store as a machine -/

/-- A call of the content store interface, with the clock reading it makes. -/
inductive CsOp where
  /-- `psirp_cs_init` -/
  | init : CsOp
  /-- `psirp_cs_set_budget` -/
  | setBudget : UInt64 → CsOp
  /-- `psirp_cs_store` -/
  | store : PsirpName → List UInt8 → UInt32 → UInt64 → CsOp
  /-- `psirp_cs_lookup` -/
  | lookup : PsirpName → UInt64 → CsOp
  /-- `psirp_cs_remove` -/
  | remove : PsirpName → CsOp
  /-- `psirp_cs_gc` -/
  | gc : UInt64 → CsOp

/-- What a call returns, where lookups return an `α`. -/
inductive CsAnswer (α : Type) where
  /-- nothing -/
  | done : CsAnswer α
  /-- a verdict -/
  | verdict : Bool → CsAnswer α
  /-- what a lookup points to, if anything -/
  | found : Option α → CsAnswer α
  /-- a number of evicted entries -/
  | evicted : Nat → CsAnswer α

/-- One call. -/
def csStep (cs : PsirpCs) : CsOp → CsAnswer PsirpCsEntry × PsirpCs
  | .init => (.done, psirpCsInit)
  | .setBudget maxBytes => (.done, psirpCsSetBudget cs maxBytes)
  | .store name data freshnessMs now =>
    let (ok, cs') := psirpCsStore cs name data freshnessMs now
    (.verdict ok, cs')
  | .lookup name now => (.found (lookupEntry cs name now), (psirpCsLookup cs name now).2)
  | .remove name =>
    let (ok, cs') := psirpCsRemove cs name
    (.verdict ok, cs')
  | .gc now =>
    let (n, cs') := psirpCsGc cs now
    (.evicted n, cs')

/-- A store some sequence of calls after `psirp_cs_init` leads to. -/
def Reachable (cs : PsirpCs) : Prop := ∃ ops, cs = Machine.exec csStep psirpCsInit ops

/-! ## Removing entries -/

@[simp] theorem capacity_removeAt (cs : PsirpCs) (i : Nat) :
    (removeAt cs i).capacity = cs.capacity := by
  rw [removeAt]
  split <;> rfl

@[simp] theorem maxBytes_removeAt (cs : PsirpCs) (i : Nat) :
    (removeAt cs i).maxBytes = cs.maxBytes := by
  rw [removeAt]
  split <;> rfl

theorem entries_removeAt {cs : PsirpCs} {i : Nat} {e : PsirpCsEntry} (h : cs.entries[i]? = some e) :
    (removeAt cs i).entries = swapRemove cs.entries i := by
  rw [removeAt, h]

/-- Removing leaves some of the entries there were. -/
theorem removeAt_subperm (cs : PsirpCs) (i : Nat) :
    (removeAt cs i).entries.Subperm cs.entries := by
  cases h : cs.entries[i]? with
  | none =>
    rw [removeAt, h]
  | some e =>
    rw [entries_removeAt h]
    exact (List.subperm_cons_self).trans (cons_swapRemove_perm h).subperm

/-- The budget loop leaves some of the entries there were and changes no limit. -/
theorem budgetLoop_frame (fuel : Nat) (cs : PsirpCs) :
    (budgetLoop fuel cs).2.entries.Subperm cs.entries ∧
      (budgetLoop fuel cs).2.capacity = cs.capacity ∧
      (budgetLoop fuel cs).2.maxBytes = cs.maxBytes := by
  induction fuel generalizing cs with
  | zero => exact ⟨List.Subperm.refl _, rfl, rfl⟩
  | succ fuel ih =>
    rw [budgetLoop]
    split
    · obtain ⟨hsub, hcap, hmax⟩ := ih (removeAt cs (lruIndex cs.entries))
      exact ⟨hsub.trans (removeAt_subperm _ _), hcap.trans (capacity_removeAt _ _),
        hmax.trans (maxBytes_removeAt _ _)⟩
    · exact ⟨List.Subperm.refl _, rfl, rfl⟩

theorem enforceBudget_frame (cs : PsirpCs) :
    (enforceBudget cs).2.entries.Subperm cs.entries ∧
      (enforceBudget cs).2.capacity = cs.capacity ∧
      (enforceBudget cs).2.maxBytes = cs.maxBytes := by
  rw [enforceBudget]
  split
  · exact budgetLoop_frame _ _
  · exact ⟨List.Subperm.refl _, rfl, rfl⟩

/-- Without a budget nothing is evicted. -/
theorem enforceBudget_of_unlimited {cs : PsirpCs} (h : cs.maxBytes = 0) :
    enforceBudget cs = (0, cs) := by
  rw [enforceBudget, h]
  exact if_neg (by decide)

/-! ## Store -/

/-- Data `psirp_cs_store` takes. -/
def Storable (data : List UInt8) : Prop := data.length ≠ 0 ∧ data.length ≤ psirpMaxData

instance (data : List UInt8) : Decidable (Storable data) := inferInstanceAs (Decidable (_ ∧ _))

/-- Everything a call of `psirp_cs_store` can do: refuse, overwrite the first entry that
`psirp_name_equal` matches, or append and enforce the budget. -/
theorem psirpCsStore_cases (cs : PsirpCs) (name : PsirpName) (data : List UInt8)
    (freshnessMs : UInt32) (now : UInt64) :
    (psirpCsStore cs name data freshnessMs now = (false, cs) ∧
      (Storable data → cs.capacity ≤ cs.entries.length ∧
        cs.entries.findIdx? (fun e => psirpNameEqual e.name name) = none)) ∨
    (Storable data ∧ ∃ i bytes,
      cs.entries.findIdx? (fun e => psirpNameEqual e.name name) = some i ∧
      psirpCsStore cs name data freshnessMs now = (true, { cs with
        entries := cs.entries.modify i (overwrite data freshnessMs now)
        bytesUsed := bytes })) ∨
    (Storable data ∧ cs.entries.length < cs.capacity ∧
      cs.entries.findIdx? (fun e => psirpNameEqual e.name name) = none ∧
      psirpCsStore cs name data freshnessMs now = (true, (enforceBudget { cs with
        entries := cs.entries ++ [newEntry name data freshnessMs now]
        bytesUsed := cs.bytesUsed + UInt64.ofNat data.length }).2)) := by
  by_cases hzero : data.length = 0
  · exact Or.inl ⟨by rw [psirpCsStore, if_pos hzero], fun h => absurd hzero h.1⟩
  by_cases hlong : psirpMaxData < data.length
  · exact Or.inl ⟨by rw [psirpCsStore, if_neg hzero, if_pos hlong],
      fun h => absurd h.2 (Nat.not_le.mpr hlong)⟩
  have hdata : Storable data := ⟨hzero, Nat.not_lt.mp hlong⟩
  cases hidx : cs.entries.findIdx? (fun e => psirpNameEqual e.name name) with
  | none =>
    by_cases hfull : cs.capacity ≤ cs.entries.length
    · refine Or.inl ⟨?_, fun _ => ⟨hfull, rfl⟩⟩
      rw [psirpCsStore, if_neg hzero, if_neg hlong, hidx]
      exact if_pos hfull
    · refine Or.inr (Or.inr ⟨hdata, Nat.not_le.mp hfull, rfl, ?_⟩)
      rw [psirpCsStore, if_neg hzero, if_neg hlong, hidx]
      exact if_neg hfull
  | some i =>
    refine Or.inr (Or.inl ⟨hdata, i, cs.bytesUsed -
      (cs.entries[i]?.map PsirpCsEntry.dataLen).getD 0 + UInt64.ofNat data.length, rfl, ?_⟩)
    rw [psirpCsStore, if_neg hzero, if_neg hlong, hidx]

/-- A store that is refused changes nothing. -/
theorem psirpCsStore_of_refused {cs : PsirpCs} {name : PsirpName} {data : List UInt8}
    {freshnessMs : UInt32} {now : UInt64}
    (h : (psirpCsStore cs name data freshnessMs now).1 = false) :
    (psirpCsStore cs name data freshnessMs now).2 = cs := by
  rcases psirpCsStore_cases cs name data freshnessMs now with
    ⟨hs, -⟩ | ⟨-, i, b, -, hs⟩ | ⟨-, -, -, hs⟩
  · rw [hs]
  · rw [hs] at h
    cases h
  · rw [hs] at h
    cases h

/-- An overwrite, with the byte counter it leaves. -/
theorem psirpCsStore_of_match {cs : PsirpCs} {name : PsirpName} {data : List UInt8} {i : Nat}
    {e : PsirpCsEntry}
    (hi : cs.entries.findIdx? (fun e => psirpNameEqual e.name name) = some i)
    (he : cs.entries[i]? = some e) (hd : Storable data) (freshnessMs : UInt32) (now : UInt64) :
    psirpCsStore cs name data freshnessMs now = (true, { cs with
      entries := cs.entries.modify i (overwrite data freshnessMs now)
      bytesUsed := cs.bytesUsed - e.dataLen + UInt64.ofNat data.length }) := by
  rw [psirpCsStore, if_neg hd.1, if_neg (Nat.not_lt.mpr hd.2), hi]
  simp only [he, Option.map_some, Option.getD_some]

/-- The same without a byte budget, where nothing is evicted. -/
theorem psirpCsStore_cases_of_unlimited {cs : PsirpCs} (hb : cs.maxBytes = 0) (name : PsirpName)
    (data : List UInt8) (freshnessMs : UInt32) (now : UInt64) :
    (psirpCsStore cs name data freshnessMs now = (false, cs) ∧
      (Storable data → cs.capacity ≤ cs.entries.length ∧
        cs.entries.findIdx? (fun e => psirpNameEqual e.name name) = none)) ∨
    (Storable data ∧ ∃ i bytes,
      cs.entries.findIdx? (fun e => psirpNameEqual e.name name) = some i ∧
      psirpCsStore cs name data freshnessMs now = (true, { cs with
        entries := cs.entries.modify i (overwrite data freshnessMs now)
        bytesUsed := bytes })) ∨
    (Storable data ∧ cs.entries.length < cs.capacity ∧
      cs.entries.findIdx? (fun e => psirpNameEqual e.name name) = none ∧
      ∃ bytes, psirpCsStore cs name data freshnessMs now = (true, { cs with
        entries := cs.entries ++ [newEntry name data freshnessMs now]
        bytesUsed := bytes })) := by
  rcases psirpCsStore_cases cs name data freshnessMs now with h | h | ⟨hd, hroom, hnone, hs⟩
  · exact Or.inl h
  · exact Or.inr (Or.inl h)
  · refine Or.inr (Or.inr ⟨hd, hroom, hnone, cs.bytesUsed + UInt64.ofNat data.length, ?_⟩)
    rw [hs, enforceBudget_of_unlimited (by exact hb)]

/-- What is stored is storable. -/
theorem storable_of_psirpCsStore {cs cs' : PsirpCs} {name : PsirpName} {data : List UInt8}
    {freshnessMs : UInt32} {now : UInt64}
    (h : psirpCsStore cs name data freshnessMs now = (true, cs')) : Storable data := by
  rcases psirpCsStore_cases cs name data freshnessMs now with ⟨hs, -⟩ | ⟨hd, -⟩ | ⟨hd, -⟩
  · rw [hs] at h
    cases h
  · exact hd
  · exact hd

/-- Without a byte budget, a store of storable data succeeds while there is room, and takes at
most one slot. -/
theorem psirpCsStore_of_room {cs : PsirpCs} (hb : cs.maxBytes = 0)
    (hroom : cs.entries.length < cs.capacity) (name : PsirpName) {data : List UInt8}
    (hd : Storable data) (freshnessMs : UInt32) (now : UInt64) :
    ∃ cs', psirpCsStore cs name data freshnessMs now = (true, cs') ∧
      cs'.entries.length ≤ cs.entries.length + 1 ∧ cs'.capacity = cs.capacity ∧
      cs'.maxBytes = 0 := by
  rcases psirpCsStore_cases_of_unlimited hb name data freshnessMs now with
    ⟨-, hfull⟩ | ⟨-, i, b, -, hs⟩ | ⟨-, -, -, b, hs⟩
  · exact absurd (hfull hd).1 (Nat.not_le.mpr hroom)
  · refine ⟨_, hs, ?_, rfl, hb⟩
    rw [List.length_modify]
    exact Nat.le_succ _
  · refine ⟨_, hs, ?_, rfl, hb⟩
    rw [List.length_append]
    exact le_refl _

/-! ## Lookup -/

/-- What the unversioned scan compares: the version, if the entry is eligible. -/
def versionWeight (eligible : PsirpCsEntry → Bool) (e : PsirpCsEntry) : WithBot Nat :=
  if eligible e then WithBot.some e.name.version.toNat else ⊥

theorem bot_lt_versionWeight {eligible : PsirpCsEntry → Bool} {e : PsirpCsEntry} :
    ⊥ < versionWeight eligible e ↔ eligible e = true := by
  rw [versionWeight]
  split
  · rename_i hel
    exact iff_of_true (WithBot.bot_lt_coe _) hel
  · rename_i hel
    exact iff_of_false (lt_irrefl _) hel

theorem versionWeight_of_eligible {eligible : PsirpCsEntry → Bool} {e : PsirpCsEntry}
    (h : eligible e = true) : versionWeight eligible e = WithBot.some e.name.version.toNat :=
  if_pos h

/-- The unversioned scan looks for the first entry of the greatest version. -/
theorem findNewest_eq_scan (eligible : PsirpCsEntry → Bool) (es : List PsirpCsEntry) :
    ∀ (i : Nat) (best : Option (Nat × UInt64)),
      findNewest eligible es i best = scan (versionWeight eligible) es i (best.map Prod.fst)
        (best.elim ⊥ fun b => WithBot.some b.2.toNat) := by
  induction es with
  | nil => exact fun _ _ => rfl
  | cons e es ih =>
    intro i best
    have hbeats : (eligible e && best.all fun b => b.2 < e.name.version) = true ↔
        (best.elim ⊥ fun b => WithBot.some b.2.toNat) < versionWeight eligible e := by
      rw [versionWeight]
      cases eligible e <;> cases best <;> simp [UInt64.lt_iff_toNat_lt]
    rw [findNewest, scan]
    split
    · rename_i h
      rw [if_pos (hbeats.mp h), ih, versionWeight_of_eligible (Bool.and_eq_true_iff.mp h).1]
      rfl
    · rename_i h
      rw [if_neg (mt hbeats.mpr h), ih]

/-- What the unversioned scan returns: the first eligible entry of the greatest version. -/
theorem findNewest_eq_some {eligible : PsirpCsEntry → Bool} {es : List PsirpCsEntry} {i : Nat}
    (h : findNewest eligible es 0 none = some i) :
    ∃ e, es[i]? = some e ∧ eligible e = true ∧
      (∀ e' ∈ es, eligible e' = true → e'.name.version ≤ e.name.version) ∧
      ∀ j < i, ∀ e', es[j]? = some e' → eligible e' = true → e'.name.version < e.name.version := by
  rw [findNewest_eq_scan] at h
  obtain ⟨e, hfirst, hpos⟩ := scan_eq_some.mp h
  have hel := bot_lt_versionWeight.mp hpos
  refine ⟨e, hfirst.row, hel, fun e' he' hel' => ?_, fun j hj e' he' hel' => ?_⟩
  · have hle := hfirst.greatest e' he'
    rwa [versionWeight_of_eligible hel', versionWeight_of_eligible hel, WithBot.coe_le_coe,
      ← UInt64.le_iff_toNat_le] at hle
  · have hlt := hfirst.first j hj e' he'
    rwa [versionWeight_of_eligible hel', versionWeight_of_eligible hel, WithBot.coe_lt_coe,
      ← UInt64.lt_iff_toNat_lt] at hlt

/-- The unversioned scan fails exactly when no entry is eligible. -/
theorem findNewest_eq_none {eligible : PsirpCsEntry → Bool} {es : List PsirpCsEntry} :
    findNewest eligible es 0 none = none ↔ ∀ e ∈ es, eligible e = false := by
  rw [findNewest_eq_scan, Option.map_none, Option.elim_none, scan_bot_eq_none]
  refine forall₂_congr fun e _ => ?_
  rw [← not_bot_lt_iff, bot_lt_versionWeight, Bool.not_eq_true]

/-- If every eligible entry has version `0`, the unversioned scan returns the first of them. -/
theorem findNewest_of_version_zero {eligible : PsirpCsEntry → Bool} {es : List PsirpCsEntry}
    (h : ∀ e ∈ es, eligible e = true → e.name.version = 0) :
    findNewest eligible es 0 none = es.findIdx? eligible := by
  cases hn : findNewest eligible es 0 none with
  | none =>
    rw [eq_comm, List.findIdx?_eq_none_iff]
    exact findNewest_eq_none.mp hn
  | some j =>
    obtain ⟨e, hj, hel, -, hfirst⟩ := findNewest_eq_some hn
    obtain ⟨hlt, rfl⟩ := List.getElem?_eq_some_iff.mp hj
    rw [eq_comm, List.findIdx?_eq_some_iff_getElem]
    refine ⟨hlt, hel, fun k hk hel' => ?_⟩
    have hv := hfirst k hk es[k] (List.getElem?_eq_getElem _) hel'
    rw [h _ (List.getElem_mem _) hel', h _ (List.getElem_mem _) hel] at hv
    exact absurd hv (by decide)

/-- A lookup never changes names, data or freshness, only the bookkeeping of one entry. -/
theorem psirpCsLookup_frame (cs : PsirpCs) (name : PsirpName) (now : UInt64) :
    (psirpCsLookup cs name now).2 = cs ∨
      ∃ i, (psirpCsLookup cs name now).2 =
        { cs with entries := cs.entries.modify i (touch now) } := by
  rw [psirpCsLookup]
  split
  · exact Or.inl rfl
  · exact Or.inr ⟨_, rfl⟩

@[simp] theorem psirpCsLookup_fst (cs : PsirpCs) (name : PsirpName) (now : UInt64) :
    (psirpCsLookup cs name now).1 = lookupIndex cs.entries name now := by
  rw [psirpCsLookup]
  split <;> (rename_i h; rw [h])

/-- The entry a lookup points to is the chosen one with its bookkeeping updated. -/
theorem psirpCsLookup_getElem? {cs : PsirpCs} {name : PsirpName} {now : UInt64} {i : Nat}
    (h : lookupIndex cs.entries name now = some i) :
    (psirpCsLookup cs name now).2.entries[i]? = cs.entries[i]?.map (touch now) := by
  rw [psirpCsLookup, h]
  exact List.getElem?_modify_eq _ _ _

/-- Seen through anything but the bookkeeping, a lookup leaves the table alone. -/
theorem psirpCsLookup_map {α : Type*} {g : PsirpCsEntry → α} (hg : ∀ now e, g (touch now e) = g e)
    (cs : PsirpCs) (name : PsirpName) (now : UInt64) :
    (psirpCsLookup cs name now).2.entries.map g = cs.entries.map g := by
  rcases psirpCsLookup_frame cs name now with h | ⟨i, h⟩
  · rw [h]
  · rw [h]
    exact map_modify_of_comp (hg now)

/-! ## Remove and gc -/

/-- Everything a call of `psirp_cs_remove` can do. -/
theorem psirpCsRemove_cases (cs : PsirpCs) (name : PsirpName) :
    (cs.entries.findIdx? (fun e => psirpNameEqual e.name name) = none ∧
      psirpCsRemove cs name = (false, cs)) ∨
    ∃ i e, cs.entries.findIdx? (fun e => psirpNameEqual e.name name) = some i ∧
      cs.entries[i]? = some e ∧ psirpNameEqual e.name name = true ∧
      psirpCsRemove cs name = (true, removeAt cs i) := by
  cases hidx : cs.entries.findIdx? (fun e => psirpNameEqual e.name name) with
  | none => exact Or.inl ⟨rfl, by rw [psirpCsRemove, hidx]⟩
  | some i =>
    obtain ⟨hi, he, -⟩ := List.findIdx?_eq_some_iff_getElem.mp hidx
    exact Or.inr ⟨i, cs.entries[i], rfl, List.getElem?_eq_getElem hi, he,
      by rw [psirpCsRemove, hidx]⟩

/-- The expiry loop leaves some of the entries there were and changes no limit. -/
theorem gcLoop_frame (now : UInt64) (i : Nat) (cs : PsirpCs) :
    (gcLoop now i cs).2.entries.Subperm cs.entries ∧
      (gcLoop now i cs).2.capacity = cs.capacity ∧
      (gcLoop now i cs).2.maxBytes = cs.maxBytes := by
  induction i generalizing cs with
  | zero => exact ⟨List.Subperm.refl _, rfl, rfl⟩
  | succ i ih =>
    rw [gcLoop]
    split
    · exact ih cs
    · split
      · obtain ⟨hsub, hcap, hmax⟩ := ih (removeAt cs i)
        exact ⟨hsub.trans (removeAt_subperm _ _), hcap.trans (capacity_removeAt _ _),
          hmax.trans (maxBytes_removeAt _ _)⟩
      · exact ih cs

theorem psirpCsGc_frame (cs : PsirpCs) (now : UInt64) :
    (psirpCsGc cs now).2.entries.Subperm cs.entries ∧
      (psirpCsGc cs now).2.capacity = cs.capacity ∧
      (psirpCsGc cs now).2.maxBytes = cs.maxBytes := by
  obtain ⟨hsub, hcap, hmax⟩ := gcLoop_frame now cs.entries.length cs
  obtain ⟨hsub', hcap', hmax'⟩ := enforceBudget_frame (gcLoop now cs.entries.length cs).2
  exact ⟨hsub'.trans hsub, hcap'.trans hcap, hmax'.trans hmax⟩

/-- An entry stored for ever does not expire. -/
theorem entryExpired_of_freshness_zero {e : PsirpCsEntry} (h : e.freshnessMs = 0) (now : UInt64) :
    entryExpired e now = false := if_pos h

/-- Without a budget and without expired entries, gc does nothing. -/
theorem psirpCsGc_of_fresh {cs : PsirpCs} {now : UInt64} (hb : cs.maxBytes = 0)
    (h : ∀ e ∈ cs.entries, entryExpired e now = false) : psirpCsGc cs now = (0, cs) := by
  have hloop : ∀ i, gcLoop now i cs = (0, cs) := by
    intro i
    induction i with
    | zero => rfl
    | succ i ih =>
      rw [gcLoop]
      split
      · exact ih
      · rename_i e he
        rw [h e (List.mem_of_getElem? he)]
        exact ih
  rw [psirpCsGc, hloop]
  simp only [enforceBudget_of_unlimited hb]

end DsoBrowser
