import DsoBrowser.LeasedStore
import DsoBrowser.Lib.Recency

/-!
# With a byte budget the content store is a cache

With a byte budget `psirp_cs_store` and `psirp_cs_gc` evict what was accessed least recently. As
long as the clock moves on between any two readings, the content store answers every sequence of
calls on plain names as a list of contents in the order of their last use does
(`psirpCs_refines_cache`). An overwrite may exceed the budget until something else is stored or
collected.

So content stays while it and what is used after it are within the budget, whatever else is in the
store (`recent_content_stays`).

The **invariant** that carries the simulation is `CachedAs`: the rows of the cache are the entries
of the table, read in the order of `last_access_ns`.
-/

namespace DsoBrowser

open Leases Machine Recency Table

/-! ## The cache -/

/-- Content in the cache. -/
structure CacheRow where
  /-- what it is stored under -/
  components : List CString
  /-- the content, and when it is gone -/
  lease : ContentLease

/-- The bytes of a row. -/
def CacheRow.bytes (r : CacheRow) : Nat := r.lease.value.data.length

/-- A cache. -/
structure ContentCache where
  /-- the contents, the one used last at the end -/
  rows : List CacheRow
  /-- the bytes they may have, `0` for any number -/
  budget : Nat

/-- Nothing, and no budget. -/
def ContentCache.empty : ContentCache := ⟨[], 0⟩

/-- Evict what exceeds the budget. -/
def ContentCache.fit (c : ContentCache) : ContentCache :=
  if 0 < c.budget then { c with rows := trim CacheRow.bytes c.budget c.rows } else c

/-- A call on plain names, or a new budget. -/
inductive CacheOp where
  /-- a call -/
  | call : LeasedOp → CacheOp
  /-- `psirp_cs_set_budget` -/
  | setBudget : UInt64 → CacheOp

/-- The call itself. -/
def CacheOp.csOp : CacheOp → CsOp
  | .call op => op.call
  | .setBudget maxBytes => .setBudget maxBytes

/-- The clock readings of a call. -/
def CacheOp.readings : CacheOp → List UInt64
  | .call op => op.readings
  | .setBudget _ => []

/-- The clock moves on. -/
def ClockMovesOn (ops : List CacheOp) : Prop := (ops.flatMap CacheOp.readings).Pairwise (· < ·)

instance (ops : List CacheOp) : Decidable (ClockMovesOn ops) :=
  inferInstanceAs (Decidable (List.Pairwise _ _))

/-- The content store under such calls. -/
def budgetedStep (cs : PsirpCs) (op : CacheOp) : CsAnswer Content × PsirpCs :=
  ((csStep cs op.csOp).1.contents, (csStep cs op.csOp).2)

/-- The row of content that is stored. -/
def storedRow (k : PlainKey) (d : List UInt8) (f : UInt32) (now : UInt64) : CacheRow :=
  ⟨k.components, ⟨⟨d, f⟩, goneAt now f⟩⟩

/-- The same calls on the cache. -/
def cacheStep (c : ContentCache) : CacheOp → CsAnswer Content × ContentCache
  | .setBudget maxBytes => (.done, { c with budget := maxBytes.toNat })
  | .call (.store k d f now) =>
    if ¬ Storable d then (.verdict false, c)
    else if k.components ∈ c.rows.map CacheRow.components then
      (.verdict true, { c with rows := use CacheRow.components (storedRow k d f now) c.rows })
    else if psirpCsMaxEntries ≤ c.rows.length then (.verdict false, c)
    else (.verdict true, ContentCache.fit { c with rows := c.rows ++ [storedRow k d f now] })
  | .call (.lookup k now) =>
    match (row CacheRow.components c.rows k.components).filter
        fun r => r.lease.live (clock now) with
    | none => (.found none, c)
    | some r => (.found (some r.lease.value), { c with rows := use CacheRow.components r c.rows })
  | .call (.remove k) =>
    (.verdict (decide (k.components ∈ c.rows.map CacheRow.components)),
      { c with rows := without CacheRow.components k.components c.rows })
  | .call (.gc now) =>
    let c' := ContentCache.fit { c with rows := c.rows.filter fun r => r.lease.live (clock now) }
    (.evicted (c.rows.length - c'.rows.length), c')

/-! ## The simulation -/

/-- The row of an entry. -/
def PsirpCsEntry.cacheRow (e : PsirpCsEntry) : CacheRow := ⟨e.components, e.lease⟩

/-- When an entry was accessed last. -/
def PsirpCsEntry.accessed (e : PsirpCsEntry) : Nat := e.lastAccessNs.toNat

/-- The content store is a table of the cache. -/
structure CachedAs (cs : PsirpCs) (c : ContentCache) : Prop where
  /-- the rows are the entries in the order of their last access -/
  rows_eq : ∃ o, InOrder PsirpCsEntry.accessed cs.entries o ∧
    o.map PsirpCsEntry.cacheRow = c.rows
  /-- there is one entry for each component list -/
  keyed : Keyed PsirpCsEntry.components cs.entries
  /-- under unversioned names -/
  unversioned : EveryEntry UnversionedEntry cs
  /-- the bytes are counted -/
  accounts : Accounts cs
  /-- the budget is the same -/
  budget_eq : cs.maxBytes.toNat = c.budget

/-- Every entry was stored and accessed before `now`. -/
def AccessedBefore (now : UInt64) (cs : PsirpCs) : Prop :=
  EveryEntry (fun e => e.timestamp ≤ now ∧ e.lastAccessNs < now) cs

theorem cachedAs_init : CachedAs psirpCsInit .empty where
  rows_eq := ⟨[], .nil, rfl⟩
  keyed := List.nodup_nil
  unversioned _ he := absurd he List.not_mem_nil
  accounts := accounts_init
  budget_eq := rfl

section Steps

variable {cs : PsirpCs} {c : ContentCache}

theorem CachedAs.length_rows (h : CachedAs cs c) : c.rows.length = cs.entries.length := by
  obtain ⟨o, ho, hrows⟩ := h.rows_eq
  rw [← hrows, List.length_map, ho.perm.length_eq]

theorem CachedAs.mem_rows (h : CachedAs cs c) (k : List CString) :
    k ∈ c.rows.map CacheRow.components ↔ ∃ e ∈ cs.entries, e.components = k := by
  obtain ⟨o, ho, hrows⟩ := h.rows_eq
  rw [← hrows, List.map_map, List.mem_map]
  exact exists_congr fun e => and_congr_left fun _ => ho.perm.mem_iff

/-- A row is found where its entry is. -/
theorem CachedAs.row_eq (h : CachedAs cs c) (k : List CString) :
    row CacheRow.components c.rows k =
      (row PsirpCsEntry.components cs.entries k).map PsirpCsEntry.cacheRow := by
  obtain ⟨o, ho, hrows⟩ := h.rows_eq
  rw [← hrows, h.keyed.row_perm ho.perm.symm, row, row, List.find?_map]
  rfl

/-- **Evicting.** The budget loop evicts what the cache does. -/
theorem CachedAs.fit (h : CachedAs cs c) : CachedAs (enforceBudget cs).2 c.fit := by
  obtain ⟨o, ho, hrows⟩ := h.rows_eq
  obtain ⟨hsub, -, hmax⟩ := enforceBudget_frame cs
  have hlimited : 0 < cs.maxBytes ↔ 0 < c.budget := by
    rw [← h.budget_eq, UInt64.lt_iff_toNat_lt]
    rfl
  have hbudget : c.fit.budget = c.budget := by
    rw [ContentCache.fit]
    split <;> rfl
  refine ⟨?_, h.keyed.subperm hsub, h.unversioned.subperm hsub, h.accounts.enforceBudget.2,
    (congrArg UInt64.toNat hmax).trans (h.budget_eq.trans hbudget.symm)⟩
  rw [enforceBudget, ContentCache.fit]
  by_cases hpos : 0 < cs.maxBytes
  · rw [if_pos hpos, if_pos (hlimited.mp hpos)]
    obtain ⟨htrims, -⟩ := budgetLoop_trims h.accounts le_rfl
    rw [ho.eq_of_sorted (lruOrder_perm _) ((pairwise_lruOrder _).imp UInt64.le_iff_toNat_le.mp),
      h.budget_eq] at htrims
    refine ⟨_, ho.trim htrims (lruOrder_perm _).symm, ?_⟩
    rw [← hrows]
    exact map_trim (fun e => (rfl : e.cacheRow.bytes = e.data.length)) _ _
  · rw [if_neg hpos, if_neg (hlimited.not.mp hpos)]
    exact ⟨o, ho, hrows⟩

theorem cacheRow_newEntry (k : PlainKey) (d : List UInt8) (f : UInt32) (now : UInt64) :
    (newEntry k.name d f now).cacheRow = storedRow k d f now := by
  rw [PsirpCsEntry.cacheRow, components_newEntry]
  rfl

theorem CachedAs.findIdx?_eq (h : CachedAs cs c) (k : PlainKey) :
    cs.entries.findIdx? (fun e => psirpNameEqual e.name k.name) =
      cs.entries.findIdx? fun e => decide (e.components = k.components) := by
  rw [findIdx?_of_selfHashed (fun e he => (h.unversioned e he).selfHashed) k.selfHashed_name,
    k.components_name]

/-- Using an entry brings its row to the end. -/
theorem CachedAs.modify (h : CachedAs cs c) {i : Nat} {e : PsirpCsEntry}
    (he : cs.entries[i]? = some e) {g : PsirpCsEntry → PsirpCsEntry} (hname : (g e).name = e.name)
    (hg : ∀ b ∈ cs.entries, b.lastAccessNs < (g e).lastAccessNs) {bytes : UInt64}
    (hacc : Accounts { cs with entries := cs.entries.modify i g, bytesUsed := bytes }) :
    CachedAs { cs with entries := cs.entries.modify i g, bytesUsed := bytes }
      { c with rows := use CacheRow.components (g e).cacheRow c.rows } where
  rows_eq := by
    obtain ⟨o, ho, hrows⟩ := h.rows_eq
    have hkey : (g e).components = e.components := congrArg PsirpName.components hname
    refine ⟨_, ho.modify h.keyed he hkey fun b hb => UInt64.lt_iff_toNat_lt.mp (hg b hb), ?_⟩
    rw [← hrows]
    exact map_use (fun e => (rfl : e.cacheRow.components = e.components)) _ _
  keyed := by
    obtain ⟨hlt, rfl⟩ := List.getElem?_eq_some_iff.mp he
    have hset : cs.entries.modify i g = cs.entries.set i (g cs.entries[i]) := by
      rw [List.modify_eq_set_getElem?, he]
      rfl
    have hsplit := (List.getElem_cons_eraseIdx_perm hlt).symm
    have hcons := h.keyed.perm hsplit
    have hcons' : Keyed PsirpCsEntry.components (g cs.entries[i] :: cs.entries.eraseIdx i) := by
      rw [Keyed, List.map_cons] at hcons ⊢
      rwa [show (g cs.entries[i]).components = cs.entries[i].components from
        congrArg PsirpName.components hname]
    exact hcons'.perm (hset ▸ (List.set_perm_cons_eraseIdx hlt _).symm)
  unversioned := EveryEntry.modify h.unversioned fun b hb hQ => by
    obtain rfl : b = e := Option.some.inj (hb.symm.trans he)
    exact ⟨by rw [hname]; exact hQ.selfHashed, by rw [hname]; exact hQ.version_eq⟩
  accounts := hacc
  budget_eq := h.budget_eq

/-- A name that no entry has is in no row. -/
theorem CachedAs.absent (h : CachedAs cs c) {k : PlainKey}
    (hnone : cs.entries.findIdx? (fun e => psirpNameEqual e.name k.name) = none) :
    (∀ e ∈ cs.entries, e.components ≠ k.components) ∧
      k.components ∉ c.rows.map CacheRow.components := by
  rw [h.findIdx?_eq, List.findIdx?_eq_none_iff] at hnone
  have hnew : ∀ e ∈ cs.entries, e.components ≠ k.components := by
    intro e he hk
    exact absurd (decide_eq_true hk) (by rw [hnone e he]; decide)
  refine ⟨hnew, fun hmem => ?_⟩
  obtain ⟨e, he, hk⟩ := (h.mem_rows k.components).mp hmem
  exact hnew e he hk

/-- Adding an entry that is the last to be accessed. -/
theorem CachedAs.append (h : CachedAs cs c) {k : PlainKey}
    (hnew : ∀ e ∈ cs.entries, e.components ≠ k.components) {d : List UInt8} (hd : Storable d)
    (f : UInt32) {now : UInt64} (hused : ∀ e ∈ cs.entries, e.lastAccessNs < now)
    (hroom : cs.entries.length < cs.capacity) :
    CachedAs { cs with
        entries := cs.entries ++ [newEntry k.name d f now]
        bytesUsed := cs.bytesUsed + UInt64.ofNat d.length }
      { c with rows := c.rows ++ [storedRow k d f now] } := by
  refine ⟨?_, ?_, ?_, ?_, h.budget_eq⟩
  · obtain ⟨o, ho, hrows⟩ := h.rows_eq
    refine ⟨_, ho.concat (a := newEntry k.name d f now) fun b hb =>
      UInt64.lt_iff_toNat_lt.mp (hused b hb), ?_⟩
    rw [List.map_append, hrows, List.map_singleton, cacheRow_newEntry]
  · refine h.keyed.concat fun b hb => ?_
    rw [components_newEntry]
    exact hnew b hb
  · intro e he
    rcases List.mem_append.mp he with he | he
    · exact h.unversioned e he
    · rw [List.mem_singleton.mp he]
      have hname : (newEntry k.name d f now).name =
          { k.name with hash := pathHash k.name.components } :=
        entryName_of_plain k.parsed.wellFormed.plain
      exact ⟨by rw [hname]; rfl, by rw [hname, k.name_eq]⟩
  · exact (h.accounts.append hroom k.name hd f now).2

/-- **Storing** on a plain name. -/
theorem CachedAs.store (h : CachedAs cs c) (k : PlainKey) (d : List UInt8) (f : UInt32)
    {now : UInt64} (hused : ∀ e ∈ cs.entries, e.lastAccessNs < now) :
    CsAnswer.verdict (psirpCsStore cs k.name d f now).1 =
        (cacheStep c (.call (.store k d f now))).1 ∧
      CachedAs (psirpCsStore cs k.name d f now).2 (cacheStep c (.call (.store k d f now))).2 := by
  have hlen := h.length_rows
  have hacc := (h.accounts.store k.name d f now).2
  rw [cacheStep]
  rcases psirpCsStore_cases cs k.name d f now with
    ⟨hs, hfull⟩ | ⟨hd, i, bytes, hi, hs⟩ | ⟨hd, hroom, hnone, hs⟩
  · rw [hs]
    by_cases hd : Storable d
    · obtain ⟨hcap, hnone⟩ := hfull hd
      rw [h.accounts.capacity_eq, ← hlen] at hcap
      rw [if_neg (not_not.mpr hd), if_neg (h.absent hnone).2, if_pos hcap]
      exact ⟨rfl, h⟩
    · rw [if_pos hd]
      exact ⟨rfl, h⟩
  · -- the entry is overwritten
    rw [h.findIdx?_eq] at hi
    obtain ⟨hlt, hk, -⟩ := List.findIdx?_eq_some_iff_getElem.mp hi
    have hk := of_decide_eq_true hk
    have hthere := (h.mem_rows k.components).mpr ⟨_, List.getElem_mem hlt, hk⟩
    rw [if_neg (not_not.mpr hd), if_pos hthere]
    rw [hs] at hacc ⊢
    have hrow : (overwrite d f now cs.entries[i]).cacheRow = storedRow k d f now := by
      rw [storedRow, ← hk]
      rfl
    have hmodify := h.modify (List.getElem?_eq_getElem hlt) (g := overwrite d f now) rfl hused hacc
    rw [hrow] at hmodify
    exact ⟨rfl, hmodify⟩
  · -- an entry is added, and others may go
    obtain ⟨hnew, hnot⟩ := h.absent hnone
    have hfree : ¬ psirpCsMaxEntries ≤ c.rows.length := by
      rw [hlen, ← h.accounts.capacity_eq]
      exact Nat.not_le.mpr hroom
    rw [if_neg (not_not.mpr hd), if_neg hnot, if_neg hfree, hs]
    exact ⟨rfl, (h.append hnew hd f hused hroom).fit⟩

/-- **Looking up** on a plain name. -/
theorem CachedAs.lookup (h : CachedAs cs c) (k : PlainKey) {now : UInt64}
    (hstamped : StampedBy now cs) (hused : ∀ e ∈ cs.entries, e.lastAccessNs < now) :
    CsAnswer.found ((lookupEntry cs k.name now).map PsirpCsEntry.content) =
        (cacheStep c (.call (.lookup k now))).1 ∧
      CachedAs (psirpCsLookup cs k.name now).2 (cacheStep c (.call (.lookup k now))).2 := by
  have hscan := lookupIndex_of_unversioned h.unversioned k.hasVersion_name now
  rw [k.components_name] at hscan
  have hrow := h.row_eq k.components
  have hacc := h.accounts.lookup k.name now
  rw [lookupEntry_eq, cacheStep]
  rw [psirpCsLookup] at hacc ⊢
  cases hi : lookupIndex cs.entries k.name now with
  | none =>
    rw [hscan, List.findIdx?_eq_none_iff] at hi
    have hmiss : (row CacheRow.components c.rows k.components).filter
        (fun r => r.lease.live (clock now)) = none := by
      rw [hrow, Option.filter_eq_none_iff]
      intro r hr
      obtain ⟨e, he, rfl⟩ := Option.map_eq_some_iff.mp hr
      have hmem := mem_of_row he
      have htest := hi e hmem
      rw [decide_eq_true (key_of_row he), Bool.and_true] at htest
      change ¬ e.lease.live (clock now) = true
      rw [live_lease (hstamped e hmem), htest]
      decide
    rw [hmiss]
    exact ⟨rfl, h⟩
  | some i =>
    rw [hi] at hacc
    rw [hscan] at hi
    obtain ⟨hlt, htest, -⟩ := List.findIdx?_eq_some_iff_getElem.mp hi
    rw [Bool.and_eq_true, decide_eq_true_eq] at htest
    have hmem := List.getElem_mem hlt
    have hhit : (row CacheRow.components c.rows k.components).filter
        (fun r => r.lease.live (clock now)) = some cs.entries[i].cacheRow := by
      rw [hrow, h.keyed.row_eq_some.mpr ⟨hmem, htest.2⟩, Option.map_some, Option.filter_some,
        if_pos]
      exact (live_lease (hstamped _ hmem)).trans htest.1
    have he := List.getElem?_eq_getElem hlt
    rw [hhit, Option.bind_some, he]
    exact ⟨rfl, h.modify he (g := touch now) rfl hused hacc⟩

theorem CachedAs.remove (h : CachedAs cs c) (k : PlainKey) :
    CsAnswer.verdict (psirpCsRemove cs k.name).1 = (cacheStep c (.call (.remove k))).1 ∧
      CachedAs (psirpCsRemove cs k.name).2 (cacheStep c (.call (.remove k))).2 := by
  have hmem := h.mem_rows k.components
  rw [cacheStep]
  rcases psirpCsRemove_cases cs k.name with ⟨hnone, hs⟩ | ⟨i, e, -, he, heq, hs⟩
  · rw [h.findIdx?_eq, List.findIdx?_eq_none_iff] at hnone
    have hnot : k.components ∉ c.rows.map CacheRow.components := by
      rw [hmem]
      rintro ⟨e, he, hk⟩
      exact absurd (decide_eq_true hk) (by rw [hnone e he]; decide)
    have hsame : without CacheRow.components k.components c.rows = c.rows :=
      List.filter_eq_self.mpr fun r hr =>
        decide_eq_true fun hk => hnot (hk ▸ List.mem_map_of_mem hr)
    rw [hs, hsame, decide_eq_false hnot]
    exact ⟨rfl, h⟩
  · have hk : e.components = k.components := by
      rw [← k.components_name]
      exact (psirpNameEqual_iff.mp heq).2
    obtain ⟨o, ho, hrows⟩ := h.rows_eq
    have hsub := removeAt_subperm cs i
    rw [hs, decide_eq_true (hmem.mpr ⟨e, List.mem_of_getElem? he, hk⟩)]
    refine ⟨rfl, ⟨_, (entries_removeAt he) ▸ ho.remove h.keyed he, ?_⟩, h.keyed.subperm hsub,
      h.unversioned.subperm hsub, (h.accounts.removeAt i).2,
      (congrArg UInt64.toNat (maxBytes_removeAt cs i)).trans h.budget_eq⟩
    rw [← hrows, hk]
    exact map_without (fun e => (rfl : e.cacheRow.components = e.components)) _ _

/-- The budget loop counts what it evicts. -/
theorem enforceBudget_fst (h : Accounts cs) :
    (enforceBudget cs).1 + (enforceBudget cs).2.entries.length = cs.entries.length := by
  rw [enforceBudget]
  split
  · obtain ⟨htrims, hcount⟩ := budgetLoop_trims h le_rfl
    have hsplit := congrArg List.length htrims.split
    rw [List.length_append, (lruOrder_perm _).length_eq, (lruOrder_perm _).length_eq,
      ← hcount] at hsplit
    exact hsplit.symm
  · exact Nat.zero_add _

/-- **Collecting** drops what is over, and evicts. -/
theorem CachedAs.gc (h : CachedAs cs c) {now : UInt64} (hstamped : StampedBy now cs) :
    CsAnswer.evicted (psirpCsGc cs now).1 = (cacheStep c (.call (.gc now))).1 ∧
      CachedAs (psirpCsGc cs now).2 (cacheStep c (.call (.gc now))).2 := by
  have hlen := h.length_rows
  have hexpired := gcLoop_fst now cs.entries.length cs
  obtain ⟨hsub, -, hmax⟩ := gcLoop_frame now cs.entries.length cs
  have hswept : CachedAs (gcLoop now cs.entries.length cs).2
      { c with rows := c.rows.filter fun r => r.lease.live (clock now) } := by
    obtain ⟨o, ho, hrows⟩ := h.rows_eq
    have hperm := swapSweep_perm (p := (entryExpired · now)) cs.entries
    rw [← entries_gcLoop] at hperm
    refine ⟨⟨_, ho.filter hperm, ?_⟩, h.keyed.subperm hsub, h.unversioned.subperm hsub,
      (h.accounts.gcLoop now _).2, (congrArg UInt64.toNat hmax).trans h.budget_eq⟩
    rw [← hrows, List.filter_map]
    refine congrArg _ (List.filter_congr fun e he => ?_)
    exact (live_lease (hstamped e (ho.perm.mem_iff.mp he))).symm
  have hevicted := enforceBudget_fst hswept.accounts
  have hfit := hswept.fit
  have hleft := hfit.length_rows
  rw [cacheStep, psirpCsGc]
  refine ⟨congrArg CsAnswer.evicted ?_, hfit⟩
  dsimp only
  omega

/-- **Step.** Related states answer a call alike and stay related. -/
theorem CachedAs.step (h : CachedAs cs c) (op : CacheOp)
    (hclock : ∀ now ∈ op.readings, AccessedBefore now cs) :
    (budgetedStep cs op).1 = (cacheStep c op).1 ∧
      CachedAs (budgetedStep cs op).2 (cacheStep c op).2 := by
  have hstamped : ∀ now ∈ op.readings, StampedBy now cs := fun now hnow e he =>
    (hclock now hnow e he).1
  have hused : ∀ now ∈ op.readings, ∀ e ∈ cs.entries, e.lastAccessNs < now := fun now hnow e he =>
    (hclock now hnow e he).2
  cases op with
  | setBudget maxBytes =>
    exact ⟨rfl, h.rows_eq, h.keyed, h.unversioned,
      (h.accounts.csStep (.setBudget maxBytes)).2, rfl⟩
  | call op =>
    cases op with
    | store k d f now => exact h.store k d f (hused now (List.mem_singleton_self _))
    | lookup k now =>
      exact h.lookup k (hstamped now (List.mem_singleton_self _))
        (hused now (List.mem_singleton_self _))
    | remove k => exact h.remove k
    | gc now => exact h.gc (hstamped now (List.mem_singleton_self _))

end Steps

/-! ## Runs -/

section Clocks

variable {cs : PsirpCs}

/-- A call stamps entries with its reading of the clock. -/
theorem AccessedBefore.step {later : UInt64} (h : AccessedBefore later cs) (op : CacheOp)
    (hop : ∀ now ∈ op.readings, now < later) : AccessedBefore later (budgetedStep cs op).2 := by
  cases op with
  | setBudget maxBytes => exact h
  | call op =>
    cases op with
    | store k d f now =>
      have hnow := hop now (List.mem_singleton_self _)
      exact h.store (fun _ => ⟨UInt64.le_of_lt hnow, hnow⟩) fun _ _ _ _ =>
        ⟨UInt64.le_of_lt hnow, hnow⟩
    | lookup k now => exact h.lookup fun _ he => ⟨he.1, hop now (List.mem_singleton_self _)⟩
    | remove k => exact h.remove k.name
    | gc now => exact h.subperm (psirpCsGc_frame cs now).1

/-- **Run lemma.** -/
theorem CachedAs.run {c : ContentCache} (h : CachedAs cs c) {ops : List CacheOp}
    (hclock : ∀ now ∈ ops.flatMap CacheOp.readings, AccessedBefore now cs)
    (hforward : ClockMovesOn ops) :
    outs budgetedStep cs ops = outs cacheStep c ops ∧
      CachedAs (exec budgetedStep cs ops) (exec cacheStep c ops) := by
  induction ops generalizing cs c with
  | nil => exact ⟨rfl, h⟩
  | cons op ops ih =>
    rw [ClockMovesOn, List.flatMap_cons, List.pairwise_append] at hforward
    obtain ⟨-, hrest, hlater⟩ := hforward
    rw [List.flatMap_cons] at hclock
    obtain ⟨hanswer, hstands⟩ := h.step op fun now hnow => hclock now (List.mem_append_left _ hnow)
    obtain ⟨hanswers, hend⟩ := ih hstands
      (fun later hl => (hclock later (List.mem_append_right _ hl)).step op fun now hnow =>
        hlater now hnow later hl) hrest
    exact ⟨congrArg₂ _ hanswer hanswers, hend⟩

theorem AccessedBefore.run {later : UInt64} (h : AccessedBefore later cs) {ops : List CacheOp}
    (hops : ∀ now ∈ ops.flatMap CacheOp.readings, now < later) :
    AccessedBefore later (exec budgetedStep cs ops) :=
  exec_inv (P := fun _ op => op ∈ ops)
    (fun _ op h hop => h.step op fun now hnow => hops now (List.mem_flatMap.mpr ⟨op, hop, hnow⟩)) h
    (along_input.mpr fun _ hop => hop)

theorem ClockMovesOn.initial {ops ops' : List CacheOp} (h : ClockMovesOn ops')
    (hops : ops <+: ops') : ClockMovesOn ops := by
  obtain ⟨rest, rfl⟩ := hops
  rw [ClockMovesOn, List.flatMap_append, List.pairwise_append] at h
  exact h.1

/-- What a call answers at the end of a run. -/
theorem answer_eq {ops : List CacheOp} {op : CacheOp} (h : ClockMovesOn (ops ++ [op])) :
    (budgetedStep (exec budgetedStep psirpCsInit ops) op).1 =
        (cacheStep (exec cacheStep .empty ops) op).1 ∧
      CachedAs (exec budgetedStep psirpCsInit ops) (exec cacheStep .empty ops) := by
  have hinit : ∀ now, AccessedBefore now psirpCsInit := fun _ _ he => absurd he List.not_mem_nil
  obtain ⟨-, hcached⟩ := cachedAs_init.run (fun now _ => hinit now)
    (h.initial (List.prefix_append ops [op]))
  rw [ClockMovesOn, List.flatMap_append, List.pairwise_append] at h
  refine ⟨(hcached.step op fun now hnow => (hinit now).run fun before hbefore => ?_).1, hcached⟩
  exact h.2.2 before hbefore now (List.mem_flatMap.mpr ⟨op, List.mem_singleton_self _, hnow⟩)

end Clocks

/-- **Refinement.** Over every sequence of calls between whose readings the clock moves on, with
any budgets, the content store gives the answers of the cache. -/
theorem psirpCs_refines_cache {ops : List CacheOp} (h : ClockMovesOn ops) :
    outs budgetedStep psirpCsInit ops = outs cacheStep .empty ops :=
  (cachedAs_init.run (fun _ _ _ he => absurd he List.not_mem_nil) h).1

/-- `/c` -/
def keyC : PlainKey := ⟨[text ['c']], by decide, by decide, by decide⟩

/-- A budget of two bytes: `/a` is looked up, so `/b` goes when the next one comes. -/
def evictingOps : List CacheOp :=
  [.setBudget 2, .call (.store keyA [1] 0 1), .call (.store keyB [2] 0 2), .call (.lookup keyA 3),
    .call (.store keyC [3] 0 4), .call (.lookup keyA 5), .call (.lookup keyB 6)]

theorem psirpCs_refines_cache_evicting : ClockMovesOn evictingOps ∧
    outs budgetedStep psirpCsInit evictingOps = outs cacheStep .empty evictingOps :=
  ⟨by decide, psirpCs_refines_cache (by decide)⟩

/-! ## What stays in the cache -/

/-- The call stores no more than a bound under a name of the set. -/
def CacheOp.Bounded (K : Finset (List CString)) (bound : List CString → Nat) : CacheOp → Prop
  | .call (.store k d _ _) => k.components ∈ K → d.length ≤ bound k.components
  | _ => True

/-- The call uses no other content than that under some names, does not remove that of a further
name, and leaves a budget of so many bytes. -/
def CacheOp.Spares (K : Finset (List CString)) (k : List CString) (need : Nat) : CacheOp → Prop
  | .call (.store k' _ _ _) => k'.components ∈ K
  | .call (.lookup k' _) => k'.components ∈ insert k K
  | .call (.remove k') => k'.components ≠ k
  | .call (.gc _) => True
  | .setBudget maxBytes => maxBytes = 0 ∨ need ≤ maxBytes.toNat

/-- The rows of some names are within a bound, and no name is there twice. -/
structure RowsWithin (K : Finset (List CString)) (bound : List CString → Nat) (c : ContentCache) :
    Prop where
  /-- names are different -/
  keyed : Keyed CacheRow.components c.rows
  /-- rows are within the bound -/
  bytes_le : ∀ r ∈ c.rows, r.components ∈ K → r.bytes ≤ bound r.components

section Working

variable {K : Finset (List CString)} {bound : List CString → Nat} {c : ContentCache} {r : CacheRow}

theorem ne_of_notMem_rows {k : List CString} (h : k ∉ c.rows.map CacheRow.components) :
    ∀ b ∈ c.rows, b.components ≠ k :=
  fun _ hb hk => h (hk ▸ List.mem_map_of_mem hb)

theorem rows_fit_suffix (c : ContentCache) : c.fit.rows <:+ c.rows := by
  rw [ContentCache.fit]
  split
  · exact trim_suffix _
  · exact List.suffix_rfl

theorem RowsWithin.sublist (h : RowsWithin K bound c) {c' : ContentCache}
    (hsub : c'.rows.Sublist c.rows) : RowsWithin K bound c' :=
  ⟨h.keyed.subperm hsub.subperm, fun r hr => h.bytes_le r (hsub.subset hr)⟩

/-- A row of a new name at the end. -/
theorem RowsWithin.concat (h : RowsWithin K bound c)
    (hnew : ∀ b ∈ c.rows, b.components ≠ r.components)
    (hr : r.components ∈ K → r.bytes ≤ bound r.components) {c' : ContentCache}
    (hrows : c'.rows = c.rows ++ [r]) : RowsWithin K bound c' := by
  refine ⟨hrows ▸ h.keyed.concat hnew, fun b hb => ?_⟩
  rw [hrows] at hb
  rcases List.mem_append.mp hb with hb | hb
  · exact h.bytes_le b hb
  · rwa [List.mem_singleton.mp hb]

theorem RowsWithin.use (h : RowsWithin K bound c)
    (hr : r.components ∈ K → r.bytes ≤ bound r.components) :
    RowsWithin K bound { c with rows := use CacheRow.components r c.rows } := by
  have hwithout : RowsWithin K bound
      { c with rows := without CacheRow.components r.components c.rows } :=
    h.sublist List.filter_sublist
  exact hwithout.concat (fun b hb => of_decide_eq_true (List.mem_filter.mp hb).2) hr rfl

theorem RowsWithin.step (h : RowsWithin K bound c) {op : CacheOp} (hop : op.Bounded K bound) :
    RowsWithin K bound (cacheStep c op).2 := by
  cases op with
  | setBudget maxBytes => exact ⟨h.keyed, h.bytes_le⟩
  | call op =>
    cases op with
    | store k d f now =>
      rw [cacheStep]
      split
      · exact h
      · split
        · exact h.use hop
        · rename_i hnew
          split
          · exact h
          · refine RowsWithin.sublist (c := { c with rows := c.rows ++ [_] }) ?_
              (rows_fit_suffix _).sublist
            exact h.concat (r := storedRow k d f now) (ne_of_notMem_rows hnew) hop rfl
    | lookup k now =>
      rw [cacheStep]
      split
      · exact h
      · rename_i r hr
        exact h.use (h.bytes_le r (mem_of_row (Option.filter_eq_some_iff.mp hr).1))
    | remove k => exact h.sublist List.filter_sublist
    | gc now => exact (h.sublist List.filter_sublist).sublist (rows_fit_suffix _).sublist

/-- **The invariant.** The row stays, as long as it and what is used after it fit. -/
structure Stays (K : Finset (List CString)) (bound : List CString → Nat) (r : CacheRow)
    (c : ContentCache) : Prop where
  /-- the rows of the names are within the bound -/
  bounded : RowsWithin K bound c
  /-- only they are used after the row -/
  recent : Recent CacheRow.components K r c.rows
  /-- and the budget has room for all of them -/
  budget : c.budget = 0 ∨ r.bytes + ∑ u ∈ K, bound u ≤ c.budget

theorem Stays.fit (h : Stays K bound r c) : Stays K bound r c.fit := by
  have hbounded := h.bounded.sublist (rows_fit_suffix c).sublist
  rw [ContentCache.fit] at hbounded ⊢
  split
  · rename_i hpos
    rw [if_pos hpos] at hbounded
    have hle := h.budget.resolve_left (Nat.ne_of_gt hpos)
    exact ⟨hbounded, h.recent.trim h.bounded.keyed h.bounded.bytes_le hle, h.budget⟩
  · exact h

/-- Another row is used. -/
theorem Stays.use (h : Stays K bound r c) {b : CacheRow} (hr : r.components ∉ K)
    (hb : b.components ∈ K) (hle : b.bytes ≤ bound b.components) :
    Stays K bound r { c with rows := use CacheRow.components b c.rows } where
  bounded := h.bounded.use fun _ => hle
  recent := by
    have hne : r.components ≠ b.components := fun hk => hr (hk ▸ hb)
    exact (h.recent.filter (decide_eq_true hne)).concat hb
  budget := h.budget

/-- What is found under the name is the row. -/
theorem Stays.row_eq (h : Stays K bound r c) :
    row CacheRow.components c.rows r.components = some r :=
  h.bounded.keyed.row_eq_some.mpr ⟨h.recent.mem, rfl⟩

/-- **Step lemma.** -/
theorem Stays.step (h : Stays K bound r c) (hr : r.components ∉ K) {op : CacheOp}
    (hbound : op.Bounded K bound)
    (hspares : op.Spares K r.components (r.bytes + ∑ u ∈ K, bound u))
    (hlive : ∀ now ∈ op.readings, clock now < r.lease.gone) :
    Stays K bound r (cacheStep c op).2 := by
  cases op with
  | setBudget maxBytes =>
    refine ⟨⟨h.bounded.keyed, h.bounded.bytes_le⟩, h.recent, hspares.imp_left fun hzero => ?_⟩
    rw [cacheStep, hzero]
    rfl
  | call op =>
    cases op with
    | store k d f now =>
      have hk : k.components ∈ K := hspares
      rw [cacheStep]
      split
      · exact h
      · split
        · exact h.use hr hk (hbound hk)
        · rename_i hnew
          split
          · exact h
          · refine Stays.fit ⟨?_, h.recent.concat hk, h.budget⟩
            exact h.bounded.concat (r := storedRow k d f now) (ne_of_notMem_rows hnew) hbound rfl
    | lookup k now =>
      rw [cacheStep]
      split
      · exact h
      · rename_i b hb
        have hb := (Option.filter_eq_some_iff.mp hb).1
        rcases Finset.mem_insert.mp hspares with hk | hk
        · -- the row itself is used
          rw [hk, h.row_eq] at hb
          obtain rfl := Option.some.inj hb
          exact ⟨h.bounded.use (h.bounded.bytes_le r h.recent.mem), recent_concat _, h.budget⟩
        · have hkey := key_of_row hb
          exact h.use hr (hkey ▸ hk) (h.bounded.bytes_le b (mem_of_row hb) (hkey ▸ hk))
    | remove k =>
      exact ⟨h.bounded.sublist List.filter_sublist,
        h.recent.filter (decide_eq_true fun hk => hspares hk.symm), h.budget⟩
    | gc now =>
      have hfilter : (fun b : CacheRow => b.lease.live (clock now)) r = true :=
        decide_eq_true (hlive now (List.mem_singleton_self _))
      exact Stays.fit ⟨h.bounded.sublist List.filter_sublist, h.recent.filter hfilter, h.budget⟩

/-- What was stored just now stays. -/
theorem RowsWithin.store (h : RowsWithin K bound c) {k : PlainKey} {d : List UInt8} {f : UInt32}
    {now : UInt64} (hk : k.components ∉ K)
    (hbudget : c.budget = 0 ∨ d.length + ∑ u ∈ K, bound u ≤ c.budget)
    (hstored : (cacheStep c (.call (.store k d f now))).1 = .verdict true) :
    Stays K bound (storedRow k d f now) (cacheStep c (.call (.store k d f now))).2 := by
  have hother : k.components ∈ K → d.length ≤ bound k.components := fun hK => absurd hK hk
  rw [cacheStep] at hstored ⊢
  split at hstored
  · cases hstored
  · rename_i hd
    rw [if_neg hd]
    split at hstored
    · rename_i hthere
      rw [if_pos hthere]
      exact ⟨h.use hother, recent_concat _, hbudget⟩
    · rename_i hnew
      rw [if_neg hnew]
      split at hstored
      · cases hstored
      · rename_i hroom
        rw [if_neg hroom]
        exact Stays.fit ⟨h.concat (r := storedRow k d f now) (ne_of_notMem_rows hnew) hother rfl,
          recent_concat _, hbudget⟩

/-- **Run lemma.** -/
theorem Stays.run (h : Stays K bound r c) (hr : r.components ∉ K) {ops : List CacheOp}
    (hbound : ∀ op ∈ ops, op.Bounded K bound)
    (hspares : ∀ op ∈ ops, op.Spares K r.components (r.bytes + ∑ u ∈ K, bound u))
    (hlive : ∀ now ∈ ops.flatMap CacheOp.readings, clock now < r.lease.gone) :
    Stays K bound r (exec cacheStep c ops) := by
  refine exec_inv (P := fun _ op => op ∈ ops) (fun c op h hop => ?_) h
    (along_input.mpr fun _ hop => hop)
  exact h.step hr (hbound op hop) (hspares op hop) fun now hnow =>
    hlive now (List.mem_flatMap.mpr ⟨op, hop, hnow⟩)

theorem RowsWithin.run (h : RowsWithin K bound c) {ops : List CacheOp}
    (hbound : ∀ op ∈ ops, op.Bounded K bound) : RowsWithin K bound (exec cacheStep c ops) :=
  exec_inv (P := fun _ op => op ∈ ops) (fun _ op h hop => h.step (hbound op hop)) h
    (along_input.mpr fun _ hop => hop)

/-- A row that is live is found. -/
theorem Stays.lookup {k : PlainKey} {d : List UInt8} {f : UInt32} {stored now : UInt64}
    (h : Stays K bound (storedRow k d f stored) c) (hlive : clock now < goneAt stored f) :
    (cacheStep c (.call (.lookup k now))).1 = .found (some ⟨d, f⟩) := by
  have hrow : row CacheRow.components c.rows k.components = some (storedRow k d f stored) :=
    h.row_eq
  have hlive' : (storedRow k d f stored).lease.live (clock now) = true := decide_eq_true hlive
  rw [cacheStep, hrow, Option.filter_some, if_pos hlive']
  rfl

theorem rowsWithin_empty : RowsWithin K bound .empty :=
  ⟨List.nodup_nil, fun _ hr => absurd hr List.not_mem_nil⟩

end Working

/-- **Recent content stays.** Content that was stored is found again, as long as it is not over or
removed and its bytes, with the most that is stored under each of the names used since, are within
the budget, whatever else the store holds. -/
theorem recent_content_stays {ops later : List CacheOp} {k : PlainKey} {d : List UInt8} {f : UInt32}
    {stored asked : UInt64} {K : Finset (List CString)} {bound : List CString → Nat}
    (hclock : ClockMovesOn
      (ops ++ .call (.store k d f stored) :: (later ++ [.call (.lookup k asked)])))
    (hstored : (budgetedStep (exec budgetedStep psirpCsInit ops)
      (.call (.store k d f stored))).1 = .verdict true)
    (hbudget : (exec budgetedStep psirpCsInit ops).maxBytes = 0 ∨
      d.length + ∑ u ∈ K, bound u ≤ (exec budgetedStep psirpCsInit ops).maxBytes.toNat)
    (hk : k.components ∉ K) (hbound : ∀ op ∈ ops ++ later, op.Bounded K bound)
    (hspares : ∀ op ∈ later, op.Spares K k.components (d.length + ∑ u ∈ K, bound u))
    (hlive : clock asked < goneAt stored f) :
    (budgetedStep (exec budgetedStep psirpCsInit (ops ++ .call (.store k d f stored) :: later))
      (.call (.lookup k asked))).1 = .found (some ⟨d, f⟩) := by
  rw [← List.cons_append, ← List.append_assoc] at hclock
  -- the cache when the content is stored
  obtain ⟨hanswer, hcached⟩ := answer_eq (hclock.initial
    (⟨later ++ [.call (.lookup k asked)], by simp⟩ : ops ++ [.call (.store k d f stored)] <+: _))
  have hwithin : RowsWithin K bound (exec cacheStep .empty ops) :=
    rowsWithin_empty.run fun op hop => hbound op (List.mem_append_left _ hop)
  rw [hanswer] at hstored
  rw [hcached.budget_eq, ← UInt64.toNat_inj, hcached.budget_eq] at hbudget
  have hstays := hwithin.store hk hbudget hstored
  -- and when it is asked for
  have hbefore : ∀ now ∈ later.flatMap CacheOp.readings, clock now < goneAt stored f := by
    intro now hnow
    refine lt_of_le_of_lt (clock_mono (UInt64.le_of_lt ?_)) hlive
    rw [ClockMovesOn, List.flatMap_append, List.pairwise_append] at hclock
    refine hclock.2.2 now ?_ asked (List.mem_singleton_self _)
    rw [List.flatMap_append, List.flatMap_cons]
    exact List.mem_append_right _ (List.mem_append_right _ hnow)
  have hend := hstays.run hk (fun op hop => hbound op (List.mem_append_right _ hop)) hspares hbefore
  rw [(answer_eq hclock).1, exec_append, exec_cons]
  exact hend.lookup hlive

/-- `/c` is stored under a budget of five bytes. -/
def fullOps : List CacheOp := [.setBudget 5, .call (.store keyC [7, 7, 7] 0 1)]

/-- `/b` is stored twice, and others go. -/
def laterOps : List CacheOp :=
  [.call (.store keyB [2, 2] 0 3), .call (.store keyB [2, 2, 2, 2] 0 4), .call (.gc 5)]

/-- Stored in between, `/a` stays. -/
theorem recent_content_stays_a :
    (budgetedStep (exec budgetedStep psirpCsInit
      (fullOps ++ .call (.store keyA [1] 0 2) :: laterOps)) (.call (.lookup keyA 6))).1 =
        .found (some ⟨[1], 0⟩) := by
  have hstored : (psirpCsStore (exec budgetedStep psirpCsInit fullOps) keyA.name [1] 0 2).1 =
      true := by
    decide +kernel
  have hbound : ∀ op ∈ fullOps ++ laterOps, op.Bounded {keyB.components} fun _ => 4 := by
    simp [fullOps, laterOps, CacheOp.Bounded]
  have hspares : ∀ op ∈ laterOps, op.Spares {keyB.components} keyA.components 5 := by
    simp [laterOps, CacheOp.Spares]
  exact recent_content_stays (by decide) (congrArg CsAnswer.verdict hstored)
    (Or.inr (by decide +kernel)) (by decide) hbound hspares (by decide)

end DsoBrowser
