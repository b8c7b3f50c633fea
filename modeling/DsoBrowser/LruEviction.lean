import DsoBrowser.Budget
import DsoBrowser.PlainStore
import DsoBrowser.Lib.Eviction

/-!
# What eviction and expiry take out of the content store

The two loops that remove entries as instances of the table library: the expiry loop of
`psirp_cs_gc` is a `swapSweep`, and the budget loop trims the eviction order given by `lruIndex`
(`budgetLoop_trims`). So

* what the budget loop evicts was accessed no later than what it leaves, and it evicts no more
  entries than it must (`budgetRun_evictsLru`);
* a gc without a budget leaves exactly the entries that have not expired (`psirpCsGc_unlimited`);
* a store that returns true has stored the data exactly when an entry with that data and the
  entries after it in the eviction order fit the budget (`trueStoreStored_iff`). The loop runs over
  the new entry, too: data longer than the budget is evicted at once, and among entries accessed
  in the same nanosecond the new one need not be the last to go.
-/

namespace DsoBrowser

open Table

/-! ## The least recently used entry -/

theorem lruLoop_least {es : List PsirpCsEntry} : ∀ {before : List PsirpCsEntry} {lru : Nat}
    {v : PsirpCsEntry}, (before ++ es)[lru]? = some v →
    (∀ b ∈ before, v.lastAccessNs ≤ b.lastAccessNs) →
    ∃ v', (before ++ es)[lruLoop es before.length lru v.lastAccessNs]? = some v' ∧
      ∀ b ∈ before ++ es, v'.lastAccessNs ≤ b.lastAccessNs := by
  induction es with
  | nil =>
    intro before lru v hv hleast
    refine ⟨v, hv, ?_⟩
    rwa [List.append_nil]
  | cons e es ih =>
    intro before lru v hv hleast
    have hcut : before ++ e :: es = (before ++ [e]) ++ es := by
      rw [List.append_assoc, List.singleton_append]
    have hlen : before.length + 1 = (before ++ [e]).length := by
      rw [List.length_append, List.length_singleton]
    rw [lruLoop]
    split
    · rename_i hlt
      rw [hlen, hcut]
      apply ih (by rw [← hcut]; exact getElem?_append_cons before e es)
      intro b hb
      rcases List.mem_append.mp hb with hb | hb
      · exact UInt64.le_of_lt (UInt64.lt_of_lt_of_le hlt (hleast b hb))
      · rw [List.mem_singleton.mp hb]
        exact UInt64.le_refl _
    · rename_i hge
      rw [hlen, hcut]
      apply ih (by rwa [← hcut])
      intro b hb
      rcases List.mem_append.mp hb with hb | hb
      · exact hleast b hb
      · rw [List.mem_singleton.mp hb]
        exact UInt64.not_lt.mp hge

/-- No entry was accessed before the victim. -/
theorem lruIndex_least {es : List PsirpCsEntry} {v b : PsirpCsEntry}
    (hv : es[lruIndex es]? = some v) (hb : b ∈ es) : v.lastAccessNs ≤ b.lastAccessNs := by
  cases es with
  | nil => exact absurd hb List.not_mem_nil
  | cons e es =>
    have hfirst : ([e] ++ es)[0]? = some e := rfl
    obtain ⟨v', hv', hleast⟩ := lruLoop_least hfirst fun b hb => by
      rw [List.mem_singleton.mp hb]
      exact UInt64.le_refl _
    obtain rfl : v' = v := Option.some.inj (hv'.symm.trans hv)
    exact hleast b hb

/-- The order in which entries would be evicted until none is left. -/
abbrev lruOrder (es : List PsirpCsEntry) : List PsirpCsEntry := evictionOrder lruIndex es

theorem lruOrder_perm (es : List PsirpCsEntry) : (lruOrder es).Perm es :=
  evictionOrder_perm (fun _ => lruIndex_lt) es

/-- Earlier evicted is no later accessed. -/
theorem pairwise_lruOrder (es : List PsirpCsEntry) :
    (lruOrder es).Pairwise fun a b => a.lastAccessNs ≤ b.lastAccessNs :=
  pairwise_evictionOrder (fun _ => lruIndex_lt) (fun _ _ _ hv hb => lruIndex_least hv hb) es

/-! ## The budget loop -/

/-- The entries the budget loop frees, in order. -/
def budgetVictims : Nat → PsirpCs → List PsirpCsEntry
  | 0, _ => []
  | fuel + 1, cs =>
    if cs.maxBytes < cs.bytesUsed ∧ cs.entries ≠ [] then
      cs.entries[lruIndex cs.entries]?.toList ++
        budgetVictims fuel (removeAt cs (lruIndex cs.entries))
    else []

/-- **The budget loop trims the eviction order** to the budget. -/
theorem budgetLoop_trims {cs : PsirpCs} (h : Accounts cs) {fuel : Nat}
    (hfuel : cs.entries.length ≤ fuel) :
    Trims (fun e => e.data.length) cs.maxBytes.toNat (lruOrder cs.entries)
        (budgetVictims fuel cs) (lruOrder (budgetLoop fuel cs).2.entries) ∧
      (budgetLoop fuel cs).1 = (budgetVictims fuel cs).length := by
  -- the counter weighs the eviction order
  have hheld : ∀ {cs : PsirpCs}, Accounts cs →
      total (fun e => e.data.length) (lruOrder cs.entries) = cs.bytesUsed.toNat :=
    fun h => (total_perm (lruOrder_perm _)).trans h.bytes_eq.symm
  induction fuel generalizing cs with
  | zero =>
    have hnil := List.length_eq_zero_iff.mp (Nat.le_zero.mp hfuel)
    refine ⟨Trims.nil ?_, rfl⟩
    rw [hnil]
    exact Nat.zero_le _
  | succ fuel ih =>
    rw [budgetLoop, budgetVictims]
    split
    · rename_i hcond
      have hlt := lruIndex_lt hcond.2
      have hget := List.getElem?_eq_getElem hlt
      have hlen := length_removeAt hlt
      have hacc := (h.removeAt (lruIndex cs.entries)).2
      obtain ⟨htrims, hcount⟩ := ih hacc (by omega)
      rw [maxBytes_removeAt] at htrims
      have horder := evictionOrder_of_pick hget
      rw [← entries_removeAt hget] at horder
      rw [hget, lruOrder, horder]
      refine ⟨Trims.cons ?_ htrims, ?_⟩
      · have hover := UInt64.lt_iff_toNat_lt.mp hcond.1
        rw [← hheld h, lruOrder, horder, total_cons] at hover
        exact hover
      · dsimp only
        rw [hcount]
        rfl
    · rename_i hcond
      refine ⟨Trims.nil ?_, rfl⟩
      rw [hheld h]
      by_cases hnil : cs.entries = []
      · rw [h.bytes_eq, hnil]
        exact Nat.zero_le _
      · exact UInt64.le_iff_toNat_le.mp (UInt64.not_lt.mp fun hlt => hcond ⟨hlt, hnil⟩)

/-- What the budget loop, from `before` to `after`, does to the table when there is a budget. -/
structure EvictsLru (before after : PsirpCs) : Prop where
  /-- the entries left are those there were without the evicted ones -/
  perm : (budgetVictims before.entries.length before ++ after.entries).Perm before.entries
  /-- no evicted entry was accessed after one that is left -/
  least : ∀ v ∈ budgetVictims before.entries.length before, ∀ e ∈ after.entries,
    v.lastAccessNs ≤ e.lastAccessNs
  /-- the bytes held before the last eviction exceeded the budget -/
  needed : ∀ v, (budgetVictims before.entries.length before).getLast? = some v →
    before.maxBytes.toNat < v.data.length + heldBytes after.entries
  /-- the budget is kept -/
  within : after.bytesUsed ≤ after.maxBytes
  /-- and it is the same budget -/
  maxBytes_eq : after.maxBytes = before.maxBytes

theorem enforceBudget_evictsLru {cs : PsirpCs} (h : Accounts cs) (hb : 0 < cs.maxBytes) :
    EvictsLru cs (enforceBudget cs).2 := by
  have hwithin := enforceBudget_within h
  have hmax := (enforceBudget_frame cs).2.2
  obtain ⟨htrims, -⟩ := budgetLoop_trims h le_rfl
  rw [enforceBudget, if_pos hb] at hwithin hmax ⊢
  have hleft := lruOrder_perm (budgetLoop cs.entries.length cs).2.entries
  refine ⟨?_, ?_, ?_, hwithin (by rwa [hmax]), hmax⟩
  · exact (hleft.symm.append_left _).trans (htrims.split ▸ lruOrder_perm cs.entries)
  · intro v hv e he
    have hpair := pairwise_lruOrder cs.entries
    rw [htrims.split, List.pairwise_append] at hpair
    exact hpair.2.2 v hv e (hleft.mem_iff.mpr he)
  · intro v hv
    have hneeded := htrims.needed v hv
    rwa [total_perm hleft] at hneeded

/-- The content store with the new entry in it, before `psirp_cs_store` looks at the budget. -/
def inserted (cs : PsirpCs) (name : PsirpName) (data : List UInt8) (freshnessMs : UInt32)
    (now : UInt64) : PsirpCs :=
  { cs with
    entries := cs.entries ++ [newEntry name data freshnessMs now]
    bytesUsed := cs.bytesUsed + UInt64.ofNat data.length }

/-- A call on `cs` gets to its budget loop, which runs from one state to another. -/
inductive BudgetRun (cs : PsirpCs) : PsirpCs → PsirpCs → Prop where
  /-- in `psirp_cs_store`, when it inserts -/
  | store (name : PsirpName) (data : List UInt8) (freshnessMs : UInt32) (now : UInt64)
      (hdata : Storable data) (hroom : cs.entries.length < cs.capacity)
      (hnew : cs.entries.findIdx? (fun e => psirpNameEqual e.name name) = none) :
      BudgetRun cs (inserted cs name data freshnessMs now)
        (psirpCsStore cs name data freshnessMs now).2
  /-- in `psirp_cs_gc` -/
  | gc (now : UInt64) :
      BudgetRun cs (gcLoop now cs.entries.length cs).2 (psirpCsGc cs now).2

theorem psirpCsStore_of_new {cs : PsirpCs} {name : PsirpName} {data : List UInt8}
    (hdata : Storable data) (hroom : cs.entries.length < cs.capacity)
    (hnew : cs.entries.findIdx? (fun e => psirpNameEqual e.name name) = none)
    (freshnessMs : UInt32) (now : UInt64) :
    psirpCsStore cs name data freshnessMs now =
      (true, (enforceBudget (inserted cs name data freshnessMs now)).2) := by
  rcases psirpCsStore_cases cs name data freshnessMs now with
    ⟨-, hrefused⟩ | ⟨-, i, b, hidx, -⟩ | ⟨-, -, -, hs⟩
  · exact absurd (hrefused hdata).1 (Nat.not_le.mpr hroom)
  · rw [hnew] at hidx
    cases hidx
  · exact hs

/-- **Eviction is LRU and minimal**, from any store with exact accounting and wherever the budget
loop runs. -/
theorem budgetRun_evictsLru {cs : PsirpCs} (h : Accounts cs) (hb : 0 < cs.maxBytes) :
    EvictsLru cs (enforceBudget cs).2 ∧
      ∀ before after, BudgetRun cs before after → EvictsLru before after := by
  refine ⟨enforceBudget_evictsLru h hb, ?_⟩
  intro before after hrun
  cases hrun with
  | store name data freshnessMs now hdata hroom hnew =>
    rw [psirpCsStore_of_new hdata hroom hnew]
    exact enforceBudget_evictsLru (h.append hroom name hdata freshnessMs now).2 hb
  | gc now =>
    have hmax := (gcLoop_frame now cs.entries.length cs).2.2
    exact enforceBudget_evictsLru (h.gcLoop now cs.entries.length).2 (by rwa [hmax])

/-- `/b` -/
def keyB : PlainKey := ⟨[text ['b']], by decide, by decide, by decide⟩

/-- `/a` with one byte, accessed at `5`, and `/b` with one byte, accessed at `3`, over a budget of
one byte. -/
def overBudget : PsirpCs :=
  psirpCsSetBudget
    (psirpCsStore (psirpCsStore psirpCsInit keyA.name [1] 0 5).2 keyB.name [2] 0 3).2 1

theorem accounts_overBudget : Accounts overBudget :=
  ((accounts_init.store keyA.name [1] 0 5).2.store keyB.name [2] 0 3).2.congr rfl rfl rfl

theorem evictsLru_overBudget :
    EvictsLru overBudget (enforceBudget overBudget).2 ∧ (enforceBudget overBudget).1 = 1 :=
  ⟨(budgetRun_evictsLru accounts_overBudget (by decide +kernel)).1, by decide +kernel⟩

/-! ## Expiry -/

/-- What an entry has to be to outlive a gc at `now`. -/
def FreshAt (now : UInt64) (e : PsirpCsEntry) : Prop :=
  e.freshnessMs = 0 ∨ (now.toNat - e.timestamp.toNat) / 1000000 ≤ e.freshnessMs.toNat

instance (now : UInt64) (e : PsirpCsEntry) : Decidable (FreshAt now e) :=
  inferInstanceAs (Decidable (_ ∨ _))

/-- With a clock that has not gone back, the age is the difference of the readings. -/
theorem entryExpired_iff {now : UInt64} {e : PsirpCsEntry} (h : e.timestamp ≤ now) :
    entryExpired e now = true ↔ ¬ FreshAt now e := by
  have hage : ((now - e.timestamp) / 1000000).toNat =
      (now.toNat - e.timestamp.toNat) / 1000000 := by
    rw [UInt64.toNat_div, UInt64.toNat_sub_of_le _ _ h]
    rfl
  rw [entryExpired, FreshAt]
  split
  · rename_i hforever
    simp [hforever]
  · rename_i hfinite
    rw [decide_eq_true_eq, UInt64.lt_iff_toNat_lt, hage, UInt32.toNat_toUInt64, not_or, Nat.not_le]
    exact (and_iff_right hfinite).symm

/-- The expiry loop as a sweep. -/
theorem entries_gcLoop (now : UInt64) (i : Nat) (cs : PsirpCs) :
    (gcLoop now i cs).2.entries = swapSweep (entryExpired · now) i cs.entries := by
  induction i generalizing cs with
  | zero => rfl
  | succ i ih =>
    rw [gcLoop, swapSweep]
    cases he : cs.entries[i]? with
    | none => exact ih cs
    | some e =>
      dsimp only
      split
      · rw [← entries_removeAt he]
        exact ih _
      · exact ih cs

/-- What it returns is the number of entries it removed. -/
theorem gcLoop_fst (now : UInt64) (i : Nat) (cs : PsirpCs) :
    (gcLoop now i cs).1 + (gcLoop now i cs).2.entries.length = cs.entries.length := by
  induction i generalizing cs with
  | zero => exact Nat.zero_add _
  | succ i ih =>
    rw [gcLoop]
    cases he : cs.entries[i]? with
    | none => exact ih cs
    | some e =>
      dsimp only
      split
      · obtain ⟨hlt, -⟩ := List.getElem?_eq_some_iff.mp he
        have hlen := length_removeAt hlt
        have hrest := ih (removeAt cs i)
        dsimp only
        omega
      · exact ih cs

/-- **Garbage collection removes exactly the expired entries.** -/
theorem psirpCsGc_unlimited {cs : PsirpCs} (h : Accounts cs) (hb : cs.maxBytes = 0) {now : UInt64}
    (hclock : ∀ e ∈ cs.entries, e.timestamp ≤ now) :
    let (removed, cs') := psirpCsGc cs now
    cs'.entries.Perm (cs.entries.filter fun e => FreshAt now e) ∧
      cs'.bytesUsed.toNat = heldBytes cs'.entries ∧
      removed = cs.entries.countP fun e => ¬ FreshAt now e := by
  have hgc : psirpCsGc cs now = gcLoop now cs.entries.length cs := by
    have hmax := (gcLoop_frame now cs.entries.length cs).2.2
    rw [psirpCsGc]
    dsimp only
    rw [enforceBudget_of_unlimited (hmax.trans hb)]
    rfl
  have hacc := (h.gc now).2
  have hcount := gcLoop_fst now cs.entries.length cs
  have hperm : (gcLoop now cs.entries.length cs).2.entries.Perm
      (cs.entries.filter fun e => FreshAt now e) := by
    rw [entries_gcLoop]
    refine (swapSweep_perm cs.entries).trans (List.Perm.of_eq (List.filter_congr fun e he => ?_))
    rw [Bool.eq_iff_iff, Bool.not_eq_true', ← Bool.not_eq_true, entryExpired_iff (hclock e he),
      not_not, decide_eq_true_eq]
  rw [hgc] at hacc ⊢
  refine ⟨hperm, hacc.bytes_eq, ?_⟩
  have hsplit := List.length_eq_countP_add_countP (fun e => decide (FreshAt now e)) (l := cs.entries)
  have hlen := hperm.length_eq
  rw [← List.countP_eq_length_filter] at hlen
  have hnot : cs.entries.countP (fun e => decide (¬ decide (FreshAt now e) = true)) =
      cs.entries.countP fun e => decide (¬ FreshAt now e) := by
    simp only [decide_eq_true_eq]
  omega

/-- `/a`, kept for a millisecond from `0` on, is gone two milliseconds later, `/b` is not. -/
theorem psirpCsGc_unlimited_ab :
    let cs := (psirpCsStore (psirpCsStore psirpCsInit keyA.name [1] 1 0).2 keyB.name [2] 0 0).2
    (psirpCsGc cs 2000000).2.bytesUsed.toNat = heldBytes (psirpCsGc cs 2000000).2.entries ∧
      (psirpCsGc cs 2000000).1 = 1 := by
  intro cs
  have hacc : Accounts cs := ((accounts_init.store keyA.name [1] 1 0).2.store keyB.name [2] 0 0).2
  have hclock : ∀ e ∈ cs.entries, e.timestamp ≤ 2000000 := by decide +kernel
  obtain ⟨-, hbytes, hremoved⟩ := psirpCsGc_unlimited hacc (by decide +kernel) hclock
  exact ⟨hbytes, hremoved.trans (by decide +kernel)⟩

/-! ## Stores that return true -/

/-- If the call returns true, the table has an entry with the components of the name and the
data. -/
def TrueStoreStored (cs : PsirpCs) (k : PlainKey) (data : List UInt8) (freshnessMs : UInt32)
    (now : UInt64) : Prop :=
  (psirpCsStore cs k.name data freshnessMs now).1 = true →
    ∃ e ∈ (psirpCsStore cs k.name data freshnessMs now).2.entries,
      e.components = k.components ∧ e.data = data

/-- There is no budget; or the call replaces the data of an entry; or the table is full; or some
entry with the components and the data, the new one as a rule, fits the budget together with the
entries that come after it in the eviction order of the table with the new entry. -/
def KeptByBudget (cs : PsirpCs) (k : PlainKey) (data : List UInt8) (freshnessMs : UInt32)
    (now : UInt64) : Prop :=
  cs.maxBytes = 0 ∨ (∃ e ∈ cs.entries, psirpNameEqual e.name k.name = true) ∨
    cs.capacity ≤ cs.entries.length ∨
    ∃ sooner e later,
      lruOrder (cs.entries ++ [newEntry k.name data freshnessMs now]) = sooner ++ e :: later ∧
      e.components = k.components ∧ e.data = data ∧
      heldBytes (e :: later) ≤ cs.maxBytes.toNat

theorem components_newEntry (k : PlainKey) (data : List UInt8) (freshnessMs : UInt32)
    (now : UInt64) : (newEntry k.name data freshnessMs now).components = k.components := by
  change (entryName k.name).components = k.components
  rw [k.parsed.entryName_eq]
  exact k.components_name

theorem Reachable.accounts {cs : PsirpCs} (h : Reachable cs) : Accounts cs := by
  obtain ⟨ops, rfl⟩ := h
  exact Machine.exec_inv (P := fun _ _ => True) (fun _ op h _ => (h.csStep op).2) accounts_init
    (Machine.along_input.mpr fun _ _ => trivial)

/-- What the budget loop leaves is the end of the eviction order that fits the budget. -/
theorem mem_enforceBudget_iff {cs : PsirpCs} (h : Accounts cs) (hb : cs.maxBytes ≠ 0)
    (e : PsirpCsEntry) : e ∈ (enforceBudget cs).2.entries ↔ ∃ sooner later,
      lruOrder cs.entries = sooner ++ e :: later ∧ heldBytes (e :: later) ≤ cs.maxBytes.toNat := by
  have hpos : 0 < cs.maxBytes := UInt64.pos_iff_ne_zero.mpr hb
  obtain ⟨htrims, -⟩ := budgetLoop_trims h le_rfl
  have hleft := lruOrder_perm (budgetLoop cs.entries.length cs).2.entries
  rw [enforceBudget, if_pos hpos]
  exact hleft.mem_iff.symm.trans (htrims.mem_left_iff e)

/-- A call that overwrites an entry stores the data. -/
theorem trueStoreStored_of_match {cs : PsirpCs} {k : PlainKey} {data : List UInt8} {i : Nat}
    (hidx : cs.entries.findIdx? (fun e => psirpNameEqual e.name k.name) = some i)
    (hd : Storable data) (freshnessMs : UInt32) (now : UInt64) :
    TrueStoreStored cs k data freshnessMs now := by
  obtain ⟨hi, heq, -⟩ := List.findIdx?_eq_some_iff_getElem.mp hidx
  have he := List.getElem?_eq_getElem hi
  intro _
  rw [psirpCsStore_of_match hidx he hd]
  refine ⟨overwrite data freshnessMs now cs.entries[i], ?_, ?_, rfl⟩
  · rw [List.mem_iff_getElem?]
    exact ⟨i, by rw [List.getElem?_modify_eq, he]; rfl⟩
  · exact (psirpNameEqual_iff.mp heq).2.trans k.components_name

/-- **A store that returns true has stored the data** exactly when the budget keeps it. -/
theorem trueStoreStored_iff {cs : PsirpCs} (h : Reachable cs) (k : PlainKey) {data : List UInt8}
    (hd : Storable data) (freshnessMs : UInt32) (now : UInt64) :
    TrueStoreStored cs k data freshnessMs now ↔ KeptByBudget cs k data freshnessMs now := by
  rw [KeptByBudget]
  cases hidx : cs.entries.findIdx? (fun e => psirpNameEqual e.name k.name) with
  | some i =>
    obtain ⟨hi, heq, -⟩ := List.findIdx?_eq_some_iff_getElem.mp hidx
    exact iff_of_true (trueStoreStored_of_match hidx hd freshnessMs now)
      (Or.inr (Or.inl ⟨_, List.getElem_mem hi, heq⟩))
  | none =>
    have hnomatch : ¬ ∃ e ∈ cs.entries, psirpNameEqual e.name k.name = true := by
      rintro ⟨e, he, heq⟩
      exact Bool.false_ne_true ((List.findIdx?_eq_none_iff.mp hidx e he).symm.trans heq)
    by_cases hfull : cs.capacity ≤ cs.entries.length
    · refine iff_of_true (fun htrue => ?_) (Or.inr (Or.inr (Or.inl hfull)))
      rcases psirpCsStore_cases cs k.name data freshnessMs now with
        ⟨hs, -⟩ | ⟨-, i, b, hi, -⟩ | ⟨-, hroom, -, -⟩
      · rw [hs] at htrue
        cases htrue
      · rw [hidx] at hi
        cases hi
      · exact absurd hfull (Nat.not_le.mpr hroom)
    · have hroom := Nat.not_le.mp hfull
      rw [TrueStoreStored, psirpCsStore_of_new hd hroom hidx]
      by_cases hb : cs.maxBytes = 0
      · refine iff_of_true (fun _ => ?_) (Or.inl hb)
        rw [enforceBudget_of_unlimited (by exact hb)]
        exact ⟨_, List.mem_append_right _ List.mem_cons_self,
          components_newEntry k data freshnessMs now, rfl⟩
      · have hleft := mem_enforceBudget_iff
          (h.accounts.append hroom k.name hd freshnessMs now).2 hb
        constructor
        · intro hstored
          obtain ⟨e, he, hcomps, hdata⟩ := hstored rfl
          obtain ⟨sooner, later, horder, hfit⟩ := (hleft e).mp he
          exact Or.inr (Or.inr (Or.inr ⟨sooner, e, later, horder, hcomps, hdata, hfit⟩))
        · rintro (hzero | hmatch | hfull' | ⟨sooner, e, later, horder, hcomps, hdata, hfit⟩) -
          · exact absurd hzero hb
          · exact absurd hmatch hnomatch
          · exact absurd hfull' hfull
          · exact ⟨e, (hleft e).mpr ⟨sooner, later, horder, hfit⟩, hcomps, hdata⟩

/-- By a clock that does not go back, only entries accessed at the very time of the store come
after the new one in the eviction order. -/
theorem lastAccessNs_of_later {es : List PsirpCsEntry} {now : UInt64} {new : PsirpCsEntry}
    (hnew : new.lastAccessNs = now) (hclock : ∀ e ∈ es, e.lastAccessNs ≤ now)
    {sooner later : List PsirpCsEntry} (h : lruOrder (es ++ [new]) = sooner ++ new :: later)
    {e : PsirpCsEntry} (he : e ∈ later) : e ∈ es ∧ e.lastAccessNs = now := by
  have hpair := pairwise_lruOrder (es ++ [new])
  have hperm := lruOrder_perm (es ++ [new])
  rw [h] at hpair hperm
  have hothers : (sooner ++ later).Perm es :=
    ((List.perm_middle.symm.trans hperm).trans (List.perm_append_singleton new es)).cons_inv
  have hmem : e ∈ es := hothers.mem_iff.mp (List.mem_append_right _ he)
  rw [List.pairwise_append, List.pairwise_cons] at hpair
  have hge : now ≤ e.lastAccessNs := hnew ▸ hpair.2.1.1 e he
  exact ⟨hmem, UInt64.le_antisymm (hclock e hmem) hge⟩

/-- So if there is none, data that fits the budget alone is kept. -/
theorem keptByBudget_of_untied {cs : PsirpCs} {k : PlainKey} {data : List UInt8}
    {freshnessMs : UInt32} {now : UInt64} (hclock : ∀ e ∈ cs.entries, e.lastAccessNs < now)
    (hfit : data.length ≤ cs.maxBytes.toNat) : KeptByBudget cs k data freshnessMs now := by
  have hmem : newEntry k.name data freshnessMs now ∈
      lruOrder (cs.entries ++ [newEntry k.name data freshnessMs now]) :=
    (lruOrder_perm _).mem_iff.mpr (List.mem_append_right _ List.mem_cons_self)
  obtain ⟨sooner, later, horder⟩ := List.append_of_mem hmem
  have hlast : later = [] := by
    refine List.eq_nil_iff_forall_not_mem.mpr fun e he => ?_
    obtain ⟨hes, htie⟩ :=
      lastAccessNs_of_later rfl (fun e he => UInt64.le_of_lt (hclock e he)) horder he
    have hlt := hclock e hes
    rw [htie] at hlt
    exact UInt64.lt_irrefl _ hlt
  refine Or.inr (Or.inr (Or.inr ⟨sooner, _, later, horder,
    components_newEntry k data freshnessMs now, rfl, ?_⟩))
  rw [hlast]
  exact hfit

/-- With a budget of three bytes and one byte stored before, two bytes are. -/
theorem trueStoreStored_b :
    TrueStoreStored (Machine.exec csStep psirpCsInit [.setBudget 3, .store keyA.name [1] 0 7])
      keyB [1, 2] 0 8 := by
  refine (trueStoreStored_iff ⟨[.setBudget 3, .store keyA.name [1] 0 7], rfl⟩ keyB (by decide)
    0 8).mpr (keptByBudget_of_untied ?_ (by decide +kernel))
  decide +kernel

/-- Data of two bytes is not stored under a budget of one byte, and with `/a` and `/b` accessed in
the same nanosecond a budget of three bytes loses the new `/c` and keeps `/b`. -/
theorem not_trueStoreStored :
    ¬ TrueStoreStored (psirpCsSetBudget psirpCsInit 1) keyA [1, 2] 0 0 ∧
    ¬ TrueStoreStored
      (Machine.exec csStep psirpCsInit [.setBudget 3, .store keyA.name [1] 0 7,
        .store keyB.name [1, 2] 0 7])
      ⟨[text ['c']], by decide, by decide, by decide⟩ [3, 4] 0 7 := by
  refine ⟨fun h => ?_, fun h => ?_⟩
  · obtain ⟨e, he, -, -⟩ := h (by decide +kernel)
    have hempty : (psirpCsStore (psirpCsSetBudget psirpCsInit 1) keyA.name [1, 2] 0 0).2.entries =
      [] := by decide +kernel
    rw [hempty] at he
    exact List.not_mem_nil he
  · obtain ⟨e, he, -, hdata⟩ := h (by decide +kernel)
    have hkept : e.data = [1, 2] := by
      revert e
      decide +kernel
    exact absurd (hkept.symm.trans hdata) (by decide)

end DsoBrowser
