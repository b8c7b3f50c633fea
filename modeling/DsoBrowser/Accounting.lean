import DsoBrowser.StoredNames
import DsoBrowser.ChunkLoops

/-!
# The byte counter of the content store

`bytes_used` is adjusted in five places and never recomputed. In every store that calls of the
whole interface lead to, the chunked calls included, it is the number of bytes held
(`accounts_of_run`), and none of the adjustments wraps around.

For the second half every operation that adjusts the counter has a **checked** form, the same
code with `addBytes` and `subBytes` for the two assignments, which gives `none` where the sum or
the difference is not the one of the numbers. The **invariant** is `Accounts`; for each operation one
lemma says that the checked form succeeds, does what the operation does, and keeps the invariant.
-/

namespace DsoBrowser

open Table Machine Heap

/-! ## Checked operations -/

/-- `bytes_used += len`, if it does not overflow. -/
def addBytes (used len : UInt64) : Option UInt64 :=
  if used.toNat + len.toNat < UInt64.size then some (used + len) else none

/-- `bytes_used -= len`, if it does not underflow. -/
def subBytes (used len : UInt64) : Option UInt64 := if len ≤ used then some (used - len) else none

/-- `removeAt`, checked. -/
def removeAtChecked (cs : PsirpCs) (i : Nat) : Option PsirpCs :=
  match cs.entries[i]? with
  | none => some cs
  | some e => (subBytes cs.bytesUsed e.dataLen).map fun used =>
      { cs with
        entries := swapRemove cs.entries i
        bytesUsed := used }

/-- `budgetLoop`, checked. -/
def budgetLoopChecked : Nat → PsirpCs → Option (Nat × PsirpCs)
  | 0, cs => some (0, cs)
  | fuel + 1, cs =>
    if cs.maxBytes < cs.bytesUsed ∧ cs.entries ≠ [] then
      (removeAtChecked cs (lruIndex cs.entries)).bind fun cs' =>
        (budgetLoopChecked fuel cs').map fun r => (r.1 + 1, r.2)
    else some (0, cs)

/-- `enforceBudget`, checked. -/
def enforceBudgetChecked (cs : PsirpCs) : Option (Nat × PsirpCs) :=
  if 0 < cs.maxBytes then budgetLoopChecked cs.entries.length cs else some (0, cs)

/-- `psirpCsStore`, checked. -/
def psirpCsStoreChecked (cs : PsirpCs) (name : PsirpName) (data : List UInt8)
    (freshnessMs : UInt32) (now : UInt64) : Option (Bool × PsirpCs) :=
  if data.length = 0 then some (false, cs)
  else if psirpMaxData < data.length then some (false, cs)
  else
    match cs.entries.findIdx? fun e => psirpNameEqual e.name name with
    | some i =>
      let oldLen := (cs.entries[i]?.map PsirpCsEntry.dataLen).getD 0
      (subBytes cs.bytesUsed oldLen).bind fun used =>
        (addBytes used (UInt64.ofNat data.length)).map fun used =>
          (true, { cs with
            entries := cs.entries.modify i (overwrite data freshnessMs now)
            bytesUsed := used })
    | none =>
      if cs.capacity ≤ cs.entries.length then some (false, cs)
      else
        (addBytes cs.bytesUsed (UInt64.ofNat data.length)).bind fun used =>
          (enforceBudgetChecked { cs with
            entries := cs.entries ++ [newEntry name data freshnessMs now]
            bytesUsed := used }).map fun r => (true, r.2)

/-- `psirpCsRemove`, checked. -/
def psirpCsRemoveChecked (cs : PsirpCs) (name : PsirpName) : Option (Bool × PsirpCs) :=
  match cs.entries.findIdx? fun e => psirpNameEqual e.name name with
  | none => some (false, cs)
  | some i => (removeAtChecked cs i).map fun cs' => (true, cs')

/-- `gcLoop`, checked. -/
def gcLoopChecked (now : UInt64) : Nat → PsirpCs → Option (Nat × PsirpCs)
  | 0, cs => some (0, cs)
  | i + 1, cs =>
    match cs.entries[i]? with
    | none => gcLoopChecked now i cs
    | some e =>
      if entryExpired e now then
        (removeAtChecked cs i).bind fun cs' =>
          (gcLoopChecked now i cs').map fun r => (r.1 + 1, r.2)
      else gcLoopChecked now i cs

/-- `psirpCsGc`, checked. -/
def psirpCsGcChecked (cs : PsirpCs) (now : UInt64) : Option (Nat × PsirpCs) :=
  (gcLoopChecked now cs.entries.length cs).bind fun r =>
    (enforceBudgetChecked r.2).map fun r' => (r.1 + r'.1, r'.2)

/-- `storeChunksLoop`, checked. -/
def storeChunksLoopChecked (malloc : Allocator UInt64 CString) (name : PsirpName)
    (freshnessMs : UInt32) (now : Nat → UInt64) : (slots : Nat) → (rest : List UInt8) →
    List PsirpChunkRef → ChunkState → Option (Bool × List PsirpChunkRef × ChunkState)
  | 0, _, refs, s => some (true, refs, s)
  | slots + 1, rest, refs, s =>
    if rest = [] then some (true, refs, s)
    else
      match nameInitOwned malloc s.heap (chunkPath name refs.length) with
      | none => some (false, refs, s)
      | some (cn, raw, heap) =>
        (psirpCsStoreChecked s.cs cn (rest.take psirpChunkSize) freshnessMs
          (now refs.length)).bind fun
        | (false, cs) => some (false, refs, ⟨cs, heap⟩)
        | (true, cs) =>
          storeChunksLoopChecked malloc name freshnessMs now slots (rest.drop psirpChunkSize)
            (refs ++ [⟨raw, UInt64.ofNat (rest.take psirpChunkSize).length⟩]) ⟨cs, heap⟩

/-- `psirpCsStoreChunked`, checked. -/
def psirpCsStoreChunkedChecked (malloc : Allocator UInt64 CString) (s : ChunkState)
    (name : PsirpName) (data : List UInt8) (freshnessMs : UInt32) (now : Nat → UInt64) :
    Option (Bool × ChunkState) :=
  if data.length ≤ psirpChunkSize then
    (psirpCsStoreChecked s.cs name data freshnessMs (now 0)).map fun r => (r.1, { s with cs := r.2 })
  else
    (storeChunksLoopChecked malloc name freshnessMs now psirpMaxChunks data [] s).bind fun
    | (false, _, s) => some (false, s)
    | (true, refs, s) =>
      match psirpNameInit (manifestPath name) with
      | (false, _) => some (false, s)
      | (true, mn) =>
        (psirpCsStoreChecked s.cs mn (PsirpManifest.of data.length refs).bytes freshnessMs
          (now refs.length)).map fun
        | (true, cs) => (true, { s with cs := cs })
        | (false, cs) => (false, ⟨cs, freeAll (refs.flatMap fun ref => ref.name.owned) s.heap⟩)

/-! ## The whole interface -/

/-- A call of the content store interface. -/
inductive ContentOp where
  /-- one of the plain calls -/
  | plain : CsOp → ContentOp
  /-- `psirp_cs_store_chunked` -/
  | storeChunked : PsirpName → List UInt8 → UInt32 → (Nat → UInt64) → ContentOp
  /-- `psirp_cs_lookup_chunked` -/
  | lookupChunked : PsirpName → Nat → (Nat → UInt64) → (Nat → UInt64) → ContentOp

/-- What a call returns. -/
inductive ContentAnswer where
  /-- the answer of a plain call -/
  | plain : CsAnswer PsirpCsEntry → ContentAnswer
  /-- the verdict of a chunked store -/
  | stored : Bool → ContentAnswer
  /-- what a chunked lookup returns; `none` where C leaves the lookup undefined -/
  | read : Option ChunkAnswer → ContentAnswer

/-- One call. A chunked lookup that C leaves undefined is taken to leave the store alone; what a
run does after one is not the program's behaviour. -/
def contentStep (malloc : Allocator UInt64 CString) (s : ChunkState) :
    ContentOp → ContentAnswer × ChunkState
  | .plain op => (.plain (csStep s.cs op).1, { s with cs := (csStep s.cs op).2 })
  | .storeChunked name data freshnessMs now =>
    let (ok, s') := psirpCsStoreChunked malloc s name data freshnessMs now
    (.stored ok, s')
  | .lookupChunked name outCap direct now =>
    match psirpCsLookupChunked s name outCap direct now with
    | none => (.read none, s)
    | some (answer, cs) => (.read (some answer), { s with cs := cs })

/-- A plain call, checked. -/
def csStepChecked (cs : PsirpCs) : CsOp → Option (CsAnswer PsirpCsEntry × PsirpCs)
  | .store name data freshnessMs now =>
    (psirpCsStoreChecked cs name data freshnessMs now).map fun r => (.verdict r.1, r.2)
  | .remove name => (psirpCsRemoveChecked cs name).map fun r => (.verdict r.1, r.2)
  | .gc now => (psirpCsGcChecked cs now).map fun r => (.evicted r.1, r.2)
  | op => some (csStep cs op)

/-- One call, checked. -/
def contentStepChecked (malloc : Allocator UInt64 CString) (s : ChunkState) :
    ContentOp → Option (ContentAnswer × ChunkState)
  | .plain op => (csStepChecked s.cs op).map fun r => (.plain r.1, { s with cs := r.2 })
  | .storeChunked name data freshnessMs now =>
    (psirpCsStoreChunkedChecked malloc s name data freshnessMs now).map fun r => (.stored r.1, r.2)
  | op => some (contentStep malloc s op)

/-! ## The invariant -/

/-- The bytes held by the entries. -/
def heldBytes (es : List PsirpCsEntry) : Nat := total (fun e => e.data.length) es

/-- **The counter is exact.** -/
structure Accounts (cs : PsirpCs) : Prop where
  /-- the size of the entry table -/
  capacity_eq : cs.capacity = psirpCsMaxEntries
  /-- the table is not exceeded -/
  length_le : cs.entries.length ≤ cs.capacity
  /-- the counter is the sum of the lengths -/
  bytes_eq : cs.bytesUsed.toNat = heldBytes cs.entries
  /-- every entry has data, and not too much -/
  storable : ∀ e ∈ cs.entries, Storable e.data

theorem accounts_init : Accounts psirpCsInit := by
  refine ⟨rfl, Nat.zero_le _, rfl, ?_⟩
  intro e he
  exact absurd he List.not_mem_nil

theorem toNat_dataLen {e : PsirpCsEntry} (h : Storable e.data) :
    e.dataLen.toNat = e.data.length :=
  UInt64.toNat_ofNat_of_lt' (lt_of_le_of_lt h.2 (by decide))

theorem toNat_ofNat_length {data : List UInt8} (h : Storable data) :
    (UInt64.ofNat data.length).toNat = data.length :=
  UInt64.toNat_ofNat_of_lt' (lt_of_le_of_lt h.2 (by decide))

/-- A full table of the longest data is far from wrapping the counter. -/
theorem heldBytes_le {es : List PsirpCsEntry} (hlen : es.length ≤ psirpCsMaxEntries)
    (h : ∀ e ∈ es, Storable e.data) : heldBytes es ≤ psirpCsMaxEntries * psirpMaxData :=
  (total_le_mul fun e he => (h e he).2).trans (Nat.mul_le_mul_right _ hlen)

/-- The sum does not overflow if it is that of data a table can hold. -/
theorem addBytes_eq (used len : UInt64)
    (h : used.toNat + len.toNat ≤ psirpCsMaxEntries * psirpMaxData) :
    addBytes used len = some (used + len) ∧ (used + len).toNat = used.toNat + len.toNat := by
  have hlt : used.toNat + len.toNat < UInt64.size := lt_of_le_of_lt h (by decide)
  refine ⟨if_pos hlt, ?_⟩
  rw [UInt64.toNat_add]
  exact Nat.mod_eq_of_lt hlt

theorem subBytes_eq (used len : UInt64) (h : len.toNat ≤ used.toNat) :
    subBytes used len = some (used - len) ∧ (used - len).toNat = used.toNat - len.toNat := by
  have hle : len ≤ used := UInt64.le_iff_toNat_le.mpr h
  exact ⟨if_pos hle, UInt64.toNat_sub_of_le _ _ hle⟩

namespace Accounts

variable {cs : PsirpCs}

/-- What the calls that only touch the bookkeeping keep. -/
theorem congr {cs' : PsirpCs} (h : Accounts cs) (hcap : cs'.capacity = cs.capacity)
    (hbytes : cs'.bytesUsed = cs.bytesUsed)
    (hdata : cs'.entries.map PsirpCsEntry.data = cs.entries.map PsirpCsEntry.data) :
    Accounts cs' := by
  have hlen := congrArg List.length hdata
  rw [List.length_map, List.length_map] at hlen
  refine ⟨hcap.trans h.capacity_eq, by rw [hlen, hcap]; exact h.length_le, ?_, ?_⟩
  · have hheld : ∀ es : List PsirpCsEntry,
        heldBytes es = ((es.map PsirpCsEntry.data).map List.length).sum := by
      intro es
      rw [List.map_map]
      rfl
    rw [hbytes, h.bytes_eq, hheld, hheld, hdata]
  · intro e he
    have hmem : e.data ∈ cs.entries.map PsirpCsEntry.data :=
      hdata ▸ List.mem_map_of_mem he
    obtain ⟨e', he', hee⟩ := List.mem_map.mp hmem
    exact hee ▸ h.storable e' he'

/-- Freeing an entry. -/
theorem removeAt (h : Accounts cs) (i : Nat) :
    removeAtChecked cs i = some (removeAt cs i) ∧ Accounts (DsoBrowser.removeAt cs i) := by
  cases he : cs.entries[i]? with
  | none =>
    rw [removeAtChecked, DsoBrowser.removeAt, he]
    exact ⟨rfl, h⟩
  | some e =>
    have hlen := toNat_dataLen (h.storable e (List.mem_of_getElem? he))
    have hheld : e.data.length + heldBytes (swapRemove cs.entries i) = heldBytes cs.entries :=
      total_swapRemove (w := fun e => e.data.length) he
    have hperm : (e :: swapRemove cs.entries i).Perm cs.entries := cons_swapRemove_perm he
    have hle : e.dataLen.toNat ≤ cs.bytesUsed.toNat := by
      rw [hlen, h.bytes_eq]
      omega
    obtain ⟨hsub, hused⟩ := subBytes_eq _ _ hle
    rw [removeAtChecked, DsoBrowser.removeAt, he]
    refine ⟨congrArg (Option.map _) hsub, h.capacity_eq, ?_, ?_, ?_⟩
    · have hrows := hperm.length_eq
      rw [List.length_cons] at hrows
      exact (Nat.le_succ _).trans (hrows.le.trans h.length_le)
    · change (cs.bytesUsed - e.dataLen).toNat = heldBytes (swapRemove cs.entries i)
      rw [hused, hlen, h.bytes_eq]
      omega
    · intro e' he'
      exact h.storable e' (hperm.subset (List.mem_cons_of_mem _ he'))

/-- The eviction loop. -/
theorem budgetLoop (h : Accounts cs) (fuel : Nat) :
    budgetLoopChecked fuel cs = some (budgetLoop fuel cs) ∧
      Accounts (DsoBrowser.budgetLoop fuel cs).2 := by
  induction fuel generalizing cs with
  | zero => exact ⟨rfl, h⟩
  | succ fuel ih =>
    rw [budgetLoopChecked, DsoBrowser.budgetLoop]
    split
    · obtain ⟨hfree, hacc⟩ := h.removeAt (lruIndex cs.entries)
      obtain ⟨hloop, hacc'⟩ := ih hacc
      rw [hfree, Option.bind_some, hloop]
      exact ⟨rfl, hacc'⟩
    · exact ⟨rfl, h⟩

theorem enforceBudget (h : Accounts cs) :
    enforceBudgetChecked cs = some (enforceBudget cs) ∧
      Accounts (DsoBrowser.enforceBudget cs).2 := by
  rw [enforceBudgetChecked, DsoBrowser.enforceBudget]
  split
  · exact h.budgetLoop _
  · exact ⟨rfl, h⟩

/-- Replacing the data of an entry. -/
theorem overwrite (h : Accounts cs) {i : Nat} {e : PsirpCsEntry} (he : cs.entries[i]? = some e)
    {data : List UInt8} (hd : Storable data) (freshnessMs : UInt32) (now : UInt64) :
    (subBytes cs.bytesUsed e.dataLen = some (cs.bytesUsed - e.dataLen) ∧
      addBytes (cs.bytesUsed - e.dataLen) (UInt64.ofNat data.length) =
        some (cs.bytesUsed - e.dataLen + UInt64.ofNat data.length)) ∧
      Accounts { cs with
        entries := cs.entries.modify i (DsoBrowser.overwrite data freshnessMs now)
        bytesUsed := cs.bytesUsed - e.dataLen + UInt64.ofNat data.length } := by
  have hlen := toNat_dataLen (h.storable e (List.mem_of_getElem? he))
  have hnew := toNat_ofNat_length hd
  have hheld : e.data.length +
      heldBytes (cs.entries.modify i (DsoBrowser.overwrite data freshnessMs now)) =
      data.length + heldBytes cs.entries := total_modify (w := fun e => e.data.length) he _
  have hstorable : ∀ e' ∈ cs.entries.modify i (DsoBrowser.overwrite data freshnessMs now),
      Storable e'.data := by
    intro e' he'
    rcases mem_modify he' with he' | ⟨a, -, rfl⟩
    · exact h.storable e' he'
    · exact hd
  have hrows : (cs.entries.modify i (DsoBrowser.overwrite data freshnessMs now)).length ≤
      cs.capacity := by
    rw [List.length_modify]
    exact h.length_le
  have hmax := heldBytes_le (hrows.trans h.capacity_eq.le) hstorable
  have hheld₀ : e.data.length ≤ heldBytes cs.entries := by
    have := total_swapRemove (w := fun e => e.data.length) he
    rw [heldBytes]
    omega
  obtain ⟨hsub, hused⟩ := subBytes_eq cs.bytesUsed e.dataLen
    (by rw [hlen, h.bytes_eq]; exact hheld₀)
  obtain ⟨hadd, hused'⟩ := addBytes_eq (cs.bytesUsed - e.dataLen) (UInt64.ofNat data.length)
    (by rw [hused, hlen, hnew, h.bytes_eq]; omega)
  refine ⟨⟨hsub, hadd⟩, h.capacity_eq, hrows, ?_, hstorable⟩
  change (cs.bytesUsed - e.dataLen + UInt64.ofNat data.length).toNat =
    heldBytes (cs.entries.modify i (DsoBrowser.overwrite data freshnessMs now))
  rw [hused', hused, hlen, hnew, h.bytes_eq]
  omega

/-- Appending an entry. -/
theorem append (h : Accounts cs) (hroom : cs.entries.length < cs.capacity) (name : PsirpName)
    {data : List UInt8} (hd : Storable data) (freshnessMs : UInt32) (now : UInt64) :
    addBytes cs.bytesUsed (UInt64.ofNat data.length) =
        some (cs.bytesUsed + UInt64.ofNat data.length) ∧
      Accounts { cs with
        entries := cs.entries ++ [newEntry name data freshnessMs now]
        bytesUsed := cs.bytesUsed + UInt64.ofNat data.length } := by
  have hnew := toNat_ofNat_length hd
  have hheld : heldBytes (cs.entries ++ [newEntry name data freshnessMs now]) =
      heldBytes cs.entries + data.length := total_concat _ _ _
  have hstorable : ∀ e' ∈ cs.entries ++ [newEntry name data freshnessMs now],
      Storable e'.data := by
    intro e' he'
    rcases List.mem_append.mp he' with he' | he'
    · exact h.storable e' he'
    · rw [List.mem_singleton.mp he']
      exact hd
  have hrows : (cs.entries ++ [newEntry name data freshnessMs now]).length ≤ cs.capacity := by
    rw [List.length_append, List.length_singleton]
    exact hroom
  have hmax := heldBytes_le (hrows.trans h.capacity_eq.le) hstorable
  obtain ⟨hadd, hused⟩ := addBytes_eq cs.bytesUsed (UInt64.ofNat data.length)
    (by rw [hnew, h.bytes_eq]; omega)
  refine ⟨hadd, h.capacity_eq, hrows, ?_, hstorable⟩
  change (cs.bytesUsed + UInt64.ofNat data.length).toNat =
    heldBytes (cs.entries ++ [newEntry name data freshnessMs now])
  rw [hused, hnew, h.bytes_eq, hheld]

/-- `psirp_cs_store`. -/
theorem store (h : Accounts cs) (name : PsirpName) (data : List UInt8) (freshnessMs : UInt32)
    (now : UInt64) :
    psirpCsStoreChecked cs name data freshnessMs now =
        some (psirpCsStore cs name data freshnessMs now) ∧
      Accounts (psirpCsStore cs name data freshnessMs now).2 := by
  rw [psirpCsStoreChecked, psirpCsStore]
  by_cases hzero : data.length = 0
  · rw [if_pos hzero, if_pos hzero]
    exact ⟨rfl, h⟩
  by_cases hlong : psirpMaxData < data.length
  · rw [if_neg hzero, if_neg hzero, if_pos hlong, if_pos hlong]
    exact ⟨rfl, h⟩
  have hd : Storable data := ⟨hzero, Nat.not_lt.mp hlong⟩
  rw [if_neg hzero, if_neg hzero, if_neg hlong, if_neg hlong]
  cases hidx : cs.entries.findIdx? (fun e => psirpNameEqual e.name name) with
  | some i =>
    obtain ⟨hi, -⟩ := List.findIdx?_eq_some_iff_getElem.mp hidx
    have he : cs.entries[i]? = some cs.entries[i] := List.getElem?_eq_getElem hi
    obtain ⟨⟨hsub, hadd⟩, hacc⟩ := h.overwrite he hd freshnessMs now
    simp only [he, Option.map_some, Option.getD_some, hsub, hadd, Option.bind_some]
    exact ⟨trivial, hacc⟩
  | none =>
    by_cases hfull : cs.capacity ≤ cs.entries.length
    · simp only [if_pos hfull]
      exact ⟨trivial, h⟩
    · obtain ⟨hadd, hacc⟩ := h.append (Nat.not_le.mp hfull) name hd freshnessMs now
      obtain ⟨hbudget, hacc'⟩ := hacc.enforceBudget
      simp only [if_neg hfull, hadd, Option.bind_some, hbudget, Option.map_some]
      exact ⟨trivial, hacc'⟩

/-- `psirp_cs_remove`. -/
theorem remove (h : Accounts cs) (name : PsirpName) :
    psirpCsRemoveChecked cs name = some (psirpCsRemove cs name) ∧
      Accounts (psirpCsRemove cs name).2 := by
  rw [psirpCsRemoveChecked, psirpCsRemove]
  cases cs.entries.findIdx? (fun e => psirpNameEqual e.name name) with
  | none => exact ⟨rfl, h⟩
  | some i =>
    obtain ⟨hfree, hacc⟩ := h.removeAt i
    exact ⟨congrArg (Option.map _) hfree, hacc⟩

/-- The expiry loop. -/
theorem gcLoop (h : Accounts cs) (now : UInt64) (i : Nat) :
    gcLoopChecked now i cs = some (gcLoop now i cs) ∧ Accounts (DsoBrowser.gcLoop now i cs).2 := by
  induction i generalizing cs with
  | zero => exact ⟨rfl, h⟩
  | succ i ih =>
    rw [gcLoopChecked, DsoBrowser.gcLoop]
    cases cs.entries[i]? with
    | none => exact ih h
    | some e =>
      simp only
      split
      · obtain ⟨hfree, hacc⟩ := h.removeAt i
        obtain ⟨hloop, hacc'⟩ := ih hacc
        rw [hfree, Option.bind_some, hloop]
        exact ⟨rfl, hacc'⟩
      · exact ih h

/-- `psirp_cs_gc`. -/
theorem gc (h : Accounts cs) (now : UInt64) :
    psirpCsGcChecked cs now = some (psirpCsGc cs now) ∧ Accounts (psirpCsGc cs now).2 := by
  obtain ⟨hloop, hacc⟩ := h.gcLoop now cs.entries.length
  obtain ⟨hbudget, hacc'⟩ := hacc.enforceBudget
  rw [psirpCsGcChecked, hloop, Option.bind_some, hbudget]
  exact ⟨rfl, hacc'⟩

theorem touch (h : Accounts cs) (j : Nat) (now : UInt64) :
    Accounts { cs with entries := cs.entries.modify j (touch now) } :=
  h.congr rfl rfl (map_modify_of_comp fun _ => rfl)

/-- `psirp_cs_lookup`. -/
theorem lookup (h : Accounts cs) (name : PsirpName) (now : UInt64) :
    Accounts (psirpCsLookup cs name now).2 := by
  rcases psirpCsLookup_frame cs name now with hs | ⟨i, hs⟩
  · rw [hs]
    exact h
  · rw [hs]
    exact h.touch i now

/-- One plain call. -/
theorem csStep (h : Accounts cs) (op : CsOp) :
    csStepChecked cs op = some (csStep cs op) ∧ Accounts (DsoBrowser.csStep cs op).2 := by
  cases op with
  | init => exact ⟨rfl, accounts_init⟩
  | setBudget maxBytes => exact ⟨rfl, h.capacity_eq, h.length_le, h.bytes_eq, h.storable⟩
  | store name data freshnessMs now =>
    obtain ⟨hstore, hacc⟩ := h.store name data freshnessMs now
    exact ⟨congrArg (Option.map _) hstore, hacc⟩
  | lookup name now => exact ⟨rfl, h.lookup name now⟩
  | remove name =>
    obtain ⟨hremove, hacc⟩ := h.remove name
    exact ⟨congrArg (Option.map _) hremove, hacc⟩
  | gc now =>
    obtain ⟨hgc, hacc⟩ := h.gc now
    exact ⟨congrArg (Option.map _) hgc, hacc⟩

end Accounts

/-! ## Chunked calls -/

namespace Accounts

variable {malloc : Allocator UInt64 CString}

/-- The chunk loop, whether it succeeds or stops half-way. -/
theorem storeChunksLoop (name : PsirpName) (freshnessMs : UInt32) (now : Nat → UInt64) :
    ∀ (slots : Nat) (rest : List UInt8) (refs : List PsirpChunkRef) (s : ChunkState),
      Accounts s.cs →
      storeChunksLoopChecked malloc name freshnessMs now slots rest refs s =
          some (storeChunksLoop malloc name freshnessMs now slots rest refs s) ∧
        Accounts (DsoBrowser.storeChunksLoop malloc name freshnessMs now slots rest refs s).2.2.cs := by
  intro slots
  induction slots with
  | zero => exact fun rest refs s h => ⟨rfl, h⟩
  | succ slots ih =>
    intro rest refs s h
    rw [storeChunksLoopChecked, DsoBrowser.storeChunksLoop]
    split
    · exact ⟨rfl, h⟩
    · cases nameInitOwned malloc s.heap (chunkPath name refs.length) with
      | none => exact ⟨rfl, h⟩
      | some r =>
        obtain ⟨cn, raw, heap⟩ := r
        obtain ⟨hstore, hacc⟩ :=
          h.store cn (rest.take psirpChunkSize) freshnessMs (now refs.length)
        simp only [hstore, Option.bind_some]
        generalize psirpCsStore s.cs cn (rest.take psirpChunkSize) freshnessMs (now refs.length) =
          r at hacc ⊢
        obtain ⟨ok, cs⟩ := r
        cases ok with
        | false => exact ⟨rfl, hacc⟩
        | true => exact ih _ _ ⟨cs, heap⟩ hacc

/-- `psirp_cs_store_chunked`. -/
theorem storeChunked {s : ChunkState} (h : Accounts s.cs) (name : PsirpName) (data : List UInt8)
    (freshnessMs : UInt32) (now : Nat → UInt64) :
    psirpCsStoreChunkedChecked malloc s name data freshnessMs now =
        some (psirpCsStoreChunked malloc s name data freshnessMs now) ∧
      Accounts (psirpCsStoreChunked malloc s name data freshnessMs now).2.cs := by
  rw [psirpCsStoreChunkedChecked, psirpCsStoreChunked]
  split
  · obtain ⟨hstore, hacc⟩ := h.store name data freshnessMs (now 0)
    rw [hstore]
    exact ⟨rfl, hacc⟩
  · obtain ⟨hloop, hacc⟩ : storeChunksLoopChecked malloc name freshnessMs now psirpMaxChunks data
        [] s = _ ∧ _ :=
      storeChunksLoop name freshnessMs now psirpMaxChunks data [] s h
    rw [hloop, Option.bind_some]
    generalize DsoBrowser.storeChunksLoop malloc name freshnessMs now psirpMaxChunks data [] s =
      r at hacc ⊢
    obtain ⟨ok, refs, s'⟩ := r
    cases ok with
    | false => exact ⟨rfl, hacc⟩
    | true =>
      rcases psirpNameInit (manifestPath name) with ⟨ok, mn⟩
      cases ok with
      | false => exact ⟨rfl, hacc⟩
      | true =>
        -- the manifest is stored like any other data
        obtain ⟨hstore, hacc'⟩ := Accounts.store hacc mn (PsirpManifest.of data.length refs).bytes
          freshnessMs (now refs.length)
        dsimp only
        rw [hstore, Option.map_some]
        generalize psirpCsStore s'.cs mn (PsirpManifest.of data.length refs).bytes freshnessMs
          (now refs.length) = r at hacc' ⊢
        obtain ⟨ok, cs⟩ := r
        cases ok with
        | false => exact ⟨rfl, hacc'⟩
        | true => exact ⟨rfl, hacc'⟩

/-- `psirp_cs_lookup_chunked` only touches entries. -/
theorem lookupChunked {s : ChunkState} (h : Accounts s.cs) {name : PsirpName} {outCap : Nat}
    {direct now : Nat → UInt64} {r : ChunkAnswer × PsirpCs}
    (hr : psirpCsLookupChunked s name outCap direct now = some r) : Accounts r.2 :=
  psirpCsLookupChunked_keeps (fun _ i t h => h.touch i t) h hr

/-- **Step.** Every call keeps the counter exact, and its checked form is the call. -/
theorem contentStep {s : ChunkState} (h : Accounts s.cs) (op : ContentOp) :
    contentStepChecked malloc s op = some (contentStep malloc s op) ∧
      Accounts (DsoBrowser.contentStep malloc s op).2.cs := by
  cases op with
  | plain op =>
    obtain ⟨hstep, hacc⟩ := h.csStep op
    exact ⟨congrArg (Option.map _) hstep, hacc⟩
  | storeChunked name data freshnessMs now =>
    obtain ⟨hstore, hacc⟩ : psirpCsStoreChunkedChecked malloc s name data freshnessMs now = _ ∧ _ :=
      h.storeChunked name data freshnessMs now
    exact ⟨congrArg (Option.map _) hstore, hacc⟩
  | lookupChunked name outCap direct now =>
    refine ⟨rfl, ?_⟩
    simp only [DsoBrowser.contentStep]
    cases hr : psirpCsLookupChunked s name outCap direct now with
    | none => exact h
    | some r => exact h.lookupChunked hr

end Accounts

/-- A remove that finds nothing changes nothing. -/
theorem psirpCsRemove_of_refused {cs : PsirpCs} {name : PsirpName}
    (h : (psirpCsRemove cs name).1 = false) : (psirpCsRemove cs name).2 = cs := by
  rcases psirpCsRemove_cases cs name with ⟨-, hs⟩ | ⟨i, e, -, -, -, hs⟩
  · rw [hs]
  · rw [hs] at h
    cases h

theorem accounts_exec (malloc : Allocator UInt64 CString) (heap : StringHeap)
    (ops : List ContentOp) : Accounts (exec (contentStep malloc) ⟨psirpCsInit, heap⟩ ops).cs :=
  exec_inv (I := fun s : ChunkState => Accounts s.cs) (P := fun _ _ => True)
    (fun _ op h _ => (h.contentStep op).2) accounts_init (along_input.mpr fun _ _ => trivial)

/-- **The accounting is exact** after every sequence of calls: the counter is the number of bytes
held, the next call adjusts it without wrapping around, and a store or a remove that returns
`false` leaves the store as it is. -/
theorem accounts_of_run (malloc : Allocator UInt64 CString) (heap : StringHeap)
    (ops : List ContentOp) :
    let s := exec (contentStep malloc) ⟨psirpCsInit, heap⟩ ops
    Accounts s.cs ∧
      (∀ op, contentStepChecked malloc s op = some (contentStep malloc s op)) ∧
      (∀ name data freshnessMs now, (psirpCsStore s.cs name data freshnessMs now).1 = false →
        (psirpCsStore s.cs name data freshnessMs now).2 = s.cs) ∧
      ∀ name, (psirpCsRemove s.cs name).1 = false → (psirpCsRemove s.cs name).2 = s.cs := by
  have hacc := accounts_exec malloc heap ops
  refine ⟨hacc, fun op => (hacc.contentStep op).1, ?_, ?_⟩
  · intro name data freshnessMs now hrefused
    exact psirpCsStore_of_refused hrefused
  · intro name hrefused
    exact psirpCsRemove_of_refused hrefused

end DsoBrowser
