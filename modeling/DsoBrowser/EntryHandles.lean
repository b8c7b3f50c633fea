import DsoBrowser.StoredNames

/-!
# Entry handles

`psirp_cs_lookup` returns the address of a slot of the entry table, and the callers of
`psirp_net_fetch` keep it while the receiver thread goes on storing. A removal copies the last
entry into the gap, so an entry can leave its slot; the slot keeps the old bytes until a later
store inserts into it.

To say what a handle reads, the content store is run together with the slots past `count` and
the position of one **watched** entry, which is followed through every removal. The slot of a
handle holds the name and the data of its entry as long as no store inserts into that slot
(`handleBound_of_run`).
-/

namespace DsoBrowser

open Table Machine

/-! ## The table as memory -/

/-- A slot after `free_entry`. -/
def freedSlot : PsirpCsEntry := ⟨PsirpName.zero, [], 0, 0, 0, 0, false⟩

/-- The content store, with the slots it does not use and the position of one entry. -/
structure WatchedCs where
  /-- the store -/
  cs : PsirpCs
  /-- the slots from `count` on, as they were left -/
  unused : List PsirpCsEntry
  /-- where the watched entry is, as long as it is not evicted, removed or overwritten -/
  pos : Option Nat
  deriving DecidableEq

namespace WatchedCs

/-- The whole entry table. -/
def slots (s : WatchedCs) : List PsirpCsEntry := s.cs.entries ++ s.unused

/-- Where the entry at `p` is after the removal at `i` from a table with `count` entries. -/
def follow (count i p : Nat) : Option Nat :=
  if p = i then none else if p + 1 = count then some i else some p

/-- `free_entry` at `i` and the swap-remove. The last slot keeps its bytes, unless it is the one
that was freed. -/
def removeAt (s : WatchedCs) (i : Nat) : WatchedCs :=
  match s.cs.entries[i]? with
  | none => s
  | some _ =>
    let last := if i + 1 < s.cs.entries.length then s.cs.entries.getLast?.getD freedSlot
      else freedSlot
    ⟨DsoBrowser.removeAt s.cs i, last :: s.unused, s.pos.bind (follow s.cs.entries.length i)⟩

/-- The budget loop. -/
def budgetLoop : Nat → WatchedCs → WatchedCs
  | 0, s => s
  | fuel + 1, s =>
    if s.cs.maxBytes < s.cs.bytesUsed ∧ s.cs.entries ≠ [] then
      budgetLoop fuel (s.removeAt (lruIndex s.cs.entries))
    else s

/-- The budget step. -/
def enforceBudget (s : WatchedCs) : WatchedCs :=
  if 0 < s.cs.maxBytes then budgetLoop s.cs.entries.length s else s

/-- `psirp_cs_store`. A new entry is written into the first unused slot. -/
def store (s : WatchedCs) (name : PsirpName) (data : List UInt8) (freshnessMs : UInt32)
    (now : UInt64) : WatchedCs :=
  if data.length = 0 then s
  else if psirpMaxData < data.length then s
  else
    match s.cs.entries.findIdx? fun e => psirpNameEqual e.name name with
    | some i =>
      { s with
        cs := (psirpCsStore s.cs name data freshnessMs now).2
        pos := s.pos.bind fun p => if p = i then none else some p }
    | none =>
      if s.cs.capacity ≤ s.cs.entries.length then s
      else
        enforceBudget { s with
          cs := { s.cs with
            entries := s.cs.entries ++ [newEntry name data freshnessMs now]
            bytesUsed := s.cs.bytesUsed + UInt64.ofNat data.length }
          unused := s.unused.drop 1 }

/-- `psirp_cs_remove` -/
def remove (s : WatchedCs) (name : PsirpName) : WatchedCs :=
  match s.cs.entries.findIdx? fun e => psirpNameEqual e.name name with
  | none => s
  | some i => s.removeAt i

/-- The expiry loop. -/
def gcLoop (now : UInt64) : Nat → WatchedCs → WatchedCs
  | 0, s => s
  | i + 1, s =>
    match s.cs.entries[i]? with
    | none => gcLoop now i s
    | some e => if entryExpired e now then gcLoop now i (s.removeAt i) else gcLoop now i s

/-- One call. `psirp_cs_init` clears the table. -/
def step (s : WatchedCs) (op : CsOp) : CsAnswer PsirpCsEntry × WatchedCs :=
  ((csStep s.cs op).1,
    match op with
    | .init => ⟨psirpCsInit, s.slots.map fun _ => freedSlot, none⟩
    | .setBudget maxBytes => { s with cs := psirpCsSetBudget s.cs maxBytes }
    | .store name data freshnessMs now => s.store name data freshnessMs now
    | .lookup name now => { s with cs := (psirpCsLookup s.cs name now).2 }
    | .remove name => s.remove name
    | .gc now => (gcLoop now s.cs.entries.length s).enforceBudget)

/-! ## It is the content store -/

/-- As memory, a removal writes one slot. -/
theorem slots_removeAt {s : WatchedCs} {i : Nat} (hi : i < s.cs.entries.length) :
    (s.removeAt i).slots = s.slots.set i
      (if i + 1 < s.cs.entries.length then s.cs.entries.getLast?.getD freedSlot
        else freedSlot) := by
  have hget := List.getElem?_eq_getElem hi
  rw [removeAt, hget]
  simp only [slots]
  rw [entries_removeAt hget, List.set_append_left _ _ hi]
  obtain ⟨init, last, hcut⟩ : ∃ init last, s.cs.entries = init ++ [last] :=
    ⟨_, _, (List.dropLast_append_getLast (List.ne_nil_of_length_pos (by omega))).symm⟩
  rw [hcut] at hi ⊢
  rw [List.length_append, List.length_singleton] at hi
  simp only [swapRemove, List.getLast?_concat, Option.getD_some, List.length_append,
    List.length_singleton, Nat.add_lt_add_iff_right]
  rcases Nat.lt_or_ge i init.length with hlt | hge
  · rw [if_pos hlt, List.set_append_left _ _ hlt, List.dropLast_concat, List.append_assoc,
      List.singleton_append]
  · obtain rfl : i = init.length := by omega
    rw [if_neg (by omega), List.set_append_right _ _ le_rfl, List.set_append_right _ _ le_rfl,
      Nat.sub_self, List.set_cons_zero, List.set_cons_zero, List.dropLast_concat, List.append_assoc,
      List.singleton_append]

theorem cs_removeAt (s : WatchedCs) (i : Nat) :
    (s.removeAt i).cs = DsoBrowser.removeAt s.cs i := by
  rw [removeAt]
  split
  · rename_i hnone
    rw [DsoBrowser.removeAt, hnone]
  · rfl

theorem cs_budgetLoop (fuel : Nat) (s : WatchedCs) :
    (budgetLoop fuel s).cs = (DsoBrowser.budgetLoop fuel s.cs).2 := by
  induction fuel generalizing s with
  | zero => rfl
  | succ fuel ih =>
    rw [budgetLoop, DsoBrowser.budgetLoop]
    split
    · exact (ih _).trans (by rw [cs_removeAt])
    · rfl

theorem cs_enforceBudget (s : WatchedCs) :
    s.enforceBudget.cs = (DsoBrowser.enforceBudget s.cs).2 := by
  rw [enforceBudget, DsoBrowser.enforceBudget]
  split
  · exact cs_budgetLoop _ s
  · rfl

theorem cs_gcLoop (now : UInt64) (i : Nat) (s : WatchedCs) :
    (gcLoop now i s).cs = (DsoBrowser.gcLoop now i s.cs).2 := by
  induction i generalizing s with
  | zero => rfl
  | succ i ih =>
    rw [gcLoop, DsoBrowser.gcLoop]
    cases s.cs.entries[i]? with
    | none => exact ih s
    | some e =>
      dsimp only
      split
      · exact (ih _).trans (by rw [cs_removeAt])
      · exact ih s

/-- **Watching an entry changes nothing.** -/
theorem cs_step (s : WatchedCs) (op : CsOp) :
    (step s op).1 = (csStep s.cs op).1 ∧ (step s op).2.cs = (csStep s.cs op).2 := by
  refine ⟨rfl, ?_⟩
  cases op with
  | init => rfl
  | setBudget maxBytes => rfl
  | lookup name now => rfl
  | store name data freshnessMs now =>
    change (s.store name data freshnessMs now).cs = (psirpCsStore s.cs name data freshnessMs now).2
    rw [store]
    split
    · rename_i hzero
      rw [psirpCsStore, if_pos hzero]
    · rename_i hzero
      split
      · rename_i hlong
        rw [psirpCsStore, if_neg hzero, if_pos hlong]
      · rename_i hlong
        cases hidx : s.cs.entries.findIdx? (fun e => psirpNameEqual e.name name) with
        | some i => rfl
        | none =>
          dsimp only
          rw [psirpCsStore, if_neg hzero, if_neg hlong, hidx]
          dsimp only
          split
          · rfl
          · exact cs_enforceBudget _
  | remove name =>
    change (s.remove name).cs = (psirpCsRemove s.cs name).2
    rw [remove, psirpCsRemove]
    cases s.cs.entries.findIdx? (fun e => psirpNameEqual e.name name) with
    | none => rfl
    | some i => exact cs_removeAt s i
  | gc now =>
    change ((gcLoop now s.cs.entries.length s).enforceBudget).cs = (psirpCsGc s.cs now).2
    rw [cs_enforceBudget, cs_gcLoop]
    rfl

/-! ## What the slot of a handle holds -/

/-- The watched entry `e`, if it is still there, is at the handle `i` or the table has become too
short for the handle, and the slot at `i` holds its name and data. -/
def Reads (i : Nat) (e : PsirpCsEntry) (s : WatchedCs) : Prop :=
  ∀ p, s.pos = some p →
    (p = i ∨ s.cs.entries.length ≤ i) ∧
    s.cs.entries[p]?.map (fun e => (e.name, e.data)) = some (e.name, e.data) ∧
    s.slots[i]?.map (fun e => (e.name, e.data)) = some (e.name, e.data)

variable {i : Nat} {e : PsirpCsEntry} {s : WatchedCs}

/-- The watched entry is in the table. -/
theorem Reads.lt_length (h : Reads i e s) {p : Nat} (hp : s.pos = some p) :
    p < s.cs.entries.length := by
  by_contra hge
  have hentry := (h p hp).2.1
  rw [List.getElem?_eq_none (Nat.not_lt.mp hge)] at hentry
  cases hentry

theorem Reads.removeAt (h : Reads i e s) (j : Nat) : Reads i e (s.removeAt j) := by
  rcases Nat.lt_or_ge j s.cs.entries.length with hj | hj
  · intro p' hp'
    have hslots := slots_removeAt hj
    have hget := List.getElem?_eq_getElem hj
    have hlen := length_swapRemove hj
    have hcs := cs_removeAt s j
    obtain ⟨p, hp, hfollow⟩ : ∃ p, s.pos = some p ∧ follow s.cs.entries.length j p = some p' := by
      rw [WatchedCs.removeAt, hget] at hp'
      exact Option.bind_eq_some_iff.mp hp'
    obtain ⟨hplace, hentry, hslot⟩ := h p hp
    rw [hcs, entries_removeAt hget]
    have hlt := h.lt_length hp
    rw [follow] at hfollow
    split at hfollow
    · cases hfollow
    · rename_i hne
      -- the slot of the handle is not the one written to
      have hslot' : (s.removeAt j).slots[i]? = s.slots[i]? := by
        rw [hslots, List.getElem?_set_ne]
        omega
      rw [hslot']
      split at hfollow
      · rename_i hlast
        obtain rfl := Option.some.inj hfollow
        refine ⟨by omega, ?_, hslot⟩
        rw [getElem?_swapRemove_self (by omega)]
        have hpos : s.cs.entries.length - 1 = p := by omega
        rwa [hpos]
      · rename_i hlast
        obtain rfl := Option.some.inj hfollow
        refine ⟨by omega, ?_, hslot⟩
        rwa [getElem?_swapRemove_ne hne (by omega)]
  · rw [WatchedCs.removeAt, List.getElem?_eq_none hj]
    exact h

theorem Reads.budgetLoop (h : Reads i e s) (fuel : Nat) : Reads i e (budgetLoop fuel s) := by
  induction fuel generalizing s with
  | zero => exact h
  | succ fuel ih =>
    rw [WatchedCs.budgetLoop]
    split
    · exact ih (h.removeAt _)
    · exact h

theorem Reads.enforceBudget (h : Reads i e s) : Reads i e s.enforceBudget := by
  rw [WatchedCs.enforceBudget]
  split
  · exact h.budgetLoop _
  · exact h

theorem Reads.gcLoop (h : Reads i e s) (now : UInt64) (j : Nat) : Reads i e (gcLoop now j s) := by
  induction j generalizing s with
  | zero => exact h
  | succ j ih =>
    rw [WatchedCs.gcLoop]
    cases s.cs.entries[j]? with
    | none => exact ih h
    | some e' =>
      dsimp only
      split
      · exact ih (h.removeAt j)
      · exact ih h

/-- An update of an entry other than the watched one, or one that keeps names and data. -/
theorem Reads.modify (h : Reads i e s) {j : Nat} {f : PsirpCsEntry → PsirpCsEntry} {cs : PsirpCs}
    (hentries : cs.entries = s.cs.entries.modify j f) {pos : Option Nat}
    (hpos : ∀ p, pos = some p → s.pos = some p ∧
      (p = j → ∀ a, ((f a).name, (f a).data) = (a.name, a.data))) :
    Reads i e { s with cs := cs, pos := pos } := by
  intro p hp
  obtain ⟨hp, hkeep⟩ := hpos p hp
  obtain ⟨hplace, hentry, hslot⟩ := h p hp
  have hlt := h.lt_length hp
  have hentry' : (s.cs.entries.modify j f)[p]?.map (fun e => (e.name, e.data)) =
      some (e.name, e.data) := by
    rcases eq_or_ne j p with rfl | hne
    · rw [List.getElem?_modify_eq, Option.map_eq_map, Option.map_map, ← hentry]
      exact congrArg (fun g => Option.map g s.cs.entries[j]?) (funext (hkeep rfl))
    · rwa [List.getElem?_modify_ne _ _ hne]
  refine ⟨by rwa [hentries, List.length_modify], by rwa [hentries], ?_⟩
  change ((cs.entries ++ s.unused)[i]?).map _ = _
  rw [hentries]
  rcases hplace with rfl | hshort
  · rwa [List.getElem?_append_left (by rwa [List.length_modify])]
  · rw [slots, List.getElem?_append_right hshort] at hslot
    rwa [List.getElem?_append_right (by rwa [List.length_modify]), List.length_modify]

/-- An insertion that does not write the slot of the handle. -/
theorem Reads.insert (h : Reads i e s) (hi : s.cs.entries.length ≠ i) (new : PsirpCsEntry)
    {cs : PsirpCs} (hentries : cs.entries = s.cs.entries ++ [new]) :
    Reads i e { s with cs := cs, unused := s.unused.drop 1 } := by
  intro p hp
  obtain ⟨hplace, hentry, hslot⟩ := h p hp
  have hlt := h.lt_length hp
  have hlen : cs.entries.length = s.cs.entries.length + 1 := by
    rw [hentries, List.length_append, List.length_singleton]
  refine ⟨by dsimp only; omega, ?_, ?_⟩
  · rwa [hentries, List.getElem?_append_left hlt]
  · change ((cs.entries ++ s.unused.drop 1)[i]?).map _ = _
    rcases hplace with rfl | hshort
    · rwa [hentries, List.append_assoc, List.getElem?_append_left hlt]
    · -- the slot is further on than the one written to
      rw [slots, List.getElem?_append_right hshort] at hslot
      rw [List.getElem?_append_right (by omega), List.getElem?_drop, hlen]
      have hrest : 1 + (i - (s.cs.entries.length + 1)) = i - s.cs.entries.length := by omega
      rwa [hrest]

/-- The call inserts a new entry into slot `i`. -/
def InsertsAt (i : Nat) (cs : PsirpCs) : CsOp → Prop
  | .store name data _ _ =>
    cs.entries.length = i ∧ i < cs.capacity ∧ Storable data ∧
      cs.entries.findIdx? (fun e => psirpNameEqual e.name name) = none
  | _ => False

/-- **Step.** -/
theorem Reads.step (h : Reads i e s) {op : CsOp} (hop : ¬ InsertsAt i s.cs op) :
    Reads i e (step s op).2 := by
  cases op with
  | init => exact fun p hp => nomatch hp
  | setBudget maxBytes => exact h
  | lookup name now =>
    change Reads i e { s with cs := (psirpCsLookup s.cs name now).2 }
    rcases psirpCsLookup_frame s.cs name now with hsame | ⟨j, htouch⟩
    · rw [hsame]
      exact h
    · rw [htouch]
      exact h.modify (j := j) (f := touch now) rfl fun p hp => ⟨hp, fun _ _ => rfl⟩
  | store name data freshnessMs now =>
    change Reads i e (s.store name data freshnessMs now)
    rw [WatchedCs.store]
    split
    · exact h
    · rename_i hzero
      split
      · exact h
      · rename_i hlong
        cases hidx : s.cs.entries.findIdx? (fun e => psirpNameEqual e.name name) with
        | some j =>
          have hget := List.getElem?_eq_getElem (List.findIdx?_eq_some_iff_getElem.mp hidx).1
          rw [psirpCsStore_of_match hidx hget ⟨hzero, Nat.not_lt.mp hlong⟩]
          refine h.modify (j := j) (f := overwrite data freshnessMs now) rfl fun p hp => ?_
          obtain ⟨q, hq, hpq⟩ := Option.bind_eq_some_iff.mp hp
          split at hpq
          · cases hpq
          · rename_i hne
            obtain rfl := Option.some.inj hpq
            exact ⟨hq, fun hj => absurd hj hne⟩
        | none =>
          dsimp only
          split
          · exact h
          · rename_i hroom
            refine (h.insert (fun hi => hop ⟨hi, ?_, ⟨hzero, Nat.not_lt.mp hlong⟩, hidx⟩) _ rfl)
              |>.enforceBudget
            omega
  | remove name =>
    change Reads i e (s.remove name)
    rw [WatchedCs.remove]
    cases s.cs.entries.findIdx? (fun e => psirpNameEqual e.name name) with
    | none => exact h
    | some j => exact h.removeAt j
  | gc now => exact (h.gcLoop now s.cs.entries.length).enforceBudget

/-! ## Runs -/

/-- If the entry `e` the handle `i` was returned for is not evicted, removed or overwritten in the
run, the slot of the handle holds its name and its data at the end. -/
def HandleBound (s : WatchedCs) (i : Nat) (e : PsirpCsEntry) (ops : List CsOp) : Prop :=
  (exec step s ops).pos.isSome = true →
    ∃ e', (exec step s ops).slots[i]? = some e' ∧ e'.name = e.name ∧ e'.data = e.data

theorem Reads.handleBound (h : Reads i e s) {ops : List CsOp}
    (hops : Along WatchedCs.step (fun s op => ¬ InsertsAt i s.cs op) s ops) : HandleBound s i e ops := by
  intro hkept
  have hend := exec_inv (I := Reads i e) (fun _ _ h hop => h.step hop) h hops
  obtain ⟨p, hp⟩ := Option.isSome_iff_exists.mp hkept
  obtain ⟨e', he', hcontent⟩ := Option.map_eq_some_iff.mp (hend p hp).2.2
  exact ⟨e', he', congrArg Prod.fst hcontent, congrArg Prod.snd hcontent⟩

/-- **A handle stays bound to its content** in every run in which no store inserts into its
slot. -/
theorem handleBound_of_run {cs : PsirpCs} {name : PsirpName} {now : UInt64} {i : Nat}
    (hi : (psirpCsLookup cs name now).1 = some i) :
    ∃ e, (psirpCsLookup cs name now).2.entries[i]? = some e ∧ e.components = name.components ∧
      ∀ (unused : List PsirpCsEntry) (ops : List CsOp),
        Along step (fun s op => ¬ InsertsAt i s.cs op)
          ⟨(psirpCsLookup cs name now).2, unused, some i⟩ ops →
        HandleBound ⟨(psirpCsLookup cs name now).2, unused, some i⟩ i e ops := by
  rw [psirpCsLookup_fst] at hi
  obtain ⟨e, he, -, hcomps⟩ := lookupIndex_eq_some hi
  have hget := psirpCsLookup_getElem? hi
  rw [he, Option.map_some] at hget
  refine ⟨touch now e, hget, hcomps, fun unused ops => Reads.handleBound ?_⟩
  rintro p hp
  obtain rfl := Option.some.inj hp
  refine ⟨Or.inl rfl, congrArg (Option.map _) hget, ?_⟩
  rw [slots, List.getElem?_append_left (List.getElem?_eq_some_iff.mp hget).1]
  exact congrArg (Option.map _) hget

/-- `/a` and `/b`. -/
def twoEntries : PsirpCs :=
  exec csStep psirpCsInit [.store (psirpNameInit (text ['/', 'a'])).2 [1] 0 0,
    .store (psirpNameInit (text ['/', 'b'])).2 [2] 0 0]

theorem handleBound_of_run_b :
    ∃ e, (psirpCsLookup twoEntries (psirpNameInit (text ['/', 'b'])).2 1).2.entries[1]? = some e ∧
      HandleBound ⟨(psirpCsLookup twoEntries (psirpNameInit (text ['/', 'b'])).2 1).2, [], some 1⟩
        1 e [.remove (psirpNameInit (text ['/', 'a'])).2] := by
  have hi : (psirpCsLookup twoEntries (psirpNameInit (text ['/', 'b'])).2 1).1 = some 1 := by
    decide +kernel
  obtain ⟨e, he, -, hbound⟩ := handleBound_of_run hi
  exact ⟨e, he, hbound [] _ ⟨fun h => h, trivial⟩⟩

/-- With `/a` removed, `/b` moves to its slot; the next store inserts into the slot `/b` was looked
up at. -/
theorem not_handleBound_b : ∃ e,
    (psirpCsLookup twoEntries (psirpNameInit (text ['/', 'b'])).2 1).1 = some 1 ∧
    (psirpCsLookup twoEntries (psirpNameInit (text ['/', 'b'])).2 1).2.entries[1]? = some e ∧
    ∀ unused, ¬ HandleBound
      ⟨(psirpCsLookup twoEntries (psirpNameInit (text ['/', 'b'])).2 1).2, unused, some 1⟩ 1 e
      [.remove (psirpNameInit (text ['/', 'a'])).2,
        .store (psirpNameInit (text ['/', 'c'])).2 [3] 0 2] := by
  refine ⟨_, by decide +kernel, (List.getElem?_eq_getElem (by decide +kernel)), ?_⟩
  intro unused hbound
  obtain ⟨e', he', -, hdata⟩ := hbound rfl
  obtain rfl : e' = newEntry (psirpNameInit (text ['/', 'c'])).2 [3] 0 2 :=
    Option.some.inj (he'.symm.trans rfl)
  exact absurd hdata (by decide +kernel)

end WatchedCs

end DsoBrowser
