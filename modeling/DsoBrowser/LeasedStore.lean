import DsoBrowser.PlainStore
import DsoBrowser.LruEviction
import DsoBrowser.Lib.Leases

/-!
# With validity periods the content store is a map of leases

Content stored with a freshness period is answered until the period and the millisecond it is
rounded to are over. Restricted to unversioned names of canonical paths and no byte budget, the
content store answers every sequence of calls as a map of leases does, as long as the clock does
not go back (`psirpCs_refines_leases`). An entry that has expired is not answered any more, but it
takes its place in the table until it is replaced, removed or collected.

The **invariant** that carries the simulation is `LeasedAs`: the table, keyed by component lists,
represents the leases, and no entry is stamped later than the clock reads.
-/

namespace DsoBrowser

open Leases Machine Table

/-! ## The leases -/

/-- When content is gone that is stored at `stamp`. -/
def goneAt (stamp : UInt64) (freshnessMs : UInt32) : WithTop Nat :=
  if freshnessMs = 0 then ⊤
  else ((stamp.toNat + (freshnessMs.toNat + 1) * 1000000 : Nat) : WithTop Nat)

/-- What is stored under a name. -/
structure Content where
  /-- the bytes -/
  data : List UInt8
  /-- validity period, `0` for ever -/
  freshnessMs : UInt32
  deriving DecidableEq

/-- Content and the nanosecond from which on it is not answered. -/
abbrev ContentLease : Type := Lease Content (WithTop Nat)

/-- Leases by component lists. -/
abbrev ContentLeases : Type := LeaseMap (List CString) Content (WithTop Nat)

/-- What an entry has stored. -/
def PsirpCsEntry.content (e : PsirpCsEntry) : Content := ⟨e.data, e.freshnessMs⟩

/-- The lease an entry stands for. -/
def PsirpCsEntry.lease (e : PsirpCsEntry) : ContentLease :=
  ⟨e.content, goneAt e.timestamp e.freshnessMs⟩

/-- The clock as the deadlines are measured by. -/
def clock (now : UInt64) : WithTop Nat := ((now.toNat : Nat) : WithTop Nat)

theorem clock_mono {now later : UInt64} (h : now ≤ later) : clock now ≤ clock later :=
  WithTop.coe_le_coe.mpr (UInt64.le_iff_toNat_le.mp h)

theorem clock_lt_coe {now : UInt64} {n : Nat} : clock now < (n : WithTop Nat) ↔ now.toNat < n :=
  WithTop.coe_lt_coe

/-- An entry expires when its lease is over. -/
theorem live_lease {e : PsirpCsEntry} {now : UInt64} (h : e.timestamp ≤ now) :
    e.lease.live (clock now) = !entryExpired e now := by
  rw [Bool.eq_iff_iff, Bool.not_eq_true', ← Bool.not_eq_true, entryExpired_iff h, not_not, FreshAt,
    Lease.live, decide_eq_true_eq]
  change clock now < goneAt e.timestamp e.freshnessMs ↔ _
  rw [goneAt]
  split
  · rename_i hforever
    exact iff_of_true (WithTop.coe_lt_top _) (Or.inl hforever)
  · rename_i hfinite
    have hle := UInt64.le_iff_toNat_le.mp h
    rw [clock_lt_coe, or_iff_right hfinite]
    omega

/-! ## The interface -/

/-- A call on plain names. -/
inductive LeasedOp where
  /-- `psirp_cs_store` -/
  | store : PlainKey → List UInt8 → UInt32 → UInt64 → LeasedOp
  /-- `psirp_cs_lookup` -/
  | lookup : PlainKey → UInt64 → LeasedOp
  /-- `psirp_cs_remove` -/
  | remove : PlainKey → LeasedOp
  /-- `psirp_cs_gc` -/
  | gc : UInt64 → LeasedOp

/-- The call itself. -/
def LeasedOp.call : LeasedOp → CsOp
  | .store k d f now => .store k.name d f now
  | .lookup k now => .lookup k.name now
  | .remove k => .remove k.name
  | .gc now => .gc now

/-- The clock readings of a call. -/
def LeasedOp.readings : LeasedOp → List UInt64
  | .store _ _ _ now => [now]
  | .lookup _ now => [now]
  | .remove _ => []
  | .gc now => [now]

/-- The clock does not go back. -/
def ClockForward (ops : List LeasedOp) : Prop := (ops.flatMap LeasedOp.readings).Pairwise (· ≤ ·)

instance (ops : List LeasedOp) : Decidable (ClockForward ops) :=
  inferInstanceAs (Decidable (List.Pairwise _ _))

/-- An answer with the content of the entry a lookup points to in place of the entry. -/
def CsAnswer.contents : CsAnswer PsirpCsEntry → CsAnswer Content
  | .done => .done
  | .verdict ok => .verdict ok
  | .found e => .found (e.map PsirpCsEntry.content)
  | .evicted n => .evicted n

/-- The content store under such calls. -/
def leasedStep (cs : PsirpCs) (op : LeasedOp) : CsAnswer Content × PsirpCs :=
  ((csStep cs op.call).1.contents, (csStep cs op.call).2)

/-- Storing into the map of leases, which has room for `psirpCsMaxEntries`. -/
def storeLease (m : ContentLeases) (components : List CString) (content : Content)
    (now : UInt64) : Bool × ContentLeases :=
  if Storable content.data ∧ (components ∈ m ∨ m.keys.card < psirpCsMaxEntries) then
    (true, m.insert components ⟨content, goneAt now content.freshnessMs⟩)
  else (false, m)

/-- The same calls on the map of leases. -/
def leaseStep (m : ContentLeases) : LeasedOp → CsAnswer Content × ContentLeases
  | .store k d f now =>
    let (ok, m') := storeLease m k.components ⟨d, f⟩ now
    (.verdict ok, m')
  | .lookup k now => (.found (fetch m k.components (clock now)), m)
  | .remove k => (.verdict (decide (k.components ∈ m)), m.erase k.components)
  | .gc now =>
    (.evicted (m.keys.card - (sweep m (clock now)).keys.card), sweep m (clock now))

/-! ## The simulation -/

/-- An entry hashed over its canonical path, of version `0`. -/
structure UnversionedEntry (e : PsirpCsEntry) : Prop where
  /-- hashed over the canonical path -/
  selfHashed : e.name.SelfHashed
  /-- version `0` -/
  version_eq : e.name.version = 0

/-- The content store stands for the leases. -/
structure LeasedAs (cs : PsirpCs) (m : ContentLeases) : Prop where
  /-- the table represents them -/
  represents : Represents PsirpCsEntry.components PsirpCsEntry.lease cs.entries m
  /-- under unversioned names -/
  unversioned : EveryEntry UnversionedEntry cs
  /-- the table has its initial size -/
  capacity_eq : cs.capacity = psirpCsMaxEntries
  /-- there is no byte budget -/
  maxBytes_eq : cs.maxBytes = 0

/-- No entry is stamped after `now`. -/
def StampedBy (now : UInt64) (cs : PsirpCs) : Prop := EveryEntry (fun e => e.timestamp ≤ now) cs

theorem leasedAs_init : LeasedAs psirpCsInit ∅ :=
  ⟨Represents.nil, fun _ he => absurd he List.not_mem_nil, rfl, rfl⟩

theorem stampedBy_init (now : UInt64) : StampedBy now psirpCsInit :=
  fun _ he => absurd he List.not_mem_nil

section Steps

variable {cs : PsirpCs} {m : ContentLeases}

/-- The duplicate check is a scan by components. -/
theorem LeasedAs.findIdx?_eq (h : LeasedAs cs m) {n : PsirpName} (hn : n.SelfHashed) :
    cs.entries.findIdx? (fun e => psirpNameEqual e.name n) =
      cs.entries.findIdx? fun e => decide (e.components = n.components) :=
  findIdx?_of_selfHashed (fun e he => (h.unversioned e he).selfHashed) hn

theorem LeasedAs.mem_iff (h : LeasedAs cs m) {n : PsirpName} (hn : n.SelfHashed) :
    n.components ∉ m ↔ cs.entries.findIdx? (fun e => psirpNameEqual e.name n) = none := by
  rw [h.findIdx?_eq hn, List.findIdx?_eq_none_iff, h.represents.mem_iff]
  simp

/-- **Storing** under an unversioned name that is hashed over its path stores into the map. -/
theorem LeasedAs.store (h : LeasedAs cs m) {n : PsirpName} (hn : n.SelfHashed)
    (hplain : ∀ c ∈ n.components, PlainComponent c) (hv : n.version = 0) (d : List UInt8)
    (f : UInt32) (now : UInt64) :
    (psirpCsStore cs n d f now).1 = (storeLease m n.components ⟨d, f⟩ now).1 ∧
      LeasedAs (psirpCsStore cs n d f now).2 (storeLease m n.components ⟨d, f⟩ now).2 := by
  have hcard : m.keys.card = cs.entries.length := h.represents.card_keys
  have hname : (newEntry n d f now).name = { n with hash := pathHash n.components } :=
    entryName_of_plain hplain
  have hunversioned : EveryEntry UnversionedEntry (psirpCsStore cs n d f now).2 :=
    h.unversioned.store (fun _ => ⟨by rw [hname]; rfl, by rw [hname]; exact hv⟩)
      fun _ _ _ he => ⟨he.selfHashed, he.version_eq⟩
  rw [storeLease]
  rcases psirpCsStore_cases_of_unlimited h.maxBytes_eq n d f now with
    ⟨hs, hfull⟩ | ⟨hd, i, b, hi, hs⟩ | ⟨hd, hroom, hnone, b, hs⟩
  · -- refused: the data is out of range, or the name is new and the table is full
    have hm : ¬ (Storable d ∧ (n.components ∈ m ∨ m.keys.card < psirpCsMaxEntries)) := by
      rintro ⟨hd, hk | hlt⟩
      · exact (h.mem_iff hn).mpr (hfull hd).2 hk
      · have hcap := (hfull hd).1
        rw [h.capacity_eq, ← hcard] at hcap
        omega
    rw [hs, if_neg hm]
    exact ⟨rfl, h⟩
  · -- the name is present: its entry is overwritten
    have hk : n.components ∈ m := by
      by_contra hk
      rw [(h.mem_iff hn).mp hk] at hi
      cases hi
    rw [hs] at hunversioned ⊢
    rw [if_pos ⟨hd, Or.inl hk⟩]
    rw [h.findIdx?_eq hn] at hi
    exact ⟨rfl, h.represents.modify_first hi (fun _ => rfl) (fun _ => rfl), hunversioned,
      h.capacity_eq, h.maxBytes_eq⟩
  · -- the name is new and there is room: an entry is appended
    have hk : n.components ∉ m := (h.mem_iff hn).mpr hnone
    rw [hs] at hunversioned ⊢
    rw [if_pos ⟨hd, Or.inr (by rw [hcard, ← h.capacity_eq]; exact hroom)⟩]
    have hcomps : (newEntry n d f now).components = n.components := by
      change (newEntry n d f now).name.components = _
      rw [hname]
    have hrep := h.represents.concat (a := newEntry n d f now) (by rwa [hcomps])
    rw [hcomps] at hrep
    exact ⟨rfl, hrep, hunversioned, h.capacity_eq, h.maxBytes_eq⟩

/-- A lookup goes over the entries with the components, if all are unversioned. -/
theorem lookupIndex_of_unversioned (h : EveryEntry UnversionedEntry cs) {n : PsirpName}
    (hv : n.hasVersion = false) (now : UInt64) :
    lookupIndex cs.entries n now = cs.entries.findIdx? fun e =>
      !entryExpired e now && decide (e.components = n.components) := by
  rw [lookupIndex, hv, if_neg Bool.false_ne_true,
    findNewest_of_version_zero fun e he _ => (h e he).version_eq]
  rfl

/-- A lookup finds the entry with the components, if it is live. -/
theorem LeasedAs.lookupEntry_eq (h : LeasedAs cs m) {n : PsirpName} (hv : n.hasVersion = false)
    (now : UInt64) :
    lookupEntry cs n now = ((row PsirpCsEntry.components cs.entries n.components).filter
      fun e => !entryExpired e now).map (touch now) := by
  rw [DsoBrowser.lookupEntry_eq, lookupIndex_of_unversioned h.unversioned hv]
  have hfind : (cs.entries.findIdx? fun e =>
      !entryExpired e now && decide (e.components = n.components)).bind (cs.entries[·]?) =
        (row PsirpCsEntry.components cs.entries n.components).filter
          fun e => !entryExpired e now := by
    rw [← List.find?_eq_bind_findIdx?_getElem?]
    apply Option.ext
    intro e
    rw [Option.filter_eq_some_iff, h.represents.keyed.row_eq_some]
    refine ⟨fun he => ?_, fun he => ?_⟩
    · have hmem := List.mem_of_find?_eq_some he
      have htest := List.find?_some he
      rw [Bool.and_eq_true, decide_eq_true_eq] at htest
      exact ⟨⟨hmem, htest.2⟩, htest.1⟩
    · -- it is the only entry that passes
      obtain ⟨⟨hmem, hcomps⟩, hlive⟩ := he
      cases hf : cs.entries.find? fun e =>
          !entryExpired e now && decide (e.components = n.components) with
      | none =>
        have hmiss := List.find?_eq_none.mp hf e hmem
        rw [hlive, decide_eq_true hcomps] at hmiss
        exact absurd rfl hmiss
      | some e' =>
        have htest := List.find?_some hf
        rw [Bool.and_eq_true, decide_eq_true_eq] at htest
        exact congrArg some (h.represents.keyed.eq_of_key_eq (List.mem_of_find?_eq_some hf) hmem
          (htest.2.trans hcomps.symm))
  rw [← hfind, Option.map_bind]
  rfl

/-- **What a lookup finds** is what the map has, before its deadline. -/
theorem LeasedAs.lookup_content (h : LeasedAs cs m) {n : PsirpName} (hv : n.hasVersion = false)
    {now : UInt64} (hclock : StampedBy now cs) :
    (lookupEntry cs n now).map PsirpCsEntry.content = fetch m n.components (clock now) := by
  rw [h.lookupEntry_eq hv, Option.map_map, fetch, h.represents.lookup_eq, Option.filter_map,
    Option.map_map]
  have hfilter : (row PsirpCsEntry.components cs.entries n.components).filter
      (fun e => !entryExpired e now) =
        (row PsirpCsEntry.components cs.entries n.components).filter
          (Lease.live (clock now) ∘ PsirpCsEntry.lease) := by
    cases hrow : row PsirpCsEntry.components cs.entries n.components with
    | none => rfl
    | some e =>
      have hlive := live_lease (hclock e (mem_of_row hrow))
      rw [Option.filter_some, Option.filter_some, Function.comp_apply, hlive]
  rw [hfilter]
  rfl

/-- The bookkeeping of a hit changes nothing the map sees. -/
theorem LeasedAs.lookup_frame (h : LeasedAs cs m) (n : PsirpName) (now : UInt64) :
    LeasedAs (psirpCsLookup cs n now).2 m := by
  rcases psirpCsLookup_frame cs n now with hs | ⟨i, hs⟩
  · rw [hs]
    exact h
  · rw [hs]
    exact ⟨h.represents.modify_of_comp (fun _ => rfl) (fun _ => rfl),
      h.unversioned.modify_touch (fun _ _ he => ⟨he.selfHashed, he.version_eq⟩) i now,
      h.capacity_eq, h.maxBytes_eq⟩

theorem LeasedAs.remove (h : LeasedAs cs m) (k : PlainKey) :
    (psirpCsRemove cs k.name).1 = decide (k.components ∈ m) ∧
      LeasedAs (psirpCsRemove cs k.name).2 (m.erase k.components) := by
  have hunversioned : EveryEntry UnversionedEntry (psirpCsRemove cs k.name).2 :=
    h.unversioned.remove k.name
  have hmem := h.mem_iff k.selfHashed_name
  rw [k.components_name] at hmem
  rcases psirpCsRemove_cases cs k.name with ⟨hnone, hs⟩ | ⟨i, e, hi, he, heq, hs⟩
  · -- nothing is found, and there is nothing to erase
    have hk : k.components ∉ m := hmem.mpr hnone
    have herase : m.erase k.components = m := by
      apply Finmap.ext_lookup
      intro k'
      by_cases hk' : k' = k.components
      · rw [hk', Finmap.lookup_erase, Finmap.lookup_eq_none.mpr hk]
      · rw [Finmap.lookup_erase_ne hk']
    rw [hs, herase, decide_eq_false hk]
    exact ⟨rfl, h⟩
  · have hcomps : e.components = k.components := by
      rw [← k.components_name]
      exact (psirpNameEqual_iff.mp heq).2
    have hk : k.components ∈ m :=
      (h.represents.mem_iff _).mpr ⟨e, List.mem_of_getElem? he, hcomps⟩
    have hrep := h.represents.swapRemove he
    rw [← entries_removeAt he, hcomps] at hrep
    rw [hs] at hunversioned ⊢
    rw [decide_eq_true hk]
    exact ⟨rfl, hrep, hunversioned, (capacity_removeAt cs i).trans h.capacity_eq,
      (maxBytes_removeAt cs i).trans h.maxBytes_eq⟩

/-- Without a byte budget, collecting takes out the expired entries. -/
theorem entries_psirpCsGc_perm (hmax : cs.maxBytes = 0) (now : UInt64) :
    psirpCsGc cs now = gcLoop now cs.entries.length cs ∧
      (psirpCsGc cs now).2.entries.Perm (cs.entries.filter fun e => !entryExpired e now) := by
  have hgc : psirpCsGc cs now = gcLoop now cs.entries.length cs := by
    rw [psirpCsGc]
    dsimp only
    rw [enforceBudget_of_unlimited ((gcLoop_frame now cs.entries.length cs).2.2.trans hmax)]
    rfl
  rw [hgc, entries_gcLoop]
  exact ⟨rfl, swapSweep_perm cs.entries⟩

/-- **Collecting** sweeps the leases that are over. -/
theorem LeasedAs.gc (h : LeasedAs cs m) {now : UInt64} (hclock : StampedBy now cs) :
    (psirpCsGc cs now).1 = m.keys.card - (sweep m (clock now)).keys.card ∧
      LeasedAs (psirpCsGc cs now).2 (sweep m (clock now)) := by
  obtain ⟨hsub, hcap, hmax⟩ := psirpCsGc_frame cs now
  obtain ⟨hgc, hperm⟩ := entries_psirpCsGc_perm h.maxBytes_eq now
  have hlive : (cs.entries.filter fun e => !entryExpired e now) =
      cs.entries.filter fun e => e.lease.live (clock now) :=
    List.filter_congr fun e he => (live_lease (hclock e he)).symm
  have hrep : Represents PsirpCsEntry.components PsirpCsEntry.lease
      (psirpCsGc cs now).2.entries (sweep m (clock now)) :=
    keep_represents h.represents _ (hlive ▸ hperm)
  have hcount := gcLoop_fst now cs.entries.length cs
  rw [← hgc] at hcount
  have hbefore := h.represents.card_keys
  have hafter := hrep.card_keys
  exact ⟨by omega, hrep, h.unversioned.subperm hsub, hcap.trans h.capacity_eq,
    hmax.trans h.maxBytes_eq⟩

/-- **Step.** Related states answer a call alike and stay related. -/
theorem LeasedAs.step (h : LeasedAs cs m) (op : LeasedOp)
    (hclock : ∀ now ∈ op.readings, StampedBy now cs) :
    (leasedStep cs op).1 = (leaseStep m op).1 ∧
      LeasedAs (leasedStep cs op).2 (leaseStep m op).2 := by
  cases op with
  | store k d f now =>
    have hversion : k.name.version = 0 := by rw [k.name_eq]
    obtain ⟨hok, hstands⟩ :=
      h.store k.selfHashed_name k.parsed.wellFormed.plain hversion d f now
    rw [k.components_name] at hok hstands
    exact ⟨congrArg CsAnswer.verdict hok, hstands⟩
  | lookup k now =>
    have hdata := h.lookup_content k.hasVersion_name (hclock now (List.mem_singleton_self _))
    rw [k.components_name] at hdata
    exact ⟨congrArg CsAnswer.found hdata, h.lookup_frame k.name now⟩
  | remove k =>
    obtain ⟨hok, hstands⟩ := h.remove k
    exact ⟨congrArg CsAnswer.verdict hok, hstands⟩
  | gc now =>
    obtain ⟨hcount, hstands⟩ := h.gc (hclock now (List.mem_singleton_self _))
    exact ⟨congrArg CsAnswer.evicted hcount, hstands⟩

end Steps

/-! ## Runs -/

section Clocks

variable {cs : PsirpCs}

theorem StampedBy.mono {now later : UInt64} (h : StampedBy now cs) (hle : now ≤ later) :
    StampedBy later cs := fun e he => UInt64.le_trans (h e he) hle

/-- What a call stores is stamped by its reading of the clock. -/
theorem StampedBy.csStep {t : UInt64} (h : StampedBy t cs) (op : CsOp)
    (hop : ∀ n d f now, op = .store n d f now → now ≤ t) : StampedBy t (csStep cs op).2 := by
  refine csStep_forall ?_ ?_ (fun _ _ he => he) h
  · rintro n d f now hcall -
    exact hop n d f now hcall
  · rintro n d f now e hcall - - -
    exact hop n d f now hcall

theorem StampedBy.step {t : UInt64} (h : StampedBy t cs) {op : LeasedOp}
    (hop : ∀ now ∈ op.readings, now ≤ t) : StampedBy t (leasedStep cs op).2 := by
  refine StampedBy.csStep h op.call fun n d f now hcall => ?_
  cases op with
  | store k d' f' now' =>
    cases hcall
    exact hop _ (List.mem_singleton_self _)
  | _ => cases hcall

/-- Along a run whose clock does not go back, no entry is stamped after it. -/
theorem along_stampedBy (ops : List LeasedOp) {t : UInt64} (h : StampedBy t cs)
    (hclock : ∀ now ∈ ops.flatMap LeasedOp.readings, t ≤ now) (hforward : ClockForward ops) :
    Along leasedStep (fun cs op => ∀ now ∈ op.readings, StampedBy now cs) cs ops := by
  induction ops generalizing cs t with
  | nil => trivial
  | cons op ops ih =>
    rw [ClockForward, List.flatMap_cons, List.pairwise_append] at hforward
    obtain ⟨-, hrest, hlater⟩ := hforward
    rw [List.flatMap_cons] at hclock
    have hnow : ∀ now ∈ op.readings, StampedBy now cs := fun now hmem =>
      h.mono (hclock now (List.mem_append_left _ hmem))
    refine ⟨hnow, ?_⟩
    -- the clock has moved on to the reading of the call, if it makes one
    by_cases hread : ∃ now, op.readings = [now]
    · obtain ⟨now, hread⟩ := hread
      have hmem : now ∈ op.readings := by
        rw [hread]
        exact List.mem_singleton_self _
      refine ih (t := now) ?_ (fun later hl => hlater now hmem later hl) hrest
      refine StampedBy.step (hnow now hmem) fun now' hmem' => ?_
      rw [hread] at hmem'
      rw [List.mem_singleton.mp hmem']
      exact UInt64.le_refl now
    · have hnone : op.readings = [] := by
        cases op with
        | remove k => rfl
        | _ => exact absurd ⟨_, rfl⟩ hread
      refine ih (t := t) (StampedBy.step h fun now hmem => ?_)
        (fun later hl => hclock later (List.mem_append_right _ hl)) hrest
      rw [hnone] at hmem
      cases hmem

end Clocks

/-- **Refinement.** Over every sequence of calls whose clock does not go back, the content store
gives the answers of the map of leases. -/
theorem psirpCs_refines_leases {ops : List LeasedOp} (h : ClockForward ops) :
    outs leasedStep psirpCsInit ops = outs leaseStep ∅ ops :=
  (outs_eq_of_simulates (fun _ _ op hI hP => hI.step op hP) leasedAs_init
    (along_stampedBy (t := 0) ops (stampedBy_init 0) (fun _ _ => UInt64.zero_le) h)).1

/-- `/a` for a millisecond, read before and after its time. -/
theorem psirpCs_refines_leases_a :
    ClockForward [.store keyA [7] 1 0, .lookup keyA 1999999, .lookup keyA 2000000, .gc 2000000] ∧
      outs leasedStep psirpCsInit
          [.store keyA [7] 1 0, .lookup keyA 1999999, .lookup keyA 2000000, .gc 2000000] =
        outs leaseStep ∅
          [.store keyA [7] 1 0, .lookup keyA 1999999, .lookup keyA 2000000, .gc 2000000] :=
  ⟨by decide, psirpCs_refines_leases (by decide)⟩

end DsoBrowser
