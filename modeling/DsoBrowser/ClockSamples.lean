import DsoBrowser.NewestLookup
import DsoBrowser.PeerRemoval

/-!
# Items stamped after the clock was sampled

Three expiry rules take the age of an item to be the difference of the sampled clock and its stamp,
modulo 2^64. Another thread can stamp an item between the sample and the test, and then the
difference wraps around to an age of hundreds of years: the newest peers, routes and entries are
those that are taken for dead (`laterStampsKept_iff`). An item is spared only if its stamp is the
sample itself, it does not expire at all, or it is stamped so much later that the wrapped
difference is small again.
-/

namespace DsoBrowser

open Positions Table

/-! ## The wrapped difference -/

/-- The age the code takes an item to have that is stamped at `now` or after. -/
theorem toNat_sub_of_later {now stamp : UInt64} (h : now ≤ stamp) :
    (now - stamp).toNat = if stamp = now then 0 else 2 ^ 64 - (stamp.toNat - now.toNat) := by
  rw [UInt64.le_iff_toNat_le] at h
  have hlt := stamp.toNat_lt
  rw [UInt64.toNat_sub]
  split
  · rename_i he
    rw [he]
    omega
  · rename_i hne
    have hne' : stamp.toNat ≠ now.toNat := fun he => hne (UInt64.toNat_inj.mp he)
    omega

/-- Items stamped after the sample are spared if the difference wraps around to less than the
limit. -/
def SparedBy (limit : Nat) (now stamp : UInt64) : Prop :=
  stamp = now ∨ 2 ^ 64 - (stamp.toNat - now.toNat) ≤ limit

instance (limit : Nat) (now stamp : UInt64) : Decidable (SparedBy limit now stamp) :=
  inferInstanceAs (Decidable (_ ∨ _))

theorem sparedBy_iff {limit : Nat} {now stamp : UInt64} (h : now ≤ stamp) :
    SparedBy limit now stamp ↔ (now - stamp).toNat ≤ limit := by
  rw [toNat_sub_of_later h, SparedBy]
  split
  · rename_i he
    exact iff_of_true (Or.inl he) (Nat.zero_le _)
  · rename_i hne
    exact or_iff_right hne

/-! ## The three rules -/

theorem peerTimedOut_of_later {now : UInt64} {p : MeshPeer} (h : now ≤ p.lastSeen) :
    peerTimedOut now p = false ↔ SparedBy 15000 now p.lastSeen := by
  rw [sparedBy_iff h, peerTimedOut, decide_eq_false_iff_not, UInt64.not_lt,
    UInt64.le_iff_toNat_le]
  rfl

theorem routeExpired_of_later {now : UInt64} {e : MeshFibEntry} (h : now ≤ e.createdAt) :
    routeExpired now e = false ↔
      e.lifetimeMs = 0 ∨ SparedBy e.lifetimeMs.toNat now e.createdAt := by
  have hzero : ¬ 0 < e.lifetimeMs ↔ e.lifetimeMs = 0 := by
    rw [UInt32.not_lt, UInt32.le_zero_iff]
  rw [sparedBy_iff h, routeExpired, Bool.and_eq_false_iff, decide_eq_false_iff_not,
    decide_eq_false_iff_not, UInt64.not_lt, UInt64.le_iff_toNat_le, UInt32.toNat_toUInt64, hzero]

theorem entryExpired_of_later {now : UInt64} {e : PsirpCsEntry} (h : now ≤ e.timestamp) :
    entryExpired e now = false ↔ e.freshnessMs = 0 ∨
      SparedBy (e.freshnessMs.toNat * 1000000 + 999999) now e.timestamp := by
  have hage : ((now - e.timestamp) / 1000000).toNat = (now - e.timestamp).toNat / 1000000 := by
    rw [UInt64.toNat_div]
    rfl
  rw [sparedBy_iff h, entryExpired]
  split
  · rename_i hzero
    exact iff_of_true rfl (Or.inl hzero)
  · rename_i hpos
    rw [decide_eq_false_iff_not, UInt64.not_lt, UInt64.le_iff_toNat_le, hage,
      UInt32.toNat_toUInt64, or_iff_right hpos]
    omega

/-! ## What is spared -/

/-- Nothing that is stamped at the sample `now` or after is treated as expired. -/
structure LaterStampsKept (ctx : MeshCtx) (cs : PsirpCs) (now : UInt64) : Prop where
  /-- `mesh_check_timeouts` keeps these peers -/
  peers : (meshCheckTimeouts ctx now).2.peers.filter (fun p => now ≤ p.lastSeen) =
    ctx.peers.filter fun p => now ≤ p.lastSeen
  /-- `mesh_fib_prune` keeps these routes -/
  routes : (meshFibPrune ctx now).2.fib.filter (fun e => now ≤ e.createdAt) =
    ctx.fib.filter fun e => now ≤ e.createdAt
  /-- the expiry loop of `psirp_cs_gc` keeps these entries -/
  entries : ((gcLoop now cs.entries.length cs).2.entries.filter fun e => now ≤ e.timestamp).Perm
    (cs.entries.filter fun e => now ≤ e.timestamp)
  /-- a lookup of a version goes no further than to such an entry of it -/
  exact_le : ∀ name i e, name.hasVersion = true → cs.entries[i]? = some e → now ≤ e.timestamp →
    psirpNameEqual e.name name = true → ∃ j ≤ i, (psirpCsLookup cs name now).1 = some j
  /-- a lookup of the newest version returns none that is older than such an entry -/
  newest_le : ∀ name e, name.hasVersion = false → e ∈ cs.entries → now ≤ e.timestamp →
    nameBaseEqual e.name name = true → ∃ j e', (psirpCsLookup cs name now).1 = some j ∧
      cs.entries[j]? = some e' ∧ e.name.version ≤ e'.name.version

/-- Whatever is stamped at the sample `now` or after is spared by the wrapped difference. -/
structure LaterStampsSpared (ctx : MeshCtx) (cs : PsirpCs) (now : UInt64) : Prop where
  /-- the peers -/
  peers : ∀ p ∈ ctx.peers, now ≤ p.lastSeen → SparedBy 15000 now p.lastSeen
  /-- the routes, unless they are permanent -/
  routes : ∀ e ∈ ctx.fib, now ≤ e.createdAt →
    e.lifetimeMs = 0 ∨ SparedBy e.lifetimeMs.toNat now e.createdAt
  /-- the entries, unless they are stored for ever -/
  entries : ∀ e ∈ cs.entries, now ≤ e.timestamp →
    e.freshnessMs = 0 ∨ SparedBy (e.freshnessMs.toNat * 1000000 + 999999) now e.timestamp

section

variable {ctx : MeshCtx} {cs : PsirpCs} {now : UInt64}

theorem peersKept_iff :
    (meshCheckTimeouts ctx now).2.peers.filter (fun p => now ≤ p.lastSeen) =
        ctx.peers.filter (fun p => now ≤ p.lastSeen) ↔
      ∀ p ∈ ctx.peers, now ≤ p.lastSeen → SparedBy 15000 now p.lastSeen := by
  rw [peers_meshCheckTimeouts, filter_filter_eq_iff]
  refine forall₂_congr fun p _ => ?_
  rw [decide_eq_true_eq, Bool.not_eq_true']
  exact forall_congr' fun hlater => peerTimedOut_of_later hlater

theorem routesKept_iff :
    (meshFibPrune ctx now).2.fib.filter (fun e => now ≤ e.createdAt) =
        ctx.fib.filter (fun e => now ≤ e.createdAt) ↔
      ∀ e ∈ ctx.fib, now ≤ e.createdAt →
        e.lifetimeMs = 0 ∨ SparedBy e.lifetimeMs.toNat now e.createdAt := by
  rw [meshFibPrune, fibPruneLoop_eq, sweep_length, filter_filter_eq_iff]
  refine forall₂_congr fun e _ => ?_
  rw [decide_eq_true_eq, Bool.not_eq_true']
  exact forall_congr' fun hlater => routeExpired_of_later hlater

theorem entriesKept_iff :
    ((gcLoop now cs.entries.length cs).2.entries.filter fun e => now ≤ e.timestamp).Perm
        (cs.entries.filter fun e => now ≤ e.timestamp) ↔
      ∀ e ∈ cs.entries, now ≤ e.timestamp → entryExpired e now = false := by
  rw [entries_gcLoop, filter_perm_iff (swapSweep_perm cs.entries)]
  refine forall₂_congr fun e _ => ?_
  rw [decide_eq_true_eq, Bool.not_eq_true']

/-- Lookups pass over expired entries only. -/
theorem lookupIndex_of_live {name : PsirpName} {i : Nat} {e : PsirpCsEntry}
    (hi : cs.entries[i]? = some e) (hlive : entryExpired e now = false) :
    (name.hasVersion = true → psirpNameEqual e.name name = true →
      ∃ j ≤ i, (psirpCsLookup cs name now).1 = some j) ∧
    (name.hasVersion = false → nameBaseEqual e.name name = true →
      ∃ j e', (psirpCsLookup cs name now).1 = some j ∧ cs.entries[j]? = some e' ∧
        e.name.version ≤ e'.name.version) := by
  rw [psirpCsLookup_fst]
  refine ⟨?_, ?_⟩
  · intro hv heq
    rw [lookupIndex, if_pos hv]
    exact findIdx?_le hi (by rw [liveExact, hlive, heq]; rfl)
  · intro hv heq
    have hmem := List.mem_of_getElem? hi
    have hunder : LiveUnder name.components now e := ⟨hlive, nameBaseEqual_iff.mp heq⟩
    obtain ⟨j, hj⟩ := lookupIndex_isSome hv hmem hunder
    obtain ⟨e', he', hnew⟩ := newestLive_of_lookupIndex hv hj
    exact ⟨j, e', hj, he', hnew.version_le hmem hunder⟩

/-- **Items stamped after the sample are kept exactly when** the wrapped difference spares
them. -/
theorem laterStampsKept_iff (ctx : MeshCtx) (cs : PsirpCs) (now : UInt64) :
    LaterStampsKept ctx cs now ↔ LaterStampsSpared ctx cs now := by
  have hlive : (∀ e ∈ cs.entries, now ≤ e.timestamp → entryExpired e now = false) ↔
      ∀ e ∈ cs.entries, now ≤ e.timestamp →
        e.freshnessMs = 0 ∨ SparedBy (e.freshnessMs.toNat * 1000000 + 999999) now e.timestamp :=
    forall₂_congr fun _ _ => forall_congr' fun hlater => entryExpired_of_later hlater
  refine ⟨?_, ?_⟩
  · intro h
    exact ⟨peersKept_iff.mp h.peers, routesKept_iff.mp h.routes,
      hlive.mp (entriesKept_iff.mp h.entries)⟩
  · intro h
    have hentries := hlive.mpr h.entries
    refine ⟨peersKept_iff.mpr h.peers, routesKept_iff.mpr h.routes,
      entriesKept_iff.mpr hentries, ?_, ?_⟩
    · intro name i e hv hi hlater heq
      exact (lookupIndex_of_live hi (hentries e (List.mem_of_getElem? hi) hlater)).1 hv heq
    · intro name e hv he hlater heq
      obtain ⟨i, hi⟩ := List.mem_iff_getElem?.mp he
      exact (lookupIndex_of_live hi (hentries e he hlater)).2 hv heq

end

/-- A beacon that comes a millisecond after the clock was sampled has its peer removed. -/
theorem not_laterStampsKept_sampled :
    ¬ LaterStampsKept (meshAddPeer (meshInit none .null) (text ['/', 'a']) ⟨1, 1⟩ 1).2
      psirpCsInit 0 := by
  intro h
  exact absurd h.peers (by decide +kernel)

end DsoBrowser
