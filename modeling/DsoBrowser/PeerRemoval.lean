import DsoBrowser.MeshIntegrity

/-!
# Removing peers keeps the routes of the others

`mesh_remove_peer` moves the later peers down, takes out the routes of the peer, and moves the
others along; `mesh_check_timeouts` does so again and again while it goes down the table. Read as
a list of prefixes with the peers they lead to, the forwarding table loses the routes of the peers
that are removed and nothing else (`peerRemoval_keepsRoutes`).

Peers are told apart by the positions they had before the call, since two of them may look the
same.
-/

namespace DsoBrowser

open Positions

/-! ## The loop -/

/-- A route, and the position of its peer. -/
def routeRefs (fib : List MeshFibEntry) : List ((PsirpName × UInt32 × UInt64) × Nat) :=
  fib.map fun e => ((e.pfx, e.lifetimeMs, e.createdAt), e.peerIndex)

theorem filter_routeRefs (f : Nat → Bool) (fib : List MeshFibEntry) :
    (routeRefs fib).filter (fun r => f r.2) = routeRefs (fib.filter fun e => f e.peerIndex) :=
  List.filter_map

theorem routeRefs_meshRemovePeer {ctx : MeshCtx} {p : Nat} (h : p < ctx.peers.length) :
    routeRefs (meshRemovePeer ctx p).fib = detach p (routeRefs ctx.fib) := by
  rw [meshRemovePeer_eq h, detach, filter_routeRefs fun i => !decide (i = p), routeRefs, routeRefs,
    List.map_map, List.map_map]
  rfl

/-- The test of `mesh_check_timeouts`. -/
def peerTimedOut (now : UInt64) (p : MeshPeer) : Bool := meshPeerTimeout < now - p.lastSeen

/-- The loop is a sweep over the peers with their routes, and returns how many it took out. The
peers may carry anything to tell them apart. -/
theorem checkTimeoutsLoop_eq {τ : Type*} (now : UInt64) (i : Nat) :
    ∀ {ctx : MeshCtx} {rows : List (MeshPeer × τ)}, i ≤ ctx.peers.length →
      ctx.peers = rows.map Prod.fst →
      let swept := sweepWith (fun r => peerTimedOut now r.1) i (rows, routeRefs ctx.fib)
      (checkTimeoutsLoop now i ctx).2.peers = swept.1.map Prod.fst ∧
        routeRefs (checkTimeoutsLoop now i ctx).2.fib = swept.2 ∧
        (checkTimeoutsLoop now i ctx).1 + (checkTimeoutsLoop now i ctx).2.peers.length =
          ctx.peers.length := by
  induction i with
  | zero => exact fun _ hrows => ⟨hrows, rfl, Nat.zero_add _⟩
  | succ i ih =>
    intro ctx rows hi hrows
    have htest : ((ctx.peers[i]?).any fun p => meshPeerTimeout < now - p.lastSeen) =
        (rows[i]?).any fun r => peerTimedOut now r.1 := by
      rw [hrows, List.getElem?_map, Option.any_map]
      rfl
    rw [checkTimeoutsLoop, sweepWith, htest]
    split
    · have hrefs := routeRefs_meshRemovePeer hi
      have hpeers : (meshRemovePeer ctx i).peers = ctx.peers.eraseIdx i := by
        rw [meshRemovePeer_eq hi]
      have hlen : (meshRemovePeer ctx i).peers.length = ctx.peers.length - 1 := by
        rw [hpeers, List.length_eraseIdx_of_lt hi]
      obtain ⟨hp, hf, hn⟩ := @ih (meshRemovePeer ctx i) (rows.eraseIdx i) (by omega)
        (by rw [hpeers, hrows, List.eraseIdx_map])
      rw [hrefs] at hp hf
      refine ⟨hp, hf, ?_⟩
      dsimp only
      omega
    · exact ih (Nat.le_of_succ_le hi) hrows

/-! ## What is left -/

/-- The peers left, each with the position it had, and the routes left. -/
structure Leaves (ctx ctx' : MeshCtx) (left : List (MeshPeer × Nat)) (routes : List MeshFibEntry) :
    Prop where
  /-- the peer table is these peers -/
  peers_eq : ctx'.peers = left.map Prod.fst
  /-- the forwarding table is these routes, to the peers they led to -/
  routes_eq : follow left (routeRefs ctx'.fib) = follow ctx.peers.zipIdx (routeRefs routes)

theorem leaves_meshRemovePeer {ctx : MeshCtx} {p : Nat} (h : p < ctx.peers.length) :
    Leaves ctx (meshRemovePeer ctx p) (ctx.peers.zipIdx.eraseIdx p)
      (ctx.fib.filter fun e => e.peerIndex ≠ p) where
  peers_eq := by
    rw [← List.eraseIdx_map, List.zipIdx_map_fst, meshRemovePeer_eq h]
  routes_eq := by
    rw [routeRefs_meshRemovePeer h, follow_detach, filter_routeRefs fun i => !decide (i = p)]
    simp only [ne_eq, decide_not]

/-- What `mesh_check_timeouts` leaves, whatever the clock reads. -/
theorem leaves_meshCheckTimeouts (ctx : MeshCtx) (now : UInt64) :
    Leaves ctx (meshCheckTimeouts ctx now).2
      (ctx.peers.zipIdx.filter fun r => !peerTimedOut now r.1)
      (ctx.fib.filter fun e => !(ctx.peers[e.peerIndex]?).any (peerTimedOut now)) := by
  have hrows : ctx.peers = ctx.peers.zipIdx.map Prod.fst := (List.zipIdx_map_fst 0 _).symm
  have hlen : ctx.peers.length = ctx.peers.zipIdx.length := List.length_zipIdx.symm
  have hdesignated : ∀ i : Nat,
      (ctx.peers.zipIdx[i]?).any (fun r : MeshPeer × Nat => peerTimedOut now r.1) =
        (ctx.peers[i]?).any (peerTimedOut now) := by
    intro i
    rw [List.getElem?_zipIdx, Option.any_map]
  obtain ⟨hp, hf, -⟩ := checkTimeoutsLoop_eq now ctx.peers.length le_rfl hrows
  refine ⟨?_, ?_⟩
  · rw [meshCheckTimeouts, hp, sweepWith_fst, hlen, sweep_length]
  · rw [meshCheckTimeouts, hf, hlen, follow_sweepWith]
    simp only [hdesignated]
    rw [filter_routeRefs fun i => !(ctx.peers[i]?).any (peerTimedOut now)]

theorem peers_meshCheckTimeouts (ctx : MeshCtx) (now : UInt64) :
    (meshCheckTimeouts ctx now).2.peers = ctx.peers.filter fun p => !peerTimedOut now p := by
  rw [(leaves_meshCheckTimeouts ctx now).peers_eq]
  have hmap := List.filter_map (f := Prod.fst) (p := fun p => !peerTimedOut now p)
    (l := ctx.peers.zipIdx)
  rw [List.zipIdx_map_fst] at hmap
  exact hmap.symm

theorem meshCheckTimeouts_fst (ctx : MeshCtx) (now : UInt64) :
    (meshCheckTimeouts ctx now).1 = ctx.peers.countP (peerTimedOut now) := by
  obtain ⟨-, -, hn⟩ := checkTimeoutsLoop_eq now ctx.peers.length le_rfl
    (List.zipIdx_map_fst 0 ctx.peers).symm
  have hkept := congrArg List.length (peers_meshCheckTimeouts ctx now)
  rw [← List.countP_eq_length_filter] at hkept
  have hsplit := List.length_eq_countP_add_countP (peerTimedOut now) (l := ctx.peers)
  simp only [Bool.not_eq_true, Bool.decide_eq_false] at hsplit
  rw [meshCheckTimeouts] at hkept ⊢
  omega

/-! ## With a clock that has not gone back -/

/-- The peer was seen within the last 15 seconds. -/
def SeenLately (now : UInt64) (p : MeshPeer) : Prop := now.toNat - p.lastSeen.toNat ≤ 15000

instance (now : UInt64) (p : MeshPeer) : Decidable (SeenLately now p) :=
  inferInstanceAs (Decidable (_ ≤ _))

theorem peerTimedOut_of_le {now : UInt64} {p : MeshPeer} (h : p.lastSeen ≤ now) :
    peerTimedOut now p = !decide (SeenLately now p) := by
  rw [← decide_not, peerTimedOut, decide_eq_decide, UInt64.lt_iff_toNat_lt,
    UInt64.toNat_sub_of_le _ _ h]
  exact Nat.not_le.symm

/-- **Removing peers keeps everyone else's routes.** -/
theorem peerRemoval_keepsRoutes {ctx : MeshCtx}
    (hindex : ∀ e ∈ ctx.fib, e.peerIndex < ctx.peers.length) :
    (∀ p < ctx.peers.length,
      (meshRemovePeer ctx p).peers = ctx.peers.eraseIdx p ∧
        Leaves ctx (meshRemovePeer ctx p) (ctx.peers.zipIdx.eraseIdx p)
          (ctx.fib.filter fun e => e.peerIndex ≠ p)) ∧
    ∀ now, (∀ p ∈ ctx.peers, p.lastSeen ≤ now) →
      let (removed, ctx') := meshCheckTimeouts ctx now
      ctx'.peers = ctx.peers.filter (fun p => SeenLately now p) ∧
        Leaves ctx ctx' (ctx.peers.zipIdx.filter fun r => SeenLately now r.1)
          (ctx.fib.filter fun e => (ctx.peers[e.peerIndex]?).any fun p => SeenLately now p) ∧
        removed = ctx.peers.countP fun p => ¬ SeenLately now p := by
  refine ⟨fun p hp => ⟨by rw [meshRemovePeer_eq hp], leaves_meshRemovePeer hp⟩, ?_⟩
  intro now hclock
  have htest : ∀ p ∈ ctx.peers, (!peerTimedOut now p) = decide (SeenLately now p) := by
    intro p hp
    rw [peerTimedOut_of_le (hclock p hp), Bool.not_not]
  have hleft : (ctx.peers.zipIdx.filter fun r => !peerTimedOut now r.1) =
      ctx.peers.zipIdx.filter fun r => SeenLately now r.1 :=
    List.filter_congr fun r hr => htest r.1 (List.fst_mem_of_mem_zipIdx hr)
  have hroutes : (ctx.fib.filter fun e => !(ctx.peers[e.peerIndex]?).any (peerTimedOut now)) =
      ctx.fib.filter fun e => (ctx.peers[e.peerIndex]?).any fun p => SeenLately now p := by
    refine List.filter_congr fun e he => ?_
    rw [List.getElem?_eq_getElem (hindex e he), Option.any_some, Option.any_some]
    exact htest _ (List.getElem_mem _)
  have hleaves := leaves_meshCheckTimeouts ctx now
  rw [hleft, hroutes] at hleaves
  refine ⟨?_, hleaves, ?_⟩
  · exact (peers_meshCheckTimeouts ctx now).trans (List.filter_congr htest)
  · refine (meshCheckTimeouts_fst ctx now).trans (List.countP_congr fun p hp => ?_)
    rw [peerTimedOut_of_le (hclock p hp), ← decide_not]

/-- A peer last seen at `0` and one seen at `20000`, with a route for `/x` to each. -/
def twoPeers : MeshCtx :=
  let x := (psirpNameInit (text ['/', 'x'])).2
  let ctx := (meshAddPeer (meshInit none .null) (text ['/', 'a']) ⟨1, 1⟩ 0).2
  let ctx := (meshAddPeer ctx (text ['/', 'b']) ⟨2, 2⟩ 20000).2
  (meshAddFib (meshAddFib ctx x 0 0 5).2 x 1 0 6).2

theorem peerRemoval_keepsRoutes_twoPeers :
    Leaves twoPeers (meshRemovePeer twoPeers 0) (twoPeers.peers.zipIdx.eraseIdx 0)
        (twoPeers.fib.filter fun e => e.peerIndex ≠ 0) ∧
      (meshCheckTimeouts twoPeers 20000).1 = 1 := by
  have hkeeps := @peerRemoval_keepsRoutes twoPeers (by decide +kernel)
  exact ⟨(hkeeps.1 0 (by decide +kernel)).2,
    (hkeeps.2 20000 (by decide +kernel)).2.2.trans (by decide +kernel)⟩

end DsoBrowser
