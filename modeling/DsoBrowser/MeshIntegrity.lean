import DsoBrowser.MeshTables
import DsoBrowser.StoredNames
import DsoBrowser.Lib.Machine
import DsoBrowser.Lib.Positions

/-!
# Referential integrity of the mesh tables

Routes refer to peers by their position in the peer table, which moves whenever a peer is removed.
Whatever the mesh is asked to do, the tables stay within their bounds, every route refers to a
peer that is there, and no two routes are the same (`meshIntegrity_of_run`).

The **invariant** is `MeshIntegrity`. Removing a peer keeps it because its routes go first, all of
them (`meshRemovePeer_eq`), and the others follow the peers they refer to
(`meshRemovePeer_designates`), so that different routes stay different.
-/

namespace DsoBrowser

open Positions Table

/-! ## The interface -/

/-- A call on a mesh context, with the clock readings it makes. -/
inductive MeshOp where
  /-- `mesh_init` -/
  | init : Option PsirpNode → MeshStore → MeshOp
  /-- `mesh_add_peer` -/
  | addPeer : CString → PsirpPeer → UInt64 → MeshOp
  /-- `mesh_remove_peer` -/
  | removePeer : Nat → MeshOp
  /-- `mesh_peer_seen` -/
  | peerSeen : Nat → UInt64 → MeshOp
  /-- `mesh_check_timeouts` -/
  | checkTimeouts : UInt64 → MeshOp
  /-- `mesh_add_fib` -/
  | addFib : PsirpName → Nat → UInt32 → UInt64 → MeshOp
  /-- `mesh_remove_fib` -/
  | removeFib : Nat → MeshOp
  /-- `mesh_fib_prune` -/
  | fibPrune : UInt64 → MeshOp
  /-- `mesh_process_beacon` -/
  | processBeacon : CString → Nat → PsirpPeer → (Nat → UInt64) → MeshOp

/-- What a call returns. -/
inductive MeshAnswer where
  /-- nothing -/
  | done : MeshAnswer
  /-- a verdict -/
  | verdict : Bool → MeshAnswer
  /-- a position, `none` for `-1` -/
  | index : Option Nat → MeshAnswer
  /-- a number of rows removed -/
  | removed : Nat → MeshAnswer

/-- One call. -/
def meshStep (ctx : MeshCtx) : MeshOp → MeshAnswer × MeshCtx
  | .init node cs => (.done, meshInit node cs)
  | .addPeer name addr now =>
    let (i, ctx') := meshAddPeer ctx name addr now
    (.index i, ctx')
  | .removePeer peerIndex => (.done, meshRemovePeer ctx peerIndex)
  | .peerSeen peerIndex now => (.done, meshPeerSeen ctx peerIndex now)
  | .checkTimeouts now =>
    let (n, ctx') := meshCheckTimeouts ctx now
    (.removed n, ctx')
  | .addFib pfx peerIndex lifetimeMs now =>
    let (ok, ctx') := meshAddFib ctx pfx peerIndex lifetimeMs now
    (.verdict ok, ctx')
  | .removeFib fibIndex => (.done, meshRemoveFib ctx fibIndex)
  | .fibPrune now =>
    let (n, ctx') := meshFibPrune ctx now
    (.removed n, ctx')
  | .processBeacon data dataLen src now =>
    let (ok, ctx') := meshProcessBeacon ctx data dataLen src now
    (.verdict ok, ctx')

/-! ## Removing -/

/-- The position of a route's peer after the peer at `p` is removed. -/
def reindex (p : Nat) (e : MeshFibEntry) : MeshFibEntry :=
  { e with peerIndex := closeGap p e.peerIndex }

/-- The loop over the routes takes out those of the peer. -/
theorem removeRoutesLoop_eq (peerIndex i : Nat) (ctx : MeshCtx) :
    removeRoutesLoop peerIndex i ctx =
      { ctx with fib := sweep (fun e => decide (e.peerIndex = peerIndex)) i ctx.fib } := by
  induction i generalizing ctx with
  | zero => rfl
  | succ i ih =>
    rw [removeRoutesLoop, sweep]
    split
    · exact ih _
    · exact ih _

/-- The loop of `mesh_fib_prune` takes out the expired routes. -/
theorem fibPruneLoop_eq (now : UInt64) (i : Nat) (ctx : MeshCtx) :
    (fibPruneLoop now i ctx).2 = { ctx with fib := sweep (routeExpired now) i ctx.fib } := by
  induction i generalizing ctx with
  | zero => rfl
  | succ i ih =>
    rw [fibPruneLoop, sweep]
    split
    · exact ih _
    · exact ih _

/-- **Removing a peer** takes out its routes and moves the others along. -/
theorem meshRemovePeer_eq {ctx : MeshCtx} {peerIndex : Nat} (h : peerIndex < ctx.peers.length) :
    meshRemovePeer ctx peerIndex = { ctx with
      peers := ctx.peers.eraseIdx peerIndex
      fib := (ctx.fib.filter fun e => !decide (e.peerIndex = peerIndex)).map (reindex peerIndex) } := by
  have hmove : (fun e : MeshFibEntry =>
      if peerIndex < e.peerIndex then { e with peerIndex := e.peerIndex - 1 } else e) =
        reindex peerIndex := by
    funext e
    rw [reindex, closeGap]
    split <;> rfl
  rw [meshRemovePeer, if_neg (Nat.not_le.mpr h), removeRoutesLoop_eq, sweep_length]
  simp only [hmove]

/-- **Routes follow their peers.** A route that stays refers to the peer it referred to before. -/
theorem meshRemovePeer_designates {ctx : MeshCtx} {peerIndex : Nat}
    (h : peerIndex < ctx.peers.length) {e' : MeshFibEntry}
    (he' : e' ∈ (meshRemovePeer ctx peerIndex).fib) :
    ∃ e ∈ ctx.fib, e.peerIndex ≠ peerIndex ∧ e' = reindex peerIndex e ∧
      (meshRemovePeer ctx peerIndex).peers[e'.peerIndex]? = ctx.peers[e.peerIndex]? := by
  rw [meshRemovePeer_eq h] at he' ⊢
  obtain ⟨e, he, rfl⟩ := List.mem_map.mp he'
  obtain ⟨hmem, hne⟩ := List.mem_filter.mp he
  have hne' : e.peerIndex ≠ peerIndex := by simpa using hne
  exact ⟨e, hmem, hne', rfl, getElem?_eraseIdx_closeGap ctx.peers hne'⟩

/-! ## The invariant -/

/-- Two routes for the same prefix to the same peer. -/
def SameRoute (e f : MeshFibEntry) : Prop :=
  psirpNameEqual e.pfx f.pfx = true ∧ e.peerIndex = f.peerIndex

/-- The tables are within their bounds and the routes refer to peers, no two in the same way. -/
structure MeshIntegrity (ctx : MeshCtx) : Prop where
  /-- the peer table has its size -/
  peers_le : ctx.peers.length ≤ meshMaxPeers
  /-- the forwarding table has its size -/
  fib_le : ctx.fib.length ≤ meshMaxFib
  /-- routes refer to peers -/
  index_lt : ∀ e ∈ ctx.fib, e.peerIndex < ctx.peers.length
  /-- routes are different -/
  distinct : ctx.fib.Pairwise fun e f => ¬ SameRoute e f

/-- What tells routes apart. -/
def routeKey (e : MeshFibEntry) : UInt64 × List CString × Nat :=
  (e.pfx.hash, e.pfx.components, e.peerIndex)

theorem sameRoute_iff {e f : MeshFibEntry} : SameRoute e f ↔ routeKey e = routeKey f := by
  rw [SameRoute, psirpNameEqual_iff, routeKey, routeKey, Prod.mk.injEq, Prod.mk.injEq, and_assoc]

/-- The routes are different if their keys are. -/
theorem distinct_iff_keyed {fib : List MeshFibEntry} :
    fib.Pairwise (fun e f => ¬ SameRoute e f) ↔ Keyed routeKey fib := by
  rw [Keyed, List.Nodup, List.pairwise_map]
  simp only [sameRoute_iff, ne_eq]

section Steps

variable {ctx : MeshCtx}

theorem meshIntegrity_init (node : Option PsirpNode) (cs : MeshStore) :
    MeshIntegrity (meshInit node cs) where
  peers_le := Nat.zero_le _
  fib_le := Nat.zero_le _
  index_lt _ he := absurd he List.not_mem_nil
  distinct := List.Pairwise.nil

/-- The tables, of which there are never fewer peers and never more routes. -/
theorem MeshIntegrity.of_sublist (h : MeshIntegrity ctx) {ctx' : MeshCtx}
    (hle : ctx'.peers.length ≤ meshMaxPeers) (hpeers : ctx.peers.length ≤ ctx'.peers.length)
    (hfib : ctx'.fib.Sublist ctx.fib) : MeshIntegrity ctx' where
  peers_le := hle
  fib_le := hfib.length_le.trans h.fib_le
  index_lt e he := (h.index_lt e (hfib.subset he)).trans_le hpeers
  distinct := h.distinct.sublist hfib

theorem MeshIntegrity.removeFib (h : MeshIntegrity ctx) (fibIndex : Nat) :
    MeshIntegrity (meshRemoveFib ctx fibIndex) :=
  h.of_sublist h.peers_le le_rfl (List.eraseIdx_sublist ..)

theorem MeshIntegrity.fibPrune (h : MeshIntegrity ctx) (now : UInt64) :
    MeshIntegrity (meshFibPrune ctx now).2 := by
  rw [meshFibPrune, fibPruneLoop_eq, sweep_length]
  exact h.of_sublist h.peers_le le_rfl List.filter_sublist

theorem MeshIntegrity.modifyPeer (h : MeshIntegrity ctx) (i : Nat) (f : MeshPeer → MeshPeer) :
    MeshIntegrity { ctx with peers := ctx.peers.modify i f } := by
  have hlen : (ctx.peers.modify i f).length = ctx.peers.length := List.length_modify ..
  exact h.of_sublist (hlen.trans_le h.peers_le) hlen.ge (List.Sublist.refl _)

theorem MeshIntegrity.peerSeen (h : MeshIntegrity ctx) (peerIndex : Nat) (now : UInt64) :
    MeshIntegrity (meshPeerSeen ctx peerIndex now) :=
  h.modifyPeer peerIndex _

theorem MeshIntegrity.addPeer (h : MeshIntegrity ctx) (name : CString) (addr : PsirpPeer)
    (now : UInt64) : MeshIntegrity (meshAddPeer ctx name addr now).2 := by
  rw [meshAddPeer]
  split
  · exact h
  · rename_i hroom
    split
    · exact h.modifyPeer _ _
    · have hlen : (ctx.peers ++ [newPeer name addr now]).length = ctx.peers.length + 1 := by
        rw [List.length_append, List.length_singleton]
      exact h.of_sublist (hlen.trans_le (Nat.not_le.mp hroom)) (hlen.ge.trans' (Nat.le_succ _))
        (List.Sublist.refl _)

/-- **A route that is added** is new, and refers to a peer. -/
theorem MeshIntegrity.addFib (h : MeshIntegrity ctx) (pfx : PsirpName) (peerIndex : Nat)
    (lifetimeMs : UInt32) (now : UInt64) :
    MeshIntegrity (meshAddFib ctx pfx peerIndex lifetimeMs now).2 := by
  have hkeyed := distinct_iff_keyed.mp h.distinct
  rw [meshAddFib]
  split
  · exact h
  · rename_i hok
    obtain ⟨hpeer, hroom⟩ := not_or.mp hok
    split
    · -- a refresh touches no key
      rename_i i _
      have hlen : ∀ f : MeshFibEntry → MeshFibEntry,
          (ctx.fib.modify i f).length = ctx.fib.length := fun f => List.length_modify ..
      refine ⟨h.peers_le, (hlen _).trans_le h.fib_le, fun e he => ?_,
        distinct_iff_keyed.mpr (hkeyed.modify fun _ => rfl)⟩
      rcases mem_modify he with he | ⟨e₀, he₀, rfl⟩
      · exact h.index_lt e he
      · exact h.index_lt e₀ (List.mem_of_getElem? he₀)
    · rename_i hnone
      have hnew : ∀ e ∈ ctx.fib, routeKey e ≠ routeKey ⟨pfx, peerIndex, lifetimeMs, now⟩ := by
        intro e he hkey
        have hmiss := List.findIdx?_eq_none_iff.mp hnone e he
        obtain ⟨heq, hindex⟩ := sameRoute_iff.mpr hkey
        simp [isRoute, heq, hindex] at hmiss
      refine ⟨h.peers_le, ?_, fun e he => ?_, distinct_iff_keyed.mpr (hkeyed.concat hnew)⟩
      · rw [List.length_append, List.length_singleton]
        exact Nat.not_le.mp hroom
      · rcases List.mem_append.mp he with he | he
        · exact h.index_lt e he
        · rw [List.mem_singleton.mp he]
          exact Nat.not_le.mp hpeer

/-- **Removing a peer** keeps the routes apart, because those to it are gone. -/
theorem MeshIntegrity.removePeer (h : MeshIntegrity ctx) (peerIndex : Nat) :
    MeshIntegrity (meshRemovePeer ctx peerIndex) := by
  rcases Nat.lt_or_ge peerIndex ctx.peers.length with hlt | hge
  · have hlen : (ctx.peers.eraseIdx peerIndex).length = ctx.peers.length - 1 :=
      List.length_eraseIdx_of_lt hlt
    have hother : ∀ e ∈ ctx.fib.filter (fun e => !decide (e.peerIndex = peerIndex)),
        e ∈ ctx.fib ∧ e.peerIndex ≠ peerIndex := fun e he => by simpa using he
    rw [meshRemovePeer_eq hlt]
    refine ⟨?_, ?_, fun e he => ?_, ?_⟩
    · exact hlen.trans_le ((Nat.sub_le _ _).trans h.peers_le)
    · rw [List.length_map]
      exact List.filter_sublist.length_le.trans h.fib_le
    · obtain ⟨e₀, he₀, rfl⟩ := List.mem_map.mp he
      obtain ⟨hmem, hne⟩ := hother e₀ he₀
      exact hlen ▸ closeGap_lt hlt hne (h.index_lt e₀ hmem)
    · -- two routes that were made the same were the same before
      rw [List.pairwise_map]
      refine List.Pairwise.imp_of_mem ?_ (h.distinct.sublist List.filter_sublist)
      intro e f he hf hdistinct hsame
      exact hdistinct ⟨hsame.1, closeGap_inj (hother e he).2 (hother f hf).2 hsame.2⟩
  · rw [meshRemovePeer, if_pos hge]
    exact h

theorem MeshIntegrity.checkTimeouts (h : MeshIntegrity ctx) (now : UInt64) :
    MeshIntegrity (meshCheckTimeouts ctx now).2 := by
  have hloop : ∀ (i : Nat) (ctx : MeshCtx), MeshIntegrity ctx →
      MeshIntegrity (checkTimeoutsLoop now i ctx).2 := by
    intro i
    induction i with
    | zero => exact fun _ h => h
    | succ i ih =>
      intro ctx h
      rw [checkTimeoutsLoop]
      split
      · exact ih _ (h.removePeer i)
      · exact ih _ h
  exact hloop _ _ h

/-- A beacon's prefixes are routed to a peer that is there. -/
theorem MeshIntegrity.announceLoop (peerIndex : Nat) (now : Nat → UInt64) (fuel : Nat) :
    ∀ (prefixes : CString) (count : Nat) {ctx : MeshCtx}, MeshIntegrity ctx →
      MeshIntegrity (announceLoop peerIndex now fuel prefixes count ctx) := by
  induction fuel with
  | zero => exact fun _ _ _ h => h
  | succ fuel ih =>
    intro prefixes count ctx h
    cases prefixes with
    | nil => exact h
    | cons c cs =>
      rw [DsoBrowser.announceLoop]
      split
      · simp only
        split
        · exact ih _ _ h
        · exact ih _ _ ((h.modifyPeer _ _).addFib _ _ _ _)
      · exact h

theorem MeshIntegrity.processBeacon (h : MeshIntegrity ctx) (data : CString) (dataLen : Nat)
    (src : PsirpPeer) (now : Nat → UInt64) :
    MeshIntegrity (meshProcessBeacon ctx data dataLen src now).2 := by
  rw [meshProcessBeacon]
  split
  · exact h
  · split
    · exact h
    · simp only
      split
      · exact h
      · rename_i prefixes _
        have hadd := h.addPeer (((data.drop beaconHeader.length).takeWhile (· ≠ bar)).take
          (peerNameBufSize - 1)) src (now 0)
        split
        · rename_i ctx' hctx'
          rwa [hctx'] at hadd
        · rename_i i ctx' hctx'
          rw [hctx'] at hadd
          have hgreeted := (hadd.peerSeen i (now 1)).modifyPeer i fun p => { p with prefixes := [] }
          obtain ⟨hpeers, hfib, hindex, hdistinct⟩ := MeshIntegrity.announceLoop i
            (fun k => now (k + 2)) prefixes.length prefixes 0 hgreeted
          exact ⟨hpeers, hfib, hindex, hdistinct⟩

/-- **Step.** Every call keeps the invariant. -/
theorem MeshIntegrity.step (h : MeshIntegrity ctx) (op : MeshOp) :
    MeshIntegrity (meshStep ctx op).2 := by
  cases op with
  | init node cs => exact meshIntegrity_init node cs
  | addPeer name addr now => exact h.addPeer name addr now
  | removePeer peerIndex => exact h.removePeer peerIndex
  | peerSeen peerIndex now => exact h.peerSeen peerIndex now
  | checkTimeouts now => exact h.checkTimeouts now
  | addFib pfx peerIndex lifetimeMs now => exact h.addFib pfx peerIndex lifetimeMs now
  | removeFib fibIndex => exact h.removeFib fibIndex
  | fibPrune now => exact h.fibPrune now
  | processBeacon data dataLen src now => exact h.processBeacon data dataLen src now

end Steps

/-- **Integrity.** It holds whatever is called on a context, in any order. -/
theorem meshIntegrity_of_run (node : Option PsirpNode) (cs : MeshStore) (ops : List MeshOp) :
    MeshIntegrity (Machine.exec meshStep (meshInit node cs) ops) :=
  Machine.exec_inv (P := fun _ _ => True) (fun _ op h _ => h.step op) (meshIntegrity_init node cs)
    (Machine.along_input.mpr fun _ _ => trivial)

end DsoBrowser
