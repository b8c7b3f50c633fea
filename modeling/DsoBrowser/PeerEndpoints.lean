import DsoBrowser.NextHop
import DsoBrowser.Lib.Machine

/-!
# Where known peers are addressed

The peer table of a node is filled by `psirp_net_add_peer`, which swaps the bytes of the port it
is given: right for a configured port, which is in host order. The receiver thread calls it with
the port of a PUBLISH datagram's sender, which is in network order already. A fetch and a
publication send to what the table holds.

The table is run together with where each entry came from. It never holds an endpoint twice, and
every peer is addressed at the endpoint it was configured with or announced itself from exactly
when every sender that got into the table by a PUBLISH has a port of two equal bytes
(`addressedAsAnnounced_iff`).
-/

namespace DsoBrowser

open Machine

/-- `psirp_net_init`, with or without a multicast socket -/
def psirpNetInit (cs : PsirpCs) (hasMcast : Bool) : PsirpNode :=
  ⟨cs, hasMcast, [], [], [], 0, 0, 0, 0⟩

/-! ## The table and its history -/

/-- How a peer got into the table. -/
inductive PeerOrigin where
  /-- configured with an address and a port in host order -/
  | configured : UInt32 → UInt16 → PeerOrigin
  /-- a PUBLISH datagram from this source, with the port in network order -/
  | published : PsirpPeer → PeerOrigin

/-- Where the peer is to be reached, with the port in network order. -/
def PeerOrigin.endpoint : PeerOrigin → PsirpPeer
  | .configured ip port => ⟨ip, htons port⟩
  | .published src => src

/-- What happens to a node. -/
inductive NetOp where
  /-- `psirp_net_add_peer` on a configured endpoint -/
  | addPeer : UInt32 → UInt16 → NetOp
  /-- the receive loop, on a unicast datagram -/
  | unicast : PsirpPeer → List UInt8 → RecvEnv → NetOp
  /-- the receive loop, on a multicast datagram -/
  | multicast : PsirpPeer → List UInt8 → NetOp

/-- One step, with the datagrams it sends. -/
def endpointStep (node : PsirpNode) : NetOp → List Datagram × PsirpNode
  | .addPeer ip port => ([], (psirpNetAddPeer node ip port).2)
  | .unicast src buf env => ((recvUnicast node src buf env).2, (recvUnicast node src buf env).1)
  | .multicast src buf => ([], recvMulticast node src buf)

/-- The origin of the peer a step adds, if it adds one. -/
def NetOp.origin : NetOp → Option PeerOrigin
  | .addPeer ip port => some (.configured ip port)
  | .unicast _ _ _ => none
  | .multicast src _ => some (.published src)

/-- A node, with the origin of each known peer. -/
structure PeerLog where
  /-- the node -/
  node : PsirpNode
  /-- the origins, in the order of the peers -/
  origins : List PeerOrigin

/-- One step, which notes the origin of a peer it adds. -/
def logStep (s : PeerLog) (op : NetOp) : List Datagram × PeerLog :=
  let (out, node) := endpointStep s.node op
  (out, ⟨node, if node.peers.length = s.node.peers.length then s.origins
    else s.origins ++ op.origin.toList⟩)

/-- Every known peer is addressed where it announced itself. -/
structure AddressedAsAnnounced (s : PeerLog) : Prop where
  /-- no endpoint twice -/
  nodup : s.node.peers.Nodup
  /-- the table holds the endpoints -/
  peers_eq : s.node.peers = s.origins.map PeerOrigin.endpoint
  /-- a fetch that asks known peers asks them there -/
  fetch : ∀ name timeoutMs env addr, s.node.peers ≠ [] →
    (Asked (psirpNetFetch s.node name timeoutMs env).2.2 name addr ↔
      lookupEntry s.node.cs name env.firstNow = none ∧ Encodable name ∧
        ∃ i o, s.origins[i]? = some o ∧ (env.send i).sent = true ∧ addr = o.endpoint)
  /-- and a publication is sent there -/
  publish : ∀ name data freshnessMs env dg,
    dg ∈ (psirpNetPublish s.node name data freshnessMs env).2.2 →
      ∃ i o, s.origins[i]? = some o ∧ env.sent i = true ∧ dg.dest = o.endpoint

/-! ## What a step adds -/

theorem psirpNetAddPeer_cases (node : PsirpNode) (ip : UInt32) (port : UInt16) :
    ((psirpNetAddPeer node ip port).2 = node ∧
      (psirpMaxPeers ≤ node.peers.length ∨ ⟨ip, htons port⟩ ∈ node.peers)) ∨
    (node.peers.length < psirpMaxPeers ∧ ⟨ip, htons port⟩ ∉ node.peers ∧
      (psirpNetAddPeer node ip port).2 =
        { node with peers := node.peers ++ [⟨ip, htons port⟩] }) := by
  rw [psirpNetAddPeer]
  split
  · rename_i hfull
    exact Or.inl ⟨rfl, Or.inl hfull⟩
  · rename_i hroom
    split
    · rename_i hknown
      exact Or.inl ⟨rfl, Or.inr (List.contains_iff_mem.mp hknown)⟩
    · rename_i hnew
      exact Or.inr ⟨Nat.not_le.mp hroom, fun h => hnew (List.contains_iff_mem.mpr h), rfl⟩

theorem peers_recvUnicast (node : PsirpNode) (src : PsirpPeer) (buf : List UInt8) (env : RecvEnv) :
    (recvUnicast node src buf env).1.peers = node.peers := by
  rcases recvUnicast_cases node src buf env with ⟨interest, -, h⟩ | ⟨data, -, h⟩ | h
  · rw [h, recvInterest, PsirpNode.lookup]
    rcases lookupEntry node.cs interest.name env.now with _ | entry
    · dsimp only
      split
      · rfl
      · rename_i fwd _
        obtain ⟨-, -, hpeers, -⟩ := psirpNetInterest_node
          { node with cs := (psirpCsLookup node.cs interest.name env.now).2 } interest.name
          (some fwd) interest.lifetimeMs env.send
        exact hpeers
    · rfl
  · rw [h]
    rfl
  · rw [h]

/-- The endpoint a step adds to the table, if it adds one: the port of a sender is swapped like a
configured one. -/
def NetOp.added (node : PsirpNode) : NetOp → Option PsirpPeer
  | .addPeer ip port =>
    if node.peers.length < psirpMaxPeers ∧ ⟨ip, htons port⟩ ∉ node.peers then
      some ⟨ip, htons port⟩
    else none
  | .unicast _ _ _ => none
  | .multicast src buf =>
    if node.hasMcast = true ∧ buf.head? = some psirpPktPublish ∧
        node.peers.length < psirpMaxPeers ∧ ⟨src.ip, htons src.port⟩ ∉ node.peers then
      some ⟨src.ip, htons src.port⟩
    else none

/-- What a step adds is not in the table yet, and nothing else changes there. -/
theorem peers_endpointStep (node : PsirpNode) (op : NetOp) :
    (endpointStep node op).2.peers = node.peers ++ (op.added node).toList := by
  cases op with
  | addPeer ip port =>
    rw [endpointStep, NetOp.added]
    rcases psirpNetAddPeer_cases node ip port with ⟨h, hwhy⟩ | ⟨hroom, hnew, h⟩
    · rw [h, if_neg, Option.toList_none, List.append_nil]
      rintro ⟨hroom, hnew⟩
      exact hwhy.elim (Nat.not_le.mpr hroom) hnew
    · rw [h, if_pos ⟨hroom, hnew⟩]
      rfl
  | unicast src buf env =>
    exact (peers_recvUnicast node src buf env).trans (List.append_nil _).symm
  | multicast src buf =>
    rw [endpointStep, NetOp.added, recvMulticast]
    split
    · rename_i hheard
      rcases psirpNetAddPeer_cases node src.ip src.port with ⟨h, hwhy⟩ | ⟨hroom, hnew, h⟩
      · rw [h, if_neg, Option.toList_none, List.append_nil]
        rintro ⟨-, -, hroom, hnew⟩
        exact hwhy.elim (Nat.not_le.mpr hroom) hnew
      · rw [h, if_pos ⟨hheard.1, hheard.2, hroom, hnew⟩]
        rfl
    · rename_i hnot
      rw [if_neg (fun h => hnot ⟨h.1, h.2.1⟩), Option.toList_none, List.append_nil]

theorem not_mem_of_added {node : PsirpNode} {op : NetOp} {p : PsirpPeer}
    (h : op.added node = some p) : p ∉ node.peers := by
  cases op with
  | addPeer ip port =>
    rw [NetOp.added] at h
    split at h
    · rename_i hadd
      obtain rfl := Option.some.inj h
      exact hadd.2
    · cases h
  | unicast src buf env => cases h
  | multicast src buf =>
    rw [NetOp.added] at h
    split at h
    · rename_i hadd
      obtain rfl := Option.some.inj h
      exact hadd.2.2.2
    · cases h

/-- If the step adds the sender of a PUBLISH datagram to the table, the two bytes of its port are
equal. -/
def SwapFree (s : PeerLog) : NetOp → Prop
  | .multicast src buf =>
    s.node.hasMcast = true → buf.head? = some psirpPktPublish →
      s.node.peers.length < psirpMaxPeers → ⟨src.ip, htons src.port⟩ ∉ s.node.peers →
      htons src.port = src.port
  | _ => True

/-- That is, the endpoint it adds is that of the origin it notes. -/
theorem swapFree_iff {s : PeerLog} {op : NetOp} {p : PsirpPeer} (h : op.added s.node = some p) :
    ∃ o, op.origin = some o ∧ (SwapFree s op ↔ p = o.endpoint) := by
  cases op with
  | addPeer ip port =>
    rw [NetOp.added] at h
    split at h
    · obtain rfl := Option.some.inj h
      exact ⟨_, rfl, iff_of_true trivial rfl⟩
    · cases h
  | unicast src buf env => cases h
  | multicast src buf =>
    rw [NetOp.added] at h
    split at h
    · rename_i hadd
      obtain rfl := Option.some.inj h
      refine ⟨_, rfl, fun hfree => ?_, fun heq _ _ _ _ => congrArg PsirpPeer.port heq⟩
      rw [hfree hadd.1 hadd.2.1 hadd.2.2.1 hadd.2.2.2]
      rfl
    · cases h

/-- A step that adds nothing swaps nothing. -/
theorem swapFree_of_added_none {s : PeerLog} {op : NetOp} (h : op.added s.node = none) :
    SwapFree s op := by
  cases op with
  | addPeer ip port => trivial
  | unicast src buf env => trivial
  | multicast src buf =>
    intro hmcast hhead hroom hnew
    rw [NetOp.added, if_pos ⟨hmcast, hhead, hroom, hnew⟩] at h
    cases h

/-! ## Runs -/

/-- What holds of the table in every run: no endpoint twice, and one origin for each entry. -/
structure PeerLog.Consistent (s : PeerLog) : Prop where
  /-- no endpoint twice -/
  nodup : s.node.peers.Nodup
  /-- an origin for each -/
  length_eq : s.origins.length = s.node.peers.length

/-- **Step.** A step keeps the table consistent, and keeps it addressed as announced exactly if it
swaps no announced port. -/
theorem PeerLog.Consistent.step {s : PeerLog} (h : s.Consistent) (op : NetOp) :
    (logStep s op).2.Consistent ∧
      ((logStep s op).2.node.peers = (logStep s op).2.origins.map PeerOrigin.endpoint ↔
        s.node.peers = s.origins.map PeerOrigin.endpoint ∧ SwapFree s op) := by
  have hpeers := peers_endpointStep s.node op
  have hlog : logStep s op = ((endpointStep s.node op).1, ⟨(endpointStep s.node op).2,
      if (endpointStep s.node op).2.peers.length = s.node.peers.length then s.origins
      else s.origins ++ op.origin.toList⟩) := rfl
  rw [hlog]
  cases hadd : op.added s.node with
  | none =>
    rw [hadd, Option.toList_none, List.append_nil] at hpeers
    dsimp only
    rw [if_pos (congrArg List.length hpeers)]
    refine ⟨⟨by rw [hpeers]; exact h.nodup, by rw [hpeers]; exact h.length_eq⟩, ?_⟩
    rw [hpeers, and_iff_left (swapFree_of_added_none hadd)]
  | some p =>
    rw [hadd, Option.toList_some] at hpeers
    obtain ⟨o, horigin, hfree⟩ := swapFree_iff hadd
    have hlen : ¬ (endpointStep s.node op).2.peers.length = s.node.peers.length := by
      rw [hpeers, List.length_append, List.length_singleton]
      omega
    dsimp only
    rw [if_neg hlen, horigin, Option.toList_some]
    refine ⟨⟨?_, ?_⟩, ?_⟩
    · rw [hpeers, List.nodup_append]
      refine ⟨h.nodup, List.nodup_singleton p, ?_⟩
      rintro q hq q' hq' rfl
      rw [List.mem_singleton.mp hq'] at hq
      exact not_mem_of_added hadd hq
    · rw [hpeers, List.length_append, List.length_append, h.length_eq]
      rfl
    · rw [hpeers, List.map_append, List.map_singleton, hfree]
      constructor
      · intro heq
        obtain ⟨hold, hnew⟩ := List.append_inj' heq rfl
        exact ⟨hold, (List.cons.inj hnew).1⟩
      · rintro ⟨hold, hnew⟩
        rw [hold, hnew]

/-- A table that holds the announced endpoints is used as announced. -/
theorem PeerLog.Consistent.addressed {s : PeerLog} (h : s.Consistent)
    (hpeers : s.node.peers = s.origins.map PeerOrigin.endpoint) : AddressedAsAnnounced s := by
  have hat : ∀ {i : Nat} {addr : PsirpPeer}, s.node.peers[i]? = some addr ↔
      ∃ o, s.origins[i]? = some o ∧ addr = o.endpoint := by
    intro i addr
    rw [hpeers, List.getElem?_map, Option.map_eq_some_iff]
    exact exists_congr fun o => and_congr_right fun _ => eq_comm
  refine ⟨h.nodup, hpeers, ?_, ?_⟩
  · intro name timeoutMs env addr hne
    rw [asked_psirpNetFetch, or_iff_left (fun hnone => hne hnone.1)]
    refine and_congr_right fun _ => and_congr_right fun _ => exists_congr fun i => ?_
    rw [hat]
    exact ⟨fun ⟨⟨o, ho, haddr⟩, hsent⟩ => ⟨o, ho, hsent, haddr⟩,
      fun ⟨o, ho, hsent, haddr⟩ => ⟨⟨o, ho, haddr⟩, hsent⟩⟩
  · intro name data freshnessMs env dg hdg
    rw [psirpNetPublish] at hdg
    split at hdg
    · cases hdg
    · obtain ⟨⟨peer, i⟩, hi, hsend⟩ := List.mem_flatMap.mp hdg
      obtain ⟨hsent, buf, -, rfl⟩ := mem_psirpNetData.mp hsend
      obtain ⟨o, ho, hpeer⟩ := hat.mp (List.mem_zipIdx_iff_getElem?.mp hi)
      exact ⟨i, o, ho, hsent, hpeer⟩

/-- **Known peers are addressed where they announced themselves** exactly when no sender of a
PUBLISH datagram gets into the table with a port that the swap changes. -/
theorem addressedAsAnnounced_iff (cs : PsirpCs) (hasMcast : Bool) (ops : List NetOp) :
    AddressedAsAnnounced (exec logStep ⟨psirpNetInit cs hasMcast, []⟩ ops) ↔
      Along logStep SwapFree ⟨psirpNetInit cs hasMcast, []⟩ ops := by
  have hstart : PeerLog.Consistent ⟨psirpNetInit cs hasMcast, []⟩ := ⟨List.nodup_nil, rfl⟩
  have hinv : ∀ ops, (exec logStep ⟨psirpNetInit cs hasMcast, []⟩ ops).Consistent := fun ops =>
    exec_inv (P := fun _ _ => True) (fun _ op h _ => (h.step op).1) hstart
      (along_input.mpr fun _ _ => trivial)
  have hpeers : (exec logStep ⟨psirpNetInit cs hasMcast, []⟩ ops).node.peers =
      (exec logStep ⟨psirpNetInit cs hasMcast, []⟩ ops).origins.map PeerOrigin.endpoint ↔
      Along logStep SwapFree ⟨psirpNetInit cs hasMcast, []⟩ ops := by
    induction ops using List.reverseRecOn with
    | nil => exact iff_of_true rfl trivial
    | append_singleton ops op ih =>
      rw [exec_append, along_append, ← ih]
      exact ((hinv ops).step op).2.trans (and_congr_right fun _ => (and_iff_left trivial).symm)
  exact ⟨fun h => hpeers.mp h.peers_eq, fun h => (hinv ops).addressed (hpeers.mpr h)⟩

/-- A peer that announces itself from port 9400 is addressed at port 47140. -/
theorem not_addressedAsAnnounced :
    ¬ AddressedAsAnnounced (exec logStep ⟨psirpNetInit psirpCsInit true, []⟩
      [.multicast ⟨0x0100007f, htons 9400⟩ [psirpPktPublish]]) :=
  fun h => absurd h.peers_eq (by decide)

end DsoBrowser
