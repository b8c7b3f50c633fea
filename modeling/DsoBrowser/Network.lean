import DsoBrowser.NextHop
import DsoBrowser.Lib.Machine

/-!
# Nodes that exchange packets

A network is a set of nodes with their addresses, and the datagrams in flight. In a step one node
goes through one round of its receive loop, on any datagram in flight to its address or on one
from the multicast group. What the node sends is then in flight; datagrams are delivered in any
order.
-/

namespace DsoBrowser

universe u

/-! ## Sending an Interest -/

/-- What `psirp_net_interest` sends to a peer it is given. -/
theorem psirpNetInterest_out (node : PsirpNode) (name : PsirpName) (dest : PsirpPeer)
    (timeoutMs : UInt32) (env : SendEnv) :
    (psirpNetInterest node name (some dest) timeoutMs env).2.2 = [] ∧
        ¬ (Encodable name ∧ env.sent = true) ∨
      Encodable name ∧ env.sent = true ∧ ∃ interest buf, interest.name = name ∧
        psirpInterestSerialize interest interestBufSize = some buf ∧
        (psirpNetInterest node name (some dest) timeoutMs env).2.2 =
          [⟨dest, .interest interest, buf⟩] := by
  rcases psirpNetInterest_cases node name (some dest) timeoutMs env with
    ⟨hquiet, hnot⟩ | ⟨hfits, hsent, interest, dest', buf, hname, hdest, hbuf, hout⟩
  · refine Or.inl ⟨by rw [hquiet], fun h => hnot ⟨h.1, ?_, h.2⟩⟩
    rw [Option.some_or]
    rfl
  · rw [Option.some_or] at hdest
    obtain rfl := Option.some.inj hdest
    exact Or.inr ⟨hfits, hsent, interest, buf, hname, hbuf, by rw [hout]⟩

/-! ## The network -/

/-- A datagram in flight. -/
structure Flying where
  /-- who sent it -/
  src : PsirpPeer
  /-- where it goes -/
  dest : PsirpPeer
  /-- its bytes -/
  payload : List UInt8
  deriving DecidableEq

/-- Nodes and the datagrams between them. The order of the datagrams plays no part. -/
structure Network (N : Type u) where
  /-- the nodes -/
  node : N → PsirpNode
  /-- the datagrams in flight -/
  flight : List Flying

/-- A round of a node's receive loop. -/
inductive Receipt (N : Type u) where
  /-- on the datagram in flight at a position -/
  | unicast : N → Nat → RecvEnv → Receipt N
  /-- on one from the multicast group -/
  | multicast : N → PsirpPeer → List UInt8 → Receipt N

/-- What a node sends in a step. -/
structure Sent (N : Type u) where
  /-- the node -/
  node : N
  /-- the datagrams -/
  out : List Datagram

section Steps

variable {N : Type u} {addr : N → PsirpPeer}

variable (addr) in
/-- The node that receives a datagram, the datagram, and what the round reads from outside. -/
def Receipt.delivery (net : Network N) : Receipt N → Option (N × Flying × RecvEnv)
  | .unicast v i env =>
    (net.flight[i]?).bind fun m => if m.dest = addr v then some (v, m, env) else none
  | .multicast _ _ _ => none

/-- What is delivered is in flight to the node. -/
theorem delivery_eq_some {net : Network N} {r : Receipt N} {v : N} {m : Flying} {env : RecvEnv}
    (h : r.delivery addr net = some (v, m, env)) :
    ∃ i, r = .unicast v i env ∧ net.flight[i]? = some m ∧ m.dest = addr v := by
  cases r with
  | unicast w i env' =>
    obtain ⟨m', hm, h⟩ := Option.bind_eq_some_iff.mp h
    obtain ⟨hdest, h⟩ := Option.ite_none_right_eq_some.mp h
    cases h
    exact ⟨i, rfl, hm, hdest⟩
  | multicast => cases h

/-- A round on the datagram that is in flight longest, in which transmissions succeed. -/
def oldestRound (v : N) : Receipt N := .unicast v 0 ⟨0, ⟨0, true, 0⟩⟩

variable [DecidableEq N]

variable (addr) in
/-- One round of the receive loop of one node. A datagram that is not there or is not for the node
is not received. -/
def receiveStep (net : Network N) : Receipt N → Sent N × Network N
  | .unicast v i env =>
    match Receipt.delivery addr net (.unicast v i env) with
    | none => (⟨v, []⟩, net)
    | some (v, m, env) =>
      let (node, out) := recvUnicast (net.node v) m.src m.payload env
      (⟨v, out⟩, {
        node := Function.update net.node v node
        flight := net.flight.eraseIdx i ++ out.map fun d => ⟨addr v, d.dest, d.payload⟩ })
  | .multicast v src buf =>
    (⟨v, []⟩, { net with node := Function.update net.node v (recvMulticast (net.node v) src buf) })

/-- What a round does to the network when a datagram is received. -/
theorem receiveStep_of_delivery {net : Network N} {r : Receipt N} {v : N} {m : Flying}
    {env : RecvEnv} (h : r.delivery addr net = some (v, m, env)) :
    ∃ i, net.flight[i]? = some m ∧
      (receiveStep addr net r).1 = ⟨v, (recvUnicast (net.node v) m.src m.payload env).2⟩ ∧
      (receiveStep addr net r).2 =
        ⟨Function.update net.node v (recvUnicast (net.node v) m.src m.payload env).1,
          net.flight.eraseIdx i ++ (recvUnicast (net.node v) m.src m.payload env).2.map fun d =>
            ⟨addr v, d.dest, d.payload⟩⟩ := by
  obtain ⟨i, rfl, hm, -⟩ := delivery_eq_some h
  refine ⟨i, hm, ?_, ?_⟩ <;>
  · rw [receiveStep, h]

/-- A round without a datagram sends nothing, and leaves the datagrams in flight, the stores and
the routes alone. -/
theorem receiveStep_of_no_delivery {net : Network N} {r : Receipt N}
    (h : r.delivery addr net = none) :
    (receiveStep addr net r).1.out = [] ∧ (receiveStep addr net r).2.flight = net.flight ∧
      ∀ v, ((receiveStep addr net r).2.node v).cs = (net.node v).cs ∧
        ((receiveStep addr net r).2.node v).fib = (net.node v).fib := by
  cases r with
  | unicast w i env =>
    rw [receiveStep, h]
    exact ⟨rfl, rfl, fun v => ⟨rfl, rfl⟩⟩
  | multicast w src buf =>
    refine ⟨rfl, rfl, fun v => ?_⟩
    change (Function.update net.node w (recvMulticast (net.node w) src buf) v).cs = _ ∧
      (Function.update net.node w (recvMulticast (net.node w) src buf) v).fib = _
    rcases eq_or_ne v w with rfl | hv
    · rw [Function.update_self]
      exact recvMulticast_node _ _ _
    · rw [Function.update_of_ne hv]
      exact ⟨rfl, rfl⟩

end Steps

/-- The addresses of two nodes. -/
def addrX : Bool → PsirpPeer
  | true => ⟨2, 1⟩
  | false => ⟨1, 1⟩

/-- An Interest for `/x` on its way from `3:1` to `1:1`. -/
def flyingX : Flying :=
  ⟨⟨3, 1⟩, ⟨1, 1⟩, (psirpInterestSerialize ⟨nameX, 7, 4000⟩ interestBufSize).getD []⟩

end DsoBrowser
