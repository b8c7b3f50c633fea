import DsoBrowser.NetworkRefinement

/-!
# Content is passed on from node to node

A node that asks a node which holds content gets it in one round trip, whatever else is in flight,
and then holds it itself. So content reaches every node there is a path to along which each node
asks the one before (`relay_delivers`): routers do not have to carry anything back.

The path is followed in the network of contents, where a round trip is one update of one store
(`exec_roundTrip`).
-/

namespace DsoBrowser

open Leases Machine

universe u

/-! ## Round trips -/

/-- A node asks for content and gets it. -/
structure RelayHop (N : Type u) where
  /-- the node that asks -/
  node : N
  /-- the transmission of the Interest -/
  ask : SendEnv
  /-- the round of the receive loop that answers it -/
  answer : RecvEnv
  /-- the round that the answer arrives in -/
  arrive : RecvEnv

section Hops

variable {N : Type u} (addr : N → PsirpPeer)

/-- The steps of a round trip, with `n` other messages in flight. -/
def RelayHop.inputs (n : Nat) (holder : N) (w : WireName) (hop : RelayHop N) :
    List (ContentInput N) :=
  [.interest hop.node w (some (addr holder)) 0 hop.ask, .receive holder n hop.answer,
    .receive hop.node n hop.arrive]

/-- Round trips along a path: each node asks the one before. -/
def relay (n : Nat) (w : WireName) : N → List (RelayHop N) → List (ContentInput N)
  | _, [] => []
  | holder, hop :: hops => hop.inputs addr n holder w ++ relay n w hop.node hops

/-- The end of the path. -/
def relayEnd : N → List (RelayHop N) → N
  | holder, [] => holder
  | _, hop :: hops => relayEnd hop.node hops

/-- Both transmissions succeed. -/
def RelayHop.Works (hop : RelayHop N) : Prop := hop.ask.sent = true ∧ hop.answer.send.sent = true

instance (hop : RelayHop N) : Decidable hop.Works := inferInstanceAs (Decidable (_ ∧ _))

/-- Every node is asked before what it holds is gone, the last one at `now`. -/
def InTime (freshnessMs : UInt32) (now : UInt64) : WithTop Nat → List (RelayHop N) → Prop
  | gone, [] => clock now < gone
  | gone, hop :: hops =>
    clock hop.answer.now < gone ∧ InTime freshnessMs now (goneAt hop.arrive.now freshnessMs) hops

/-! ## In the network of contents -/

variable {addr} [DecidableEq N] {cnet : ContentNet N} {w : WireName} {content : Content}

variable (addr) in
omit [DecidableEq N] in
/-- Reading the message that was sent last. -/
theorem receive_last (flight : List Letter) (l : Letter) (v : N) (h : l.dest = addr v) :
    (((flight ++ [l])[flight.length]?).bind fun l => if l.dest = addr v then some l else none) =
        some l ∧ (flight ++ [l]).eraseIdx flight.length = flight := by
  rw [List.getElem?_append_right le_rfl, Nat.sub_self]
  refine ⟨?_, ?_⟩
  · rw [List.getElem?_cons_zero, Option.bind_some, if_pos h]
  · rw [List.eraseIdx_append_of_length_le le_rfl, Nat.sub_self, List.eraseIdx_cons_zero,
      List.append_nil]

/-- **A round trip** stores what the holder has, and changes nothing else. -/
theorem exec_roundTrip {holder : N} {hop : RelayHop N}
    (hheld : fetch (cnet.node holder).store w.components (clock hop.answer.now) = some content)
    (hfits : DataFits w.components content.data) (hworks : hop.Works) :
    exec (contentNetStep addr) cnet (hop.inputs addr cnet.flight.length holder w) =
      { cnet with node := Function.update cnet.node hop.node { cnet.node hop.node with
          store := (storeLease (cnet.node hop.node).store w.components content
            hop.arrive.now).2 } } := by
  -- the Interest is on its way
  have hask : (contentNetStep addr cnet (.interest hop.node w (some (addr holder)) 0 hop.ask)).2 =
      ⟨cnet.node, cnet.flight ++ [⟨addr hop.node, addr holder, .interest w.components⟩]⟩ := by
    simp only [contentNetStep, ContentNet.act, Option.some_or, sendInterest, if_pos hworks.1,
      Function.update_eq_self]
    rfl
  -- the holder answers it
  obtain ⟨hread, hleft⟩ := receive_last addr cnet.flight
    ⟨addr hop.node, addr holder, .interest w.components⟩ holder rfl
  have hanswer : (contentNetStep addr
      ⟨cnet.node, cnet.flight ++ [⟨addr hop.node, addr holder, .interest w.components⟩]⟩
      (.receive holder cnet.flight.length hop.answer)).2 =
        ⟨cnet.node, cnet.flight ++ [⟨addr holder, addr hop.node, .data w.components content⟩]⟩ := by
    simp only [contentNetStep, hread, hleft, ContentNode.take, hheld, ContentNet.act, sendData,
      if_pos (And.intro hfits hworks.2), Function.update_eq_self]
    rfl
  -- the answer arrives
  obtain ⟨hread', hleft'⟩ := receive_last addr cnet.flight
    ⟨addr holder, addr hop.node, .data w.components content⟩ hop.node rfl
  rw [RelayHop.inputs, exec_cons, exec_cons, exec_cons, exec_nil, hask, hanswer]
  simp only [contentNetStep, hread', hleft', ContentNode.take, ContentNet.act, List.map_nil,
    List.append_nil]

/-- A node that has room, or content under the name already. -/
def TakesMore (node : ContentNode) (w : WireName) : Prop :=
  w.components ∈ node.store ∨ node.store.keys.card < psirpCsMaxEntries

/-- What is stored takes no other node's room. -/
theorem hasRoom_storeLease {m : ContentLeases} (hd : Storable content.data)
    (hroom : w.components ∈ m ∨ m.keys.card < psirpCsMaxEntries) (stamp : UInt64) :
    w.components ∈ (storeLease m w.components content stamp).2 := by
  rw [storeLease, if_pos ⟨hd, hroom⟩]
  exact Finmap.mem_insert.mpr (Or.inl rfl)

variable (addr) in
/-- **Along a path** of such nodes the content reaches the last one. -/
theorem fetch_relay {holder : N} {hops : List (RelayHop N)} {now : UInt64} {gone : WithTop Nat}
    (hheld : (cnet.node holder).store.lookup w.components = some ⟨content, gone⟩)
    (hd : Storable content.data) (hfits : DataFits w.components content.data)
    (hroom : ∀ hop ∈ hops, TakesMore (cnet.node hop.node) w) (hworks : ∀ hop ∈ hops, hop.Works)
    (htime : InTime content.freshnessMs now gone hops) :
    fetch ((exec (contentNetStep addr) cnet (relay addr cnet.flight.length w holder hops)).node
      (relayEnd holder hops)).store w.components (clock now) = some content := by
  induction hops generalizing cnet holder gone with
  | nil => exact fetch_eq_some.mpr ⟨gone, hheld, htime⟩
  | cons hop hops ih =>
    obtain ⟨hasked, hrest⟩ := htime
    have hfound := fetch_eq_some.mpr ⟨gone, hheld, hasked⟩
    rw [relay, exec_append, relayEnd,
      exec_roundTrip hfound hfits (hworks hop List.mem_cons_self)]
    have hself := hroom hop List.mem_cons_self
    refine @ih ⟨_, cnet.flight⟩ hop.node (goneAt hop.arrive.now content.freshnessMs) ?_ ?_
      (fun hop' hmem => hworks hop' (List.mem_cons_of_mem _ hmem)) hrest
    · dsimp only
      rw [Function.update_self, storeLease, if_pos ⟨hd, hself⟩]
      exact Finmap.lookup_insert _
    · intro hop' hmem
      dsimp only
      rcases eq_or_ne hop'.node hop.node with heq | hne
      · rw [heq, Function.update_self]
        exact Or.inl (hasRoom_storeLease hd hself _)
      · rw [Function.update_of_ne hne]
        exact hroom hop' (List.mem_cons_of_mem _ hmem)

end Hops

/-! ## In the program -/

section Program

variable {N : Type u} {addr : N → PsirpPeer} [DecidableEq N] {net : Network N}

/-- **Delivery.** Whatever has happened before on plain names that are hashed whole: along any path
of nodes that have room for another entry, content that the first one has stored under such a name
reaches the last one, if every node is asked in time and no transmission fails. -/
theorem relay_delivers (hstores : ∀ v, (net.node v).cs = psirpCsInit) (hflight : net.flight = [])
    {t : N → UInt64} {is : List (ContentInput N)} {w : WireName} {holder : N}
    {hops : List (RelayHop N)} {now : UInt64} {e : PsirpCsEntry}
    (hclocks : ClocksForward t (is ++
      relay addr (exec (seenStep addr) net is).flight.length w holder hops ++
      [.lookup (relayEnd holder hops) w now]))
    (hheld : e ∈ ((exec (seenStep addr) net is).node holder).cs.entries)
    (hname : e.components = w.components) (hfits : DataFits w.components e.data)
    (hroom : ∀ hop ∈ hops,
      ((exec (seenStep addr) net is).node hop.node).cs.entries.length < psirpCsMaxEntries)
    (hworks : ∀ hop ∈ hops, hop.Works)
    (htime : InTime e.freshnessMs now (goneAt e.timestamp e.freshnessMs) hops) :
    ((outs (seenStep addr) net (is ++
      relay addr (exec (seenStep addr) net is).flight.length w holder hops ++
      [.lookup (relayEnd holder hops) w now])).getLast?).map Seen.answer =
        some (.found (some e.content)) := by
  have hstart := carries_ofIdle hstores hflight
  have hstamped : ∀ v, StampedBy (t v) (net.node v).cs := fun v => by
    rw [hstores]
    exact stampedBy_init (t v)
  have hbefore : ClocksForward t is := hclocks.left.left
  obtain ⟨-, hcarries⟩ := hstart.run addr hstamped hbefore
  obtain ⟨houts, -⟩ := hstart.run addr hstamped hclocks
  -- the networks stand for each other before the first round trip
  have hlength := hcarries.flight.length_eq
  have hnode := hcarries.nodes holder
  have hlease : ((exec (contentNetStep addr) (ContentNet.ofIdle net (routesOf net)) is).node
      holder).store.lookup w.components =
        some ⟨e.content, goneAt e.timestamp e.freshnessMs⟩ := by
    rw [hnode.store.represents.lookup_eq,
      hnode.store.represents.keyed.row_eq_some.mpr ⟨hheld, hname⟩]
    rfl
  have hreached := fetch_relay addr hlease (hnode.entries e hheld).storable hfits
    (fun hop hmem => Or.inr ?_) hworks htime
  · -- the lookup comes last, so its answer does
    rw [houts, outs_append, exec_append, hlength]
    simp only [outs, List.getLast?_concat, Option.map_some, contentNetStep, ContentNet.act]
    exact congrArg (some <| CsAnswer.found ·) hreached
  · rw [(hcarries.nodes hop.node).store.represents.card_keys]
    exact hroom hop hmem

end Program

/-- `1:1` stores `/a`, and what it sends to the peers it knows is lost. -/
def lostAnnouncement : List (ContentInput Bool) :=
  [.publish false wireA [7] 0 ⟨0, 0, fun _ => false⟩]

/-- `2:1` asks `1:1`. -/
def hopX : RelayHop Bool := ⟨true, ⟨1, true, 0⟩, ⟨5, 1, true, 5⟩, ⟨6, 1, true, 6⟩⟩

/-- Then `2:1` has it. -/
theorem relay_delivers_hopX :
    ((outs (seenStep addrX) netFresh (lostAnnouncement ++
      relay addrX (exec (seenStep addrX) netFresh lostAnnouncement).flight.length wireA false
        [hopX] ++
      [.lookup (relayEnd false [hopX]) wireA 7])).getLast?).map Seen.answer =
        some (.found (some ⟨[7], 0⟩)) := by
  have hstored : ((exec (seenStep addrX) netFresh lostAnnouncement).node false).cs.entries =
      [newEntry wireA.name [7] 0 0] := by
    decide +kernel
  refine relay_delivers (e := newEntry wireA.name [7] 0 0) stores_netFresh rfl (t := fun _ => 0)
    ⟨rfl, rfl, rfl, rfl, rfl, trivial⟩ ?_ rfl (by decide) ?_ ?_ ?_
  · rw [hstored]
    exact List.mem_singleton_self _
  · intro hop hmem
    obtain rfl := List.mem_singleton.mp hmem
    decide
  · intro hop hmem
    obtain rfl := List.mem_singleton.mp hmem
    decide
  · -- content without a period is never gone
    exact ⟨WithTop.coe_lt_top _, WithTop.coe_lt_top _⟩

end DsoBrowser
