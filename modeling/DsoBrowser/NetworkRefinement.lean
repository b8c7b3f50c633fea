import DsoBrowser.ContentNetwork
import DsoBrowser.Freshness

/-!
# The network of the program is a network of contents

The nodes of the program exchange serialized packets, which each side parses and hashes anew, and
hold what they receive in tables of entries. On plain names all of this is invisible: in every run
in which no node's clock goes back, the applications get the answers and the nodes send the messages
of the network of contents (`network_refines`).

The **invariant** is `Carries`: every table stands for its leases, and every datagram in flight says
what its letter says.
-/

namespace DsoBrowser

open Leases Machine

universe u

/-! ## What datagrams say -/

/-- What a packet says. -/
def Packet.message : Packet → Message
  | .interest pkt => .interest pkt.name.components
  | .data pkt => .data pkt.name.components ⟨pkt.data, pkt.freshnessMs⟩

/-- What a datagram says, and to whom. -/
def Datagram.addressed (d : Datagram) : PsirpPeer × Message := (d.dest, d.packet.message)

/-- A name as a receiver has it: unversioned, and hashed over its path. -/
structure ReadAs (w : WireName) (n : PsirpName) : Prop where
  components_eq : n.components = w.components
  selfHashed : n.SelfHashed
  version_eq : n.version = 0
  hasVersion_eq : n.hasVersion = false

/-- A receiver that parses the bytes gets the message. -/
def PayloadSays (payload : List UInt8) : Message → Prop
  | .interest components => ∃ w interest, components = WireName.components w ∧
      psirpInterestDeserialize PsirpInterest.zero payload = some interest ∧ ReadAs w interest.name
  | .data components content => ∃ w data, components = WireName.components w ∧
      psirpDataDeserialize PsirpData.zero payload = some data ∧ ReadAs w data.name ∧
      content = ⟨data.data, data.freshnessMs⟩

/-- The datagram goes where the message goes, and a receiver gets the message. -/
structure Says (d : Datagram) (s : PsirpPeer × Message) : Prop where
  addressed_eq : d.addressed = s
  payload : PayloadSays d.payload s.2

section Packets

variable {w : WireName}

theorem WireName.component_lt (w : WireName) : ∀ c ∈ w.components, c.length < 256 :=
  fun c hc => (w.key.path c hc).length_lt.trans (by decide)

theorem WireName.plain (w : WireName) : ∀ c ∈ w.components, PlainComponent c := by
  have hplain := w.key.parsed.wellFormed.plain
  rwa [w.key.components_name] at hplain

theorem ReadAs.plain {n : PsirpName} (h : ReadAs w n) : ∀ c ∈ n.components, PlainComponent c := by
  rw [h.components_eq]
  exact w.plain

/-- The name itself. -/
theorem WireName.readAs (w : WireName) : ReadAs w w.name where
  components_eq := w.key.components_name
  selfHashed := w.key.selfHashed_name
  version_eq := by rw [WireName.name, w.key.name_eq]
  hasVersion_eq := w.key.hasVersion_name

/-- **What a receiver makes of the components** of such a name is the name. -/
theorem readAs_reread {n : PsirpName} (h : n.components = w.components) :
    ReadAs w (reread PsirpName.zero n) := by
  have hname : reread PsirpName.zero n = reread PsirpName.zero w.name := by
    have hcomps : n.components = w.name.components := h.trans w.key.components_name.symm
    simp only [reread, hcomps]
  have hhash := (hash_reread_iff w.key PsirpName.zero).mpr w.whole
  have hself := w.key.selfHashed_name
  rw [hname]
  refine ⟨w.key.components_name, ?_, rfl, rfl⟩
  rw [PsirpName.SelfHashed, hhash]
  exact hself

/-- **Data that is sent** says what it carries, and it is sent if it fits. -/
theorem says_psirpNetData {pkt : PsirpData} (hname : pkt.name.components = w.components)
    (hdata : Storable pkt.data) (peer : PsirpPeer) (sent : Bool) :
    List.Forall₂ Says (psirpNetData peer pkt sent).2
      (sendData peer w.components ⟨pkt.data, pkt.freshnessMs⟩ sent) := by
  have hfits := psirpDataSerialize_isSome_iff pkt psirpRecvBufSize
    (by rw [hname]; exact w.component_lt)
  rw [hname] at hfits
  rw [psirpNetData, sendData]
  cases hser : psirpDataSerialize pkt psirpRecvBufSize with
  | none =>
    have hno : ¬ DataFits w.components pkt.data := fun h => by
      obtain ⟨buf, hbuf⟩ := hfits.mpr h
      rw [hser] at hbuf
      cases hbuf
    rw [if_neg fun h => hno h.1]
    exact List.Forall₂.nil
  | some buf =>
    cases sent with
    | false =>
      rw [if_neg fun h => Bool.false_ne_true h.2]
      exact List.Forall₂.nil
    | true =>
      rw [if_pos ⟨hfits.mp ⟨buf, hser⟩, rfl⟩]
      have hde := psirpDataDeserialize_eq hser (lt_of_le_of_lt hdata.2 (by decide)) PsirpData.zero
      refine List.Forall₂.cons ⟨?_, w, _, rfl, hde, readAs_reread hname, rfl⟩ List.Forall₂.nil
      rw [Datagram.addressed, Packet.message, hname]

/-- **An Interest that is sent** says what it asks for. -/
theorem says_psirpNetInterest {name : PsirpName} (hname : name.components = w.components)
    (node : PsirpNode) (peer : Option PsirpPeer) (timeoutMs : UInt32) (env : SendEnv) :
    List.Forall₂ Says (psirpNetInterest node name peer timeoutMs env).2.2
      (sendInterest (peer.or (psirpFibLookup node.fib name)) w.components env.sent) := by
  have hfits : InterestFits name.components interestBufSize := by
    have hpath : (pathOf w.components).length ≤ psirpMaxComponent * w.components.length :=
      length_pathOf_le fun c hc => (w.key.path c hc).length_lt
    have hcount : w.components.length ≤ psirpMaxComponents := w.key.length_le
    rw [hname]
    refine ⟨w.component_lt, ?_⟩
    rw [length_componentBytes]
    simp only [psirpMaxComponent, psirpMaxComponents, interestBufSize] at hpath hcount ⊢
    omega
  rw [sendInterest.eq_def]
  rcases psirpNetInterest_cases node name peer timeoutMs env with
    ⟨hquiet, hnot⟩ | ⟨-, hsent, interest, dest, buf, rfl, hdest, hser, hout⟩
  · rw [hquiet]
    cases hdest : peer.or (psirpFibLookup node.fib name) with
    | none => exact List.Forall₂.nil
    | some dest =>
      have hno : ¬ env.sent = true := fun h => hnot ⟨hfits, by rw [hdest]; rfl, h⟩
      dsimp only
      rw [if_neg hno]
      exact List.Forall₂.nil
  · rw [hout, hdest]
    dsimp only
    rw [if_pos hsent]
    have hde := psirpInterestDeserialize_eq hser PsirpInterest.zero
    refine List.Forall₂.cons ⟨?_, w, _, rfl, hde, readAs_reread hname⟩ List.Forall₂.nil
    rw [Datagram.addressed, Packet.message, hname]

end Packets

/-! ## What nodes hold -/

/-- An entry that can be sent: under a name packets carry whole. -/
structure WireEntry (e : PsirpCsEntry) : Prop where
  /-- its name -/
  named : ∃ w : WireName, e.name.components = w.components
  /-- its size is in range -/
  storable : Storable e.data

/-- The node stands for the node of contents. -/
structure Holds (node : PsirpNode) (cnode : ContentNode) : Prop where
  /-- its store -/
  store : LeasedAs node.cs cnode.store
  /-- which it can answer from -/
  entries : EveryEntry WireEntry node.cs
  /-- its forwarding table -/
  routes : ∀ name, psirpFibLookup node.fib name = cnode.routes name.components
  /-- its peers -/
  peers : node.peers = cnode.peers
  /-- its multicast socket -/
  hasMcast : node.hasMcast = cnode.hasMcast

section Nodes

variable {node : PsirpNode} {cnode : ContentNode}

/-- A store may change where the rest of the node does not. -/
theorem Holds.congr (h : Holds node cnode) (node' : PsirpNode) {store : ContentLeases}
    (hstore : LeasedAs node'.cs store) (hentries : EveryEntry WireEntry node'.cs)
    (hfib : node'.fib = node.fib) (hpeers : node'.peers = node.peers)
    (hmcast : node'.hasMcast = node.hasMcast) : Holds node' { cnode with store := store } :=
  ⟨hstore, hentries, fun name => by rw [hfib]; exact h.routes name, hpeers.trans h.peers,
    hmcast.trans h.hasMcast⟩

theorem wireEntries_store {w : WireName} {n : PsirpName} (hn : ReadAs w n) {cs : PsirpCs}
    (h : EveryEntry WireEntry cs) (d : List UInt8) (f : UInt32) (now : UInt64) :
    EveryEntry WireEntry (psirpCsStore cs n d f now).2 := by
  refine h.store (fun hd => ⟨⟨w, ?_⟩, hd⟩) fun e hd _ he => ⟨he.named, hd⟩
  change (entryName n).components = _
  rw [entryName_of_plain hn.plain]
  exact hn.components_eq

/-- **Storing**, whether published or received. -/
theorem Holds.stores (h : Holds node cnode) {w : WireName} {n : PsirpName} (hn : ReadAs w n)
    (d : List UInt8) (f : UInt32) (now : UInt64) :
    (psirpCsStore node.cs n d f now).1 = (storeLease cnode.store w.components ⟨d, f⟩ now).1 ∧
      LeasedAs (psirpCsStore node.cs n d f now).2
        (storeLease cnode.store w.components ⟨d, f⟩ now).2 ∧
      EveryEntry WireEntry (psirpCsStore node.cs n d f now).2 := by
  obtain ⟨hok, hstore⟩ := h.store.store hn.selfHashed hn.plain hn.version_eq d f now
  rw [hn.components_eq] at hok hstore
  exact ⟨hok, hstore, wireEntries_store hn h.entries d f now⟩

theorem Holds.lookup_content (h : Holds node cnode) {w : WireName} {n : PsirpName}
    (hn : ReadAs w n) {now : UInt64} (hclock : StampedBy now node.cs) :
    (lookupEntry node.cs n now).map PsirpCsEntry.content =
      fetch cnode.store w.components (clock now) := by
  rw [h.store.lookup_content hn.hasVersion_eq hclock, hn.components_eq]

theorem Holds.lookup_frame (h : Holds node cnode) (n : PsirpName) (now : UInt64) :
    Holds { node with cs := (psirpCsLookup node.cs n now).2 } cnode :=
  h.congr _ (h.store.lookup_frame n now)
    (h.entries.lookup fun _ he => ⟨he.named, he.storable⟩) rfl rfl rfl

/-- Sending an Interest leaves it standing. -/
theorem Holds.psirpNetInterest (h : Holds node cnode) (name : PsirpName) (peer : Option PsirpPeer)
    (timeoutMs : UInt32) (env : SendEnv) :
    Holds (psirpNetInterest node name peer timeoutMs env).2.1 cnode := by
  obtain ⟨hcs, hfib, hpeers, hmcast⟩ := psirpNetInterest_node node name peer timeoutMs env
  exact h.congr _ (by rw [hcs]; exact h.store) (by rw [hcs]; exact h.entries) hfib hpeers hmcast

/-- **An Interest that is received** is answered or passed on. -/
theorem Holds.recvInterest (h : Holds node cnode) (src : PsirpPeer) {w : WireName}
    {interest : PsirpInterest} (hname : ReadAs w interest.name) {env : RecvEnv}
    (hclock : StampedBy env.now node.cs) :
    Holds (recvInterest node src interest env).1
        (cnode.take src (.interest w.components) env).1 ∧
      List.Forall₂ Says (recvInterest node src interest env).2
        (cnode.take src (.interest w.components) env).2 := by
  have hfound := h.lookup_content hname hclock
  have hframe := h.lookup_frame interest.name env.now
  rw [DsoBrowser.recvInterest, PsirpNode.lookup, ContentNode.take, ← hfound]
  cases hentry : lookupEntry node.cs interest.name env.now with
  | some entry =>
    obtain ⟨e, he, rfl⟩ := lookupEntry_eq_some hentry
    obtain ⟨hcomps, hdata⟩ : (replyOf (touch env.now e)).name.components = w.components ∧
        Storable (replyOf (touch env.now e)).data :=
      ⟨(components_of_lookupEntry hentry).trans hname.components_eq, (h.entries e he).storable⟩
    exact ⟨⟨hframe.store, hframe.entries, hframe.routes, hframe.peers, hframe.hasMcast⟩,
      says_psirpNetData hcomps hdata src env.send.sent⟩
  | none =>
    have hroute : psirpFibLookup node.fib interest.name = cnode.routes w.components := by
      rw [h.routes, hname.components_eq]
    dsimp only [Option.map_none]
    rw [hroute]
    cases hfwd : cnode.routes w.components with
    | none => exact ⟨hframe, List.Forall₂.nil⟩
    | some fwd =>
      have hsent := hframe.psirpNetInterest interest.name (some fwd) interest.lifetimeMs env.send
      exact ⟨⟨hsent.store, hsent.entries, hsent.routes, hsent.peers, hsent.hasMcast⟩,
        says_psirpNetInterest hname.components_eq _ (some fwd) interest.lifetimeMs env.send⟩

/-- **A message that is received** is dealt with. -/
theorem Holds.recvUnicast (h : Holds node cnode) (src : PsirpPeer) {payload : List UInt8}
    {message : Message} (hmessage : PayloadSays payload message) {env : RecvEnv}
    (hclock : StampedBy env.now node.cs) :
    Holds (recvUnicast node src payload env).1 (cnode.take src message env).1 ∧
      List.Forall₂ Says (recvUnicast node src payload env).2 (cnode.take src message env).2 := by
  cases message with
  | interest components =>
    obtain ⟨w, interest, rfl, hde, hname⟩ := hmessage
    rw [recvUnicast_interest hde]
    exact h.recvInterest src hname hclock
  | data components content =>
    obtain ⟨w, data, rfl, hde, hname, rfl⟩ := hmessage
    obtain ⟨-, hstore, hentries⟩ := h.stores hname data.data data.freshnessMs env.now
    rw [recvUnicast_data hde]
    exact ⟨h.congr _ hstore hentries rfl rfl rfl, List.Forall₂.nil⟩

theorem Holds.recvMulticast (h : Holds node cnode) (src : PsirpPeer) (buf : List UInt8) :
    Holds (recvMulticast node src buf) (cnode.hear src buf) := by
  have hfull : psirpMaxPeers ≤ node.peers.length ↔ ¬ cnode.peers.length < psirpMaxPeers := by
    rw [h.peers, Nat.not_lt]
  have hknown : node.peers.contains ⟨src.ip, htons src.port⟩ = true ↔
      ⟨src.ip, htons src.port⟩ ∈ cnode.peers := by
    rw [h.peers, List.contains_iff_mem]
  rw [DsoBrowser.recvMulticast, ContentNode.hear, psirpNetAddPeer, ← h.hasMcast]
  split
  · rename_i hheard
    split
    · rename_i hno
      rw [if_neg fun hroom => hfull.mp hno hroom.2.2.1]
      exact h
    · rename_i hroom
      split
      · rename_i hin
        rw [if_neg fun hnew => hnew.2.2.2 (hknown.mp hin)]
        exact h
      · rename_i hnew
        rw [if_pos ⟨hheard.1, hheard.2, not_not.mp fun hno => hroom (hfull.mpr hno),
          fun hin => hnew (hknown.mpr hin)⟩]
        exact ⟨h.store, h.entries, h.routes, congrArg (· ++ _) h.peers, rfl⟩
  · rename_i hdeaf
    rw [if_neg fun hheard => hdeaf ⟨hheard.1, hheard.2.1⟩]
    exact h

end Nodes

/-! ## The networks -/

section Networks

variable {N : Type u}

/-- What happens, in the program's terms. -/
def ContentInput.input : ContentInput N → NetInput N
  | .publish v w data freshnessMs env => .publish v w.name data freshnessMs env
  | .lookup v w now => .call v (.lookup w.name now)
  | .remove v w => .call v (.remove w.name)
  | .gc v now => .call v (.gc now)
  | .interest v w peer timeoutMs env => .interest v w.name peer timeoutMs env
  | .receive v i env => .receive (.unicast v i env)
  | .hear v src buf => .receive (.multicast v src buf)

/-- What a call returns to the application. -/
def netAnswer (net : Network N) : ContentInput N → CsAnswer Content
  | .publish v w data freshnessMs env =>
    .verdict (psirpNetPublish (net.node v) w.name data freshnessMs env).1
  | .lookup v w now => (csStep (net.node v).cs (.lookup w.name now)).1.contents
  | .remove v w => (csStep (net.node v).cs (.remove w.name)).1.contents
  | .gc v now => (csStep (net.node v).cs (.gc now)).1.contents
  | _ => .done

/-- The clocks of the nodes after an input. -/
def ContentInput.advance [DecidableEq N] (i : ContentInput N) (t : N → UInt64) : N → UInt64 :=
  match i.reading with
  | none => t
  | some (v, now) => Function.update t v now

/-- No node's clock goes back, from the readings `t` on. Clocks of different nodes need not
agree. -/
def ClocksForward [DecidableEq N] : (N → UInt64) → List (ContentInput N) → Prop
  | _, [] => True
  | t, i :: is =>
    (i.reading.all fun r => decide (t r.1 ≤ r.2)) = true ∧ ClocksForward (i.advance t) is

/-- The datagram bears the letter. -/
structure Bears (m : Flying) (l : Letter) : Prop where
  src_eq : m.src = l.src
  dest_eq : m.dest = l.dest
  payload : PayloadSays m.payload l.message

/-- The network stands for the network of contents. -/
structure Carries (net : Network N) (cnet : ContentNet N) : Prop where
  /-- node by node -/
  nodes : ∀ v, Holds (net.node v) (cnet.node v)
  /-- and datagram by datagram -/
  flight : List.Forall₂ Bears net.flight cnet.flight

variable [DecidableEq N] {addr : N → PsirpPeer}

variable (addr) in
/-- One step of the program's network, seen as the network of contents is. -/
def seenStep (net : Network N) (i : ContentInput N) : Seen N × Network N :=
  let r := netStep addr net i.input
  (⟨r.1.node, netAnswer net i, r.1.out.map Datagram.addressed⟩, r.2)

variable {net : Network N} {cnet : ContentNet N}

theorem map_addressed {out : List Datagram} {sent : List (PsirpPeer × Message)}
    (h : List.Forall₂ Says out sent) : out.map Datagram.addressed = sent := by
  induction h with
  | nil => rfl
  | cons hd _ ih => rw [List.map_cons, hd.addressed_eq, ih]

variable (addr) in
/-- **What a node does** is seen alike and leaves the networks alike. -/
theorem Carries.act (h : Carries net cnet) (v : N) {node : PsirpNode} {cnode : ContentNode}
    (hnode : Holds node cnode) {out : List Datagram} {sent : List (PsirpPeer × Message)}
    (hout : List.Forall₂ Says out sent) (answer : CsAnswer Content) :
    (⟨v, answer, out.map Datagram.addressed⟩ : Seen N) = (cnet.act addr v cnode answer sent).1 ∧
      Carries (net.act addr v node out).2 (cnet.act addr v cnode answer sent).2 := by
  refine ⟨by rw [map_addressed hout]; rfl, fun w => ?_, ?_⟩
  · change Holds (Function.update net.node v node w) (Function.update cnet.node v cnode w)
    rcases eq_or_ne w v with rfl | hw
    · rwa [Function.update_self, Function.update_self]
    · rw [Function.update_of_ne hw, Function.update_of_ne hw]
      exact h.nodes w
  · refine List.rel_append h.flight ?_
    rw [List.forall₂_map_left_iff, List.forall₂_map_right_iff]
    refine hout.imp fun d s hd => ⟨rfl, ?_, hd.payload⟩
    exact congrArg Prod.fst hd.addressed_eq

theorem forall₂_eraseIdx {α β : Type*} {R : α → β → Prop} {l : List α} {l' : List β}
    (h : List.Forall₂ R l l') (i : Nat) : List.Forall₂ R (l.eraseIdx i) (l'.eraseIdx i) := by
  rw [List.eraseIdx_eq_take_drop_succ, List.eraseIdx_eq_take_drop_succ]
  exact List.rel_append (List.forall₂_take i h) (List.forall₂_drop (i + 1) h)

/-- Receiving, where there is a datagram. -/
theorem Carries.receive (h : Carries net cnet) (v : N) (i : Nat) {env : RecvEnv}
    (hclock : StampedBy env.now (net.node v).cs) :
    (seenStep addr net (.receive v i env)).1 = (contentNetStep addr cnet (.receive v i env)).1 ∧
      Carries (seenStep addr net (.receive v i env)).2
        (contentNetStep addr cnet (.receive v i env)).2 := by
  -- the same position is received from, or none
  have hdelivery : (∃ m l, Receipt.delivery addr net (.unicast v i env) = some (v, m, env) ∧
      ((cnet.flight[i]?).bind fun l => if l.dest = addr v then some l else none) = some l ∧
        Bears m l) ∨
      (Receipt.delivery addr net (.unicast v i env) = none ∧
        ((cnet.flight[i]?).bind fun l => if l.dest = addr v then some l else none) = none) := by
    rw [Receipt.delivery]
    cases hm : net.flight[i]? with
    | none =>
      rw [List.getElem?_eq_none_iff, h.flight.length_eq, ← List.getElem?_eq_none_iff] at hm
      rw [hm]
      exact Or.inr ⟨rfl, rfl⟩
    | some m =>
      obtain ⟨l, hl, hbears⟩ := Table.exists_getElem?_of_forall₂ h.flight hm
      rw [hl, Option.bind_some, Option.bind_some, hbears.dest_eq]
      split
      · exact Or.inl ⟨m, l, rfl, rfl, hbears⟩
      · exact Or.inr ⟨rfl, rfl⟩
  rcases hdelivery with ⟨m, l, hm, hl, hbears⟩ | ⟨hm, hl⟩
  · have hleft : Carries (⟨net.node, net.flight.eraseIdx i⟩ : Network N)
        ⟨cnet.node, cnet.flight.eraseIdx i⟩ := ⟨h.nodes, forall₂_eraseIdx h.flight i⟩
    obtain ⟨hnode, hout⟩ := (h.nodes v).recvUnicast m.src hbears.payload hclock
    have hact := hleft.act addr v hnode hout .done
    have hsrc : (cnet.node v).take m.src l.message env =
        (cnet.node v).take l.src l.message env := by
      rw [hbears.src_eq]
    rw [hsrc] at hact
    rw [contentNetStep, hl]
    simp only [seenStep, ContentInput.input, netStep, receiveStep, hm, netAnswer]
    exact hact
  · rw [contentNetStep, hl]
    simp only [seenStep, ContentInput.input, netStep, receiveStep, hm, netAnswer]
    exact ⟨rfl, h⟩

/-- A call of the store. -/
theorem Carries.call (h : Carries net cnet) (v : N) (op : CsOp) {answer : CsAnswer Content}
    {store : ContentLeases} (hanswer : (csStep (net.node v).cs op).1.contents = answer)
    (hstore : LeasedAs (csStep (net.node v).cs op).2 store)
    (hentries : EveryEntry WireEntry (csStep (net.node v).cs op).2) :
    (⟨v, (csStep (net.node v).cs op).1.contents, []⟩ : Seen N) =
        (cnet.act addr v { cnet.node v with store := store } answer []).1 ∧
      Carries (netStep addr net (.call v op)).2
        (cnet.act addr v { cnet.node v with store := store } answer []).2 := by
  have hnode := (h.nodes v).congr
    { net.node v with cs := (csStep (net.node v).cs op).2 } hstore hentries rfl rfl rfl
  rw [hanswer]
  exact h.act addr v hnode List.Forall₂.nil answer

/-- **Publishing** to the known peers. -/
theorem Carries.publish (h : Carries net cnet) (v : N) (w : WireName) (data : List UInt8)
    (freshnessMs : UInt32) (env : PublishEnv) :
    (seenStep addr net (.publish v w data freshnessMs env)).1 =
        (contentNetStep addr cnet (.publish v w data freshnessMs env)).1 ∧
      Carries (seenStep addr net (.publish v w data freshnessMs env)).2
        (contentNetStep addr cnet (.publish v w data freshnessMs env)).2 := by
  obtain ⟨hok, hstore, hentries⟩ := (h.nodes v).stores w.readAs data freshnessMs env.now
  have hnode := (h.nodes v).congr
    { net.node v with cs := (psirpCsStore (net.node v).cs w.name data freshnessMs env.now).2 }
    hstore hentries rfl rfl rfl
  simp only [seenStep, ContentInput.input, netStep, netAnswer, contentNetStep, psirpNetPublish]
  rw [← hok]
  cases hs : psirpCsStore (net.node v).cs w.name data freshnessMs env.now with
  | mk ok cs =>
    rw [hs] at hnode
    cases ok with
    | false => exact h.act addr v hnode List.Forall₂.nil (.verdict false)
    | true =>
      have hd : Storable data := storable_of_psirpCsStore hs
      -- each peer is sent what it is sent in the network of contents
      have hpeers : List.Forall₂ Eq (net.node v).peers.zipIdx (cnet.node v).peers.zipIdx := by
        rw [(h.nodes v).peers, List.forall₂_eq_eq_eq]
      refine h.act addr v hnode (List.rel_flatMap hpeers ?_) (.verdict true)
      rintro p _ rfl
      exact says_psirpNetData w.key.components_name hd p.1 (env.sent p.2)

variable (addr) in
/-- **Step.** Networks that stand for each other are seen to do the same, if the clock that is read
has not gone back. -/
theorem Carries.step (h : Carries net cnet) (i : ContentInput N)
    (hclock : ∀ v now, i.reading = some (v, now) → StampedBy now (net.node v).cs) :
    (seenStep addr net i).1 = (contentNetStep addr cnet i).1 ∧
      Carries (seenStep addr net i).2 (contentNetStep addr cnet i).2 := by
  cases i with
  | publish v w data freshnessMs env => exact h.publish v w data freshnessMs env
  | lookup v w now =>
    have hfound := (h.nodes v).lookup_content w.readAs (hclock v now rfl)
    have hframe := (h.nodes v).lookup_frame w.name now
    exact h.call v (.lookup w.name now) (congrArg CsAnswer.found hfound) hframe.store
      hframe.entries
  | remove v w =>
    obtain ⟨hok, hstore⟩ := (h.nodes v).store.remove w.key
    exact h.call v (.remove w.name) (congrArg CsAnswer.verdict hok) hstore
      ((h.nodes v).entries.remove w.name)
  | gc v now =>
    obtain ⟨hcount, hstore⟩ := (h.nodes v).store.gc (hclock v now rfl)
    exact h.call v (.gc now) (congrArg CsAnswer.evicted hcount) hstore
      ((h.nodes v).entries.subperm (psirpCsGc_frame _ now).1)
  | interest v w peer timeoutMs env =>
    have hout := says_psirpNetInterest w.key.components_name (net.node v) peer timeoutMs env
    rw [(h.nodes v).routes, w.key.components_name] at hout
    exact h.act addr v ((h.nodes v).psirpNetInterest w.name peer timeoutMs env) hout .done
  | receive v i env => exact h.receive v i (hclock v env.now rfl)
  | hear v src buf =>
    have hact := h.act addr v ((h.nodes v).recvMulticast src buf) List.Forall₂.nil .done
    have hnet : (net.act addr v (recvMulticast (net.node v) src buf) []).2 =
        (receiveStep addr net (.multicast v src buf)).2 := by
      rw [Network.act, receiveStep, List.map_nil, List.append_nil]
    rw [hnet] at hact
    exact hact

/-! ## Runs -/

/-- What a datagram has stored is stamped by the reading of the clock. -/
theorem stampedBy_recvUnicast {node : PsirpNode} {t : UInt64} (h : StampedBy t node.cs)
    (src : PsirpPeer) (buf : List UInt8) {env : RecvEnv} (hle : t ≤ env.now) :
    StampedBy env.now (recvUnicast node src buf env).1.cs := by
  have hnow := h.mono hle
  rcases recvUnicast_cases node src buf env with ⟨interest, -, hrecv⟩ | ⟨data, -, hrecv⟩ | hrecv
  · rw [hrecv, (recvInterest_node node src interest env).1]
    exact StampedBy.csStep hnow (.lookup interest.name env.now) fun _ _ _ _ he => by cases he
  · rw [hrecv]
    refine StampedBy.csStep hnow (.store data.name data.data data.freshnessMs env.now) ?_
    rintro n d f now he
    cases he
    exact UInt64.le_refl _
  · rw [hrecv]
    exact hnow

/-- The node that acts is stamped by its own clock, and no other node changes. -/
theorem stampedBy_act {t : N → UInt64} (h : ∀ v, StampedBy (t v) (net.node v).cs) (w : N)
    (t' : N → UInt64) (node : PsirpNode) (hnode : StampedBy (t' w) node.cs)
    (hothers : ∀ v ≠ w, t' v = t v) (v : N) :
    StampedBy (t' v) (Function.update net.node w node v).cs := by
  rcases eq_or_ne v w with rfl | hv
  · rwa [Function.update_self]
  · rw [Function.update_of_ne hv, hothers v hv]
    exact h v

/-- Receiving, whether anything is there or not. -/
theorem stampedBy_unicast {t : N → UInt64} (h : ∀ v, StampedBy (t v) (net.node v).cs) (w : N)
    (i : Nat) (env : RecvEnv) (hle : t w ≤ env.now) (v : N) :
    StampedBy (Function.update t w env.now v)
      ((receiveStep addr net (.unicast w i env)).2.node v).cs := by
  cases hm : Receipt.delivery addr net (.unicast w i env) with
  | none =>
    rw [((receiveStep_of_no_delivery hm).2.2 v).1]
    rcases eq_or_ne v w with rfl | hv
    · rw [Function.update_self]
      exact (h v).mono hle
    · rw [Function.update_of_ne hv]
      exact h v
  | some r =>
    obtain ⟨v', m, env'⟩ := r
    obtain ⟨_, heq, -⟩ := delivery_eq_some hm
    cases heq
    obtain ⟨_, -, -, hnet⟩ := receiveStep_of_delivery hm
    rw [hnet]
    refine stampedBy_act h w (Function.update t w env.now) _ ?_
      (fun _ hv => Function.update_of_ne hv ..) v
    rw [Function.update_self]
    exact stampedBy_recvUnicast (h w) m.src m.payload hle

/-- **The clocks move on** with the entries they stamp. -/
theorem stampedBy_netStep {t : N → UInt64} (h : ∀ v, StampedBy (t v) (net.node v).cs)
    (i : ContentInput N) (hclock : ∀ v now, i.reading = some (v, now) → t v ≤ now) (v : N) :
    StampedBy (i.advance t v) ((netStep addr net i.input).2.node v).cs := by
  have hact := fun w t' node hnode hothers => stampedBy_act h w t' node hnode hothers v
  have hself : ∀ (w : N) (now : UInt64), Function.update t w now w = now :=
    fun _ _ => Function.update_self ..
  have hother : ∀ (w : N) (now : UInt64), ∀ v ≠ w, Function.update t w now v = t v :=
    fun _ _ _ hv => Function.update_of_ne hv ..
  cases i with
  | publish w name data freshnessMs env =>
    refine hact w (Function.update t w env.now)
      (psirpNetPublish (net.node w) name.name data freshnessMs env).2.1 ?_ (hother w env.now)
    rw [hself, (psirpNetPublish_spec (net.node w) name.name data freshnessMs env).2.1]
    refine StampedBy.csStep ((h w).mono (hclock w env.now rfl))
      (.store name.name data freshnessMs env.now) ?_
    rintro n d f now he
    cases he
    exact UInt64.le_refl _
  | lookup w name now =>
    refine hact w (Function.update t w now) _ ?_ (hother w now)
    rw [hself]
    exact StampedBy.csStep ((h w).mono (hclock w now rfl)) (.lookup name.name now)
      fun _ _ _ _ he => by cases he
  | remove w name =>
    refine hact w t _ (StampedBy.csStep (h w) (.remove name.name) ?_) fun _ _ => rfl
    exact fun _ _ _ _ he => by cases he
  | gc w now =>
    refine hact w (Function.update t w now) _ ?_ (hother w now)
    rw [hself]
    exact StampedBy.csStep ((h w).mono (hclock w now rfl)) (.gc now) fun _ _ _ _ he => by cases he
  | interest w name peer timeoutMs env =>
    refine hact w t (psirpNetInterest (net.node w) name.name peer timeoutMs env).2.1 ?_
      fun _ _ => rfl
    rw [(psirpNetInterest_node (net.node w) name.name peer timeoutMs env).1]
    exact h w
  | receive w i env => exact stampedBy_unicast h w i env (hclock w env.now rfl) v
  | hear w src buf =>
    refine hact w t _ ?_ fun _ _ => rfl
    rw [(recvMulticast_node (net.node w) src buf).1]
    exact h w

omit [DecidableEq N] in
theorem ClocksForward.left [DecidableEq N] {t : N → UInt64} {is js : List (ContentInput N)}
    (h : ClocksForward t (is ++ js)) : ClocksForward t is := by
  induction is generalizing t with
  | nil => trivial
  | cons i is ih => exact ⟨h.1, ih h.2⟩

variable (addr) in
/-- **Run lemma.** Networks that stand for each other are seen to do the same in every run in which
no clock goes back, and stand for each other at its end. -/
theorem Carries.run {is : List (ContentInput N)} {t : N → UInt64} (h : Carries net cnet)
    (hstamped : ∀ v, StampedBy (t v) (net.node v).cs) (hclocks : ClocksForward t is) :
    outs (seenStep addr) net is = outs (contentNetStep addr) cnet is ∧
      Carries (exec (seenStep addr) net is) (exec (contentNetStep addr) cnet is) := by
  induction is generalizing net cnet t with
  | nil => exact ⟨rfl, h⟩
  | cons i is ih =>
    obtain ⟨hread, hrest⟩ := hclocks
    have hle : ∀ v now, i.reading = some (v, now) → t v ≤ now := by
      intro v now hi
      rw [hi] at hread
      exact of_decide_eq_true hread
    obtain ⟨hseen, hcarries⟩ := h.step addr i fun v now hi =>
      (hstamped v).mono (hle v now hi)
    obtain ⟨houts, hend⟩ := ih hcarries (stampedBy_netStep hstamped i hle) hrest
    exact ⟨by rw [outs, outs, hseen, houts], hend⟩

/-! ## The refinement -/

omit [DecidableEq N] in
variable (net) in
/-- The network of contents with the routes and the peers of the nodes, which holds nothing. -/
def ContentNet.ofIdle (routes : N → List CString → Option PsirpPeer) : ContentNet N where
  node v := ⟨∅, routes v, (net.node v).peers, (net.node v).hasMcast⟩
  flight := []

/-- The routes of a node, by components. -/
def routesOf (net : Network N) (v : N) (components : List CString) : Option PsirpPeer :=
  if h : components.length ≤ psirpMaxComponents then
    psirpFibLookup (net.node v).fib ⟨components, 0, 0, false, h⟩
  else none

omit [DecidableEq N] in
/-- At the start, when nothing is stored or in flight. -/
theorem carries_ofIdle (hstores : ∀ v, (net.node v).cs = psirpCsInit) (hflight : net.flight = []) :
    Carries net (ContentNet.ofIdle net (routesOf net)) where
  nodes v := by
    refine ⟨by rw [hstores]; exact leasedAs_init, ?_, fun name => ?_, rfl, rfl⟩
    · rw [hstores]
      exact fun _ he => absurd he List.not_mem_nil
    · change _ = routesOf net v name.components
      rw [routesOf, dif_pos name.count_le]
      refine psirpFibLookup_congr ?_ _
      rfl
  flight := by
    rw [hflight]
    exact List.Forall₂.nil

/-- **Refinement.** From empty stores on, in every run on plain names that are hashed whole and in
which no node's clock goes back, the program's network does what the network of contents does. -/
theorem network_refines (hstores : ∀ v, (net.node v).cs = psirpCsInit) (hflight : net.flight = [])
    {t : N → UInt64} {is : List (ContentInput N)} (hclocks : ClocksForward t is) :
    outs (seenStep addr) net is =
      outs (contentNetStep addr) (ContentNet.ofIdle net (routesOf net)) is := by
  refine ((carries_ofIdle hstores hflight).run addr (fun v => ?_) hclocks).1
  rw [hstores]
  exact stampedBy_init (t v)

end Networks

/-- `/a` on the wire. -/
def wireA : WireName := ⟨keyA, by decide⟩

/-- `1:1` publishes `/a` and `2:1` receives it. -/
def wireRun : List (ContentInput Bool) :=
  [.publish false wireA [7] 1 ⟨0, 0, fun _ => true⟩, .receive true 0 ⟨1, ⟨0, true, 1⟩⟩]

/-- Then `2:1` looks it up in time, and too late. -/
theorem network_refines_wireRun :
    ClocksForward (fun _ => 0) (wireRun ++ [.lookup true wireA 2, .lookup true wireA 2000001]) ∧
      outs (seenStep addrX) netFresh
          (wireRun ++ [.lookup true wireA 2, .lookup true wireA 2000001]) =
        outs (contentNetStep addrX) (ContentNet.ofIdle netFresh (routesOf netFresh))
          (wireRun ++ [.lookup true wireA 2, .lookup true wireA 2000001]) := by
  have hclocks : ClocksForward (fun _ => 0)
      (wireRun ++ [.lookup true wireA 2, .lookup true wireA 2000001]) :=
    ⟨rfl, rfl, rfl, rfl, trivial⟩
  exact ⟨hclocks, network_refines stores_netFresh rfl hclocks⟩

end DsoBrowser
