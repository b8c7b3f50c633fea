import DsoBrowser.LeasedStore
import DsoBrowser.Net
import DsoBrowser.PacketRoundTrip
import Mathlib.Logic.Function.Basic

/-!
# A network of contents

What the nodes of `net.c` do for one another, without packets, hashes or tables: a node holds leases
of contents, routes and known peers, and messages ask for content or carry it. A message is answered
from the leases, or passed on along a route; content that arrives is held again for its whole
period.

The nodes of the program, which exchange bytes, behave like these (`Carries.step`).
-/

namespace DsoBrowser

open Leases

universe u

/-! ## Names on the wire -/

/-- A plain name that packets carry whole. -/
structure WireName where
  /-- the name -/
  key : PlainKey
  /-- its hash is computed from all of its path -/
  whole : HashedWhole key

namespace WireName

/-- The components, by which content is held. -/
abbrev components (w : WireName) : List CString := w.key.components

/-- The name `psirp_name_init` builds. -/
abbrev name (w : WireName) : PsirpName := w.key.name

end WireName

/-- A Data packet with this content fits the buffer it is serialized to. -/
def DataFits (components : List CString) (data : List UInt8) : Prop :=
  18 + (pathOf components).length + data.length ≤ psirpRecvBufSize

instance (components : List CString) (data : List UInt8) : Decidable (DataFits components data) :=
  inferInstanceAs (Decidable (_ ≤ _))

/-! ## Nodes and messages -/

/-- What nodes send each other. -/
inductive Message where
  /-- ask for content -/
  | interest : List CString → Message
  /-- carry content -/
  | data : List CString → Content → Message
  deriving DecidableEq

/-- A message on its way. -/
structure Letter where
  /-- who sent it -/
  src : PsirpPeer
  /-- where it goes -/
  dest : PsirpPeer
  /-- what it says -/
  message : Message
  deriving DecidableEq

/-- A node. -/
structure ContentNode where
  /-- the contents it holds -/
  store : ContentLeases
  /-- where it passes Interests on to -/
  routes : List CString → Option PsirpPeer
  /-- the peers it knows -/
  peers : List PsirpPeer
  /-- whether it hears the multicast group -/
  hasMcast : Bool

/-- Nodes and the messages between them. -/
structure ContentNet (N : Type u) where
  /-- the nodes -/
  node : N → ContentNode
  /-- the messages on their way -/
  flight : List Letter

/-- What happens in the network. -/
inductive ContentInput (N : Type u) where
  /-- a node publishes content -/
  | publish : N → WireName → List UInt8 → UInt32 → PublishEnv → ContentInput N
  /-- a node looks content up -/
  | lookup : N → WireName → UInt64 → ContentInput N
  /-- a node removes content -/
  | remove : N → WireName → ContentInput N
  /-- a node collects what has expired -/
  | gc : N → UInt64 → ContentInput N
  /-- a node asks for content -/
  | interest : N → WireName → Option PsirpPeer → UInt32 → SendEnv → ContentInput N
  /-- a node receives the message at a position -/
  | receive : N → Nat → RecvEnv → ContentInput N
  /-- a node hears a packet of the multicast group -/
  | hear : N → PsirpPeer → List UInt8 → ContentInput N

/-- What is seen of it: the node, its answer to the application, and what it sends where. -/
structure Seen (N : Type u) where
  /-- the node -/
  node : N
  /-- what a call returns -/
  answer : CsAnswer Content
  /-- what is sent -/
  sent : List (PsirpPeer × Message)

/-- The node whose clock an input reads, and the reading its store is used with. -/
def ContentInput.reading {N : Type u} : ContentInput N → Option (N × UInt64)
  | .publish v _ _ _ env => some (v, env.now)
  | .lookup v _ now => some (v, now)
  | .gc v now => some (v, now)
  | .receive v _ env => some (v, env.now)
  | _ => none

/-! ## Steps -/

/-- Send content, if it fits and the transmission succeeds. -/
def sendData (dest : PsirpPeer) (components : List CString) (content : Content) (sent : Bool) :
    List (PsirpPeer × Message) :=
  if DataFits components content.data ∧ sent = true then [(dest, .data components content)] else []

/-- Ask a peer, if the transmission succeeds. -/
def sendInterest (dest : Option PsirpPeer) (components : List CString) (sent : Bool) :
    List (PsirpPeer × Message) :=
  match dest with
  | none => []
  | some dest => if sent = true then [(dest, .interest components)] else []

/-- What a node makes of a message: answer it, pass it on, or hold what it carries. -/
def ContentNode.take (node : ContentNode) (src : PsirpPeer) (message : Message) (env : RecvEnv) :
    ContentNode × List (PsirpPeer × Message) :=
  match message with
  | .interest components =>
    match fetch node.store components (clock env.now) with
    | some content => (node, sendData src components content env.send.sent)
    | none => (node, sendInterest (node.routes components) components env.send.sent)
  | .data components content =>
    ({ node with store := (storeLease node.store components content env.now).2 }, [])

/-- Note the sender of an announcement among the known peers. -/
def ContentNode.hear (node : ContentNode) (src : PsirpPeer) (buf : List UInt8) : ContentNode :=
  if node.hasMcast ∧ buf.head? = some psirpPktPublish ∧ node.peers.length < psirpMaxPeers ∧
      ⟨src.ip, htons src.port⟩ ∉ node.peers then
    { node with peers := node.peers ++ [⟨src.ip, htons src.port⟩] }
  else node

section Steps

variable {N : Type u} [DecidableEq N] (addr : N → PsirpPeer)

/-- Node `v` changes to `node`, answers the application and sends `sent`. -/
def ContentNet.act (net : ContentNet N) (v : N) (node : ContentNode) (answer : CsAnswer Content)
    (sent : List (PsirpPeer × Message)) : Seen N × ContentNet N :=
  (⟨v, answer, sent⟩, {
    node := Function.update net.node v node
    flight := net.flight ++ sent.map fun (dest, message) => ⟨addr v, dest, message⟩ })

/-- One step. -/
def contentNetStep (net : ContentNet N) : ContentInput N → Seen N × ContentNet N
  | .publish v w data freshnessMs env =>
    let node := net.node v
    let content : Content := ⟨data, freshnessMs⟩
    let (ok, store) := storeLease node.store w.components content env.now
    net.act addr v { node with store := store } (.verdict ok)
      (if ok then
        node.peers.zipIdx.flatMap fun (peer, i) => sendData peer w.components content (env.sent i)
      else [])
  | .lookup v w now =>
    net.act addr v (net.node v) (.found (fetch (net.node v).store w.components (clock now))) []
  | .remove v w =>
    let node := net.node v
    net.act addr v { node with store := node.store.erase w.components }
      (.verdict (decide (w.components ∈ node.store))) []
  | .gc v now =>
    let node := net.node v
    let swept := sweep node.store (clock now)
    net.act addr v { node with store := swept }
      (.evicted (node.store.keys.card - swept.keys.card)) []
  | .interest v w peer _ env =>
    net.act addr v (net.node v) .done
      (sendInterest (peer.or ((net.node v).routes w.components)) w.components env.sent)
  | .receive v i env =>
    match (net.flight[i]?).bind fun l => if l.dest = addr v then some l else none with
    | none => (⟨v, .done, []⟩, net)
    | some l =>
      let (node, sent) := (net.node v).take l.src l.message env
      ({ net with flight := net.flight.eraseIdx i } : ContentNet N).act addr v node .done sent
  | .hear v src buf => net.act addr v ((net.node v).hear src buf) .done []

end Steps

end DsoBrowser
