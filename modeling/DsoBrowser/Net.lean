import DsoBrowser.Packet
import DsoBrowser.StoredNames

/-!
# The network node

The UDP transport of `net.c` and the forwarding table of `psirp.c`: what a node sends and how its
state changes on a received packet, when an Interest is sent, and in a blocking fetch.

Everything a call reads from outside is an argument: the clock, the random nonce, and whether
`sendto` succeeds (`SendEnv`). A `Datagram` is one `sendto` that succeeded, with the packet its
payload was serialized from, so that what is sent can be spoken of without decoding it.

The receiver thread runs next to a blocking fetch. A fetch is modelled with what that thread did
to the node between two polls as an argument of each round (`FetchRound`).
-/

namespace DsoBrowser

/-- `PSIRP_RECV_BUF_SIZE` -/
def psirpRecvBufSize : Nat := 1048576

/-- The size of the buffers Interests are serialized to. -/
def interestBufSize : Nat := 4096

/-- `PSIRP_MAX_PEERS` -/
def psirpMaxPeers : Nat := 64

/-- The sizes of the pending table and of the forwarding table. -/
def psirpMaxPending : Nat := 256

/-- `PSIRP_INTEREST_TIMEOUT_MS` -/
def psirpInterestTimeoutMs : UInt32 := 4000

/-- `psirp_peer`: address and port in network byte order. -/
structure PsirpPeer where
  /-- IPv4 address -/
  ip : UInt32
  /-- UDP port -/
  port : UInt16
  deriving DecidableEq

/-- `htons` on a little-endian machine -/
def htons (port : UInt16) : UInt16 := (port >>> 8) ||| (port <<< 8)

/-- `PSIRP_MULTICAST_GROUP` 239.255.0.1 and `PSIRP_MULTICAST_PORT` -/
def multicastPeer : PsirpPeer := ⟨0x0100ffef, htons 9401⟩

/-! ## The forwarding table -/

/-- `psirp_fib_entry` -/
structure PsirpFibEntry where
  /-- name prefix -/
  pfx : PsirpName
  /-- forward to this peer -/
  peer : PsirpPeer
  /-- number of components in the prefix -/
  prefixLen : Nat
  deriving DecidableEq

/-- The scan of `psirp_fib_lookup`; `best` is the peer chosen so far. -/
def fibLookupLoop (name : PsirpName) : List PsirpFibEntry → Option PsirpPeer → Nat →
    Option PsirpPeer
  | [], best, _ => best
  | e :: es, best, bestLen =>
    if psirpNameIsPrefix e.pfx name && bestLen < e.prefixLen then
      fibLookupLoop name es (some e.peer) e.prefixLen
    else fibLookupLoop name es best bestLen

/-- `psirp_fib_lookup` -/
def psirpFibLookup (fib : List PsirpFibEntry) (name : PsirpName) : Option PsirpPeer :=
  fibLookupLoop name fib none 0

/-- A forwarding table is looked up by components. -/
theorem psirpFibLookup_congr {name name' : PsirpName} (h : name.components = name'.components)
    (fib : List PsirpFibEntry) : psirpFibLookup fib name = psirpFibLookup fib name' := by
  have hloop : ∀ (es : List PsirpFibEntry) (best : Option PsirpPeer) (bestLen : Nat),
      fibLookupLoop name es best bestLen = fibLookupLoop name' es best bestLen := by
    intro es
    induction es with
    | nil => exact fun _ _ => rfl
    | cons e es ih =>
      intro best bestLen
      rw [fibLookupLoop, fibLookupLoop, psirpNameIsPrefix, psirpNameIsPrefix, h, ih, ih]
  exact hloop fib none 0

/-! ## The node -/

/-- `psirp_pending` -/
structure PsirpPending where
  /-- what was requested -/
  name : PsirpName
  /-- request nonce -/
  nonce : UInt64
  /-- when it was sent -/
  sentTimeNs : UInt64
  /-- timeout -/
  lifetimeMs : UInt32
  /-- still waiting? -/
  active : Bool
  deriving DecidableEq

/-- `psirp_node`, with the content store it points to. -/
structure PsirpNode where
  /-- content store -/
  cs : PsirpCs
  /-- whether there is a multicast socket -/
  hasMcast : Bool
  /-- forwarding table -/
  fib : List PsirpFibEntry
  /-- the first `pending_count` outstanding Interests -/
  pending : List PsirpPending
  /-- the first `peer_count` known peers -/
  peers : List PsirpPeer
  /-- statistics -/
  interestsSent : UInt64
  /-- statistics -/
  dataReceived : UInt64
  /-- statistics -/
  dataSent : UInt64
  /-- statistics -/
  interestsForwarded : UInt64

/-- The packets a node sends. -/
inductive Packet where
  /-- an Interest -/
  | interest : PsirpInterest → Packet
  /-- a Data packet -/
  | data : PsirpData → Packet
  deriving DecidableEq

/-- A successful `sendto`. -/
structure Datagram where
  /-- where it goes -/
  dest : PsirpPeer
  /-- the packet serialized -/
  packet : Packet
  /-- the bytes sent -/
  payload : List UInt8
  deriving DecidableEq

/-- What one transmission reads from outside. -/
structure SendEnv where
  /-- what `random_nonce` returns -/
  nonce : UInt64
  /-- whether `sendto` succeeds -/
  sent : Bool
  /-- the clock after it -/
  now : UInt64

/-- `psirp_cs_lookup` on the node's store -/
def PsirpNode.lookup (node : PsirpNode) (name : PsirpName) (now : UInt64) :
    Option PsirpCsEntry × PsirpNode :=
  (lookupEntry node.cs name now, { node with cs := (psirpCsLookup node.cs name now).2 })

/-! ## Sending -/

/-- The entry `psirp_net_interest` adds to the pending table, if there is room. -/
def trackPending (pending : List PsirpPending) (interest : PsirpInterest) (now : UInt64) :
    List PsirpPending :=
  if pending.length < psirpMaxPending then
    pending ++ [⟨(psirpNameInitComponents interest.name.components).2, interest.nonce, now,
      interest.lifetimeMs, true⟩]
  else pending

/-- `psirp_net_interest`; without a peer the forwarding table gives the destination. -/
def psirpNetInterest (node : PsirpNode) (name : PsirpName) (peer : Option PsirpPeer)
    (timeoutMs : UInt32) (env : SendEnv) : UInt64 × PsirpNode × List Datagram :=
  let interest : PsirpInterest :=
    ⟨name, env.nonce, if timeoutMs ≠ 0 then timeoutMs else psirpInterestTimeoutMs⟩
  match psirpInterestSerialize interest interestBufSize with
  | none => (0, node, [])
  | some buf =>
    match peer.or (psirpFibLookup node.fib name) with
    | none => (0, node, [])
    | some dest =>
      if env.sent then
        (interest.nonce, { node with
          pending := trackPending node.pending interest env.now
          interestsSent := node.interestsSent + 1 }, [⟨dest, .interest interest, buf⟩])
      else (0, node, [])

/-- `psirp_net_data` -/
def psirpNetData (peer : PsirpPeer) (data : PsirpData) (sent : Bool) : Bool × List Datagram :=
  match psirpDataSerialize data psirpRecvBufSize with
  | none => (false, [])
  | some buf => if sent then (true, [⟨peer, .data data, buf⟩]) else (false, [])

/-- `psirp_net_multicast_interest` -/
def psirpNetMulticastInterest (node : PsirpNode) (name : PsirpName) (env : SendEnv) :
    Bool × List Datagram :=
  if node.hasMcast then
    let interest : PsirpInterest := ⟨name, env.nonce, psirpInterestTimeoutMs⟩
    match psirpInterestSerialize interest interestBufSize with
    | none => (false, [])
    | some buf =>
      if env.sent then (true, [⟨multicastPeer, .interest interest, buf⟩]) else (false, [])
  else (false, [])

/-- `psirp_net_add_peer` -/
def psirpNetAddPeer (node : PsirpNode) (ip : UInt32) (port : UInt16) : Bool × PsirpNode :=
  if psirpMaxPeers ≤ node.peers.length then (false, node)
  else if node.peers.contains ⟨ip, htons port⟩ then (true, node)
  else (true, { node with peers := node.peers ++ [⟨ip, htons port⟩] })

/-! ## Publishing -/

/-- What publishing reads from outside. -/
structure PublishEnv where
  /-- the clock as the content store reads it -/
  now : UInt64
  /-- the clock the announcement is stamped with -/
  stampNow : UInt64
  /-- whether the transmission to the peer at each position succeeds -/
  sent : Nat → Bool

/-- `psirp_net_publish`, with the datagrams it sends. What comes of each transmission is
ignored. -/
def psirpNetPublish (node : PsirpNode) (name : PsirpName) (data : List UInt8)
    (freshnessMs : UInt32) (env : PublishEnv) : Bool × PsirpNode × List Datagram :=
  match psirpCsStore node.cs name data freshnessMs env.now with
  | (false, cs) => (false, { node with cs := cs }, [])
  | (true, cs) =>
    let announcement : PsirpData := ⟨name, data, env.stampNow, freshnessMs⟩
    (true, { node with cs := cs }, node.peers.zipIdx.flatMap fun (peer, i) =>
      (psirpNetData peer announcement (env.sent i)).2)

/-! ## Receiving -/

/-- What the handling of one packet reads from outside. -/
structure RecvEnv where
  /-- the clock as the content store reads it -/
  now : UInt64
  /-- the transmission of a reply or of a forwarded Interest -/
  send : SendEnv

/-- The reply made from an entry. -/
def replyOf (entry : PsirpCsEntry) : PsirpData :=
  ⟨entry.name, entry.data, entry.timestamp, entry.freshnessMs⟩

/-- A decoded Interest: answer it from the content store, or forward it. -/
def recvInterest (node : PsirpNode) (src : PsirpPeer) (interest : PsirpInterest) (env : RecvEnv) :
    PsirpNode × List Datagram :=
  match node.lookup interest.name env.now with
  | (some entry, node) =>
    ({ node with dataSent := node.dataSent + 1 },
      (psirpNetData src (replyOf entry) env.send.sent).2)
  | (none, node) =>
    match psirpFibLookup node.fib interest.name with
    | none => (node, [])
    | some fwd =>
      let (_, node, out) :=
        psirpNetInterest node interest.name (some fwd) interest.lifetimeMs env.send
      ({ node with interestsForwarded := node.interestsForwarded + 1 }, out)

/-- Mark the first active pending Interest for the name as answered. -/
def settlePending (name : PsirpName) : List PsirpPending → List PsirpPending
  | [] => []
  | p :: ps =>
    if p.active && psirpNameEqual p.name name then { p with active := false } :: ps
    else p :: settlePending name ps

/-- A decoded Data packet: store it and settle its Interest. The `on_data` callback, which the
node's owner supplies, is left out. -/
def recvData (node : PsirpNode) (data : PsirpData) (env : RecvEnv) : PsirpNode :=
  { node with
    cs := (psirpCsStore node.cs data.name data.data data.freshnessMs env.now).2
    pending := settlePending data.name node.pending
    dataReceived := node.dataReceived + 1 }

/-- The unicast half of a round of `recv_thread_func`, on a datagram received from `src`. -/
def recvUnicast (node : PsirpNode) (src : PsirpPeer) (buf : List UInt8) (env : RecvEnv) :
    PsirpNode × List Datagram :=
  if buf.head? = some psirpPktInterest then
    match psirpInterestDeserialize PsirpInterest.zero buf with
    | none => (node, [])
    | some interest => recvInterest node src interest env
  else if buf.head? = some psirpPktData then
    match psirpDataDeserialize PsirpData.zero buf with
    | none => (node, [])
    | some data => (recvData node data env, [])
  else (node, [])

/-- The multicast half: a PUBLISH packet announces its sender. -/
def recvMulticast (node : PsirpNode) (src : PsirpPeer) (buf : List UInt8) : PsirpNode :=
  if node.hasMcast ∧ buf.head? = some psirpPktPublish then
    (psirpNetAddPeer node src.ip src.port).2
  else node

/-! ### What a round does -/

/-- A datagram is decoded to an Interest, to a Data packet, or ignored. -/
theorem recvUnicast_cases (node : PsirpNode) (src : PsirpPeer) (buf : List UInt8) (env : RecvEnv) :
    (∃ interest, psirpInterestDeserialize PsirpInterest.zero buf = some interest ∧
      recvUnicast node src buf env = recvInterest node src interest env) ∨
    (∃ data, psirpDataDeserialize PsirpData.zero buf = some data ∧
      recvUnicast node src buf env = (recvData node data env, [])) ∨
    recvUnicast node src buf env = (node, []) := by
  rw [recvUnicast]
  split
  · split
    · exact Or.inr (Or.inr rfl)
    · rename_i interest hdec
      exact Or.inl ⟨interest, hdec, rfl⟩
  · split
    · split
      · exact Or.inr (Or.inr rfl)
      · rename_i data hdec
        exact Or.inr (Or.inl ⟨data, hdec, rfl⟩)
    · exact Or.inr (Or.inr rfl)

theorem recvUnicast_interest {interest : PsirpInterest} {buf : List UInt8}
    (h : psirpInterestDeserialize PsirpInterest.zero buf = some interest) (node : PsirpNode)
    (src : PsirpPeer) (env : RecvEnv) :
    recvUnicast node src buf env = recvInterest node src interest env := by
  rw [recvUnicast, if_pos (head?_of_interest h), h]

theorem recvUnicast_data {data : PsirpData} {buf : List UInt8}
    (h : psirpDataDeserialize PsirpData.zero buf = some data) (node : PsirpNode)
    (src : PsirpPeer) (env : RecvEnv) :
    recvUnicast node src buf env = (recvData node data env, []) := by
  rw [recvUnicast, if_neg (by rw [head?_of_data h]; decide), if_pos (head?_of_data h), h]

/-- An Interest is answered from the store, or misses it and is dropped or forwarded. -/
theorem recvInterest_cases (node : PsirpNode) (src : PsirpPeer) (interest : PsirpInterest)
    (env : RecvEnv) :
    (∃ entry, lookupEntry node.cs interest.name env.now = some entry ∧
      (recvInterest node src interest env).2 =
        (psirpNetData src (replyOf entry) env.send.sent).2) ∨
    (lookupEntry node.cs interest.name env.now = none ∧
      psirpFibLookup node.fib interest.name = none ∧ (recvInterest node src interest env).2 = []) ∨
    (∃ fwd, lookupEntry node.cs interest.name env.now = none ∧
      psirpFibLookup node.fib interest.name = some fwd ∧
      (recvInterest node src interest env).2 =
        (psirpNetInterest (node.lookup interest.name env.now).2 interest.name (some fwd)
          interest.lifetimeMs env.send).2.2) := by
  rw [recvInterest, PsirpNode.lookup]
  rcases lookupEntry node.cs interest.name env.now with _ | entry
  · rcases hfib : psirpFibLookup node.fib interest.name with _ | fwd
    · refine Or.inr (Or.inl ⟨rfl, rfl, ?_⟩)
      simp only [hfib]
    · refine Or.inr (Or.inr ⟨fwd, rfl, rfl, ?_⟩)
      simp only [hfib]
  · exact Or.inl ⟨entry, rfl, rfl⟩

/-- A Data packet that is sent goes to the peer. -/
theorem mem_psirpNetData {peer : PsirpPeer} {data : PsirpData} {sent : Bool} {dg : Datagram} :
    dg ∈ (psirpNetData peer data sent).2 ↔
      sent = true ∧ ∃ buf, psirpDataSerialize data psirpRecvBufSize = some buf ∧
        dg = ⟨peer, .data data, buf⟩ := by
  rw [psirpNetData]
  rcases psirpDataSerialize data psirpRecvBufSize with _ | buf
  · simp
  · cases sent <;> simp

/-- Publishing stores the content, and if that succeeds sends it. -/
theorem psirpNetPublish_spec (node : PsirpNode) (name : PsirpName) (data : List UInt8)
    (freshnessMs : UInt32) (env : PublishEnv) :
    let published := psirpNetPublish node name data freshnessMs env
    published.1 = (psirpCsStore node.cs name data freshnessMs env.now).1 ∧
      published.2.1.cs = (psirpCsStore node.cs name data freshnessMs env.now).2 ∧
      ∀ dg ∈ published.2.2, published.1 = true ∧
        psirpDataSerialize ⟨name, data, env.stampNow, freshnessMs⟩ psirpRecvBufSize =
          some dg.payload := by
  rw [psirpNetPublish]
  rcases psirpCsStore node.cs name data freshnessMs env.now with ⟨_ | _, cs⟩
  · exact ⟨rfl, rfl, fun dg hdg => absurd hdg List.not_mem_nil⟩
  · refine ⟨rfl, rfl, fun dg hdg => ⟨rfl, ?_⟩⟩
    obtain ⟨⟨peer, i⟩, -, hdg⟩ := List.mem_flatMap.mp hdg
    obtain ⟨-, buf, hbuf, rfl⟩ := mem_psirpNetData.mp hdg
    exact hbuf

/-- **What sending an Interest can do**: nothing, or track it and send it. It is sent if it fits,
there is a peer for it, and the transmission succeeds. -/
theorem psirpNetInterest_cases (node : PsirpNode) (name : PsirpName) (peer : Option PsirpPeer)
    (timeoutMs : UInt32) (env : SendEnv) :
    (psirpNetInterest node name peer timeoutMs env = (0, node, []) ∧
      ¬ (InterestFits name.components interestBufSize ∧
        (peer.or (psirpFibLookup node.fib name)).isSome = true ∧ env.sent = true)) ∨
    InterestFits name.components interestBufSize ∧ env.sent = true ∧ ∃ interest dest buf,
      interest.name = name ∧ peer.or (psirpFibLookup node.fib name) = some dest ∧
      psirpInterestSerialize interest interestBufSize = some buf ∧
      psirpNetInterest node name peer timeoutMs env = (interest.nonce, { node with
        pending := trackPending node.pending interest env.now
        interestsSent := node.interestsSent + 1 }, [⟨dest, .interest interest, buf⟩]) := by
  have hfits := @psirpInterestSerialize_isSome_iff
    ⟨name, env.nonce, if timeoutMs ≠ 0 then timeoutMs else psirpInterestTimeoutMs⟩ interestBufSize
  rw [psirpNetInterest]
  dsimp only
  split
  · rename_i hnone
    refine Or.inl ⟨rfl, fun h => ?_⟩
    obtain ⟨buf, hbuf⟩ := hfits.mpr h.1
    rw [hnone] at hbuf
    cases hbuf
  · rename_i buf hbuf
    split
    · rename_i hnone
      refine Or.inl ⟨rfl, fun h => ?_⟩
      rw [hnone] at h
      cases h.2.1
    · rename_i dest hdest
      split
      · rename_i hsent
        exact Or.inr ⟨hfits.mp ⟨buf, hbuf⟩, hsent, _, dest, buf, rfl, hdest, hbuf, rfl⟩
      · rename_i hsent
        exact Or.inl ⟨rfl, fun h => hsent h.2.2⟩

/-- What is sent for an Interest is an Interest. -/
theorem payload_psirpNetInterest {node : PsirpNode} {name : PsirpName} {peer : Option PsirpPeer}
    {timeoutMs : UInt32} {env : SendEnv} {dg : Datagram}
    (h : dg ∈ (psirpNetInterest node name peer timeoutMs env).2.2) :
    ∃ interest, dg.packet = .interest interest ∧
      psirpInterestSerialize interest interestBufSize = some dg.payload := by
  rcases psirpNetInterest_cases node name peer timeoutMs env with
    ⟨hquiet, -⟩ | ⟨-, -, interest, dest, buf, -, -, hbuf, hsent⟩
  · rw [hquiet] at h
    cases h
  · rw [hsent] at h
    obtain rfl := List.mem_singleton.mp h
    exact ⟨interest, rfl, hbuf⟩

/-- A node sends no Data packet when it forwards an Interest. -/
theorem data_notMem_psirpNetInterest {node : PsirpNode} {name : PsirpName}
    {peer : Option PsirpPeer} {timeoutMs : UInt32} {env : SendEnv} {dg : Datagram} {r : PsirpData}
    (h : dg ∈ (psirpNetInterest node name peer timeoutMs env).2.2) : dg.packet ≠ .data r := by
  obtain ⟨interest, hpacket, -⟩ := payload_psirpNetInterest h
  rw [hpacket]
  intro he
  cases he

/-- Only a datagram that is an Interest has an answer. -/
theorem mem_recvUnicast_iff {node : PsirpNode} {src : PsirpPeer} {buf : List UInt8} {env : RecvEnv}
    {dg : Datagram} :
    dg ∈ (recvUnicast node src buf env).2 ↔ ∃ interest,
      psirpInterestDeserialize PsirpInterest.zero buf = some interest ∧
        dg ∈ (recvInterest node src interest env).2 := by
  constructor
  · intro hdg
    rcases recvUnicast_cases node src buf env with ⟨interest, hdec, h⟩ | ⟨data, -, h⟩ | h
    · rw [h] at hdg
      exact ⟨interest, hdec, hdg⟩
    · rw [h] at hdg
      cases hdg
    · rw [h] at hdg
      cases hdg
  · rintro ⟨interest, hdec, hdg⟩
    rw [recvUnicast_interest hdec]
    exact hdg

/-- **Data is sent from the store only**, to the endpoint the Interest came from. -/
theorem data_mem_recvInterest_iff {node : PsirpNode} {src : PsirpPeer} {interest : PsirpInterest}
    {env : RecvEnv} {dg : Datagram} {r : PsirpData} (hr : dg.packet = .data r) :
    dg ∈ (recvInterest node src interest env).2 ↔
      ∃ entry, lookupEntry node.cs interest.name env.now = some entry ∧ r = replyOf entry ∧
        env.send.sent = true ∧ ∃ buf, psirpDataSerialize r psirpRecvBufSize = some buf ∧
          dg = ⟨src, .data r, buf⟩ := by
  rcases recvInterest_cases node src interest env with
    ⟨entry, hentry, hout⟩ | ⟨hnone, -, hout⟩ | ⟨fwd, hnone, -, hout⟩
  · rw [hout, mem_psirpNetData]
    constructor
    · rintro ⟨hsent, buf, hbuf, rfl⟩
      obtain rfl := Packet.data.inj hr
      exact ⟨entry, hentry, rfl, hsent, buf, hbuf, rfl⟩
    · rintro ⟨entry', hentry', rfl, hsent, buf, hbuf, rfl⟩
      obtain rfl := Option.some.inj (hentry.symm.trans hentry')
      exact ⟨hsent, buf, hbuf, rfl⟩
  · refine iff_of_false (fun hdg => ?_) fun ⟨_, hentry, _⟩ => ?_
    · rw [hout] at hdg
      cases hdg
    · rw [hnone] at hentry
      cases hentry
  · refine iff_of_false (fun hdg => ?_) fun ⟨_, hentry, _⟩ => ?_
    · rw [hout] at hdg
      exact data_notMem_psirpNetInterest hdg hr
    · rw [hnone] at hentry
      cases hentry

/-- Sending an Interest leaves the store, the routes, the peers and the sockets alone. -/
theorem psirpNetInterest_node (node : PsirpNode) (name : PsirpName) (peer : Option PsirpPeer)
    (timeoutMs : UInt32) (env : SendEnv) :
    let node' := (psirpNetInterest node name peer timeoutMs env).2.1
    node'.cs = node.cs ∧ node'.fib = node.fib ∧ node'.peers = node.peers ∧
      node'.hasMcast = node.hasMcast := by
  rcases psirpNetInterest_cases node name peer timeoutMs env with
    ⟨hquiet, -⟩ | ⟨-, -, interest, dest, buf, -, -, -, hsent⟩
  · rw [hquiet]
    exact ⟨rfl, rfl, rfl, rfl⟩
  · rw [hsent]
    exact ⟨rfl, rfl, rfl, rfl⟩

/-- An Interest that is received leaves the routes alone, and the store as a lookup does. -/
theorem recvInterest_node (node : PsirpNode) (src : PsirpPeer) (interest : PsirpInterest)
    (env : RecvEnv) :
    (recvInterest node src interest env).1.cs = (psirpCsLookup node.cs interest.name env.now).2 ∧
      (recvInterest node src interest env).1.fib = node.fib := by
  rw [recvInterest, PsirpNode.lookup]
  rcases lookupEntry node.cs interest.name env.now with _ | entry
  · dsimp only
    split
    · exact ⟨rfl, rfl⟩
    · rename_i fwd _
      obtain ⟨hcs, hfib, -⟩ := psirpNetInterest_node
        { node with cs := (psirpCsLookup node.cs interest.name env.now).2 } interest.name (some fwd)
        interest.lifetimeMs env.send
      exact ⟨hcs, hfib⟩
  · exact ⟨rfl, rfl⟩

/-- An Interest that is received adds at most one entry to the pending table. -/
theorem recvInterest_pending (node : PsirpNode) (src : PsirpPeer) (interest : PsirpInterest)
    (env : RecvEnv) :
    (recvInterest node src interest env).1.pending = node.pending ∨
      ∃ sent now, (recvInterest node src interest env).1.pending =
        trackPending node.pending sent now := by
  rw [recvInterest, PsirpNode.lookup]
  rcases lookupEntry node.cs interest.name env.now with _ | entry
  · dsimp only
    split
    · exact Or.inl rfl
    · rename_i fwd _
      rcases psirpNetInterest_cases { node with cs := (psirpCsLookup node.cs interest.name env.now).2 }
        interest.name (some fwd) interest.lifetimeMs env.send with
        ⟨hquiet, -⟩ | ⟨-, -, sent, dest, buf, -, -, -, hsent⟩
      · rw [hquiet]
        exact Or.inl rfl
      · rw [hsent]
        exact Or.inr ⟨sent, env.send.now, rfl⟩
  · exact Or.inl rfl

/-- The multicast half changes the known peers only. -/
theorem recvMulticast_node (node : PsirpNode) (src : PsirpPeer) (buf : List UInt8) :
    (recvMulticast node src buf).cs = node.cs ∧ (recvMulticast node src buf).fib = node.fib := by
  rw [recvMulticast, psirpNetAddPeer]
  split
  · split
    · exact ⟨rfl, rfl⟩
    · split <;> exact ⟨rfl, rfl⟩
  · exact ⟨rfl, rfl⟩

/-! ## Fetching -/

/-- One poll of the waiting loop. -/
structure FetchRound where
  /-- the clock as the loop condition reads it -/
  now : UInt64
  /-- what the receiver thread did to the node since the last poll -/
  receive : PsirpNode → PsirpNode
  /-- the clock as the lookup reads it -/
  lookupNow : UInt64

/-- The waiting loop of `psirp_net_fetch`, over the rounds it gets to before the clock passes the
deadline, and the lookup after it. -/
def fetchWait (name : PsirpName) (deadline lastNow : UInt64) : List FetchRound → PsirpNode →
    Option PsirpCsEntry × PsirpNode
  | [], node => node.lookup name lastNow
  | r :: rs, node =>
    if r.now < deadline then
      match (r.receive node).lookup name r.lookupNow with
      | (some entry, node) => (some entry, node)
      | (none, node) =>
        if node.pending.any fun p => p.active && psirpNameEqual p.name name then
          fetchWait name deadline lastNow rs node
        else node.lookup name lastNow
    else node.lookup name lastNow

/-- The loop that sends an Interest to each known peer; `env i` is the `i`-th transmission. -/
def fetchSend (name : PsirpName) (timeoutMs : UInt32) : List PsirpPeer → (Nat → SendEnv) →
    PsirpNode → PsirpNode × List Datagram
  | [], _, node => (node, [])
  | p :: ps, env, node =>
    let (_, node, out) := psirpNetInterest node name (some p) timeoutMs (env 0)
    let (node, out') := fetchSend name timeoutMs ps (fun i => env (i + 1)) node
    (node, out ++ out')

/-- What a blocking fetch reads from outside. -/
structure FetchEnv where
  /-- the clock at the first lookup -/
  firstNow : UInt64
  /-- the transmissions, to the known peers in order or to the multicast group -/
  send : Nat → SendEnv
  /-- the clock the deadline is set from -/
  startNow : UInt64
  /-- the polls -/
  rounds : List FetchRound
  /-- the clock at the last lookup -/
  lastNow : UInt64

/-- `psirp_net_fetch`, with the datagrams it sends -/
def psirpNetFetch (node : PsirpNode) (name : PsirpName) (timeoutMs : UInt32) (env : FetchEnv) :
    Option PsirpCsEntry × PsirpNode × List Datagram :=
  match node.lookup name env.firstNow with
  | (some entry, node) => (some entry, node, [])
  | (none, node) =>
    let (node', out) := fetchSend name timeoutMs node.peers env.send node
    let mcast :=
      if node.peers.length = 0 then (psirpNetMulticastInterest node' name (env.send 0)).2 else []
    let deadline := env.startNow + timeoutMs.toUInt64 * 1000000
    let (entry, node') := fetchWait name deadline env.lastNow env.rounds node'
    (entry, node', out ++ mcast)

end DsoBrowser
