import DsoBrowser.Dht

/-!
# The mesh overlay

The peer table, the forwarding table, the beacons and the Interest forwarding of `mesh.c`.

* Arrays with a count are lists; slots past the count are not modelled.
* A returned index is an `Option Nat`, where the code returns `-1` for `none`.
* Every clock reading is an argument. A call that reads the clock several times takes the
  readings as a sequence.
* A beacon's text is a C string. It is built in a buffer of `beaconBufSize` bytes with checks
  that do not cover every character; a text that does not fit has no defined outcome
  (`beaconText`).
-/

namespace DsoBrowser

/-- `MESH_MAX_PEERS` -/
def meshMaxPeers : Nat := 32

/-- `MESH_MAX_FIB` -/
def meshMaxFib : Nat := 128

/-- `MESH_MAX_PREFIXES` -/
def meshMaxPrefixes : Nat := 16

/-- `MESH_INTEREST_CACHE` -/
def meshInterestCacheSize : Nat := 256

/-- `MESH_BEACON_INTERVAL` -/
def meshBeaconInterval : UInt32 := 5000

/-- `MESH_PEER_TIMEOUT` -/
def meshPeerTimeout : UInt64 := 15000

/-- The buffers peer names and prefixes are written to. -/
def peerNameBufSize : Nat := 256

/-- The buffer a beacon is built in. -/
def beaconBufSize : Nat := 4096

/-- The separator of a beacon's fields. -/
def bar : CChar := ch '|'

/-- The separator of a beacon's prefixes. -/
def semicolon : CChar := ch ';'

/-- How every beacon starts. -/
def beaconHeader : CString := text ['M', 'E', 'S', 'H', '_', 'B', 'E', 'A', 'C', 'O', 'N', '|']

/-! ## The context -/

/-- `mesh_peer_state` -/
inductive MeshPeerState where
  /-- `MESH_PEER_UNKNOWN` -/
  | unknown : MeshPeerState
  /-- `MESH_PEER_DISCOVERED` -/
  | discovered : MeshPeerState
  /-- `MESH_PEER_CONNECTED` -/
  | connected : MeshPeerState
  /-- `MESH_PEER_DEAD` -/
  | dead : MeshPeerState
  deriving DecidableEq

/-- `mesh_peer` -/
structure MeshPeer where
  /-- name components -/
  name : List CString
  /-- address -/
  addr : PsirpPeer
  /-- state -/
  state : MeshPeerState
  /-- last beacon time (ms) -/
  lastSeen : UInt64
  /-- the components of the content prefixes -/
  prefixes : List (List CString)
  deriving DecidableEq

/-- `mesh_fib_entry` -/
structure MeshFibEntry where
  /-- content prefix to match -/
  pfx : PsirpName
  /-- position in the peer table -/
  peerIndex : Nat
  /-- lifetime, `0` for permanent -/
  lifetimeMs : UInt32
  /-- creation time (ms) -/
  createdAt : UInt64
  deriving DecidableEq

/-- `mesh_interest_cache` -/
structure MeshInterestCache where
  /-- Interest nonce -/
  nonce : UInt64
  /-- when it came (ms) -/
  timestamp : UInt64
  /-- which peer sent it, converted to `size_t` -/
  fromPeer : UInt64
  deriving DecidableEq

/-- The content store a context points to. -/
inductive MeshStore where
  /-- no store -/
  | null : MeshStore
  /-- the store of the node -/
  | ofNode : MeshStore
  /-- a store of its own -/
  | own : PsirpCs → MeshStore

/-- `mesh_ctx` -/
structure MeshCtx where
  /-- network node -/
  node : Option PsirpNode
  /-- content store -/
  cs : MeshStore
  /-- the first `peer_count` peers -/
  peers : List MeshPeer
  /-- the first `fib_count` routes -/
  fib : List MeshFibEntry
  /-- what we publish -/
  localPrefixes : List PsirpName
  /-- the nonces of the Interests seen -/
  interestCache : List MeshInterestCache
  /-- multicast group address -/
  mcastAddr : PsirpPeer
  /-- DHT node, if one is used -/
  dht : Option DhtNode
  /-- our reachable address -/
  selfAddr : PsirpPeer
  /-- statistics -/
  interestsForwarded : UInt64
  /-- statistics -/
  interestsDropped : UInt64
  /-- statistics -/
  dataForwarded : UInt64
  /-- statistics -/
  beaconsSent : UInt64
  /-- statistics -/
  beaconsReceived : UInt64
  /-- statistics -/
  multiHopRouted : UInt64

/-- `mesh_init` -/
def meshInit (node : Option PsirpNode) (cs : MeshStore) : MeshCtx :=
  ⟨node, cs, [], [], [], [], multicastPeer, none, ⟨0, 0⟩, 0, 0, 0, 0, 0, 0⟩

/-! ## Peer names -/

/-- The component loop of `mesh_peer_name_to_string` from component `i` on; `out` is the text
written so far. -/
def peerNameLoop (bufLen : Nat) : List CString → Nat → CString → CString
  | [], _, out => out
  | c :: cs, i, out =>
    if out.length < bufLen - 1 then
      let out := if 0 < i then out ++ [slash] else out
      peerNameLoop bufLen cs (i + 1) (out ++ c.take (bufLen - out.length - 1))
    else out

/-- `mesh_peer_name_to_string`, with a buffer of at least one byte -/
def meshPeerNameToString (peer : MeshPeer) (bufLen : Nat) : CString :=
  if peer.name = [] then []
  else peerNameLoop bufLen peer.name 0 (if 0 < bufLen - 1 then [slash] else [])

/-- The loop of `parse_name`, with room for `room` more components. Empty components are kept. -/
def parseNameLoop : Nat → CString → List CString
  | 0, _ => []
  | _ + 1, [] => []
  | room + 1, c :: cs =>
    ((c :: cs).takeWhile (· ≠ slash)).take (psirpMaxComponent - 1) ::
      parseNameLoop room (((c :: cs).dropWhile (· ≠ slash)).drop 1)

/-- `parse_name` -/
def parseName (str : CString) (max : Nat) : List CString := parseNameLoop max (skipSlash str)

/-! ## Peer management -/

/-- The test a peer is looked up with. -/
def hasName (name : CString) (peer : MeshPeer) : Bool :=
  meshPeerNameToString peer peerNameBufSize = name

/-- The update of a known peer. -/
def refreshPeer (addr : PsirpPeer) (now : UInt64) (peer : MeshPeer) : MeshPeer :=
  { peer with addr := addr, lastSeen := now, state := .connected }

/-- A new peer. -/
def newPeer (name : CString) (addr : PsirpPeer) (now : UInt64) : MeshPeer :=
  ⟨parseName name psirpMaxComponents, addr, .discovered, now, []⟩

/-- `mesh_add_peer` -/
def meshAddPeer (ctx : MeshCtx) (name : CString) (addr : PsirpPeer) (now : UInt64) :
    Option Nat × MeshCtx :=
  if meshMaxPeers ≤ ctx.peers.length then (none, ctx)
  else
    match ctx.peers.findIdx? (hasName name) with
    | some i => (some i, { ctx with peers := ctx.peers.modify i (refreshPeer addr now) })
    | none =>
      (some ctx.peers.length, { ctx with peers := ctx.peers ++ [newPeer name addr now] })

/-- `mesh_find_peer` -/
def meshFindPeer (ctx : MeshCtx) (name : CString) : Option Nat :=
  ctx.peers.findIdx? (hasName name)

/-- `mesh_peer_seen` -/
def meshPeerSeen (ctx : MeshCtx) (peerIndex : Nat) (now : UInt64) : MeshCtx :=
  { ctx with
    peers := ctx.peers.modify peerIndex fun p => { p with lastSeen := now, state := .connected } }

/-- `mesh_remove_fib` -/
def meshRemoveFib (ctx : MeshCtx) (fibIndex : Nat) : MeshCtx :=
  { ctx with fib := ctx.fib.eraseIdx fibIndex }

/-- The loop of `mesh_remove_peer` over the routes, positions `i - 1` down to `0`. -/
def removeRoutesLoop (peerIndex : Nat) : Nat → MeshCtx → MeshCtx
  | 0, ctx => ctx
  | i + 1, ctx =>
    if (ctx.fib[i]?).any (·.peerIndex = peerIndex) then
      removeRoutesLoop peerIndex i (meshRemoveFib ctx i)
    else removeRoutesLoop peerIndex i ctx

/-- `mesh_remove_peer` -/
def meshRemovePeer (ctx : MeshCtx) (peerIndex : Nat) : MeshCtx :=
  if ctx.peers.length ≤ peerIndex then ctx
  else
    let ctx := removeRoutesLoop peerIndex ctx.fib.length ctx
    { ctx with
      peers := ctx.peers.eraseIdx peerIndex
      fib := ctx.fib.map fun e =>
        if peerIndex < e.peerIndex then { e with peerIndex := e.peerIndex - 1 } else e }

/-- The loop of `mesh_check_timeouts`, positions `i - 1` down to `0`. -/
def checkTimeoutsLoop (now : UInt64) : Nat → MeshCtx → Nat × MeshCtx
  | 0, ctx => (0, ctx)
  | i + 1, ctx =>
    if (ctx.peers[i]?).any fun p => meshPeerTimeout < now - p.lastSeen then
      let (removed, ctx) := checkTimeoutsLoop now i (meshRemovePeer ctx i)
      (removed + 1, ctx)
    else checkTimeoutsLoop now i ctx

/-- `mesh_check_timeouts` -/
def meshCheckTimeouts (ctx : MeshCtx) (now : UInt64) : Nat × MeshCtx :=
  checkTimeoutsLoop now ctx.peers.length ctx

/-! ## Forwarding table -/

/-- The test a route is looked up with. -/
def isRoute (pfx : PsirpName) (peerIndex : Nat) (e : MeshFibEntry) : Bool :=
  psirpNameEqual e.pfx pfx && e.peerIndex = peerIndex

/-- `mesh_add_fib` -/
def meshAddFib (ctx : MeshCtx) (pfx : PsirpName) (peerIndex : Nat) (lifetimeMs : UInt32)
    (now : UInt64) : Bool × MeshCtx :=
  if ctx.peers.length ≤ peerIndex ∨ meshMaxFib ≤ ctx.fib.length then (false, ctx)
  else
    match ctx.fib.findIdx? (isRoute pfx peerIndex) with
    | some i =>
      (true, { ctx with
        fib := ctx.fib.modify i fun e => { e with lifetimeMs := lifetimeMs, createdAt := now } })
    | none => (true, { ctx with fib := ctx.fib ++ [⟨pfx, peerIndex, lifetimeMs, now⟩] })

/-- The scan of `mesh_fib_lookup` from position `i` on; `best` is the route chosen so far. -/
def meshFibLookupLoop (name : PsirpName) : List MeshFibEntry → Nat → Option Nat → Nat → Option Nat
  | [], _, best, _ => best
  | e :: es, i, best, bestLen =>
    if psirpNameIsPrefix e.pfx name && bestLen < e.pfx.components.length then
      meshFibLookupLoop name es (i + 1) (some i) e.pfx.components.length
    else meshFibLookupLoop name es (i + 1) best bestLen

/-- `mesh_fib_lookup` -/
def meshFibLookup (ctx : MeshCtx) (name : PsirpName) : Option Nat :=
  meshFibLookupLoop name ctx.fib 0 none 0

/-- The test of `mesh_fib_prune`. -/
def routeExpired (now : UInt64) (e : MeshFibEntry) : Bool :=
  0 < e.lifetimeMs && e.lifetimeMs.toUInt64 < now - e.createdAt

/-- The loop of `mesh_fib_prune`, positions `i - 1` down to `0`. -/
def fibPruneLoop (now : UInt64) : Nat → MeshCtx → Nat × MeshCtx
  | 0, ctx => (0, ctx)
  | i + 1, ctx =>
    if (ctx.fib[i]?).any (routeExpired now) then
      let (removed, ctx) := fibPruneLoop now i (meshRemoveFib ctx i)
      (removed + 1, ctx)
    else fibPruneLoop now i ctx

/-- `mesh_fib_prune` -/
def meshFibPrune (ctx : MeshCtx) (now : UInt64) : Nat × MeshCtx :=
  fibPruneLoop now ctx.fib.length ctx

/-! ## Beacons -/

/-- The name loop of `mesh_send_beacon`, over the local prefixes from position `i` on. -/
def beaconNameLoop : List PsirpName → Nat → CString
  | [], _ => []
  | p :: ps, i =>
    (if 0 < i then [slash] else []) ++
      match p.components with
      | c :: _ => c
      | [] => beaconNameLoop ps (i + 1)

/-- The component loop of `mesh_send_beacon` from component `j` on; `out` is the text written so
far. The check covers the component, but not the slash before it. -/
def beaconComponentsLoop : List CString → Nat → CString → CString
  | [], _, out => out
  | c :: cs, j, out =>
    let out := if 0 < j then out ++ [slash] else out
    if beaconBufSize - 2 ≤ out.length + c.length then out
    else beaconComponentsLoop cs (j + 1) (out ++ c)

/-- The prefix loop of `mesh_send_beacon` from prefix `i` on. -/
def beaconPrefixesLoop : List PsirpName → Nat → CString → CString
  | [], _, out => out
  | p :: ps, i, out =>
    let out := if 0 < i then out ++ [semicolon] else out
    beaconPrefixesLoop ps (i + 1) (beaconComponentsLoop p.components 0 out)

/-- The name a peer sends in its beacons. -/
def beaconName (localPrefixes : List PsirpName) : CString := beaconNameLoop localPrefixes 0

/-- The text `mesh_send_beacon` builds, if it stays inside its buffer. -/
def beaconText (localPrefixes : List PsirpName) : Option CString :=
  let out := beaconPrefixesLoop localPrefixes 0
    (beaconHeader ++ beaconName localPrefixes ++ [bar])
  if out.length < beaconBufSize then some out else none

/-- `mesh_send_beacon`: the verdict, the context and what is sent where, to every connected peer
and to the multicast group. No result where the text leaves its buffer. -/
def meshSendBeacon (ctx : MeshCtx) : Option (Bool × MeshCtx × List (PsirpPeer × CString)) :=
  match ctx.node with
  | none => some (false, ctx, [])
  | some _ =>
    (beaconText ctx.localPrefixes).map fun out =>
      (true, { ctx with beaconsSent := ctx.beaconsSent + 1 },
        ((ctx.peers.filter (·.state = .connected)).map (·.addr, out)) ++ [(ctx.mcastAddr, out)])

/-- `mesh_add_local_prefix` -/
def meshAddLocalPrefix (ctx : MeshCtx) (pfx : PsirpName) : MeshCtx :=
  if meshMaxPrefixes ≤ ctx.localPrefixes.length then ctx
  else { ctx with localPrefixes := ctx.localPrefixes ++ [pfx] }

/-- One announced prefix: note it in the peer's table and route it to the peer. The verdict of
`psirp_name_init` is ignored. -/
def announcePrefix (ctx : MeshCtx) (peerIndex : Nat) (prefixStr : CString) (now : UInt64) :
    MeshCtx :=
  (meshAddFib
    { ctx with
      peers := ctx.peers.modify peerIndex fun p =>
        { p with prefixes := p.prefixes ++ [parseName prefixStr psirpMaxComponents] } }
    (psirpNameInit prefixStr).2 peerIndex (meshBeaconInterval * 3) now).2

/-- The prefix loop of `mesh_process_beacon`, with `count` prefixes noted already. Each round takes
at least one character, so the length of the text is enough fuel. -/
def announceLoop (peerIndex : Nat) (now : Nat → UInt64) : Nat → CString → Nat → MeshCtx → MeshCtx
  | 0, _, _, ctx => ctx
  | _ + 1, [], _, ctx => ctx
  | fuel + 1, c :: cs, count, ctx =>
    if count < meshMaxPrefixes then
      let seg := (c :: cs).takeWhile (· ≠ semicolon)
      let rest := ((c :: cs).dropWhile (· ≠ semicolon)).drop 1
      if seg.length = 0 then announceLoop peerIndex now fuel rest count ctx
      else
        announceLoop peerIndex now fuel rest (count + 1)
          (announcePrefix ctx peerIndex (seg.take (peerNameBufSize - 1)) (now count))
    else ctx

/-- `mesh_process_beacon` on the text at `data`. The first two clock readings are those of the
peer, then comes one for each prefix. -/
def meshProcessBeacon (ctx : MeshCtx) (data : CString) (dataLen : Nat) (src : PsirpPeer)
    (now : Nat → UInt64) : Bool × MeshCtx :=
  if dataLen < beaconHeader.length then (false, ctx)
  else if data.take beaconHeader.length ≠ beaconHeader then (false, ctx)
  else
    let str := data.drop beaconHeader.length
    match str.dropWhile (· ≠ bar) with
    | [] => (false, ctx)
    | _ :: prefixes =>
      let name := (str.takeWhile (· ≠ bar)).take (peerNameBufSize - 1)
      match meshAddPeer ctx name src (now 0) with
      | (none, ctx) => (false, ctx)
      | (some i, ctx) =>
        let ctx := meshPeerSeen ctx i (now 1)
        let ctx := { ctx with peers := ctx.peers.modify i fun p => { p with prefixes := [] } }
        let ctx := announceLoop i (fun k => now (k + 2)) prefixes.length prefixes 0 ctx
        (true, { ctx with beaconsReceived := ctx.beaconsReceived + 1 })

/-! ## Forwarding -/

/-- `psirp_cs_lookup` on the context's store -/
def MeshCtx.lookup (ctx : MeshCtx) (name : PsirpName) (now : UInt64) :
    Option PsirpCsEntry × MeshCtx :=
  match ctx.cs, ctx.node with
  | .own cs, _ => (lookupEntry cs name now, { ctx with cs := .own (psirpCsLookup cs name now).2 })
  | .ofNode, some node =>
    ((node.lookup name now).1, { ctx with node := some (node.lookup name now).2 })
  | _, _ => (none, ctx)

/-- Tell the DHT that we hold the content, if there is one and we have an address. -/
def MeshCtx.announceHeld (ctx : MeshCtx) (name : PsirpName) : MeshCtx :=
  if ctx.selfAddr.port ≠ 0 then
    { ctx with dht := ctx.dht.map fun dht => dhtAnnounce dht name.hash ctx.selfAddr }
  else ctx

/-- Add an Interest to the dedup cache, if there is room. -/
def MeshCtx.remember (ctx : MeshCtx) (nonce now fromPeer : UInt64) : MeshCtx :=
  if ctx.interestCache.length < meshInterestCacheSize then
    { ctx with interestCache := ctx.interestCache ++ [⟨nonce, now, fromPeer⟩] }
  else ctx

/-- What forwarding an Interest reads from outside. -/
structure ForwardEnv where
  /-- the clock as the content store reads it -/
  lookupNow : UInt64
  /-- the clock of the dedup cache (ms) -/
  cacheNow : UInt64
  /-- the transmissions to the holders the DHT names -/
  holderSend : Nat → SendEnv
  /-- the fetch -/
  fetch : FetchEnv

/-- The fetch at the end of `mesh_forward_interest`, on the context's node, and its statistics. -/
def forwardFetch (ctx : MeshCtx) (node : PsirpNode) (name : PsirpName) (timeoutMs : UInt32)
    (env : FetchEnv) : Option PsirpCsEntry × MeshCtx × List Datagram :=
  let (result, node, out) := psirpNetFetch node name timeoutMs env
  (result, { ctx with
    node := some node
    multiHopRouted := ctx.multiHopRouted + 1
    dataForwarded := if result.isSome then ctx.dataForwarded + 1 else ctx.dataForwarded }, out)

/-- `mesh_forward_interest`, with the datagrams it sends. A route to a position outside the peer
table is taken for one to a peer that is not connected. -/
def meshForwardInterest (ctx : MeshCtx) (name : PsirpName) (ttl : UInt32) (nonce fromPeer : UInt64)
    (timeoutMs : UInt32) (env : ForwardEnv) : Option PsirpCsEntry × MeshCtx × List Datagram :=
  if ctx.node.isNone then (none, ctx, [])
  else
    match ctx.lookup name env.lookupNow with
    | (some entry, ctx) => (some entry, ctx.announceHeld name, [])
    | (none, ctx) =>
      if ctx.interestCache.any (·.nonce = nonce) then
        (none, { ctx with interestsDropped := ctx.interestsDropped + 1 }, [])
      else
        let ctx := ctx.remember nonce env.cacheNow fromPeer
        if ttl = 0 then (none, { ctx with interestsDropped := ctx.interestsDropped + 1 }, [])
        else
          match ctx.node, (meshFibLookup ctx name).bind (ctx.fib[·]?) with
          | none, _ => (none, ctx, [])
          | some node, none =>
            -- no route: ask the DHT who holds the content
            let holders := (ctx.dht.map fun dht => dhtLookup dht name.hash).getD []
            let (node, out) := fetchSend name timeoutMs holders env.holderSend node
            let ctx := { ctx with
              node := some node
              interestsForwarded := ctx.interestsForwarded + UInt64.ofNat holders.length }
            if holders.length = 0 then (none, ctx, [])
            else
              let (result, ctx, out') := forwardFetch ctx node name timeoutMs env.fetch
              (result, ctx, out ++ out')
          | some node, some fib =>
            if (ctx.peers[fib.peerIndex]?).any (·.state = .connected) then
              forwardFetch { ctx with interestsForwarded := ctx.interestsForwarded + 1 } node name
                timeoutMs env.fetch
            else (none, ctx, [])

end DsoBrowser
