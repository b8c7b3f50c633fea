import DsoBrowser.PrefixMatch

/-!
# The next hop of a forwarded Interest

`mesh_forward_interest` looks up a route and the peer it leads to, checks that this peer is
connected, and then has `psirp_net_fetch` send the Interest: to every peer the **node** knows, or,
if it knows none, to the multicast group. The route plays no part in that, so the Interest goes to
the next hop, and nowhere else, exactly when the node's own peers happen to be the right ones
(`takesNextHop_iff`).
-/

namespace DsoBrowser

open FirstMax

/-- An Interest for the name is sent to the address. -/
def Asked (out : List Datagram) (name : PsirpName) (addr : PsirpPeer) : Prop :=
  ∃ dg ∈ out, dg.dest = addr ∧ ∃ interest, dg.packet = .interest interest ∧ interest.name = name

/-! ## What a fetch sends -/

theorem asked_nil {name : PsirpName} {addr : PsirpPeer} : ¬ Asked [] name addr := by
  rintro ⟨dg, hdg, -⟩
  cases hdg

theorem asked_append {out out' : List Datagram} {name : PsirpName} {addr : PsirpPeer} :
    Asked (out ++ out') name addr ↔ Asked out name addr ∨ Asked out' name addr := by
  refine ⟨?_, ?_⟩
  · rintro ⟨dg, hdg, h⟩
    exact (List.mem_append.mp hdg).imp (fun hdg => ⟨dg, hdg, h⟩) fun hdg => ⟨dg, hdg, h⟩
  · rintro (⟨dg, hdg, h⟩ | ⟨dg, hdg, h⟩)
    · exact ⟨dg, List.mem_append_left _ hdg, h⟩
    · exact ⟨dg, List.mem_append_right _ hdg, h⟩

theorem asked_singleton {dest addr : PsirpPeer} {interest : PsirpInterest} {buf : List UInt8} :
    Asked [⟨dest, .interest interest, buf⟩] interest.name addr ↔ addr = dest := by
  refine ⟨?_, ?_⟩
  · rintro ⟨dg, hdg, rfl, -⟩
    rw [List.mem_singleton.mp hdg]
  · rintro rfl
    exact ⟨_, List.mem_singleton_self _, rfl, interest, rfl, rfl⟩

/-- An Interest for the name fits the buffer it is serialized to. -/
def Encodable (name : PsirpName) : Prop := InterestFits name.components interestBufSize

instance (name : PsirpName) : Decidable (Encodable name) :=
  inferInstanceAs (Decidable (InterestFits _ _))

/-- `psirp_net_interest` asks the peer it is given, if the transmission succeeds. -/
theorem asked_psirpNetInterest (name : PsirpName) (node : PsirpNode) (dest : PsirpPeer)
    (timeoutMs : UInt32) (env : SendEnv) (addr : PsirpPeer) :
    Asked (psirpNetInterest node name (some dest) timeoutMs env).2.2 name addr ↔
      Encodable name ∧ env.sent = true ∧ addr = dest := by
  rcases psirpNetInterest_cases node name (some dest) timeoutMs env with
    ⟨hquiet, hnot⟩ | ⟨hfits, hsent, interest, dest', buf, rfl, hdest, -, hout⟩
  · rw [hquiet]
    refine iff_of_false asked_nil fun h => hnot ⟨h.1, ?_, h.2.1⟩
    rw [Option.some_or]
    rfl
  · rw [Option.some_or] at hdest
    obtain rfl := Option.some.inj hdest
    rw [hout, asked_singleton]
    exact ⟨fun haddr => ⟨hfits, hsent, haddr⟩, fun h => h.2.2⟩

/-- The loop over the known peers asks each of them whose transmission succeeds. -/
theorem asked_fetchSend (name : PsirpName) (timeoutMs : UInt32) (addr : PsirpPeer)
    (ps : List PsirpPeer) :
    ∀ (env : Nat → SendEnv) (node : PsirpNode),
      Asked (fetchSend name timeoutMs ps env node).2 name addr ↔
        Encodable name ∧ ∃ i, ps[i]? = some addr ∧ (env i).sent = true := by
  induction ps with
  | nil =>
    intro env node
    exact iff_of_false asked_nil fun ⟨_, i, hi, _⟩ => by cases hi
  | cons p ps ih =>
    intro env node
    rw [fetchSend]
    dsimp only
    rw [asked_append, asked_psirpNetInterest, ih]
    refine ⟨?_, ?_⟩
    · rintro (⟨henc, hsent, rfl⟩ | ⟨henc, i, hi, hsent⟩)
      · exact ⟨henc, 0, rfl, hsent⟩
      · exact ⟨henc, i + 1, hi, hsent⟩
    · rintro ⟨henc, _ | i, hi, hsent⟩
      · exact Or.inl ⟨henc, hsent, (Option.some.inj hi).symm⟩
      · exact Or.inr ⟨henc, i, hi, hsent⟩

/-- `psirp_net_multicast_interest` asks the multicast group, if there is a socket for it and the
transmission succeeds. -/
theorem asked_psirpNetMulticastInterest (name : PsirpName) (node : PsirpNode) (env : SendEnv)
    (addr : PsirpPeer) :
    Asked (psirpNetMulticastInterest node name env).2 name addr ↔
      Encodable name ∧ node.hasMcast = true ∧ env.sent = true ∧ addr = multicastPeer := by
  have hfits := @psirpInterestSerialize_isSome_iff ⟨name, env.nonce, psirpInterestTimeoutMs⟩
    interestBufSize
  rw [psirpNetMulticastInterest]
  split
  · rename_i hmcast
    dsimp only
    split
    · rename_i hnone
      apply iff_of_false asked_nil
      intro h
      obtain ⟨buf, hbuf⟩ := hfits.mpr h.1
      rw [hnone] at hbuf
      cases hbuf
    · rename_i buf hbuf
      have henc : Encodable name := hfits.mp ⟨buf, hbuf⟩
      split
      · rename_i hsent
        exact asked_singleton.trans (by simp [henc, hmcast, hsent])
      · rename_i hsent
        exact iff_of_false asked_nil fun h => hsent h.2.2.1
  · rename_i hmcast
    exact iff_of_false asked_nil fun h => hmcast h.2.1

/-- Sending Interests leaves the store and the multicast socket alone. -/
theorem fetchSend_node (name : PsirpName) (timeoutMs : UInt32) (ps : List PsirpPeer) :
    ∀ (env : Nat → SendEnv) (node : PsirpNode),
      (fetchSend name timeoutMs ps env node).1.cs = node.cs ∧
        (fetchSend name timeoutMs ps env node).1.hasMcast = node.hasMcast := by
  induction ps with
  | nil =>
    intro env node
    exact ⟨rfl, rfl⟩
  | cons p ps ih =>
    intro env node
    obtain ⟨hcs, -, -, hmcast⟩ := psirpNetInterest_node node name (some p) timeoutMs (env 0)
    rw [fetchSend]
    exact ⟨(ih _ _).1.trans hcs, (ih _ _).2.trans hmcast⟩

/-- A lookup that finds nothing leaves the node as it is. -/
theorem PsirpNode.lookup_eq_none {node : PsirpNode} {name : PsirpName} {now : UInt64}
    (h : lookupEntry node.cs name now = none) : node.lookup name now = (none, node) := by
  have hcs : (psirpCsLookup node.cs name now).2 = node.cs := by
    rw [psirpCsLookup, lookupEntry_eq_none.mp h]
  rw [PsirpNode.lookup, h, hcs]

/-- **What a fetch sends.** On a miss it asks the known peers, or the multicast group if there
are none. -/
theorem asked_psirpNetFetch (name : PsirpName) (node : PsirpNode) (timeoutMs : UInt32)
    (env : FetchEnv) (addr : PsirpPeer) :
    Asked (psirpNetFetch node name timeoutMs env).2.2 name addr ↔
      lookupEntry node.cs name env.firstNow = none ∧ Encodable name ∧
        ((∃ i, node.peers[i]? = some addr ∧ (env.send i).sent = true) ∨
          (node.peers = [] ∧ node.hasMcast = true ∧ (env.send 0).sent = true ∧
            addr = multicastPeer)) := by
  cases hlookup : lookupEntry node.cs name env.firstNow with
  | none =>
    have hmcast : Asked (if node.peers.length = 0 then
          (psirpNetMulticastInterest (fetchSend name timeoutMs node.peers env.send node).1 name
            (env.send 0)).2 else []) name addr ↔
        Encodable name ∧ node.peers = [] ∧ node.hasMcast = true ∧ (env.send 0).sent = true ∧
          addr = multicastPeer := by
      split
      · rename_i hnone
        rw [asked_psirpNetMulticastInterest, (fetchSend_node _ _ _ _ _).2]
        simp [List.eq_nil_of_length_eq_zero hnone]
      · rename_i hsome
        exact iff_of_false asked_nil fun h => hsome (congrArg List.length h.2.1)
    rw [psirpNetFetch, PsirpNode.lookup_eq_none hlookup]
    dsimp only
    rw [asked_append, asked_fetchSend, hmcast, ← and_or_left]
    simp
  | some e =>
    rw [psirpNetFetch, PsirpNode.lookup, hlookup]
    exact iff_of_false asked_nil fun h => by cases h.1

/-! ## The route -/

/-- The route `mesh_fib_lookup` chooses matches the name. -/
theorem meshFibLookup_matches {ctx : MeshCtx} {name : PsirpName} {k : Nat}
    (h : meshFibLookup ctx name = some k) :
    ∃ e, ctx.fib[k]? = some e ∧ psirpNameIsPrefix e.pfx name = true := by
  rw [meshFibLookup, meshFibLookupLoop_eq_scan] at h
  obtain ⟨p, hfirst, hpos⟩ := scan_eq_some.mp h
  have hrow := hfirst.row
  rw [List.getElem?_map] at hrow
  obtain ⟨e, he, rfl⟩ := Option.map_eq_some_iff.mp hrow
  exact ⟨e, he, bot_lt_prefixWeight.mp (bot_le.trans_lt hpos)⟩

/-! ## Forwarding -/

/-- Some route that matches the name leads to a peer at the address. -/
def Designated (ctx : MeshCtx) (name : PsirpName) (addr : PsirpPeer) : Prop :=
  ∃ e ∈ ctx.fib, psirpNameIsPrefix e.pfx name = true ∧
    ∃ q, ctx.peers[e.peerIndex]? = some q ∧ q.addr = addr

/-- The call gets as far as the route, which leads to the connected peer `p`. -/
structure HasRoute (ctx : MeshCtx) (node : PsirpNode) (name : PsirpName) (ttl : UInt32)
    (nonce lookupNow : UInt64) (p : MeshPeer) : Prop where
  /-- the context has a node -/
  node_eq : ctx.node = some node
  /-- the content store has no answer -/
  miss : (ctx.lookup name lookupNow).1 = none
  /-- the nonce is new -/
  fresh : ∀ c ∈ ctx.interestCache, c.nonce ≠ nonce
  /-- there are hops left -/
  ttl_pos : 0 < ttl
  /-- the route and its peer -/
  route : ∃ k f, meshFibLookup ctx name = some k ∧ ctx.fib[k]? = some f ∧
    ctx.peers[f.peerIndex]? = some p
  /-- the peer is connected -/
  connected : p.state = .connected

/-- The Interest goes to the next hop, and to no peer without a route. -/
structure TakesNextHop (ctx : MeshCtx) (name : PsirpName) (p : MeshPeer) (out : List Datagram) :
    Prop where
  /-- the next hop is asked -/
  asked : Asked out name p.addr
  /-- whoever is asked has a route -/
  only : ∀ addr, Asked out name addr → Designated ctx name addr

/-- A lookup that finds nothing leaves the context as it is. -/
theorem MeshCtx.lookup_eq_none {ctx : MeshCtx} {name : PsirpName} {now : UInt64}
    (h : (ctx.lookup name now).1 = none) : ctx.lookup name now = (none, ctx) := by
  rw [MeshCtx.lookup] at h ⊢
  split at h
  · rename_i cs hcs
    have hnone : lookupEntry cs name now = none := h
    have hsame : (psirpCsLookup cs name now).2 = cs := by
      rw [psirpCsLookup, lookupEntry_eq_none.mp hnone]
    rw [hnone, hsame, ← hcs]
  · rename_i node hcs hnode
    rw [PsirpNode.lookup_eq_none h, ← hnode]
  · rfl

/-- With a route to a connected peer, the call sends what the fetch of the node sends. -/
theorem HasRoute.out_eq {ctx : MeshCtx} {node : PsirpNode} {name : PsirpName} {ttl : UInt32}
    {nonce : UInt64} {p : MeshPeer} {env : ForwardEnv}
    (h : HasRoute ctx node name ttl nonce env.lookupNow p) (fromPeer : UInt64)
    (timeoutMs : UInt32) :
    (meshForwardInterest ctx name ttl nonce fromPeer timeoutMs env).2.2 =
      (psirpNetFetch node name timeoutMs env.fetch).2.2 := by
  obtain ⟨k, f, hk, hf, hp⟩ := h.route
  have hfresh : ctx.interestCache.any (·.nonce = nonce) = false := by
    rw [List.any_eq_false]
    intro c hc
    simpa using h.fresh c hc
  have httl : ¬ ttl = 0 := by
    rintro rfl
    exact absurd h.ttl_pos (by decide)
  have hconnected : (ctx.peers[f.peerIndex]?).any (·.state = .connected) = true := by
    rw [hp]
    simpa using h.connected
  -- remembering the nonce leaves the node and the tables alone
  have hremember : ∀ now, (ctx.remember nonce now fromPeer).node = ctx.node ∧
      (ctx.remember nonce now fromPeer).fib = ctx.fib ∧
      (ctx.remember nonce now fromPeer).peers = ctx.peers := fun now => by
    rw [MeshCtx.remember]
    split <;> exact ⟨rfl, rfl, rfl⟩
  obtain ⟨hnode, hfib, hpeers⟩ := hremember env.cacheNow
  have hroute : (meshFibLookup (ctx.remember nonce env.cacheNow fromPeer) name).bind
      ((ctx.remember nonce env.cacheNow fromPeer).fib[·]?) = some f := by
    rw [meshFibLookup, hfib, ← meshFibLookup, hk]
    exact hf
  rw [meshForwardInterest, h.node_eq, if_neg (by simp), MeshCtx.lookup_eq_none h.miss]
  dsimp only
  rw [hfresh, if_neg Bool.false_ne_true, if_neg httl, hnode, h.node_eq, hroute]
  dsimp only
  rw [hpeers, if_pos hconnected]
  rfl

/-- What decides where the Interest goes: the node's content store, its known peers and, if it
knows none, its multicast socket. -/
def NodeAsksNextHop (ctx : MeshCtx) (node : PsirpNode) (name : PsirpName) (p : MeshPeer)
    (env : FetchEnv) : Prop :=
  lookupEntry node.cs name env.firstNow = none ∧ Encodable name ∧
    ((node.peers ≠ [] ∧ (∃ i, node.peers[i]? = some p.addr ∧ (env.send i).sent = true) ∧
        ∀ i addr, node.peers[i]? = some addr → (env.send i).sent = true →
          Designated ctx name addr) ∨
      (node.peers = [] ∧ node.hasMcast = true ∧ (env.send 0).sent = true ∧
        p.addr = multicastPeer))

/-- **The next hop is taken exactly when** the node's store misses, too, the Interest fits its
buffer, and either the next hop is among the peers the node knows and reaches, all of which have a
route; or the node knows no peer, and the next hop is the multicast group. -/
theorem takesNextHop_iff {ctx : MeshCtx} {node : PsirpNode} {name : PsirpName} {ttl : UInt32}
    {nonce : UInt64} {p : MeshPeer} {env : ForwardEnv}
    (h : HasRoute ctx node name ttl nonce env.lookupNow p) (fromPeer : UInt64)
    (timeoutMs : UInt32) :
    TakesNextHop ctx name p
        (meshForwardInterest ctx name ttl nonce fromPeer timeoutMs env).2.2 ↔
      NodeAsksNextHop ctx node name p env.fetch := by
  have hasked := asked_psirpNetFetch name node timeoutMs env.fetch
  rw [h.out_eq]
  refine ⟨?_, ?_⟩
  · rintro ⟨hnext, honly⟩
    obtain ⟨hmiss, henc, ⟨i, hi, hsent⟩ | hgroup⟩ := (hasked _).mp hnext
    · refine ⟨hmiss, henc, Or.inl ⟨?_, ⟨i, hi, hsent⟩, fun j addr hj hsent' => ?_⟩⟩
      · intro hnil
        rw [hnil] at hi
        cases hi
      · -- a peer that was reached was asked, so it has a route
        apply honly
        exact (hasked _).mpr ⟨hmiss, henc, Or.inl ⟨j, hj, hsent'⟩⟩
    · exact ⟨hmiss, henc, Or.inr hgroup⟩
  · rintro ⟨hmiss, henc, ⟨hne, hnext, honly⟩ | hgroup⟩
    · refine ⟨(hasked _).mpr ⟨hmiss, henc, Or.inl hnext⟩, fun addr haddr => ?_⟩
      obtain ⟨-, -, ⟨i, hi, hsent⟩ | ⟨hnil, -⟩⟩ := (hasked _).mp haddr
      · exact honly i addr hi hsent
      · exact absurd hnil hne
    · refine ⟨(hasked _).mpr ⟨hmiss, henc, Or.inr hgroup⟩, fun addr haddr => ?_⟩
      obtain ⟨hnil, -, -, hgroup⟩ := hgroup
      obtain ⟨-, -, ⟨i, hi, -⟩ | ⟨-, -, -, haddr⟩⟩ := (hasked _).mp haddr
      · rw [hnil] at hi
        cases hi
      · -- the group is the next hop, which the chosen route designates
        obtain ⟨k, f, hk, hf, hp⟩ := h.route
        obtain ⟨e, he, hmatch⟩ := meshFibLookup_matches hk
        obtain rfl := Option.some.inj (hf.symm.trans he)
        exact ⟨f, List.mem_of_getElem? hf, hmatch, p, hp, hgroup.trans haddr.symm⟩

/-- `/x` -/
def nameX : PsirpName := (psirpNameInit (text ['/', 'x'])).2

/-- A peer at port 1. -/
def peerX : MeshPeer := ⟨[text ['x']], ⟨1, 1⟩, .connected, 0, []⟩

/-- A node that knows the given peers. -/
def nodeX (known : List PsirpPeer) : PsirpNode := ⟨psirpCsInit, false, [], [], known, 0, 0, 0, 0⟩

/-- A context on that node that routes `/x` to the peer at port 1. -/
def ctxX (known : List PsirpPeer) : MeshCtx :=
  { meshInit (some (nodeX known)) .ofNode with peers := [peerX], fib := [⟨nameX, 0, 0, 0⟩] }

/-- Every transmission succeeds, and no answer is waited for. -/
def envX : ForwardEnv := ⟨0, 0, fun _ => ⟨7, true, 0⟩, ⟨0, fun _ => ⟨7, true, 0⟩, 0, [], 0⟩⟩

theorem hasRoute_ctxX (known : List PsirpPeer) :
    HasRoute (ctxX known) (nodeX known) nameX 16 1 envX.lookupNow peerX where
  node_eq := rfl
  miss := rfl
  fresh := nofun
  ttl_pos := by decide
  route := ⟨0, ⟨nameX, 0, 0, 0⟩, rfl, rfl, rfl⟩
  connected := rfl

/-- The next hop is taken by a node that knows it, and nobody else. -/
theorem takesNextHop_iff_x :
    TakesNextHop (ctxX [⟨1, 1⟩]) nameX peerX
      (meshForwardInterest (ctxX [⟨1, 1⟩]) nameX 16 1 0 100 envX).2.2 := by
  refine (takesNextHop_iff (hasRoute_ctxX [⟨1, 1⟩]) 0 100).mpr ⟨rfl, by decide, Or.inl ?_⟩
  refine ⟨List.cons_ne_nil _ _, ⟨0, rfl, rfl⟩, ?_⟩
  rintro (_ | i) addr hi -
  · obtain rfl := Option.some.inj hi
    exact ⟨_, List.mem_singleton_self _, by decide +kernel, peerX, rfl, rfl⟩
  · cases hi

/-- A node that knows another peer asks that one, and not the next hop. -/
theorem not_takesNextHop_x :
    HasRoute (ctxX [⟨2, 2⟩]) (nodeX [⟨2, 2⟩]) nameX 16 1 envX.lookupNow peerX ∧
      ¬ TakesNextHop (ctxX [⟨2, 2⟩]) nameX peerX
        (meshForwardInterest (ctxX [⟨2, 2⟩]) nameX 16 1 0 100 envX).2.2 := by
  refine ⟨hasRoute_ctxX [⟨2, 2⟩], fun h => ?_⟩
  have hasked := h.asked
  rw [(hasRoute_ctxX [⟨2, 2⟩]).out_eq] at hasked
  obtain ⟨-, -, ⟨_ | i, hi, -⟩ | ⟨hnil, -⟩⟩ := (asked_psirpNetFetch _ _ _ _ _).mp hasked
  · exact absurd (Option.some.inj hi) (by decide)
  · cases hi
  · cases hnil

end DsoBrowser
