import DsoBrowser.PeerRemoval
import DsoBrowser.PrefixMatch
import DsoBrowser.Refresh

/-!
# Peers without positions

In the tables of the mesh a peer is a position, which changes whenever a peer before it is removed.
A `Registry` is what the tables are there for: peers with numbers that are not given away twice, and
routes to numbers. Nothing has to be moved along in it. Whatever is called on a context, in any
order, the calls answer as they do on the registry, and names are routed to the same peers
(`meshTables_refine`).

The **simulation** is `Registers`: the peers are those of the registry, and the routes, followed
through the positions, are its routes.
-/

namespace DsoBrowser

open FirstMax Machine Positions Table

/-! ## The registry -/

/-- A route to a peer. -/
structure RegistryRoute where
  /-- content prefix to match -/
  pfx : PsirpName
  /-- lifetime, `0` for permanent -/
  lifetimeMs : UInt32
  /-- creation time (ms) -/
  createdAt : UInt64
  /-- the number of the peer -/
  peer : Nat

/-- The test of `mesh_fib_prune`. -/
def RegistryRoute.expired (now : UInt64) (r : RegistryRoute) : Bool :=
  0 < r.lifetimeMs && r.lifetimeMs.toUInt64 < now - r.createdAt

/-- Peers and routes. -/
structure Registry where
  /-- the next number that is given away -/
  next : Nat
  /-- the peers with their numbers, in the order they came in -/
  peers : List (MeshPeer × Nat)
  /-- the routes, in the order they came in -/
  routes : List RegistryRoute

namespace Registry

/-- Nobody is known. -/
def empty : Registry := ⟨0, [], []⟩

/-- The number of the peer at a position. -/
def number (reg : Registry) (i : Nat) : Option Nat := (reg.peers[i]?).map Prod.snd

/-- The position of the peer with a number. -/
def position (reg : Registry) (n : Nat) : Option Nat := reg.peers.findIdx? (·.2 = n)

/-- Change one peer. -/
def update (reg : Registry) (n : Nat) (f : MeshPeer → MeshPeer) : Registry :=
  { reg with peers := reg.peers.map fun p => if p.2 = n then (f p.1, p.2) else p }

/-- Take out peers, with the routes to them. -/
def forget (reg : Registry) (gone : MeshPeer × Nat → Bool) : Registry :=
  { reg with
    peers := reg.peers.filter fun p => !gone p
    routes := reg.routes.filter fun r => !reg.peers.any fun p => p.2 = r.peer && gone p }

/-- Refresh the peer with the name, or add one if there is room. -/
def addPeer (reg : Registry) (name : CString) (addr : PsirpPeer) (now : UInt64) :
    Option Nat × Registry :=
  if meshMaxPeers ≤ reg.peers.length then (none, reg)
  else
    match reg.peers.find? fun p => hasName name p.1 with
    | some p => (some p.2, reg.update p.2 (refreshPeer addr now))
    | none =>
      (some reg.next, { reg with
        next := reg.next + 1
        peers := reg.peers ++ [(newPeer name addr now, reg.next)] })

/-- The test a route is looked up with. -/
def isRoute (pfx : PsirpName) (n : Nat) (r : RegistryRoute) : Bool :=
  psirpNameEqual r.pfx pfx && r.peer = n

/-- Refresh the route, or add one if there is room. -/
def addRoute (reg : Registry) (pfx : PsirpName) (n : Nat) (lifetimeMs : UInt32) (now : UInt64) :
    Bool × Registry :=
  if meshMaxFib ≤ reg.routes.length then (false, reg)
  else
    match reg.routes.findIdx? (isRoute pfx n) with
    | some i =>
      (true, { reg with
        routes := reg.routes.modify i fun r =>
          { r with lifetimeMs := lifetimeMs, createdAt := now } })
    | none => (true, { reg with routes := reg.routes ++ [⟨pfx, lifetimeMs, now, n⟩] })

/-- Note a prefix of a peer. -/
def notePrefix (s : CString) (p : MeshPeer) : MeshPeer :=
  { p with prefixes := p.prefixes ++ [parseName s psirpMaxComponents] }

/-- A peer announces prefix strings, of which it has announced `count` before. -/
def announce (n : Nat) (now : Nat → UInt64) : List CString → Nat → Registry → Registry
  | [], _, reg => reg
  | s :: ss, count, reg =>
    announce n now ss (count + 1)
      ((reg.update n (notePrefix s)).addRoute (psirpNameInit s).2 n (meshBeaconInterval * 3)
        (now count)).2

/-- A peer has sent a beacon, and its prefixes are noted anew. -/
def greet (now : UInt64) (p : MeshPeer) : MeshPeer :=
  { p with lastSeen := now, state := .connected, prefixes := [] }

/-- Hear a beacon. -/
def hear (reg : Registry) (data : CString) (dataLen : Nat) (src : PsirpPeer)
    (now : Nat → UInt64) : Bool × Registry :=
  if IsBeacon data dataLen then
    match reg.addPeer (beaconSender data) src (now 0) with
    | (none, reg) => (false, reg)
    | (some n, reg) =>
      (true, announce n (fun k => now (k + 2))
        ((beaconStrings data).map (·.take (peerNameBufSize - 1))) 0
        (reg.update n (greet (now 1))))
  else (false, reg)

/-- The peer a name is routed to: that of the first of the longest prefixes. -/
def nextHop (reg : Registry) (name : PsirpName) : Option MeshPeer := do
  let i ← scan (fun r => prefixWeight name r.pfx) reg.routes 0 none (WithBot.some 0)
  let r ← reg.routes[i]?
  (reg.peers.find? (·.2 = r.peer)).map Prod.fst

end Registry

/-! ## The interface -/

/-- A call on the tables, or a look at them. -/
inductive TableCall where
  /-- a call -/
  | call : MeshOp → TableCall
  /-- where `mesh_forward_interest` takes a name to be routed to -/
  | nextHop : PsirpName → TableCall
  /-- the peers, as the programs list them -/
  | peers : TableCall

/-- What is answered. -/
inductive TableAnswer where
  /-- what the call returns -/
  | answer : MeshAnswer → TableAnswer
  /-- a peer, if there is a route to one -/
  | hop : Option MeshPeer → TableAnswer
  /-- a list of peers -/
  | peers : List MeshPeer → TableAnswer

/-- The peer that the route found for a name refers to. -/
def meshNextHop (ctx : MeshCtx) (name : PsirpName) : Option MeshPeer := do
  let i ← meshFibLookup ctx name
  let e ← ctx.fib[i]?
  ctx.peers[e.peerIndex]?

/-- One call, on the tables. -/
def tableStep (ctx : MeshCtx) : TableCall → TableAnswer × MeshCtx
  | .call op => (.answer (meshStep ctx op).1, (meshStep ctx op).2)
  | .nextHop name => (.hop (meshNextHop ctx name), ctx)
  | .peers => (.peers ctx.peers, ctx)

/-- A call of the interface, on the registry. Its positions are those in the list of peers. -/
def Registry.step (reg : Registry) : MeshOp → MeshAnswer × Registry
  | .init _ _ => (.done, .empty)
  | .addPeer name addr now =>
    let (n, reg) := reg.addPeer name addr now
    (.index (n.bind reg.position), reg)
  | .removePeer i =>
    match reg.number i with
    | none => (.done, reg)
    | some n => (.done, reg.forget (·.2 = n))
  | .peerSeen i now =>
    match reg.number i with
    | none => (.done, reg)
    | some n => (.done, reg.update n fun p => { p with lastSeen := now, state := .connected })
  | .checkTimeouts now =>
    (.removed (reg.peers.countP fun p => peerTimedOut now p.1),
      reg.forget fun p => peerTimedOut now p.1)
  | .addFib pfx i lifetimeMs now =>
    match reg.number i with
    | none => (.verdict false, reg)
    | some n =>
      let (ok, reg) := reg.addRoute pfx n lifetimeMs now
      (.verdict ok, reg)
  | .removeFib i => (.done, { reg with routes := reg.routes.eraseIdx i })
  | .fibPrune now =>
    (.removed (reg.routes.countP (RegistryRoute.expired now)),
      { reg with routes := reg.routes.filter fun r => !r.expired now })
  | .processBeacon data dataLen src now =>
    let (ok, reg) := reg.hear data dataLen src now
    (.verdict ok, reg)

/-- One call, on the registry. -/
def registryStep (reg : Registry) : TableCall → TableAnswer × Registry
  | .call op => (.answer (reg.step op).1, (reg.step op).2)
  | .nextHop name => (.hop (reg.nextHop name), reg)
  | .peers => (.peers (reg.peers.map Prod.fst), reg)

/-! ## The simulation -/

/-- What a route is read as: its fields, and whom it leads to. -/
def RegistryRoute.read (r : RegistryRoute) : (PsirpName × UInt32 × UInt64) × Option Nat :=
  ((r.pfx, r.lifetimeMs, r.createdAt), some r.peer)

/-- What a route of the tables is read as, when the peers have these numbers. -/
def readIn (numbers : List Nat) (e : MeshFibEntry) : (PsirpName × UInt32 × UInt64) × Option Nat :=
  ((e.pfx, e.lifetimeMs, e.createdAt), numbers[e.peerIndex]?)

theorem follow_routeRefs (numbers : List Nat) (fib : List MeshFibEntry) :
    follow numbers (routeRefs fib) = fib.map (readIn numbers) :=
  List.map_map

/-- The tables show what the registry has. -/
structure Registers (ctx : MeshCtx) (reg : Registry) : Prop where
  /-- the peers are the same -/
  peers_eq : ctx.peers = reg.peers.map Prod.fst
  /-- their numbers are different -/
  keyed : Keyed Prod.snd reg.peers
  /-- and were given away -/
  lt_next : ∀ p ∈ reg.peers, p.2 < reg.next
  /-- the routes are the same -/
  routes_eq : ctx.fib.map (readIn (reg.peers.map Prod.snd)) = reg.routes.map RegistryRoute.read

theorem registers_empty (node : Option PsirpNode) (cs : MeshStore) :
    Registers (meshInit node cs) .empty :=
  ⟨rfl, List.nodup_nil, fun _ hp => absurd hp List.not_mem_nil, rfl⟩

section Rows

variable {rows : List (MeshPeer × Nat)} {i : Nat} {p : MeshPeer × Nat}

theorem find?_number (h : Keyed Prod.snd rows) (hp : p ∈ rows) :
    rows.find? (fun q => q.2 = p.2) = some p :=
  h.row_eq_some.mpr ⟨hp, rfl⟩

/-- The position of a peer is found by its number. -/
theorem findIdx?_number (h : Keyed Prod.snd rows) (hi : rows[i]? = some p) :
    rows.findIdx? (fun q => q.2 = p.2) = some i := by
  obtain ⟨j, hj⟩ : ∃ j, rows.findIdx? (fun q => q.2 = p.2) = some j :=
    Option.isSome_iff_exists.mp (List.findIdx?_isSome.trans
      (List.any_eq_true.mpr ⟨p, List.mem_of_getElem? hi, decide_eq_true rfl⟩))
  obtain ⟨hlt, htest, -⟩ := List.findIdx?_eq_some_iff_getElem.mp hj
  rw [hj, h.index_inj (List.getElem?_eq_getElem hlt) hi (of_decide_eq_true htest)]

/-- Changing the peer with a number changes the one at its position. -/
theorem map_fst_update (h : Keyed Prod.snd rows) (hi : rows[i]? = some p)
    (f : MeshPeer → MeshPeer) :
    (rows.map fun q => if q.2 = p.2 then (f q.1, q.2) else q).map Prod.fst =
      (rows.map Prod.fst).modify i f := by
  apply List.ext_getElem?
  intro j
  rw [List.getElem?_map, List.getElem?_map, List.getElem?_modify, List.getElem?_map]
  cases hj : rows[j]? with
  | none => rfl
  | some q =>
    simp only [Option.map_some]
    by_cases hq : q.2 = p.2
    · rw [if_pos hq, h.index_inj hj hi hq]
      simp
    · have hne : i ≠ j := by
        rintro rfl
        rw [hi] at hj
        exact hq (congrArg Prod.snd (Option.some.inj hj).symm)
      rw [if_neg hq]
      simp [hne]

theorem map_snd_update (n : Nat) (f : MeshPeer → MeshPeer) :
    (rows.map fun q => if q.2 = n then (f q.1, q.2) else q).map Prod.snd = rows.map Prod.snd := by
  rw [List.map_map]
  refine List.map_congr_left fun q _ => ?_
  rw [Function.comp_apply]
  split <;> rfl

/-- Taking out a number takes out the row at its position. -/
theorem filter_number (h : Keyed Prod.snd rows) (hi : rows[i]? = some p) :
    rows.filter (fun q => !decide (q.2 = p.2)) = rows.eraseIdx i := by
  obtain ⟨hlt, hget⟩ := List.getElem?_eq_some_iff.mp hi
  have hcut : rows = rows.take i ++ p :: rows.drop (i + 1) := by
    rw [← hget, ← List.drop_eq_getElem_cons hlt, List.take_append_drop]
  rw [hcut] at h
  have hne : ∀ q ∈ rows.take i ++ rows.drop (i + 1), (!decide (q.2 = p.2)) = true := by
    intro q hq
    rw [Bool.not_eq_true', decide_eq_false_iff_not]
    exact h.key_ne_of_cut hq
  rw [List.eraseIdx_eq_take_drop_succ]
  nth_rewrite 1 [hcut]
  rw [List.filter_append, List.filter_cons_of_neg (by simp), ← List.filter_append,
    List.filter_eq_self.mpr hne]

/-- The peer with a number meets a test, if one does. -/
theorem any_number (h : Keyed Prod.snd rows) (hp : p ∈ rows) (test : MeshPeer × Nat → Bool) :
    (rows.any fun q => q.2 = p.2 && test q) = test p := by
  rw [Bool.eq_iff_iff, List.any_eq_true]
  refine ⟨?_, fun htest => ⟨p, hp, ?_⟩⟩
  · rintro ⟨q, hq, htest⟩
    obtain ⟨hn, htest⟩ := Bool.and_eq_true_iff.mp htest
    rwa [← h.eq_of_key_eq hq hp (of_decide_eq_true hn)]
  · rw [decide_eq_true rfl, htest, Bool.and_self]

end Rows

section Steps

variable {ctx : MeshCtx} {reg : Registry}

theorem Registers.number_eq (reg : Registry) (i : Nat) :
    reg.number i = (reg.peers.map Prod.snd)[i]? := List.getElem?_map.symm

theorem Registers.length_fib (h : Registers ctx reg) : ctx.fib.length = reg.routes.length := by
  have hlen := congrArg List.length h.routes_eq
  rwa [List.length_map, List.length_map] at hlen

theorem Registers.length_peers (h : Registers ctx reg) :
    ctx.peers.length = reg.peers.length := by
  rw [h.peers_eq, List.length_map]

/-- The row of a numbered peer. -/
theorem exists_row {i n : Nat} (hn : reg.number i = some n) :
    ∃ p, reg.peers[i]? = some p ∧ p.2 = n := Option.map_eq_some_iff.mp hn

/-- Nothing but the tables is looked at. -/
theorem Registers.congr (h : Registers ctx reg) {ctx' : MeshCtx} (hpeers : ctx'.peers = ctx.peers)
    (hfib : ctx'.fib = ctx.fib) : Registers ctx' reg :=
  ⟨hpeers.trans h.peers_eq, h.keyed, h.lt_next, by rw [hfib]; exact h.routes_eq⟩

theorem Registers.exists_number (h : Registers ctx reg) {i : Nat} (hi : i < ctx.peers.length) :
    ∃ n, reg.number i = some n :=
  ⟨_, (Registers.number_eq reg i).trans (List.getElem?_eq_getElem (by
    rwa [List.length_map, ← h.length_peers]))⟩

theorem Registers.length_le_of_number (h : Registers ctx reg) {i : Nat}
    (hn : reg.number i = none) : ctx.peers.length ≤ i := by
  by_contra hlt
  obtain ⟨n, hsome⟩ := h.exists_number (Nat.not_le.mp hlt)
  rw [hn] at hsome
  cases hsome

/-- Numbers and positions belong together. -/
theorem Registers.position_eq (h : Registers ctx reg) {i n : Nat} (hn : reg.number i = some n) :
    reg.position n = some i := by
  obtain ⟨p, hp, rfl⟩ := exists_row hn
  exact findIdx?_number h.keyed hp

/-- Changing one peer. -/
theorem Registers.update (h : Registers ctx reg) {i n : Nat} (hn : reg.number i = some n)
    (f : MeshPeer → MeshPeer) :
    Registers { ctx with peers := ctx.peers.modify i f } (reg.update n f) := by
  obtain ⟨p, hp, rfl⟩ := exists_row hn
  refine ⟨?_, ?_, ?_, ?_⟩
  · exact (congrArg (·.modify i f) h.peers_eq).trans (map_fst_update h.keyed hp f).symm
  · rw [Keyed, Registry.update, map_snd_update]
    exact h.keyed
  · intro q hq
    obtain ⟨r, hr, rfl⟩ := List.mem_map.mp hq
    split
    · exact h.lt_next r hr
    · exact h.lt_next r hr
  · rw [Registry.update, map_snd_update]
    exact h.routes_eq

theorem mem_update {p : MeshPeer × Nat} (hp : p ∈ reg.peers) (f : MeshPeer → MeshPeer) :
    (f p.1, p.2) ∈ (reg.update p.2 f).peers := by
  refine List.mem_map.mpr ⟨p, hp, ?_⟩
  rw [if_pos rfl]

theorem number_update (reg : Registry) (n : Nat) (f : MeshPeer → MeshPeer) (i : Nat) :
    (reg.update n f).number i = reg.number i := by
  rw [Registers.number_eq, Registers.number_eq, Registry.update, map_snd_update]

/-- **Taking out peers** with the routes to them. -/
theorem Registers.forget (h : Registers ctx reg) {gone : MeshPeer × Nat → Bool} {ctx' : MeshCtx}
    (hpeers : ctx'.peers = (reg.peers.filter fun p => !gone p).map Prod.fst)
    (hroutes : follow (reg.peers.filter fun p => !gone p) (routeRefs ctx'.fib) =
      follow reg.peers ((routeRefs ctx.fib).filter fun r => !(reg.peers[r.2]?).any gone)) :
    Registers ctx' (reg.forget gone) := by
  refine ⟨hpeers, ?_, fun p hp => h.lt_next p (List.mem_of_mem_filter hp), ?_⟩
  · exact h.keyed.subperm List.filter_sublist.subperm
  · -- a route goes if the peer it is read to lead to does
    let stays : (PsirpName × UInt32 × UInt64) × Option Nat → Bool :=
      fun r => !r.2.any fun n => reg.peers.any fun p => p.2 = n && gone p
    have htest : ∀ r : (PsirpName × UInt32 × UInt64) × Nat, (!(reg.peers[r.2]?).any gone) =
        stays (Prod.map id ((reg.peers.map Prod.snd)[·]?) r) := by
      intro r
      have hrow : (Prod.map id ((reg.peers.map Prod.snd)[·]?) r).2 =
          (reg.peers[r.2]?).map Prod.snd := List.getElem?_map
      simp only [stays, hrow]
      cases hr : reg.peers[r.2]? with
      | none => rfl
      | some p =>
        rw [Option.any_some, Option.map_some, Option.any_some, any_number h.keyed
          (List.mem_of_getElem? hr)]
    have hreg : (reg.forget gone).routes = reg.routes.filter fun r => stays r.read := rfl
    rw [← follow_routeRefs]
    calc follow ((reg.peers.filter fun p => !gone p).map Prod.snd) (routeRefs ctx'.fib)
      _ = follow (reg.peers.map Prod.snd)
            ((routeRefs ctx.fib).filter fun r => !(reg.peers[r.2]?).any gone) := by
          rw [follow_map, hroutes, follow_map]
      _ = (follow (reg.peers.map Prod.snd) (routeRefs ctx.fib)).filter stays := by
          rw [follow, follow, List.filter_map]
          exact congrArg _ (List.filter_congr fun r _ => htest r)
      _ = (reg.forget gone).routes.map RegistryRoute.read := by
          rw [follow_routeRefs, h.routes_eq, List.filter_map, hreg]
          rfl

theorem Registers.removePeer (h : Registers ctx reg) {i n : Nat} (hn : reg.number i = some n) :
    Registers (meshRemovePeer ctx i) (reg.forget (·.2 = n)) := by
  obtain ⟨p, hp, rfl⟩ := exists_row hn
  obtain ⟨hlt, -⟩ := List.getElem?_eq_some_iff.mp hp
  have hi : i < ctx.peers.length := h.length_peers ▸ hlt
  have hrows := filter_number h.keyed hp
  refine h.forget ?_ ?_
  · rw [meshRemovePeer_eq hi, hrows, ← List.eraseIdx_map]
    exact congrArg (·.eraseIdx i) h.peers_eq
  · rw [hrows, routeRefs_meshRemovePeer hi, follow_detach]
    refine congrArg _ (List.filter_congr fun r _ => ?_)
    -- the position is that of the number
    rw [Bool.not_inj_iff, Bool.eq_iff_iff, decide_eq_true_eq]
    cases hr : reg.peers[r.2]? with
    | none =>
      have hne : r.2 ≠ i := by
        intro he
        rw [he, hp] at hr
        cases hr
      simp [hne]
    | some q =>
      rw [Option.any_some, decide_eq_true_eq]
      refine ⟨?_, h.keyed.index_inj hr hp⟩
      intro he
      rw [he, hp] at hr
      rw [Option.some.inj hr]

theorem Registers.checkTimeouts (h : Registers ctx reg) (now : UInt64) :
    (meshCheckTimeouts ctx now).1 = reg.peers.countP (fun p => peerTimedOut now p.1) ∧
      Registers (meshCheckTimeouts ctx now).2 (reg.forget fun p => peerTimedOut now p.1) := by
  obtain ⟨hpeers, hroutes, -⟩ := checkTimeoutsLoop_eq now ctx.peers.length le_rfl h.peers_eq
  rw [sweepWith_fst, h.length_peers, sweep_length] at hpeers
  rw [h.length_peers] at hroutes
  refine ⟨?_, h.forget ?_ ?_⟩
  · rw [meshCheckTimeouts_fst, h.peers_eq, List.countP_map]
    rfl
  · rw [meshCheckTimeouts, h.length_peers, hpeers]
  · rw [meshCheckTimeouts, h.length_peers, hroutes, follow_sweepWith]

/-- Routes lead to peers that are there. -/
theorem Registers.index_lt (h : Registers ctx reg) {e : MeshFibEntry} (he : e ∈ ctx.fib) :
    e.peerIndex < (reg.peers.map Prod.snd).length := by
  have hread : readIn (reg.peers.map Prod.snd) e ∈ reg.routes.map RegistryRoute.read :=
    h.routes_eq ▸ List.mem_map_of_mem he
  obtain ⟨r, -, hr⟩ := List.mem_map.mp hread
  exact (List.getElem?_eq_some_iff.mp (congrArg Prod.snd hr).symm).1

/-- **Adding a peer** gives it a number. -/
theorem Registers.addPeer (h : Registers ctx reg) (name : CString) (addr : PsirpPeer)
    (now : UInt64) :
    (reg.addPeer name addr now).1 =
        (meshAddPeer ctx name addr now).1.bind (reg.addPeer name addr now).2.number ∧
      Registers (meshAddPeer ctx name addr now).2 (reg.addPeer name addr now).2 := by
  have hfind : ctx.peers.findIdx? (hasName name) =
      reg.peers.findIdx? fun p => hasName name p.1 := by
    rw [h.peers_eq, List.findIdx?_map]
    rfl
  rw [meshAddPeer, Registry.addPeer, h.length_peers, hfind, List.find?_eq_bind_findIdx?_getElem?]
  split
  · exact ⟨rfl, h⟩
  · cases hi : reg.peers.findIdx? fun p => hasName name p.1 with
    | none =>
      dsimp only [Option.bind_none]
      have hnew : (reg.peers ++ [(newPeer name addr now, reg.next)])[reg.peers.length]? =
          some (newPeer name addr now, reg.next) := List.getElem?_concat_length
      refine ⟨(congrArg (Option.map Prod.snd) hnew).symm, ?_, ?_, ?_, ?_⟩
      · rw [h.peers_eq, List.map_append]
        rfl
      · exact h.keyed.concat fun p hp => Nat.ne_of_lt (h.lt_next p hp)
      · intro p hp
        rcases List.mem_append.mp hp with hp | hp
        · exact Nat.lt_succ_of_lt (h.lt_next p hp)
        · rw [List.mem_singleton.mp hp]
          exact Nat.lt_succ_self _
      · -- no route leads to the peer yet
        rw [← h.routes_eq, List.map_append]
        refine List.map_congr_left fun e he => ?_
        rw [readIn, readIn, List.getElem?_append_left (h.index_lt he)]
    | some i =>
      obtain ⟨hlt, -⟩ := List.findIdx?_eq_some_iff_getElem.mp hi
      have hp : reg.peers[i]? = some reg.peers[i] := List.getElem?_eq_getElem hlt
      have hn : reg.number i = some reg.peers[i].2 := congrArg (Option.map Prod.snd) hp
      rw [Option.bind_some, hp]
      exact ⟨((number_update reg _ _ i).trans hn).symm, h.update hn (refreshPeer addr now)⟩

/-- A route is found where it is in the registry. -/
theorem Registers.findIdx?_isRoute (h : Registers ctx reg) {i n : Nat}
    (hn : reg.number i = some n) (pfx : PsirpName) :
    ctx.fib.findIdx? (isRoute pfx i) = reg.routes.findIdx? (Registry.isRoute pfx n) := by
  let test : (PsirpName × UInt32 × UInt64) × Option Nat → Bool :=
    fun r => psirpNameEqual r.1.1 pfx && decide (r.2 = some n)
  have htest : ∀ e ∈ ctx.fib, isRoute pfx i e = test (readIn (reg.peers.map Prod.snd) e) := by
    intro e he
    have hlt := h.index_lt he
    rw [Registers.number_eq] at hn
    refine congrArg (psirpNameEqual e.pfx pfx && ·) (decide_eq_decide.mpr ?_)
    change e.peerIndex = i ↔ (reg.peers.map Prod.snd)[e.peerIndex]? = some n
    rw [← hn, List.getElem?_inj hlt h.keyed]
  have hreg : reg.routes.findIdx? (Registry.isRoute pfx n) =
      reg.routes.findIdx? (test ∘ RegistryRoute.read) := by
    refine findIdx?_congr fun r _ => congrArg (psirpNameEqual r.pfx pfx && ·) ?_
    exact decide_eq_decide.mpr (Option.some_inj (a := r.peer)).symm
  rw [findIdx?_congr htest, hreg, ← List.findIdx?_map, ← h.routes_eq, List.findIdx?_map]
  rfl

/-- **Adding a route.** -/
theorem Registers.addRoute (h : Registers ctx reg) {i n : Nat} (hn : reg.number i = some n)
    (pfx : PsirpName) (lifetimeMs : UInt32) (now : UInt64) :
    (meshAddFib ctx pfx i lifetimeMs now).1 = (reg.addRoute pfx n lifetimeMs now).1 ∧
      Registers (meshAddFib ctx pfx i lifetimeMs now).2 (reg.addRoute pfx n lifetimeMs now).2 := by
  obtain ⟨p, hp, rfl⟩ := exists_row hn
  obtain ⟨hlt, -⟩ := List.getElem?_eq_some_iff.mp hp
  have hno : (ctx.peers.length ≤ i ∨ meshMaxFib ≤ ctx.fib.length) ↔
      meshMaxFib ≤ reg.routes.length := by
    rw [h.length_peers, h.length_fib]
    exact or_iff_right (Nat.not_le.mpr hlt)
  rw [meshAddFib, Registry.addRoute, h.findIdx?_isRoute hn]
  simp only [hno]
  split
  · exact ⟨rfl, h⟩
  · cases reg.routes.findIdx? (Registry.isRoute pfx p.2) with
    | none =>
      have hread : readIn (reg.peers.map Prod.snd) ⟨pfx, i, lifetimeMs, now⟩ =
          RegistryRoute.read ⟨pfx, lifetimeMs, now, p.2⟩ := by
        rw [readIn, RegistryRoute.read, ← Registers.number_eq, hn]
      refine ⟨rfl, h.peers_eq, h.keyed, h.lt_next, ?_⟩
      rw [List.map_append, List.map_append, h.routes_eq, List.map_singleton, List.map_singleton]
      exact congrArg (_ ++ [·]) hread
    | some j =>
      refine ⟨rfl, h.peers_eq, h.keyed, h.lt_next, ?_⟩
      let refresh : (PsirpName × UInt32 × UInt64) × Option Nat →
          (PsirpName × UInt32 × UInt64) × Option Nat :=
        fun r => ((r.1.1, lifetimeMs, now), r.2)
      have hfib : (ctx.fib.modify j fun e =>
          { e with lifetimeMs := lifetimeMs, createdAt := now }).map
            (readIn (reg.peers.map Prod.snd)) =
          (ctx.fib.map (readIn (reg.peers.map Prod.snd))).modify j refresh :=
        map_modify fun _ => rfl
      have hroutes : (reg.routes.modify j fun r =>
          { r with lifetimeMs := lifetimeMs, createdAt := now }).map RegistryRoute.read =
          (reg.routes.map RegistryRoute.read).modify j refresh :=
        map_modify fun _ => rfl
      exact hfib.trans ((congrArg (·.modify j refresh) h.routes_eq).trans hroutes.symm)

theorem peers_addRoute (reg : Registry) (pfx : PsirpName) (n : Nat) (lifetimeMs : UInt32)
    (now : UInt64) : (reg.addRoute pfx n lifetimeMs now).2.peers = reg.peers := by
  rw [Registry.addRoute]
  split
  · rfl
  · split <;> rfl

theorem number_addRoute (reg : Registry) (pfx : PsirpName) (n : Nat) (lifetimeMs : UInt32)
    (now : UInt64) (i : Nat) :
    (reg.addRoute pfx n lifetimeMs now).2.number i = reg.number i := by
  rw [Registry.number, Registry.number, peers_addRoute]

/-- **Announcing** prefix strings. -/
theorem Registers.announce {i n : Nat} (now : Nat → UInt64) (ss : List CString) :
    ∀ (count : Nat) {ctx : MeshCtx} {reg : Registry}, Registers ctx reg →
      reg.number i = some n →
      Registers (announceAll i now ss count ctx) (Registry.announce n now ss count reg) := by
  induction ss with
  | nil => exact fun _ _ _ h _ => h
  | cons s ss ih =>
    intro count ctx reg h hn
    rw [announceAll, Registry.announce, announcePrefix]
    have hupdated : ∀ f, (reg.update n f).number i = some n := fun f =>
      (number_update reg n f i).trans hn
    exact ih _ ((h.update hn _).addRoute (hupdated _) _ _ _).2
      ((number_addRoute _ _ _ _ _ i).trans (hupdated _))

/-- **Hearing a beacon.** -/
theorem Registers.hear (h : Registers ctx reg) (data : CString) (dataLen : Nat) (src : PsirpPeer)
    (now : Nat → UInt64) :
    (meshProcessBeacon ctx data dataLen src now).1 = (reg.hear data dataLen src now).1 ∧
      Registers (meshProcessBeacon ctx data dataLen src now).2
        (reg.hear data dataLen src now).2 := by
  obtain ⟨hnumber, hadd⟩ := h.addPeer (beaconSender data) src (now 0)
  rw [Registry.hear]
  split
  · rename_i hbeacon
    rcases hreg : reg.addPeer (beaconSender data) src (now 0) with ⟨n, reg'⟩
    rw [hreg] at hnumber hadd
    rcases hi : meshAddPeer ctx (beaconSender data) src (now 0) with ⟨_ | i, ctx'⟩
    · -- there is no room for the sender
      rw [hi] at hnumber hadd
      obtain rfl : n = none := hnumber
      have hnot : ∀ i, ¬ HeardFrom ctx data dataLen src now i := by
        intro i hheard
        have hpeer := hheard.peer
        rw [hi] at hpeer
        cases hpeer
      rw [meshProcessBeacon_of_not_heard hnot]
      rw [meshAddPeer_eq_none hi] at hadd
      exact ⟨rfl, hadd⟩
    · have hpeer : (meshAddPeer ctx (beaconSender data) src (now 0)).1 = some i := by rw [hi]
      have hlt := meshAddPeer_lt hpeer
      rw [hi] at hnumber hadd hlt
      obtain ⟨p, hp⟩ : ∃ p, reg'.peers[i]? = some p :=
        ⟨_, List.getElem?_eq_getElem (hadd.length_peers ▸ hlt)⟩
      have hn : reg'.number i = some p.2 := congrArg (Option.map Prod.snd) hp
      obtain rfl : n = some p.2 := hnumber.trans hn
      rw [meshProcessBeacon_of_heard (exists_heardFrom hbeacon hpeer), afterStrings]
      refine ⟨rfl, ?_⟩
      have hgreeted : Registers (greeted ctx data src now i)
          (reg'.update p.2 (Registry.greet (now 1))) := by
        refine (hadd.update hn _).congr ?_ ?_
        · rw [greeted, hi]
          exact List.modify_modify_eq ..
        · rw [greeted, hi]
          rfl
      exact (Registers.announce _ _ 0 hgreeted ((number_update reg' _ _ i).trans hn)).congr rfl rfl
  · rename_i hno
    rw [meshProcessBeacon_of_not_heard fun i hi => hno ⟨hi.length_le, hi.header, hi.bar_mem⟩]
    exact ⟨rfl, h⟩

omit ctx reg in
/-- `mesh_fib_prune` returns how many routes it takes out. -/
theorem fibPruneLoop_fst (now : UInt64) (i : Nat) : ∀ {ctx : MeshCtx}, i ≤ ctx.fib.length →
    (fibPruneLoop now i ctx).1 + (fibPruneLoop now i ctx).2.fib.length = ctx.fib.length := by
  induction i with
  | zero => exact fun _ => Nat.zero_add _
  | succ i ih =>
    intro ctx hi
    rw [fibPruneLoop]
    split
    · have hlen : (meshRemoveFib ctx i).fib.length = ctx.fib.length - 1 :=
        List.length_eraseIdx_of_lt hi
      have hrest := @ih (meshRemoveFib ctx i) (by omega)
      dsimp only
      omega
    · exact ih (Nat.le_of_succ_le hi)

theorem Registers.fibPrune (h : Registers ctx reg) (now : UInt64) :
    (meshFibPrune ctx now).1 = reg.routes.countP (RegistryRoute.expired now) ∧
      Registers (meshFibPrune ctx now).2
        { reg with routes := reg.routes.filter fun r => !r.expired now } := by
  let test : (PsirpName × UInt32 × UInt64) × Option Nat → Bool :=
    fun r => 0 < r.1.2.1 && r.1.2.1.toUInt64 < now - r.1.2.2
  have hfib : (meshFibPrune ctx now).2.fib = ctx.fib.filter fun e => !routeExpired now e := by
    rw [meshFibPrune, fibPruneLoop_eq, sweep_length]
  have hroutes : (ctx.fib.filter fun e => !routeExpired now e).map
      (readIn (reg.peers.map Prod.snd)) =
      (reg.routes.filter fun r => !r.expired now).map RegistryRoute.read := by
    calc (ctx.fib.filter fun e => !routeExpired now e).map (readIn (reg.peers.map Prod.snd))
      _ = (ctx.fib.map (readIn (reg.peers.map Prod.snd))).filter fun r => !test r := by
        rw [List.filter_map]
        rfl
      _ = (reg.routes.map RegistryRoute.read).filter fun r => !test r := by rw [h.routes_eq]
      _ = _ := List.filter_map
  have hcount : (meshFibPrune ctx now).1 = ctx.fib.countP (routeExpired now) := by
    have hall := @fibPruneLoop_fst now ctx.fib.length ctx le_rfl
    have hkept := congrArg List.length hfib
    rw [← List.countP_eq_length_filter] at hkept
    have hsplit := List.length_eq_countP_add_countP (routeExpired now) (l := ctx.fib)
    simp only [Bool.not_eq_true, Bool.decide_eq_false] at hsplit
    rw [meshFibPrune] at hkept ⊢
    omega
  refine ⟨?_, ?_, h.keyed, h.lt_next, ?_⟩
  · calc (meshFibPrune ctx now).1
      _ = ctx.fib.countP (test ∘ readIn (reg.peers.map Prod.snd)) := hcount
      _ = (reg.routes.map RegistryRoute.read).countP test := by
        rw [← List.countP_map, h.routes_eq]
      _ = _ := List.countP_map
  · rw [meshFibPrune, fibPruneLoop_eq]
    exact h.peers_eq
  · rw [hfib]
    exact hroutes

/-- **Routing** leads to the same peer. -/
theorem Registers.nextHop (h : Registers ctx reg) (name : PsirpName) :
    meshNextHop ctx name = reg.nextHop name := by
  have hprefixes : ctx.fib.map MeshFibEntry.pfx = reg.routes.map RegistryRoute.pfx := by
    have hmap := congrArg (List.map fun r => r.1.1) h.routes_eq
    rwa [List.map_map, List.map_map] at hmap
  have hscan : meshFibLookup ctx name =
      scan (fun r => prefixWeight name r.pfx) reg.routes 0 none (WithBot.some 0) := by
    rw [meshFibLookup, meshFibLookupLoop_eq_scan, hprefixes, scan_map]
  rw [meshNextHop, Registry.nextHop, hscan]
  refine Option.bind_congr fun i _ => ?_
  have hrow : (ctx.fib[i]?).map (readIn (reg.peers.map Prod.snd)) =
      (reg.routes[i]?).map RegistryRoute.read := by
    rw [← List.getElem?_map, ← List.getElem?_map, h.routes_eq]
  cases he : ctx.fib[i]? with
  | none =>
    rw [he] at hrow
    rw [Option.map_eq_none_iff.mp hrow.symm]
    rfl
  | some e =>
    rw [he] at hrow
    obtain ⟨r, hr, hread⟩ := Option.map_eq_some_iff.mp hrow.symm
    obtain ⟨p, hp, hn⟩ := exists_row
      ((Registers.number_eq reg e.peerIndex).trans (congrArg Prod.snd hread).symm)
    rw [hr]
    change ctx.peers[e.peerIndex]? = (reg.peers.find? (·.2 = r.peer)).map Prod.fst
    rw [← hn, find?_number h.keyed (List.mem_of_getElem? hp), h.peers_eq, List.getElem?_map, hp]

/-- **Step.** A call is answered alike, and the tables go on showing what the registry has. -/
theorem Registers.step (h : Registers ctx reg) (op : MeshOp) :
    (meshStep ctx op).1 = (reg.step op).1 ∧ Registers (meshStep ctx op).2 (reg.step op).2 := by
  cases op with
  | init node cs => exact ⟨rfl, registers_empty node cs⟩
  | addPeer name addr now =>
    obtain ⟨hnumber, hadd⟩ := h.addPeer name addr now
    have hposition : (meshAddPeer ctx name addr now).1 =
        (reg.addPeer name addr now).1.bind (reg.addPeer name addr now).2.position := by
      rw [hnumber]
      cases hi : (meshAddPeer ctx name addr now).1 with
      | none => rfl
      | some i =>
        obtain ⟨n, hn⟩ := hadd.exists_number (meshAddPeer_lt hi)
        rw [Option.bind_some, hn, Option.bind_some, hadd.position_eq hn]
    exact ⟨congrArg MeshAnswer.index hposition, hadd⟩
  | removePeer i =>
    rw [meshStep, Registry.step]
    cases hn : reg.number i with
    | none =>
      rw [meshRemovePeer, if_pos (h.length_le_of_number hn)]
      exact ⟨rfl, h⟩
    | some n => exact ⟨rfl, h.removePeer hn⟩
  | peerSeen i now =>
    rw [meshStep, Registry.step]
    cases hn : reg.number i with
    | none =>
      rw [meshPeerSeen, List.modify_eq_self (h.length_le_of_number hn)]
      exact ⟨rfl, h⟩
    | some n => exact ⟨rfl, h.update hn _⟩
  | checkTimeouts now =>
    obtain ⟨hcount, hleft⟩ := h.checkTimeouts now
    exact ⟨congrArg MeshAnswer.removed hcount, hleft⟩
  | addFib pfx i lifetimeMs now =>
    rw [meshStep, Registry.step]
    cases hn : reg.number i with
    | none =>
      rw [meshAddFib, if_pos (Or.inl (h.length_le_of_number hn))]
      exact ⟨rfl, h⟩
    | some n =>
      obtain ⟨hok, hadd⟩ := h.addRoute hn pfx lifetimeMs now
      exact ⟨congrArg MeshAnswer.verdict hok, hadd⟩
  | removeFib i =>
    refine ⟨rfl, h.peers_eq, h.keyed, h.lt_next, ?_⟩
    change (ctx.fib.eraseIdx i).map _ = (reg.routes.eraseIdx i).map _
    rw [← List.eraseIdx_map, ← List.eraseIdx_map]
    exact congrArg (·.eraseIdx i) h.routes_eq
  | fibPrune now =>
    obtain ⟨hcount, hleft⟩ := h.fibPrune now
    exact ⟨congrArg MeshAnswer.removed hcount, hleft⟩
  | processBeacon data dataLen src now =>
    obtain ⟨hok, hheard⟩ := h.hear data dataLen src now
    exact ⟨congrArg MeshAnswer.verdict hok, hheard⟩

end Steps

/-! ## Runs -/

/-- **Refinement.** Whatever is called on a context, in any order: the calls answer as they do on
the registry, names are routed to the same peers, and the same peers are listed. -/
theorem meshTables_refine (node : Option PsirpNode) (cs : MeshStore) (calls : List TableCall) :
    outs tableStep (meshInit node cs) calls = outs registryStep .empty calls := by
  refine (outs_eq_of_simulates (P := fun _ _ => True) ?_ (registers_empty node cs)
    (along_input.mpr fun _ _ => trivial)).1
  intro ctx reg call h _
  cases call with
  | call op =>
    obtain ⟨hanswer, hend⟩ := h.step op
    exact ⟨congrArg TableAnswer.answer hanswer, hend⟩
  | nextHop name => exact ⟨congrArg TableAnswer.hop (h.nextHop name), h⟩
  | peers => exact ⟨congrArg TableAnswer.peers h.peers_eq, h⟩

end DsoBrowser
