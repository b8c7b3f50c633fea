import DsoBrowser.Net
import DsoBrowser.Signing
import DsoBrowser.Lib.ByteOrder
import DsoBrowser.Lib.FirstMax
import DsoBrowser.Lib.Machine
import DsoBrowser.Lib.Table

/-!
# The routing table of the DHT

The peer table of `dht.c`: the peers of a node, found by address and port, and what
`dht_add_peer` does to them. The peer array and `peer_count` are one list, and its bound is a field
of the table. A call reads the clock once; the reading is an argument.

A call refreshes a known peer or appends a new one, for which a full table gives up its oldest dead
peer (`dhtAddPeer_cases`). So no address is there twice, no live peer goes and the key of a peer
that stays is the first it came with (`dhtAddPeer_invariants`).
-/

namespace DsoBrowser

open ByteOrder FirstMax Machine Table

/-- `DHT_MAX_PEERS` -/
def dhtMaxPeers : Nat := 512

/-- `dht_peer` -/
structure DhtPeer where
  /-- peer's DHT id -/
  id : UInt64
  /-- IPv4 address, in network order -/
  ip : UInt32
  /-- UDP port, in network order -/
  port : UInt16
  /-- public key, zero if unknown -/
  pubkey : PublicKey
  /-- whether the key is set -/
  haveKey : Bool
  /-- for eviction -/
  lastSeen : UInt64
  /-- whether the peer is alive -/
  alive : Bool
  deriving DecidableEq

/-- Where a peer is. -/
def DhtPeer.addr (p : DhtPeer) : PsirpPeer := ⟨p.ip, p.port⟩

/-- The first `peer_count` peers of a `dht_node`. -/
structure DhtTable where
  /-- the peers -/
  peers : List DhtPeer
  /-- the table's size -/
  count_le : peers.length ≤ dhtMaxPeers

/-- `dht_id_from_addr`, on a little-endian machine -/
def dhtIdFromAddr (addr : PsirpPeer) : UInt64 :=
  fnv1aHash (leBytes 4 addr.ip.toNat ++ leBytes 2 addr.port.toNat)

/-! ## Adding a peer -/

/-- A known peer is seen again. The key it has is kept. -/
def refreshDhtPeer (pubkey : Option PublicKey) (haveKey : Bool) (now : UInt64) (p : DhtPeer) :
    DhtPeer :=
  let p := { p with lastSeen := now, alive := true }
  match pubkey with
  | none => p
  | some key => if haveKey && !p.haveKey then { p with pubkey := key, haveKey := true } else p

/-- A new peer. -/
def newDhtPeer (addr : PsirpPeer) (pubkey : Option PublicKey) (haveKey : Bool) (now : UInt64) :
    DhtPeer :=
  let p : DhtPeer :=
    ⟨dhtIdFromAddr addr, addr.ip, addr.port, List.Vector.replicate _ 0, false, now, true⟩
  match pubkey with
  | none => p
  | some key => if haveKey then { p with pubkey := key, haveKey := true } else p

/-- The loop that looks for the oldest dead peer, from the position `i` on. -/
def oldestDeadLoop : List DhtPeer → Nat → Option Nat → UInt64 → Option Nat
  | [], _, oldest, _ => oldest
  | p :: ps, i, oldest, oldestT =>
    if !p.alive && p.lastSeen < oldestT then oldestDeadLoop ps (i + 1) (some i) p.lastSeen
    else oldestDeadLoop ps (i + 1) oldest oldestT

/-- The oldest dead peer; the loop starts at `UINT64_MAX`. -/
def oldestDead (peers : List DhtPeer) : Option Nat :=
  oldestDeadLoop peers 0 none (UInt64.ofNat (2 ^ 64 - 1))

/-- How old a peer is for eviction, the older the greater. A live peer is as young as the clock
can tell. -/
def deadAge (p : DhtPeer) : ℕᵒᵈ :=
  OrderDual.toDual (if p.alive then 2 ^ 64 - 1 else p.lastSeen.toNat)

/-- The loop looks for the first peer of the greatest age. -/
theorem oldestDeadLoop_eq_scan (peers : List DhtPeer) : ∀ (i : Nat) (oldest : Option Nat)
    (oldestT : UInt64), oldestDeadLoop peers i oldest oldestT =
      scan deadAge peers i oldest (OrderDual.toDual oldestT.toNat) := by
  induction peers with
  | nil => exact fun _ _ _ => rfl
  | cons p ps ih =>
    intro i oldest oldestT
    rw [oldestDeadLoop, scan, ih, ih, deadAge]
    cases hp : p.alive with
    | true =>
      have hle := oldestT.toNat_lt
      rw [if_neg (by simp), if_neg]
      rw [if_pos rfl, OrderDual.toDual_lt_toDual]
      omega
    | false =>
      simp [UInt64.lt_iff_toNat_lt]

theorem oldestDead_lt {peers : List DhtPeer} {i : Nat} (h : oldestDead peers = some i) :
    i < peers.length := by
  rw [oldestDead, oldestDeadLoop_eq_scan, scan_eq_some] at h
  obtain ⟨p, hfirst, -⟩ := h
  exact (List.getElem?_eq_some_iff.mp hfirst.row).1

/-- `memmove` over the peer at a position. -/
def DhtTable.remove (dht : DhtTable) (i : Nat) : DhtTable where
  peers := dht.peers.eraseIdx i
  count_le := (List.length_eraseIdx_le ..).trans dht.count_le

/-- `dht->peers[dht->peer_count++] = p` -/
def DhtTable.append (dht : DhtTable) (p : DhtPeer) (h : dht.peers.length < dhtMaxPeers) :
    DhtTable where
  peers := dht.peers ++ [p]
  count_le := by rw [List.length_append]; exact h

/-- A peer written in place. -/
def DhtTable.update (dht : DhtTable) (i : Nat) (f : DhtPeer → DhtPeer) : DhtTable where
  peers := dht.peers.modify i f
  count_le := by rw [List.length_modify]; exact dht.count_le

theorem DhtTable.length_remove_lt (dht : DhtTable) {i : Nat} (h : oldestDead dht.peers = some i) :
    (dht.remove i).peers.length < dhtMaxPeers := by
  have hlt := oldestDead_lt h
  have hle := dht.count_le
  change (dht.peers.eraseIdx i).length < dhtMaxPeers
  rw [List.length_eraseIdx_of_lt hlt]
  omega

/-- The peer is at this address. -/
def isPeerAt (addr : PsirpPeer) (p : DhtPeer) : Bool := p.ip = addr.ip && p.port = addr.port

/-- `dht_add_peer` -/
def dhtAddPeer (dht : DhtTable) (addr : PsirpPeer) (pubkey : Option PublicKey) (haveKey : Bool)
    (now : UInt64) : Bool × DhtTable :=
  match dht.peers.findIdx? (isPeerAt addr) with
  | some i => (false, dht.update i (refreshDhtPeer pubkey haveKey now))
  | none =>
    if hroom : dht.peers.length < dhtMaxPeers then
      (true, dht.append (newDhtPeer addr pubkey haveKey now) hroom)
    else
      match hold : oldestDead dht.peers with
      | none => (false, dht)
      | some oldest =>
        (true, (dht.remove oldest).append (newDhtPeer addr pubkey haveKey now)
          (dht.length_remove_lt hold))

/-! ## What a call does -/

@[simp] theorem addr_refreshDhtPeer (pubkey : Option PublicKey) (haveKey : Bool) (now : UInt64)
    (p : DhtPeer) : (refreshDhtPeer pubkey haveKey now p).addr = p.addr := by
  cases pubkey with
  | none => rfl
  | some key =>
    rw [refreshDhtPeer]
    simp only
    split <;> rfl

@[simp] theorem addr_newDhtPeer (addr : PsirpPeer) (pubkey : Option PublicKey) (haveKey : Bool)
    (now : UInt64) : (newDhtPeer addr pubkey haveKey now).addr = addr := by
  cases pubkey with
  | none => rfl
  | some key =>
    rw [newDhtPeer]
    simp only
    split <;> rfl

@[simp] theorem lastSeen_refreshDhtPeer (pubkey : Option PublicKey) (haveKey : Bool) (now : UInt64)
    (p : DhtPeer) : (refreshDhtPeer pubkey haveKey now p).lastSeen = now := by
  cases pubkey with
  | none => rfl
  | some key =>
    rw [refreshDhtPeer]
    simp only
    split <;> rfl

@[simp] theorem lastSeen_newDhtPeer (addr : PsirpPeer) (pubkey : Option PublicKey) (haveKey : Bool)
    (now : UInt64) : (newDhtPeer addr pubkey haveKey now).lastSeen = now := by
  cases pubkey with
  | none => rfl
  | some key =>
    rw [newDhtPeer]
    simp only
    split <;> rfl

/-- A key that is recorded is kept. -/
theorem pubkey_refreshDhtPeer {p : DhtPeer} (h : p.haveKey = true) (pubkey : Option PublicKey)
    (haveKey : Bool) (now : UInt64) :
    (refreshDhtPeer pubkey haveKey now p).haveKey = true ∧
      (refreshDhtPeer pubkey haveKey now p).pubkey = p.pubkey := by
  cases pubkey with
  | none => exact ⟨h, rfl⟩
  | some key =>
    rw [refreshDhtPeer]
    simp only
    rw [h, Bool.not_true, Bool.and_false, if_neg Bool.false_ne_true]
    exact ⟨rfl, rfl⟩

theorem isPeerAt_iff {addr : PsirpPeer} {p : DhtPeer} : isPeerAt addr p = true ↔ p.addr = addr := by
  cases addr
  simp [isPeerAt, DhtPeer.addr]

theorem isPeerAt_eq_false_iff {addr : PsirpPeer} {p : DhtPeer} :
    isPeerAt addr p = false ↔ p.addr ≠ addr := by
  rw [Bool.eq_false_iff, ne_eq, isPeerAt_iff]

/-- The arguments of a call, and what the clock then reads. -/
structure AddPeerCall where
  /-- address and port -/
  addr : PsirpPeer
  /-- key, if one is given -/
  pubkey : Option PublicKey
  /-- whether it is to be recorded -/
  haveKey : Bool
  /-- the clock -/
  now : UInt64

/-- One call on a table. -/
def addPeerStep (dht : DhtTable) (call : AddPeerCall) : Bool × DhtTable :=
  dhtAddPeer dht call.addr call.pubkey call.haveKey call.now

/-- The peer a call adds. -/
def AddPeerCall.peer (call : AddPeerCall) : DhtPeer :=
  newDhtPeer call.addr call.pubkey call.haveKey call.now

/-- What a call makes of the peer if it is known. -/
def AddPeerCall.refresh (call : AddPeerCall) : DhtPeer → DhtPeer :=
  refreshDhtPeer call.pubkey call.haveKey call.now

/-- The addresses of a table. -/
def DhtTable.addrs (dht : DhtTable) : List PsirpPeer := dht.peers.map DhtPeer.addr

/-- **Everything a call can do**: refresh the first peer at the address, append a peer, refuse, or
let one take the place of the oldest dead peer. -/
theorem dhtAddPeer_cases (dht : DhtTable) (call : AddPeerCall) :
    (∃ l₁ p l₂, dht.peers = l₁ ++ p :: l₂ ∧ p.addr = call.addr ∧
      (addPeerStep dht call).1 = false ∧
      (addPeerStep dht call).2.peers = l₁ ++ call.refresh p :: l₂) ∨
    call.addr ∉ dht.addrs ∧
      ((dht.peers.length < dhtMaxPeers ∧ (addPeerStep dht call).1 = true ∧
          (addPeerStep dht call).2.peers = dht.peers ++ [call.peer]) ∨
        (dhtMaxPeers ≤ dht.peers.length ∧ oldestDead dht.peers = none ∧
          addPeerStep dht call = (false, dht)) ∨
        ∃ i, dhtMaxPeers ≤ dht.peers.length ∧ oldestDead dht.peers = some i ∧
          (addPeerStep dht call).1 = true ∧
          (addPeerStep dht call).2.peers = dht.peers.eraseIdx i ++ [call.peer]) := by
  simp only [addPeerStep, dhtAddPeer]
  rcases cut_at_first (isPeerAt call.addr) dht.peers with hnone | ⟨l₁, p, l₂, hl, h₁, hp⟩
  · rw [List.findIdx?_eq_none_iff.mpr hnone]
    refine Or.inr ⟨fun hmem => ?_, ?_⟩
    · obtain ⟨p, hp, haddr⟩ := List.mem_map.mp hmem
      exact isPeerAt_eq_false_iff.mp (hnone p hp) haddr
    · simp only
      split
      · rename_i hroom
        exact Or.inl ⟨hroom, rfl, rfl⟩
      · rename_i hfull
        split
        · rename_i hold
          exact Or.inr (Or.inl ⟨Nat.not_lt.mp hfull, hold, rfl⟩)
        · rename_i i hold
          exact Or.inr (Or.inr ⟨i, Nat.not_lt.mp hfull, hold, rfl, rfl⟩)
  · have hidx : dht.peers.findIdx? (isPeerAt call.addr) = some l₁.length := by
      rw [hl, findIdx?_append_cons h₁ hp]
    rw [hidx]
    refine Or.inl ⟨l₁, p, l₂, hl, isPeerAt_iff.mp hp, rfl, ?_⟩
    change dht.peers.modify l₁.length _ = _
    rw [hl, modify_append_cons]
    rfl

/-! ## The oldest dead peer -/

/-- `p` stands at `i` and is the first of the dead peers seen the longest ago. -/
structure OldestDead (peers : List DhtPeer) (i : Nat) (p : DhtPeer) : Prop where
  /-- where it is -/
  row : peers[i]? = some p
  /-- it is dead -/
  dead : p.alive = false
  /-- no dead peer was seen longer ago -/
  oldest : ∀ q ∈ peers, q.alive = false → p.lastSeen ≤ q.lastSeen
  /-- and none before it as long ago -/
  first : ∀ j < i, ∀ q, peers[j]? = some q → q.alive = false → p.lastSeen < q.lastSeen

section OldestDead

variable {peers : List DhtPeer}

theorem deadAge_of_dead {p : DhtPeer} (h : p.alive = false) :
    deadAge p = OrderDual.toDual p.lastSeen.toNat := by
  rw [deadAge, h, if_neg Bool.false_ne_true]

/-- Below the greatest time, the dead peers are those older than that. -/
theorem lt_deadAge_iff {p : DhtPeer} (h : p.lastSeen.toNat < 2 ^ 64 - 1) :
    OrderDual.toDual (2 ^ 64 - 1) < deadAge p ↔ p.alive = false := by
  rw [deadAge]
  cases hp : p.alive with
  | true =>
    rw [if_pos rfl]
    exact iff_of_false (lt_irrefl _) (Bool.false_ne_true ∘ Eq.symm)
  | false =>
    rw [if_neg Bool.false_ne_true, OrderDual.toDual_lt_toDual]
    exact iff_of_true h rfl

theorem oldestDead_eq_none_iff (hseen : ∀ p ∈ peers, p.lastSeen.toNat < 2 ^ 64 - 1) :
    oldestDead peers = none ↔ ∀ p ∈ peers, p.alive = true := by
  rw [oldestDead, oldestDeadLoop_eq_scan, scan_eq_none]
  refine forall₂_congr fun p hp => ?_
  rw [← not_lt, ← Bool.not_eq_false, not_iff_not]
  exact lt_deadAge_iff (hseen p hp)

/-- What the loop finds is the first of the oldest dead peers. -/
theorem oldestDead_eq_some_iff (hseen : ∀ p ∈ peers, p.lastSeen.toNat < 2 ^ 64 - 1) {i : Nat} :
    oldestDead peers = some i ↔ ∃ p, OldestDead peers i p := by
  rw [oldestDead, oldestDeadLoop_eq_scan, scan_eq_some]
  refine ⟨?_, ?_⟩
  · rintro ⟨p, hfirst, hlt⟩
    have hdead := (lt_deadAge_iff (hseen p hfirst.mem)).mp hlt
    refine ⟨p, hfirst.row, hdead, fun q hq hqd => ?_, fun j hj q hq hqd => ?_⟩
    · have hle := hfirst.greatest q hq
      rw [deadAge_of_dead hdead, deadAge_of_dead hqd] at hle
      exact UInt64.le_iff_toNat_le.mpr (OrderDual.toDual_le_toDual.mp hle)
    · have hlt := hfirst.first j hj q hq
      rw [deadAge_of_dead hdead, deadAge_of_dead hqd] at hlt
      exact UInt64.lt_iff_toNat_lt.mpr (OrderDual.toDual_lt_toDual.mp hlt)
  · rintro ⟨p, hrow, hdead, hleast, hfirst⟩
    have hmem := List.mem_of_getElem? hrow
    have hpos := (lt_deadAge_iff (hseen p hmem)).mpr hdead
    refine ⟨p, ⟨hrow, fun q hq => ?_, fun j hj q hq => ?_⟩, hpos⟩
    · cases hqd : q.alive with
      | true =>
        exact (not_lt.mp (mt (lt_deadAge_iff (hseen q hq)).mp (by simp [hqd]))).trans hpos.le
      | false =>
        rw [deadAge_of_dead hdead, deadAge_of_dead hqd, OrderDual.toDual_le_toDual]
        exact UInt64.le_iff_toNat_le.mp (hleast q hq hqd)
    · have hqm := List.mem_of_getElem? hq
      cases hqd : q.alive with
      | true =>
        exact (not_lt.mp (mt (lt_deadAge_iff (hseen q hqm)).mp (by simp [hqd]))).trans_lt hpos
      | false =>
        rw [deadAge_of_dead hdead, deadAge_of_dead hqd, OrderDual.toDual_lt_toDual]
        exact UInt64.lt_iff_toNat_lt.mp (hfirst j hj q hq hqd)

/-- Live peers stay when it goes. -/
theorem OldestDead.mem_eraseIdx {i : Nat} {p q : DhtPeer} (h : OldestDead peers i p)
    (hq : q ∈ peers) (hlive : q.alive = true) : q ∈ peers.eraseIdx i := by
  obtain ⟨j, hj⟩ := List.mem_iff_getElem?.mp hq
  refine List.mem_eraseIdx_iff_getElem?.mpr ⟨j, fun he => ?_, hj⟩
  rw [he, h.row] at hj
  obtain rfl := Option.some.inj hj
  rw [h.dead] at hlive
  cases hlive

end OldestDead

/-! ## What a call keeps -/

/-- What the call is to do to the table. -/
structure AddsPeer (dht : DhtTable) (call : AddPeerCall) : Prop where
  /-- the table keeps to its size -/
  size : (addPeerStep dht call).2.peers.length ≤ dhtMaxPeers
  /-- no address is there twice -/
  distinct : Keyed DhtPeer.addr (addPeerStep dht call).2.peers
  /-- it returns whether a new address was inserted -/
  inserted : (addPeerStep dht call).1 = true ↔
    call.addr ∉ dht.addrs ∧ call.addr ∈ (addPeerStep dht call).2.addrs
  /-- live peers stay -/
  live : ∀ p ∈ dht.peers, p.alive = true → p.addr ∈ (addPeerStep dht call).2.addrs
  /-- and the peers at other addresses are as they were -/
  others : ∀ p ∈ (addPeerStep dht call).2.peers, p.addr ≠ call.addr → p ∈ dht.peers
  /-- for a known address, no peer goes -/
  known : call.addr ∈ dht.addrs → (addPeerStep dht call).2.addrs = dht.addrs
  /-- nor while there is room -/
  room : call.addr ∉ dht.addrs → dht.peers.length < dhtMaxPeers →
    (addPeerStep dht call).2.peers = dht.peers ++ [call.peer]
  /-- in a full table the oldest dead peer goes, and the others keep their order -/
  evicted : call.addr ∉ dht.addrs → dht.peers.length = dhtMaxPeers → ∀ i p,
    OldestDead dht.peers i p →
      (addPeerStep dht call).2.peers = dht.peers.eraseIdx i ++ [call.peer]
  /-- without a dead peer, the call is refused -/
  refused : call.addr ∉ dht.addrs → dht.peers.length = dhtMaxPeers →
    (∀ p ∈ dht.peers, p.alive = true) → addPeerStep dht call = (false, dht)

/-- No address is there twice, and every peer was seen before the last moment. -/
structure DhtTable.Sound (dht : DhtTable) : Prop where
  /-- addresses are distinct -/
  distinct : Keyed DhtPeer.addr dht.peers
  /-- `last_seen_ns` is below `UINT64_MAX` -/
  seen : ∀ p ∈ dht.peers, p.lastSeen.toNat < 2 ^ 64 - 1

section Step

variable {dht : DhtTable} {call : AddPeerCall}

/-- A call that finds its peer in the table. -/
theorem addrs_of_refresh {l₁ l₂ : List DhtPeer} {p : DhtPeer} (hl : dht.peers = l₁ ++ p :: l₂)
    (hp : p.addr = call.addr) (hs : (addPeerStep dht call).2.peers = l₁ ++ call.refresh p :: l₂) :
    (addPeerStep dht call).2.addrs = dht.addrs ∧
      ∀ q ∈ (addPeerStep dht call).2.peers, q.addr ≠ call.addr → q ∈ dht.peers := by
  refine ⟨?_, fun q hq hne => ?_⟩
  · rw [DhtTable.addrs, DhtTable.addrs, hs, hl]
    simp [AddPeerCall.refresh]
  · rw [hs] at hq
    rw [hl]
    rcases List.mem_append.mp hq with hq | hq
    · exact List.mem_append_left _ hq
    · rcases List.mem_cons.mp hq with rfl | hq
      · rw [AddPeerCall.refresh, addr_refreshDhtPeer] at hne
        exact absurd hp hne
      · exact List.mem_append_right _ (List.mem_cons_of_mem _ hq)

/-- No address is there twice afterwards. -/
theorem keyed_addPeerStep (h : Keyed DhtPeer.addr dht.peers) (call : AddPeerCall) :
    Keyed DhtPeer.addr (addPeerStep dht call).2.peers := by
  rcases dhtAddPeer_cases dht call with
    ⟨l₁, p, l₂, hl, hp, -, hs⟩ | ⟨hnew, ⟨-, -, hs⟩ | ⟨-, -, hs⟩ | ⟨i, -, -, -, hs⟩⟩
  · have haddrs := (addrs_of_refresh hl hp hs).1
    rw [DhtTable.addrs, DhtTable.addrs] at haddrs
    rwa [Keyed, haddrs]
  · rw [hs]
    refine h.concat fun q hq he => hnew ?_
    rw [AddPeerCall.peer, addr_newDhtPeer] at he
    exact List.mem_map.mpr ⟨q, hq, he⟩
  · rw [hs]
    exact h
  · rw [hs]
    have hsub := List.eraseIdx_sublist dht.peers i
    refine Keyed.concat (h.subperm hsub.subperm) fun q hq he => hnew ?_
    rw [AddPeerCall.peer, addr_newDhtPeer] at he
    exact List.mem_map.mpr ⟨q, hsub.subset hq, he⟩

/-- A call that puts its peer behind some of the table's. -/
theorem addrs_of_concat {l : List DhtPeer} (hsub : l ⊆ dht.peers)
    (hs : (addPeerStep dht call).2.peers = l ++ [call.peer]) :
    (addPeerStep dht call).2.addrs = l.map DhtPeer.addr ++ [call.addr] ∧
      ∀ q ∈ (addPeerStep dht call).2.peers, q.addr ≠ call.addr → q ∈ dht.peers := by
  have hpeer : call.peer.addr = call.addr := addr_newDhtPeer ..
  refine ⟨?_, fun q hq hne => ?_⟩
  · rw [DhtTable.addrs, hs, List.map_append, List.map_singleton, hpeer]
  · rw [hs] at hq
    rcases List.mem_append.mp hq with hq | hq
    · exact hsub hq
    · rw [List.mem_singleton.mp hq] at hne
      exact absurd hpeer hne

/-- A call on a sound table does what it is to do. -/
theorem addsPeer (h : dht.Sound) (call : AddPeerCall) : AddsPeer dht call := by
  have hkeyed := keyed_addPeerStep h.distinct call
  have hsize := (addPeerStep dht call).2.count_le
  have hself : ∀ l : List PsirpPeer, call.addr ∈ l ++ [call.addr] :=
    fun l => List.mem_append_right _ (List.mem_singleton_self _)
  rcases dhtAddPeer_cases dht call with
    ⟨l₁, p, l₂, hl, hp, hr, hs⟩ |
      ⟨hnew, ⟨hroom, hr, hs⟩ | ⟨hfull, hold, hs⟩ | ⟨i, hfull, hold, hr, hs⟩⟩
  · -- the peer is known
    obtain ⟨haddrs, hothers⟩ := addrs_of_refresh hl hp hs
    have hmem : call.addr ∈ dht.addrs := List.mem_map.mpr ⟨p, by rw [hl]; simp, hp⟩
    refine ⟨hsize, hkeyed, ?_, ?_, hothers, fun _ => haddrs, fun hno => absurd hmem hno,
      fun hno => absurd hmem hno, fun hno => absurd hmem hno⟩
    · rw [hr]
      exact iff_of_false Bool.false_ne_true fun hno => hno.1 hmem
    · intro q hq _
      rw [haddrs]
      exact List.mem_map_of_mem hq
  · -- there is room
    obtain ⟨haddrs, hothers⟩ := addrs_of_concat (List.Subset.refl _) hs
    refine ⟨hsize, hkeyed, ?_, ?_, hothers, fun hno => absurd hno hnew, fun _ _ => hs,
      fun _ hfull => by omega, fun _ hfull => by omega⟩
    · rw [hr, haddrs]
      exact iff_of_true rfl ⟨hnew, hself _⟩
    · intro q hq _
      rw [haddrs]
      exact List.mem_append_left _ (List.mem_map_of_mem hq)
  · -- no peer is dead
    refine ⟨hsize, hkeyed, ?_, ?_, ?_, fun hno => absurd hno hnew, fun _ hroom => by omega, ?_,
      fun _ _ _ => hs⟩
    · rw [hs]
      exact iff_of_false Bool.false_ne_true fun hin => hnew hin.2
    · intro q hq _
      rw [hs]
      exact List.mem_map_of_mem hq
    · intro q hq _
      rwa [hs] at hq
    · intro _ _ i p hdead
      have hsome := (oldestDead_eq_some_iff h.seen).mpr ⟨p, hdead⟩
      rw [hold] at hsome
      cases hsome
  · -- the oldest dead peer goes
    obtain ⟨p, hp⟩ := (oldestDead_eq_some_iff h.seen).mp hold
    obtain ⟨haddrs, hothers⟩ := addrs_of_concat (List.eraseIdx_sublist _ _).subset hs
    refine ⟨hsize, hkeyed, ?_, ?_, hothers, fun hno => absurd hno hnew, fun _ hroom => by omega,
      ?_, ?_⟩
    · rw [hr, haddrs]
      exact iff_of_true rfl ⟨hnew, hself _⟩
    · intro q hq hlive
      rw [haddrs]
      exact List.mem_append_left _ (List.mem_map_of_mem (hp.mem_eraseIdx hq hlive))
    · intro _ _ j q hq
      have hsome := (oldestDead_eq_some_iff h.seen).mpr ⟨q, hq⟩
      rw [hold] at hsome
      rw [hs, Option.some.inj hsome]
    · intro _ _ hall
      have hnone := (oldestDead_eq_none_iff h.seen).mpr hall
      rw [hold] at hnone
      cases hnone

/-- **Step.** A call that reads the clock before the last moment keeps a table sound. -/
theorem DhtTable.Sound.step (h : dht.Sound) (hnow : call.now.toNat < 2 ^ 64 - 1) :
    (addPeerStep dht call).2.Sound := by
  refine ⟨keyed_addPeerStep h.distinct call, fun q hq => ?_⟩
  have hpeer : call.peer.lastSeen = call.now := lastSeen_newDhtPeer ..
  rcases dhtAddPeer_cases dht call with
    ⟨l₁, p, l₂, hl, -, -, hs⟩ | ⟨-, ⟨-, -, hs⟩ | ⟨-, -, hs⟩ | ⟨i, -, -, -, hs⟩⟩
  · rw [hs] at hq
    have hseen := h.seen
    rw [hl] at hseen
    rcases List.mem_append.mp hq with hq | hq
    · exact hseen q (List.mem_append_left _ hq)
    · rcases List.mem_cons.mp hq with rfl | hq
      · rwa [AddPeerCall.refresh, lastSeen_refreshDhtPeer]
      · exact hseen q (List.mem_append_right _ (List.mem_cons_of_mem _ hq))
  · rw [hs] at hq
    rcases List.mem_append.mp hq with hq | hq
    · exact h.seen q hq
    · rwa [List.mem_singleton.mp hq, hpeer]
  · rw [hs] at hq
    exact h.seen q hq
  · rw [hs] at hq
    rcases List.mem_append.mp hq with hq | hq
    · exact h.seen q ((List.eraseIdx_sublist _ _).subset hq)
    · rwa [List.mem_singleton.mp hq, hpeer]

/-! ## Keys stay -/

/-- A key is recorded for an address. -/
def DhtTable.Recorded (dht : DhtTable) (addr : PsirpPeer) (key : PublicKey) : Prop :=
  ∃ p ∈ dht.peers, p.addr = addr ∧ p.haveKey = true ∧ p.pubkey = key

/-- **Step.** A call keeps the key of an address that stays. -/
theorem DhtTable.Recorded.step (h : Keyed DhtPeer.addr dht.peers) {addr : PsirpPeer}
    {key : PublicKey} (hkey : dht.Recorded addr key)
    (hstays : addr ∈ (addPeerStep dht call).2.addrs) :
    (addPeerStep dht call).2.Recorded addr key := by
  obtain ⟨p, hp, rfl, hhave, hpub⟩ := hkey
  -- another peer at the address can only be the one the call adds
  have hkept : p ∈ (addPeerStep dht call).2.peers →
      (addPeerStep dht call).2.Recorded p.addr key := fun hmem => ⟨p, hmem, rfl, hhave, hpub⟩
  rcases dhtAddPeer_cases dht call with
    ⟨l₁, q, l₂, hl, -, -, hs⟩ | ⟨hnew, ⟨-, -, hs⟩ | ⟨-, -, hs⟩ | ⟨i, -, -, -, hs⟩⟩
  · rw [hl] at hp
    rcases List.mem_append.mp hp with hp | hp
    · exact hkept (by rw [hs]; exact List.mem_append_left _ hp)
    · rcases List.mem_cons.mp hp with rfl | hp
      · obtain ⟨hhave', hpub'⟩ := pubkey_refreshDhtPeer hhave call.pubkey call.haveKey call.now
        refine ⟨call.refresh p, ?_, addr_refreshDhtPeer .., hhave', hpub'.trans hpub⟩
        rw [hs]
        exact List.mem_append_right _ List.mem_cons_self
      · exact hkept (by rw [hs]; exact List.mem_append_right _ (List.mem_cons_of_mem _ hp))
  · exact hkept (by rw [hs]; exact List.mem_append_left _ hp)
  · exact hkept (by rw [hs]; exact hp)
  · refine hkept ?_
    rw [DhtTable.addrs, hs, List.map_append, List.mem_append] at hstays
    rcases hstays with hstays | hstays
    · obtain ⟨q, hq, he⟩ := List.mem_map.mp hstays
      obtain rfl := h.eq_of_key_eq ((List.eraseIdx_sublist _ _).subset hq) hp he
      rw [hs]
      exact List.mem_append_left _ hq
    · rw [List.map_singleton, List.mem_singleton, AddPeerCall.peer, addr_newDhtPeer] at hstays
      exact absurd (List.mem_map_of_mem hp) (hstays ▸ hnew)

end Step

/-- In every run from the table, a key once recorded for an address is not changed while the address
stays. -/
def KeepsKeys (dht : DhtTable) : Prop :=
  ∀ (before after : List AddPeerCall) (addr : PsirpPeer) (key : PublicKey),
    (exec addPeerStep dht before).Recorded addr key →
      (∀ mid, mid <+: after → addr ∈ (exec addPeerStep dht (before ++ mid)).addrs) →
        (exec addPeerStep dht (before ++ after)).Recorded addr key

/-- No run brings an address into the table twice. -/
theorem keyed_exec {dht : DhtTable} (h : Keyed DhtPeer.addr dht.peers) (calls : List AddPeerCall) :
    Keyed DhtPeer.addr (exec addPeerStep dht calls).peers := by
  induction calls generalizing dht with
  | nil => exact h
  | cons call calls ih => exact ih (keyed_addPeerStep h call)

/-- **Run.** -/
theorem keepsKeys {dht : DhtTable} (h : Keyed DhtPeer.addr dht.peers) : KeepsKeys dht := by
  intro before after addr key hkey hstays
  induction after using List.reverseRecOn with
  | nil => rwa [List.append_nil]
  | append_singleton after call ih =>
    have hbefore := ih fun mid hmid => hstays mid (hmid.trans (List.prefix_append _ _))
    have hlast := hstays _ List.prefix_rfl
    rw [← List.append_assoc, exec_append] at hlast ⊢
    exact hbefore.step (keyed_exec h _) hlast

/-- **The routing table** keeps its addresses distinct, its live peers and its keys: at the first
call whatever the clock reads, and along every run of calls before the last moment. -/
theorem dhtAddPeer_invariants {dht : DhtTable} (h : dht.Sound) :
    (∀ call, AddsPeer dht call) ∧
      (∀ calls : List AddPeerCall, (∀ call ∈ calls, call.now.toNat < 2 ^ 64 - 1) →
        Along addPeerStep AddsPeer dht calls) ∧
      KeepsKeys dht := by
  refine ⟨addsPeer h, fun calls hnow => ?_, keepsKeys h.distinct⟩
  exact along_of_inv (fun _ _ hsound hcall => hsound.step hcall) (fun _ call hsound _ =>
    addsPeer hsound call) h (along_input.mpr hnow)

/-- A peer that is alive and whose key is not known. -/
def keylessPeer (i : Nat) : DhtPeer :=
  ⟨UInt64.ofNat i, UInt32.ofNat i, 1, List.Vector.replicate _ 0, false, UInt64.ofNat i, true⟩

/-- A table of them. -/
def keylessTable (n : Nat) (hn : n ≤ dhtMaxPeers) : DhtTable where
  peers := (List.range n).map keylessPeer
  count_le := by rwa [List.length_map, List.length_range]

theorem sound_keylessTable {n : Nat} (hn : n ≤ dhtMaxPeers) : (keylessTable n hn).Sound := by
  have hsize : dhtMaxPeers < UInt32.size := by decide
  have hsize' : UInt32.size ≤ 2 ^ 64 - 1 := by decide
  constructor
  · rw [Keyed, keylessTable, List.map_map]
    refine List.nodup_range.map_on fun i hi j hj heq => ?_
    have hip : UInt32.ofNat i = UInt32.ofNat j := congrArg PsirpPeer.ip heq
    have hlt := List.mem_range.mp hi
    have hlt' := List.mem_range.mp hj
    rw [← UInt32.toNat_ofNat_of_lt' (n := i) (by omega), hip,
      UInt32.toNat_ofNat_of_lt' (by omega)]
  · intro p hp
    obtain ⟨i, hi, rfl⟩ := List.mem_map.mp hp
    have hlt := List.mem_range.mp hi
    change (UInt64.ofNat i).toNat < _
    rw [UInt64.toNat_ofNat']
    exact (Nat.mod_le _ _).trans_lt (by omega)

/-- A full one. -/
def fullTable : DhtTable := keylessTable dhtMaxPeers le_rfl

theorem dhtAddPeer_invariants_fullTable :
    fullTable.Sound ∧ (∀ call, AddsPeer fullTable call) ∧
      (∀ calls : List AddPeerCall, (∀ call ∈ calls, call.now.toNat < 2 ^ 64 - 1) →
        Along addPeerStep AddsPeer fullTable calls) ∧
      KeepsKeys fullTable := by
  have hsound : fullTable.Sound := sound_keylessTable le_rfl
  exact ⟨hsound, dhtAddPeer_invariants hsound⟩

end DsoBrowser
