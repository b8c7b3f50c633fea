import DsoBrowser.MeshIntegrity
import DsoBrowser.BeaconRoutes
import DsoBrowser.PeerRemoval

/-!
# Refreshing what is known

`mesh_add_peer` and `mesh_add_fib` refuse when their table is full, before they look whether what
they are given is in it already. So a known peer or route is refreshed exactly when there is room
for another one (`refreshSucceeds_iff`), although none is added.

A peer is kept by `mesh_check_timeouts` as long as its beacons come less than 15 seconds apart and
find room in the peer table: the **invariant** is `SeenBetween`, that the peer is in the table and
was last seen no earlier than its last beacon.
-/

namespace DsoBrowser

open Machine Table

/-! ## One call -/

/-- Peer `j` is refreshed by adding a peer under the name it is shown as. -/
structure PeerRefreshed (ctx : MeshCtx) (j : Nat) (p : MeshPeer) (addr : PsirpPeer)
    (now : UInt64) : Prop where
  /-- its index is returned -/
  index : (meshAddPeer ctx (meshPeerNameToString p peerNameBufSize) addr now).1 = some j
  /-- it has the address and was seen now -/
  updated : (meshAddPeer ctx (meshPeerNameToString p peerNameBufSize) addr now).2.peers[j]? =
    some { p with addr := addr, lastSeen := now, state := .connected }
  /-- the peer table keeps its size -/
  peers_length : (meshAddPeer ctx (meshPeerNameToString p peerNameBufSize) addr now).2.peers.length =
    ctx.peers.length
  /-- the forwarding table keeps its size -/
  fib_length : (meshAddPeer ctx (meshPeerNameToString p peerNameBufSize) addr now).2.fib.length =
    ctx.fib.length

/-- Route `k` is refreshed by adding it again. -/
structure RouteRefreshed (ctx : MeshCtx) (k : Nat) (e : MeshFibEntry) (pfx : PsirpName)
    (lifetimeMs : UInt32) (now : UInt64) : Prop where
  /-- the call succeeds -/
  verdict : (meshAddFib ctx pfx e.peerIndex lifetimeMs now).1 = true
  /-- the route has the lifetime and was created now -/
  updated : (meshAddFib ctx pfx e.peerIndex lifetimeMs now).2.fib[k]? =
    some { e with lifetimeMs := lifetimeMs, createdAt := now }
  /-- the peer table keeps its size -/
  peers_length : (meshAddFib ctx pfx e.peerIndex lifetimeMs now).2.peers.length = ctx.peers.length
  /-- the forwarding table keeps its size -/
  fib_length : (meshAddFib ctx pfx e.peerIndex lifetimeMs now).2.fib.length = ctx.fib.length

/-- No peer before position `j` is shown as `p` is. -/
def FirstShown (ctx : MeshCtx) (j : Nat) (p : MeshPeer) : Prop :=
  ∀ i < j, ∀ q, ctx.peers[i]? = some q →
    meshPeerNameToString q peerNameBufSize ≠ meshPeerNameToString p peerNameBufSize

section Calls

variable {ctx : MeshCtx}

theorem hasName_self (p : MeshPeer) : hasName (meshPeerNameToString p peerNameBufSize) p = true :=
  decide_eq_true rfl

theorem firstShown_iff {j : Nat} {p : MeshPeer} (hp : ctx.peers[j]? = some p) :
    FirstShown ctx j p ↔
      ctx.peers.findIdx? (hasName (meshPeerNameToString p peerNameBufSize)) = some j := by
  obtain ⟨hj, rfl⟩ := List.getElem?_eq_some_iff.mp hp
  rw [List.findIdx?_eq_some_iff_getElem]
  refine ⟨?_, ?_⟩
  · intro h
    refine ⟨hj, hasName_self _, fun i hij hname => ?_⟩
    exact h i hij _ (List.getElem?_eq_getElem (hij.trans hj)) (of_decide_eq_true hname)
  · rintro ⟨_, _, hbefore⟩ i hij q hq heq
    obtain ⟨hi, rfl⟩ := List.getElem?_eq_some_iff.mp hq
    exact hbefore i hij (decide_eq_true heq)

theorem peerRefreshed_iff {j : Nat} {p : MeshPeer} (hp : ctx.peers[j]? = some p)
    (addr : PsirpPeer) (now : UInt64) :
    PeerRefreshed ctx j p addr now ↔ ctx.peers.length < meshMaxPeers ∧ FirstShown ctx j p := by
  rw [firstShown_iff hp]
  refine ⟨?_, ?_⟩
  · intro h
    have hindex := h.index
    have hlen := h.peers_length
    rw [meshAddPeer] at hindex hlen
    split at hindex
    · cases hindex
    · rename_i hroom
      rw [if_neg hroom] at hlen
      refine ⟨Nat.not_le.mp hroom, ?_⟩
      split at hindex
      · rename_i i hi
        rw [hi]
        exact hindex
      · -- a peer that was added would have made the table longer
        rename_i hnone
        rw [hnone] at hlen
        simp at hlen
  · rintro ⟨hroom, hfirst⟩
    have hadd : meshAddPeer ctx (meshPeerNameToString p peerNameBufSize) addr now =
        (some j, { ctx with peers := ctx.peers.modify j (refreshPeer addr now) }) := by
      rw [meshAddPeer, if_neg (Nat.not_le.mpr hroom), hfirst]
    refine ⟨by rw [hadd], ?_, ?_, by rw [hadd]⟩
    · rw [hadd]
      dsimp only
      rw [List.getElem?_modify_eq, hp]
      rfl
    · rw [hadd]
      exact List.length_modify ..

/-- A route is found where it is. -/
theorem MeshIntegrity.findIdx?_isRoute (h : MeshIntegrity ctx) {k : Nat} {e : MeshFibEntry}
    {pfx : PsirpName} (he : ctx.fib[k]? = some e) (hpfx : psirpNameEqual e.pfx pfx = true) :
    ctx.fib.findIdx? (isRoute pfx e.peerIndex) = some k := by
  have hroute : isRoute pfx e.peerIndex e = true := by simp [isRoute, hpfx]
  obtain ⟨hk, rfl⟩ := List.getElem?_eq_some_iff.mp he
  refine List.findIdx?_eq_some_iff_getElem.mpr ⟨hk, hroute, ?_⟩
  intro i hik hi
  have hi' := hi
  rw [isRoute, Bool.and_eq_true, decide_eq_true_eq] at hi'
  obtain ⟨heq, hindex⟩ := hi'
  -- an earlier one would be the same route
  refine List.pairwise_iff_getElem.mp h.distinct i k (hik.trans hk) hk hik ⟨?_, hindex⟩
  rw [psirpNameEqual_iff] at heq hpfx ⊢
  exact ⟨heq.1.trans hpfx.1.symm, heq.2.trans hpfx.2.symm⟩

theorem MeshIntegrity.routeRefreshed_iff (h : MeshIntegrity ctx) {k : Nat} {e : MeshFibEntry}
    {pfx : PsirpName} (he : ctx.fib[k]? = some e) (hpfx : psirpNameEqual e.pfx pfx = true)
    (lifetimeMs : UInt32) (now : UInt64) :
    RouteRefreshed ctx k e pfx lifetimeMs now ↔ ctx.fib.length < meshMaxFib := by
  have hpeer : e.peerIndex < ctx.peers.length := h.index_lt e (List.mem_of_getElem? he)
  refine ⟨?_, ?_⟩
  · intro hr
    have hverdict := hr.verdict
    rw [meshAddFib] at hverdict
    split at hverdict
    · cases hverdict
    · rename_i hok
      exact Nat.not_le.mp fun hfull => hok (Or.inr hfull)
  · intro hroom
    have hok : ¬ (ctx.peers.length ≤ e.peerIndex ∨ meshMaxFib ≤ ctx.fib.length) :=
      not_or.mpr ⟨Nat.not_le.mpr hpeer, Nat.not_le.mpr hroom⟩
    have hadd : meshAddFib ctx pfx e.peerIndex lifetimeMs now = (true, { ctx with
        fib := ctx.fib.modify k fun e => { e with lifetimeMs := lifetimeMs, createdAt := now } }) := by
      rw [meshAddFib, if_neg hok, h.findIdx?_isRoute he hpfx]
    refine ⟨by rw [hadd], ?_, by rw [hadd], ?_⟩
    · rw [hadd]
      dsimp only
      rw [List.getElem?_modify_eq, he]
      rfl
    · rw [hadd]
      exact List.length_modify ..

end Calls

/-! ## When a peer was last seen -/

/-- When the first peer shown as `x` was last seen. -/
def lastSeenOf (x : CString) (peers : List MeshPeer) : Option UInt64 :=
  (peers.find? (hasName x)).map MeshPeer.lastSeen

/-- There is a peer shown as `x`, and the first one was last seen between two times. -/
def SeenBetween (x : CString) (a b : UInt64) (peers : List MeshPeer) : Prop :=
  ∃ t, lastSeenOf x peers = some t ∧ a ≤ t ∧ t ≤ b

section Seen

variable {x : CString} {peers : List MeshPeer} {a b : UInt64}

theorem find?_hasName (x : CString) (peers : List MeshPeer) :
    peers.find? (hasName x) = row (meshPeerNameToString · peerNameBufSize) peers x := rfl

theorem hasName_of_name {p q : MeshPeer} (h : q.name = p.name) :
    meshPeerNameToString q peerNameBufSize = meshPeerNameToString p peerNameBufSize := by
  rw [meshPeerNameToString, meshPeerNameToString, h]

theorem SeenBetween.mono {a' b' : UInt64} (h : SeenBetween x a b peers) (ha : a' ≤ a)
    (hb : b ≤ b') : SeenBetween x a' b' peers := by
  obtain ⟨t, ht, hat, htb⟩ := h
  exact ⟨t, ht, UInt64.le_trans ha hat, UInt64.le_trans htb hb⟩

/-- Updating a peer that keeps its name, and was seen in between or is seen so now. -/
theorem SeenBetween.modify (h : SeenBetween x a b peers) (i : Nat) {f : MeshPeer → MeshPeer}
    (hname : ∀ p, (f p).name = p.name)
    (hseen : ∀ p, a ≤ p.lastSeen → p.lastSeen ≤ b → a ≤ (f p).lastSeen ∧ (f p).lastSeen ≤ b) :
    SeenBetween x a b (peers.modify i f) := by
  obtain ⟨t, ht, hat, htb⟩ := h
  obtain ⟨p, hp, rfl⟩ := Option.map_eq_some_iff.mp ht
  rw [find?_hasName] at hp
  rcases row_modify_cases hp i fun p => hasName_of_name (hname p) with hp' | hp'
  · exact ⟨p.lastSeen, by rw [lastSeenOf, find?_hasName, hp']; rfl, hat, htb⟩
  · exact ⟨(f p).lastSeen, by rw [lastSeenOf, find?_hasName, hp']; rfl, hseen p hat htb⟩

theorem SeenBetween.concat (h : SeenBetween x a b peers) (p : MeshPeer) :
    SeenBetween x a b (peers ++ [p]) := by
  obtain ⟨t, ht, hbetween⟩ := h
  obtain ⟨q, hq, rfl⟩ := Option.map_eq_some_iff.mp ht
  exact ⟨q.lastSeen, by rw [lastSeenOf, List.find?_append, hq]; rfl, hbetween⟩

theorem SeenBetween.eraseIdx (h : SeenBetween x a b peers) {i : Nat}
    (hi : peers.findIdx? (hasName x) ≠ some i) : SeenBetween x a b (peers.eraseIdx i) := by
  obtain ⟨t, ht, hbetween⟩ := h
  obtain ⟨p, hp, rfl⟩ := Option.map_eq_some_iff.mp ht
  exact ⟨p.lastSeen, by rw [lastSeenOf, find?_hasName, row_eraseIdx hp hi]; rfl, hbetween⟩

/-- A peer seen in the last 15 seconds stays. -/
theorem SeenBetween.find?_checkTimeouts {ctx : MeshCtx} (h : SeenBetween x a b ctx.peers)
    {now : UInt64} (hnow : b ≤ now) (hlate : now.toNat < a.toNat + 15000) :
    ∃ p, ctx.peers.find? (hasName x) = some p ∧
      (meshCheckTimeouts ctx now).2.peers.find? (hasName x) = some p := by
  obtain ⟨t, ht, hat, htb⟩ := h
  obtain ⟨p, hp, rfl⟩ := Option.map_eq_some_iff.mp ht
  have hin : (!peerTimedOut now p) = true := by
    rw [peerTimedOut_of_le (UInt64.le_trans htb hnow), Bool.not_not, decide_eq_true_eq, SeenLately]
    rw [UInt64.le_iff_toNat_le] at hat
    omega
  refine ⟨p, hp, ?_⟩
  rw [peers_meshCheckTimeouts, find?_hasName, row_filter hp hin]

theorem SeenBetween.congr {peers' : List MeshPeer} (h : SeenBetween x a b peers)
    (hfind : peers'.find? (hasName x) = peers.find? (hasName x)) : SeenBetween x a b peers' := by
  rwa [SeenBetween, lastSeenOf, hfind]

theorem lastSeenOf_modify (x : CString) (peers : List MeshPeer) (i : Nat) {f : MeshPeer → MeshPeer}
    (hname : ∀ p, (f p).name = p.name) (hseen : ∀ p, (f p).lastSeen = p.lastSeen) :
    lastSeenOf x (peers.modify i f) = lastSeenOf x peers :=
  row_map_modify_of_comp (fun p => hasName_of_name (hname p)) hseen x

/-- Announcing prefixes is no sign of life. -/
theorem lastSeenOf_announceAll (x : CString) (i : Nat) (now : Nat → UInt64) (ss : List CString) :
    ∀ (count : Nat) (ctx : MeshCtx),
      lastSeenOf x (announceAll i now ss count ctx).peers = lastSeenOf x ctx.peers := by
  induction ss with
  | nil => exact fun _ _ => rfl
  | cons s ss ih =>
    intro count ctx
    rw [announceAll, ih, announcePrefix, meshAddFib_peers]
    apply lastSeenOf_modify
    · exact fun _ => rfl
    · exact fun _ => rfl

/-- Adding any peer. -/
theorem SeenBetween.addPeer {ctx : MeshCtx} (h : SeenBetween x a b ctx.peers) (name : CString)
    (addr : PsirpPeer) {now : UInt64} (hnow : a ≤ now ∧ now ≤ b) :
    SeenBetween x a b (meshAddPeer ctx name addr now).2.peers := by
  rw [meshAddPeer]
  split
  · exact h
  · split
    · exact h.modify _ (fun _ => rfl) fun _ _ _ => hnow
    · exact h.concat _

/-- Adding the peer itself, if there is room. -/
theorem SeenBetween.addPeer_self {ctx : MeshCtx} (h : SeenBetween x a b ctx.peers)
    (hroom : ctx.peers.length < meshMaxPeers) (addr : PsirpPeer) (now : UInt64) :
    ∃ i, (meshAddPeer ctx x addr now).1 = some i ∧
      SeenBetween x now now (meshAddPeer ctx x addr now).2.peers := by
  obtain ⟨t, ht, -⟩ := h
  obtain ⟨p, hp, rfl⟩ := Option.map_eq_some_iff.mp ht
  obtain ⟨k, hk⟩ := List.mem_iff_getElem?.mp (List.mem_of_find?_eq_some hp)
  obtain ⟨i, -, hi⟩ := findIdx?_le hk (List.find?_some hp)
  have hadd : meshAddPeer ctx x addr now =
      (some i, { ctx with peers := ctx.peers.modify i (refreshPeer addr now) }) := by
    rw [meshAddPeer, if_neg (Nat.not_le.mpr hroom), hi]
  have hshown : ∀ q, meshPeerNameToString (refreshPeer addr now q) peerNameBufSize =
      meshPeerNameToString q peerNameBufSize := fun _ => hasName_of_name rfl
  refine ⟨i, by rw [hadd], now, ?_, UInt64.le_refl _, UInt64.le_refl _⟩
  rw [hadd, lastSeenOf, find?_hasName, row_modify_first hi hshown, if_pos rfl, ← find?_hasName, hp]
  rfl

theorem SeenBetween.peerSeen {ctx : MeshCtx} (h : SeenBetween x a b ctx.peers) (i : Nat)
    {now : UInt64} (hnow : a ≤ now ∧ now ≤ b) : SeenBetween x a b (meshPeerSeen ctx i now).peers :=
  h.modify i (fun _ => rfl) fun _ _ _ => hnow

/-- What comes after the peer of a beacon was added. -/
theorem SeenBetween.afterStrings {ctx : MeshCtx} {data : CString} {src : PsirpPeer}
    {now : Nat → UInt64} {i : Nat}
    (h : SeenBetween x a b (meshAddPeer ctx (beaconSender data) src (now 0)).2.peers)
    (hnow : a ≤ now 1 ∧ now 1 ≤ b) (ss : List CString) :
    SeenBetween x a b (afterStrings ctx data src now i ss).peers := by
  have hgreeted : SeenBetween x a b (greeted ctx data src now i).peers :=
    (h.peerSeen i hnow).modify i (fun _ => rfl) fun _ ha hb => ⟨ha, hb⟩
  obtain ⟨t, ht, hbetween⟩ := hgreeted
  exact ⟨t, by rw [DsoBrowser.afterStrings, lastSeenOf_announceAll, ht], hbetween⟩

end Seen

/-! ## Runs with a clock -/

/-- A call, with the time when it starts and the time when it returns. -/
structure TimedCall where
  /-- the call -/
  op : MeshOp
  /-- when it starts (ms) -/
  start : UInt64
  /-- when it returns (ms) -/
  finish : UInt64

/-- The clock readings of a call lie between two times. -/
def MeshOp.ReadsBetween (a b : UInt64) : MeshOp → Prop
  | .init _ _ | .removePeer _ | .removeFib _ => True
  | .addPeer _ _ now | .peerSeen _ now | .checkTimeouts now | .addFib _ _ _ now | .fibPrune now =>
    a ≤ now ∧ now ≤ b
  | .processBeacon _ _ _ now => ∀ k, a ≤ now k ∧ now k ≤ b

/-- The text has the header of a beacon and a name. -/
def IsBeacon (data : CString) (dataLen : Nat) : Prop :=
  beaconHeader.length ≤ dataLen ∧ data.take beaconHeader.length = beaconHeader ∧
    bar ∈ data.drop beaconHeader.length

instance (data : CString) (dataLen : Nat) : Decidable (IsBeacon data dataLen) :=
  inferInstanceAs (Decidable (_ ∧ _))

/-- The name a beacon was sent under. -/
def MeshOp.sender : MeshOp → Option CString
  | .processBeacon data dataLen _ _ =>
    if IsBeacon data dataLen then some (beaconSender data) else none
  | _ => none

/-- A context, with the times when the last beacon of a peer came and when the last call
returned. -/
structure Heard where
  /-- the context -/
  ctx : MeshCtx
  /-- when the last beacon of the peer came (ms) -/
  heard : UInt64
  /-- when the last call returned (ms) -/
  clock : UInt64

/-- One call, with an eye on the beacons of `x`. -/
def heardStep (x : CString) (s : Heard) (c : TimedCall) : MeshAnswer × Heard :=
  let (answer, ctx) := meshStep s.ctx c.op
  (answer, ⟨ctx, if c.op.sender = some x then c.start else s.heard, c.finish⟩)

/-- The calls come one after the other, the context and the peer `x` are not given up otherwise,
and timeouts are checked while the last beacon is less than 15 seconds old. -/
structure KeepsSending (x : CString) (s : Heard) (c : TimedCall) : Prop where
  /-- the clock does not go back between calls -/
  clock_le : s.clock ≤ c.start
  /-- nor during the call -/
  start_le : c.start ≤ c.finish
  /-- the call reads it -/
  reads : c.op.ReadsBetween c.start c.finish
  /-- the context is not made anew -/
  not_init : ∀ node cs, c.op ≠ .init node cs
  /-- nobody else removes the peer -/
  not_removed : ∀ i, c.op = .removePeer i → meshFindPeer s.ctx x ≠ some i
  /-- its beacons are less than 15 seconds apart -/
  late_lt : ∀ now, c.op = .checkTimeouts now → now.toNat < s.heard.toNat + 15000

/-- A beacon of `x` finds room in the peer table. -/
def BeaconFindsRoom (x : CString) (s : Heard) (c : TimedCall) : Prop :=
  c.op.sender = some x → s.ctx.peers.length < meshMaxPeers

/-- The timeout check keeps the peer that is known as `x`. -/
def KeptByTimeouts (x : CString) (s : Heard) (c : TimedCall) : Prop :=
  ∀ now, c.op = .checkTimeouts now →
    ∃ p, s.ctx.peers.find? (hasName x) = some p ∧
      (meshCheckTimeouts s.ctx now).2.peers.find? (hasName x) = some p

section Runs

variable {x : CString} {s : Heard} {c : TimedCall}


/-- The peer is known, and was last seen when its last beacon came or after. -/
def SeenSince (x : CString) (s : Heard) : Prop := SeenBetween x s.heard s.clock s.ctx.peers

/-- A beacon is heard if there is room. -/
theorem exists_heardFrom {ctx : MeshCtx} {data : CString} {dataLen : Nat} {src : PsirpPeer}
    {now : Nat → UInt64} {i : Nat} (h : IsBeacon data dataLen)
    (hi : (meshAddPeer ctx (beaconSender data) src (now 0)).1 = some i) :
    HeardFrom ctx data dataLen src now i :=
  ⟨h.1, h.2.1, h.2.2, hi⟩

/-- What a beacon of any peer does to the peer `x`. -/
theorem SeenBetween.processBeacon {ctx : MeshCtx} {a b : UInt64} (h : SeenBetween x a b ctx.peers)
    (data : CString) (dataLen : Nat) (src : PsirpPeer) {now : Nat → UInt64}
    (hnow : ∀ k, a ≤ now k ∧ now k ≤ b) :
    SeenBetween x a b (meshProcessBeacon ctx data dataLen src now).2.peers := by
  by_cases hheard : ∃ i, HeardFrom ctx data dataLen src now i
  · obtain ⟨i, hi⟩ := hheard
    rw [meshProcessBeacon_of_heard hi]
    exact (h.addPeer _ src (hnow 0)).afterStrings (hnow 1) _
  · rw [meshProcessBeacon_of_not_heard (not_exists.mp hheard)]
    exact h

/-- What a beacon of the peer `x` does to it, if there is room. -/
theorem SeenBetween.processBeacon_self {ctx : MeshCtx} {a b a' b' : UInt64}
    {data : CString} (h : SeenBetween (beaconSender data) a b ctx.peers)
    (hroom : ctx.peers.length < meshMaxPeers) {dataLen : Nat} (hbeacon : IsBeacon data dataLen)
    (src : PsirpPeer) {now : Nat → UInt64} (hnow : ∀ k, a' ≤ now k ∧ now k ≤ b') :
    SeenBetween (beaconSender data) a' b' (meshProcessBeacon ctx data dataLen src now).2.peers := by
  obtain ⟨i, hi, hseen⟩ := h.addPeer_self hroom src (now 0)
  rw [meshProcessBeacon_of_heard (exists_heardFrom hbeacon hi)]
  exact (hseen.mono (hnow 0).1 (hnow 0).2).afterStrings (hnow 1) _

/-- **Step.** A call keeps the peer that keeps sending. -/
theorem SeenSince.step (h : SeenSince x s) (hc : KeepsSending x s c)
    (hroom : BeaconFindsRoom x s c) :
    SeenSince x (heardStep x s c).2 := by
  obtain ⟨hclock, hfinish, hreads, hinit, hremoved, hlate⟩ := hc
  obtain ⟨op, start, finish⟩ := c
  obtain ⟨ctx, heard, clock⟩ := s
  dsimp only at hclock hfinish hreads hinit hremoved hlate
  have hseen : SeenBetween x heard finish ctx.peers :=
    h.mono (UInt64.le_refl _) (UInt64.le_trans hclock hfinish)
  have hheard : heard ≤ clock := by
    obtain ⟨t, -, hat, htb⟩ := h
    exact UInt64.le_trans hat htb
  have hsince : ∀ {now : UInt64}, start ≤ now ∧ now ≤ finish → heard ≤ now ∧ now ≤ finish :=
    fun hnow => ⟨UInt64.le_trans (UInt64.le_trans hheard hclock) hnow.1, hnow.2⟩
  rw [SeenSince, heardStep]
  cases op with
  | init node cs => exact absurd rfl (hinit node cs)
  | addPeer name addr now => exact hseen.addPeer name addr (hsince hreads)
  | removePeer i =>
    change SeenBetween x heard finish (meshRemovePeer ctx i).peers
    rcases Nat.lt_or_ge i ctx.peers.length with hi | hi
    · rw [meshRemovePeer_eq hi]
      exact hseen.eraseIdx (hremoved i rfl)
    · rw [meshRemovePeer, if_pos hi]
      exact hseen
  | peerSeen i now => exact hseen.peerSeen i (hsince hreads)
  | checkTimeouts now =>
    obtain ⟨p, hp, hp'⟩ := h.find?_checkTimeouts (UInt64.le_trans hclock hreads.1) (hlate now rfl)
    exact hseen.congr (hp'.trans hp.symm)
  | addFib pfx i lifetimeMs now =>
    change SeenBetween x heard finish (meshAddFib ctx pfx i lifetimeMs now).2.peers
    rw [meshAddFib_peers]
    exact hseen
  | removeFib i => exact hseen
  | fibPrune now =>
    change SeenBetween x heard finish (meshFibPrune ctx now).2.peers
    rw [meshFibPrune, fibPruneLoop_eq]
    exact hseen
  | processBeacon data dataLen src now =>
    change SeenBetween x (if _ = _ then start else heard) finish
      (meshProcessBeacon ctx data dataLen src now).2.peers
    split
    · rename_i hsender
      have hlen := hroom hsender
      rw [MeshOp.sender] at hsender
      split at hsender
      · rename_i hbeacon
        obtain rfl := Option.some.inj hsender
        exact hseen.processBeacon_self hlen hbeacon src hreads
      · cases hsender
    · exact hseen.processBeacon data dataLen src fun k => hsince (hreads k)

/-- The timeout check keeps it. -/
theorem SeenSince.kept (h : SeenSince x s) (hc : KeepsSending x s c) : KeptByTimeouts x s c := by
  intro now hnow
  have hreads := hc.reads
  rw [hnow] at hreads
  exact SeenBetween.find?_checkTimeouts h (UInt64.le_trans hc.clock_le hreads.1)
    (hc.late_lt now hnow)

end Runs

/-! ## Known peers and routes -/

/-- **What is known is refreshed exactly when there is room for more.** A peer has to be the first
one shown as it is as well. A peer whose beacons find room is not timed out while they come. -/
theorem refreshSucceeds_iff (node : Option PsirpNode) (cs : MeshStore) (ops : List MeshOp) :
    let ctx := exec meshStep (meshInit node cs) ops
    (∀ j p addr now, ctx.peers[j]? = some p →
      (PeerRefreshed ctx j p addr now ↔ ctx.peers.length < meshMaxPeers ∧ FirstShown ctx j p)) ∧
    (∀ k e pfx lifetimeMs now, ctx.fib[k]? = some e → psirpNameEqual e.pfx pfx = true →
      (RouteRefreshed ctx k e pfx lifetimeMs now ↔ ctx.fib.length < meshMaxFib)) ∧
    ∀ x p clock calls, ctx.peers.find? (hasName x) = some p → p.lastSeen ≤ clock →
      Along (heardStep x) (fun s c => KeepsSending x s c ∧ BeaconFindsRoom x s c)
        ⟨ctx, p.lastSeen, clock⟩ calls →
      Along (heardStep x) (KeptByTimeouts x) ⟨ctx, p.lastSeen, clock⟩ calls := by
  intro ctx
  have hctx : MeshIntegrity ctx := meshIntegrity_of_run node cs ops
  refine ⟨fun j p addr now hp => peerRefreshed_iff hp addr now, ?_, ?_⟩
  · intro k e pfx lifetimeMs now he hpfx
    exact hctx.routeRefreshed_iff he hpfx lifetimeMs now
  · intro x p clock calls hp hclock hcalls
    have hstart : SeenSince x ⟨ctx, p.lastSeen, clock⟩ :=
      ⟨p.lastSeen, by rw [lastSeenOf, hp]; rfl, UInt64.le_refl _, hclock⟩
    exact along_of_inv (fun _ _ h hc => h.step hc.1 hc.2) (fun _ _ h hc => h.kept hc.1) hstart hcalls

/-- A mesh with as many peers as it can have. -/
def fullMesh : MeshCtx :=
  exec meshStep (meshInit none .null) ((List.range meshMaxPeers).map fun i =>
    .addPeer (text ['/', Char.ofNat (48 + i)]) ⟨1, 1⟩ 0)

/-- Its peers cannot be refreshed. -/
theorem not_refreshSucceeds_full :
    ¬ ∀ j p addr now, fullMesh.peers[j]? = some p → PeerRefreshed fullMesh j p addr now := by
  intro h
  obtain ⟨p, hp⟩ : ∃ p, fullMesh.peers[0]? = some p :=
    Option.isSome_iff_exists.mp (by decide +kernel)
  have hlen : fullMesh.peers.length = meshMaxPeers := by decide +kernel
  have hindex := (h 0 p ⟨1, 1⟩ 1 hp).index
  rw [meshAddPeer, if_pos hlen.ge] at hindex
  cases hindex

end DsoBrowser
