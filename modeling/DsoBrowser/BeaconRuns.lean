import DsoBrowser.BeaconText

/-!
# Runs of beacons

A peer puts the first component of its first local prefix in its beacons as its name. The
receiver stores the name as components and compares it with those components written as a path,
which starts with a slash. The two agree only for names that are shown as themselves, and that is
when a run of beacons keeps one peer for each sender (`beaconsRefresh_of_shownAsSent`).

* A path is shown as itself (`shownName_pathOf`). A name without slashes never is, so every beacon
  of an ordinary sender adds a peer (`length_peers_of_plainName`).
* The **invariant** of a run is `TablesAgree`: the peer table has the names seen, in order, no
  name is shown as a later one, and every prefix a sender announced is routed.
-/

namespace DsoBrowser

open Machine

/-! ## Beacon texts -/

/-- A peer whose beacon fits the buffer. -/
structure Sender where
  /-- what the peer publishes -/
  localPrefixes : List PsirpName
  /-- the prefix table's size -/
  count_le : localPrefixes.length ≤ meshMaxPrefixes
  /-- some prefix has a component -/
  announces : ∃ p ∈ localPrefixes, p.components ≠ []
  /-- components have no delimiters -/
  undelimited : ∀ p ∈ localPrefixes, ∀ c ∈ p.components, bar ∉ c ∧ semicolon ∉ c
  /-- the text of the beacon -/
  text : CString
  /-- it is what `mesh_send_beacon` builds -/
  emits : beaconText localPrefixes = some text

/-- The name in the beacon. -/
def Sender.name (s : Sender) : CString := beaconName s.localPrefixes

/-- A name as it is read from a beacon, through a buffer. -/
def heardName (name : CString) : CString := name.take (peerNameBufSize - 1)

/-- The field after the name. -/
def Sender.prefixes (s : Sender) : CString :=
  ((s.text.drop beaconHeader.length).dropWhile (· ≠ bar)).drop 1

theorem Sender.bar_notMem_name (s : Sender) : bar ∉ s.name := fun h => by
  rcases mem_beaconNameLoop h with hslash | ⟨p, hp, c, hc, hbar⟩
  · exact absurd hslash (by decide)
  · exact (s.undelimited p hp c hc).1 hbar

theorem Sender.text_eq (s : Sender) :
    s.text = beaconHeader ++ (s.name ++ bar :: s.prefixes) := by
  obtain ⟨rest, hrest⟩ : ∃ rest, s.text = beaconHeader ++ (s.name ++ bar :: rest) :=
    beaconText_eq_some s.emits
  have hprefixes : s.prefixes = rest := by
    rw [Sender.prefixes, hrest, List.drop_left,
      Segments.dropWhile_append_cons s.bar_notMem_name, List.drop_succ_cons, List.drop_zero]
  rw [hprefixes]
  exact hrest

/-! ## Receiving -/

/-- A beacon as it is received. -/
structure ReceivedBeacon where
  /-- who sent it -/
  sender : Sender
  /-- the address it came from -/
  src : PsirpPeer
  /-- the clock while it is processed -/
  now : Nat → UInt64

/-- `mesh_process_beacon` on a received beacon -/
def beaconStep (ctx : MeshCtx) (b : ReceivedBeacon) : Bool × MeshCtx :=
  meshProcessBeacon ctx b.sender.text b.sender.text.length b.src b.now

/-- What happens once the peer is in the table. -/
def hear (ctx : MeshCtx) (peerIndex : Nat) (b : ReceivedBeacon) : MeshCtx :=
  let ctx := meshPeerSeen ctx peerIndex (b.now 1)
  let ctx := { ctx with peers := ctx.peers.modify peerIndex fun p => { p with prefixes := [] } }
  let ctx := announceAll peerIndex (fun k => b.now (k + 2)) (announced b.sender.prefixes 0) 0 ctx
  { ctx with beaconsReceived := ctx.beaconsReceived + 1 }

/-- A beacon adds its peer under the name in it, and is heard. -/
theorem beaconStep_eq (ctx : MeshCtx) (b : ReceivedBeacon) :
    beaconStep ctx b =
      match meshAddPeer ctx (heardName b.sender.name) b.src (b.now 0) with
      | (none, ctx) => (false, ctx)
      | (some i, ctx) => (true, hear ctx i b) := by
  have hbar := b.sender.bar_notMem_name
  have hshort : ¬ b.sender.text.length < beaconHeader.length := by
    rw [b.sender.text_eq, List.length_append]
    exact Nat.not_lt.mpr (Nat.le_add_right _ _)
  have hheader : ¬ b.sender.text.take beaconHeader.length ≠ beaconHeader := by
    rw [b.sender.text_eq, List.take_left]
    exact fun h => h rfl
  have hname : ((b.sender.text.drop beaconHeader.length).takeWhile (· ≠ bar)).take
      (peerNameBufSize - 1) = heardName b.sender.name := by
    rw [b.sender.text_eq, List.drop_left, Segments.takeWhile_append_cons hbar, heardName]
  have hprefixes : (b.sender.text.drop beaconHeader.length).dropWhile (· ≠ bar) =
      bar :: b.sender.prefixes := by
    rw [b.sender.text_eq, List.drop_left, Segments.dropWhile_append_cons hbar]
  rw [beaconStep, meshProcessBeacon, if_neg hshort, if_neg hheader]
  dsimp only
  rw [hname, hprefixes]
  rcases meshAddPeer ctx (heardName b.sender.name) b.src (b.now 0) with ⟨_ | i, ctx'⟩
  · rfl
  · dsimp only
    rw [announceLoop_eq _ _ _ _ _ _ le_rfl]
    rfl

/-- A full table is not touched. -/
theorem beaconStep_of_full {ctx : MeshCtx} {b : ReceivedBeacon}
    (hfull : meshMaxPeers ≤ ctx.peers.length) : (beaconStep ctx b).2 = ctx := by
  rw [beaconStep_eq, meshAddPeer, if_pos hfull]

/-- A peer known by the name is refreshed. -/
theorem beaconStep_of_found {ctx : MeshCtx} {b : ReceivedBeacon} {i : Nat}
    (hroom : ctx.peers.length < meshMaxPeers)
    (hi : ctx.peers.findIdx? (hasName (heardName b.sender.name)) = some i) :
    (beaconStep ctx b).2 =
      hear { ctx with peers := ctx.peers.modify i (refreshPeer b.src (b.now 0)) } i b := by
  rw [beaconStep_eq, meshAddPeer, if_neg (Nat.not_le.mpr hroom), hi]

/-- Without one, a peer is added. -/
theorem beaconStep_of_notFound {ctx : MeshCtx} {b : ReceivedBeacon}
    (hroom : ctx.peers.length < meshMaxPeers)
    (hnone : ctx.peers.findIdx? (hasName (heardName b.sender.name)) = none) :
    (beaconStep ctx b).2 =
      hear { ctx with peers := ctx.peers ++ [newPeer (heardName b.sender.name) b.src (b.now 0)] }
        ctx.peers.length b := by
  rw [beaconStep_eq, meshAddPeer, if_neg (Nat.not_le.mpr hroom), hnone]

theorem names_hear (ctx : MeshCtx) (peerIndex : Nat) (b : ReceivedBeacon) :
    (hear ctx peerIndex b).peers.map MeshPeer.name = ctx.peers.map MeshPeer.name := by
  rw [hear, map_peers_announceAll fun _ _ => rfl, meshPeerSeen, Table.map_modify_of_comp,
    Table.map_modify_of_comp]
  · exact fun _ => rfl
  · exact fun _ => rfl

theorem length_peers_hear (ctx : MeshCtx) (peerIndex : Nat) (b : ReceivedBeacon) :
    (hear ctx peerIndex b).peers.length = ctx.peers.length := by
  simpa using congrArg List.length (names_hear ctx peerIndex b)

/-- Hearing a beacon announces its prefixes. -/
theorem fib_hear (ctx : MeshCtx) (peerIndex : Nat) (b : ReceivedBeacon) :
    ∃ ctx' : MeshCtx, ctx.fib = ctx'.fib ∧ ctx'.peers.length = ctx.peers.length ∧
      (hear ctx peerIndex b).fib = (announceAll peerIndex (fun k => b.now (k + 2))
        (announced b.sender.prefixes 0) 0 ctx').fib := by
  refine ⟨{ ctx with
    peers := (meshPeerSeen ctx peerIndex (b.now 1)).peers.modify peerIndex
      fun p => { p with prefixes := [] } }, rfl, ?_, rfl⟩
  simp [meshPeerSeen]

/-- A route that is there stays when a beacon is heard. -/
theorem Routed.hear {ctx : MeshCtx} {k : Nat} {q : PsirpName} (h : Routed ctx k q)
    (peerIndex : Nat) (b : ReceivedBeacon) : Routed (hear ctx peerIndex b) k q := by
  obtain ⟨ctx', hstart, -, hend⟩ := fib_hear ctx peerIndex b
  rw [routed_congr hend]
  exact ((routed_congr hstart).mp h).announceAll peerIndex _ _ _

/-- The prefixes of a beacon that was heard are routed. -/
theorem routed_hear {ctx : MeshCtx} {peerIndex : Nat} (h : peerIndex < ctx.peers.length)
    (b : ReceivedBeacon) : ∀ s ∈ announced b.sender.prefixes 0,
      Routed (hear ctx peerIndex b) peerIndex (psirpNameInit s).2 := by
  intro s hs
  obtain ⟨ctx', -, hlen, hend⟩ := fib_hear ctx peerIndex b
  rw [routed_congr hend]
  exact routed_announceAll _ _ _ (hlen ▸ h) s hs

/-- A beacon whose prefixes are all routed changes no route. -/
theorem routes_hear {ctx : MeshCtx} {peerIndex : Nat} {b : ReceivedBeacon}
    (h : ∀ s ∈ announced b.sender.prefixes 0, Routed ctx peerIndex (psirpNameInit s).2) :
    (hear ctx peerIndex b).routes = ctx.routes := by
  obtain ⟨ctx', hstart, -, hend⟩ := fib_hear ctx peerIndex b
  rw [routes_congr hend, routes_congr hstart]
  exact routes_announceAll _ _ _ fun s hs => (routed_congr hstart).mp (h s hs)

/-- **Ordinary senders.** While there is room, every beacon whose name is a component without a
slash adds a peer, known or not. -/
theorem length_peers_of_plainName {ctx : MeshCtx} (b : ReceivedBeacon)
    (hne : b.sender.name ≠ []) (hslash : slash ∉ b.sender.name)
    (hroom : ctx.peers.length < meshMaxPeers) :
    (beaconStep ctx b).2.peers.length = ctx.peers.length + 1 := by
  obtain ⟨c, cs, hname⟩ := List.exists_cons_of_ne_nil hne
  have hc : c ≠ slash := by
    rintro rfl
    rw [hname] at hslash
    exact hslash List.mem_cons_self
  have hnone : ctx.peers.findIdx? (hasName (heardName b.sender.name)) = none := by
    rw [hname]
    exact List.findIdx?_eq_none_iff.mpr fun p _ => hasName_of_noSlash hc
  rw [beaconStep_of_notFound hroom hnone, length_peers_hear, List.length_append]
  rfl

/-! ## Runs -/

/-- The names in the beacons, in the order they first came. -/
def senderNames (beacons : List ReceivedBeacon) : List CString :=
  (beacons.map fun b => b.sender.name).eraseDups

/-- Beacons refresh: at every point of the run the table has one peer for each name, and a beacon
from a sender heard before changes neither the number of peers nor a route. -/
structure BeaconsRefresh (ctx : MeshCtx) (beacons : List ReceivedBeacon) : Prop where
  /-- one peer for each name -/
  one_peer : ∀ before after, beacons = before ++ after →
    (exec beaconStep ctx before).peers.map MeshPeer.name =
      (senderNames before).map fun n => parseName (heardName n) psirpMaxComponents
  /-- a known sender changes nothing but times and addresses -/
  known : ∀ before b after, beacons = before ++ b :: after →
    (∃ b' ∈ before, b'.sender = b.sender) →
      (exec beaconStep ctx (before ++ [b])).peers.length =
          (exec beaconStep ctx before).peers.length ∧
        (exec beaconStep ctx (before ++ [b])).routes = (exec beaconStep ctx before).routes

/-- The table is full, or the name is new and no name before is shown as it, or it is not new and
is shown as itself. -/
def ShownAsSent (before : List ReceivedBeacon) (b : ReceivedBeacon) : Prop :=
  (senderNames before).length = meshMaxPeers ∨
  (b.sender.name ∉ senderNames before ∧
    ∀ n ∈ senderNames before, shownName (heardName n) ≠ heardName b.sender.name) ∨
  (b.sender.name ∈ senderNames before ∧
    shownName (heardName b.sender.name) = heardName b.sender.name)

theorem senderNames_concat (beacons : List ReceivedBeacon) (b : ReceivedBeacon) :
    senderNames (beacons ++ [b]) =
      if b.sender.name ∈ senderNames beacons then senderNames beacons
      else senderNames beacons ++ [b.sender.name] := by
  rw [senderNames, senderNames, List.map_append, List.map_singleton, List.eraseDups_append]
  generalize beacons.map (fun b => b.sender.name) = ns
  by_cases h : b.sender.name ∈ ns
  · rw [if_pos (List.mem_eraseDups.mpr h)]
    simp [List.removeAll, h]
  · rw [if_neg fun h' => h (List.mem_eraseDups.mp h')]
    simp [List.removeAll, h, List.eraseDups_cons]

theorem mem_senderNames {beacons : List ReceivedBeacon} {b : ReceivedBeacon} (h : b ∈ beacons) :
    b.sender.name ∈ senderNames beacons :=
  List.mem_eraseDups.mpr (List.mem_map_of_mem h)

/-- More beacons, more names. -/
theorem senderNames_initial (beacons more : List ReceivedBeacon) :
    senderNames beacons <+: senderNames (beacons ++ more) := by
  rw [senderNames, senderNames, List.map_append, List.eraseDups_append]
  exact List.prefix_append _ _

/-- What the tables are after a run. -/
structure TablesAgree (beacons : List ReceivedBeacon) (ctx : MeshCtx) : Prop where
  /-- one peer for each name, in order -/
  peers_eq : ctx.peers.map MeshPeer.name =
    (senderNames beacons).map fun n => parseName (heardName n) psirpMaxComponents
  /-- no name is shown as a later one -/
  apart : (senderNames beacons).Pairwise fun m n => shownName (heardName m) ≠ heardName n
  /-- unless the table is full, what was announced is routed to the peer of the name -/
  routed : (senderNames beacons).length < meshMaxPeers → ∀ b ∈ beacons,
    ∃ i, (senderNames beacons)[i]? = some b.sender.name ∧
      ∀ s ∈ announced b.sender.prefixes 0, Routed ctx i (psirpNameInit s).2

theorem TablesAgree.length_peers {beacons : List ReceivedBeacon} {ctx : MeshCtx}
    (h : TablesAgree beacons ctx) : ctx.peers.length = (senderNames beacons).length := by
  simpa using congrArg List.length h.peers_eq

/-- The scan for a name, on the names instead of the peers. -/
theorem TablesAgree.findIdx?_eq {beacons : List ReceivedBeacon} {ctx : MeshCtx}
    (h : TablesAgree beacons ctx) (name : CString) :
    ctx.peers.findIdx? (hasName name) =
      (senderNames beacons).findIdx? fun n => decide (shownName (heardName n) = name) := by
  have hpeer : ctx.peers.findIdx? (hasName name) = (ctx.peers.map MeshPeer.name).findIdx?
      fun cs => decide ((pathOf cs).take (peerNameBufSize - 1) = name) := by
    rw [List.findIdx?_map]
    exact Table.findIdx?_congr fun p _ => by
      rw [hasName, meshPeerNameToString_eq p (by decide)]
      rfl
  rw [hpeer, h.peers_eq, List.findIdx?_map]
  exact Table.findIdx?_congr fun n _ => by
    rw [Function.comp_apply, shownName_eq]

/-- A name that is shown as itself finds its own peer. -/
theorem TablesAgree.findIdx?_of_shown {beacons : List ReceivedBeacon} {ctx : MeshCtx}
    (h : TablesAgree beacons ctx) {name : CString}
    (hshown : shownName (heardName name) = heardName name) {i : Nat}
    (hi : (senderNames beacons)[i]? = some name) :
    ctx.peers.findIdx? (hasName (heardName name)) = some i := by
  obtain ⟨hlt, hget⟩ := List.getElem?_eq_some_iff.mp hi
  rw [h.findIdx?_eq]
  refine List.findIdx?_eq_some_iff_getElem.mpr ⟨hlt, by simpa [hget] using hshown, ?_⟩
  intro j hj
  have hne := List.pairwise_iff_getElem.mp h.apart j i (hj.trans hlt) hlt hj
  rw [hget] at hne
  simpa using hne

/-- A full table stays as it is, if the name is one of those in it. -/
theorem TablesAgree.step_full {beacons : List ReceivedBeacon} {ctx : MeshCtx}
    (h : TablesAgree beacons ctx) {b : ReceivedBeacon} (hfull : meshMaxPeers ≤ ctx.peers.length)
    (hcap : (senderNames (beacons ++ [b])).length ≤ meshMaxPeers) :
    TablesAgree (beacons ++ [b]) (beaconStep ctx b).2 := by
  rw [h.length_peers] at hfull
  have hnames : senderNames (beacons ++ [b]) = senderNames beacons :=
    ((senderNames_initial beacons [b]).eq_of_length_le (hcap.trans hfull)).symm
  rw [beaconStep_of_full (h.length_peers ▸ hfull)]
  refine ⟨hnames ▸ h.peers_eq, hnames ▸ h.apart, fun hroom => ?_⟩
  rw [hnames] at hroom
  exact absurd hroom (Nat.not_lt.mpr hfull)

/-- A new name that no name before is shown as gets a peer of its own. -/
theorem TablesAgree.step_new {beacons : List ReceivedBeacon} {ctx : MeshCtx}
    (h : TablesAgree beacons ctx) {b : ReceivedBeacon} (hroom : ctx.peers.length < meshMaxPeers)
    (hnew : b.sender.name ∉ senderNames beacons)
    (hfree : ∀ n ∈ senderNames beacons, shownName (heardName n) ≠ heardName b.sender.name) :
    TablesAgree (beacons ++ [b]) (beaconStep ctx b).2 := by
  have hnames : senderNames (beacons ++ [b]) = senderNames beacons ++ [b.sender.name] := by
    rw [senderNames_concat, if_neg hnew]
  have hnone : ctx.peers.findIdx? (hasName (heardName b.sender.name)) = none := by
    rw [h.findIdx?_eq]
    exact List.findIdx?_eq_none_iff.mpr fun n hn => by simpa using hfree n hn
  rw [beaconStep_of_notFound hroom hnone]
  refine ⟨?_, ?_, fun hroom b' hb' => ?_⟩
  · rw [names_hear, hnames, List.map_append, List.map_append, h.peers_eq]
    rfl
  · rw [hnames]
    refine List.pairwise_append.mpr ⟨h.apart, List.pairwise_singleton _ _, ?_⟩
    intro m hm n hn
    rw [List.mem_singleton.mp hn]
    exact hfree m hm
  · rw [hnames] at hroom ⊢
    rcases List.mem_append.mp hb' with hb' | hb'
    · -- what was routed stays routed, to the same place
      obtain ⟨i, hi, hrouted⟩ :=
        h.routed ((List.sublist_append_left _ _).length_le.trans_lt hroom) b' hb'
      refine ⟨i, ?_, fun s hs => ?_⟩
      · rw [List.getElem?_append_left (List.getElem?_eq_some_iff.mp hi).1]
        exact hi
      · apply Routed.hear
        exact hrouted s hs
    · -- the new peer is the last one
      rw [List.mem_singleton.mp hb']
      refine ⟨ctx.peers.length, ?_, routed_hear (by simp) b⟩
      rw [h.length_peers]
      exact List.getElem?_concat_length

/-- A known name that is shown as itself finds its own peer. -/
theorem TablesAgree.step_known {beacons : List ReceivedBeacon} {ctx : MeshCtx}
    (h : TablesAgree beacons ctx) {b : ReceivedBeacon} (hroom : ctx.peers.length < meshMaxPeers)
    (hknown : b.sender.name ∈ senderNames beacons)
    (hshown : shownName (heardName b.sender.name) = heardName b.sender.name) :
    TablesAgree (beacons ++ [b]) (beaconStep ctx b).2 := by
  have hnames : senderNames (beacons ++ [b]) = senderNames beacons := by
    rw [senderNames_concat, if_pos hknown]
  obtain ⟨k, hk⟩ := List.mem_iff_getElem?.mp hknown
  have hlt : k < ctx.peers.length := by
    rw [h.length_peers]
    exact (List.getElem?_eq_some_iff.mp hk).1
  rw [beaconStep_of_found hroom (h.findIdx?_of_shown hshown hk)]
  refine ⟨?_, hnames ▸ h.apart, fun hroom b' hb' => ?_⟩
  · rw [names_hear, hnames, ← h.peers_eq]
    exact Table.map_modify_of_comp fun _ => rfl
  · rw [hnames] at hroom ⊢
    rcases List.mem_append.mp hb' with hb' | hb'
    · obtain ⟨i, hi, hrouted⟩ := h.routed hroom b' hb'
      refine ⟨i, hi, fun s hs => ?_⟩
      apply Routed.hear
      exact hrouted s hs
    · rw [List.mem_singleton.mp hb']
      exact ⟨k, hk, routed_hear (by simpa using hlt) b⟩

/-- **Step.** A beacon whose name is shown as it was sent keeps the tables as they should be. -/
theorem TablesAgree.step {beacons : List ReceivedBeacon} {ctx : MeshCtx}
    (h : TablesAgree beacons ctx) {b : ReceivedBeacon}
    (hcap : (senderNames (beacons ++ [b])).length ≤ meshMaxPeers) (hb : ShownAsSent beacons b) :
    TablesAgree (beacons ++ [b]) (beaconStep ctx b).2 := by
  rcases Nat.lt_or_ge ctx.peers.length meshMaxPeers with hroom | hfull
  · rcases hb with hfull | ⟨hnew, hfree⟩ | ⟨hknown, hshown⟩
    · rw [h.length_peers, hfull] at hroom
      exact absurd hroom (Nat.lt_irrefl _)
    · exact h.step_new hroom hnew hfree
    · exact h.step_known hroom hknown hshown
  · exact h.step_full hfull hcap

/-- **Refresh.** A beacon from a sender heard before changes no number of peers and no route. -/
theorem TablesAgree.refresh {beacons : List ReceivedBeacon} {ctx : MeshCtx}
    (h : TablesAgree beacons ctx) {b b' : ReceivedBeacon} (hb' : b' ∈ beacons)
    (hsender : b'.sender = b.sender) (hb : ShownAsSent beacons b) :
    (beaconStep ctx b).2.peers.length = ctx.peers.length ∧
      (beaconStep ctx b).2.routes = ctx.routes := by
  rcases Nat.lt_or_ge ctx.peers.length meshMaxPeers with hroom | hfull
  · have hmem : b.sender.name ∈ senderNames beacons := hsender ▸ mem_senderNames hb'
    obtain ⟨i, hi, hrouted⟩ := h.routed (h.length_peers ▸ hroom) b' hb'
    rw [hsender] at hi hrouted
    -- the name is known, so of the three cases only the last is left
    have hshown : shownName (heardName b.sender.name) = heardName b.sender.name := by
      rcases hb with hfull | ⟨hnew, -⟩ | ⟨-, hshown⟩
      · rw [h.length_peers, hfull] at hroom
        exact absurd hroom (Nat.lt_irrefl _)
      · exact absurd hmem hnew
      · exact hshown
    rw [beaconStep_of_found hroom (h.findIdx?_of_shown hshown hi)]
    constructor
    · rw [length_peers_hear, List.length_modify]
    · apply routes_hear
      exact hrouted
  · rw [beaconStep_of_full hfull]
    exact ⟨rfl, rfl⟩

/-- **Run.** The tables are as they should be after every run of beacons shown as they were
sent. -/
theorem tablesAgree_of_shownAsSent {ctx : MeshCtx} (hempty : ctx.peers = [])
    {beacons : List ReceivedBeacon} (hcap : (senderNames beacons).length ≤ meshMaxPeers)
    (hshown : ∀ before b after, beacons = before ++ b :: after → ShownAsSent before b) :
    TablesAgree beacons (exec beaconStep ctx beacons) := by
  induction beacons using List.reverseRecOn with
  | nil =>
    refine ⟨?_, List.Pairwise.nil, fun _ b hb => by cases hb⟩
    rw [exec_nil, hempty]
    rfl
  | append_singleton beacons b ih =>
    have hle := (senderNames_initial beacons [b]).length_le
    have hbefore := ih (hle.trans hcap) fun before c after hsplit =>
      hshown before c (after ++ [b]) (by rw [hsplit, List.append_assoc, List.cons_append])
    rw [exec_append, exec_cons, exec_nil]
    exact hbefore.step hcap (hshown beacons b [] rfl)

/-- **Beacons refresh** in every run from an empty peer table, with at most as many names as there
is room for, whose beacons are all shown as they were sent. -/
theorem beaconsRefresh_of_shownAsSent {ctx : MeshCtx} (hempty : ctx.peers = [])
    {beacons : List ReceivedBeacon} (hcap : (senderNames beacons).length ≤ meshMaxPeers)
    (hshown : ∀ before b after, beacons = before ++ b :: after → ShownAsSent before b) :
    BeaconsRefresh ctx beacons := by
  have hagree : ∀ before after, beacons = before ++ after →
      TablesAgree before (exec beaconStep ctx before) := by
    rintro before after rfl
    refine tablesAgree_of_shownAsSent hempty
      ((senderNames_initial before after).length_le.trans hcap) fun before' c after' hsplit => ?_
    exact hshown before' c (after' ++ after)
      (by rw [hsplit, List.append_assoc, List.cons_append])
  refine ⟨fun before after hsplit => (hagree before after hsplit).peers_eq, ?_⟩
  rintro before b after hsplit ⟨b', hb', hsender⟩
  rw [exec_append, exec_cons, exec_nil]
  exact (hagree before (b :: after) hsplit).refresh hb' hsender (hshown before b after hsplit)

/-- A peer that publishes the root and `/x`; its beacons say `/x`. -/
def senderSlashX : Sender where
  localPrefixes := [(psirpNameInit []).2, (psirpNameInit (text ['/', 'x'])).2]
  count_le := by decide
  announces := by decide
  undelimited := by decide
  text := beaconHeader ++ text ['/', 'x', '|', ';', 'x']
  emits := by decide

theorem beaconsRefresh_of_shownAsSent_slashX :
    BeaconsRefresh (meshInit none .null)
      [⟨senderSlashX, ⟨1, 1⟩, fun _ => 0⟩, ⟨senderSlashX, ⟨1, 1⟩, fun _ => 1⟩] := by
  apply beaconsRefresh_of_shownAsSent rfl (by decide)
  intro before b after hsplit
  rcases before with _ | ⟨c, _ | ⟨c', before⟩⟩
  · exact Or.inr (Or.inl ⟨List.not_mem_nil, nofun⟩)
  · obtain ⟨rfl, hrest⟩ := List.cons.inj hsplit
    obtain ⟨rfl, -⟩ := List.cons.inj hrest
    exact Or.inr (Or.inr ⟨by decide, by decide⟩)
  · have hlen := congrArg List.length hsplit
    simp at hlen

/-- A peer that publishes `/x`; its beacons say `x`. -/
def senderX : Sender where
  localPrefixes := [(psirpNameInit (text ['/', 'x'])).2]
  count_le := by decide
  announces := by decide
  undelimited := by decide
  text := beaconHeader ++ text ['x', '|', 'x']
  emits := by decide

/-- The second beacon of a peer that publishes `/x` adds a second peer. -/
theorem not_beaconsRefresh_x :
    let b : ReceivedBeacon := ⟨senderX, ⟨1, 1⟩, fun _ => 0⟩
    (senderNames [b, b]).length ≤ meshMaxPeers ∧ ¬ BeaconsRefresh (meshInit none .null) [b, b] := by
  intro b
  refine ⟨by decide, fun h => ?_⟩
  have hadd : ∀ ctx : MeshCtx, ctx.peers.length < meshMaxPeers →
      (beaconStep ctx b).2.peers.length = ctx.peers.length + 1 := fun ctx hroom =>
    length_peers_of_plainName b (by decide) (by decide) hroom
  have hfirst := hadd (meshInit none .null) (by decide)
  have hsecond := hadd (beaconStep (meshInit none .null) b).2 (by rw [hfirst]; decide)
  obtain ⟨hsame, -⟩ := h.known [b] b [] rfl ⟨b, List.mem_singleton_self b, rfl⟩
  exact absurd (hsecond.symm.trans hsame) (Nat.succ_ne_self _)

end DsoBrowser
