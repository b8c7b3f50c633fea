import DsoBrowser.BeaconRoundTrip
import DsoBrowser.RoutesHeard

/-!
# Routes lead to nodes that announce the name

Any number of nodes run the programs. Their beacons are delayed, lost, heard more than once and out
of order, and datagrams of any kind come in. As long as the nodes have different names, and what
they publish fits a beacon, a node routes a name only to the address of a node that publishes a
prefix of it (`routes_lead_to_publishers`). Clocks play no part in it.

The **invariant** is `Honest`: whatever is in flight, and whatever a node has heard, was sent by the
node it seems to come from.
-/

namespace DsoBrowser

open Machine Segments

universe u

/-! ## The network -/

/-- A socket of a node. -/
inductive NodeSocket where
  /-- its own -/
  | own : NodeSocket
  /-- that of the group -/
  | group : NodeSocket
  deriving DecidableEq

/-- A beacon on its way. -/
structure FlyingBeacon (N : Type u) where
  /-- the node that sent it -/
  sender : N
  /-- the text -/
  text : CString

/-- Nodes and the beacons between them. -/
structure MeshNet (N : Type u) where
  /-- the nodes -/
  node : N → MeshProgram
  /-- the beacons on their way -/
  flight : List (FlyingBeacon N)

/-- What happens in the network. -/
inductive MeshNetInput (N : Type u) where
  /-- a node takes a step, but hears no beacon -/
  | act : N → ProgramInput → MeshNetInput N
  /-- a node hears the beacon at a position, from a socket of its sender, at these clock readings -/
  | hear : N → Nat → NodeSocket → (Nat → UInt64) → MeshNetInput N
  /-- the beacon at a position is lost -/
  | lose : Nat → MeshNetInput N

/-- What comes in has the header of a beacon. -/
def ProgramInput.isBeacon : ProgramInput → Bool
  | .heard b => b.data.take beaconHeader.length = beaconHeader
  | _ => false

section Steps

variable {N : Type u} [DecidableEq N] (addr : N → NodeSocket → PsirpPeer) (shell : N → Shell)

/-- A node takes a step, and its beacons are on their way. -/
def MeshNet.act (net : MeshNet N) (v : N) (i : ProgramInput) : ProgramOut × MeshNet N :=
  let r := programStep (shell v) (net.node v) i
  (r.1, ⟨Function.update net.node v r.2, net.flight ++ r.1.beacons.map (⟨v, ·.2⟩)⟩)

/-- One step. A beacon that is heard stays on its way, and may be heard again. -/
def meshNetStep (net : MeshNet N) : MeshNetInput N → ProgramOut × MeshNet N
  | .act v i => if i.isBeacon then (.quiet, net) else net.act shell v i
  | .hear v k socket now =>
    match net.flight[k]? with
    | none => (.quiet, net)
    | some b => net.act shell v (.heard ⟨b.text.bytes, addr b.sender socket, now⟩)
  | .lose k => (.quiet, { net with flight := net.flight.eraseIdx k })

variable {shell} (net : MeshNet N)

theorem node_act_self (v : N) (i : ProgramInput) :
    (net.act shell v i).2.node v = (programStep (shell v) (net.node v) i).2 :=
  Function.update_self v _ _

theorem node_act_of_ne {v w : N} (hw : w ≠ v) (i : ProgramInput) :
    (net.act shell v i).2.node w = net.node w :=
  Function.update_of_ne hw _ _

end Steps

/-- All nodes when their programs start. -/
def meshNetStart {N : Type u} (hasMcast : N → Bool) (name : N → CString) : MeshNet N :=
  ⟨fun v => programStart (hasMcast v) (name v), []⟩

/-! ## The invariant -/

/-- The tables are from beacons that were heard at any time. -/
def Recalls (heard : HeardBeacon → Prop) (ctx : MeshCtx) : Prop :=
  ∃ reg, Registers ctx reg ∧ Remembers heard 0 0 reg

section Recalls

variable {heard heard' : HeardBeacon → Prop} {ctx : MeshCtx}

theorem notOlder_zero (stamp : UInt64) : NotOlder 0 stamp := Nat.zero_le _

theorem Remembers.mono {a c : UInt64} {reg : Registry} (h : Remembers heard a c reg)
    (himp : ∀ b, heard b → heard' b) : Remembers heard' a c reg where
  peers p hp := by
    obtain ⟨b, hb, hrest⟩ := h.peers p hp
    exact ⟨b, himp b hb, hrest⟩
  routes r hr := by
    obtain ⟨p, hp, hn, b, hb, hrest⟩ := h.routes r hr
    exact ⟨p, hp, hn, b, himp b hb, hrest⟩

theorem Recalls.mono (h : Recalls heard ctx) (himp : ∀ b, heard b → heard' b) :
    Recalls heard' ctx := by
  obtain ⟨reg, hreg, hremembers⟩ := h
  exact ⟨reg, hreg, hremembers.mono himp⟩

/-- Any step that hears nothing else. -/
theorem Recalls.change {s : MeshProgram} (h : Recalls heard s.mesh) {i : ProgramInput}
    (hchange : MeshChange s i ctx) (hb : ∀ b, i = .heard b → heard b) : Recalls heard ctx := by
  obtain ⟨reg, hreg, hremembers⟩ := h
  cases hchange with
  | same hsame => exact ⟨reg, hreg.congr hsame.peers hsame.fib, hremembers⟩
  | publish pfx =>
    obtain ⟨hpeers, hfib⟩ := tables_meshAddLocalPrefix s.mesh pfx
    exact ⟨reg, hreg.congr hpeers hfib, hremembers⟩
  | hear b hi =>
    exact ⟨_, (hreg.hear b.data b.buf.length b.src b.now).2, hremembers.hear hreg (hb b hi)
      (fun _ => notOlder_zero _) (fun _ => notOlder_zero _) _⟩
  | expire hphase =>
    exact ⟨_, (hreg.checkTimeouts s.now).2, hremembers.forget fun _ _ _ => notOlder_zero _⟩
  | prune hphase =>
    exact ⟨_, (hreg.fibPrune s.now).2, hremembers.filterRoutes fun _ _ _ => notOlder_zero _⟩

end Recalls

section Honesty

variable {N : Type u} (addr : N → NodeSocket → PsirpPeer) {shell : N → Shell}

/-- What a node publishes, or published at some time. -/
def Announces (net : MeshNet N) (v : N) (text : CString) : Prop :=
  ∃ ps, ps ≠ [] ∧ ps <+: (net.node v).mesh.localPrefixes ∧ beaconText ps = some text

/-- The beacon is of the node it seems to come from. -/
def SentBy (net : MeshNet N) (b : HeardBeacon) : Prop :=
  ∃ v socket, b.src = addr v socket ∧ Announces net v b.data

/-- **The invariant.** Every beacon is of its sender. -/
structure Honest (net : MeshNet N) : Prop where
  /-- every node has a prefix -/
  named : ∀ v, (net.node v).mesh.localPrefixes ≠ []
  /-- what is in flight is what the sender publishes -/
  flight : ∀ b ∈ net.flight, Announces net b.sender b.text
  /-- what was heard, too -/
  tables : ∀ v, Recalls (SentBy addr net) (net.node v).mesh

variable {addr} {net net' : MeshNet N}

theorem Announces.mono {v : N} {text : CString} (h : Announces net v text)
    (hgrows : (net.node v).mesh.localPrefixes <+: (net'.node v).mesh.localPrefixes) :
    Announces net' v text := by
  obtain ⟨ps, hne, hps, htext⟩ := h
  exact ⟨ps, hne, hps.trans hgrows, htext⟩

theorem SentBy.mono {b : HeardBeacon} (h : SentBy addr net b)
    (hgrows : ∀ v, (net.node v).mesh.localPrefixes <+: (net'.node v).mesh.localPrefixes) :
    SentBy addr net' b := by
  obtain ⟨v, socket, hsrc, hannounces⟩ := h
  exact ⟨v, socket, hsrc, hannounces.mono (hgrows v)⟩

theorem honest_meshNetStart (hasMcast : N → Bool) (name : N → CString) :
    Honest addr (meshNetStart hasMcast name) where
  named _ := List.cons_ne_nil _ _
  flight _ hb := absurd hb List.not_mem_nil
  tables v := by
    obtain ⟨hpeers, hfib⟩ := tables_meshAddLocalPrefix
      (meshInit (some (psirpNetInit psirpCsInit (hasMcast v))) .ofNode) (psirpNameInit (name v)).2
    exact ⟨_, (registers_empty _ _).congr hpeers hfib, remembers_empty _ _⟩

variable [DecidableEq N]

/-- A step of a node whose tables go on so. -/
theorem Honest.act (h : Honest addr net) (v : N) {i : ProgramInput}
    (hrecalls : Recalls (SentBy addr net) (programStep (shell v) (net.node v) i).2.mesh) :
    Honest addr (net.act shell v i).2 := by
  obtain ⟨hchange, hsent⟩ := meshChange_programStep (shell v) (net.node v) i
  have hgrows : ∀ w, (net.node w).mesh.localPrefixes <+:
      ((net.act shell v i).2.node w).mesh.localPrefixes := by
    intro w
    by_cases hw : w = v
    · subst hw
      rw [node_act_self]
      exact hchange.localPrefixes
    · rw [node_act_of_ne net hw]
  refine ⟨fun w => ?_, fun b hb => ?_, fun w => ?_⟩
  · exact fun hnil => h.named w (List.prefix_nil.mp (hnil ▸ hgrows w))
  · rcases List.mem_append.mp hb with hb | hb
    · exact (h.flight b hb).mono (hgrows _)
    · obtain ⟨p, hp, rfl⟩ := List.mem_map.mp hb
      exact ⟨_, h.named v, hgrows v, hsent p hp⟩
  · refine Recalls.mono ?_ fun b hb => SentBy.mono hb hgrows
    by_cases hw : w = v
    · subst hw
      rw [node_act_self]
      exact hrecalls
    · rw [node_act_of_ne net hw]
      exact h.tables w

/-- What is no beacon leaves the tables alone. -/
theorem sameTables_heard {s : MeshProgram} {b : HeardBeacon}
    (hb : (ProgramInput.heard b).isBeacon = false) (shell : Shell) :
    SameTables (programStep shell s (.heard b)).2.mesh s.mesh := by
  have hnot : ∀ i, ¬ HeardFrom s.mesh b.data b.buf.length b.src b.now i :=
    fun i hi => of_decide_eq_false hb hi.header
  rw [programStep, meshProcessBeacon_of_not_heard hnot]
  exact .refl _

/-- **Step lemma.** -/
theorem Honest.step (h : Honest addr net) (i : MeshNetInput N) :
    Honest addr (meshNetStep addr shell net i).2 := by
  cases i with
  | act v i =>
    rw [meshNetStep]
    split
    · exact h
    · rename_i hnot
      refine h.act v ?_
      by_cases hheard : ∃ b, i = .heard b
      · obtain ⟨b, rfl⟩ := hheard
        have hsame :=
          sameTables_heard (s := net.node v) (Bool.eq_false_of_not_eq_true hnot) (shell v)
        exact (h.tables v).change (i := .signal) (.same hsame) fun _ hb => by cases hb
      · exact (h.tables v).change (meshChange_programStep (shell v) (net.node v) i).1
          fun b hb => absurd ⟨b, hb⟩ hheard
  | hear v k socket now =>
    rw [meshNetStep]
    split
    · exact h
    · rename_i b hb
      refine h.act v ((h.tables v).change (meshChange_programStep (shell v) (net.node v) _).1 ?_)
      rintro b' ⟨rfl⟩
      refine ⟨b.sender, socket, rfl, ?_⟩
      rw [HeardBeacon.data, CString.ofBytes_bytes]
      exact h.flight b (List.mem_of_getElem? hb)
  | lose k =>
    exact ⟨h.named, fun b hb => h.flight b (List.mem_of_mem_eraseIdx hb), h.tables⟩

/-- **Run lemma.** -/
theorem Honest.run (h : Honest addr net) (is : List (MeshNetInput N)) :
    Honest addr (exec (meshNetStep addr shell) net is) :=
  exec_inv (P := fun _ _ => True) (fun _ i h _ => h.step i) h (along_input.mpr fun _ _ => trivial)

end Honesty

/-! ## What beacons are taken for -/

/-- Beacons carry these prefixes whole, under a name that is read back. -/
def Announceable (ps : List PsirpName) : Prop :=
  ∃ lp : LocalPrefixes, lp.all = ps ∧ GetsThrough lp ∧ bar ∉ beaconName ps

section Announceable

variable {ps qs : List PsirpName} {text : CString}

/-- A path component is a peer's whole name. -/
theorem TakenFor.name_eq {c : CString} {p : MeshPeer} (h : TakenFor c p) (hc : PathComponent c) :
    p.name = [c] := by
  obtain ⟨x, xs, rfl⟩ := List.exists_cons_of_ne_nil hc.ne_nil
  have hx : x ≠ slash := fun hx => hc.noSlash (hx ▸ List.mem_cons_self)
  rcases h with hname | hshown
  · have hparse : parseNameLoop psirpMaxComponents ((x :: xs) ++ pathOf []) = [x :: xs] :=
      parseNameLoop_path [] (by decide)
        (fun d hd => List.mem_singleton.mp hd ▸ ⟨hc.noSlash, hc.length_lt⟩)
        fun hlast => hc.ne_nil (Option.some.inj hlast)
    rw [pathOf_nil, List.append_nil] at hparse
    have hhead : ¬ (x :: xs).head? = some slash := fun h => hx (Option.some.inj h)
    rw [hname, parseName, skipSlash, if_neg hhead]
    exact hparse
  · rw [hasName_of_noSlash hx] at hshown
    cases hshown

theorem Announceable.pathComponent (h : Announceable ps) : PathComponent (beaconName ps) := by
  obtain ⟨lp, rfl, -, -⟩ := h
  exact lp.pathComponent _ List.mem_cons_self _ lp.name_mem

/-- What was published earlier could be announced, under the same name. -/
theorem Announceable.initial (h : Announceable ps) (hne : qs ≠ []) (hqs : qs <+: ps) :
    Announceable qs ∧ beaconName qs = beaconName ps := by
  obtain ⟨lp, rfl, hthrough, hbar⟩ := h
  obtain ⟨p, qs, rfl⟩ := List.exists_cons_of_ne_nil hne
  obtain ⟨rfl, hrest⟩ : p = lp.first ∧ qs <+: lp.rest := List.cons_prefix_cons.mp hqs
  have hsub : ∀ q ∈ lp.first :: qs, q ∈ lp.all := hqs.subset
  obtain ⟨cs, hcs⟩ := lp.first_eq
  have hname : beaconName (lp.first :: qs) = beaconName lp.all := beaconName_of_cons hcs
  have hwritten : (writtenPrefixes (lp.first :: qs)).length ≤ (writtenPrefixes lp.all).length := by
    obtain ⟨more, hmore⟩ := hqs
    rw [← hmore, writtenPrefixes, writtenPrefixes, List.flatMap_append, List.length_tail,
      List.length_tail, List.length_append]
    omega
  refine ⟨⟨⟨lp.first, qs, hqs.length_le.trans lp.count_le, fun q hq => lp.canonical q (hsub q hq)⟩,
    rfl, ⟨?_, ?_, ?_, ?_, Or.inl ?_⟩, ?_⟩, hname⟩
  · exact fun q hq => hthrough.undelimited q (hsub q hq)
  · exact fun q hq => hthrough.short q (hsub q hq)
  · exact fun q hq => hthrough.selfHashed q (hsub q hq)
  · have hfits := hthrough.fits
    change (beaconStart (beaconName (lp.first :: qs))).length + _ < _
    rw [hname]
    exact (Nat.add_le_add_left hwritten _).trans_lt hfits
  · exact hname ▸ hbar
  · exact hname ▸ hbar

/-- A beacon is taken to come from the name it is sent under. -/
theorem Announceable.sender (h : Announceable ps) (htext : beaconText ps = some text) :
    beaconSender text = beaconName ps := by
  obtain ⟨rest, rfl⟩ := beaconText_eq_some htext
  have hlen := h.pathComponent.length_lt
  obtain ⟨-, -, -, hbar⟩ := h
  rw [beaconSender, List.drop_left, takeWhile_append_cons hbar,
    List.take_of_length_le (hlen.le.trans (by decide))]

/-- A beacon says nothing but the prefixes. -/
theorem Announceable.sound (h : Announceable ps) (htext : beaconText ps = some text) {s : CString}
    (hs : s ∈ beaconStrings text) : ∃ p ∈ ps, psirpNameEqual (heardPrefix s) p = true := by
  obtain ⟨lp, rfl, hthrough, -⟩ := h
  obtain ⟨text', htext', hsays⟩ := hthrough.saysExactly
  obtain rfl := Option.some.inj (htext.symm.trans htext')
  exact hsays.sound s hs

end Announceable

/-! ## Routes -/

section Routes

variable {N : Type u} {addr : N → NodeSocket → PsirpPeer} {net : MeshNet N}

/-- Every node publishes what beacons carry, and no two have the same name. -/
structure WellNamed (net : MeshNet N) : Prop where
  /-- beacons carry it -/
  announceable : ∀ v, Announceable (net.node v).mesh.localPrefixes
  /-- names are different -/
  distinct : ∀ v w, beaconName (net.node v).mesh.localPrefixes =
    beaconName (net.node w).mesh.localPrefixes → v = w

/-- A beacon is taken for the node that sent it, and announces what that node publishes. -/
theorem SentBy.read {b : HeardBeacon} (h : SentBy addr net b) (hnames : WellNamed net) :
    ∃ v socket, b.src = addr v socket ∧
      (∀ p, TakenFor (beaconSender b.data) p →
        p.name = [beaconName (net.node v).mesh.localPrefixes]) ∧
      ∀ s ∈ beaconStrings b.data, ∃ q ∈ (net.node v).mesh.localPrefixes,
        psirpNameEqual (heardPrefix s) q = true := by
  obtain ⟨v, socket, hsrc, ps, hne, hps, htext⟩ := h
  obtain ⟨hannounceable, hname⟩ := (hnames.announceable v).initial hne hps
  refine ⟨v, socket, hsrc, fun p htaken => ?_, fun s hs => ?_⟩
  · rw [hannounceable.sender htext] at htaken
    rw [← hname]
    exact htaken.name_eq hannounceable.pathComponent
  · obtain ⟨q, hq, hequal⟩ := hannounceable.sound htext hs
    exact ⟨q, hps.subset hq, hequal⟩

/-- **Routes lead to nodes that announce the name.** However the nodes run and their beacons are
lost, late or repeated: as long as names are different and beacons carry what is published, a node
routes a name only to an address of a node that publishes a prefix of it. -/
theorem routes_lead_to_publishers [DecidableEq N] {shell : N → Shell} {hasMcast : N → Bool}
    {name : N → CString} {is : List (MeshNetInput N)}
    (hrun : exec (meshNetStep addr shell) (meshNetStart hasMcast name) is = net)
    (hnames : WellNamed net) {v : N} {asked : PsirpName} {p : MeshPeer}
    (hhop : meshNextHop (net.node v).mesh asked = some p) :
    ∃ w socket, p.addr = addr w socket ∧
      ∃ q ∈ (net.node w).mesh.localPrefixes, psirpNameIsPrefix q asked = true := by
  have hhonest : Honest addr net := hrun ▸ (honest_meshNetStart hasMcast name).run is
  obtain ⟨reg, hreg, hremembers⟩ := hhonest.tables v
  rw [hreg.nextHop] at hhop
  obtain ⟨⟨b, hb, htaken, haddr, -⟩, r, hprefix, b', hb', htaken', ⟨s, hs, hcomps⟩, -⟩ :=
    hremembers.nextHop hreg.keyed hhop
  obtain ⟨w, socket, hsrc, hname, -⟩ := hb.read hnames
  obtain ⟨w', -, -, hname', hsound⟩ := hb'.read hnames
  -- the beacon with the address and the one with the prefix are of the same node
  obtain rfl : w = w' := hnames.distinct w w'
    (List.singleton_injective ((hname p htaken).symm.trans (hname' p htaken')))
  obtain ⟨q, hq, hequal⟩ := hsound s hs
  refine ⟨w, socket, haddr.trans hsrc, q, hq, ?_⟩
  rw [psirpNameIsPrefix, ← (psirpNameEqual_iff.mp hequal).2, ← hcomps]
  exact hprefix

end Routes

/-- Two nodes. -/
def pairAddr (v : Bool) (socket : NodeSocket) : PsirpPeer :=
  ⟨if v then 2 else 1, if socket = .own then 1 else 2⟩

/-- One is `x`, the other `y`. -/
def pairName (v : Bool) : CString := if v then text ['/', 'y'] else text ['/', 'x']

/-- `x` sends its first beacon, and `y` hears it twice. -/
def pairRun : List (MeshNetInput Bool) :=
  [.act false (idleLoop 0), .hear true 0 .group fun _ => 5, .hear true 0 .group fun _ => 3]

/-- The two nodes afterwards. -/
def pairNet : MeshNet Bool :=
  exec (meshNetStep pairAddr fun _ => meshDemo) (meshNetStart (fun _ => true) pairName) pairRun

/-- What they publish. -/
def pairPrefixes (v : Bool) : LocalPrefixes where
  first := (psirpNameInit (pairName v)).2
  rest := []
  count_le := show 1 ≤ meshMaxPrefixes by decide
  canonical := by
    intro p hp
    obtain rfl := List.mem_singleton.mp hp
    refine ⟨[(pairName v).tail], ?_⟩
    cases v <;> exact ⟨by decide, by decide +kernel, by decide +kernel, rfl⟩

theorem localPrefixes_pairNet (v : Bool) :
    (pairNet.node v).mesh.localPrefixes = (pairPrefixes v).all := by
  cases v <;> decide +kernel

theorem wellNamed_pairNet : WellNamed pairNet where
  announceable v := by
    rw [localPrefixes_pairNet]
    refine ⟨pairPrefixes v, rfl, ⟨?_, ?_, ?_, ?_, Or.inl ?_⟩, ?_⟩ <;> cases v <;> decide +kernel
  distinct v w h := by
    rw [localPrefixes_pairNet, localPrefixes_pairNet] at h
    cases v <;> cases w <;> first | rfl | exact absurd h (by decide +kernel)

/-- `y` routes `/x` to where the beacons of `x` come from. -/
theorem routes_lead_to_publishers_pairNet :
    (meshNextHop (pairNet.node true).mesh nameX).map MeshPeer.addr = some ⟨1, 2⟩ ∧
      ∃ w socket, (⟨1, 2⟩ : PsirpPeer) = pairAddr w socket ∧
        ∃ q ∈ (pairNet.node w).mesh.localPrefixes, psirpNameIsPrefix q nameX = true := by
  have hhop : (meshNextHop (pairNet.node true).mesh nameX).map MeshPeer.addr = some ⟨1, 2⟩ := by
    decide +kernel
  obtain ⟨p, hp, haddr⟩ := Option.map_eq_some_iff.mp hhop
  have hrun : exec (meshNetStep pairAddr fun _ => meshDemo)
      (meshNetStart (fun _ => true) pairName) pairRun = pairNet := rfl
  obtain ⟨w, socket, hw, hpublishes⟩ := routes_lead_to_publishers hrun wellNamed_pairNet hp
  exact ⟨hhop, w, socket, haddr.symm.trans hw, hpublishes⟩

end DsoBrowser
