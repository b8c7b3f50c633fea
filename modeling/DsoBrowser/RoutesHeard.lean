import DsoBrowser.MeshChanges
import DsoBrowser.NextHop

/-!
# Routes were heard lately

In a program that clears its tables from time to time, a name is routed only to a peer whose beacon
has announced a prefix of it within the last twenty seconds, at an address a beacon of the peer has
come from within the last twenty seconds (`routed_to_heard`). So much may pass because the tables
are cleared every five seconds and leave what is no older than fifteen. It holds however the threads
interleave, between the calls of one round of the loop, too.

Where the entries come from is an invariant of the **registry** (`Remembers`), in which no position
moves.
-/

namespace DsoBrowser

open FirstMax Machine Table

/-! ## What the registry remembers -/

/-- The peer a sender is taken for: one added under the name, or shown as it. -/
def TakenFor (sender : CString) (p : MeshPeer) : Prop :=
  p.name = parseName sender psirpMaxComponents ∨ hasName sender p = true

/-- A peer that keeps its name is taken for the same. -/
theorem TakenFor.congr {sender : CString} {p q : MeshPeer} (h : TakenFor sender p)
    (hname : q.name = p.name) : TakenFor sender q := by
  refine Or.imp hname.trans (fun hp => ?_) h
  rw [hasName, hasName_of_name hname]
  exact hp

/-- When the tables were cleared at `cleared`, what is stamped so was no older than 15 seconds. -/
def NotOlder (cleared stamp : UInt64) : Prop := cleared.toNat ≤ stamp.toNat + 15000

section Tables

variable (heard : HeardBeacon → Prop)

/-- A beacon of the peer was heard, not long before the peers were cleared. -/
def PeerHeard (cleared : UInt64) (p : MeshPeer) : Prop :=
  ∃ b, heard b ∧ TakenFor (beaconSender b.data) p ∧ p.addr = b.src ∧
    (∃ k, p.lastSeen = b.now k) ∧ NotOlder cleared p.lastSeen

/-- A beacon of the peer with the prefix was heard, not long before the routes were cleared. -/
def RouteHeard (cleared : UInt64) (r : RegistryRoute) (p : MeshPeer) : Prop :=
  ∃ b, heard b ∧ TakenFor (beaconSender b.data) p ∧
    (∃ s ∈ beaconStrings b.data, r.pfx.components = (heardPrefix s).components) ∧
    (∃ k, r.createdAt = b.now k) ∧ NotOlder cleared r.createdAt ∧
    r.lifetimeMs = meshBeaconInterval * 3

/-- Peers and routes were heard, and the routes lead to peers. -/
structure Remembers (peersCleared routesCleared : UInt64) (reg : Registry) : Prop where
  /-- the peers -/
  peers : ∀ p ∈ reg.peers, PeerHeard heard peersCleared p.1
  /-- the routes -/
  routes : ∀ r ∈ reg.routes, ∃ p ∈ reg.peers, p.2 = r.peer ∧ RouteHeard heard routesCleared r p.1

end Tables

section Registry

variable {heard : HeardBeacon → Prop} {a c : UInt64} {reg : Registry} {b : HeardBeacon}

theorem remembers_empty (a c : UInt64) : Remembers heard a c .empty :=
  ⟨fun _ hp => absurd hp List.not_mem_nil, fun _ hr => absurd hr List.not_mem_nil⟩

theorem RouteHeard.congr {r : RegistryRoute} {p q : MeshPeer} (h : RouteHeard heard c r p)
    (hname : q.name = p.name) : RouteHeard heard c r q := by
  obtain ⟨b, hb, htaken, hroute⟩ := h
  exact ⟨b, hb, htaken.congr hname, hroute⟩

/-- Changing a peer, but not its name. -/
theorem Remembers.update (h : Remembers heard a c reg) (n : Nat) {f : MeshPeer → MeshPeer}
    (hname : ∀ p, (f p).name = p.name)
    (hf : ∀ p ∈ reg.peers, p.2 = n → PeerHeard heard a (f p.1)) :
    Remembers heard a c (reg.update n f) where
  peers q hq := by
    obtain ⟨p, hp, rfl⟩ := List.mem_map.mp hq
    split
    · rename_i hn
      exact hf p hp hn
    · exact h.peers p hp
  routes r hr := by
    obtain ⟨p, hp, hn, hheard⟩ := h.routes r hr
    refine ⟨_, List.mem_map_of_mem hp, ?_⟩
    split
    · exact ⟨hn, hheard.congr (hname _)⟩
    · exact ⟨hn, hheard⟩

/-- **Adding a peer** whose beacon is heard. -/
theorem Remembers.addPeer (h : Remembers heard a c reg) (hkeyed : Keyed Prod.snd reg.peers)
    (hb : heard b) (hnow : NotOlder a (b.now 0)) :
    let added := reg.addPeer (beaconSender b.data) b.src (b.now 0)
    Remembers heard a c added.2 ∧ ∀ n, added.1 = some n →
      ∃ p ∈ added.2.peers, p.2 = n ∧ TakenFor (beaconSender b.data) p.1 ∧ p.1.addr = b.src := by
  dsimp only
  rw [Registry.addPeer]
  split
  · exact ⟨h, fun _ hn => by cases hn⟩
  · split
    · rename_i p hfind
      have hp := List.mem_of_find?_eq_some hfind
      have hshown := List.find?_some hfind
      have htaken : TakenFor (beaconSender b.data) p.1 := Or.inr hshown
      refine ⟨h.update p.2 (fun _ => rfl) fun q hq hn => ?_, fun n hn => ?_⟩
      · obtain rfl := hkeyed.eq_of_key_eq hq hp hn
        exact ⟨b, hb, htaken.congr rfl, rfl, ⟨0, rfl⟩, hnow⟩
      · obtain rfl := Option.some.inj hn
        exact ⟨_, mem_update hp _, rfl, htaken.congr rfl, rfl⟩
    · have htaken : TakenFor (beaconSender b.data)
          (newPeer (beaconSender b.data) b.src (b.now 0)) := Or.inl rfl
      refine ⟨⟨fun q hq => ?_, fun r hr => ?_⟩, fun n hn => ?_⟩
      · rcases List.mem_append.mp hq with hq | hq
        · exact h.peers q hq
        · rw [List.mem_singleton.mp hq]
          exact ⟨b, hb, htaken, rfl, ⟨0, rfl⟩, hnow⟩
      · obtain ⟨p, hp, hheard⟩ := h.routes r hr
        exact ⟨p, List.mem_append_left _ hp, hheard⟩
      · obtain rfl := Option.some.inj hn
        exact ⟨_, List.mem_append_right _ (List.mem_singleton_self _), rfl, htaken, rfl⟩

/-- Adding a route that is heard. -/
theorem Remembers.addRoute (h : Remembers heard a c reg) {p : MeshPeer × Nat} (hp : p ∈ reg.peers)
    {pfx : PsirpName} {lifetimeMs : UInt32} {now : UInt64}
    (hheard : RouteHeard heard c ⟨pfx, lifetimeMs, now, p.2⟩ p.1) :
    Remembers heard a c (reg.addRoute pfx p.2 lifetimeMs now).2 := by
  rw [Registry.addRoute]
  split
  · exact h
  · split
    · rename_i i hi
      refine ⟨h.peers, fun r hr => ?_⟩
      rcases mem_modify hr with hr | ⟨r₀, hr₀, rfl⟩
      · exact h.routes r hr
      · -- the route has the prefix already
        obtain ⟨hlt, hroute, -⟩ := List.findIdx?_eq_some_iff_getElem.mp hi
        rw [List.getElem?_eq_getElem hlt] at hr₀
        rw [Option.some.inj hr₀] at hroute
        obtain ⟨hequal, hpeer⟩ := Bool.and_eq_true_iff.mp hroute
        obtain ⟨b, hb, htaken, ⟨s, hs, hcomps⟩, hrest⟩ := hheard
        refine ⟨p, hp, (of_decide_eq_true hpeer).symm, b, hb, htaken, ⟨s, hs, ?_⟩, hrest⟩
        exact (psirpNameEqual_iff.mp hequal).2.trans hcomps
    · refine ⟨h.peers, fun r hr => ?_⟩
      rcases List.mem_append.mp hr with hr | hr
      · exact h.routes r hr
      · rw [List.mem_singleton.mp hr]
        exact ⟨p, hp, rfl, hheard⟩

/-- **Announcing** prefixes of a beacon that is heard. -/
theorem Remembers.announce (ss : List CString) (hb : heard b) (hnow : ∀ k, NotOlder c (b.now k))
    {n : Nat} :
    ∀ (count : Nat) {reg : Registry}, Remembers heard a c reg →
      (∃ p ∈ reg.peers, p.2 = n ∧ TakenFor (beaconSender b.data) p.1) →
      (∀ s ∈ ss, ∃ s' ∈ beaconStrings b.data, s = s'.take (peerNameBufSize - 1)) →
      Remembers heard a c (Registry.announce n (fun k => b.now (k + 2)) ss count reg) := by
  induction ss with
  | nil => exact fun _ _ h _ _ => h
  | cons s ss ih =>
    intro count reg h ⟨p, hp, hn, htaken⟩ hss
    subst hn
    obtain ⟨s', hs', rfl⟩ := hss s List.mem_cons_self
    rw [Registry.announce]
    -- the peer keeps its name, and when it was heard
    have hupdate := h.update p.2 (f := Registry.notePrefix (s'.take (peerNameBufSize - 1)))
      (fun _ => rfl) fun q hq _ => by
        obtain ⟨b', hb', htaken', hrest⟩ := h.peers q hq
        exact ⟨b', hb', htaken'.congr rfl, hrest⟩
    have hrow := mem_update hp (Registry.notePrefix (s'.take (peerNameBufSize - 1)))
    have hroute : RouteHeard heard c
        ⟨heardPrefix s', meshBeaconInterval * 3, b.now (count + 2), p.2⟩ p.1 :=
      ⟨b, hb, htaken, ⟨s', hs', rfl⟩, ⟨count + 2, rfl⟩, hnow _, rfl⟩
    refine ih _ (hupdate.addRoute hrow (hroute.congr rfl)) ?_
      fun t ht => hss t (List.mem_cons_of_mem _ ht)
    rw [peers_addRoute]
    exact ⟨_, hrow, rfl, htaken.congr rfl⟩

/-- **Hearing a beacon** that is no older. -/
theorem Remembers.hear (h : Remembers heard a c reg) {ctx : MeshCtx} (hreg : Registers ctx reg)
    (hb : heard b) (ha : ∀ k, NotOlder a (b.now k)) (hc : ∀ k, NotOlder c (b.now k))
    (dataLen : Nat) : Remembers heard a c (reg.hear b.data dataLen b.src b.now).2 := by
  obtain ⟨hadd, hpeer⟩ := h.addPeer hreg.keyed hb (ha 0)
  have hkeyed := (hreg.addPeer (beaconSender b.data) b.src (b.now 0)).2.keyed
  rw [Registry.hear]
  split
  · rcases hadded : reg.addPeer (beaconSender b.data) b.src (b.now 0) with ⟨_ | n, reg'⟩
    · rw [hadded] at hadd
      exact hadd
    · rw [hadded] at hadd hpeer hkeyed
      obtain ⟨p, hp, rfl, htaken, haddr⟩ := hpeer n rfl
      have hgreeted := hadd.update p.2 (f := Registry.greet (b.now 1)) (fun _ => rfl)
        fun q hq hn => by
          obtain rfl := hkeyed.eq_of_key_eq hq hp hn
          exact ⟨b, hb, htaken.congr rfl, haddr, ⟨1, rfl⟩, ha 1⟩
      refine Remembers.announce _ hb hc 0 hgreeted ⟨_, mem_update hp _, rfl, htaken.congr rfl⟩
        fun s hs => ?_
      obtain ⟨s', hs', rfl⟩ := List.mem_map.mp hs
      exact ⟨s', hs', rfl⟩
  · exact h

/-- **Taking out peers.** Those that stay were heard as lately as is looked for. -/
theorem Remembers.forget (h : Remembers heard a c reg) {gone : MeshPeer × Nat → Bool} {a' : UInt64}
    (hgone : ∀ p ∈ reg.peers, gone p = false → NotOlder a' p.1.lastSeen) :
    Remembers heard a' c (reg.forget gone) where
  peers p hp := by
    obtain ⟨hp, hstays⟩ := List.mem_filter.mp hp
    obtain ⟨b, hb, htaken, haddr, hseen, -⟩ := h.peers p hp
    exact ⟨b, hb, htaken, haddr, hseen, hgone p hp ((Bool.not_eq_true' _).mp hstays)⟩
  routes r hr := by
    obtain ⟨hr, hstays⟩ := List.mem_filter.mp hr
    obtain ⟨p, hp, hn, hheard⟩ := h.routes r hr
    refine ⟨p, List.mem_filter.mpr ⟨hp, ?_⟩, hn, hheard⟩
    -- the route would be gone with the peer
    rw [Bool.not_eq_true', List.any_eq_false] at hstays
    have hnot := hstays p hp
    rw [hn, decide_eq_true rfl, Bool.true_and] at hnot
    rwa [Bool.not_eq_true', ← Bool.not_eq_true]

/-- **Taking out routes.** -/
theorem Remembers.filterRoutes (h : Remembers heard a c reg) {stays : RegistryRoute → Bool}
    {c' : UInt64} (hstays : ∀ r ∈ reg.routes, stays r = true → NotOlder c' r.createdAt) :
    Remembers heard a c' { reg with routes := reg.routes.filter stays } where
  peers := h.peers
  routes r hr := by
    obtain ⟨hr, hs⟩ := List.mem_filter.mp hr
    obtain ⟨p, hp, hn, b, hb, htaken, hpfx, hat, -, hlife⟩ := h.routes r hr
    exact ⟨p, hp, hn, b, hb, htaken, hpfx, hat, hstays r hr hs, hlife⟩

end Registry

/-! ## The programs -/

/-- A step reads the clock. -/
def ProgramInput.Reads : ProgramInput → UInt64 → Prop
  | .loop env, t => t = env.now
  | .heard b, t => ∃ k, t = b.now k
  | _, _ => False

/-- The clock does not go back. -/
def ProgramClock (is : List ProgramInput) : Prop :=
  is.Pairwise fun i j => ∀ t t', i.Reads t → j.Reads t' → t ≤ t'

/-- When the peers were cleared. -/
def MeshProgram.peersCleared (s : MeshProgram) : UInt64 :=
  if s.phase = .pruning then s.now else s.lastBeacon

/-- The last beacon was not long ago when the clock was sampled. -/
def MeshProgram.Lately (s : MeshProgram) : Prop := s.now.toNat - s.lastBeacon.toNat ≤ 5000

/-- The tables are cleared in time. -/
structure Cleared (heard : HeardBeacon → Prop) (s : MeshProgram) : Prop where
  /-- the last beacon was sent when the clock was sampled last, or before -/
  last_le : s.lastBeacon ≤ s.now
  /-- between rounds that is not long ago -/
  lately : s.phase = .starting ∨ s.phase = .reading → s.Lately
  /-- the tables show a registry that remembers so much -/
  remembers : ∃ reg, Registers s.mesh reg ∧ Remembers heard s.peersCleared s.lastBeacon reg

section Programs

variable {heard : HeardBeacon → Prop} {s : MeshProgram}

theorem cleared_programStart (hasMcast : Bool) (name : CString) :
    Cleared heard (programStart hasMcast name) where
  last_le := UInt64.le_refl _
  lately _ := (Nat.sub_self _).trans_le (Nat.zero_le _)
  remembers := by
    obtain ⟨hpeers, hfib⟩ := tables_meshAddLocalPrefix
      (meshInit (some (psirpNetInit psirpCsInit hasMcast)) .ofNode) (psirpNameInit name).2
    exact ⟨_, (registers_empty _ _).congr hpeers hfib, remembers_empty _ _⟩

/-- Nothing but the tables, the times and whether the loop is about to prune is looked at. -/
theorem Cleared.congr (h : Cleared heard s) {s' : MeshProgram}
    (htables : s'.mesh.peers = s.mesh.peers ∧ s'.mesh.fib = s.mesh.fib)
    (hlast : s'.lastBeacon = s.lastBeacon) (hnow : s'.now = s.now)
    (hpruning : s'.phase = .pruning ↔ s.phase = .pruning)
    (hlately : s'.phase = .starting ∨ s'.phase = .reading → s.Lately) : Cleared heard s' where
  last_le := by
    rw [hlast, hnow]
    exact h.last_le
  lately hp := by
    rw [MeshProgram.Lately, hlast, hnow]
    exact hlately hp
  remembers := by
    obtain ⟨reg, hreg, hremembers⟩ := h.remembers
    refine ⟨reg, hreg.congr htables.1 htables.2, ?_⟩
    rw [MeshProgram.peersCleared, hlast, hnow]
    simp only [hpruning]
    exact hremembers

/-- Sending a beacon. -/
theorem Cleared.beacon (h : Cleared heard s) (hs : s.phase ≠ .pruning) {next : Phase}
    (hnext : next ≠ .pruning)
    (hlately : next = .starting ∨ next = .reading → s.Lately) :
    Cleared heard (s.beacon next).2 := by
  rw [MeshProgram.beacon]
  split
  · exact h.congr ⟨rfl, rfl⟩ rfl rfl (iff_of_false (by simp) hs) fun hp => by simp at hp
  · rename_i hsent
    have hsame := sameTables_meshSendBeacon s.mesh hsent
    exact h.congr ⟨hsame.peers, hsame.fib⟩ rfl rfl (iff_of_false hnext hs) hlately

/-- Carrying out a command. -/
theorem Cleared.command (h : Cleared heard s) (hs : s.phase ≠ .pruning) (env : LoopEnv)
    (c : Command) : Cleared heard (s.command env c).2 := by
  have hsampling : (Phase.sampling = .pruning ↔ s.phase = .pruning) := iff_of_false (by simp) hs
  have hnot : ¬ (Phase.sampling = .starting ∨ Phase.sampling = .reading) := by simp
  cases c with
  | fetch name =>
    have hsame := sameTables_meshForwardInterest s.mesh (psirpNameInit name).2 meshInterestTtl
      env.nonce (-1) 4000 env.forward
    exact h.congr ⟨hsame.peers, hsame.fib⟩ rfl rfl hsampling fun hp => absurd hp hnot
  | publish pfx =>
    exact h.congr (tables_meshAddLocalPrefix s.mesh _) rfl rfl hsampling
      fun hp => absurd hp hnot
  | beacon => exact h.beacon hs (by simp) fun hp => absurd hp hnot
  | quit => exact h.congr ⟨rfl, rfl⟩ rfl rfl hsampling fun hp => absurd hp hnot
  | «show» => exact h.congr ⟨rfl, rfl⟩ rfl rfl hsampling fun hp => absurd hp hnot

/-- What a test on the age keeps is not older, and it may keep less. -/
theorem toNat_le_of_not_lt {now stamp limit : UInt64} (h : ¬ limit < now - stamp) :
    now.toNat ≤ stamp.toNat + limit.toNat := by
  rcases UInt64.le_total stamp now with hle | hle
  · rw [UInt64.lt_iff_toNat_lt, UInt64.toNat_sub_of_le _ _ hle] at h
    omega
  · have hle' := UInt64.le_iff_toNat_le.mp hle
    omega

theorem again_ne_pruning (s : MeshProgram) : s.again.phase ≠ .pruning := by
  rw [MeshProgram.again]
  dsimp only
  split <;> simp

theorem Cleared.again (h : Cleared heard s) (hs : s.phase ≠ .pruning)
    (hlately : s.Lately) : Cleared heard s.again :=
  h.congr ⟨rfl, rfl⟩ rfl rfl (iff_of_false (again_ne_pruning s) hs) fun _ => hlately

/-- **Sampling the clock.** -/
theorem Cleared.sample (h : Cleared heard s) (hs : s.phase = .sampling) {now : UInt64}
    (hnow : s.now ≤ now) : Cleared heard { s with now := now } where
  last_le := UInt64.le_trans h.last_le hnow
  lately hp := by simp [hs] at hp
  remembers := by
    obtain ⟨reg, hreg, hremembers⟩ := h.remembers
    refine ⟨reg, hreg, ?_⟩
    rw [MeshProgram.peersCleared, if_neg (by simp [hs])] at hremembers ⊢
    exact hremembers

/-- **Taking out peers** that were not heard since. -/
theorem Cleared.expire (h : Cleared heard s) :
    Cleared heard { s with mesh := (meshCheckTimeouts s.mesh s.now).2, phase := .pruning } where
  last_le := h.last_le
  lately hp := by simp at hp
  remembers := by
    obtain ⟨reg, hreg, hremembers⟩ := h.remembers
    refine ⟨_, (hreg.checkTimeouts s.now).2, ?_⟩
    refine hremembers.forget fun p _ hstays => ?_
    rw [MeshProgram.peersCleared, if_pos rfl]
    exact toNat_le_of_not_lt (of_decide_eq_false hstays)

/-- **Taking out routes**, at the end of a round. -/
theorem Cleared.prune (h : Cleared heard s) (hs : s.phase = .pruning) :
    Cleared heard
      { s with mesh := (meshFibPrune s.mesh s.now).2, lastBeacon := s.now }.again where
  last_le := UInt64.le_refl _
  lately _ := (Nat.sub_self _).trans_le (Nat.zero_le _)
  remembers := by
    obtain ⟨reg, hreg, hremembers⟩ := h.remembers
    refine ⟨_, (hreg.fibPrune s.now).2, ?_⟩
    rw [MeshProgram.peersCleared, if_pos hs] at hremembers
    rw [MeshProgram.peersCleared, if_neg (again_ne_pruning _)]
    refine hremembers.filterRoutes fun r hr hstays => ?_
    obtain ⟨p, hp, hn, b, hb, htaken, hpfx, hat, -, hlife⟩ := hremembers.routes r hr
    rw [RegistryRoute.expired, hlife, Bool.not_eq_true', Bool.and_eq_false_imp] at hstays
    exact toNat_le_of_not_lt (of_decide_eq_false (hstays (by decide)))

/-- **A step of the loop.** -/
theorem Cleared.loop (h : Cleared heard s) (shell : Shell) {env : LoopEnv}
    (hnow : s.now ≤ env.now) : Cleared heard (s.loop shell env).2 := by
  rw [MeshProgram.loop]
  cases hphase : s.phase with
  | starting =>
    exact h.beacon (by simp [hphase]) (by simp) fun _ => h.lately (Or.inl hphase)
  | reading =>
    have hs : s.phase ≠ .pruning := by simp [hphase]
    dsimp only
    split
    · exact h.congr ⟨rfl, rfl⟩ rfl rfl (iff_of_false (by simp) hs) fun hp => by simp at hp
    · split
      · exact h.again hs (h.lately (Or.inr hphase))
      · exact h.command hs env _
  | sampling =>
    have hsampled := h.sample hphase hnow
    dsimp only
    split
    · exact hsampled.congr ⟨rfl, rfl⟩ rfl rfl (iff_of_false (by simp) (by simp [hphase]))
        fun hp => by simp at hp
    · rename_i hsoon
      refine hsampled.again (by simp [hphase]) ?_
      have hle : env.now.toNat ≤ s.lastBeacon.toNat + 5000 := toNat_le_of_not_lt hsoon
      change env.now.toNat - s.lastBeacon.toNat ≤ 5000
      omega
  | beaconing =>
    exact h.beacon (by simp [hphase]) (by simp) fun hp => by simp at hp
  | expiring => exact h.expire
  | pruning => exact h.prune hphase
  | stopped => exact h
  | «undefined» => exact h

/-- The receiver thread of the node. -/
theorem Cleared.receive (h : Cleared heard s) (f : PsirpNode → PsirpNode × List Datagram) :
    Cleared heard (s.receive f).2 := by
  rw [MeshProgram.receive]
  split
  · exact h
  · exact h.congr ⟨rfl, rfl⟩ rfl rfl Iff.rfl h.lately

/-- **Step lemma.** -/
theorem Cleared.step (h : Cleared heard s) (shell : Shell) {i : ProgramInput}
    (hclock : ∀ t, i.Reads t → s.now ≤ t) (hheard : ∀ b, i = .heard b → heard b) :
    Cleared heard (programStep shell s i).2 := by
  cases i with
  | loop env => exact h.loop shell (hclock env.now rfl)
  | unicast src buf env => exact h.receive _
  | multicast src buf => exact h.receive _
  | signal => exact h.congr ⟨rfl, rfl⟩ rfl rfl Iff.rfl h.lately
  | heard b =>
    obtain ⟨reg, hreg, hremembers⟩ := h.remembers
    have hlast := UInt64.le_iff_toNat_le.mp h.last_le
    have hnow : ∀ k, s.now.toNat ≤ (b.now k).toNat := fun k =>
      UInt64.le_iff_toNat_le.mp (hclock (b.now k) ⟨k, rfl⟩)
    refine ⟨h.last_le, h.lately, _, (hreg.hear b.data b.buf.length b.src b.now).2, ?_⟩
    refine hremembers.hear hreg (hheard b rfl) (fun k => ?_) (fun k => ?_) b.buf.length
    · have hk := hnow k
      rw [NotOlder, MeshProgram.peersCleared]
      split <;> omega
    · have hk := hnow k
      rw [NotOlder]
      omega

/-- The loop sets `now` to what it reads. -/
theorem now_programStep (shell : Shell) (s : MeshProgram) (i : ProgramInput) :
    (programStep shell s i).2.now = s.now ∨ i.Reads (programStep shell s i).2.now := by
  have hbeacon : ∀ next, (s.beacon next).2.now = s.now := by
    intro next
    rw [MeshProgram.beacon]
    split <;> rfl
  have hreceive : ∀ f, (s.receive f).2.now = s.now := by
    intro f
    rw [MeshProgram.receive]
    split <;> rfl
  cases i with
  | unicast src buf env => exact Or.inl (hreceive _)
  | multicast src buf => exact Or.inl (hreceive _)
  | heard b => exact Or.inl rfl
  | signal => exact Or.inl rfl
  | loop env =>
    change (s.loop shell env).2.now = s.now ∨ (s.loop shell env).2.now = env.now
    rw [MeshProgram.loop]
    cases s.phase with
    | starting => exact Or.inl (hbeacon _)
    | reading =>
      dsimp only
      split
      · exact Or.inl rfl
      · split
        · exact Or.inl rfl
        · refine Or.inl ?_
          cases shell.command env.stale _ with
          | beacon => exact hbeacon _
          | _ => rfl
    | sampling =>
      dsimp only
      split <;> exact Or.inr rfl
    | beaconing => exact Or.inl (hbeacon _)
    | _ => exact Or.inl rfl

/-- So `now` is not ahead of what is read later. -/
theorem now_le_programStep (shell : Shell) {i : ProgramInput} {is : List ProgramInput}
    (hnow : ∀ j ∈ i :: is, ∀ t, j.Reads t → s.now ≤ t)
    (hlater : ∀ j ∈ is, ∀ t t', i.Reads t → j.Reads t' → t ≤ t') :
    ∀ j ∈ is, ∀ t, j.Reads t → (programStep shell s i).2.now ≤ t := by
  intro j hj t ht
  rcases now_programStep shell s i with hsame | hread
  · rw [hsame]
    exact hnow j (List.mem_cons_of_mem _ hj) t ht
  · exact hlater j hj _ t hread ht

/-- **Run lemma.** The tables are cleared in time, whatever the threads do. -/
theorem Cleared.run (h : Cleared heard s) (shell : Shell) {is : List ProgramInput}
    (hclock : ProgramClock is) (hnow : ∀ i ∈ is, ∀ t, i.Reads t → s.now ≤ t)
    (hheard : ∀ b, .heard b ∈ is → heard b) :
    Cleared heard (exec (programStep shell) s is) := by
  induction is generalizing s with
  | nil => exact h
  | cons i is ih =>
    obtain ⟨hlater, hrest⟩ := List.pairwise_cons.mp hclock
    have hstep := h.step shell (hnow i List.mem_cons_self) fun b hb =>
      hheard b (hb ▸ List.mem_cons_self)
    exact ih hstep hrest (now_le_programStep shell hnow hlater)
      fun b hb => hheard b (List.mem_cons_of_mem _ hb)

/-- Where the registry routes a name, it has a route with a prefix of it. -/
theorem Remembers.nextHop {a c : UInt64} {reg : Registry} (h : Remembers heard a c reg)
    (hkeyed : Keyed Prod.snd reg.peers) {name : PsirpName} {p : MeshPeer}
    (hhop : reg.nextHop name = some p) :
    PeerHeard heard a p ∧
      ∃ r, psirpNameIsPrefix r.pfx name = true ∧ RouteHeard heard c r p := by
  obtain ⟨i, hi, hhop⟩ := Option.bind_eq_some_iff.mp hhop
  obtain ⟨r, hr, hhop⟩ := Option.bind_eq_some_iff.mp hhop
  obtain ⟨q, hq, rfl⟩ := Option.map_eq_some_iff.mp hhop
  obtain ⟨r', hfirst, hlt⟩ := scan_eq_some.mp hi
  obtain rfl : r' = r := Option.some.inj (hfirst.row.symm.trans hr)
  have hmem := List.mem_of_find?_eq_some hq
  have htest := List.find?_some hq
  have hn : q.2 = r'.peer := of_decide_eq_true htest
  obtain ⟨q', hq', hn', hheard⟩ := h.routes r' (List.mem_of_getElem? hr)
  obtain rfl := hkeyed.eq_of_key_eq hq' hmem (hn'.trans hn.symm)
  exact ⟨h.peers q' hq', r', (coe_lt_prefixWeight.mp hlt).1, hheard⟩

/-- **Where a name is routed to** was heard lately, if the tables are cleared in time. -/
theorem Cleared.heard_nextHop (h : Cleared heard s) (hphase : s.phase = .reading)
    {asked : PsirpName} {p : MeshPeer} (hhop : meshNextHop s.mesh asked = some p) :
    (∃ b, heard b ∧ TakenFor (beaconSender b.data) p ∧
        (∃ t ∈ beaconStrings b.data, psirpNameIsPrefix (heardPrefix t) asked = true) ∧
        ∃ k, s.now.toNat ≤ (b.now k).toNat + 20000) ∧
      ∃ b, heard b ∧ TakenFor (beaconSender b.data) p ∧ p.addr = b.src ∧
        ∃ k, s.now.toNat ≤ (b.now k).toNat + 20000 := by
  obtain ⟨reg, hreg, hremembers⟩ := h.remembers
  rw [MeshProgram.peersCleared, if_neg (by simp [hphase])] at hremembers
  have hlately : s.now.toNat - s.lastBeacon.toNat ≤ 5000 := h.lately (Or.inr hphase)
  have hbound : ∀ stamp, NotOlder s.lastBeacon stamp → s.now.toNat ≤ stamp.toNat + 20000 := by
    intro stamp hstamp
    rw [NotOlder] at hstamp
    omega
  rw [hreg.nextHop] at hhop
  obtain ⟨⟨b, hb, htaken, haddr, ⟨k, hk⟩, hseen⟩, r, hprefix, b', hb', htaken',
    ⟨t, ht, hcomps⟩, ⟨k', hk'⟩, hcreated, -⟩ := hremembers.nextHop hreg.keyed hhop
  refine ⟨⟨b', hb', htaken', ⟨t, ht, ?_⟩, k', ?_⟩, b, hb, htaken, haddr, k, ?_⟩
  · rw [psirpNameIsPrefix, ← hcomps]
    exact hprefix
  · rw [← hk']
    exact hbound _ hcreated
  · rw [← hk]
    exact hbound _ hseen

/-- In a run from the start they are, by the beacons of the run. -/
theorem cleared_run (shell : Shell) (hasMcast : Bool) (name : CString) {is : List ProgramInput}
    (hclock : ProgramClock is) :
    Cleared (fun b => .heard b ∈ is) (exec (programStep shell) (programStart hasMcast name) is) :=
  (cleared_programStart hasMcast name).run shell hclock (fun _ _ _ _ => UInt64.zero_le)
    fun _ hb => hb

/-- **Routes were heard lately.** In every run in which the clock does not go back, after every
round of the loop: a name is routed only to a peer of whom a beacon was heard, at most twenty
seconds before the clock was sampled last, with a prefix of the name in it, and which is addressed
where such a beacon came from. -/
theorem routed_to_heard {shell : Shell} {hasMcast : Bool} {name : CString}
    {is : List ProgramInput} (hclock : ProgramClock is) {s : MeshProgram}
    (hrun : exec (programStep shell) (programStart hasMcast name) is = s)
    (hphase : s.phase = .reading) {asked : PsirpName} {p : MeshPeer}
    (hhop : meshNextHop s.mesh asked = some p) :
    (∃ b, .heard b ∈ is ∧ TakenFor (beaconSender b.data) p ∧
        (∃ t ∈ beaconStrings b.data, psirpNameIsPrefix (heardPrefix t) asked = true) ∧
        ∃ k, s.now.toNat ≤ (b.now k).toNat + 20000) ∧
      ∃ b, .heard b ∈ is ∧ TakenFor (beaconSender b.data) p ∧ p.addr = b.src ∧
        ∃ k, s.now.toNat ≤ (b.now k).toNat + 20000 := by
  have hcleared := cleared_run shell hasMcast name hclock
  rw [hrun] at hcleared
  exact hcleared.heard_nextHop hphase hhop

end Programs

/-- `a` at `1:1` announces `/x`. -/
def beaconX : HeardBeacon :=
  ⟨(beaconHeader ++ text ['a', '|', 'x']).bytes, ⟨1, 1⟩, fun _ => 100⟩

/-- A step of the loop at a time, with a line that asks for nothing. -/
def idleLoop (now : UInt64) : ProgramInput := .loop ⟨some (text ['p']), [], 0, envX, now⟩

/-- The beacon is heard, and a whole round of the loop clears the tables. -/
def clearingRun : List ProgramInput :=
  [idleLoop 0, .heard beaconX, idleLoop 100, idleLoop 6000, idleLoop 6000, idleLoop 6000,
    idleLoop 6000]

theorem programClock_clearingRun : ProgramClock clearingRun := by
  have hloop : ∀ now t, (idleLoop now).Reads t ↔ t = now := fun _ _ => Iff.rfl
  have hheard : ∀ t, (ProgramInput.heard beaconX).Reads t ↔ t = 100 :=
    fun t => ⟨fun ⟨_, h⟩ => h, fun h => ⟨0, h⟩⟩
  simp only [ProgramClock, clearingRun, List.pairwise_cons, List.mem_cons, List.not_mem_nil,
    forall_eq_or_imp, hloop, hheard]
  simp

/-- Afterwards `/x` is routed to `a`. -/
theorem routed_to_heard_clearingRun :
    ∃ p, meshNextHop (exec (programStep meshDemo) (programStart false (text ['/', 'm']))
        clearingRun).mesh nameX = some p ∧
      ∃ b, .heard b ∈ clearingRun ∧ TakenFor (beaconSender b.data) p ∧ p.addr = b.src ∧
        ∃ k, 6000 ≤ (b.now k).toNat + 20000 := by
  have hphase : (exec (programStep meshDemo) (programStart false (text ['/', 'm']))
      clearingRun).phase = .reading := by
    decide +kernel
  have hhop : meshNextHop (exec (programStep meshDemo) (programStart false (text ['/', 'm']))
      clearingRun).mesh nameX =
        some ⟨[text ['a']], ⟨1, 1⟩, .connected, 100, [[text ['x']]]⟩ := by
    decide +kernel
  have hnow : (exec (programStep meshDemo) (programStart false (text ['/', 'm']))
      clearingRun).now.toNat = 6000 := by
    decide +kernel
  obtain ⟨-, hpeer⟩ := routed_to_heard programClock_clearingRun rfl hphase hhop
  rw [hnow] at hpeer
  exact ⟨_, hhop, hpeer⟩

end DsoBrowser
