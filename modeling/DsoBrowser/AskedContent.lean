import DsoBrowser.RoutesKept
import DsoBrowser.NextHop

/-!
# What was heard lately is asked for

A mesh program sends an Interest only when its user asks for a name that a beacon heard lately has a
prefix of (`asked_was_heard`). And when the name is not in the store and such a beacon was heard, it
does send one: to every peer that its **node** knows, or to the group if the node knows none
(`heard_is_asked`). So beacons decide what is asked for, but not whom.

A route is not enough for that: the peer it leads to has to be connected. All peers are, between any
two steps (`allConnected_run`).
-/

namespace DsoBrowser

open Machine

/-! ## Peers are connected -/

/-- Every peer is connected. -/
def AllConnected (reg : Registry) : Prop := ∀ p ∈ reg.peers, p.1.state = .connected

section Registry

variable {reg : Registry}

theorem AllConnected.update (h : AllConnected reg) (n : Nat) {f : MeshPeer → MeshPeer}
    (hf : ∀ p : MeshPeer, p.state = .connected → (f p).state = .connected) :
    AllConnected (reg.update n f) := by
  intro q hq
  obtain ⟨p, hp, rfl⟩ := List.mem_map.mp hq
  split
  · exact hf p.1 (h p hp)
  · exact h p hp

/-- A peer that is added is only discovered. -/
theorem AllConnected.addPeer (h : AllConnected reg) (name : CString) (addr : PsirpPeer)
    (now : UInt64) :
    ∀ p ∈ (reg.addPeer name addr now).2.peers,
      p.1.state = .connected ∨ (reg.addPeer name addr now).1 = some p.2 := by
  rw [Registry.addPeer]
  split
  · exact fun p hp => Or.inl (h p hp)
  · split
    · exact fun p hp => Or.inl (h.update _ (fun _ _ => rfl) p hp)
    · intro p hp
      rcases List.mem_append.mp hp with hp | hp
      · exact Or.inl (h p hp)
      · exact Or.inr (by rw [List.mem_singleton.mp hp])

theorem AllConnected.announce (n : Nat) (now : Nat → UInt64) (ss : List CString) :
    ∀ (count : Nat) {reg : Registry}, AllConnected reg →
      AllConnected (Registry.announce n now ss count reg) := by
  induction ss with
  | nil => exact fun _ _ h => h
  | cons s ss ih =>
    intro count reg h
    rw [Registry.announce]
    refine ih _ ?_
    rw [AllConnected, peers_addRoute]
    exact h.update n fun _ hp => hp

/-- **Hearing a beacon** connects its sender. -/
theorem AllConnected.hear (h : AllConnected reg) (data : CString) (dataLen : Nat)
    (src : PsirpPeer) (now : Nat → UInt64) :
    AllConnected (reg.hear data dataLen src now).2 := by
  have hadd := h.addPeer (beaconSender data) src (now 0)
  rw [Registry.hear]
  split
  · rcases hadded : reg.addPeer (beaconSender data) src (now 0) with ⟨_ | n, reg'⟩
    · rw [hadded] at hadd
      exact fun p hp => (hadd p hp).resolve_right (by simp)
    · rw [hadded] at hadd
      refine AllConnected.announce _ _ _ _ fun q hq => ?_
      obtain ⟨p, hp, rfl⟩ := List.mem_map.mp hq
      split
      · rfl
      · rename_i hne
        exact (hadd p hp).resolve_right fun hn => hne (Option.some.inj hn).symm
  · exact h

end Registry

section Programs

variable {s : MeshProgram} {i : ProgramInput}

/-- Every peer of the tables is connected. -/
def ConnectedMesh (ctx : MeshCtx) : Prop := ∃ reg, Registers ctx reg ∧ AllConnected reg

/-- **Step lemma.** -/
theorem MeshChange.connected {ctx : MeshCtx} (h : MeshChange s i ctx)
    (hs : ConnectedMesh s.mesh) : ConnectedMesh ctx := by
  obtain ⟨reg, hreg, hall⟩ := hs
  cases h with
  | same hsame => exact ⟨reg, hreg.congr hsame.peers hsame.fib, hall⟩
  | publish pfx =>
    obtain ⟨hpeers, hfib⟩ := tables_meshAddLocalPrefix s.mesh pfx
    exact ⟨reg, hreg.congr hpeers hfib, hall⟩
  | hear b hb => exact ⟨_, (hreg.hear ..).2, hall.hear _ _ _ _⟩
  | expire hphase =>
    exact ⟨_, (hreg.checkTimeouts s.now).2, fun p hp => hall p (List.mem_of_mem_filter hp)⟩
  | prune hphase => exact ⟨_, (hreg.fibPrune s.now).2, hall⟩

/-- **Run lemma.** Peers are connected, whatever the threads do. -/
theorem allConnected_run (shell : Shell) (hasMcast : Bool) (name : CString)
    (is : List ProgramInput) :
    ConnectedMesh (exec (programStep shell) (programStart hasMcast name) is).mesh := by
  have hstart : ConnectedMesh (programStart hasMcast name).mesh := by
    obtain ⟨hpeers, hfib⟩ := tables_meshAddLocalPrefix
      (meshInit (some (psirpNetInit psirpCsInit hasMcast)) .ofNode) (psirpNameInit name).2
    exact ⟨_, (registers_empty _ _).congr hpeers hfib, fun _ hp => absurd hp List.not_mem_nil⟩
  exact exec_inv (I := fun s : MeshProgram => ConnectedMesh s.mesh) (P := fun _ _ => True)
    (fun s i hs _ => (meshChange_programStep shell s i).1.connected hs) hstart
    (along_input.mpr fun _ _ => trivial)

/-! ## Sending -/

/-- Without a DHT, an Interest is only sent for a name that is routed. -/
theorem exists_nextHop_of_sends {ctx : MeshCtx} (hdht : ctx.dht = none) {name : PsirpName}
    {ttl : UInt32} {nonce fromPeer : UInt64} {timeoutMs : UInt32} {env : ForwardEnv}
    (h : (meshForwardInterest ctx name ttl nonce fromPeer timeoutMs env).2.2 ≠ []) :
    ∃ p, meshNextHop ctx name = some p := by
  have hlookup := sameTables_lookup ctx name env.lookupNow
  rw [meshForwardInterest] at h
  split at h
  · exact absurd rfl h
  · split at h
    · exact absurd rfl h
    · rename_i ctx' hlook
      rw [hlook] at hlookup
      have hsame := (sameTables_remember ctx' nonce env.cacheNow fromPeer).trans hlookup
      dsimp only at h
      generalize ctx'.remember nonce env.cacheNow fromPeer = c at h hsame
      split at h
      · exact absurd rfl h
      · split at h
        · exact absurd rfl h
        · split at h
          · exact absurd rfl h
          · -- there are no holders to ask
            rw [hsame.dht hdht] at h
            exact absurd rfl h
          · rename_i node f hnode hroute
            split at h
            · rename_i hconnected
              obtain ⟨k, hk, hf⟩ := Option.bind_eq_some_iff.mp hroute
              obtain ⟨p, hp, -⟩ := (Option.any_eq_true _ _).mp hconnected
              have hnext : meshNextHop c name = some p := Option.bind_eq_some_iff.mpr
                ⟨k, hk, Option.bind_eq_some_iff.mpr ⟨f, hf, hp⟩⟩
              rw [meshNextHop, meshFibLookup, hsame.fib, hsame.peers] at hnext
              exact ⟨p, hnext⟩
            · exact absurd rfl h

/-- Only for the command to fetch a name is anything sent, and that is passed on. -/
theorem exists_fetch_of_sends {shell : Shell} {env : LoopEnv}
    (h : (programStep shell s (.loop env)).1.datagrams ≠ []) :
    s.phase = .reading ∧ ∃ line asked, env.line = some line ∧
      shell.command env.stale line = .fetch asked ∧
      (meshForwardInterest s.mesh (psirpNameInit asked).2 meshInterestTtl env.nonce (-1) 4000
        env.forward).2.2 ≠ [] := by
  have hbeacon : ∀ next, (s.beacon next).1.datagrams = [] := by
    intro next
    rw [MeshProgram.beacon]
    split <;> rfl
  rw [programStep, MeshProgram.loop] at h
  cases hphase : s.phase with
  | starting =>
    rw [hphase] at h
    exact absurd (hbeacon _) h
  | reading =>
    rw [hphase] at h
    dsimp only at h
    split at h
    · exact absurd rfl h
    · rename_i line hline
      split at h
      · exact absurd rfl h
      · cases hcommand : shell.command env.stale line with
        | fetch asked =>
          rw [hcommand] at h
          exact ⟨rfl, line, asked, hline, hcommand, h⟩
        | beacon =>
          rw [hcommand] at h
          exact absurd (hbeacon _) h
        | _ =>
          rw [hcommand] at h
          exact absurd rfl h
  | sampling =>
    rw [hphase] at h
    dsimp only at h
    split at h <;> exact absurd rfl h
  | beaconing =>
    rw [hphase] at h
    exact absurd (hbeacon _) h
  | _ =>
    rw [hphase] at h
    exact absurd rfl h

/-- **What is asked for was heard lately.** In every run in which the clock does not go back: when
the loop sends anything but beacons, the user has asked for a name, and a beacon with a prefix of it
was heard at most twenty seconds before the clock was sampled last. -/
theorem asked_was_heard {shell : Shell} {hasMcast : Bool} {name : CString}
    {is : List ProgramInput} (hclock : ProgramClock is) {s : MeshProgram}
    (hrun : exec (programStep shell) (programStart hasMcast name) is = s) {env : LoopEnv}
    (hsends : (programStep shell s (.loop env)).1.datagrams ≠ []) :
    ∃ line asked, env.line = some line ∧ shell.command env.stale line = .fetch asked ∧
      ∃ b, .heard b ∈ is ∧
        (∃ t ∈ beaconStrings b.data,
          psirpNameIsPrefix (heardPrefix t) (psirpNameInit asked).2 = true) ∧
        ∃ k, s.now.toNat ≤ (b.now k).toNat + 20000 := by
  have hdht : s.mesh.dht = none := by
    rw [← hrun]
    exact exec_inv (I := fun s : MeshProgram => s.mesh.dht = none) (P := fun _ _ => True)
      (fun s i hs _ => (meshChange_programStep shell s i).1.dht hs)
      (dht_meshAddLocalPrefix ..) (along_input.mpr fun _ _ => trivial)
  have hcleared := cleared_run shell hasMcast name hclock
  rw [hrun] at hcleared
  obtain ⟨hphase, line, asked, hline, hcommand, hout⟩ := exists_fetch_of_sends hsends
  obtain ⟨p, hp⟩ := exists_nextHop_of_sends hdht hout
  obtain ⟨⟨b, hb, -, hunder, hlately⟩, -⟩ := hcleared.heard_nextHop hphase hp
  exact ⟨line, asked, hline, hcommand, b, hb, hunder, hlately⟩

/-! ## Asking -/

/-- A name that is parsed fits an Interest. -/
theorem encodable_psirpNameInit (path : CString) : Encodable (psirpNameInit path).2 := by
  have hplain := (psirpNameInit_wellFormed path).plain
  have hlen := length_componentBytes_le fun c hc => (hplain c hc).length_lt
  have hcount := (psirpNameInit path).2.count_le
  refine ⟨fun c hc => (hplain c hc).length_lt.trans (by decide), ?_⟩
  simp only [psirpMaxComponent, psirpMaxComponents, interestBufSize] at hlen hcount ⊢
  omega

/-- The hop of a name is the peer of its route. -/
theorem exists_route_of_nextHop {ctx : MeshCtx} {name : PsirpName} {p : MeshPeer}
    (h : meshNextHop ctx name = some p) :
    ∃ k f, meshFibLookup ctx name = some k ∧ ctx.fib[k]? = some f ∧
      ctx.peers[f.peerIndex]? = some p := by
  obtain ⟨k, hk, h⟩ := Option.bind_eq_some_iff.mp h
  obtain ⟨f, hf, hp⟩ := Option.bind_eq_some_iff.mp h
  exact ⟨k, f, hk, hf, hp⟩

/-- The user asks for a name that the program has to ask for. -/
structure AsksFor (shell : Shell) (s : MeshProgram) (node : PsirpNode) (env : LoopEnv)
    (name : CString) : Prop where
  /-- the loop reads a line -/
  reading : s.phase = .reading
  /-- the line asks for the name -/
  line : ∃ line, env.line = some line ∧ line ≠ [] ∧ shell.command env.stale line = .fetch name
  /-- the node of the program -/
  node_eq : s.mesh.node = some node
  /-- the content is not in the store -/
  miss : (s.mesh.lookup (psirpNameInit name).2 env.forward.lookupNow).1 = none
  /-- nor a moment later -/
  miss_again : lookupEntry node.cs (psirpNameInit name).2 env.forward.fetch.firstNow = none
  /-- the nonce is new -/
  fresh : ∀ c ∈ s.mesh.interestCache, c.nonce ≠ env.nonce

/-- A line that asks for a name is passed on. -/
theorem AsksFor.datagrams {shell : Shell} {node : PsirpNode} {env : LoopEnv} {name : CString}
    (h : AsksFor shell s node env name) :
    (programStep shell s (.loop env)).1.datagrams =
      (meshForwardInterest s.mesh (psirpNameInit name).2 meshInterestTtl env.nonce (-1) 4000
        env.forward).2.2 := by
  obtain ⟨line, hline, hne, hcommand⟩ := h.line
  rw [programStep, MeshProgram.loop, h.reading]
  dsimp only
  rw [hline]
  dsimp only
  rw [if_neg fun hempty => hne hempty.1, hcommand]
  rfl

/-- **What was heard lately is asked for.** In every run in which the clock does not go back and
beacons are heard in time, when a beacon was heard that there was room for, and the loop has not
sampled a time since that is more than fifteen seconds later: if the user asks for a name under one
of the prefixes, and it is not in the store, exactly the peers are asked that the node knows and
reaches; if it knows none, the group. -/
theorem heard_is_asked {shell : Shell} {hasMcast : Bool} {name : CString}
    {before after : List ProgramInput} {b : HeardBeacon}
    (hclock : ProgramClock (before ++ .heard b :: after))
    (htime : Along (programStep shell) HeardInTime (programStart hasMcast name)
      (before ++ .heard b :: after))
    (hbeacon : IsBeacon b.data b.buf.length)
    (hroom : RoomFor b.data (exec (programStep shell) (programStart hasMcast name) before).mesh)
    {since : UInt64} (hsince : ∀ k, since ≤ b.now k) {s : MeshProgram}
    (hrun : exec (programStep shell) (programStart hasMcast name) (before ++ .heard b :: after) = s)
    (hlate : s.now.toNat ≤ since.toNat + 15000) {t : CString} (ht : t ∈ beaconStrings b.data)
    (hnil : (heardPrefix t).components ≠ []) {asked : CString}
    (hunder : psirpNameIsPrefix (heardPrefix t) (psirpNameInit asked).2 = true) {node : PsirpNode}
    {env : LoopEnv} (hasks : AsksFor shell s node env asked) (addr : PsirpPeer) :
    Asked (programStep shell s (.loop env)).1.datagrams (psirpNameInit asked).2 addr ↔
      (∃ i, node.peers[i]? = some addr ∧ (env.forward.fetch.send i).sent = true) ∨
        (node.peers = [] ∧ node.hasMcast = true ∧ (env.forward.fetch.send 0).sent = true ∧
          addr = multicastPeer) := by
  obtain ⟨reg, hreg, hreach⟩ :=
    reaches_of_run hclock htime hbeacon hroom hsince hrun hlate ht
  obtain ⟨p, hp⟩ := hreach.exists_nextHop hreg hnil hunder
  obtain ⟨k, f, hk, hf, hpeer⟩ := exists_route_of_nextHop hp
  have hconnected : p.state = .connected := by
    have hrun' := allConnected_run shell hasMcast name (before ++ .heard b :: after)
    rw [hrun] at hrun'
    obtain ⟨reg', hreg', hall⟩ := hrun'
    have hmem := List.mem_of_getElem? hpeer
    rw [hreg'.peers_eq] at hmem
    obtain ⟨q, hq, rfl⟩ := List.mem_map.mp hmem
    exact hall q hq
  have hroute : HasRoute s.mesh node (psirpNameInit asked).2 meshInterestTtl env.nonce
      env.forward.lookupNow p :=
    ⟨hasks.node_eq, hasks.miss, hasks.fresh, by decide, ⟨k, f, hk, hf, hpeer⟩, hconnected⟩
  rw [hasks.datagrams, hroute.out_eq, asked_psirpNetFetch, and_iff_right hasks.miss_again,
    and_iff_right (encodable_psirpNameInit asked)]

end Programs

/-- A step of the loop in which the user asks for `/x`. -/
def askX : LoopEnv := ⟨some (text "fetch /x".toList), [], 1, envX, 6000⟩

/-- After the whole round of the loop that is passed on, because of the beacon. -/
theorem asked_was_heard_clearingRun :
    ∃ line asked, askX.line = some line ∧ meshDemo.command askX.stale line = .fetch asked ∧
      ∃ b, .heard b ∈ clearingRun ∧
        (∃ t ∈ beaconStrings b.data,
          psirpNameIsPrefix (heardPrefix t) (psirpNameInit asked).2 = true) ∧
        ∃ k, 6000 ≤ (b.now k).toNat + 20000 := by
  have hsends : (programStep meshDemo (exec (programStep meshDemo)
      (programStart true (text ['/', 'm'])) clearingRun) (.loop askX)).1.datagrams ≠ [] := by
    decide +kernel
  have hnow : (exec (programStep meshDemo) (programStart true (text ['/', 'm']))
      clearingRun).now.toNat = 6000 := by
    decide +kernel
  have hheard := asked_was_heard programClock_clearingRun rfl hsends
  rwa [hnow] at hheard

/-- The group is asked for it. -/
theorem heard_is_asked_clearingRun :
    Asked (programStep meshDemo (exec (programStep meshDemo) (programStart true (text ['/', 'm']))
      clearingRun) (.loop askX)).1.datagrams nameX multicastPeer := by
  have hclock : ProgramClock ([idleLoop 0] ++ .heard beaconX :: clearingRun.drop 2) :=
    programClock_clearingRun
  have hsince : ∀ k, (100 : UInt64) ≤ beaconX.now k := fun _ => UInt64.le_refl _
  obtain ⟨s, hs⟩ : ∃ s, exec (programStep meshDemo) (programStart true (text ['/', 'm']))
      clearingRun = s := ⟨_, rfl⟩
  have hnow : s.now.toNat ≤ (100 : UInt64).toNat + 15000 := by
    rw [← hs]
    decide +kernel
  have hasks : ∃ node, AsksFor meshDemo s node askX (text ['/', 'x']) ∧
      node.peers = [] ∧ node.hasMcast = true := by
    have hnode : (s.mesh.node.map fun n => (n.peers, n.hasMcast, lookupEntry n.cs nameX 0)) =
        some ([], true, none) := by
      rw [← hs]
      decide +kernel
    obtain ⟨node, hnode, hfields⟩ := Option.map_eq_some_iff.mp hnode
    obtain ⟨hpeers, hmcast, hmiss⟩ : node.peers = [] ∧ node.hasMcast = true ∧
        lookupEntry node.cs nameX 0 = none := by
      simpa only [Prod.mk.injEq] using hfields
    refine ⟨node, ⟨?_, ⟨_, rfl, by decide +kernel, by decide +kernel⟩, hnode, ?_, hmiss, ?_⟩,
      hpeers, hmcast⟩
    · rw [← hs]
      decide +kernel
    · rw [← hs]
      decide +kernel
    · rw [← hs]
      decide +kernel
  obtain ⟨node, hasks, hpeers, hmcast⟩ := hasks
  rw [hs]
  exact (heard_is_asked hclock (heardInTime_clearingRun true) (by decide +kernel)
    ⟨by decide +kernel, by decide +kernel⟩ hsince hs hnow (t := text ['x']) (by decide +kernel)
    (by decide +kernel) (by decide +kernel) hasks multicastPeer).mpr
      (Or.inr ⟨hpeers, hmcast, rfl, rfl⟩)

end DsoBrowser
