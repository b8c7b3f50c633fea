import DsoBrowser.MeshPrograms
import DsoBrowser.BeaconRoutes

/-!
# What a step of a mesh program does to its tables

The peers, the routes and the local prefixes change in few ways: a prefix is published, a beacon is
heard, or one of the two tables is cleared (`meshChange_programStep`). What is published stays
published, and a program without a DHT never gets one.
-/

namespace DsoBrowser

/-! ## What the calls leave alone -/

/-- Peers, routes and local prefixes are the same, and there is no DHT if there was none. -/
structure SameTables (ctx' ctx : MeshCtx) : Prop where
  /-- the peers -/
  peers : ctx'.peers = ctx.peers
  /-- the routes -/
  fib : ctx'.fib = ctx.fib
  /-- the local prefixes -/
  localPrefixes : ctx'.localPrefixes = ctx.localPrefixes
  /-- the DHT -/
  dht : ctx.dht = none → ctx'.dht = none

section Calls

variable (ctx : MeshCtx)

theorem SameTables.refl : SameTables ctx ctx := ⟨rfl, rfl, rfl, id⟩

variable {ctx} in
theorem SameTables.trans {ctx' ctx'' : MeshCtx} (h : SameTables ctx'' ctx')
    (h' : SameTables ctx' ctx) : SameTables ctx'' ctx :=
  ⟨h.peers.trans h'.peers, h.fib.trans h'.fib, h.localPrefixes.trans h'.localPrefixes,
    h.dht ∘ h'.dht⟩

theorem sameTables_lookup (name : PsirpName) (now : UInt64) :
    SameTables (ctx.lookup name now).2 ctx := by
  rw [MeshCtx.lookup]
  split <;> exact ⟨rfl, rfl, rfl, id⟩

theorem sameTables_remember (nonce now fromPeer : UInt64) :
    SameTables (ctx.remember nonce now fromPeer) ctx := by
  rw [MeshCtx.remember]
  split <;> exact ⟨rfl, rfl, rfl, id⟩

/-- Forwarding leaves the tables alone. -/
theorem sameTables_meshForwardInterest (name : PsirpName) (ttl : UInt32) (nonce fromPeer : UInt64)
    (timeoutMs : UInt32) (env : ForwardEnv) :
    SameTables (meshForwardInterest ctx name ttl nonce fromPeer timeoutMs env).2.1 ctx := by
  have hlookup := sameTables_lookup ctx name env.lookupNow
  rw [meshForwardInterest]
  split
  · exact .refl ctx
  · split
    · rename_i entry ctx' h
      rw [h] at hlookup
      rw [MeshCtx.announceHeld]
      split
      · refine ⟨hlookup.peers, hlookup.fib, hlookup.localPrefixes, fun hnone => ?_⟩
        exact Option.map_eq_none_iff.mpr (hlookup.dht hnone)
      · exact hlookup
    · rename_i ctx' h
      rw [h] at hlookup
      have hboth := (sameTables_remember ctx' nonce env.cacheNow fromPeer).trans hlookup
      have hchanged : ∀ {c : MeshCtx}, SameTables c (ctx'.remember nonce env.cacheNow fromPeer) →
          SameTables c ctx := fun hc => hc.trans hboth
      split
      · exact ⟨hlookup.peers, hlookup.fib, hlookup.localPrefixes, hlookup.dht⟩
      · dsimp only
        split
        · exact hchanged ⟨rfl, rfl, rfl, id⟩
        · split
          · exact hboth
          · split <;> exact hchanged ⟨rfl, rfl, rfl, id⟩
          · split <;> exact hchanged ⟨rfl, rfl, rfl, id⟩

/-- So does sending a beacon. -/
theorem sameTables_meshSendBeacon {r : Bool × MeshCtx × List (PsirpPeer × CString)}
    (h : meshSendBeacon ctx = some r) : SameTables r.2.1 ctx := by
  rw [meshSendBeacon] at h
  split at h
  · cases h
    exact .refl ctx
  · obtain ⟨out, -, rfl⟩ := Option.map_eq_some_iff.mp h
    exact ⟨rfl, rfl, rfl, id⟩

theorem tables_meshAddLocalPrefix (pfx : PsirpName) :
    (meshAddLocalPrefix ctx pfx).peers = ctx.peers ∧
      (meshAddLocalPrefix ctx pfx).fib = ctx.fib := by
  rw [meshAddLocalPrefix]
  split <;> exact ⟨rfl, rfl⟩

theorem dht_meshAddLocalPrefix (pfx : PsirpName) :
    (meshAddLocalPrefix ctx pfx).dht = ctx.dht := by
  rw [meshAddLocalPrefix]
  split <;> rfl

end Calls

/-! ## What a step does to the tables -/

/-- What a step on an input makes of the tables. -/
inductive MeshChange (s : MeshProgram) (i : ProgramInput) : MeshCtx → Prop where
  /-- they stay -/
  | same {ctx : MeshCtx} : SameTables ctx s.mesh → MeshChange s i ctx
  /-- a prefix is published -/
  | publish (pfx : PsirpName) : MeshChange s i (meshAddLocalPrefix s.mesh pfx)
  /-- a beacon is heard -/
  | hear (b : HeardBeacon) : i = .heard b →
      MeshChange s i (meshProcessBeacon s.mesh b.data b.buf.length b.src b.now).2
  /-- peers are taken out -/
  | expire : s.phase = .expiring → MeshChange s i (meshCheckTimeouts s.mesh s.now).2
  /-- routes are taken out -/
  | prune : s.phase = .pruning → MeshChange s i (meshFibPrune s.mesh s.now).2

section Changes

variable {i : ProgramInput} {s : MeshProgram}

/-- Sending a beacon leaves the tables alone, and sends what is published. -/
theorem meshChange_beacon (next : Phase) :
    MeshChange s i (s.beacon next).2.mesh ∧
      ∀ b ∈ (s.beacon next).1.beacons, beaconText s.mesh.localPrefixes = some b.2 := by
  rw [MeshProgram.beacon]
  split
  · exact ⟨.same (.refl _), fun b hb => absurd hb List.not_mem_nil⟩
  · rename_i ok mesh sent hsent
    refine ⟨.same (sameTables_meshSendBeacon s.mesh hsent), fun b hb => ?_⟩
    rw [meshSendBeacon] at hsent
    split at hsent
    · obtain ⟨-, -, rfl⟩ : ok = false ∧ mesh = s.mesh ∧ sent = [] := by
        simpa [eq_comm] using hsent
      cases hb
    · obtain ⟨out, hout, heq⟩ := Option.map_eq_some_iff.mp hsent
      obtain ⟨-, -, rfl⟩ : _ ∧ _ ∧ _ = sent := by simpa only [Prod.mk.injEq] using heq
      rcases List.mem_append.mp hb with hb | hb
      · obtain ⟨p, -, rfl⟩ := List.mem_map.mp hb
        exact hout
      · rw [List.mem_singleton.mp hb]
        exact hout

theorem meshChange_command (env : LoopEnv) (c : Command) :
    MeshChange s i (s.command env c).2.mesh ∧
      ∀ b ∈ (s.command env c).1.beacons, beaconText s.mesh.localPrefixes = some b.2 := by
  cases c with
  | fetch name =>
    exact ⟨.same (sameTables_meshForwardInterest s.mesh (psirpNameInit name).2 meshInterestTtl
      env.nonce (-1) 4000 env.forward), fun b hb => absurd hb List.not_mem_nil⟩
  | publish pfx => exact ⟨.publish _, fun b hb => absurd hb List.not_mem_nil⟩
  | beacon => exact meshChange_beacon .sampling
  | quit => exact ⟨.same (.refl _), fun b hb => absurd hb List.not_mem_nil⟩
  | «show» => exact ⟨.same (.refl _), fun b hb => absurd hb List.not_mem_nil⟩

theorem meshChange_loop (shell : Shell) (env : LoopEnv) :
    MeshChange s i (s.loop shell env).2.mesh ∧
      ∀ b ∈ (s.loop shell env).1.beacons, beaconText s.mesh.localPrefixes = some b.2 := by
  have hquiet : ∀ b ∈ ProgramOut.quiet.beacons, beaconText s.mesh.localPrefixes = some b.2 :=
    fun b hb => absurd hb List.not_mem_nil
  rw [MeshProgram.loop]
  cases hphase : s.phase with
  | starting => exact meshChange_beacon .reading
  | reading =>
    dsimp only
    split
    · exact ⟨.same (.refl _), hquiet⟩
    · split
      · exact ⟨.same (.refl _), hquiet⟩
      · exact meshChange_command env _
  | sampling =>
    dsimp only
    split <;> exact ⟨.same (.refl _), hquiet⟩
  | beaconing => exact meshChange_beacon .expiring
  | expiring => exact ⟨.expire hphase, hquiet⟩
  | pruning => exact ⟨.prune hphase, hquiet⟩
  | stopped => exact ⟨.same (.refl _), hquiet⟩
  | «undefined» => exact ⟨.same (.refl _), hquiet⟩

theorem meshChange_receive (f : PsirpNode → PsirpNode × List Datagram) :
    MeshChange s i (s.receive f).2.mesh ∧ (s.receive f).1.beacons = [] := by
  rw [MeshProgram.receive]
  split
  · exact ⟨.same (.refl _), rfl⟩
  · exact ⟨.same ⟨rfl, rfl, rfl, id⟩, rfl⟩

/-- **What a step can do** to the tables, and which beacons it sends. -/
theorem meshChange_programStep (shell : Shell) (s : MeshProgram) (i : ProgramInput) :
    MeshChange s i (programStep shell s i).2.mesh ∧
      ∀ b ∈ (programStep shell s i).1.beacons, beaconText s.mesh.localPrefixes = some b.2 := by
  have hreceive : ∀ f, MeshChange s i (s.receive f).2.mesh ∧
      ∀ b ∈ (s.receive f).1.beacons, beaconText s.mesh.localPrefixes = some b.2 := by
    intro f
    obtain ⟨hchange, hnone⟩ := meshChange_receive (i := i) (s := s) f
    refine ⟨hchange, fun b hb => ?_⟩
    rw [hnone] at hb
    cases hb
  cases i with
  | loop env => exact meshChange_loop shell env
  | unicast src buf env => exact hreceive _
  | multicast src buf => exact hreceive _
  | heard b => exact ⟨.hear b rfl, fun b hb => absurd hb List.not_mem_nil⟩
  | signal => exact ⟨.same (.refl _), fun b hb => absurd hb List.not_mem_nil⟩

end Changes

/-! ### What is published stays published -/

/-- The local prefixes and the DHT are the same. -/
structure SameSetup (ctx' ctx : MeshCtx) : Prop where
  /-- the local prefixes -/
  localPrefixes : ctx'.localPrefixes = ctx.localPrefixes
  /-- the DHT -/
  dht : ctx'.dht = ctx.dht

section Publishing

variable {ctx : MeshCtx}

theorem SameSetup.trans {ctx' ctx'' : MeshCtx} (h : SameSetup ctx'' ctx')
    (h' : SameSetup ctx' ctx) : SameSetup ctx'' ctx :=
  ⟨h.localPrefixes.trans h'.localPrefixes, h.dht.trans h'.dht⟩

theorem sameSetup_meshRemovePeer (ctx : MeshCtx) (i : Nat) :
    SameSetup (meshRemovePeer ctx i) ctx := by
  have hloop : ∀ (n : Nat) (ctx : MeshCtx), SameSetup (removeRoutesLoop i n ctx) ctx := by
    intro n
    induction n with
    | zero => exact fun _ => ⟨rfl, rfl⟩
    | succ n ih =>
      intro ctx
      rw [removeRoutesLoop]
      split
      · exact (ih _).trans ⟨rfl, rfl⟩
      · exact (ih _).trans ⟨rfl, rfl⟩
  rw [meshRemovePeer]
  split
  · exact ⟨rfl, rfl⟩
  · have hroutes := hloop ctx.fib.length ctx
    exact ⟨hroutes.localPrefixes, hroutes.dht⟩

theorem sameSetup_meshCheckTimeouts (ctx : MeshCtx) (now : UInt64) :
    SameSetup (meshCheckTimeouts ctx now).2 ctx := by
  have hloop : ∀ (n : Nat) (ctx : MeshCtx),
      SameSetup (checkTimeoutsLoop now n ctx).2 ctx := by
    intro n
    induction n with
    | zero => exact fun _ => ⟨rfl, rfl⟩
    | succ n ih =>
      intro ctx
      rw [checkTimeoutsLoop]
      split
      · exact (ih _).trans (sameSetup_meshRemovePeer ctx n)
      · exact ih _
  exact hloop _ _

theorem sameSetup_meshFibPrune (ctx : MeshCtx) (now : UInt64) :
    SameSetup (meshFibPrune ctx now).2 ctx := by
  have hloop : ∀ (n : Nat) (ctx : MeshCtx), SameSetup (fibPruneLoop now n ctx).2 ctx := by
    intro n
    induction n with
    | zero => exact fun _ => ⟨rfl, rfl⟩
    | succ n ih =>
      intro ctx
      rw [fibPruneLoop]
      split
      · exact (ih _).trans ⟨rfl, rfl⟩
      · exact ih _
  exact hloop _ _

theorem sameSetup_announceAll (i : Nat) (now : Nat → UInt64) (ss : List CString) :
    ∀ (count : Nat) (ctx : MeshCtx), SameSetup (announceAll i now ss count ctx) ctx := by
  induction ss with
  | nil => exact fun _ _ => ⟨rfl, rfl⟩
  | cons s ss ih =>
    intro count ctx
    rw [announceAll]
    refine (ih _ _).trans ?_
    rw [announcePrefix, meshAddFib]
    split
    · exact ⟨rfl, rfl⟩
    · split <;> exact ⟨rfl, rfl⟩

theorem sameSetup_meshProcessBeacon (ctx : MeshCtx) (data : CString) (dataLen : Nat)
    (src : PsirpPeer) (now : Nat → UInt64) :
    SameSetup (meshProcessBeacon ctx data dataLen src now).2 ctx := by
  by_cases hheard : ∃ i, HeardFrom ctx data dataLen src now i
  · obtain ⟨i, hi⟩ := hheard
    rw [meshProcessBeacon_of_heard hi]
    have hannounced : SameSetup (afterStrings ctx data src now i (beaconStrings data))
        (greeted ctx data src now i) := sameSetup_announceAll ..
    have hgreeted : SameSetup (greeted ctx data src now i) ctx := by
      rw [greeted, meshPeerSeen, meshAddPeer]
      split
      · exact ⟨rfl, rfl⟩
      · split <;> exact ⟨rfl, rfl⟩
    have hboth := hannounced.trans hgreeted
    exact ⟨hboth.localPrefixes, hboth.dht⟩
  · rw [meshProcessBeacon_of_not_heard (not_exists.mp hheard)]
    exact ⟨rfl, rfl⟩

/-- Prefixes are only added. -/
theorem MeshChange.localPrefixes {s : MeshProgram} {i : ProgramInput} (h : MeshChange s i ctx) :
    s.mesh.localPrefixes <+: ctx.localPrefixes := by
  cases h with
  | same hsame => rw [hsame.localPrefixes]
  | publish pfx =>
    rw [meshAddLocalPrefix]
    split
    · exact List.prefix_rfl
    · exact List.prefix_append _ _
  | hear b hb => rw [(sameSetup_meshProcessBeacon ..).localPrefixes]
  | expire hphase => rw [(sameSetup_meshCheckTimeouts ..).localPrefixes]
  | prune hphase => rw [(sameSetup_meshFibPrune ..).localPrefixes]

/-- A program without a DHT does not get one. -/
theorem MeshChange.dht {s : MeshProgram} {i : ProgramInput} (h : MeshChange s i ctx)
    (hs : s.mesh.dht = none) : ctx.dht = none := by
  cases h with
  | same hsame => exact hsame.dht hs
  | publish pfx => exact (dht_meshAddLocalPrefix s.mesh pfx).trans hs
  | hear b hb => exact (sameSetup_meshProcessBeacon ..).dht.trans hs
  | expire hphase => exact (sameSetup_meshCheckTimeouts ..).dht.trans hs
  | prune hphase => exact (sameSetup_meshFibPrune ..).dht.trans hs

end Publishing

end DsoBrowser
