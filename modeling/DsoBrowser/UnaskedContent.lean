import DsoBrowser.MeshPrograms
import DsoBrowser.NextHop

/-!
# Without beacons nobody is asked

`terminal_browser.c` has no thread that listens for beacons. Whatever it receives, no peer and no
route gets into its tables, it has no DHT, and no program adds a route to its node. So it sends no
Interest in any run, its beacons go to the group only, and what it shows on a fetch has come in a
Data packet that it had not asked for (`unheard_asksNobody`). The same is true of `mesh_demo.c`
before the first beacon.
-/

namespace DsoBrowser

open Machine

variable {Q : PsirpCsEntry → Prop}

/-! ## The node -/

/-- A node without routes, whose entries all have a property. -/
structure Unrouted (Q : PsirpCsEntry → Prop) (node : PsirpNode) : Prop where
  /-- it has no routes -/
  fib : node.fib = []
  /-- the entries -/
  entries : EveryEntry Q node.cs

section Node

variable {node : PsirpNode}

/-- Such a node answers from its store, and forwards nothing. -/
theorem Unrouted.data_of_mem (h : Unrouted Q node) {src : PsirpPeer} {buf : List UInt8}
    {env : RecvEnv} {dg : Datagram} (hdg : dg ∈ (recvUnicast node src buf env).2) :
    ∃ data, dg.packet = .data data := by
  obtain ⟨interest, -, hdg⟩ := mem_recvUnicast_iff.mp hdg
  rcases recvInterest_cases node src interest env with
    ⟨entry, -, hout⟩ | ⟨-, -, hout⟩ | ⟨fwd, -, hroute, -⟩
  · rw [hout, mem_psirpNetData] at hdg
    obtain ⟨-, buf, -, rfl⟩ := hdg
    exact ⟨_, rfl⟩
  · rw [hout] at hdg
    cases hdg
  · rw [h.fib] at hroute
    cases hroute

/-- **A datagram** that comes in, if content in it gets the property. -/
theorem Unrouted.recvUnicast (h : Unrouted Q node) (htouch : ∀ now e, Q e → Q (touch now e))
    (src : PsirpPeer) (buf : List UInt8) (env : RecvEnv)
    (hdata : ∀ data, psirpDataDeserialize PsirpData.zero buf = some data →
      Q (newEntry data.name data.data data.freshnessMs env.now) ∧
        ∀ e, psirpNameEqual e.name data.name = true →
          Q (overwrite data.data data.freshnessMs env.now e)) :
    Unrouted Q (recvUnicast node src buf env).1 := by
  rcases recvUnicast_cases node src buf env with ⟨interest, -, hrecv⟩ | ⟨data, hdec, hrecv⟩ | hrecv
  · rw [hrecv]
    obtain ⟨hcs, hfib⟩ := recvInterest_node node src interest env
    refine ⟨hfib.trans h.fib, ?_⟩
    rw [hcs]
    exact h.entries.lookup (htouch env.now)
  · rw [hrecv]
    obtain ⟨hnew, hover⟩ := hdata data hdec
    exact ⟨h.fib, h.entries.store (fun _ => hnew) fun e _ heq _ => hover e heq⟩
  · rw [hrecv]
    exact h

theorem Unrouted.recvMulticast (h : Unrouted Q node) (src : PsirpPeer) (buf : List UInt8) :
    Unrouted Q (recvMulticast node src buf) := by
  obtain ⟨hcs, hfib⟩ := recvMulticast_node node src buf
  refine ⟨hfib.trans h.fib, ?_⟩
  rw [hcs]
  exact h.entries

end Node

/-! ## The context -/

/-- A context no beacon has reached, on such a node. -/
structure Unheard (Q : PsirpCsEntry → Prop) (ctx : MeshCtx) : Prop where
  /-- it has no peers -/
  peers : ctx.peers = []
  /-- it has no routes -/
  fib : ctx.fib = []
  /-- it has no DHT -/
  dht : ctx.dht = none
  /-- its beacons go to the group -/
  group : ctx.mcastAddr = multicastPeer
  /-- its store is that of the node -/
  cs : ctx.cs = .ofNode
  /-- the node -/
  node : ∃ node, ctx.node = some node ∧ Unrouted Q node

section Context

variable {ctx : MeshCtx}

theorem unheard_meshInit (hasMcast : Bool) :
    Unheard Q (meshInit (some (psirpNetInit psirpCsInit hasMcast)) .ofNode) :=
  ⟨rfl, rfl, rfl, rfl, rfl, _, rfl, rfl, fun _ he => absurd he List.not_mem_nil⟩

theorem Unheard.addLocalPrefix (h : Unheard Q ctx) (pfx : PsirpName) :
    Unheard Q (meshAddLocalPrefix ctx pfx) := by
  rw [meshAddLocalPrefix]
  split
  · exact h
  · exact ⟨h.peers, h.fib, h.dht, h.group, h.cs, h.node⟩

/-- There are no peers to take out. -/
theorem Unheard.checkTimeouts (h : Unheard Q ctx) (now : UInt64) :
    (meshCheckTimeouts ctx now).2 = ctx := by
  rw [meshCheckTimeouts, h.peers]
  rfl

/-- There are no routes to take out. -/
theorem Unheard.fibPrune (h : Unheard Q ctx) (now : UInt64) : (meshFibPrune ctx now).2 = ctx := by
  rw [meshFibPrune, h.fib]
  rfl

/-- A beacon goes to the group only. -/
theorem Unheard.sendBeacon (h : Unheard Q ctx) {r : Bool × MeshCtx × List (PsirpPeer × CString)}
    (hr : meshSendBeacon ctx = some r) :
    Unheard Q r.2.1 ∧ ∀ b ∈ r.2.2, b.1 = multicastPeer := by
  rw [meshSendBeacon] at hr
  split at hr
  · cases hr
    exact ⟨h, fun b hb => absurd hb List.not_mem_nil⟩
  · obtain ⟨out, -, rfl⟩ := Option.map_eq_some_iff.mp hr
    refine ⟨⟨h.peers, h.fib, h.dht, h.group, h.cs, h.node⟩, fun b hb => ?_⟩
    dsimp only at hb
    rw [h.peers, h.group, List.filter_nil, List.map_nil, List.nil_append] at hb
    rw [List.mem_singleton.mp hb]

/-- A lookup finds an entry of the node. -/
theorem Unheard.lookup (h : Unheard Q ctx) (htouch : ∀ now e, Q e → Q (touch now e))
    (name : PsirpName) (now : UInt64) :
    Unheard Q (ctx.lookup name now).2 ∧ ∀ e, (ctx.lookup name now).1 = some e → Q e := by
  obtain ⟨node, hnode, hunrouted⟩ := h.node
  have heq : ctx.lookup name now = ((node.lookup name now).1,
      { ctx with node := some (node.lookup name now).2 }) := by
    simp only [MeshCtx.lookup, h.cs, hnode]
  rw [heq]
  refine ⟨⟨h.peers, h.fib, h.dht, h.group, h.cs, _, rfl, hunrouted.fib,
    hunrouted.entries.lookup (htouch now)⟩, fun e he => ?_⟩
  obtain ⟨e₀, he₀, rfl⟩ := lookupEntry_eq_some he
  exact htouch now e₀ (hunrouted.entries e₀ he₀)

theorem Unheard.remember (h : Unheard Q ctx) (nonce now fromPeer : UInt64) :
    Unheard Q (ctx.remember nonce now fromPeer) := by
  rw [MeshCtx.remember]
  split
  · exact ⟨h.peers, h.fib, h.dht, h.group, h.cs, h.node⟩
  · exact h

/-- Without routes and without a DHT an Interest that misses goes nowhere. -/
theorem Unheard.forwardMiss (h : Unheard Q ctx) {node : PsirpNode} (hnode : ctx.node = some node)
    (name : PsirpName) (timeoutMs : UInt32) (env : Nat → SendEnv) :
    (meshFibLookup ctx name).bind (ctx.fib[·]?) = none ∧
      (ctx.dht.map fun dht => dhtLookup dht name.hash).getD [] = [] ∧
        Unheard Q { ctx with
          node := some (fetchSend name timeoutMs [] env node).1
          interestsForwarded := ctx.interestsForwarded + UInt64.ofNat 0 } := by
  refine ⟨?_, ?_, h.peers, h.fib, h.dht, h.group, h.cs, ?_⟩
  · rw [h.fib]
    exact Option.bind_eq_none_iff.mpr fun _ _ => List.getElem?_nil
  · rw [h.dht]
    rfl
  · obtain ⟨node', hnode', hunrouted⟩ := h.node
    obtain rfl := Option.some.inj (hnode.symm.trans hnode')
    exact ⟨node, rfl, hunrouted⟩

/-- **Forwarding** shows an entry of the node, or nothing, and sends nothing. -/
theorem Unheard.forwardInterest (h : Unheard Q ctx) (htouch : ∀ now e, Q e → Q (touch now e))
    (name : PsirpName) (ttl : UInt32) (nonce fromPeer : UInt64) (timeoutMs : UInt32)
    (env : ForwardEnv) :
    let r := meshForwardInterest ctx name ttl nonce fromPeer timeoutMs env
    Unheard Q r.2.1 ∧ r.2.2 = [] ∧ ∀ e, r.1 = some e → Q e := by
  obtain ⟨hlookup, hentry⟩ := h.lookup htouch name env.lookupNow
  have hquiet : ∀ e : PsirpCsEntry, none = some e → Q e := fun e he => by cases he
  obtain ⟨node, hnode, -⟩ := h.node
  rw [meshForwardInterest, if_neg (by simp [hnode])]
  rcases hlook : ctx.lookup name env.lookupNow with ⟨_ | entry, ctx'⟩
  · rw [hlook] at hlookup
    have hdropped : ∀ {c : MeshCtx} (n : UInt64), Unheard Q c →
        Unheard Q { c with interestsDropped := n } :=
      fun n hc => ⟨hc.peers, hc.fib, hc.dht, hc.group, hc.cs, hc.node⟩
    have hremember := hlookup.remember nonce env.cacheNow fromPeer
    dsimp only
    split
    · exact ⟨hdropped _ hlookup, rfl, hquiet⟩
    · split
      · exact ⟨hdropped _ hremember, rfl, hquiet⟩
      · obtain ⟨node, hnode, -⟩ := hremember.node
        obtain ⟨hroute, hholders, hmiss⟩ :=
          hremember.forwardMiss hnode name timeoutMs env.holderSend
        rw [hnode, hroute, hholders]
        exact ⟨hmiss, rfl, hquiet⟩
  · rw [hlook] at hlookup hentry
    refine ⟨?_, rfl, fun e he => hentry e he⟩
    dsimp only at hlookup ⊢
    rw [MeshCtx.announceHeld, hlookup.dht]
    split
    · exact ⟨hlookup.peers, hlookup.fib, rfl, hlookup.group, hlookup.cs, hlookup.node⟩
    · exact hlookup

end Context

/-! ## The programs -/

section Programs

variable {s : MeshProgram}

/-- What a step may show and send: entries with the property, Data packets, and beacons to the
group. -/
structure ProgramOut.Unasking (Q : PsirpCsEntry → Prop) (out : ProgramOut) : Prop where
  /-- what is shown -/
  shown : ∀ e, out.shown = some e → Q e
  /-- what the node sends -/
  datagrams : ∀ dg ∈ out.datagrams, ∃ data, dg.packet = .data data
  /-- the beacons -/
  beacons : ∀ b ∈ out.beacons, b.1 = multicastPeer

theorem unasking_quiet : ProgramOut.quiet.Unasking Q :=
  ⟨fun e he => absurd he (by simp [ProgramOut.quiet]), fun _ hdg => absurd hdg List.not_mem_nil,
    fun _ hb => absurd hb List.not_mem_nil⟩

theorem Unheard.beacon (h : Unheard Q s.mesh) (next : Phase) :
    Unheard Q (s.beacon next).2.mesh ∧ (s.beacon next).1.Unasking Q := by
  rw [MeshProgram.beacon]
  split
  · exact ⟨h, unasking_quiet⟩
  · rename_i ok mesh sent hsent
    obtain ⟨hmesh, hgroup⟩ := h.sendBeacon hsent
    exact ⟨hmesh, ⟨unasking_quiet.shown, fun _ hdg => absurd hdg List.not_mem_nil, hgroup⟩⟩

theorem Unheard.command (h : Unheard Q s.mesh) (htouch : ∀ now e, Q e → Q (touch now e))
    (env : LoopEnv) (command : Command) :
    Unheard Q (s.command env command).2.mesh ∧ (s.command env command).1.Unasking Q := by
  cases command with
  | fetch name =>
    obtain ⟨hmesh, hout, hshown⟩ := h.forwardInterest htouch (psirpNameInit name).2
      meshInterestTtl env.nonce (-1) 4000 env.forward
    refine ⟨hmesh, hshown, fun dg hdg => ?_, fun _ hb => absurd hb List.not_mem_nil⟩
    change dg ∈ (meshForwardInterest s.mesh (psirpNameInit name).2 meshInterestTtl env.nonce (-1)
      4000 env.forward).2.2 at hdg
    rw [hout] at hdg
    cases hdg
  | publish pfx => exact ⟨h.addLocalPrefix _, unasking_quiet⟩
  | beacon => exact h.beacon .sampling
  | quit => exact ⟨h, unasking_quiet⟩
  | «show» => exact ⟨h, unasking_quiet⟩

theorem Unheard.loop (h : Unheard Q s.mesh) (htouch : ∀ now e, Q e → Q (touch now e))
    (shell : Shell) (env : LoopEnv) :
    Unheard Q (s.loop shell env).2.mesh ∧ (s.loop shell env).1.Unasking Q := by
  rw [MeshProgram.loop]
  cases s.phase with
  | starting => exact h.beacon .reading
  | reading =>
    dsimp only
    split
    · exact ⟨h, unasking_quiet⟩
    · split
      · exact ⟨h, unasking_quiet⟩
      · exact h.command htouch env _
  | sampling =>
    dsimp only
    split <;> exact ⟨h, unasking_quiet⟩
  | beaconing => exact h.beacon .expiring
  | expiring =>
    refine ⟨?_, unasking_quiet⟩
    change Unheard Q (meshCheckTimeouts s.mesh s.now).2
    rwa [h.checkTimeouts]
  | pruning =>
    refine ⟨?_, unasking_quiet⟩
    change Unheard Q (meshFibPrune s.mesh s.now).2
    rwa [h.fibPrune]
  | stopped => exact ⟨h, unasking_quiet⟩
  | undefined => exact ⟨h, unasking_quiet⟩

/-- The receiver thread works on the node. -/
theorem Unheard.receive (h : Unheard Q s.mesh) {f : PsirpNode → PsirpNode × List Datagram}
    (hf : ∀ node, Unrouted Q node → Unrouted Q (f node).1) : Unheard Q (s.receive f).2.mesh := by
  obtain ⟨node, hnode, hunrouted⟩ := h.node
  rw [MeshProgram.receive, hnode]
  exact ⟨h.peers, h.fib, h.dht, h.group, h.cs, _, rfl, hf node hunrouted⟩

theorem Unheard.unasking_receive (h : Unheard Q s.mesh)
    {f : PsirpNode → PsirpNode × List Datagram}
    (hf : ∀ node, Unrouted Q node → ∀ dg ∈ (f node).2, ∃ data, dg.packet = .data data) :
    (s.receive f).1.Unasking Q := by
  obtain ⟨node, hnode, hunrouted⟩ := h.node
  rw [MeshProgram.receive, hnode]
  exact ⟨unasking_quiet.shown, hf node hunrouted, fun _ hb => absurd hb List.not_mem_nil⟩

/-- What a step shows and sends. -/
theorem Unheard.unasking_step (h : Unheard Q s.mesh) (htouch : ∀ now e, Q e → Q (touch now e))
    (shell : Shell) (i : ProgramInput) : (programStep shell s i).1.Unasking Q := by
  cases i with
  | loop env => exact (h.loop htouch shell env).2
  | unicast src buf env => exact h.unasking_receive fun _ hnode _ hdg => hnode.data_of_mem hdg
  | multicast src buf =>
    exact h.unasking_receive fun _ _ _ hdg => absurd hdg List.not_mem_nil
  | heard b => exact unasking_quiet
  | signal => exact unasking_quiet

/-- The components content under a name is filed under: its own, or those of a rebuilt name. -/
def FiledUnder (name : PsirpName) (components : List CString) : Prop :=
  components = name.components ∨
    components = (psirpNameInitComponents name.components).2.components

/-- The entry holds content of a Data packet that was received. -/
def CameIn (is : List ProgramInput) (e : PsirpCsEntry) : Prop :=
  ∃ src buf env data, .unicast src buf env ∈ is ∧
    psirpDataDeserialize PsirpData.zero buf = some data ∧ FiledUnder data.name e.name.components ∧
      e.data = data.data ∧ e.freshnessMs = data.freshnessMs

theorem CameIn.touch {is : List ProgramInput} {e : PsirpCsEntry} (h : CameIn is e) (now : UInt64) :
    CameIn is (touch now e) := h

/-- **Step lemma.** A step in which no beacon is heard. -/
theorem Unheard.step {is : List ProgramInput} (h : Unheard (CameIn is) s.mesh) (shell : Shell)
    {i : ProgramInput} (hi : i ∈ is) (hunheard : ∀ b, i ≠ .heard b) :
    Unheard (CameIn is) (programStep shell s i).2.mesh := by
  cases i with
  | loop env => exact (h.loop (fun now _ he => he.touch now) shell env).1
  | unicast src buf env =>
    refine h.receive fun node hnode => hnode.recvUnicast (fun now _ he => he.touch now) src buf env
      fun data hdec => ?_
    exact ⟨⟨src, buf, env, data, hi, hdec, Or.inr rfl, rfl, rfl⟩, fun e heq =>
      ⟨src, buf, env, data, hi, hdec, Or.inl (psirpNameEqual_iff.mp heq).2, rfl, rfl⟩⟩
  | multicast src buf => exact h.receive fun _ hnode => hnode.recvMulticast src buf
  | heard b => exact absurd rfl (hunheard b)
  | signal => exact h

/-- **Run lemma.** Whatever is received, but for beacons. -/
theorem unheard_run (shell : Shell) (hasMcast : Bool) (name : CString) {is : List ProgramInput}
    (hunheard : ∀ b, .heard b ∉ is) :
    Unheard (CameIn is) (exec (programStep shell) (programStart hasMcast name) is).mesh :=
  exec_inv (I := fun s : MeshProgram => Unheard (CameIn is) s.mesh) (P := fun _ i => i ∈ is)
    (fun _ _ hI hi => hI.step shell hi fun b hb => hunheard b (hb ▸ hi))
    ((unheard_meshInit hasMcast).addLocalPrefix _) (along_input.mpr fun _ hi => hi)

/-- **Nobody is asked.** After every run in which no beacon is heard, such as every run of the
terminal browser, a step sends no Interest, beacons go to the group only, and what is shown on a
fetch has come in a Data packet before. -/
theorem unheard_asksNobody (shell : Shell) (hasMcast : Bool) (name : CString)
    {is : List ProgramInput} (hunheard : ∀ b, .heard b ∉ is) (i : ProgramInput) :
    (programStep shell (exec (programStep shell) (programStart hasMcast name) is) i).1.Unasking
      (CameIn is) :=
  (unheard_run shell hasMcast name hunheard).unasking_step (fun now _ he => he.touch now) shell i

end Programs

/-- The terminal browser starts, and gets a Data packet for `/x`. -/
def unaskedRun : List ProgramInput :=
  [.loop ⟨none, [], 0, envX, 0⟩,
    .unicast ⟨1, 1⟩ ((psirpDataSerialize ⟨nameX, [7], 0, 0⟩ 64).getD []) ⟨0, ⟨0, true, 0⟩⟩]

/-- It shows the content when `/x` is asked for, and sends nothing. -/
theorem unheard_asksNobody_unaskedRun :
    ∃ e, (programStep terminalBrowser (exec (programStep terminalBrowser)
        (programStart false (text ['/', 'm'])) unaskedRun)
        (.loop ⟨some (text ['/', 'x']), [], 0, envX, 0⟩)).1.shown = some e ∧
      e.data = [7] ∧ CameIn unaskedRun e := by
  have hunheard : ∀ b, .heard b ∉ unaskedRun := by
    intro b hb
    simp [unaskedRun] at hb
  have hshown : ((programStep terminalBrowser (exec (programStep terminalBrowser)
      (programStart false (text ['/', 'm'])) unaskedRun)
      (.loop ⟨some (text ['/', 'x']), [], 0, envX, 0⟩)).1.shown.map PsirpCsEntry.data) =
        some [7] := by
    decide +kernel
  obtain ⟨e, he, hdata⟩ := Option.map_eq_some_iff.mp hshown
  exact ⟨e, he, hdata, (unheard_asksNobody terminalBrowser false (text ['/', 'm']) hunheard
    (.loop ⟨some (text ['/', 'x']), [], 0, envX, 0⟩)).shown e he⟩

end DsoBrowser
