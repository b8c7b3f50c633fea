import DsoBrowser.RoutesHeard

/-!
# What was heard lately is routed

When a beacon is heard and the tables have room for it, every name under a prefix of it is routed
until the loop has sampled a time fifteen seconds later (`heard_is_routed`). With the bound of
`routed_to_heard` the other way, this says what the tables are: what was heard in the last fifteen
seconds is routed, and what is routed was heard in the last twenty.

It takes an assumption on the threads. The loop samples the clock first and clears the tables by
the sample later, and `now - last_seen` wraps around for what was stamped in between: a beacon heard
there must not be stamped later than the sample (`HeardInTime`).

The **invariant** is that there is a route to a peer, with good stamps on both (`Reaches`): not
before the beacon, and not ahead of what the loop will compare them with.
-/

namespace DsoBrowser

open FirstMax Machine Table

/-! ## Routes that are reached -/

/-- There is a route of the prefix, to a peer, and both have good stamps. -/
def Reaches (good : UInt64 → Prop) (components : List CString) (reg : Registry) : Prop :=
  ∃ r ∈ reg.routes, r.pfx.components = components ∧ r.lifetimeMs = meshBeaconInterval * 3 ∧
    good r.createdAt ∧ ∃ p ∈ reg.peers, p.2 = r.peer ∧ good p.1.lastSeen

section Registry

variable {good : UInt64 → Prop} {components : List CString} {reg : Registry} {now : UInt64}

theorem Reaches.mono (h : Reaches good components reg) {good' : UInt64 → Prop}
    (hgood : ∀ t, good t → good' t) : Reaches good' components reg := by
  obtain ⟨r, hr, hpfx, hlife, hcreated, p, hp, hn, hseen⟩ := h
  exact ⟨r, hr, hpfx, hlife, hgood _ hcreated, p, hp, hn, hgood _ hseen⟩

/-- Changing a peer, but not to one with a bad stamp. -/
theorem Reaches.update (h : Reaches good components reg) (n : Nat) {f : MeshPeer → MeshPeer}
    (hf : ∀ p, good p.lastSeen → good (f p).lastSeen) :
    Reaches good components (reg.update n f) := by
  obtain ⟨r, hr, hpfx, hlife, hcreated, p, hp, hn, hseen⟩ := h
  refine ⟨r, hr, hpfx, hlife, hcreated, _, List.mem_map_of_mem hp, ?_⟩
  split
  · exact ⟨hn, hf _ hseen⟩
  · exact ⟨hn, hseen⟩

theorem Reaches.addPeer (h : Reaches good components reg) (name : CString) (addr : PsirpPeer)
    (hnow : good now) : Reaches good components (reg.addPeer name addr now).2 := by
  rw [Registry.addPeer]
  split
  · exact h
  · split
    · exact h.update _ fun _ _ => hnow
    · obtain ⟨r, hr, hpfx, hlife, hcreated, p, hp, hrest⟩ := h
      exact ⟨r, hr, hpfx, hlife, hcreated, p, List.mem_append_left _ hp, hrest⟩

/-- Adding a route, or renewing one. -/
theorem Reaches.addRoute (h : Reaches good components reg) (pfx : PsirpName) (n : Nat)
    (hnow : good now) :
    Reaches good components (reg.addRoute pfx n (meshBeaconInterval * 3) now).2 := by
  obtain ⟨r, hr, hpfx, hlife, hcreated, hpeer⟩ := h
  rw [Registry.addRoute]
  split
  · exact ⟨r, hr, hpfx, hlife, hcreated, hpeer⟩
  · split
    · rename_i i hi
      obtain ⟨j, hj⟩ := List.mem_iff_getElem?.mp hr
      by_cases hij : i = j
      · -- it is this one that is renewed
        subst hij
        refine ⟨_, List.mem_of_getElem? ((List.getElem?_modify_eq _ _ _).trans
          (congrArg (Option.map _) hj)), hpfx, rfl, hnow, hpeer⟩
      · have hrow := (List.getElem?_modify_ne (fun r : RegistryRoute =>
          { r with lifetimeMs := meshBeaconInterval * 3, createdAt := now }) reg.routes
            hij).trans hj
        exact ⟨r, List.mem_of_getElem? hrow, hpfx, hlife, hcreated, hpeer⟩
    · exact ⟨r, List.mem_append_left _ hr, hpfx, hlife, hcreated, hpeer⟩

theorem Reaches.announce {n : Nat} {now : Nat → UInt64} (hnow : ∀ k, good (now k))
    (ss : List CString) : ∀ (count : Nat) {reg : Registry}, Reaches good components reg →
      Reaches good components (Registry.announce n now ss count reg) := by
  induction ss with
  | nil => exact fun _ _ h => h
  | cons s ss ih =>
    intro count reg h
    rw [Registry.announce]
    exact ih _ ((h.update n (f := Registry.notePrefix s) fun _ hp => hp).addRoute _ n (hnow count))

/-- **Hearing another beacon.** -/
theorem Reaches.hear (h : Reaches good components reg) (data : CString) (dataLen : Nat)
    (src : PsirpPeer) {now : Nat → UInt64} (hnow : ∀ k, good (now k)) :
    Reaches good components (reg.hear data dataLen src now).2 := by
  have hadd := h.addPeer (beaconSender data) src (hnow 0)
  rw [Registry.hear]
  split
  · rcases hadded : reg.addPeer (beaconSender data) src (now 0) with ⟨_ | n, reg'⟩
    · rw [hadded] at hadd
      exact hadd
    · rw [hadded] at hadd
      exact Reaches.announce (fun k => hnow (k + 2)) _ 0
        (hadd.update n (f := Registry.greet (now 1)) fun _ _ => hnow 1)
  · exact h

/-- **Taking out peers**, but none with a good stamp. -/
theorem Reaches.forget (h : Reaches good components reg) (hkeyed : Keyed Prod.snd reg.peers)
    {gone : MeshPeer × Nat → Bool} (hgone : ∀ p, good p.1.lastSeen → gone p = false) :
    Reaches good components (reg.forget gone) := by
  obtain ⟨r, hr, hpfx, hlife, hcreated, p, hp, hn, hseen⟩ := h
  have hstays := hgone p hseen
  refine ⟨r, List.mem_filter.mpr ⟨hr, ?_⟩, hpfx, hlife, hcreated, p,
    List.mem_filter.mpr ⟨hp, by rw [hstays]; rfl⟩, hn, hseen⟩
  rw [Bool.not_eq_true', List.any_eq_false]
  intro q hq hboth
  obtain ⟨hq', hgone'⟩ := Bool.and_eq_true_iff.mp hboth
  obtain rfl := hkeyed.eq_of_key_eq hq hp ((of_decide_eq_true hq').trans hn.symm)
  rw [hstays] at hgone'
  cases hgone'

/-- **Taking out routes**, but none of a beacon with a good stamp. -/
theorem Reaches.filterRoutes (h : Reaches good components reg) {stays : RegistryRoute → Bool}
    (hstays : ∀ r : RegistryRoute, good r.createdAt → r.lifetimeMs = meshBeaconInterval * 3 →
      stays r = true) :
    Reaches good components { reg with routes := reg.routes.filter stays } := by
  obtain ⟨r, hr, hpfx, hlife, hcreated, hpeer⟩ := h
  exact ⟨r, List.mem_filter.mpr ⟨hr, hstays r hcreated hlife⟩, hpfx, hlife, hcreated, hpeer⟩

/-! ### What is announced -/

/-- A route that was added is reached. -/
theorem reaches_addRoute {pfx : PsirpName} {n : Nat} (hroom : reg.routes.length < meshMaxFib)
    (hpeer : ∃ p ∈ reg.peers, p.2 = n ∧ good p.1.lastSeen) (hnow : good now) :
    Reaches good pfx.components (reg.addRoute pfx n (meshBeaconInterval * 3) now).2 := by
  rw [Registry.addRoute, if_neg (Nat.not_le.mpr hroom)]
  split
  · rename_i i hi
    obtain ⟨hlt, htest, -⟩ := List.findIdx?_eq_some_iff_getElem.mp hi
    obtain ⟨hequal, hn⟩ := Bool.and_eq_true_iff.mp htest
    have hrow := (List.getElem?_modify_eq (fun r : RegistryRoute =>
      { r with lifetimeMs := meshBeaconInterval * 3, createdAt := now }) i reg.routes).trans
        (congrArg (Option.map _) (List.getElem?_eq_getElem hlt))
    refine ⟨_, List.mem_of_getElem? hrow, (psirpNameEqual_iff.mp hequal).2, rfl, hnow, ?_⟩
    rw [of_decide_eq_true hn]
    exact hpeer
  · exact ⟨_, List.mem_append_right _ (List.mem_singleton_self _), rfl, rfl, hnow, hpeer⟩

theorem length_routes_addRoute (reg : Registry) (pfx : PsirpName) (n : Nat) (lifetimeMs : UInt32)
    (now : UInt64) :
    (reg.addRoute pfx n lifetimeMs now).2.routes.length ≤ reg.routes.length + 1 := by
  rw [Registry.addRoute]
  split
  · exact Nat.le_succ _
  · split
    · dsimp only
      rw [List.length_modify]
      exact Nat.le_succ _
    · exact List.length_append.le

/-- Every prefix string of an announcement that there is room for is reached. -/
theorem reaches_announce {n : Nat} {now : Nat → UInt64} (hnow : ∀ k, good (now k))
    (ss : List CString) : ∀ (count : Nat) {reg : Registry},
      reg.routes.length + ss.length ≤ meshMaxFib →
      (∃ p ∈ reg.peers, p.2 = n ∧ good p.1.lastSeen) → ∀ s ∈ ss,
      Reaches good (psirpNameInit s).2.components (Registry.announce n now ss count reg) := by
  induction ss with
  | nil => exact fun _ _ _ _ s hs => absurd hs List.not_mem_nil
  | cons s ss ih =>
    intro count reg hroom ⟨p, hp, hn, hseen⟩ t ht
    subst hn
    rw [List.length_cons] at hroom
    have hrow := mem_update hp (Registry.notePrefix s)
    have hpeer : ∃ q ∈ (reg.update p.2 (Registry.notePrefix s)).peers,
        q.2 = p.2 ∧ good q.1.lastSeen := ⟨_, hrow, rfl, hseen⟩
    rw [Registry.announce]
    rcases List.mem_cons.mp ht with rfl | ht
    · refine Reaches.announce hnow ss _ (reaches_addRoute ?_ hpeer (hnow count))
      change reg.routes.length < meshMaxFib
      omega
    · refine ih _ ?_ ?_ t ht
      · have hlen := length_routes_addRoute (reg.update p.2 (Registry.notePrefix s))
          (psirpNameInit s).2 p.2 (meshBeaconInterval * 3) (now count)
        change _ ≤ reg.routes.length + 1 at hlen
        omega
      · rw [peers_addRoute]
        exact hpeer

/-- Where there is room for a peer, the one that is added is there. -/
theorem exists_addPeer (reg : Registry) (name : CString) (addr : PsirpPeer) (now : UInt64)
    (hroom : reg.peers.length < meshMaxPeers) :
    ∃ n, (reg.addPeer name addr now).1 = some n ∧
      (reg.addPeer name addr now).2.routes = reg.routes ∧
      ∃ p ∈ (reg.addPeer name addr now).2.peers, p.2 = n := by
  rw [Registry.addPeer, if_neg (Nat.not_le.mpr hroom)]
  split
  · rename_i p hfind
    exact ⟨p.2, rfl, rfl, _, mem_update (List.mem_of_find?_eq_some hfind) _, rfl⟩
  · exact ⟨reg.next, rfl, rfl, _, List.mem_append_right _ (List.mem_singleton_self _), rfl⟩

/-- The tables have room for the sender of a beacon and its prefixes. -/
structure RoomFor (data : CString) (ctx : MeshCtx) : Prop where
  /-- for the peer -/
  peers : ctx.peers.length < meshMaxPeers
  /-- for the routes -/
  fib : ctx.fib.length + (beaconStrings data).length ≤ meshMaxFib

/-- **What a beacon announces** is reached, if there was room for it. -/
theorem reaches_hear {ctx : MeshCtx} (hreg : Registers ctx reg) {b : HeardBeacon}
    (hbeacon : IsBeacon b.data b.buf.length) (hroom : RoomFor b.data ctx)
    (hnow : ∀ k, good (b.now k)) {t : CString} (ht : t ∈ beaconStrings b.data) :
    Reaches good (heardPrefix t).components (reg.hear b.data b.buf.length b.src b.now).2 := by
  have hpeers := hroom.peers
  have hfib := hroom.fib
  rw [hreg.length_peers] at hpeers
  rw [hreg.length_fib] at hfib
  obtain ⟨n, hn, hroutes, p, hp, rfl⟩ :=
    exists_addPeer reg (beaconSender b.data) b.src (b.now 0) hpeers
  rw [Registry.hear, if_pos hbeacon]
  rcases hadded : reg.addPeer (beaconSender b.data) b.src (b.now 0) with ⟨found, reg'⟩
  rw [hadded] at hn hroutes hp
  subst hn
  refine reaches_announce (fun k => hnow (k + 2)) _ 0 ?_
    ⟨_, mem_update hp (Registry.greet (b.now 1)), rfl, hnow 1⟩ _ (List.mem_map_of_mem ht)
  change reg'.routes.length + _ ≤ _
  rw [hroutes, List.length_map]
  exact hfib

/-- Every route leads to a peer. -/
theorem Registers.exists_peer {ctx : MeshCtx} (h : Registers ctx reg) {r : RegistryRoute}
    (hr : r ∈ reg.routes) : ∃ p ∈ reg.peers, p.2 = r.peer := by
  have hread := List.mem_map_of_mem (f := RegistryRoute.read) hr
  rw [← h.routes_eq] at hread
  obtain ⟨e, -, he⟩ := List.mem_map.mp hread
  have hnumber : (reg.peers.map Prod.snd)[e.peerIndex]? = some r.peer := congrArg Prod.snd he
  obtain ⟨p, hp, hn⟩ := List.mem_map.mp (List.mem_of_getElem? hnumber)
  exact ⟨p, hp, hn⟩

/-- **A name is routed** when it is under a prefix that is reached. -/
theorem Reaches.exists_nextHop {ctx : MeshCtx} (h : Reaches good components reg)
    (hreg : Registers ctx reg) {asked : PsirpName} (hnil : components ≠ [])
    (hunder : components.isPrefixOf asked.components = true) :
    ∃ p, meshNextHop ctx asked = some p := by
  obtain ⟨r, hr, hpfx, -⟩ := h
  have hweight : WithBot.some 0 < prefixWeight asked r.pfx := by
    rw [coe_lt_prefixWeight, psirpNameIsPrefix, hpfx]
    exact ⟨hunder, List.length_pos_of_ne_nil hnil⟩
  obtain ⟨i, hi⟩ : ∃ i, scan (fun r => prefixWeight asked r.pfx) reg.routes 0 none
      (WithBot.some 0) = some i := by
    refine Option.ne_none_iff_exists'.mp fun hnone => ?_
    exact absurd hweight (scan_eq_none.mp hnone r hr).not_gt
  obtain ⟨r', hfirst, -⟩ := scan_eq_some.mp hi
  obtain ⟨p, hp, hn⟩ := hreg.exists_peer hfirst.mem
  have hfind := find?_number hreg.keyed hp
  rw [hn] at hfind
  refine ⟨p.1, ?_⟩
  rw [hreg.nextHop]
  exact Option.bind_eq_some_iff.mpr ⟨i, hi, Option.bind_eq_some_iff.mpr
    ⟨r', hfirst.row, congrArg (Option.map Prod.fst) hfind⟩⟩

end Registry

/-! ## The programs -/

/-- The loop has sampled the clock and clears the tables. -/
def Phase.clearing : Phase → Bool
  | .beaconing | .expiring | .pruning => true
  | _ => false

/-- A beacon that is heard meanwhile is not stamped later than the sample. -/
def HeardInTime (s : MeshProgram) : ProgramInput → Prop
  | .heard b => s.phase.clearing = true → ∀ k, b.now k ≤ s.now
  | _ => True

/-- A stamp is not before a time, and not ahead of what it is going to be compared with. -/
structure GoodStamp (since : UInt64) (s : MeshProgram) (rest : List ProgramInput) (t : UInt64) :
    Prop where
  /-- not before -/
  since_le : since ≤ t
  /-- what is read later is not earlier -/
  le_later : ∀ i ∈ rest, ∀ t', i.Reads t' → t ≤ t'
  /-- nor is the sample, once it is taken -/
  le_now : s.phase.clearing = true → t ≤ s.now

/-- A prefix is reached for fifteen seconds. -/
def Kept (since : UInt64) (components : List CString) (s : MeshProgram)
    (rest : List ProgramInput) : Prop :=
  s.now.toNat ≤ since.toNat + 15000 →
    ∃ reg, Registers s.mesh reg ∧ Reaches (GoodStamp since s rest) components reg

section Programs

variable {since : UInt64} {components : List CString} {s : MeshProgram} {i : ProgramInput}

/-- The test on the age keeps what is not ahead of the clock and not older. -/
theorem not_lt_of_toNat_le {now stamp limit : UInt64} (hle : stamp ≤ now)
    (h : now.toNat ≤ stamp.toNat + limit.toNat) : ¬ limit < now - stamp := by
  rw [UInt64.lt_iff_toNat_lt, UInt64.toNat_sub_of_le _ _ hle]
  omega

/-- A change of the tables leaves what has good stamps. -/
theorem MeshChange.reaches {ctx : MeshCtx} (h : MeshChange s i ctx) {good : UInt64 → Prop}
    {reg : Registry} (hreg : Registers s.mesh reg) (hreach : Reaches good components reg)
    (hheard : ∀ b, i = .heard b → ∀ k, good (b.now k))
    (hclear : s.phase.clearing = true → ∀ t, good t →
      t ≤ s.now ∧ s.now.toNat ≤ t.toNat + 15000) :
    ∃ reg', Registers ctx reg' ∧ Reaches good components reg' := by
  cases h with
  | same hsame => exact ⟨reg, hreg.congr hsame.peers hsame.fib, hreach⟩
  | publish pfx =>
    obtain ⟨hpeers, hfib⟩ := tables_meshAddLocalPrefix s.mesh pfx
    exact ⟨reg, hreg.congr hpeers hfib, hreach⟩
  | hear b hb => exact ⟨_, (hreg.hear ..).2, hreach.hear _ _ _ (hheard b hb)⟩
  | expire hphase =>
    refine ⟨_, (hreg.checkTimeouts s.now).2, hreach.forget hreg.keyed fun p hp => ?_⟩
    obtain ⟨hle, hlate⟩ := hclear (by rw [hphase]; rfl) _ hp
    exact decide_eq_false (not_lt_of_toNat_le hle hlate)
  | prune hphase =>
    refine ⟨_, (hreg.fibPrune s.now).2, hreach.filterRoutes fun r hr hlife => ?_⟩
    obtain ⟨hle, hlate⟩ := hclear (by rw [hphase]; rfl) _ hr
    rw [RegistryRoute.expired, hlife, Bool.not_eq_true', Bool.and_eq_false_imp]
    exact fun _ => decide_eq_false (not_lt_of_toNat_le hle hlate)

/-! ### When the tables are cleared -/

theorem clearing_beacon (s : MeshProgram) {next : Phase} (hnext : next.clearing = false) :
    (s.beacon next).2.phase.clearing = false := by
  rw [MeshProgram.beacon]
  split
  · rfl
  · exact hnext

theorem clearing_again (s : MeshProgram) : s.again.phase.clearing = false := by
  rw [MeshProgram.again]
  dsimp only
  split <;> rfl

theorem clearing_command (s : MeshProgram) (env : LoopEnv) (c : Command) :
    (s.command env c).2.phase.clearing = false := by
  cases c with
  | beacon => exact clearing_beacon s rfl
  | _ => rfl

theorem phase_receive (s : MeshProgram) (f : PsirpNode → PsirpNode × List Datagram) :
    (s.receive f).2.phase = s.phase := by
  rw [MeshProgram.receive]
  split <;> rfl

/-- Where the loop starts clearing the tables, it has just sampled the clock. -/
theorem now_of_clearing_loop (shell : Shell) (env : LoopEnv) (hs : s.phase.clearing = false)
    (h : (s.loop shell env).2.phase.clearing = true) : (s.loop shell env).2.now = env.now := by
  by_contra hnow
  rw [← Bool.not_eq_false] at h
  refine h ?_
  rw [MeshProgram.loop] at hnow ⊢
  cases hphase : s.phase with
  | starting => exact clearing_beacon s rfl
  | reading =>
    dsimp only
    split
    · rfl
    · split
      · exact clearing_again s
      · exact clearing_command s env _
  | sampling =>
    rw [hphase] at hnow
    dsimp only at hnow
    split at hnow <;> exact absurd rfl hnow
  | stopped => exact hs
  | «undefined» => exact hs
  | _ =>
    rw [hphase] at hs
    cases hs

/-- The tables are cleared by what the loop has sampled. -/
theorem clearing_programStep (shell : Shell) (h : (programStep shell s i).2.phase.clearing = true) :
    s.phase.clearing = true ∨ i.Reads (programStep shell s i).2.now := by
  cases hs : s.phase.clearing with
  | true => exact Or.inl rfl
  | false =>
    have hreceive : ∀ f, (s.receive f).2.phase.clearing = false := fun f => by
      rw [phase_receive, hs]
    cases i with
    | loop env => exact Or.inr (now_of_clearing_loop shell env hs h)
    | unicast src buf env => exact absurd h (Bool.eq_false_iff.mp (hreceive _))
    | multicast src buf => exact absurd h (Bool.eq_false_iff.mp (hreceive _))
    | heard b => exact absurd h (Bool.eq_false_iff.mp hs)
    | signal => exact absurd h (Bool.eq_false_iff.mp hs)

/-! ### What is kept -/

/-- **Step lemma.** -/
theorem Kept.step {is : List ProgramInput} (h : Kept since components s (i :: is)) (shell : Shell)
    (hnow : ∀ t, i.Reads t → s.now ≤ t) (hsince : ∀ t, i.Reads t → since ≤ t)
    (hlater : ∀ j ∈ is, ∀ t t', i.Reads t → j.Reads t' → t ≤ t') (htime : HeardInTime s i) :
    Kept since components (programStep shell s i).2 is := by
  intro hlate
  have hmono : s.now ≤ (programStep shell s i).2.now := by
    rcases now_programStep shell s i with hsame | hread
    · exact UInt64.le_of_eq hsame.symm
    · exact hnow _ hread
  have hlate' : s.now.toNat ≤ since.toNat + 15000 :=
    (UInt64.le_iff_toNat_le.mp hmono).trans hlate
  obtain ⟨reg, hreg, hreach⟩ := h hlate'
  -- good for the tests of this step, and of the steps to come
  let good : UInt64 → Prop := fun t =>
    GoodStamp since (programStep shell s i).2 is t ∧ (s.phase.clearing = true → t ≤ s.now)
  have hgood : Reaches good components reg := by
    refine hreach.mono fun t ht => ⟨⟨ht.since_le, fun j hj => ht.le_later j
      (List.mem_cons_of_mem _ hj), fun hclearing => ?_⟩, ht.le_now⟩
    rcases clearing_programStep shell hclearing with hbefore | hread
    · exact UInt64.le_trans (ht.le_now hbefore) hmono
    · exact ht.le_later i List.mem_cons_self _ hread
  obtain ⟨reg', hreg', hreach'⟩ := (meshChange_programStep shell s i).1.reaches hreg hgood
    (fun b hb k => by
      subst hb
      exact ⟨⟨hsince _ ⟨k, rfl⟩, fun j hj t' => hlater j hj _ _ ⟨k, rfl⟩,
        fun hclearing => htime hclearing k⟩, fun hclearing => htime hclearing k⟩)
    (fun hclearing t ht => by
      have hle := UInt64.le_iff_toNat_le.mp ht.1.since_le
      exact ⟨ht.2 hclearing, by omega⟩)
  exact ⟨reg', hreg', hreach'.mono fun _ ht => ht.1⟩

/-- **Run lemma.** -/
theorem Kept.run {is : List ProgramInput} (h : Kept since components s is) (shell : Shell)
    (hclock : ProgramClock is) (hnow : ∀ i ∈ is, ∀ t, i.Reads t → s.now ≤ t)
    (hsince : ∀ i ∈ is, ∀ t, i.Reads t → since ≤ t)
    (htime : Along (programStep shell) HeardInTime s is) :
    Kept since components (exec (programStep shell) s is) [] := by
  induction is generalizing s with
  | nil => exact h
  | cons i is ih =>
    obtain ⟨hlater, hrest⟩ := List.pairwise_cons.mp hclock
    have hstep := h.step shell (hnow i List.mem_cons_self) (hsince i List.mem_cons_self) hlater
      htime.1
    exact ih hstep hrest (now_le_programStep shell hnow hlater)
      (fun j hj => hsince j (List.mem_cons_of_mem _ hj)) htime.2

/-- Over a run, too, `now` is not ahead of what is read later. -/
theorem now_le_exec (shell : Shell) {is js : List ProgramInput} (hclock : ProgramClock (is ++ js))
    (hnow : ∀ i ∈ is ++ js, ∀ t, i.Reads t → s.now ≤ t) :
    ∀ j ∈ js, ∀ t, j.Reads t → (exec (programStep shell) s is).now ≤ t := by
  induction is generalizing s with
  | nil => exact hnow
  | cons i is ih =>
    obtain ⟨hlater, hrest⟩ := List.pairwise_cons.mp hclock
    exact ih hrest (now_le_programStep shell hnow hlater)

/-- What a beacon announced is reached at the end of the run. -/
theorem reaches_of_run {shell : Shell} {hasMcast : Bool} {name : CString}
    {before after : List ProgramInput} {b : HeardBeacon}
    (hclock : ProgramClock (before ++ .heard b :: after))
    (htime : Along (programStep shell) HeardInTime (programStart hasMcast name)
      (before ++ .heard b :: after))
    (hbeacon : IsBeacon b.data b.buf.length)
    (hroom : RoomFor b.data (exec (programStep shell) (programStart hasMcast name) before).mesh)
    (hsince : ∀ k, since ≤ b.now k)
    (hrun : exec (programStep shell) (programStart hasMcast name) (before ++ .heard b :: after) = s)
    (hlate : s.now.toNat ≤ since.toNat + 15000) {t : CString} (ht : t ∈ beaconStrings b.data) :
    ∃ reg, Registers s.mesh reg ∧
      Reaches (GoodStamp since s []) (heardPrefix t).components reg := by
  obtain ⟨hbefore, hrest, -⟩ := List.pairwise_append.mp hclock
  obtain ⟨hlater, hafter⟩ := List.pairwise_cons.mp hrest
  have hnow := now_le_exec shell hclock (s := programStart hasMcast name)
    fun _ _ _ _ => UInt64.zero_le
  obtain ⟨-, hheard, htime⟩ := (along_append ..).mp htime
  obtain ⟨reg, hreg, -⟩ := (cleared_run shell hasMcast name hbefore).remembers
  -- the tables right after the beacon
  have hkept : Kept since (heardPrefix t).components (programStep shell
      (exec (programStep shell) (programStart hasMcast name) before) (.heard b)).2 after := by
    refine fun _ => ⟨_, (hreg.hear b.data b.buf.length b.src b.now).2,
      reaches_hear hreg hbeacon hroom (fun k => ?_) ht⟩
    exact ⟨hsince k, fun j hj t' => hlater j hj _ _ ⟨k, rfl⟩, fun hclearing => hheard hclearing k⟩
  have hend := hkept.run shell hafter (now_le_programStep shell hnow hlater)
    (fun j hj t' ht' => UInt64.le_trans (hsince 0) (hlater j hj _ t' ⟨0, rfl⟩ ht')) htime
  rw [exec_append] at hrun
  obtain rfl := hrun
  exact hend hlate

/-- **What was heard lately is routed.** In every run in which the clock does not go back and
beacons are heard in time: when a beacon is heard that there is room for, every name under one of
its prefixes is routed to a peer, whatever the threads do then, until a time is sampled that is more
than fifteen seconds after the beacon. -/
theorem heard_is_routed {shell : Shell} {hasMcast : Bool} {name : CString}
    {before after : List ProgramInput} {b : HeardBeacon}
    (hclock : ProgramClock (before ++ .heard b :: after))
    (htime : Along (programStep shell) HeardInTime (programStart hasMcast name)
      (before ++ .heard b :: after))
    (hbeacon : IsBeacon b.data b.buf.length)
    (hroom : RoomFor b.data (exec (programStep shell) (programStart hasMcast name) before).mesh)
    {since : UInt64} (hsince : ∀ k, since ≤ b.now k) {s : MeshProgram}
    (hrun : exec (programStep shell) (programStart hasMcast name) (before ++ .heard b :: after) = s)
    (hlate : s.now.toNat ≤ since.toNat + 15000) {t : CString} (ht : t ∈ beaconStrings b.data)
    (hnil : (heardPrefix t).components ≠ []) {asked : PsirpName}
    (hunder : psirpNameIsPrefix (heardPrefix t) asked = true) :
    ∃ p, meshNextHop s.mesh asked = some p := by
  obtain ⟨reg, hreg, hreach⟩ :=
    reaches_of_run hclock htime hbeacon hroom hsince hrun hlate ht
  exact hreach.exists_nextHop hreg hnil hunder

end Programs

/-- The loop is not clearing the tables when the beacon is heard. -/
theorem heardInTime_clearingRun (hasMcast : Bool) :
    Along (programStep meshDemo) HeardInTime (programStart hasMcast (text ['/', 'm']))
      clearingRun := by
  refine ⟨trivial, fun hclearing => absurd hclearing ?_, trivial, trivial, trivial, trivial,
    trivial, trivial⟩
  cases hasMcast <;> decide +kernel

/-- `/x` is routed after the whole round of the loop. -/
theorem heard_is_routed_clearingRun :
    ∃ p, meshNextHop (exec (programStep meshDemo) (programStart false (text ['/', 'm']))
      clearingRun).mesh nameX = some p := by
  have hnow : (exec (programStep meshDemo) (programStart false (text ['/', 'm']))
      clearingRun).now.toNat ≤ (100 : UInt64).toNat + 15000 := by
    decide +kernel
  have hclock : ProgramClock ([idleLoop 0] ++ .heard beaconX :: clearingRun.drop 2) :=
    programClock_clearingRun
  have hsince : ∀ k, (100 : UInt64) ≤ beaconX.now k := fun _ => UInt64.le_refl _
  exact heard_is_routed hclock (heardInTime_clearingRun false) (by decide +kernel)
    ⟨by decide +kernel, by decide +kernel⟩ hsince rfl hnow
    (t := text ['x']) (by decide +kernel) (by decide +kernel) (by decide +kernel)

end DsoBrowser
