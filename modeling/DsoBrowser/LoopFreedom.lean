import DsoBrowser.Network
import Mathlib.Data.List.Chain
import Mathlib.Data.List.Duplicate
import Mathlib.Logic.Relation

/-!
# Forwarding loops

The receive loop forwards an Interest with a nonce of its own, and looks at no nonce it receives.
So an Interest goes wherever the forwarding tables send it, and comes back to a node if they lead
back there. When nothing is stored, no node forwards an Interest twice exactly when the tables
have no cycle that it can get to (`forwardsOnce_iff`).

* The **invariant** of a run is `Wandering`: the nodes that have forwarded so far are a walk along
  the tables (`Hop`), and there is at most one datagram in flight, the Interest on its way to the
  next node.
* Conversely a run can follow any walk (`exists_run_of_transGen`).
-/

namespace DsoBrowser

open Machine Relation

universe u

/-- A walk that comes to a place twice has a cycle in it, and gets there from its start. -/
theorem exists_cycle_of_isChain {α : Type u} {R : α → α → Prop} {a : α} {l : List α}
    (h : (a :: l).IsChain R) (hdup : ¬ (a :: l).Nodup) :
    ∃ b, ReflTransGen R a b ∧ TransGen R b b := by
  have hpair : (a :: l).Pairwise (TransGen R) :=
    (h.imp fun _ _ => TransGen.single).pairwise
  obtain ⟨b, hb⟩ := List.exists_duplicate_iff_not_nodup.mpr hdup
  refine ⟨b, ?_, ?_⟩
  · rcases List.mem_cons.mp hb.mem with rfl | hmem
    · exact ReflTransGen.refl
    · exact (List.rel_of_pairwise_cons hpair hmem).to_reflTransGen
  · exact List.rel_of_pairwise_cons (hpair.sublist (List.duplicate_iff_sublist.mp hb))
      (List.mem_singleton_self b)

variable {N : Type u} {addr : N → PsirpPeer}

/-! ## Forwarding -/

/-- The node sends an Interest. -/
def Sent.forwards (sent : Sent N) : Bool :=
  sent.out.any fun dg =>
    match dg.packet with
    | .interest _ => true
    | .data _ => false

variable (addr) in
/-- The nodes that forward in a run, in order. -/
def forwarders [DecidableEq N] (net : Network N) (rs : List (Receipt N)) : List N :=
  ((outs (receiveStep addr) net rs).filter Sent.forwards).map Sent.node

variable (addr) in
/-- Node `v` forwards an Interest for the name to node `w`. -/
def Hop (net : Network N) (name : PsirpName) (v w : N) : Prop :=
  Encodable name ∧ psirpFibLookup (net.node v).fib name = some (addr w)

/-- One Interest is in flight and nothing else, and no node stores anything. -/
structure Injected (net : Network N) (m : Flying) (interest : PsirpInterest) : Prop where
  /-- it is in flight -/
  flight : net.flight = [m]
  /-- it is an Interest -/
  decoded : psirpInterestDeserialize PsirpInterest.zero m.payload = some interest
  /-- the stores are empty -/
  empty : ∀ v, (net.node v).cs.entries = []

/-! ## One Interest on its way -/

/-- The stores are empty and the routes those of `net`. -/
structure Undisturbed (net net' : Network N) : Prop where
  /-- no node stores anything -/
  empty : ∀ v, (net'.node v).cs.entries = []
  /-- the routes are the same -/
  fib : ∀ v, (net'.node v).fib = (net.node v).fib

/-- In an empty store there is nothing to find. -/
theorem Undisturbed.miss {net net' : Network N} (h : Undisturbed net net') (v : N)
    (name : PsirpName) (now : UInt64) : lookupEntry (net'.node v).cs name now = none := by
  rw [lookupEntry_eq_none, h.empty v, lookupIndex]
  split <;> rfl

/-- The Interest is on its way to the address `a`, and nothing else is in flight. -/
structure Carrying (net : Network N) (name : PsirpName) (a : PsirpPeer) (net' : Network N) : Prop
    extends Undisturbed net net' where
  /-- the datagram -/
  flight : ∃ m interest, net'.flight = [m] ∧ m.dest = a ∧
    psirpInterestDeserialize PsirpInterest.zero m.payload = some interest ∧
    interest.name.components = name.components

theorem Injected.carrying {net : Network N} {m : Flying} {interest : PsirpInterest}
    (h : Injected net m interest) :
    Carrying net interest.name m.dest net :=
  ⟨⟨h.empty, fun _ => rfl⟩, m, interest, h.flight, rfl, h.decoded, rfl⟩

section Steps

variable [DecidableEq N] {net net' : Network N} {name : PsirpName} {a : PsirpPeer} {r : Receipt N}

theorem forwarders_cons (net : Network N) (r : Receipt N) (rs : List (Receipt N)) :
    forwarders addr net (r :: rs) =
      (if (receiveStep addr net r).1.forwards then [(receiveStep addr net r).1.node] else []) ++
        forwarders addr (receiveStep addr net r).2 rs := by
  rw [forwarders, outs, List.filter_cons]
  split <;> rfl

theorem forwarders_append (net : Network N) (rs rs' : List (Receipt N)) :
    forwarders addr net (rs ++ rs') =
      forwarders addr net rs ++ forwarders addr (exec (receiveStep addr) net rs) rs' := by
  induction rs generalizing net with
  | nil => rfl
  | cons r rs ih =>
    rw [List.cons_append, forwarders_cons, ih, forwarders_cons, List.append_assoc]
    rfl

/-- A round that receives nothing changes nothing that matters. -/
theorem step_of_no_delivery (h : r.delivery addr net' = none) :
    (receiveStep addr net' r).1.forwards = false ∧
      (receiveStep addr net' r).2.flight = net'.flight ∧
      (Undisturbed net net' → Undisturbed net (receiveStep addr net' r).2) := by
  obtain ⟨hout, hflight, hnode⟩ := receiveStep_of_no_delivery h
  refine ⟨by rw [Sent.forwards, hout]; rfl, hflight, fun hnet => ⟨fun v => ?_, fun v => ?_⟩⟩
  · rw [(hnode v).1, hnet.empty v]
  · rw [(hnode v).2, hnet.fib v]

/-- A node that receives an Interest keeps its store empty and its routes. -/
theorem Undisturbed.after_recvInterest (h : Undisturbed net net') (v : N) (src : PsirpPeer)
    (interest : PsirpInterest) (env : RecvEnv) (flight : List Flying) :
    Undisturbed net
      ⟨Function.update net'.node v (recvInterest (net'.node v) src interest env).1, flight⟩ := by
  obtain ⟨hcs, hfib⟩ := recvInterest_node (net'.node v) src interest env
  have hmiss := h.miss v interest.name env.now
  refine ⟨fun w => ?_, fun w => ?_⟩
  · rcases eq_or_ne w v with rfl | hw
    · simp only [Function.update_self]
      rw [hcs, psirpCsLookup, lookupEntry_eq_none.mp hmiss]
      exact h.empty w
    · simp only [Function.update_of_ne hw]
      exact h.empty w
  · rcases eq_or_ne w v with rfl | hw
    · simp only [Function.update_self]
      rw [hfib, h.fib w]
    · simp only [Function.update_of_ne hw]
      exact h.fib w

/-- **One round on the Interest.** The node it is for drops it, or forwards it where its table
says; it does the latter if it can. -/
theorem Carrying.step (h : Carrying net name a net') {v : N} {m : Flying} {env : RecvEnv}
    (hr : r.delivery addr net' = some (v, m, env)) :
    a = addr v ∧ (receiveStep addr net' r).1.node = v ∧
      (((receiveStep addr net' r).1.forwards = false ∧ (receiveStep addr net' r).2.flight = [] ∧
          Undisturbed net (receiveStep addr net' r).2 ∧
          ¬ (env.send.sent = true ∧ Encodable name ∧
            psirpFibLookup (net.node v).fib name ≠ none)) ∨
        ((receiveStep addr net' r).1.forwards = true ∧ Encodable name ∧
          ∃ b, psirpFibLookup (net.node v).fib name = some b ∧
            Carrying net name b (receiveStep addr net' r).2)) := by
  obtain ⟨m₀, interest, hflight, hdest, hdec, hcomps⟩ := h.flight
  obtain ⟨i, hm, hsent, hnet⟩ := receiveStep_of_delivery hr
  obtain ⟨-, -, -, hdest'⟩ := delivery_eq_some hr
  -- the datagram received is the one in flight
  obtain ⟨rfl, rfl⟩ : i = 0 ∧ m = m₀ := by
    rw [hflight] at hm
    cases i with
    | zero => exact ⟨rfl, (Option.some.inj hm).symm⟩
    | succ i => cases hm
  rw [recvUnicast_interest hdec] at hsent hnet
  have hmiss := h.toUndisturbed.miss v interest.name env.now
  have hroute : psirpFibLookup (net'.node v).fib interest.name =
      psirpFibLookup (net.node v).fib name := by
    rw [h.fib v]
    exact psirpFibLookup_congr hcomps _
  have henc : Encodable interest.name ↔ Encodable name := by
    rw [Encodable, Encodable, hcomps]
  have hundisturbed : Undisturbed net (receiveStep addr net' r).2 := by
    rw [hnet]
    exact h.toUndisturbed.after_recvInterest v m.src interest env _
  have hleft : net'.flight.eraseIdx 0 = [] := by
    rw [hflight]
    rfl
  refine ⟨hdest.symm.trans hdest', by rw [hsent], ?_⟩
  rcases recvInterest_cases (net'.node v) m.src interest env with
    ⟨entry, hhit, -⟩ | ⟨-, hnone, hout⟩ | ⟨b, -, hsome, hout⟩
  · rw [hmiss] at hhit
    cases hhit
  · rw [hout] at hsent hnet
    refine Or.inl ⟨by rw [hsent]; rfl, by rw [hnet, hleft]; rfl, hundisturbed, fun hok => ?_⟩
    exact hok.2.2 (hroute ▸ hnone)
  · rw [hout] at hsent hnet
    rcases psirpNetInterest_out ((net'.node v).lookup interest.name env.now).2 interest.name b
      interest.lifetimeMs env.send with ⟨hnil, hno⟩ | ⟨hfits, -, interest', buf, hname, hbuf, hone⟩
    · rw [hnil] at hsent hnet
      refine Or.inl ⟨by rw [hsent]; rfl, by rw [hnet, hleft]; rfl, hundisturbed, fun hok => ?_⟩
      exact hno ⟨henc.mpr hok.2.1, hok.1⟩
    · rw [hone] at hsent hnet
      refine Or.inr ⟨by rw [hsent]; rfl, henc.mp hfits, b, hroute ▸ hsome, ⟨hundisturbed, ?_⟩⟩
      refine ⟨_, _, by rw [hnet, hleft]; rfl, rfl, psirpInterestDeserialize_eq hbuf _, ?_⟩
      change interest'.name.components = name.components
      rw [hname, hcomps]

/-! ## Runs -/

/-- Where the Interest goes next when the nodes of `path` have forwarded it. -/
def nextStop (net : Network N) (name : PsirpName) (dest : PsirpPeer) (path : List N) :
    Option PsirpPeer :=
  match path.getLast? with
  | none => some dest
  | some v => psirpFibLookup (net.node v).fib name

variable (addr) in
/-- The nodes of `path` have forwarded the Interest that was injected for `dest`, one after the
other, and nobody else has. -/
structure Wandering (net : Network N) (name : PsirpName) (dest : PsirpPeer) (path : List N)
    (net' : Network N) : Prop extends Undisturbed net net' where
  /-- they are a walk along the tables -/
  walk : path.IsChain (Hop addr net name)
  /-- it starts where the Interest was injected -/
  start : ∀ v ∈ path.head?, addr v = dest
  /-- the Interest can be forwarded -/
  encodable : path ≠ [] → Encodable name
  /-- it is on its way to the next stop, or lost -/
  flight : net'.flight = [] ∨ ∃ a, nextStop net name dest path = some a ∧ Carrying net name a net'

/-- **Step lemma.** A node that forwards comes next on the walk. -/
theorem Wandering.step {dest : PsirpPeer} {path : List N}
    (h : Wandering addr net name dest path net') (r : Receipt N) :
    Wandering addr net name dest
      (path ++ if (receiveStep addr net' r).1.forwards then [(receiveStep addr net' r).1.node] else [])
      (receiveStep addr net' r).2 := by
  rcases hr : r.delivery addr net' with _ | ⟨v, m, env⟩
  · -- nothing is received
    obtain ⟨hquiet, hflight, hkeep⟩ : _ ∧ _ ∧ (Undisturbed net net' → _) :=
      step_of_no_delivery hr
    rw [hquiet, if_neg Bool.false_ne_true, List.append_nil]
    refine ⟨hkeep h.toUndisturbed, h.walk, h.start, h.encodable, ?_⟩
    rcases h.flight with hnil | ⟨a, ha, hcarry⟩
    · exact Or.inl (hflight.trans hnil)
    · exact Or.inr ⟨a, ha, hkeep h.toUndisturbed, by rw [hflight]; exact hcarry.flight⟩
  · rcases h.flight with hnil | ⟨a, ha, hcarry⟩
    · obtain ⟨i, -, hm, -⟩ := delivery_eq_some hr
      rw [hnil] at hm
      cases hm
    · obtain ⟨rfl, hnode, ⟨hquiet, hflight, hkeep, -⟩ | ⟨hforwards, henc, b, hb, hnext⟩⟩ :=
        hcarry.step hr
      · -- the Interest is dropped
        rw [hquiet, if_neg Bool.false_ne_true, List.append_nil]
        exact ⟨hkeep, h.walk, h.start, h.encodable, Or.inl hflight⟩
      · rw [hforwards, if_pos rfl, hnode]
        refine ⟨hnext.toUndisturbed, ?_, ?_, fun _ => henc, Or.inr ⟨b, ?_, hnext⟩⟩
        · refine List.isChain_append.mpr ⟨h.walk, List.isChain_singleton v, ?_⟩
          intro u hu w hw
          obtain rfl := Option.some.inj hw
          rw [nextStop, Option.mem_def.mp hu] at ha
          exact ⟨henc, ha⟩
        · cases path with
          | nil =>
            intro u hu
            obtain rfl := Option.some.inj hu
            exact (Option.some.inj ha).symm
          | cons u us => exact h.start
        · rw [nextStop, List.getLast?_append, List.getLast?_singleton]
          exact hb

/-- **Run lemma.** The nodes that forward in a run are a walk. -/
theorem Wandering.run {dest : PsirpPeer} {path : List N}
    (h : Wandering addr net name dest path net') (rs : List (Receipt N)) :
    Wandering addr net name dest (path ++ forwarders addr net' rs)
      (exec (receiveStep addr) net' rs) := by
  induction rs generalizing path net' with
  | nil =>
    rw [forwarders, outs, List.filter_nil, List.map_nil, List.append_nil]
    exact h
  | cons r rs ih =>
    rw [forwarders_cons, ← List.append_assoc]
    exact ih (h.step r)

omit [DecidableEq N] in
theorem Injected.wandering {m : Flying} {interest : PsirpInterest} (h : Injected net m interest) :
    Wandering addr net interest.name m.dest [] net :=
  ⟨h.carrying.toUndisturbed, List.isChain_nil, nofun, fun hne => absurd rfl hne,
    Or.inr ⟨m.dest, rfl, h.carrying⟩⟩

/-- The Interest can follow the tables for one hop. -/
theorem Carrying.hop {v w : N} (h : Carrying net name (addr v) net') (hop : Hop addr net name v w) :
    forwarders addr net' [oldestRound v] = [v] ∧
      Carrying net name (addr w) (exec (receiveStep addr) net' [oldestRound v]) := by
  obtain ⟨m, interest, hflight, hdest, -⟩ := h.flight
  have hr : (oldestRound v).delivery addr net' = some (v, m, ⟨0, ⟨0, true, 0⟩⟩) := by
    rw [oldestRound, Receipt.delivery, hflight]
    exact if_pos hdest
  obtain ⟨-, hnode, ⟨-, -, -, hno⟩ | ⟨hforwards, -, b, hb, hnext⟩⟩ := h.step hr
  · exact absurd ⟨rfl, hop.1, by rw [hop.2]; exact Option.some_ne_none _⟩ hno
  · obtain rfl := Option.some.inj (hb.symm.trans hop.2)
    refine ⟨?_, hnext⟩
    rw [forwarders_cons, hforwards, if_pos rfl, hnode]
    rfl

/-- A run can follow any walk. -/
theorem exists_run_of_reflTransGen {v w : N} (hwalk : ReflTransGen (Hop addr net name) v w)
    (h : Carrying net name (addr v) net') :
    ∃ rs, Carrying net name (addr w) (exec (receiveStep addr) net' rs) := by
  induction hwalk with
  | refl => exact ⟨[], h⟩
  | @tail x _ _ hop ih =>
    obtain ⟨rs, hrs⟩ := ih
    refine ⟨rs ++ [oldestRound x], ?_⟩
    rw [exec_append]
    exact (hrs.hop hop).2

/-- On a walk with a hop the first node forwards. -/
theorem exists_run_of_transGen {v w : N} (hwalk : TransGen (Hop addr net name) v w)
    (h : Carrying net name (addr v) net') :
    ∃ rs, v ∈ forwarders addr net' rs ∧
      Carrying net name (addr w) (exec (receiveStep addr) net' rs) := by
  obtain ⟨x, hop, hrest⟩ := TransGen.head'_iff.mp hwalk
  obtain ⟨hone, hnext⟩ := h.hop hop
  obtain ⟨rs, hrs⟩ := exists_run_of_reflTransGen hrest hnext
  refine ⟨oldestRound v :: rs, ?_, hrs⟩
  rw [← List.singleton_append, forwarders_append, hone]
  exact List.mem_append_left _ (List.mem_singleton_self v)

/-- **No node forwards the Interest twice, in any run, exactly when** no node it can get to is on
a cycle of the forwarding tables. -/
theorem forwardsOnce_iff {m : Flying} {interest : PsirpInterest} (h : Injected net m interest) :
    (∀ rs, (forwarders addr net rs).Nodup) ↔
      ∀ u v, addr u = m.dest → ReflTransGen (Hop addr net interest.name) u v →
        ¬ TransGen (Hop addr net interest.name) v v := by
  constructor
  · intro honce u v hu huv hvv
    -- go to the cycle, and round it twice
    obtain ⟨rs₀, h₀⟩ := exists_run_of_reflTransGen huv (hu ▸ h.carrying)
    obtain ⟨rs₁, hv₁, h₁⟩ := exists_run_of_transGen hvv h₀
    obtain ⟨rs₂, hv₂, -⟩ := exists_run_of_transGen hvv h₁
    have hnodup := honce (rs₀ ++ (rs₁ ++ rs₂))
    rw [forwarders_append, forwarders_append] at hnodup
    exact (List.disjoint_of_nodup_append (List.nodup_append.mp hnodup).2.1) hv₁ hv₂
  · intro hacyclic rs
    have hstart : Wandering addr net interest.name m.dest [] net := h.wandering
    have hend := hstart.run rs
    rw [List.nil_append] at hend
    by_contra hdup
    obtain ⟨u, us, hus⟩ := List.exists_cons_of_ne_nil
      fun hnil : forwarders addr net rs = [] => hdup (hnil ▸ List.nodup_nil)
    rw [hus] at hend hdup
    obtain ⟨v, huv, hvv⟩ := exists_cycle_of_isChain hend.walk hdup
    exact hacyclic u v (hend.start u rfl) huv hvv

end Steps

/-- Two nodes that send everything under `/x` to each other, and an Interest for `false`. -/
def netLoop : Network Bool where
  node
    | true => { nodeX [] with fib := [⟨nameX, ⟨1, 1⟩, 1⟩] }
    | false => { nodeX [] with fib := [⟨nameX, ⟨2, 1⟩, 1⟩] }
  flight := [flyingX]

/-- The Interest, as it is decoded. -/
def interestX : PsirpInterest :=
  (psirpInterestDeserialize PsirpInterest.zero flyingX.payload).getD PsirpInterest.zero

theorem injected_netLoop : Injected netLoop flyingX interestX :=
  ⟨rfl, rfl, fun v => by cases v <;> rfl⟩

theorem forwardsOnce_iff_loop :
    (∀ rs, (forwarders addrX netLoop rs).Nodup) ↔
      ∀ u v, addrX u = flyingX.dest → ReflTransGen (Hop addrX netLoop interestX.name) u v →
        ¬ TransGen (Hop addrX netLoop interestX.name) v v :=
  forwardsOnce_iff injected_netLoop

/-- `false` forwards the Interest, gets it back from `true`, and forwards it again. -/
theorem not_forwardsOnce_loop : Injected netLoop flyingX interestX ∧
    ¬ ∀ rs, (forwarders addrX netLoop rs).Nodup := by
  refine ⟨injected_netLoop, fun honce => ?_⟩
  have htwice : forwarders addrX netLoop [oldestRound false, oldestRound true, oldestRound false] =
      [false, true, false] := by decide +kernel
  have hnodup := honce [oldestRound false, oldestRound true, oldestRound false]
  rw [htwice] at hnodup
  exact absurd hnodup (by decide)

end DsoBrowser
