import DsoBrowser.NextHop

/-!
# When a blocking fetch gives up

`psirp_net_fetch` waits while there is an active entry for the name in the pending table. Only an
Interest to a known peer adds one, under a name rebuilt from the components, and only while there
is room. So the fetch waits until its deadline exactly when there is an entry for the name already
or the Interest it sends leaves one (`waitsUntilDeadline_iff`).

* Receiving anything but Data for the name keeps an active entry (`stillPending_receive`).
* What the transmissions add is read off the table (`stillPending_fetchSend`).
-/

namespace DsoBrowser

/-! ## Waiting -/

/-- An Interest for the name is pending. -/
def stillPending (name : PsirpName) (node : PsirpNode) : Bool :=
  node.pending.any fun p => p.active && psirpNameEqual p.name name

/-- A datagram as the receiver thread gets it. -/
inductive Received where
  /-- on the node's own socket -/
  | unicast : PsirpPeer → List UInt8 → RecvEnv → Received
  /-- on the multicast socket -/
  | multicast : PsirpPeer → List UInt8 → Received

/-- What the receiver thread does with it. -/
def receive (node : PsirpNode) : Received → PsirpNode
  | .unicast src buf env => (recvUnicast node src buf env).1
  | .multicast src buf => recvMulticast node src buf

/-- It is Data for the name. -/
def Received.IsDataFor (name : PsirpName) : Received → Prop
  | .unicast _ buf _ => ∃ data, psirpDataDeserialize PsirpData.zero buf = some data ∧
      data.name.components = name.components
  | .multicast _ _ => False

/-- A poll of the waiting loop. -/
structure Poll where
  /-- the clock as the loop condition reads it -/
  now : UInt64
  /-- what was received since the last poll -/
  received : List Received
  /-- the clock as the lookup reads it -/
  lookupNow : UInt64

/-- The poll as a round of the fetch. -/
def Poll.round (p : Poll) : FetchRound := ⟨p.now, p.received.foldl receive, p.lookupNow⟩

/-- The polls are made until the loop ends, and the last lookup is made at `lastNow`: the readings
come from a clock that reads `t` before, and no Data for the name is received. -/
def QuietWait (name : PsirpName) (deadline lastNow : UInt64) :
    UInt64 → List Poll → PsirpNode → Prop
  | _, [], _ => False
  | t, p :: ps, node =>
    t ≤ p.now ∧
      if p.now < deadline then
        p.now ≤ p.lookupNow ∧ (∀ d ∈ p.received, ¬ d.IsDataFor name) ∧
          match (p.round.receive node).lookup name p.lookupNow with
          | (some _, _) => True
          | (none, node) =>
            if stillPending name node then QuietWait name deadline lastNow p.lookupNow ps node
            else p.lookupNow ≤ lastNow
      else p.now ≤ lastNow

/-- The datagrams a fetch sends: to the known peers, or to the multicast group if there are
none. -/
def fetchOut (node : PsirpNode) (name : PsirpName) (timeoutMs : UInt32) (send : Nat → SendEnv) :
    List Datagram :=
  (fetchSend name timeoutMs node.peers send node).2 ++
    if node.peers.length = 0 then (psirpNetMulticastInterest node name (send 0)).2 else []

/-- The deadline of a fetch that starts to wait at `startNow`. -/
def fetchDeadline (startNow : UInt64) (timeoutMs : UInt32) : UInt64 :=
  startNow + timeoutMs.toUInt64 * 1000000

/-- After a first lookup at `firstNow`, the fetch returns nothing before its deadline, as long as
no Data for the name comes. -/
def WaitsUntilDeadline (node : PsirpNode) (name : PsirpName) (timeoutMs : UInt32)
    (firstNow : UInt64) (send : Nat → SendEnv) : Prop :=
  ∀ startNow polls lastNow, firstNow ≤ startNow →
    QuietWait name (fetchDeadline startNow timeoutMs) lastNow startNow polls
      (fetchSend name timeoutMs node.peers send node).1 →
    (psirpNetFetch node name timeoutMs
      ⟨firstNow, send, startNow, polls.map Poll.round, lastNow⟩).1 = none →
    fetchDeadline startNow timeoutMs ≤ lastNow

/-! ## The pending table -/

/-- The entry made for a parsed name is for that name if the name is hashed over its own path. -/
theorem psirpNameEqual_rebuilt {name : PsirpName} (h : Parsed name) :
    psirpNameEqual (psirpNameInitComponents name.components).2 name = true ↔ name.SelfHashed := by
  rw [psirpNameInitComponents_of_plain h.wellFormed.plain name.count_le, psirpNameEqual_iff]
  exact ⟨fun heq => heq.1.symm, fun hself => ⟨Eq.symm hself, rfl⟩⟩

/-- **What one transmission adds** to the pending table. -/
theorem stillPending_psirpNetInterest {name : PsirpName} (h : Parsed name) (node : PsirpNode)
    (dest : PsirpPeer) (timeoutMs : UInt32) (env : SendEnv) :
    let sent := psirpNetInterest node name (some dest) timeoutMs env
    (stillPending name sent.2.1 = true ↔ stillPending name node = true ∨
      (name.SelfHashed ∧ node.pending.length < psirpMaxPending ∧ sent.2.2 ≠ [])) ∧
    node.pending.length ≤ sent.2.1.pending.length ∧
    (sent.2.2 = [] → sent.2.1.pending = node.pending) := by
  rcases psirpNetInterest_cases node name (some dest) timeoutMs env with
    ⟨hquiet, -⟩ | ⟨-, -, interest, dest', buf, rfl, -, -, hsent⟩
  · rw [hquiet]
    exact ⟨by simp, le_rfl, fun _ => rfl⟩
  · rw [hsent]
    refine ⟨?_, ?_, fun hout => absurd hout (List.cons_ne_nil _ _)⟩
    · rw [stillPending, trackPending]
      dsimp only
      split
      · rename_i hroom
        rw [List.any_append, Bool.or_eq_true, ← stillPending, List.any_cons, List.any_nil,
          Bool.or_false, Bool.true_and, psirpNameEqual_rebuilt h]
        exact or_congr_right ⟨fun hself => ⟨hself, hroom, List.cons_ne_nil _ _⟩, And.left⟩
      · rename_i hfull
        exact ⟨Or.inl, fun hor => hor.resolve_right fun hnew => hfull hnew.2.1⟩
    · rw [trackPending]
      dsimp only
      split
      · rw [List.length_append]
        exact Nat.le_add_right _ _
      · exact le_rfl

/-- **What the transmissions add**: an entry for the name, if it is hashed over its own path, there
is room, and one of them succeeds. -/
theorem stillPending_fetchSend {name : PsirpName} (h : Parsed name) (timeoutMs : UInt32)
    (ps : List PsirpPeer) :
    ∀ (send : Nat → SendEnv) (node : PsirpNode),
      stillPending name (fetchSend name timeoutMs ps send node).1 = true ↔
        stillPending name node = true ∨
          (name.SelfHashed ∧ node.pending.length < psirpMaxPending ∧
            (fetchSend name timeoutMs ps send node).2 ≠ []) := by
  induction ps with
  | nil =>
    intro send node
    simp [fetchSend]
  | cons p ps ih =>
    intro send node
    obtain ⟨hone, hlen, hsame⟩ := stillPending_psirpNetInterest h node p timeoutMs (send 0)
    rw [fetchSend]
    generalize psirpNetInterest node name (some p) timeoutMs (send 0) = sent at hone hlen hsame ⊢
    obtain ⟨nonce, node', out⟩ := sent
    dsimp only at hone hlen hsame ⊢
    rw [ih, hone]
    rcases eq_or_ne out [] with rfl | hout
    · rw [hsame rfl, List.nil_append, or_assoc]
      simp
    · constructor
      · rintro ((hold | ⟨hself, hroom, -⟩) | ⟨hself, hroom, -⟩)
        · exact Or.inl hold
        · exact Or.inr ⟨hself, hroom, List.append_ne_nil_of_left_ne_nil hout _⟩
        · exact Or.inr ⟨hself, lt_of_le_of_lt hlen hroom, List.append_ne_nil_of_left_ne_nil hout _⟩
      · rintro (hold | ⟨hself, hroom, -⟩)
        · exact Or.inl (Or.inl hold)
        · exact Or.inl (Or.inr ⟨hself, hroom, hout⟩)

/-- Settling another name keeps an active entry. -/
theorem any_settlePending {name other : PsirpName} (h : other.components ≠ name.components)
    (ps : List PsirpPending) :
    (settlePending other ps).any (fun p => p.active && psirpNameEqual p.name name) =
      ps.any fun p => p.active && psirpNameEqual p.name name := by
  induction ps with
  | nil => rfl
  | cons p ps ih =>
    rw [settlePending]
    split
    · rename_i hsettled
      rw [Bool.and_eq_true] at hsettled
      have hp : psirpNameEqual p.name name = false := by
        rw [Bool.eq_false_iff]
        exact fun hp => h ((psirpNameEqual_iff.mp hsettled.2).2.symm.trans
          (psirpNameEqual_iff.mp hp).2)
      rw [List.any_cons, List.any_cons, hp, Bool.and_false, Bool.and_false]
    · rw [List.any_cons, List.any_cons, ih]

/-- Tracking an Interest keeps an active entry. -/
theorem any_trackPending {name : PsirpName} {ps : List PsirpPending}
    (h : ps.any (fun p => p.active && psirpNameEqual p.name name) = true) (interest : PsirpInterest)
    (now : UInt64) :
    (trackPending ps interest now).any (fun p => p.active && psirpNameEqual p.name name) = true := by
  rw [trackPending]
  split
  · rw [List.any_append, h, Bool.true_or]
  · exact h

/-- **Step lemma.** Receiving anything but Data for the name keeps an active entry. -/
theorem stillPending_receive {name : PsirpName} {node : PsirpNode}
    (h : stillPending name node = true) {d : Received} (hd : ¬ d.IsDataFor name) :
    stillPending name (receive node d) = true := by
  cases d with
  | unicast src buf env =>
    rw [receive]
    rcases recvUnicast_cases node src buf env with
      ⟨interest, -, hrecv⟩ | ⟨data, hdec, hrecv⟩ | hrecv
    · rw [hrecv, stillPending]
      rcases recvInterest_pending node src interest env with hpending | ⟨sent, now, hpending⟩
      · rw [hpending]
        exact h
      · rw [hpending]
        exact any_trackPending h sent now
    · rw [hrecv]
      refine (any_settlePending (fun heq => hd ⟨data, hdec, heq⟩) node.pending).trans ?_
      exact h
    · rw [hrecv]
      exact h
  | multicast src buf =>
    rw [receive, recvMulticast, psirpNetAddPeer]
    split
    · split
      · exact h
      · split <;> exact h
    · exact h

theorem stillPending_foldl_receive {name : PsirpName} {ds : List Received}
    (hds : ∀ d ∈ ds, ¬ d.IsDataFor name) :
    ∀ {node : PsirpNode}, stillPending name node = true →
      stillPending name (ds.foldl receive node) = true := by
  induction ds with
  | nil => exact fun h => h
  | cons d ds ih =>
    intro node h
    exact ih (fun d' hd' => hds d' (List.mem_cons_of_mem _ hd'))
      (stillPending_receive h (hds d List.mem_cons_self))

/-! ## The loop -/

/-- A poll that misses goes on if an entry is active, and ends the loop otherwise. -/
theorem fetchWait_of_miss {name : PsirpName} {deadline : UInt64} {r : FetchRound}
    {node : PsirpNode} (hnow : r.now < deadline)
    (hmiss : lookupEntry (r.receive node).cs name r.lookupNow = none) (lastNow : UInt64)
    (rs : List FetchRound) :
    fetchWait name deadline lastNow (r :: rs) node =
      if stillPending name (r.receive node) then
        fetchWait name deadline lastNow rs (r.receive node)
      else (r.receive node).lookup name lastNow := by
  rw [fetchWait, if_pos hnow, PsirpNode.lookup_eq_none hmiss]
  rfl

/-- Without an active entry, a poll that receives nothing ends the loop. -/
theorem fetchWait_idle {name : PsirpName} {deadline now : UInt64} {node : PsirpNode}
    (hnow : now < deadline) (hmiss : lookupEntry node.cs name now = none)
    (hgone : ¬ stillPending name node = true) :
    QuietWait name deadline now now [⟨now, [], now⟩] node ∧
      (fetchWait name deadline now [(⟨now, [], now⟩ : Poll).round] node).1 = none := by
  constructor
  · refine ⟨UInt64.le_rfl, ?_⟩
    dsimp only
    rw [if_pos hnow]
    refine ⟨UInt64.le_rfl, fun d hd => absurd hd List.not_mem_nil, ?_⟩
    dsimp only [Poll.round, List.foldl_nil]
    rw [PsirpNode.lookup_eq_none hmiss]
    dsimp only
    rw [if_neg hgone]
    exact UInt64.le_rfl
  · dsimp only [Poll.round, List.foldl_nil]
    rw [fetchWait, if_pos hnow]
    dsimp only
    rw [PsirpNode.lookup_eq_none hmiss]
    dsimp only
    rw [← stillPending, if_neg hgone, PsirpNode.lookup_eq_none hmiss]

/-- **Run lemma.** While an entry is active, the loop ends with content or at the deadline. -/
theorem fetchWait_of_pending {name : PsirpName} {deadline lastNow : UInt64} {polls : List Poll} :
    ∀ {t : UInt64} {node : PsirpNode}, QuietWait name deadline lastNow t polls node →
      stillPending name node = true →
      (fetchWait name deadline lastNow (polls.map Poll.round) node).1 = none →
      deadline ≤ lastNow := by
  induction polls with
  | nil => exact fun h => absurd h not_false
  | cons p ps ih =>
    intro t node hwait hpending hnone
    rw [List.map_cons] at hnone
    rw [QuietWait] at hwait
    obtain ⟨-, hwait⟩ := hwait
    by_cases hnow : p.now < deadline
    · rw [if_pos hnow] at hwait
      have hround : p.round.now < deadline := hnow
      obtain ⟨-, hquiet, hwait⟩ := hwait
      have hpending' : stillPending name (p.round.receive node) = true :=
        stillPending_foldl_receive hquiet hpending
      rcases hentry : lookupEntry (p.round.receive node).cs name p.lookupNow with _ | entry
      · rw [fetchWait_of_miss hround hentry, if_pos hpending'] at hnone
        rw [PsirpNode.lookup_eq_none hentry] at hwait
        dsimp only at hwait
        rw [if_pos hpending'] at hwait
        exact ih hwait hpending' hnone
      · have hentry' : lookupEntry (p.round.receive node).cs name p.round.lookupNow = some entry :=
          hentry
        rw [fetchWait, if_pos hround, PsirpNode.lookup, hentry'] at hnone
        cases hnone
    · rw [if_neg hnow] at hwait
      exact UInt64.le_trans (UInt64.not_lt.mp hnow) hwait

/-- A fetch that misses its first lookup sends, and then waits. -/
theorem psirpNetFetch_of_miss {node : PsirpNode} {name : PsirpName} {firstNow : UInt64}
    (h : lookupEntry node.cs name firstNow = none) (timeoutMs : UInt32) (send : Nat → SendEnv)
    (startNow : UInt64) (rounds : List FetchRound) (lastNow : UInt64) :
    let fetched := psirpNetFetch node name timeoutMs ⟨firstNow, send, startNow, rounds, lastNow⟩
    fetched.1 = (fetchWait name (fetchDeadline startNow timeoutMs) lastNow rounds
        (fetchSend name timeoutMs node.peers send node).1).1 ∧
      fetched.2.2 = fetchOut node name timeoutMs send := by
  rw [psirpNetFetch, PsirpNode.lookup_eq_none h]
  refine ⟨rfl, ?_⟩
  rw [fetchOut]
  dsimp only
  rcases node.peers with _ | ⟨p, ps⟩
  · rfl
  · simp

/-- A deadline that is not after the clock stays so as the clock goes on: the timeout is zero, or
the sum has wrapped around. -/
theorem fetchDeadline_le {firstNow startNow : UInt64} {timeoutMs : UInt32}
    (h : fetchDeadline firstNow timeoutMs ≤ firstNow) (hstart : firstNow ≤ startNow) :
    fetchDeadline startNow timeoutMs ≤ startNow := by
  rw [fetchDeadline, UInt64.le_iff_toNat_le, UInt64.toNat_add, UInt64.toNat_mul,
    UInt32.toNat_toUInt64] at h ⊢
  rw [UInt64.le_iff_toNat_le] at hstart
  have hnanos : (1000000 : UInt64).toNat = 1000000 := rfl
  rw [hnanos] at h ⊢
  have htimeout := timeoutMs.toNat_lt
  have hclock := startNow.toNat_lt
  omega

/-- **When a fetch waits.** A fetch that sends an Interest waits until its deadline if and only if
the deadline is not after the clock to begin with, an Interest for the name is pending already, or
the Interest goes to a known peer, with room in the pending table and the name hashed over its own
path. -/
theorem waitsUntilDeadline_iff (node : PsirpNode) {name : PsirpName} (hname : Parsed name)
    (timeoutMs : UInt32) (firstNow : UInt64) (send : Nat → SendEnv)
    (hmiss : lookupEntry node.cs name firstNow = none)
    (hsent : fetchOut node name timeoutMs send ≠ []) :
    WaitsUntilDeadline node name timeoutMs firstNow send ↔
      fetchDeadline firstNow timeoutMs ≤ firstNow ∨ stillPending name node = true ∨
        (node.peers ≠ [] ∧ name.SelfHashed ∧ node.pending.length < psirpMaxPending) := by
  have hpending := stillPending_fetchSend hname timeoutMs node.peers send node
  rw [WaitsUntilDeadline]
  constructor
  · intro hwaits
    by_contra hcon
    obtain ⟨hdeadline, hold, hnew⟩ := not_or.mp hcon |>.imp_right not_or.mp
    have hgone : ¬ stillPending name (fetchSend name timeoutMs node.peers send node).1 = true := by
      intro hstill
      obtain hstill | ⟨hself, hroom, hout⟩ := hpending.mp hstill
      · exact hold hstill
      · refine hnew ⟨fun hpeers => hout ?_, hself, hroom⟩
        rw [hpeers, fetchSend]
    have hmiss' : lookupEntry (fetchSend name timeoutMs node.peers send node).1.cs name firstNow =
        none := by
      rw [(fetchSend_node _ _ _ _ _).1, hmiss]
    obtain ⟨hquiet, hnone⟩ := fetchWait_idle (UInt64.not_le.mp hdeadline) hmiss' hgone
    refine hdeadline (hwaits firstNow [⟨firstNow, [], firstNow⟩] firstNow UInt64.le_rfl hquiet ?_)
    exact (psirpNetFetch_of_miss hmiss timeoutMs send firstNow _ firstNow).1.trans hnone
  · intro hcond startNow polls lastNow hstart hquiet hnone
    rw [(psirpNetFetch_of_miss hmiss timeoutMs send startNow _ lastNow).1] at hnone
    obtain hdeadline | hcond := hcond
    · -- the first poll ends the loop
      have hover := fetchDeadline_le hdeadline hstart
      cases polls with
      | nil => exact absurd hquiet not_false
      | cons p ps =>
        obtain ⟨hnow, hend⟩ := hquiet
        have hover' := UInt64.le_trans hover hnow
        rw [if_neg (UInt64.not_lt.mpr hover')] at hend
        exact UInt64.le_trans hover' hend
    · refine fetchWait_of_pending hquiet (hpending.mpr ?_) hnone
      refine hcond.imp_right ?_
      rintro ⟨hpeers, hself, hroom⟩
      refine ⟨hself, hroom, fun hout => hsent ?_⟩
      rw [fetchOut, hout, if_neg (fun hlen => hpeers (List.length_eq_zero_iff.mp hlen)),
        List.nil_append]

/-- A node with a known peer waits for `/x`. -/
theorem waitsUntilDeadline_iff_x :
    WaitsUntilDeadline (nodeX [⟨1, 1⟩]) nameX 1000 0 (fun _ => ⟨7, true, 0⟩) ↔
      fetchDeadline 0 1000 ≤ 0 ∨ stillPending nameX (nodeX [⟨1, 1⟩]) = true ∨
        ((nodeX [⟨1, 1⟩]).peers ≠ [] ∧ nameX.SelfHashed ∧
          (nodeX [⟨1, 1⟩]).pending.length < psirpMaxPending) :=
  waitsUntilDeadline_iff (nodeX [⟨1, 1⟩]) ⟨text ['/', 'x'], by decide⟩ 1000 0 (fun _ => ⟨7, true, 0⟩)
    rfl (by decide +kernel)

/-- Without a known peer the Interest goes to the multicast group, and the fetch does not wait: the
first poll ends it at once, with a second left. -/
theorem not_waitsUntilDeadline_multicast :
    fetchOut { nodeX [] with hasMcast := true } nameX 1000 (fun _ => ⟨7, true, 0⟩) ≠ [] ∧
      ¬ WaitsUntilDeadline { nodeX [] with hasMcast := true } nameX 1000 0
        (fun _ => ⟨7, true, 0⟩) := by
  refine ⟨by decide +kernel, fun hwaits => ?_⟩
  have hnow : (0 : UInt64) < fetchDeadline 0 1000 := by decide
  have hmiss : lookupEntry ({ nodeX [] with hasMcast := true } : PsirpNode).cs nameX 0 = none := rfl
  obtain ⟨hquiet, hnone⟩ := fetchWait_idle hnow hmiss Bool.false_ne_true
  exact absurd (hwaits 0 [⟨0, [], 0⟩] 0 UInt64.le_rfl hquiet hnone) (UInt64.not_le.mpr hnow)

end DsoBrowser
