import DsoBrowser.Network

/-!
# How long content lives in the network

A node gives content it receives the clock of its own store as timestamp, with the whole freshness
period again. So a copy outlives the original by as much as it is younger, and a copy of a copy by
more. Content dies in time where every copy is stored as soon as it was published
(`answeredInTime_of_promptCopies`); a copy stored later outlives it (`exists_live_after_lastNow`).
The invariant is `Fresh`, which is about every store and every datagram in flight.
-/

namespace DsoBrowser

open Machine

universe u

/-! ## The network with its applications -/

/-- What happens at a node. -/
inductive NetInput (N : Type u) where
  /-- the application publishes content -/
  | publish : N → PsirpName → List UInt8 → UInt32 → PublishEnv → NetInput N
  /-- the application calls the content store -/
  | call : N → CsOp → NetInput N
  /-- the application sends an Interest -/
  | interest : N → PsirpName → Option PsirpPeer → UInt32 → SendEnv → NetInput N
  /-- a round of the receive loop -/
  | receive : Receipt N → NetInput N

/-- The clock readings of a call, in order. -/
def CsOp.readings : CsOp → List UInt64
  | .store _ _ _ now => [now]
  | .lookup _ now => [now]
  | .gc now => [now]
  | _ => []

/-- The clock readings of a step, in order. -/
def NetInput.readings {N : Type u} : NetInput N → List UInt64
  | .publish _ _ _ _ env => [env.now, env.stampNow]
  | .call _ op => op.readings
  | .interest _ _ _ _ env => [env.now]
  | .receive (.unicast _ _ env) => [env.now, env.send.now]
  | .receive (.multicast _ _ _) => []

/-- All nodes read one clock that never goes back. -/
def Clocked {N : Type u} (is : List (NetInput N)) : Prop :=
  (is.flatMap NetInput.readings).Pairwise (· ≤ ·)

instance {N : Type u} (is : List (NetInput N)) : Decidable (Clocked is) :=
  inferInstanceAs (Decidable (List.Pairwise _ _))

section Steps

variable {N : Type u} {addr : N → PsirpPeer}

variable [DecidableEq N]

variable (addr) in
/-- Node `v` changes to `node` and sends `out`. -/
def Network.act (net : Network N) (v : N) (node : PsirpNode) (out : List Datagram) :
    Sent N × Network N :=
  (⟨v, out⟩, {
    node := Function.update net.node v node
    flight := net.flight ++ out.map fun d => ⟨addr v, d.dest, d.payload⟩ })

variable (addr) in
/-- One step of one node. -/
def netStep (net : Network N) : NetInput N → Sent N × Network N
  | .publish v name data freshnessMs env =>
    let (_, node, out) := psirpNetPublish (net.node v) name data freshnessMs env
    net.act addr v node out
  | .call v op => net.act addr v { net.node v with cs := (csStep (net.node v).cs op).2 } []
  | .interest v name peer timeoutMs env =>
    let (_, node, out) := psirpNetInterest (net.node v) name peer timeoutMs env
    net.act addr v node out
  | .receive r => receiveStep addr net r

end Steps

/-! ## Content -/

/-- Content as it was published. -/
structure Published where
  /-- the components of its name -/
  components : List CString
  /-- its bytes -/
  data : List UInt8
  /-- its validity period -/
  freshnessMs : UInt32
  /-- the clock as the publisher's store read it -/
  now : UInt64

/-- The last reading of the clock at which it may be answered: its validity period and a
millisecond of rounding after it was published. -/
def Published.lastNow (p : Published) : Nat := p.now.toNat + (p.freshnessMs.toNat + 1) * 1000000

/-- It is that content. -/
def Published.Is (p : Published) (components : List CString) (data : List UInt8) : Prop :=
  components = p.components ∧ data = p.data

section Content

variable {N : Type u} {addr : N → PsirpPeer}

/-- The step publishes the content, or stores it. -/
def NetInput.Stores (p : Published) : NetInput N → Prop
  | .publish _ name data _ _ => p.Is name.components data
  | .call _ (.store name data _ _) => p.Is name.components data
  | _ => False

/-- The step names what it stores by a name as the constructors build them. -/
def NetInput.PlainNames : NetInput N → Prop
  | .publish _ name _ _ _ => ∀ c ∈ name.components, PlainComponent c
  | .call _ (.store name _ _ _) => ∀ c ∈ name.components, PlainComponent c
  | _ => True

/-- The content is published at `p.now`, and never again. -/
def PublishedOnce (p : Published) (is : List (NetInput N)) : Prop :=
  ∃ before v name env after,
    is = before ++ .publish v name p.data p.freshnessMs env :: after ∧
      name.components = p.components ∧ env.now = p.now ∧
      ∀ i ∈ before ++ after, ¬ i.Stores p

variable [DecidableEq N]

variable (addr) in
/-- In the step, a node answers an Interest or a lookup with the content, when the clock reads
`now`. -/
def AnswersAt (p : Published) (now : UInt64) (net : Network N) : NetInput N → Prop
  | .call v (.lookup name t) => t = now ∧
      ∃ e, lookupEntry (net.node v).cs name t = some e ∧ p.Is e.name.components e.data
  | .receive (.unicast v i env) => env.now = now ∧
      ∃ dg ∈ (receiveStep addr net (.unicast v i env)).1.out,
        ∃ data, dg.packet = .data data ∧ p.Is data.name.components data.data
  | _ => False

variable (addr) in
omit [DecidableEq N] in
/-- In the step, a node receives the content and stores it, when the clock reads `now`. -/
def StoresCopyAt (p : Published) (now : UInt64) (net : Network N) : NetInput N → Prop
  | .receive r => ∃ v m env data, r.delivery addr net = some (v, m, env) ∧ env.now = now ∧
      psirpDataDeserialize PsirpData.zero m.payload = some data ∧
      p.Is data.name.components data.data ∧
      (psirpCsStore (net.node v).cs data.name data.data data.freshnessMs env.now).1 = true
  | _ => False

end Content

/-! ## The invariant -/

/-- An entry under a plain name that, if it is the content, was stamped no later than a nanosecond
after it was published. -/
structure PromptEntry (p : Published) (e : PsirpCsEntry) : Prop where
  /-- a decoder gives the name back -/
  plain : ∀ c ∈ e.name.components, PlainComponent c
  /-- its size is in range -/
  storable : Storable e.data
  /-- the content keeps its validity period -/
  prompt : p.Is e.name.components e.data →
    e.freshnessMs = p.freshnessMs ∧ e.timestamp.toNat ≤ p.now.toNat + 1

/-- A datagram that, if it is the content, has its validity period. -/
def PromptFlying (p : Published) (payload : List UInt8) : Prop :=
  ∀ data, psirpDataDeserialize PsirpData.zero payload = some data →
    (∀ c ∈ data.name.components, PlainComponent c) ∧
      (p.Is data.name.components data.data → data.freshnessMs = p.freshnessMs)

/-- Every entry and every datagram in flight is so. -/
structure Fresh {N : Type u} (p : Published) (net : Network N) : Prop where
  /-- in every store -/
  stores : ∀ v, EveryEntry (PromptEntry p) (net.node v).cs
  /-- in flight -/
  flight : ∀ m ∈ net.flight, PromptFlying p m.payload

section Invariant

variable {p : Published}

/-- A live entry of the content is answered in time. -/
theorem PromptEntry.le_lastNow {e : PsirpCsEntry} (h : PromptEntry p e)
    (hp : p.Is e.name.components e.data) (hfresh : p.freshnessMs ≠ 0) {now : UInt64}
    (hlive : entryExpired e now = false) : now.toNat ≤ p.lastNow := by
  obtain ⟨hperiod, hstamp⟩ := h.prompt hp
  rw [entryExpired, hperiod, if_neg hfresh, decide_eq_false_iff_not, UInt64.lt_iff_toNat_lt,
    UInt32.toNat_toUInt64, UInt64.toNat_div, UInt64.toNat_sub] at hlive
  have hmillis : (1000000 : UInt64).toNat = 1000000 := rfl
  rw [hmillis] at hlive
  have hnow := now.toNat_lt
  have htime := e.timestamp.toNat_lt
  rw [Published.lastNow]
  omega

/-- **A copy stamped later outlives the content**: there is a time after the last one at which the
content may be answered, when the copy is still live. -/
theorem exists_live_after_lastNow {e : PsirpCsEntry} (hperiod : e.freshnessMs = p.freshnessMs)
    (hlate : p.now.toNat + 1 < e.timestamp.toNat)
    (hclock : e.timestamp.toNat + (p.freshnessMs.toNat + 1) * 1000000 ≤ UInt64.size) :
    ∃ now : UInt64, p.lastNow < now.toNat ∧ entryExpired e now = false := by
  -- the last nanosecond of its last millisecond
  obtain ⟨t, ht⟩ : ∃ t : UInt64,
      t.toNat = e.timestamp.toNat + (p.freshnessMs.toNat + 1) * 1000000 - 1 :=
    ⟨UInt64.ofNat _, UInt64.toNat_ofNat_of_lt (by omega)⟩
  refine ⟨t, ?_, ?_⟩
  · rw [Published.lastNow]
    omega
  · rw [entryExpired, hperiod]
    split
    · rfl
    · have hle : e.timestamp ≤ t := by
        rw [UInt64.le_iff_toNat_le]
        omega
      have hmillis : (1000000 : UInt64).toNat = 1000000 := rfl
      rw [decide_eq_false_iff_not, UInt64.lt_iff_toNat_lt, UInt32.toNat_toUInt64,
        UInt64.toNat_div, UInt64.toNat_sub_of_le _ _ hle, hmillis]
      omega

section Stored

variable {name : PsirpName} {data : List UInt8} {freshnessMs : UInt32} {now : UInt64}
  (hd : Storable data)
  (hp : p.Is name.components data →
    freshnessMs = p.freshnessMs ∧ now.toNat ≤ p.now.toNat + 1)

include hd hp

/-- A new entry is so, if it is not the content or is stamped in time. -/
theorem promptEntry_newEntry (hname : ∀ c ∈ name.components, PlainComponent c) :
    PromptEntry p (newEntry name data freshnessMs now) := by
  have hcomps : (newEntry name data freshnessMs now).name.components = name.components := by
    rw [newEntry, entryName_of_plain hname]
  exact ⟨hcomps ▸ hname, hd, fun his => hp (hcomps ▸ his)⟩

/-- So is one that is overwritten. -/
theorem PromptEntry.overwrite {e : PsirpCsEntry} (h : PromptEntry p e)
    (heq : psirpNameEqual e.name name = true) :
    PromptEntry p (overwrite data freshnessMs now e) := by
  have hcomps := (psirpNameEqual_iff.mp heq).2
  exact ⟨h.plain, hd, fun his => hp (hcomps ▸ his)⟩

end Stored

theorem PromptEntry.touch {e : PsirpCsEntry} (h : PromptEntry p e) (now : UInt64) :
    PromptEntry p (touch now e) := ⟨h.plain, h.storable, h.prompt⟩

/-- **Storing** keeps the invariant, if what is stored is not the content or is stamped in
time. -/
theorem everyEntry_psirpCsStore {cs : PsirpCs} (h : EveryEntry (PromptEntry p) cs)
    {name : PsirpName} (hname : ∀ c ∈ name.components, PlainComponent c) {data : List UInt8}
    {freshnessMs : UInt32} {now : UInt64}
    (hp : p.Is name.components data →
      freshnessMs = p.freshnessMs ∧ now.toNat ≤ p.now.toNat + 1) :
    EveryEntry (PromptEntry p) (psirpCsStore cs name data freshnessMs now).2 :=
  h.store (fun hd => promptEntry_newEntry hd hp hname) fun _ hd heq he => he.overwrite hd hp heq

/-- A Data packet comes back as it was sent. -/
theorem promptFlying_of_data {pkt : PsirpData} {bufLen : Nat} {buf : List UInt8}
    (hser : psirpDataSerialize pkt bufLen = some buf)
    (hname : ∀ c ∈ pkt.name.components, PlainComponent c) (hdata : Storable pkt.data)
    (hp : p.Is pkt.name.components pkt.data → pkt.freshnessMs = p.freshnessMs) :
    PromptFlying p buf := by
  intro data hde
  rw [psirpDataDeserialize_eq hser (lt_of_le_of_lt hdata.2 (by decide))] at hde
  obtain rfl := Option.some.inj hde
  exact ⟨hname, hp⟩

/-- An Interest is no Data packet. -/
theorem promptFlying_of_interest {interest : PsirpInterest} {bufLen : Nat} {buf : List UInt8}
    (hser : psirpInterestSerialize interest bufLen = some buf) : PromptFlying p buf :=
  fun _ hdata =>
    (not_interest_and_data (psirpInterestDeserialize_eq hser PsirpInterest.zero) hdata).elim

end Invariant

/-! ## Steps -/

section Runs

variable {N : Type u} {addr : N → PsirpPeer} {p : Published}

variable [DecidableEq N]

/-- A node that keeps the invariant and sends no stale content keeps it for the network. -/
theorem Fresh.act {net : Network N} (h : Fresh p net) (v : N) {node : PsirpNode}
    {out : List Datagram} (hnode : EveryEntry (PromptEntry p) node.cs)
    (hout : ∀ dg ∈ out, PromptFlying p dg.payload) : Fresh p (net.act addr v node out).2 where
  stores w := by
    rw [Network.act]
    dsimp only
    rcases eq_or_ne w v with rfl | hw
    · rwa [Function.update_self]
    · rw [Function.update_of_ne hw]
      exact h.stores w
  flight m hm := by
    rcases List.mem_append.mp hm with hm | hm
    · exact h.flight m hm
    · obtain ⟨dg, hdg, rfl⟩ := List.mem_map.mp hm
      exact hout dg hdg

/-- Publishing keeps the invariant. -/
theorem Fresh.publish {net : Network N} (h : Fresh p net) (v : N) {name : PsirpName}
    (hname : ∀ c ∈ name.components, PlainComponent c) {data : List UInt8} {freshnessMs : UInt32}
    {env : PublishEnv}
    (hp : p.Is name.components data →
      freshnessMs = p.freshnessMs ∧ env.now.toNat ≤ p.now.toNat + 1) :
    Fresh p (netStep addr net (.publish v name data freshnessMs env)).2 := by
  obtain ⟨hok, hcs, hout⟩ := psirpNetPublish_spec (net.node v) name data freshnessMs env
  have hstep : netStep addr net (.publish v name data freshnessMs env) =
      net.act addr v (psirpNetPublish (net.node v) name data freshnessMs env).2.1
        (psirpNetPublish (net.node v) name data freshnessMs env).2.2 := rfl
  rw [hstep]
  refine h.act v ?_ fun dg hdg => ?_
  · rw [hcs]
    exact everyEntry_psirpCsStore (h.stores v) hname hp
  · obtain ⟨hpublished, hser⟩ := hout dg hdg
    have hstored := storable_of_psirpCsStore (Prod.ext (hok.symm.trans hpublished) rfl)
    exact promptFlying_of_data hser hname hstored fun his => (hp his).1

/-- A call of the store keeps the invariant, if it does not store the content. -/
theorem Fresh.call {net : Network N} (h : Fresh p net) (v : N) {op : CsOp}
    (hname : (NetInput.call v op).PlainNames) (hstores : ¬ (NetInput.call v op).Stores p) :
    Fresh p (netStep addr net (.call v op)).2 := by
  refine h.act v ?_ fun dg hdg => absurd hdg List.not_mem_nil
  refine csStep_forall ?_ ?_ (fun now e he => he.touch now) (h.stores v)
  · rintro n d f now rfl hd
    exact promptEntry_newEntry hd (fun his => absurd his hstores) hname
  · rintro n d f now e rfl hd heq he
    exact he.overwrite hd (fun his => absurd his hstores) heq

omit [DecidableEq N] in
/-- **What a node does with a datagram in flight** keeps the invariant, if it does not store the
content late. -/
theorem Fresh.recvUnicast {net : Network N} (h : Fresh p net) (v : N) {m : Flying}
    (hm : m ∈ net.flight) {env : RecvEnv}
    (hprompt : ∀ data, psirpDataDeserialize PsirpData.zero m.payload = some data →
      p.Is data.name.components data.data →
      (psirpCsStore (net.node v).cs data.name data.data data.freshnessMs env.now).1 = true →
      env.now.toNat ≤ p.now.toNat + 1) :
    EveryEntry (PromptEntry p) (recvUnicast (net.node v) m.src m.payload env).1.cs ∧
      ∀ dg ∈ (recvUnicast (net.node v) m.src m.payload env).2, PromptFlying p dg.payload := by
  rcases recvUnicast_cases (net.node v) m.src m.payload env with
    ⟨interest, -, hrecv⟩ | ⟨data, hdec, hrecv⟩ | hrecv
  · rw [hrecv, (recvInterest_node (net.node v) m.src interest env).1]
    refine ⟨(h.stores v).lookup fun e he => he.touch env.now, fun dg hdg => ?_⟩
    rcases recvInterest_cases (net.node v) m.src interest env with
      ⟨entry, hentry, hout⟩ | ⟨-, -, hout⟩ | ⟨fwd, -, -, hout⟩
    · -- the reply has the freshness of the entry
      rw [hout, mem_psirpNetData] at hdg
      obtain ⟨-, buf, hser, rfl⟩ := hdg
      obtain ⟨e, he, rfl, -⟩ := live_of_lookupEntry hentry
      have hkept := h.stores v e he
      exact promptFlying_of_data hser hkept.plain hkept.storable fun his => (hkept.prompt his).1
    · rw [hout] at hdg
      cases hdg
    · rw [hout] at hdg
      obtain ⟨sent, -, hser⟩ := payload_psirpNetInterest hdg
      exact promptFlying_of_interest hser
  · rw [hrecv]
    refine ⟨?_, fun dg hdg => absurd hdg List.not_mem_nil⟩
    obtain ⟨hname, hfresh⟩ := h.flight m hm data hdec
    rw [recvData]
    dsimp only
    cases hstored : (psirpCsStore (net.node v).cs data.name data.data data.freshnessMs
        env.now).1 with
    | true =>
      exact everyEntry_psirpCsStore (h.stores v) hname fun his =>
        ⟨hfresh his, hprompt data hdec his hstored⟩
    | false =>
      rw [psirpCsStore_of_refused hstored]
      exact h.stores v
  · rw [hrecv]
    exact ⟨h.stores v, fun dg hdg => absurd hdg List.not_mem_nil⟩

/-- A round of the receive loop keeps the invariant, if no copy is stored late. -/
theorem Fresh.receive {net : Network N} (h : Fresh p net) {r : Receipt N}
    (hprompt : ∀ now, StoresCopyAt addr p now net (.receive r) → now.toNat ≤ p.now.toNat + 1) :
    Fresh p (receiveStep addr net r).2 := by
  rcases hr : r.delivery addr net with _ | ⟨v, m, env⟩
  · obtain ⟨-, hflight, hnodes⟩ := receiveStep_of_no_delivery hr
    refine ⟨fun v => ?_, fun m hm => h.flight m (hflight ▸ hm)⟩
    rw [(hnodes v).1]
    exact h.stores v
  · obtain ⟨i, hm, -, hnet⟩ := receiveStep_of_delivery hr
    have hm : m ∈ net.flight := List.mem_of_getElem? hm
    obtain ⟨hnode, hout⟩ := h.recvUnicast v hm fun data hdec his hstored =>
      hprompt env.now ⟨v, m, env, data, hr, rfl, hdec, his, hstored⟩
    rw [hnet]
    refine ⟨fun w => ?_, fun m' hm' => ?_⟩
    · dsimp only
      rcases eq_or_ne w v with rfl | hw
      · rw [Function.update_self]
        exact hnode
      · rw [Function.update_of_ne hw]
        exact h.stores w
    · rcases List.mem_append.mp hm' with hm' | hm'
      · exact h.flight m' (List.mem_of_mem_eraseIdx hm')
      · obtain ⟨dg, hdg, rfl⟩ := List.mem_map.mp hm'
        exact hout dg hdg

/-- **Step lemma.** A step keeps the invariant, if it stores the content only by publishing it at
`p.now`, and stores no copy late. -/
theorem Fresh.step {net : Network N} (h : Fresh p net) {i : NetInput N} (hname : i.PlainNames)
    (honce : i.Stores p →
      ∃ v name env, i = .publish v name p.data p.freshnessMs env ∧ env.now = p.now)
    (hprompt : ∀ now, StoresCopyAt addr p now net i → now.toNat ≤ p.now.toNat + 1) :
    Fresh p (netStep addr net i).2 := by
  cases i with
  | publish v name data freshnessMs env =>
    refine h.publish v hname fun his => ?_
    obtain ⟨v', name', env', heq, hnow⟩ := honce his
    cases heq
    rw [hnow]
    exact ⟨rfl, Nat.le_succ _⟩
  | call v op =>
    refine h.call v hname fun hstores => ?_
    obtain ⟨v', name', env', heq, -⟩ := honce hstores
    cases heq
  | interest v name peer timeoutMs env =>
    have hstep : netStep addr net (.interest v name peer timeoutMs env) =
        net.act addr v (psirpNetInterest (net.node v) name peer timeoutMs env).2.1
          (psirpNetInterest (net.node v) name peer timeoutMs env).2.2 := rfl
    rw [hstep]
    refine h.act v ?_ fun dg hdg => ?_
    · rw [(psirpNetInterest_node (net.node v) name peer timeoutMs env).1]
      exact h.stores v
    · obtain ⟨sent, -, hser⟩ := payload_psirpNetInterest hdg
      exact promptFlying_of_interest hser
  | receive r => exact h.receive hprompt

/-- While the invariant holds, the content is answered in time. -/
theorem Fresh.le_lastNow {net : Network N} (h : Fresh p net) (hfresh : p.freshnessMs ≠ 0)
    {now : UInt64} {i : NetInput N} (hanswers : AnswersAt addr p now net i) :
    now.toNat ≤ p.lastNow := by
  -- any entry found that is the content has not expired
  have hfound : ∀ {v name e}, lookupEntry (net.node v).cs name now = some e →
      p.Is e.name.components e.data → now.toNat ≤ p.lastNow := by
    intro v name e he his
    obtain ⟨e₀, he₀, rfl, hlive⟩ := live_of_lookupEntry he
    exact (h.stores v e₀ he₀).le_lastNow his hfresh hlive
  cases i with
  | publish v name data freshnessMs env => cases hanswers
  | interest v name peer timeoutMs env => cases hanswers
  | call v op =>
    cases op with
    | lookup name t =>
      obtain ⟨rfl, e, he, his⟩ := hanswers
      exact hfound he his
    | _ => cases hanswers
  | receive r =>
    cases r with
    | multicast v src buf => cases hanswers
    | unicast v i env =>
      obtain ⟨rfl, dg, hdg, data, hdata, his⟩ := hanswers
      rcases hr : Receipt.delivery addr net (.unicast v i env) with _ | ⟨w, m, env'⟩
      · rw [(receiveStep_of_no_delivery hr).1] at hdg
        cases hdg
      · obtain ⟨_, heq, -⟩ := delivery_eq_some hr
        cases heq
        obtain ⟨-, -, hsent, -⟩ := receiveStep_of_delivery hr
        rw [hsent] at hdg
        obtain ⟨interest, -, hdg⟩ := mem_recvUnicast_iff.mp hdg
        obtain ⟨entry, hentry, rfl, -⟩ := (data_mem_recvInterest_iff hdata).mp hdg
        exact hfound hentry his

/-- **Content is answered in time** in every run from empty stores that publishes it once and in
which no node stores a copy of it later than a nanosecond after that. -/
theorem answeredInTime_of_promptCopies {net : Network N}
    (hstores : ∀ v, (net.node v).cs = psirpCsInit) (hflight : net.flight = [])
    (hfresh : p.freshnessMs ≠ 0) {is : List (NetInput N)} (honce : PublishedOnce p is)
    (hplain : ∀ i ∈ is, i.PlainNames)
    (hprompt : Along (netStep addr)
      (fun net i => ∀ now, StoresCopyAt addr p now net i → now.toNat ≤ p.now.toNat + 1) net is) :
    Along (netStep addr)
      (fun net i => ∀ now, AnswersAt addr p now net i → now.toNat ≤ p.lastNow) net is := by
  have hstart : Fresh p net := by
    refine ⟨fun v e he => ?_, fun m hm => ?_⟩
    · rw [hstores v] at he
      cases he
    · rw [hflight] at hm
      cases hm
  -- what stores the content is the step that publishes it
  have hinputs : ∀ i ∈ is, i.PlainNames ∧ (i.Stores p →
      ∃ v name env, i = .publish v name p.data p.freshnessMs env ∧ env.now = p.now) := by
    obtain ⟨before, v, name, env, after, rfl, -, hnow, hrest⟩ := honce
    intro i hi
    refine ⟨hplain i hi, fun hi' => ?_⟩
    rcases List.mem_append.mp hi with hmem | hmem
    · exact absurd hi' (hrest i (List.mem_append_left _ hmem))
    · rcases List.mem_cons.mp hmem with rfl | hmem
      · exact ⟨v, name, env, rfl, hnow⟩
      · exact absurd hi' (hrest i (List.mem_append_right _ hmem))
  refine along_of_inv (fun net i hI hP => hI.step hP.1.1 hP.1.2 hP.2) ?_ hstart
    ((along_input.mpr hinputs).and hprompt)
  exact fun net i hI hP now hanswers => hI.le_lastNow hfresh hanswers

end Runs

/-- `/x`, published at `1:1` for a millisecond when the clock reads zero. -/
def publishedX : Published := ⟨nameX.components, [7], 1, 0⟩

/-- Node `1:1` knows node `2:1`. -/
def netFresh : Network Bool where
  node
    | true => nodeX []
    | false => nodeX [⟨2, 1⟩]
  flight := []

/-- `1:1` publishes, `2:1` receives what is sent at `t`, and is asked for it at `t'`. -/
def copyRun (t t' : UInt64) : List (NetInput Bool) :=
  [.publish false nameX [7] 1 ⟨0, 0, fun _ => true⟩,
    .receive (.unicast true 0 ⟨t, ⟨0, true, t⟩⟩), .call true (.lookup nameX t')]

theorem publishedOnce_copyRun (t t' : UInt64) : PublishedOnce publishedX (copyRun t t') := by
  refine ⟨[], false, nameX, ⟨0, 0, fun _ => true⟩, _, rfl, rfl, rfl, ?_⟩
  intro i hi hstores
  rw [List.nil_append] at hi
  obtain rfl | hi := List.mem_cons.mp hi
  · exact hstores
  · obtain rfl := List.mem_singleton.mp hi
    exact hstores

theorem stores_netFresh (v : Bool) : (netFresh.node v).cs = psirpCsInit := by
  cases v <;> rfl

theorem plainNames_copyRun (t t' : UInt64) : ∀ i ∈ copyRun t t', i.PlainNames := by
  have hname : Parsed nameX := ⟨text ['/', 'x'], by decide⟩
  intro i hi
  obtain rfl | hi := List.mem_cons.mp hi
  · exact hname.wellFormed.plain
  · obtain rfl | hi := List.mem_cons.mp hi
    · trivial
    · obtain rfl := List.mem_singleton.mp hi
      trivial

/-- A copy stored a nanosecond later is answered to the last, and no later. -/
theorem answeredInTime_x :
    Along (netStep addrX)
      (fun net i => ∀ now, AnswersAt addrX publishedX now net i → now.toNat ≤ publishedX.lastNow)
      netFresh (copyRun 1 1999999) := by
  refine answeredInTime_of_promptCopies stores_netFresh rfl (by decide)
    (publishedOnce_copyRun 1 1999999) (plainNames_copyRun 1 1999999) ⟨?_, ?_, ?_, trivial⟩
  · exact fun now hcopy => hcopy.elim
  · rintro now ⟨v, m, env, data, hr, rfl, -⟩
    obtain ⟨_, heq, -⟩ := delivery_eq_some hr
    cases heq
    exact le_rfl
  · exact fun now hcopy => hcopy.elim

/-- A copy stored a millisecond later is answered half a millisecond after the content should have
died. -/
theorem not_answeredInTime_x :
    Clocked (copyRun 1000000 2500000) ∧ PublishedOnce publishedX (copyRun 1000000 2500000) ∧
      ¬ Along (netStep addrX)
        (fun net i => ∀ now, AnswersAt addrX publishedX now net i → now.toNat ≤ publishedX.lastNow)
        netFresh (copyRun 1000000 2500000) := by
  refine ⟨by decide, publishedOnce_copyRun _ _, ?_⟩
  rintro ⟨-, -, hlookup, -⟩
  have hfound : (lookupEntry ((exec (netStep addrX) netFresh ((copyRun 1000000 2500000).take 2)).node
      true).cs nameX 2500000).map (fun e => (e.name.components, e.data)) =
        some (nameX.components, [7]) := by
    decide +kernel
  obtain ⟨e, he, heq⟩ := Option.map_eq_some_iff.mp hfound
  obtain ⟨hcomps, hdata⟩ := Prod.mk.inj heq
  exact absurd (hlookup 2500000 ⟨rfl, e, he, hcomps, hdata⟩) (by decide)

end DsoBrowser
