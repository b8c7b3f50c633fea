import DsoBrowser.Freshness

/-!
# Nodes give out what was published

Packets are not signed, but as long as all nodes run the program nothing gets into the network that
no application put there. Over a medium that reorders, loses and duplicates datagrams, whatever a
node answers was stored by an application before: under these components, with these bytes and with
this validity period (`answered_was_stored`).

The **invariant** is `Confined`: what is stored and what is in flight has a property that everything
has that applications store. It holds whatever the property is (`Confined.run`).
-/

namespace DsoBrowser

open Machine

universe u

/-! ## The medium -/

/-- A step of a node, or of the medium. -/
inductive UdpInput (N : Type u) where
  /-- of a node -/
  | node : NetInput N → UdpInput N
  /-- the datagram at a position is lost -/
  | lose : Nat → UdpInput N
  /-- the datagram at a position is in flight twice -/
  | duplicate : Nat → UdpInput N

section Steps

variable {N : Type u} [DecidableEq N] (addr : N → PsirpPeer)

/-- One step. -/
def udpStep (net : Network N) : UdpInput N → Option (Sent N) × Network N
  | .node i => (some (netStep addr net i).1, (netStep addr net i).2)
  | .lose i => (none, { net with flight := net.flight.eraseIdx i })
  | .duplicate i => (none, { net with flight := net.flight ++ (net.flight[i]?).toList })

end Steps

/-! ## What is stored and given out -/

/-- Content under its name. -/
structure NamedContent where
  /-- the components of the name -/
  components : List CString
  /-- the bytes -/
  data : List UInt8
  /-- validity period -/
  freshnessMs : UInt32
  deriving DecidableEq

/-- What an entry holds. -/
def PsirpCsEntry.named (e : PsirpCsEntry) : NamedContent :=
  ⟨e.name.components, e.data, e.freshnessMs⟩

/-- What a Data packet carries. -/
def PsirpData.named (pkt : PsirpData) : NamedContent :=
  ⟨pkt.name.components, pkt.data, pkt.freshnessMs⟩

section Contents

variable {N : Type u}

/-- What an application stores in a step. -/
def NetInput.stored : NetInput N → Option NamedContent
  | .publish _ name data freshnessMs _ => some ⟨name.components, data, freshnessMs⟩
  | .call _ (.store name data freshnessMs _) => some ⟨name.components, data, freshnessMs⟩
  | _ => none

/-- What an application stores in a step, if it is one of a node. -/
def UdpInput.stored : UdpInput N → Option NamedContent
  | .node i => i.stored
  | _ => none

/-- Applications name what they store by names as the constructors build them. -/
def UdpInput.PlainNames : UdpInput N → Prop
  | .node i => i.PlainNames
  | _ => True

variable [DecidableEq N] (addr : N → PsirpPeer)

/-- In the step a node answers a lookup or an Interest with the content. -/
def GivesOut (c : NamedContent) (net : Network N) : UdpInput N → Prop
  | .node (.call v (.lookup name now)) =>
    ∃ e, lookupEntry (net.node v).cs name now = some e ∧ e.named = c
  | .node (.receive r) =>
    ∃ dg ∈ (receiveStep addr net r).1.out, ∃ pkt, dg.packet = .data pkt ∧ pkt.named = c
  | _ => False

end Contents

/-! ## The invariant -/

variable {Q : NamedContent → Prop}

/-- An entry that can be sent and has the property. -/
structure ConfinedEntry (Q : NamedContent → Prop) (e : PsirpCsEntry) : Prop where
  /-- a decoder gives the name back -/
  plain : ∀ c ∈ e.name.components, PlainComponent c
  /-- its size is in range -/
  storable : Storable e.data
  /-- the property -/
  has : Q e.named

/-- A datagram that, if it carries content, carries such content. -/
def ConfinedPayload (Q : NamedContent → Prop) (payload : List UInt8) : Prop :=
  ∀ data, psirpDataDeserialize PsirpData.zero payload = some data →
    (∀ c ∈ data.name.components, PlainComponent c) ∧ Q data.named

/-- All that is stored or in flight has the property. -/
structure Confined {N : Type u} (Q : NamedContent → Prop) (net : Network N) : Prop where
  /-- in every store -/
  stores : ∀ v, EveryEntry (ConfinedEntry Q) (net.node v).cs
  /-- in flight -/
  flight : ∀ m ∈ net.flight, ConfinedPayload Q m.payload

theorem ConfinedEntry.touch {e : PsirpCsEntry} (h : ConfinedEntry Q e) (now : UInt64) :
    ConfinedEntry Q (touch now e) := ⟨h.plain, h.storable, h.has⟩

section Stored

variable {name : PsirpName} {data : List UInt8} {freshnessMs : UInt32} {now : UInt64}
  (hd : Storable data) (hQ : Q ⟨name.components, data, freshnessMs⟩)

include hd hQ

theorem confinedEntry_newEntry (hname : ∀ c ∈ name.components, PlainComponent c) :
    ConfinedEntry Q (newEntry name data freshnessMs now) := by
  have hcomps : (newEntry name data freshnessMs now).name.components = name.components := by
    rw [newEntry, entryName_of_plain hname]
  refine ⟨hcomps ▸ hname, hd, ?_⟩
  rw [PsirpCsEntry.named, hcomps]
  exact hQ

theorem ConfinedEntry.overwrite {e : PsirpCsEntry} (h : ConfinedEntry Q e)
    (heq : psirpNameEqual e.name name = true) :
    ConfinedEntry Q (overwrite data freshnessMs now e) := by
  refine ⟨h.plain, hd, ?_⟩
  change Q ⟨e.name.components, data, freshnessMs⟩
  rw [(psirpNameEqual_iff.mp heq).2]
  exact hQ

end Stored

/-- **Storing** such content, if it is in range. -/
theorem confined_psirpCsStore {cs : PsirpCs} (h : EveryEntry (ConfinedEntry Q) cs)
    {name : PsirpName} (hname : ∀ c ∈ name.components, PlainComponent c) {data : List UInt8}
    {freshnessMs : UInt32} (hQ : Q ⟨name.components, data, freshnessMs⟩) (now : UInt64) :
    EveryEntry (ConfinedEntry Q) (psirpCsStore cs name data freshnessMs now).2 :=
  h.store (fun hd => confinedEntry_newEntry hd hQ hname)
    fun _ hd heq he => ConfinedEntry.overwrite hd hQ he heq

/-- A Data packet comes back as it was sent. -/
theorem confinedPayload_of_data {pkt : PsirpData} {bufLen : Nat} {buf : List UInt8}
    (hser : psirpDataSerialize pkt bufLen = some buf)
    (hname : ∀ c ∈ pkt.name.components, PlainComponent c) (hdata : Storable pkt.data)
    (hQ : Q pkt.named) : ConfinedPayload Q buf := by
  intro data hde
  rw [psirpDataDeserialize_eq hser (lt_of_le_of_lt hdata.2 (by decide))] at hde
  obtain rfl := Option.some.inj hde
  exact ⟨hname, hQ⟩

/-- An Interest carries none. -/
theorem confinedPayload_of_interest {interest : PsirpInterest} {bufLen : Nat} {buf : List UInt8}
    (hser : psirpInterestSerialize interest bufLen = some buf) : ConfinedPayload Q buf :=
  fun _ hdata =>
    (not_interest_and_data (psirpInterestDeserialize_eq hser PsirpInterest.zero) hdata).elim

/-! ## Steps -/

section Runs

variable {N : Type u} {addr : N → PsirpPeer} [DecidableEq N] {net : Network N}

variable (addr) in
/-- A node that keeps the invariant and sends such content keeps it for the network. -/
theorem Confined.act (h : Confined Q net) (v : N) (node : PsirpNode) {out : List Datagram}
    (hnode : EveryEntry (ConfinedEntry Q) node.cs)
    (hout : ∀ dg ∈ out, ConfinedPayload Q dg.payload) :
    Confined Q (net.act addr v node out).2 where
  stores w := by
    change EveryEntry (ConfinedEntry Q) (Function.update net.node v node w).cs
    rcases eq_or_ne w v with rfl | hw
    · rwa [Function.update_self]
    · rw [Function.update_of_ne hw]
      exact h.stores w
  flight m hm := by
    rcases List.mem_append.mp hm with hm | hm
    · exact h.flight m hm
    · obtain ⟨dg, hdg, rfl⟩ := List.mem_map.mp hm
      exact hout dg hdg

omit [DecidableEq N] in
/-- **What a node does with a datagram in flight** keeps the invariant. -/
theorem Confined.recvUnicast (h : Confined Q net) (v : N) {m : Flying} (hm : m ∈ net.flight)
    (env : RecvEnv) :
    EveryEntry (ConfinedEntry Q) (recvUnicast (net.node v) m.src m.payload env).1.cs ∧
      ∀ dg ∈ (recvUnicast (net.node v) m.src m.payload env).2, ConfinedPayload Q dg.payload := by
  rcases recvUnicast_cases (net.node v) m.src m.payload env with
    ⟨interest, -, hrecv⟩ | ⟨data, hdec, hrecv⟩ | hrecv
  · rw [hrecv, (recvInterest_node (net.node v) m.src interest env).1]
    refine ⟨(h.stores v).lookup fun e he => he.touch env.now, fun dg hdg => ?_⟩
    rcases recvInterest_cases (net.node v) m.src interest env with
      ⟨entry, hentry, hout⟩ | ⟨-, -, hout⟩ | ⟨fwd, -, -, hout⟩
    · -- the reply is made from an entry
      rw [hout, mem_psirpNetData] at hdg
      obtain ⟨-, buf, hser, rfl⟩ := hdg
      obtain ⟨e, he, rfl⟩ := lookupEntry_eq_some hentry
      have hkept := h.stores v e he
      exact confinedPayload_of_data hser hkept.plain hkept.storable hkept.has
    · rw [hout] at hdg
      cases hdg
    · rw [hout] at hdg
      obtain ⟨sent, -, hser⟩ := payload_psirpNetInterest hdg
      exact confinedPayload_of_interest hser
  · rw [hrecv]
    obtain ⟨hname, hQ⟩ := h.flight m hm data hdec
    exact ⟨confined_psirpCsStore (h.stores v) hname hQ env.now,
      fun dg hdg => absurd hdg List.not_mem_nil⟩
  · rw [hrecv]
    exact ⟨h.stores v, fun dg hdg => absurd hdg List.not_mem_nil⟩

theorem Confined.receive (h : Confined Q net) (r : Receipt N) :
    Confined Q (receiveStep addr net r).2 := by
  rcases hr : r.delivery addr net with _ | ⟨v, m, env⟩
  · obtain ⟨-, hflight, hnodes⟩ := receiveStep_of_no_delivery hr
    refine ⟨fun v => ?_, fun m hm => h.flight m (hflight ▸ hm)⟩
    rw [(hnodes v).1]
    exact h.stores v
  · obtain ⟨i, hm, -, hnet⟩ := receiveStep_of_delivery hr
    obtain ⟨hnode, hout⟩ := h.recvUnicast v (List.mem_of_getElem? hm) env
    rw [hnet]
    have hleft : Confined Q (⟨net.node, net.flight.eraseIdx i⟩ : Network N) :=
      ⟨h.stores, fun m' hm' => h.flight m' (List.mem_of_mem_eraseIdx hm')⟩
    exact hleft.act addr v _ hnode hout

/-- **Step lemma.** A step keeps the invariant, if what an application stores in it has the
property. -/
theorem Confined.step (h : Confined Q net) {i : UdpInput N} (hname : i.PlainNames)
    (hstored : ∀ c, i.stored = some c → Q c) : Confined Q (udpStep addr net i).2 := by
  cases i with
  | lose i => exact ⟨h.stores, fun m hm => h.flight m (List.mem_of_mem_eraseIdx hm)⟩
  | duplicate i =>
    refine ⟨h.stores, fun m hm => ?_⟩
    rcases List.mem_append.mp hm with hm | hm
    · exact h.flight m hm
    · exact h.flight m (List.mem_of_getElem? (Option.mem_toList.mp hm))
  | node i =>
    cases i with
    | publish v name data freshnessMs env =>
      obtain ⟨hok, hcs, hout⟩ := psirpNetPublish_spec (net.node v) name data freshnessMs env
      have hQ : Q ⟨name.components, data, freshnessMs⟩ := hstored _ rfl
      refine h.act addr v (psirpNetPublish (net.node v) name data freshnessMs env).2.1 ?_
        fun dg hdg => ?_
      · rw [hcs]
        exact confined_psirpCsStore (h.stores v) hname hQ env.now
      · obtain ⟨hpublished, hser⟩ := hout dg hdg
        have hd := storable_of_psirpCsStore (Prod.ext (hok.symm.trans hpublished) rfl)
        exact confinedPayload_of_data hser hname hd hQ
    | call v op =>
      refine h.act addr v { net.node v with cs := (csStep (net.node v).cs op).2 } ?_
        fun dg hdg => absurd hdg List.not_mem_nil
      refine csStep_forall ?_ ?_ (fun now e he => he.touch now) (h.stores v)
      · rintro n d f now rfl hd
        exact confinedEntry_newEntry hd (hstored _ rfl) hname
      · rintro n d f now e rfl hd heq he
        exact ConfinedEntry.overwrite hd (hstored _ rfl) he heq
    | interest v name peer timeoutMs env =>
      refine h.act addr v (psirpNetInterest (net.node v) name peer timeoutMs env).2.1 ?_
        fun dg hdg => ?_
      · rw [(psirpNetInterest_node (net.node v) name peer timeoutMs env).1]
        exact h.stores v
      · obtain ⟨sent, -, hser⟩ := payload_psirpNetInterest hdg
        exact confinedPayload_of_interest hser
    | receive r => exact h.receive r

/-- **Run lemma.** What all applications store in a run has the property, and so has everything
that is stored or in flight at its end. -/
theorem Confined.run (h : Confined Q net) {is : List (UdpInput N)}
    (hnames : ∀ i ∈ is, i.PlainNames) (hstored : ∀ i ∈ is, ∀ c, i.stored = some c → Q c) :
    Confined Q (exec (udpStep addr) net is) :=
  exec_inv (P := fun _ i => i.PlainNames ∧ ∀ c, i.stored = some c → Q c)
    (fun _ _ hI hP => hI.step hP.1 hP.2) h
    (along_input.mpr fun i hi => ⟨hnames i hi, hstored i hi⟩)

/-- While the invariant holds, what is given out has the property. -/
theorem Confined.of_givesOut (h : Confined Q net) {c : NamedContent} {i : UdpInput N}
    (hout : GivesOut addr c net i) : Q c := by
  have hfound : ∀ {v name now e}, lookupEntry (net.node v).cs name now = some e → Q e.named := by
    intro v name now e he
    obtain ⟨e₀, he₀, rfl⟩ := lookupEntry_eq_some he
    exact (h.stores v e₀ he₀).has
  cases i with
  | lose i => cases hout
  | duplicate i => cases hout
  | node i =>
    cases i with
    | publish v name data freshnessMs env => cases hout
    | interest v name peer timeoutMs env => cases hout
    | call v op =>
      cases op with
      | lookup name now =>
        obtain ⟨e, he, rfl⟩ := hout
        exact hfound he
      | _ => cases hout
    | receive r =>
      obtain ⟨dg, hdg, pkt, hpkt, rfl⟩ := hout
      rcases hr : r.delivery addr net with _ | ⟨v, m, env⟩
      · rw [(receiveStep_of_no_delivery hr).1] at hdg
        cases hdg
      · obtain ⟨-, -, hsent, -⟩ := receiveStep_of_delivery hr
        rw [hsent] at hdg
        obtain ⟨interest, -, hdg⟩ := mem_recvUnicast_iff.mp hdg
        obtain ⟨entry, hentry, rfl, -⟩ := (data_mem_recvInterest_iff hpkt).mp hdg
        exact hfound hentry

/-- **Nothing is made up.** In every run from empty stores, over a medium that reorders, loses and
duplicates datagrams, what a node answers a lookup or an Interest with was stored by an application
before, under these components, with these bytes and this validity period. -/
theorem answered_was_stored (hstores : ∀ v, (net.node v).cs = psirpCsInit)
    (hflight : net.flight = []) {is : List (UdpInput N)} (hnames : ∀ i ∈ is, i.PlainNames)
    {c : NamedContent} {i : UdpInput N}
    (hout : GivesOut addr c (exec (udpStep addr) net is) i) : ∃ j ∈ is, j.stored = some c := by
  have hstart : Confined (fun c => ∃ j ∈ is, j.stored = some c) net := by
    refine ⟨fun v e he => ?_, fun m hm => ?_⟩
    · rw [hstores v] at he
      cases he
    · rw [hflight] at hm
      cases hm
  exact (hstart.run hnames fun j hj c hc => ⟨j, hj, hc⟩).of_givesOut hout

end Runs

/-- `1:1` publishes, the datagram is duplicated, one copy is lost and the other arrives. -/
def strayRun : List (UdpInput Bool) :=
  [.node (.publish false nameX [7] 1 ⟨0, 0, fun _ => true⟩), .duplicate 0, .lose 0,
    .node (.receive (.unicast true 0 ⟨1, ⟨0, true, 1⟩⟩))]

theorem plainNames_strayRun : ∀ i ∈ strayRun, i.PlainNames := by
  have hname : Parsed nameX := ⟨text ['/', 'x'], by decide⟩
  intro i hi
  simp only [strayRun, List.mem_cons, List.not_mem_nil, or_false] at hi
  rcases hi with rfl | rfl | rfl | rfl
  · exact hname.wellFormed.plain
  all_goals trivial

/-- `2:1` answers what `1:1` has published. -/
theorem answered_was_stored_strayRun :
    GivesOut addrX ⟨nameX.components, [7], 1⟩ (exec (udpStep addrX) netFresh strayRun)
        (.node (.call true (.lookup nameX 1))) ∧
      ∃ j ∈ strayRun, j.stored = some ⟨nameX.components, [7], 1⟩ := by
  have hfound : (lookupEntry ((exec (udpStep addrX) netFresh strayRun).node true).cs nameX 1).map
      PsirpCsEntry.named = some ⟨nameX.components, [7], 1⟩ := by
    decide +kernel
  have hout : GivesOut addrX ⟨nameX.components, [7], 1⟩
      (exec (udpStep addrX) netFresh strayRun) (.node (.call true (.lookup nameX 1))) :=
    Option.map_eq_some_iff.mp hfound
  exact ⟨hout, answered_was_stored stores_netFresh rfl plainNames_strayRun hout⟩

end DsoBrowser
