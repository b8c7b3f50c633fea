import DsoBrowser.Network
import DsoBrowser.VersionFidelity

/-!
# The reverse path

Data should go back to whoever asked for it. The receive loop keeps no record of the endpoints it
forwards Interests for, and its Data branch stores and sends nothing, so an endpoint gets Data
only as the answer to an Interest that finds it in the store (`sendsData_iff`). A run keeps to the
reverse path exactly when that has happened, for each of the endpoints, before the Data comes
(`reversePath_iff`).
-/

namespace DsoBrowser

open Machine

universe u

variable {N : Type u} [DecidableEq N] {addr : N → PsirpPeer}

/-! ## Events -/

variable (addr) in
/-- Node `v` receives an Interest for the components `n` from `a`, misses its store and forwards
the Interest. -/
def ForwardsFor (v : N) (n : List CString) (a : PsirpPeer) (net : Network N) (r : Receipt N) :
    Prop :=
  ∃ m env interest, r.delivery addr net = some (v, m, env) ∧ m.src = a ∧
    psirpInterestDeserialize PsirpInterest.zero m.payload = some interest ∧
    interest.name.components = n ∧ lookupEntry (net.node v).cs interest.name env.now = none ∧
    (receiveStep addr net r).1.out ≠ []

variable (addr) in
/-- Node `v` receives Data for `n` and stores it. -/
def StoresData (v : N) (n : List CString) (net : Network N) (r : Receipt N) : Prop :=
  ∃ m env data, r.delivery addr net = some (v, m, env) ∧
    psirpDataDeserialize PsirpData.zero m.payload = some data ∧ data.name.components = n ∧
    (psirpCsStore (net.node v).cs data.name data.data data.freshnessMs env.now).1 = true

/-- Node `v` sends Data for `n` to `a`. -/
def Sent.HasData (v : N) (n : List CString) (a : PsirpPeer) (sent : Sent N) : Prop :=
  sent.node = v ∧ ∃ dg ∈ sent.out, dg.dest = a ∧
    ∃ data, dg.packet = .data data ∧ data.name.components = n

variable (addr) in
/-- Node `v` receives an Interest for `n` from `a` that finds an entry in the store, the reply
fits a packet and the transmission succeeds. -/
def HitsFor (v : N) (n : List CString) (a : PsirpPeer) (net : Network N) (r : Receipt N) : Prop :=
  ∃ m env interest entry, r.delivery addr net = some (v, m, env) ∧ m.src = a ∧
    psirpInterestDeserialize PsirpInterest.zero m.payload = some interest ∧
    interest.name.components = n ∧
    lookupEntry (net.node v).cs interest.name env.now = some entry ∧ Sendable entry ∧
    env.send.sent = true

/-- **Data is sent only** in answer to an Interest that finds it in the store. -/
theorem sendsData_iff {v : N} {n : List CString} {a : PsirpPeer} {net : Network N}
    {r : Receipt N} :
    (receiveStep addr net r).1.HasData v n a ↔ HitsFor addr v n a net r := by
  rcases hr : r.delivery addr net with _ | ⟨w, m, env⟩
  · -- nothing is received
    apply iff_of_false
    · rintro ⟨-, dg, hdg, -⟩
      rw [(receiveStep_of_no_delivery hr).1] at hdg
      cases hdg
    · rintro ⟨m, env, interest, entry, hr', -⟩
      rw [hr] at hr'
      cases hr'
  · obtain ⟨-, -, hsent, -⟩ := receiveStep_of_delivery hr
    rw [hsent]
    constructor
    · rintro ⟨rfl, dg, hdg, rfl, data, hdata, rfl⟩
      obtain ⟨interest, hdec, hdg⟩ := mem_recvUnicast_iff.mp hdg
      obtain ⟨entry, hentry, rfl, hok, buf, hbuf, rfl⟩ := (data_mem_recvInterest_iff hdata).mp hdg
      -- the answer has the components asked for
      exact ⟨m, env, interest, entry, hr, rfl, hdec, (components_of_lookupEntry hentry).symm,
        hentry, Option.isSome_iff_exists.mpr ⟨buf, hbuf⟩, hok⟩
    · rintro ⟨m', env', interest, entry, hr', rfl, hdec, rfl, hentry, hfit, hok⟩
      rw [hr] at hr'
      cases hr'
      obtain ⟨buf, hbuf⟩ := Option.isSome_iff_exists.mp hfit
      refine ⟨rfl, ⟨m.src, .data (replyOf entry), buf⟩, ?_, rfl, _, rfl,
        components_of_lookupEntry hentry⟩
      exact mem_recvUnicast_iff.mpr ⟨interest, hdec, (data_mem_recvInterest_iff rfl).mpr
        ⟨entry, hentry, rfl, hok, buf, hbuf, rfl⟩⟩

/-! ## Runs -/

variable (addr) in
/-- In the run, node `v` forwarded an Interest of `a` for `n`, and later it received and stored
Data for `n`. -/
def ForwardedThenStored (v : N) (n : List CString) (a : PsirpPeer) (net : Network N)
    (rs : List (Receipt N)) : Prop :=
  ∃ before r after, rs = before ++ r :: after ∧
    Happened (receiveStep addr) (ForwardsFor addr v n a) net before ∧
    StoresData addr v n (exec (receiveStep addr) net before) r

variable (addr) in
/-- Data follows the reverse path: in every state reached, a node that forwarded an Interest and
stored the Data for it since has sent Data to the endpoint that asked. -/
def ReversePath (net : Network N) (rs : List (Receipt N)) : Prop :=
  ∀ reached, reached <+: rs → ∀ v n a, ForwardedThenStored addr v n a net reached →
    ∃ sent ∈ outs (receiveStep addr) net reached, sent.HasData v n a

omit [DecidableEq N] in
/-- A round that stores Data answers nothing. -/
theorem not_hitsFor_of_storesData {v w : N} {n n' : List CString} {a : PsirpPeer}
    {net : Network N} {r : Receipt N} (h : StoresData addr v n net r) :
    ¬ HitsFor addr w n' a net r := by
  obtain ⟨m, env, data, hr, hdata, -⟩ := h
  rintro ⟨m', env', interest, -, hr', -, hinterest, -⟩
  rw [hr] at hr'
  cases hr'
  exact not_interest_and_data hinterest hdata

/-- **Data follows the reverse path exactly when**, whenever a node stores Data, each endpoint it
forwarded an Interest for has had one answered from the store before. -/
theorem reversePath_iff (net : Network N) (rs : List (Receipt N)) :
    ReversePath addr net rs ↔
      ∀ before r after, rs = before ++ r :: after → ∀ v n a,
        StoresData addr v n (exec (receiveStep addr) net before) r →
        Happened (receiveStep addr) (ForwardsFor addr v n a) net before →
        Happened (receiveStep addr) (HitsFor addr v n a) net before := by
  have hsends : ∀ v n a (reached : List (Receipt N)),
      (∃ sent ∈ outs (receiveStep addr) net reached, sent.HasData v n a) ↔
        Happened (receiveStep addr) (HitsFor addr v n a) net reached := fun v n a reached =>
    exists_mem_outs_iff.trans (happened_congr (fun _ _ => sendsData_iff) net reached)
  constructor
  · rintro h before r after rfl v n a hstores hforwards
    have hpre : before ++ [r] <+: before ++ r :: after :=
      ⟨after, by rw [List.append_assoc, List.singleton_append]⟩
    have hsent := (hsends v n a _).mp (h _ hpre v n a ⟨before, r, [], rfl, hforwards, hstores⟩)
    exact ((happened_concat _ _ _ _).mp hsent).resolve_right (not_hitsFor_of_storesData hstores)
  · rintro h reached ⟨rest, rfl⟩ v n a ⟨before, r, after, rfl, hforwards, hstores⟩
    rw [hsends, happened_append]
    refine Or.inl (h before r (after ++ rest) ?_ v n a hstores hforwards)
    rw [List.append_assoc, List.cons_append]

/-- `true` has the content `/x`, and `false` knows that. -/
def netX : Network Bool where
  node
    | true => { nodeX [] with cs := (psirpCsStore psirpCsInit nameX [7] 0 0).2 }
    | false => { nodeX [] with fib := [⟨nameX, ⟨2, 1⟩, 1⟩] }
  flight := [flyingX]

/-- `false` forwards the Interest of `3:1`, `true` answers it, `false` stores the answer, and
`3:1` gets nothing. -/
theorem not_reversePath_x :
    ¬ ReversePath addrX netX [oldestRound false, oldestRound true, oldestRound false] := by
  intro h
  have hforwards : ForwardsFor addrX false nameX.components ⟨3, 1⟩ netX (oldestRound false) :=
    ⟨_, _, _, rfl, rfl, rfl, by decide +kernel, by decide +kernel, by decide +kernel⟩
  have hstores : StoresData addrX false nameX.components
      (exec (receiveStep addrX) netX [oldestRound false, oldestRound true]) (oldestRound false) :=
    ⟨_, _, _, rfl, rfl, by decide +kernel, by decide +kernel⟩
  obtain ⟨sent, hsent, -, dg, hdg, hdest, -⟩ := h _ List.prefix_rfl false nameX.components ⟨3, 1⟩
    ⟨[oldestRound false, oldestRound true], oldestRound false, [], rfl, Or.inl hforwards, hstores⟩
  have hall : ∀ sent ∈ outs (receiveStep addrX) netX
      [oldestRound false, oldestRound true, oldestRound false],
      ∀ dg ∈ sent.out, dg.dest ≠ ⟨3, 1⟩ := by
    decide +kernel
  exact hall sent hsent dg hdg hdest

end DsoBrowser
