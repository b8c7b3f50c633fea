import DsoBrowser.Packet
import DsoBrowser.NameRender
import DsoBrowser.PlainStore

/-!
# Packets of plain names

An Interest or a Data packet for a plain name comes back with all its fields and with the
components of the name. The hash is computed anew in a buffer of `PSIRP_MAX_NAME` bytes that takes
a component only if it leaves room for a terminator, which is never written. So the longest names,
whose path fills the buffer, are hashed without their last component, and a name comes back
`psirp_name_equal` to the one sent exactly when it is `HashedWhole` (`roundTrip_iff`).
-/

namespace DsoBrowser

/-! ## What is hashed -/

theorem length_componentBytes (cs : List CString) :
    (componentBytes cs).length = (pathOf cs).length := by
  induction cs with
  | nil => rfl
  | cons c cs ih =>
    have hsplit : componentBytes (c :: cs) =
        UInt8.ofNat c.length :: c.bytes ++ componentBytes cs := rfl
    rw [hsplit, pathOf_cons, List.length_append, List.length_append, ih, List.length_cons,
      List.length_cons, CString.length_bytes]

/-- A Data packet is serialized exactly when it fits. -/
theorem psirpDataSerialize_isSome_iff (pkt : PsirpData) (bufLen : Nat)
    (hlen : ∀ c ∈ pkt.name.components, c.length < 256) :
    (∃ buf, psirpDataSerialize pkt bufLen = some buf) ↔
      18 + (pathOf pkt.name.components).length + pkt.data.length ≤ bufLen := by
  rw [← length_componentBytes]
  refine ⟨?_, psirpDataSerialize_of_le hlen⟩
  rintro ⟨buf, h⟩
  have hbuf := (psirpDataSerialize_eq_some h).1
  -- the data is put last, so all that was written fits
  simp only [psirpDataSerialize, Option.bind_eq_bind] at h
  obtain ⟨b₁, -, h⟩ := Option.bind_eq_some_iff.mp h
  obtain ⟨b₂, -, h⟩ := Option.bind_eq_some_iff.mp h
  obtain ⟨b₃, -, h⟩ := Option.bind_eq_some_iff.mp h
  obtain ⟨b₄, -, h⟩ := Option.bind_eq_some_iff.mp h
  obtain ⟨b₅, -, h⟩ := Option.bind_eq_some_iff.mp h
  obtain ⟨b₆, -, h⟩ := Option.bind_eq_some_iff.mp h
  have hle := length_of_putField h
  rw [hbuf] at hle
  simp only [List.length_cons, List.length_append, ByteOrder.length_beBytes] at hle
  omega

theorem hashedBytes_append (cs ds : List CString) (hashBuf : List UInt8) :
    hashedBytes (cs ++ ds) hashBuf = hashedBytes ds (hashedBytes cs hashBuf) := by
  induction cs generalizing hashBuf with
  | nil => rfl
  | cons c cs ih => exact ih _

/-- Components that leave room are all hashed. -/
theorem hashedBytes_of_fits {cs : List CString} {hashBuf : List UInt8}
    (h : hashBuf.length + (pathOf cs).length < psirpMaxName) :
    hashedBytes cs hashBuf = hashBuf ++ (pathOf cs).bytes := by
  induction cs generalizing hashBuf with
  | nil => exact (List.append_nil _).symm
  | cons c cs ih =>
    rw [pathOf_cons, List.length_append, List.length_cons] at h
    rw [hashedBytes, if_pos (by omega), ih]
    · rw [List.append_assoc, pathOf_cons, CString.bytes_append]
      rfl
    · rw [List.length_append, List.length_cons, CString.length_bytes]
      omega

/-- The path leaves room for a terminator, or its last component makes no difference to the
hash. -/
def HashedWhole (k : PlainKey) : Prop :=
  (pathOf k.components).length < psirpMaxName ∨
    fnv1aHash (pathOf k.components).bytes =
      fnv1aHash (CString.bytes ((pathOf k.components).take (psirpMaxName - psirpMaxComponent)))

instance (k : PlainKey) : Decidable (HashedWhole k) := inferInstanceAs (Decidable (_ ∨ _))

/-- A path that leaves no room for a terminator is hashed without its last component. -/
theorem hashedBytes_of_full {k : PlainKey} (h : psirpMaxName ≤ (pathOf k.components).length) :
    hashedBytes k.components [] =
      CString.bytes ((pathOf k.components).take (psirpMaxName - psirpMaxComponent)) := by
  obtain ⟨init, last, hsplit⟩ : ∃ init last, k.components = init ++ [last] :=
    ⟨_, _, (List.dropLast_append_getLast k.ne_nil).symm⟩
  have hcount := k.length_le
  have hlast := (k.path last (by rw [hsplit]; simp)).length_lt
  have hinit : (pathOf init).length ≤ psirpMaxComponent * init.length :=
    length_pathOf_le fun c hc => (k.path c (by rw [hsplit]; simp [hc])).length_lt
  rw [hsplit, List.length_append, List.length_singleton] at hcount
  rw [hsplit, pathOf_append, pathOf_cons, pathOf_nil, List.append_nil, List.length_append,
    List.length_cons] at h
  rw [psirpMaxName] at h
  simp only [psirpMaxComponents, psirpMaxComponent] at hcount hlast hinit h
  have hfull : (pathOf init).length = psirpMaxName - psirpMaxComponent := by
    simp only [psirpMaxName, psirpMaxComponents, psirpMaxComponent]
    omega
  have hroom : ([] : List UInt8).length + (pathOf init).length < psirpMaxName := by
    rw [hfull]
    decide
  rw [hsplit, hashedBytes_append, hashedBytes_of_fits hroom, List.nil_append, pathOf_append,
    ← hfull, List.take_left, hashedBytes, if_neg, hashedBytes]
  rw [CString.length_bytes, psirpMaxName]
  simp only [psirpMaxComponents, psirpMaxComponent]
  omega

/-- The hash that comes back is the one sent exactly when the name is hashed whole. -/
theorem hash_reread_iff (k : PlainKey) (init : PsirpName) :
    (reread init k.name).hash = k.name.hash ↔ HashedWhole k := by
  have hhash : k.name.hash = fnv1aHash (pathOf k.components).bytes := by
    rw [k.name_eq]
    rfl
  have hreread : (reread init k.name).hash = fnv1aHash (hashedBytes k.components []) := by
    rw [k.name_eq]
    rfl
  rw [hreread, hhash, HashedWhole]
  rcases Nat.lt_or_ge (pathOf k.components).length psirpMaxName with hfits | hfull
  · rw [hashedBytes_of_fits (by simpa using hfits), List.nil_append]
    exact iff_of_true rfl (Or.inl hfits)
  · rw [hashedBytes_of_full hfull]
    constructor
    · intro h
      exact Or.inr h.symm
    · rintro (hlt | h)
      · exact absurd hlt (Nat.not_lt.mpr hfull)
      · exact h.symm

theorem psirpNameEqual_reread_iff (k : PlainKey) (init : PsirpName) :
    psirpNameEqual (reread init k.name) k.name = true ↔ HashedWhole k := by
  rw [psirpNameEqual_iff, hash_reread_iff]
  exact and_iff_left rfl

/-! ## Round trips -/

/-- An Interest for the name, serialized to a buffer and deserialized from the bytes written over
the packet `init`, has the fields sent and a name equal to the one sent. -/
def InterestRoundTrip (k : PlainKey) (nonce : UInt64) (lifetimeMs : UInt32) (bufLen : Nat)
    (init : PsirpInterest) : Prop :=
  ∃ buf pkt, psirpInterestSerialize ⟨k.name, nonce, lifetimeMs⟩ bufLen = some buf ∧ buf ≠ [] ∧
    psirpInterestDeserialize init buf = some pkt ∧ pkt.nonce = nonce ∧
    pkt.lifetimeMs = lifetimeMs ∧ psirpNameEqual pkt.name k.name = true

/-- The same for a Data packet. -/
def DataRoundTrip (k : PlainKey) (data : List UInt8) (timestamp : UInt64) (freshnessMs : UInt32)
    (bufLen : Nat) (init : PsirpData) : Prop :=
  ∃ buf pkt, psirpDataSerialize ⟨k.name, data, timestamp, freshnessMs⟩ bufLen = some buf ∧
    buf ≠ [] ∧ psirpDataDeserialize init buf = some pkt ∧ pkt.data = data ∧
    pkt.timestamp = timestamp ∧ pkt.freshnessMs = freshnessMs ∧
    psirpNameEqual pkt.name k.name = true

theorem length_component_lt (k : PlainKey) : ∀ c ∈ k.name.components, c.length < 256 := by
  rw [k.components_name]
  exact fun c hc => (k.path c hc).length_lt.trans (by decide)

theorem interestRoundTrip_iff {k : PlainKey} {bufLen : Nat}
    (hbuf : 14 + (pathOf k.components).length ≤ bufLen) (nonce : UInt64) (lifetimeMs : UInt32)
    (init : PsirpInterest) :
    InterestRoundTrip k nonce lifetimeMs bufLen init ↔ HashedWhole k := by
  obtain ⟨buf, hser⟩ :
      ∃ buf, psirpInterestSerialize ⟨k.name, nonce, lifetimeMs⟩ bufLen = some buf := by
    rw [psirpInterestSerialize_isSome_iff]
    refine ⟨length_component_lt k, ?_⟩
    rwa [k.components_name, length_componentBytes]
  have hde := psirpInterestDeserialize_eq hser init
  rw [← psirpNameEqual_reread_iff k init.name]
  constructor
  · rintro ⟨buf', pkt, hser', -, hde', -, -, heq⟩
    obtain rfl := Option.some.inj (hser.symm.trans hser')
    obtain rfl := Option.some.inj (hde.symm.trans hde')
    exact heq
  · intro heq
    refine ⟨buf, _, hser, ?_, hde, rfl, rfl, heq⟩
    rw [(psirpInterestSerialize_eq_some hser).1]
    exact List.cons_ne_nil _ _

theorem dataRoundTrip_iff {k : PlainKey} {data : List UInt8} {bufLen : Nat}
    (hdata : data.length ≤ psirpMaxData)
    (hbuf : 18 + (pathOf k.components).length + data.length ≤ bufLen) (timestamp : UInt64)
    (freshnessMs : UInt32) (init : PsirpData) :
    DataRoundTrip k data timestamp freshnessMs bufLen init ↔ HashedWhole k := by
  obtain ⟨buf, hser⟩ :
      ∃ buf, psirpDataSerialize ⟨k.name, data, timestamp, freshnessMs⟩ bufLen = some buf := by
    apply psirpDataSerialize_of_le (length_component_lt k)
    rwa [k.components_name, length_componentBytes]
  have hde := psirpDataDeserialize_eq hser (lt_of_le_of_lt hdata (by decide)) init
  rw [← psirpNameEqual_reread_iff k init.name]
  constructor
  · rintro ⟨buf', pkt, hser', -, hde', -, -, -, heq⟩
    obtain rfl := Option.some.inj (hser.symm.trans hser')
    obtain rfl := Option.some.inj (hde.symm.trans hde')
    exact heq
  · intro heq
    refine ⟨buf, _, hser, ?_, hde, rfl, rfl, rfl, heq⟩
    rw [(psirpDataSerialize_eq_some hser).1]
    exact List.cons_ne_nil _ _

/-- **Interest and Data round-trip exactly when** the name is hashed whole. -/
theorem roundTrip_iff (k : PlainKey) (nonce timestamp : UInt64) (lifetimeMs freshnessMs : UInt32)
    {data : List UInt8} (hdata : data.length ≤ psirpMaxData) {interestLen dataLen : Nat}
    (hinterest : 14 + (pathOf k.components).length ≤ interestLen)
    (hbuf : 18 + (pathOf k.components).length + data.length ≤ dataLen) (interest₀ : PsirpInterest)
    (data₀ : PsirpData) :
    (InterestRoundTrip k nonce lifetimeMs interestLen interest₀ ↔ HashedWhole k) ∧
      (DataRoundTrip k data timestamp freshnessMs dataLen data₀ ↔ HashedWhole k) :=
  ⟨interestRoundTrip_iff hinterest nonce lifetimeMs interest₀,
    dataRoundTrip_iff hdata hbuf timestamp freshnessMs data₀⟩

theorem roundTrip_iff_a :
    (InterestRoundTrip keyA 7 4000 16 PsirpInterest.zero ↔ HashedWhole keyA) ∧
      (DataRoundTrip keyA [1, 2] 5 60 22 PsirpData.zero ↔ HashedWhole keyA) :=
  roundTrip_iff keyA 7 5 4000 60 (by decide) (by decide) (by decide) PsirpInterest.zero
    PsirpData.zero

/-- Sixteen components of sixty-three bytes. -/
def keyLong : PlainKey where
  components := List.replicate psirpMaxComponents (List.replicate 63 (ch 'a'))
  path c hc := by
    rw [List.eq_of_mem_replicate hc]
    decide
  ne_nil := by decide
  length_le := by decide

/-- The longest path is not hashed whole, so its packets come back under another name. -/
theorem not_roundTrip_long :
    ¬ InterestRoundTrip keyLong 7 4000 2048 PsirpInterest.zero ∧
      ¬ DataRoundTrip keyLong [1] 5 60 2048 PsirpData.zero := by
  have hlong : ¬ HashedWhole keyLong := by decide +kernel
  refine ⟨fun h => hlong ?_, fun h => hlong ?_⟩
  · exact (interestRoundTrip_iff (by decide +kernel) _ _ _).mp h
  · exact (dataRoundTrip_iff (by decide) (by decide +kernel) _ _ _).mp h

end DsoBrowser
