import DsoBrowser.NameParse
import DsoBrowser.Lib.ByteOrder

/-!
# Interest and Data packets

The wire format of `psirp.c`. A serializer writes its fields one after the other and gives up
(the C code returns `0`) as soon as one does not fit the buffer; a deserializer reads from a
buffer of known length.

The name of a packet is its component list and nothing else: each component is preceded by
its length, and no version is written. A component is read as a block of bytes and used as a C
string, so it ends at the first NUL of the block, while the hash is taken over the whole
blocks.

The main results are that **an Interest comes back with its components and without its version**
(`psirpInterestDeserialize_serialize`) and that so does a Data packet, with its data
(`psirpDataDeserialize_eq`).
-/

namespace DsoBrowser

open ByteOrder

/-- `PSIRP_PKT_INTEREST` -/
def psirpPktInterest : UInt8 := 0

/-- `PSIRP_PKT_DATA` -/
def psirpPktData : UInt8 := 1

/-- `PSIRP_PKT_PUBLISH` -/
def psirpPktPublish : UInt8 := 2

/-- `psirp_interest` -/
structure PsirpInterest where
  /-- content we want -/
  name : PsirpName
  /-- unique request ID -/
  nonce : UInt64
  /-- how long to wait -/
  lifetimeMs : UInt32
  deriving DecidableEq

/-- `psirp_data` -/
structure PsirpData where
  /-- content name -/
  name : PsirpName
  /-- content data; `data_len` is its length -/
  data : List UInt8
  /-- when published (ns) -/
  timestamp : UInt64
  /-- how long this data is valid -/
  freshnessMs : UInt32
  deriving DecidableEq

/-- `psirp_interest interest = {0}` -/
def PsirpInterest.zero : PsirpInterest := ⟨PsirpName.zero, 0, 0⟩

/-- `psirp_data data = {0}` -/
def PsirpData.zero : PsirpData := ⟨PsirpName.zero, [], 0, 0⟩

/-! ## Writing -/

/-- Append a field to what is written so far, if it fits. -/
def putField (bufLen : Nat) (field buf : List UInt8) : Option (List UInt8) :=
  if bufLen < buf.length + field.length then none else some (buf ++ field)

/-- The component loop of the serializers. -/
def putComponents (bufLen : Nat) : List CString → List UInt8 → Option (List UInt8)
  | [], buf => some buf
  | c :: cs, buf =>
    if 255 < c.length then none
    else (putField bufLen (UInt8.ofNat c.length :: c.bytes) buf).bind (putComponents bufLen cs)

/-- `psirp_interest_serialize` -/
def psirpInterestSerialize (pkt : PsirpInterest) (bufLen : Nat) : Option (List UInt8) := do
  let buf ← putField bufLen [psirpPktInterest] []
  let buf ← putField bufLen (beBytes 8 pkt.nonce.toNat) buf
  let buf ← putField bufLen (beBytes 4 pkt.lifetimeMs.toNat) buf
  let buf ← putField bufLen [UInt8.ofNat pkt.name.components.length] buf
  putComponents bufLen pkt.name.components buf

/-- `psirp_data_serialize` -/
def psirpDataSerialize (pkt : PsirpData) (bufLen : Nat) : Option (List UInt8) := do
  let buf ← putField bufLen [psirpPktData] []
  let buf ← putField bufLen (beBytes 8 pkt.timestamp.toNat) buf
  let buf ← putField bufLen (beBytes 4 pkt.freshnessMs.toNat) buf
  let buf ← putField bufLen (beBytes 4 pkt.data.length) buf
  let buf ← putField bufLen [UInt8.ofNat pkt.name.components.length] buf
  let buf ← putComponents bufLen pkt.name.components buf
  putField bufLen pkt.data buf

/-! ## Reading -/

/-- The component loop of the deserializers, on the bytes not read yet: the components, what is
written to `hash_buf`, and the bytes left. -/
def takeComponents : Nat → List UInt8 → List UInt8 →
    Option (List CString × List UInt8 × List UInt8)
  | 0, buf, hashBuf => some ([], hashBuf, buf)
  | _ + 1, [], _ => none
  | count + 1, compLen :: buf, hashBuf =>
    if buf.length < compLen.toNat then none
    else
      let comp := buf.take compLen.toNat
      let hashBuf :=
        if hashBuf.length + 1 + compLen.toNat < psirpMaxName then hashBuf ++ slash.val :: comp
        else hashBuf
      (takeComponents count (buf.drop compLen.toNat) hashBuf).map fun (comps, rest) =>
        (CString.ofBytes comp :: comps, rest)

/-- The name a deserializer fills in. It sets the components and the hash only; version and flag
stay what they were in `name`. The count was checked before the components were read. -/
def decodedName (name : PsirpName) (comps : List CString) (hashBuf : List UInt8) :
    Option PsirpName :=
  if h : comps.length ≤ psirpMaxComponents then
    some { name with components := comps, hash := fnv1aHash hashBuf, count_le := h }
  else none

/-- `psirp_interest_deserialize`; `pkt` is the packet before the call. -/
def psirpInterestDeserialize (pkt : PsirpInterest) (buf : List UInt8) : Option PsirpInterest :=
  if buf.length < 14 then none
  else if buf.head? ≠ some psirpPktInterest then none
  else
    let nonce := ofBeBytes ((buf.drop 1).take 8)
    let lifetime := ofBeBytes ((buf.drop 9).take 4)
    let count := ((buf.drop 13).head?.getD 0).toNat
    if psirpMaxComponents < count then none
    else do
      let (comps, hashBuf, _) ← takeComponents count (buf.drop 14) []
      let name ← decodedName pkt.name comps hashBuf
      some ⟨name, UInt64.ofNat nonce, UInt32.ofNat lifetime⟩

/-- `psirp_data_deserialize`; `pkt` is the packet before the call. -/
def psirpDataDeserialize (pkt : PsirpData) (buf : List UInt8) : Option PsirpData :=
  if buf.length < 18 then none
  else if buf.head? ≠ some psirpPktData then none
  else
    let timestamp := ofBeBytes ((buf.drop 1).take 8)
    let freshness := ofBeBytes ((buf.drop 9).take 4)
    let dataLen := ofBeBytes ((buf.drop 13).take 4)
    let count := ((buf.drop 17).head?.getD 0).toNat
    if psirpMaxComponents < count then none
    else do
      let (comps, hashBuf, rest) ← takeComponents count (buf.drop 18) []
      let name ← decodedName pkt.name comps hashBuf
      if rest.length < dataLen then none
      else some ⟨name, rest.take dataLen, UInt64.ofNat timestamp, UInt32.ofNat freshness⟩

/-! ## What the writers write -/

theorem putField_eq_some {bufLen : Nat} {field buf out : List UInt8}
    (h : putField bufLen field buf = some out) : out = buf ++ field := by
  simp only [putField] at h
  split at h
  · simp at h
  · exact (Option.some.inj h).symm

/-- The bytes of a component list. -/
def componentBytes (cs : List CString) : List UInt8 :=
  cs.flatMap fun c => UInt8.ofNat c.length :: c.bytes

theorem putComponents_eq_some {bufLen : Nat} :
    ∀ {cs : List CString} {buf out : List UInt8}, putComponents bufLen cs buf = some out →
      out = buf ++ componentBytes cs ∧ ∀ c ∈ cs, c.length < 256 := by
  intro cs
  induction cs with
  | nil =>
    intro buf out h
    obtain rfl := Option.some.inj h
    simp [componentBytes]
  | cons c cs ih =>
    intro buf out h
    simp only [putComponents] at h
    split at h
    · simp at h
    · rename_i hlen
      obtain ⟨mid, hmid, hrest⟩ := Option.bind_eq_some_iff.mp h
      obtain ⟨rfl, hall⟩ := ih hrest
      obtain rfl := putField_eq_some hmid
      refine ⟨by simp [componentBytes], ?_⟩
      intro c' hc'
      rcases List.mem_cons.mp hc' with rfl | hc'
      · omega
      · exact hall c' hc'

/-- The bytes of an Interest, if it fits the buffer. -/
theorem psirpInterestSerialize_eq_some {pkt : PsirpInterest} {bufLen : Nat} {buf : List UInt8}
    (h : psirpInterestSerialize pkt bufLen = some buf) :
    buf = psirpPktInterest :: (beBytes 8 pkt.nonce.toNat ++ beBytes 4 pkt.lifetimeMs.toNat ++
        UInt8.ofNat pkt.name.components.length :: componentBytes pkt.name.components) ∧
      ∀ c ∈ pkt.name.components, c.length < 256 := by
  simp only [psirpInterestSerialize, Option.bind_eq_bind] at h
  obtain ⟨b₁, h₁, h⟩ := Option.bind_eq_some_iff.mp h
  obtain ⟨b₂, h₂, h⟩ := Option.bind_eq_some_iff.mp h
  obtain ⟨b₃, h₃, h⟩ := Option.bind_eq_some_iff.mp h
  obtain ⟨b₄, h₄, h⟩ := Option.bind_eq_some_iff.mp h
  obtain ⟨rfl, hall⟩ := putComponents_eq_some h
  obtain rfl := putField_eq_some h₁
  obtain rfl := putField_eq_some h₂
  obtain rfl := putField_eq_some h₃
  obtain rfl := putField_eq_some h₄
  exact ⟨by simp, hall⟩

theorem putField_of_le {bufLen : Nat} {field buf : List UInt8}
    (h : buf.length + field.length ≤ bufLen) : putField bufLen field buf = some (buf ++ field) :=
  if_neg (Nat.not_lt.mpr h)

theorem putComponents_of_le {bufLen : Nat} :
    ∀ {cs : List CString} {buf : List UInt8}, (∀ c ∈ cs, c.length < 256) →
      buf.length + (componentBytes cs).length ≤ bufLen →
      putComponents bufLen cs buf = some (buf ++ componentBytes cs) := by
  intro cs
  induction cs with
  | nil =>
    intro buf _ _
    rw [putComponents]
    simp [componentBytes]
  | cons c cs ih =>
    intro buf hlen hfit
    have hc := hlen c List.mem_cons_self
    have hsum : (componentBytes (c :: cs)).length =
        (UInt8.ofNat c.length :: c.bytes).length + (componentBytes cs).length := by
      rw [componentBytes, List.flatMap_cons, List.length_append]
      rfl
    rw [putComponents, if_neg (by omega), putField_of_le (by omega), Option.bind_some,
      ih (fun d hd => hlen d (List.mem_cons_of_mem _ hd)) (by rw [List.length_append]; omega)]
    simp [componentBytes]

theorem length_componentBytes_le {cs : List CString} {k : Nat} (h : ∀ c ∈ cs, c.length < k) :
    (componentBytes cs).length ≤ k * cs.length := by
  induction cs with
  | nil => exact Nat.zero_le _
  | cons c cs ih =>
    have hc := h c List.mem_cons_self
    have hcs := ih fun d hd => h d (List.mem_cons_of_mem _ hd)
    have hsum : (componentBytes (c :: cs)).length = c.length + 1 + (componentBytes cs).length := by
      simp [componentBytes]
      omega
    rw [hsum, List.length_cons, Nat.mul_succ]
    omega

theorem length_of_putField {bufLen : Nat} {field buf out : List UInt8}
    (h : putField bufLen field buf = some out) : out.length ≤ bufLen := by
  simp only [putField] at h
  split at h
  · simp at h
  · rename_i hfit
    rw [← Option.some.inj h, List.length_append]
    exact Nat.not_lt.mp hfit

theorem length_of_putComponents {bufLen : Nat} (cs : List CString) :
    ∀ {buf out : List UInt8}, buf.length ≤ bufLen → putComponents bufLen cs buf = some out →
      out.length ≤ bufLen := by
  induction cs with
  | nil =>
    intro buf out hbuf h
    rwa [← Option.some.inj h]
  | cons c cs ih =>
    intro buf out _ h
    simp only [putComponents] at h
    split at h
    · simp at h
    · obtain ⟨mid, hmid, hrest⟩ := Option.bind_eq_some_iff.mp h
      exact ih (length_of_putField hmid) hrest

/-- An Interest for a name with these components fits a buffer. -/
def InterestFits (components : List CString) (bufLen : Nat) : Prop :=
  (∀ c ∈ components, c.length < 256) ∧ 14 + (componentBytes components).length ≤ bufLen

instance (components : List CString) (bufLen : Nat) : Decidable (InterestFits components bufLen) :=
  inferInstanceAs (Decidable (_ ∧ _))

/-- **An Interest is serialized exactly when** it fits. -/
theorem psirpInterestSerialize_isSome_iff {pkt : PsirpInterest} {bufLen : Nat} :
    (∃ buf, psirpInterestSerialize pkt bufLen = some buf) ↔
      InterestFits pkt.name.components bufLen := by
  constructor
  · rintro ⟨buf, h⟩
    obtain ⟨hbuf, hlen⟩ := psirpInterestSerialize_eq_some h
    refine ⟨hlen, ?_⟩
    -- what was written fits, and its length is known
    simp only [psirpInterestSerialize, Option.bind_eq_bind] at h
    obtain ⟨b₁, -, h⟩ := Option.bind_eq_some_iff.mp h
    obtain ⟨b₂, -, h⟩ := Option.bind_eq_some_iff.mp h
    obtain ⟨b₃, -, h⟩ := Option.bind_eq_some_iff.mp h
    obtain ⟨b₄, h₄, h⟩ := Option.bind_eq_some_iff.mp h
    have hle := length_of_putComponents _ (length_of_putField h₄) h
    rw [hbuf] at hle
    simp only [List.length_cons, List.length_append, length_beBytes] at hle
    omega
  · rintro ⟨hlen, hbuf⟩
    refine ⟨[] ++ [psirpPktInterest] ++ beBytes 8 pkt.nonce.toNat ++
      beBytes 4 pkt.lifetimeMs.toNat ++ [UInt8.ofNat pkt.name.components.length] ++
      componentBytes pkt.name.components, ?_⟩
    simp only [psirpInterestSerialize, Option.bind_eq_bind]
    rw [putField_of_le (by simp; omega), Option.bind_some, putField_of_le (by simp; omega),
      Option.bind_some, putField_of_le (by simp; omega), Option.bind_some,
      putField_of_le (by simp; omega), Option.bind_some, putComponents_of_le hlen]
    simp
    omega

/-- An Interest under a name with short components always fits its buffer. -/
theorem psirpInterestSerialize_isSome {pkt : PsirpInterest} {bufLen : Nat}
    (h : ∀ c ∈ pkt.name.components, c.length < psirpMaxComponent)
    (hbuf : 14 + psirpMaxName ≤ bufLen) : ∃ buf, psirpInterestSerialize pkt bufLen = some buf := by
  have hbytes : (componentBytes pkt.name.components).length ≤ psirpMaxName :=
    (length_componentBytes_le h).trans (by
      rw [psirpMaxName, Nat.mul_comm]
      exact Nat.mul_le_mul_right _ pkt.name.count_le)
  apply psirpInterestSerialize_isSome_iff.mpr
  exact ⟨fun c hc => (h c hc).trans (by decide), (Nat.add_le_add_left hbytes 14).trans hbuf⟩

/-- The bytes of a Data packet, if it fits the buffer. -/
theorem psirpDataSerialize_eq_some {pkt : PsirpData} {bufLen : Nat} {buf : List UInt8}
    (h : psirpDataSerialize pkt bufLen = some buf) :
    buf = psirpPktData :: (beBytes 8 pkt.timestamp.toNat ++ beBytes 4 pkt.freshnessMs.toNat ++
        beBytes 4 pkt.data.length ++ UInt8.ofNat pkt.name.components.length ::
          (componentBytes pkt.name.components ++ pkt.data)) ∧
      ∀ c ∈ pkt.name.components, c.length < 256 := by
  simp only [psirpDataSerialize, Option.bind_eq_bind] at h
  obtain ⟨b₁, h₁, h⟩ := Option.bind_eq_some_iff.mp h
  obtain ⟨b₂, h₂, h⟩ := Option.bind_eq_some_iff.mp h
  obtain ⟨b₃, h₃, h⟩ := Option.bind_eq_some_iff.mp h
  obtain ⟨b₄, h₄, h⟩ := Option.bind_eq_some_iff.mp h
  obtain ⟨b₅, h₅, h⟩ := Option.bind_eq_some_iff.mp h
  obtain ⟨b₆, h₆, h⟩ := Option.bind_eq_some_iff.mp h
  obtain ⟨rfl, hall⟩ := putComponents_eq_some h₆
  obtain rfl := putField_eq_some h
  obtain rfl := putField_eq_some h₁
  obtain rfl := putField_eq_some h₂
  obtain rfl := putField_eq_some h₃
  obtain rfl := putField_eq_some h₄
  obtain rfl := putField_eq_some h₅
  exact ⟨by simp, hall⟩

/-- A Data packet is serialized if it fits. -/
theorem psirpDataSerialize_of_le {pkt : PsirpData} {bufLen : Nat}
    (hlen : ∀ c ∈ pkt.name.components, c.length < 256)
    (hfit : 18 + (componentBytes pkt.name.components).length + pkt.data.length ≤ bufLen) :
    ∃ buf, psirpDataSerialize pkt bufLen = some buf := by
  refine ⟨[] ++ [psirpPktData] ++ beBytes 8 pkt.timestamp.toNat ++
    beBytes 4 pkt.freshnessMs.toNat ++ beBytes 4 pkt.data.length ++
    [UInt8.ofNat pkt.name.components.length] ++ componentBytes pkt.name.components ++ pkt.data, ?_⟩
  simp only [psirpDataSerialize, Option.bind_eq_bind]
  rw [putField_of_le (by simp; omega), Option.bind_some, putField_of_le (by simp; omega),
    Option.bind_some, putField_of_le (by simp; omega), Option.bind_some,
    putField_of_le (by simp; omega), Option.bind_some, putField_of_le (by simp; omega),
    Option.bind_some, putComponents_of_le hlen (by simp; omega), Option.bind_some,
    putField_of_le (by simp; omega)]

/-- The bytes a deserializer hashes: `'/'` and the component, for every component that leaves
`hash_buf` room for a terminator. -/
def hashedBytes : List CString → List UInt8 → List UInt8
  | [], hashBuf => hashBuf
  | c :: cs, hashBuf =>
    hashedBytes cs (if hashBuf.length + 1 + c.length < psirpMaxName then
      hashBuf ++ slash.val :: c.bytes else hashBuf)

/-! ## What the readers read -/

/-- The component loop reads back what the serializers wrote. -/
theorem takeComponents_componentBytes :
    ∀ (cs : List CString) (rest hashBuf : List UInt8), (∀ c ∈ cs, c.length < 256) →
      takeComponents cs.length (componentBytes cs ++ rest) hashBuf =
        some (cs, hashedBytes cs hashBuf, rest) := by
  intro cs
  induction cs with
  | nil => exact fun rest hashBuf _ => rfl
  | cons c cs ih =>
    intro rest hashBuf hlen
    have hc : (UInt8.ofNat c.length).toNat = c.bytes.length := by
      rw [CString.length_bytes]
      exact UInt8.toNat_ofNat_of_lt (hlen c List.mem_cons_self)
    have hbytes : componentBytes (c :: cs) ++ rest =
        UInt8.ofNat c.length :: (c.bytes ++ (componentBytes cs ++ rest)) := by
      simp [componentBytes]
    rw [hbytes, List.length_cons, takeComponents, if_neg (by rw [hc]; simp)]
    simp only [hc, List.take_left, List.drop_left, CString.ofBytes_bytes]
    rw [ih rest _ fun c' hc' => hlen c' (List.mem_cons_of_mem _ hc'), hashedBytes,
      CString.length_bytes]
    rfl

/-- Where the fields of an Interest stand. -/
theorem interest_fields (type count : UInt8) {nonce lifetime : List UInt8} (rest : List UInt8)
    (hn : nonce.length = 8) (hl : lifetime.length = 4) :
    let buf := type :: (nonce ++ lifetime ++ count :: rest)
    buf.length = 14 + rest.length ∧ (buf.drop 1).take 8 = nonce ∧ (buf.drop 9).take 4 = lifetime ∧
      (buf.drop 13).head? = some count ∧ buf.drop 14 = rest := by
  refine ⟨?_, ?_, ?_, ?_, ?_⟩
  · simp only [List.length_cons, List.length_append, hn, hl]
    omega
  · rw [List.drop_one, List.tail_cons, List.append_assoc, ← hn, List.take_left]
  · rw [List.drop_succ_cons, List.append_assoc, ← hn, List.drop_left, ← hl, List.take_left]
  · have hlen : (nonce ++ lifetime).length = 12 := by rw [List.length_append, hn, hl]
    rw [List.drop_succ_cons, ← hlen, List.drop_left]
    rfl
  · have hlen : (nonce ++ lifetime ++ [count]).length = 13 := by
      rw [List.length_append, List.length_append, hn, hl]
      rfl
    have hsplit : nonce ++ lifetime ++ count :: rest = nonce ++ lifetime ++ [count] ++ rest := by
      simp
    rw [List.drop_succ_cons, hsplit, ← hlen, List.drop_left]

/-- The name a deserializer makes of components a serializer wrote. -/
def reread (init name : PsirpName) : PsirpName :=
  { init with
    components := name.components
    hash := fnv1aHash (hashedBytes name.components [])
    count_le := name.count_le }

/-- What is decoded from a serialized Interest. -/
theorem psirpInterestDeserialize_eq {pkt : PsirpInterest} {bufLen : Nat}
    {buf : List UInt8} (h : psirpInterestSerialize pkt bufLen = some buf) (init : PsirpInterest) :
    psirpInterestDeserialize init buf =
      some ⟨reread init.name pkt.name, pkt.nonce, pkt.lifetimeMs⟩ := by
  obtain ⟨rfl, hlen⟩ := psirpInterestSerialize_eq_some h
  have hcomps := takeComponents_componentBytes pkt.name.components [] [] hlen
  rw [List.append_nil] at hcomps
  have hcount : (UInt8.ofNat pkt.name.components.length).toNat = pkt.name.components.length :=
    UInt8.toNat_ofNat_of_lt (lt_of_le_of_lt pkt.name.count_le (by decide))
  obtain ⟨hblen, hnonce, hlifetime, hhead, hrest⟩ := interest_fields psirpPktInterest
    (UInt8.ofNat pkt.name.components.length) (componentBytes pkt.name.components)
    (length_beBytes 8 pkt.nonce.toNat) (length_beBytes 4 pkt.lifetimeMs.toNat)
  rw [psirpInterestDeserialize, if_neg (by rw [hblen]; omega),
    if_neg (by rw [List.head?_cons]; exact fun h => h rfl)]
  simp only [hnonce, hlifetime, hhead, hrest, Option.getD_some, hcount]
  rw [if_neg (Nat.not_lt.mpr pkt.name.count_le), hcomps, ofBeBytes_beBytes, ofBeBytes_beBytes]
  simp only [Option.bind_eq_bind, Option.bind_some, decodedName, dif_pos pkt.name.count_le]
  have hn : UInt64.ofNat (pkt.nonce.toNat % 256 ^ 8) = pkt.nonce := by
    rw [Nat.mod_eq_of_lt (pkt.nonce.toNat_lt.trans_eq (by decide)), UInt64.ofNat_toNat]
  have hl : UInt32.ofNat (pkt.lifetimeMs.toNat % 256 ^ 4) = pkt.lifetimeMs := by
    rw [Nat.mod_eq_of_lt (pkt.lifetimeMs.toNat_lt.trans_eq (by decide)), UInt32.ofNat_toNat]
  rw [hn, hl]
  rfl

/-- **An Interest comes back with its components and without its version**: what is decoded
has the components, the nonce and the lifetime of the packet sent, and the version and the
version flag the packet had before the call. -/
theorem psirpInterestDeserialize_serialize {pkt : PsirpInterest} {bufLen : Nat}
    {buf : List UInt8} (h : psirpInterestSerialize pkt bufLen = some buf) (init : PsirpInterest) :
    ∃ hash, psirpInterestDeserialize init buf = some ⟨{ init.name with
      components := pkt.name.components, hash := hash, count_le := pkt.name.count_le },
      pkt.nonce, pkt.lifetimeMs⟩ :=
  ⟨_, psirpInterestDeserialize_eq h init⟩

/-- Where the fields of a Data packet stand. -/
theorem data_fields (type count : UInt8) {timestamp freshness dataLen : List UInt8}
    (rest : List UInt8) (ht : timestamp.length = 8) (hf : freshness.length = 4)
    (hd : dataLen.length = 4) :
    let buf := type :: (timestamp ++ freshness ++ dataLen ++ count :: rest)
    buf.length = 18 + rest.length ∧ (buf.drop 1).take 8 = timestamp ∧
      (buf.drop 9).take 4 = freshness ∧ (buf.drop 13).take 4 = dataLen ∧
      (buf.drop 17).head? = some count ∧ buf.drop 18 = rest := by
  -- the first three fields stand as in an Interest
  have hsplit : timestamp ++ freshness ++ dataLen ++ count :: rest =
      timestamp ++ freshness ++ (dataLen ++ count :: rest) := by simp
  have hlen : (timestamp ++ freshness).length = 12 := by rw [List.length_append, ht, hf]
  have hlen' : (timestamp ++ freshness ++ dataLen).length = 16 := by
    rw [List.length_append, hlen, hd]
  refine ⟨?_, ?_, ?_, ?_, ?_, ?_⟩
  · simp only [List.length_cons, List.length_append, ht, hf, hd]
    omega
  · rw [List.drop_one, List.tail_cons, hsplit, List.append_assoc, ← ht, List.take_left]
  · rw [List.drop_succ_cons, hsplit, List.append_assoc, ← ht, List.drop_left, ← hf, List.take_left]
  · rw [List.drop_succ_cons, hsplit, ← hlen, List.drop_left, ← hd, List.take_left]
  · rw [List.drop_succ_cons, ← hlen', List.drop_left]
    rfl
  · have hlast : timestamp ++ freshness ++ dataLen ++ count :: rest =
        timestamp ++ freshness ++ dataLen ++ [count] ++ rest := by simp
    have hlen'' : (timestamp ++ freshness ++ dataLen ++ [count]).length = 17 := by
      rw [List.length_append, hlen']
      rfl
    rw [List.drop_succ_cons, hlast, ← hlen'', List.drop_left]

/-- **A Data packet comes back** with its components, data, timestamp and freshness. -/
theorem psirpDataDeserialize_eq {pkt : PsirpData} {bufLen : Nat} {buf : List UInt8}
    (h : psirpDataSerialize pkt bufLen = some buf) (hdata : pkt.data.length < UInt32.size)
    (init : PsirpData) :
    psirpDataDeserialize init buf =
      some ⟨reread init.name pkt.name, pkt.data, pkt.timestamp, pkt.freshnessMs⟩ := by
  obtain ⟨rfl, hlen⟩ := psirpDataSerialize_eq_some h
  have hcomps := takeComponents_componentBytes pkt.name.components pkt.data [] hlen
  have hcount : (UInt8.ofNat pkt.name.components.length).toNat = pkt.name.components.length :=
    UInt8.toNat_ofNat_of_lt (lt_of_le_of_lt pkt.name.count_le (by decide))
  obtain ⟨hblen, htime, hfresh, hdlen, hhead, hrest⟩ := data_fields psirpPktData
    (UInt8.ofNat pkt.name.components.length) (componentBytes pkt.name.components ++ pkt.data)
    (length_beBytes 8 pkt.timestamp.toNat) (length_beBytes 4 pkt.freshnessMs.toNat)
    (length_beBytes 4 pkt.data.length)
  have ht : UInt64.ofNat (pkt.timestamp.toNat % 256 ^ 8) = pkt.timestamp := by
    rw [Nat.mod_eq_of_lt (pkt.timestamp.toNat_lt.trans_eq (by decide)), UInt64.ofNat_toNat]
  have hf : UInt32.ofNat (pkt.freshnessMs.toNat % 256 ^ 4) = pkt.freshnessMs := by
    rw [Nat.mod_eq_of_lt (pkt.freshnessMs.toNat_lt.trans_eq (by decide)), UInt32.ofNat_toNat]
  have hd : pkt.data.length % 256 ^ 4 = pkt.data.length :=
    Nat.mod_eq_of_lt (hdata.trans_eq (by decide))
  rw [psirpDataDeserialize, if_neg (by rw [hblen]; omega),
    if_neg (by rw [List.head?_cons]; exact fun h => h rfl)]
  simp only [htime, hfresh, hdlen, hhead, hrest, Option.getD_some, hcount]
  rw [if_neg (Nat.not_lt.mpr pkt.name.count_le), hcomps, ofBeBytes_beBytes, ofBeBytes_beBytes,
    ofBeBytes_beBytes, ht, hf, hd]
  simp only [Option.bind_eq_bind, Option.bind_some, decodedName, dif_pos pkt.name.count_le]
  rw [if_neg (Nat.lt_irrefl _), List.take_length]
  rfl

/-- The type byte of what is decoded to an Interest. -/
theorem head?_of_interest {init interest : PsirpInterest} {buf : List UInt8}
    (h : psirpInterestDeserialize init buf = some interest) : buf.head? = some psirpPktInterest := by
  simp only [psirpInterestDeserialize] at h
  split at h
  · cases h
  · split at h
    · cases h
    · rename_i hhead
      exact not_not.mp hhead

/-- The type byte of what is decoded to a Data packet. -/
theorem head?_of_data {init data : PsirpData} {buf : List UInt8}
    (h : psirpDataDeserialize init buf = some data) : buf.head? = some psirpPktData := by
  simp only [psirpDataDeserialize] at h
  split at h
  · cases h
  · split at h
    · cases h
    · rename_i hhead
      exact not_not.mp hhead

/-- A packet is an Interest or Data. -/
theorem not_interest_and_data {interest : PsirpInterest} {data : PsirpData} {buf : List UInt8}
    (hi : psirpInterestDeserialize PsirpInterest.zero buf = some interest)
    (hd : psirpDataDeserialize PsirpData.zero buf = some data) : False := by
  have hhead := (head?_of_interest hi).symm.trans (head?_of_data hd)
  exact absurd hhead (by decide)

end DsoBrowser
