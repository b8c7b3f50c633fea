import DsoBrowser.Compute
import DsoBrowser.ContentStore
import DsoBrowser.Lib.Bounded
import DsoBrowser.Reencoding

/-!
# The codecs stay inside their buffers

The serializers and deserializers of `psirp.c` and `compute.c` once more, with the positions they
compute: every read and write goes through an accessor that notices when it is outside its buffer,
and the sums in the length checks wrap around as `size_t` does. These **checked** forms do what the
functions on byte lists do (`Refines`), so none of them ever steps outside (`codecs_inBounds`).

What carries the readers is that the position is at most the number of bytes
read so far, 18 and 256 for each component, so no sum wraps; the same bound with the data carries the
writers.
-/

namespace DsoBrowser

open Bounded ByteOrder LengthPrefixed Signatures

/-- The buffers of fixed size that the codecs read and write. -/
inductive CodecBuffer
  /-- `buf` -/
  | packet
  /-- `name.components` -/
  | slots
  /-- `hash_buf` -/
  | hashBuf
  /-- `req->params` -/
  | params
  /-- `resp->result` -/
  | result
  deriving DecidableEq, Repr

/-- A step of a codec. -/
abbrev Codec (α : Type) : Type := Except (Stop CodecBuffer) α

/-- A sum of sizes. -/
def sizeSum (a b : Nat) : Nat := (a + b) % 2 ^ 64

theorem sizeSum_of_lt {a b : Nat} (h : a + b < 2 ^ 64) : sizeSum a b = a + b := Nat.mod_eq_of_lt h

/-- The component slots filled so far. -/
abbrev Slots : Type := {comps : List CString // comps.length ≤ psirpMaxComponents}

/-- What was put into `hash_buf`; `hash_pos` is its length. -/
abbrev HashBuf : Type := {bytes : List UInt8 // bytes.length ≤ psirpMaxName}

/-! ## Reading -/

/-- What one component adds to `hash_buf`, checked. -/
def hashBlockChecked (hashBuf : HashBuf) (comp : List UInt8) : Codec HashBuf :=
  if hashBuf.val.length + 1 + comp.length < psirpMaxName then do
    let hashBuf ← append .hashBuf psirpMaxName hashBuf [slash.val]
    append .hashBuf psirpMaxName hashBuf comp
  else .ok hashBuf

/-- The component loop of the deserializers, checked, from a position on. Those of `compute.c`
refuse some lengths, and the one for responses hashes nothing. A position that a check let pass is
not wrapped around when it moves on. -/
def readComponents (tooLong : Nat → Bool) (hashes : Bool) (buf : List UInt8) :
    Nat → Nat → Slots → HashBuf → Codec (Nat × Slots × HashBuf)
  | 0, pos, slots, hashBuf => .ok (pos, slots, hashBuf)
  | count + 1, pos, slots, hashBuf => do
    refuseIf (buf.length < sizeSum pos 1)
    let compLen ← readAt .packet buf pos
    let pos := pos + 1
    refuseIf (buf.length < sizeSum pos compLen.toNat ∨ tooLong compLen.toNat)
    let comp ← readRange .packet buf pos compLen.toNat
    let slots ← append .slots psirpMaxComponents slots [CString.ofBytes comp.val]
    let pos := pos + compLen.toNat
    let hashBuf ← if hashes then hashBlockChecked hashBuf comp.val else .ok hashBuf
    readComponents tooLong hashes buf count pos slots hashBuf

/-- `psirpInterestDeserialize`, checked. -/
def psirpInterestDeserializeChecked (pkt : PsirpInterest) (buf : List UInt8) :
    Codec PsirpInterest := do
  refuseIf (buf.length < 14)
  let type ← readAt .packet buf 0
  refuseIf (type ≠ psirpPktInterest)
  let nonce ← readRange .packet buf 1 8
  let lifetime ← readRange .packet buf 9 4
  refuseIf (buf.length < sizeSum 13 1)
  let count ← readAt .packet buf 13
  refuseIf (psirpMaxComponents < count.toNat)
  let (_, slots, hashBuf) ← readComponents anyLength true buf count.toNat 14
    ⟨[], Nat.zero_le _⟩ ⟨[], Nat.zero_le _⟩
  let name := { pkt.name with
    components := slots.val, hash := fnv1aHash hashBuf.val, count_le := slots.property }
  return ⟨name, UInt64.ofNat (ofBeBytes nonce.val), UInt32.ofNat (ofBeBytes lifetime.val)⟩

/-- A Data packet as it is received: its data stays in the buffer. -/
structure ReceivedData where
  name : PsirpName
  timestamp : UInt64
  freshnessMs : UInt32
  /-- `data - buf` -/
  dataPos : Nat
  dataLen : Nat

/-- `psirpDataDeserialize`, checked. -/
def psirpDataDeserializeChecked (pkt : PsirpData) (buf : List UInt8) : Codec ReceivedData := do
  refuseIf (buf.length < 18)
  let type ← readAt .packet buf 0
  refuseIf (type ≠ psirpPktData)
  let timestamp ← readRange .packet buf 1 8
  let freshness ← readRange .packet buf 9 4
  let dlen ← readRange .packet buf 13 4
  let dataLen := ofBeBytes dlen.val
  refuseIf (buf.length < sizeSum 17 1)
  let count ← readAt .packet buf 17
  refuseIf (psirpMaxComponents < count.toNat)
  let (pos, slots, hashBuf) ← readComponents anyLength true buf count.toNat 18
    ⟨[], Nat.zero_le _⟩ ⟨[], Nat.zero_le _⟩
  let name := { pkt.name with
    components := slots.val, hash := fnv1aHash hashBuf.val, count_le := slots.property }
  refuseIf (buf.length < sizeSum pos dataLen)
  return ⟨name, UInt64.ofNat (ofBeBytes timestamp.val), UInt32.ofNat (ofBeBytes freshness.val),
    pos, dataLen⟩

/-- The lengths that the loops of `compute.c` refuse. -/
def noRoom (compLen : Nat) : Bool := psirpMaxComponent ≤ compLen

/-- `psirpComputeReqDeserialize`, checked. -/
def psirpComputeReqDeserializeChecked (name : PsirpName) (buf : List UInt8) :
    Codec PsirpComputeReq := do
  refuseIf (buf.length < 14)
  let type ← readAt .packet buf 0
  refuseIf (type ≠ psirpPktComputeReq)
  let nonce ← readRange .packet buf 1 8
  let plen ← readRange .packet buf 9 4
  let paramsLen := ofBeBytes plen.val
  refuseIf (buf.length < sizeSum 13 1)
  let count ← readAt .packet buf 13
  refuseIf (psirpMaxComponents < count.toNat)
  let (pos, slots, _) ← readComponents noRoom true buf count.toNat 14
    ⟨[], Nat.zero_le _⟩ ⟨[], Nat.zero_le _⟩
  let name := { name with components := slots.val, hash := 0, count_le := slots.property }
  refuseIf (buf.length < sizeSum pos paramsLen)
  refuseIf (psirpComputeMaxParams < paramsLen)
  let bytes ← readRange .packet buf pos paramsLen
  let params ← append .params psirpComputeMaxParams ⟨[], Nat.zero_le _⟩ bytes.val
  return ⟨name, params.val, UInt64.ofNat (ofBeBytes nonce.val), params.property⟩

/-- `psirpComputeRespDeserialize`, checked. -/
def psirpComputeRespDeserializeChecked (name : PsirpName) (buf : List UInt8) :
    Codec PsirpComputeResp := do
  refuseIf (buf.length < 10)
  let type ← readAt .packet buf 0
  refuseIf (type ≠ psirpPktComputeResp)
  let rlen ← readRange .packet buf 1 4
  let resultLen := ofBeBytes rlen.val
  let pos := 5
  refuseIf (buf.length < sizeSum pos resultLen)
  refuseIf (psirpComputeMaxResult < resultLen)
  let bytes ← readRange .packet buf pos resultLen
  let result ← append .result psirpComputeMaxResult ⟨[], Nat.zero_le _⟩ bytes.val
  let pos := pos + resultLen
  refuseIf (buf.length < sizeSum pos psirpSignSize)
  let signature ← readRange .packet buf pos psirpSignSize
  let pos := pos + psirpSignSize
  refuseIf (buf.length < sizeSum pos psirpKeySize)
  let pubkey ← readRange .packet buf pos psirpKeySize
  let pos := pos + psirpKeySize
  refuseIf (buf.length < sizeSum pos 1)
  let count ← readAt .packet buf pos
  refuseIf (psirpMaxComponents < count.toNat)
  let (_, slots, _) ← readComponents noRoom false buf count.toNat (pos + 1)
    ⟨[], Nat.zero_le _⟩ ⟨[], Nat.zero_le _⟩
  let name := { name with components := slots.val, count_le := slots.property }
  return ⟨name, result.val, signature, pubkey, result.property⟩

/-! ## Writing -/

/-- Where a serializer is in its buffer. -/
structure Writer where
  pos : Nat
  buf : List UInt8

namespace Writer

/-- `memcpy(buf + pos, field, len); pos += len;` -/
def write (w : Writer) (field : List UInt8) : Codec Writer :=
  (writeRange .packet w.buf w.pos field).map fun buf => ⟨w.pos + field.length, buf⟩

/-- `if (pos + len > buf_len) return 0;` and then the field. -/
def put (w : Writer) (field : List UInt8) : Codec Writer := do
  refuseIf (w.buf.length < sizeSum w.pos field.length)
  w.write field

/-- The component loop of the serializers, checked. -/
def putAll : List CString → Writer → Codec Writer
  | [], w => .ok w
  | c :: cs, w => do
    refuseIf (255 < c.length)
    refuseIf (w.buf.length < sizeSum (sizeSum w.pos 1) c.length)
    let w ← w.write [UInt8.ofNat c.length]
    let w ← w.write c.bytes
    putAll cs w

end Writer

/-- `psirpInterestSerialize`, checked. -/
def psirpInterestSerializeChecked (pkt : PsirpInterest) (buf : List UInt8) : Codec Writer := do
  let w : Writer := ⟨0, buf⟩
  let w ← w.put [psirpPktInterest]
  let w ← w.put (beBytes 8 pkt.nonce.toNat)
  let w ← w.put (beBytes 4 pkt.lifetimeMs.toNat)
  let w ← w.put [UInt8.ofNat pkt.name.components.length]
  w.putAll pkt.name.components

/-- `psirpDataSerialize`, checked. -/
def psirpDataSerializeChecked (pkt : PsirpData) (buf : List UInt8) : Codec Writer := do
  let w : Writer := ⟨0, buf⟩
  let w ← w.put [psirpPktData]
  let w ← w.put (beBytes 8 pkt.timestamp.toNat)
  let w ← w.put (beBytes 4 pkt.freshnessMs.toNat)
  let w ← w.put (beBytes 4 pkt.data.length)
  let w ← w.put [UInt8.ofNat pkt.name.components.length]
  let w ← w.putAll pkt.name.components
  w.put pkt.data

/-- `psirpComputeReqSerialize`, checked. -/
def psirpComputeReqSerializeChecked (req : PsirpComputeReq) (buf : List UInt8) :
    Codec Writer := do
  let w : Writer := ⟨0, buf⟩
  let w ← w.put [psirpPktComputeReq]
  let w ← w.put (beBytes 8 req.nonce.toNat)
  let w ← w.put (beBytes 4 req.params.length)
  let w ← w.put [UInt8.ofNat req.name.components.length]
  let w ← w.putAll req.name.components
  w.put req.params

/-- `psirpComputeRespSerialize`, checked. -/
def psirpComputeRespSerializeChecked (resp : PsirpComputeResp) (buf : List UInt8) :
    Codec Writer := do
  let w : Writer := ⟨0, buf⟩
  let w ← w.put [psirpPktComputeResp]
  let w ← w.put (beBytes 4 resp.result.length)
  let w ← w.put resp.result
  let w ← w.put resp.signature.toList
  let w ← w.put resp.pubkey.toList
  let w ← w.put [UInt8.ofNat resp.name.components.length]
  w.putAll resp.name.components

/-! ## The readers refine -/

theorem hashBlockChecked_eq (hashBuf : HashBuf) (comp : List UInt8) :
    ∃ hashBuf', hashBlockChecked hashBuf comp = .ok hashBuf' ∧
      hashBuf'.val = hashBlock hashBuf.val comp := by
  rw [hashBlockChecked, hashBlock]
  by_cases hroom : hashBuf.val.length + 1 + comp.length < psirpMaxName
  · rw [if_pos hroom, if_pos hroom, append, dif_pos (by simp; omega)]
    refine ⟨⟨hashBuf.val ++ slash.val :: comp, by simp; omega⟩, ?_, rfl⟩
    have hfits : (hashBuf.val ++ [slash.val]).length + comp.length ≤ psirpMaxName := by
      simp
      omega
    change append CodecBuffer.hashBuf psirpMaxName ⟨hashBuf.val ++ [slash.val], _⟩ comp = _
    rw [append, dif_pos hfits]
    simp
  · rw [if_neg hroom, if_neg hroom]
    exact ⟨hashBuf, rfl, rfl⟩

/-- The loop has gone on from a position over so many components. -/
structure ReadTo (hashes : Bool) (buf : List UInt8) (pos count : Nat) (slots : Slots)
    (hashBuf : HashBuf) (s : Nat × Slots × HashBuf) (c : List (List UInt8) × List UInt8) :
    Prop where
  pos_le : s.1 ≤ buf.length
  pos_bound : s.1 ≤ pos + 256 * count
  rest : c.2 = buf.drop s.1
  slots : s.2.1.val = slots.val ++ c.1.map CString.ofBytes
  hash : hashes = true → s.2.2.val = c.1.foldl hashBlock hashBuf.val

/-- One component more in front. -/
theorem ReadTo.cons {hashes : Bool} {buf : List UInt8} {pos count len : Nat}
    {slots slots' : Slots} {hashBuf hashBuf' : HashBuf} {comp : List UInt8}
    {s : Nat × Slots × HashBuf} {c : List (List UInt8) × List UInt8}
    (h : ReadTo hashes buf (pos + 1 + len) count slots' hashBuf' s c) (hlen : len < 256)
    (hslots : slots'.val = slots.val ++ [CString.ofBytes comp])
    (hhash : hashes = true → hashBuf'.val = hashBlock hashBuf.val comp) :
    ReadTo hashes buf pos (count + 1) slots hashBuf s (comp :: c.1, c.2) := by
  refine ⟨h.pos_le, ?_, h.rest, ?_, fun htrue => ?_⟩
  · have := h.pos_bound
    omega
  · rw [h.slots, hslots]
    simp
  · rw [h.hash htrue, hhash htrue]
    rfl

/-- **The component loop reads blocks** and stays inside the buffers while there is a slot for
each. -/
theorem readComponents_refines (tooLong : Nat → Bool) (hashes : Bool) (buf : List UInt8)
    (count : Nat) : ∀ (pos : Nat) (slots : Slots) (hashBuf : HashBuf), pos ≤ buf.length →
      pos + 256 * count < 2 ^ 64 → slots.val.length + count ≤ psirpMaxComponents →
      Refines (ReadTo hashes buf pos count slots hashBuf)
        (readComponents tooLong hashes buf count pos slots hashBuf)
        (takeBlocks tooLong count (buf.drop pos)) := by
  induction count with
  | zero =>
    intro pos slots hashBuf hpos _ _
    exact .ok ⟨hpos, Nat.le_refl _, rfl, (List.append_nil _).symm, fun _ => rfl⟩
  | succ count ih =>
    intro pos slots hashBuf hpos hbound hslots
    rw [readComponents, takeBlocks]
    have hsum : sizeSum pos 1 = pos + 1 := sizeSum_of_lt (by omega)
    cases hget : buf[pos]? with
    | none =>
      have hle : buf.length ≤ pos := List.getElem?_eq_none_iff.mp hget
      rw [takeBlock_drop_of_le hle, refuseIf, if_pos (by omega)]
      exact .refused
    | some len =>
      have hlt : pos < buf.length := (List.getElem?_eq_some_iff.mp hget).1
      have hlen : len.toNat < 256 := len.toNat_lt
      have hsum' : sizeSum (pos + 1) len.toNat = pos + 1 + len.toNat := sizeSum_of_lt (by omega)
      refine .pass_bind (by omega) (.readAt_bind hget ?_)
      dsimp only
      rw [takeBlock_drop hget, hsum']
      by_cases hstop : buf.length < pos + 1 + len.toNat ∨ tooLong len.toNat = true
      · rw [if_pos hstop, refuseIf, if_pos hstop]
        exact .refused
      · rw [if_neg hstop, Option.bind_some]
        have hfits : pos + 1 + len.toNat ≤ buf.length :=
          Nat.le_of_not_lt fun h => hstop (.inl h)
        refine .pass_bind hstop (.readRange_bind hfits fun comp hcomp =>
          .append_bind (by simp; omega) fun slots' hslots' => ?_)
        have hcount : slots'.val.length = slots.val.length + 1 := by
          rw [hslots']
          simp
        have hnext (hashBuf' : HashBuf)
            (hval : hashes = true → hashBuf'.val = hashBlock hashBuf.val comp.val) :
            Refines (ReadTo hashes buf pos (count + 1) slots hashBuf)
              (readComponents tooLong hashes buf count (pos + 1 + len.toNat) slots' hashBuf')
              ((takeBlocks tooLong count (buf.drop (pos + 1 + len.toNat))).map
                fun c => ((buf.drop (pos + 1)).take len.toNat :: c.1, c.2)) := by
          rw [← hcomp]
          exact (ih _ slots' hashBuf' hfits (by omega) (by omega)).map_right fun s c h =>
            h.cons hlen hslots' hval
        cases hashes with
        | false => exact hnext hashBuf fun h => absurd h (by decide)
        | true =>
          obtain ⟨hashBuf', hrun, hval⟩ := hashBlockChecked_eq hashBuf comp.val
          rw [if_pos rfl, hrun]
          exact hnext hashBuf' fun _ => hval

/-- The loop as a deserializer starts it. -/
theorem readComponents_start (tooLong : Nat → Bool) (hashes : Bool) {buf : List UInt8}
    {pos count : Nat} (hpos : pos ≤ buf.length) (hbound : pos < 2 ^ 63)
    (hcount : ¬ psirpMaxComponents < count) :
    Refines (ReadTo hashes buf pos count ⟨[], Nat.zero_le _⟩ ⟨[], Nat.zero_le _⟩)
      (readComponents tooLong hashes buf count pos ⟨[], Nat.zero_le _⟩ ⟨[], Nat.zero_le _⟩)
      (takeBlocks tooLong count (buf.drop pos)) := by
  rw [psirpMaxComponents] at hcount
  refine readComponents_refines tooLong hashes buf count pos _ _ hpos (by omega) ?_
  rw [List.length_nil, psirpMaxComponents]
  omega

section ReadTo

variable {hashes : Bool} {buf : List UInt8} {pos count : Nat} {slots : Slots} {hashBuf : HashBuf}
  {s : Nat × Slots × HashBuf} {c : List (List UInt8) × List UInt8}

theorem ReadTo.decodedName_eq
    (h : ReadTo true buf pos count ⟨[], Nat.zero_le _⟩ ⟨[], Nat.zero_le _⟩ s c) (init : PsirpName) :
    decodedName init (c.1.map CString.ofBytes) (c.1.foldl hashBlock []) = some { init with
      components := s.2.1.val, hash := fnv1aHash s.2.2.val, count_le := s.2.1.property } := by
  have hslots : s.2.1.val = c.1.map CString.ofBytes := h.slots
  have hhash : s.2.2.val = c.1.foldl hashBlock [] := h.hash rfl
  rw [decodedName, dif_pos (hslots ▸ s.2.1.property), Option.some.injEq]
  exact PsirpName.ext hslots.symm (congrArg fnv1aHash hhash.symm) rfl rfl

theorem ReadTo.fillComponents_eq
    (h : ReadTo hashes buf pos count ⟨[], Nat.zero_le _⟩ ⟨[], Nat.zero_le _⟩ s c)
    (init : PsirpName) : fillComponents init (c.1.map CString.ofBytes) = some { init with
      components := s.2.1.val, count_le := s.2.1.property } := by
  have hslots : s.2.1.val = c.1.map CString.ofBytes := h.slots
  rw [fillComponents, dif_pos (hslots ▸ s.2.1.property), Option.some.injEq]
  exact PsirpName.ext hslots.symm rfl rfl rfl

end ReadTo

theorem exists_getElem? (buf : List UInt8) (i : Nat) (h : i < buf.length) :
    ∃ b, buf[i]? = some b := ⟨buf[i], List.getElem?_eq_getElem h⟩

theorem head?_drop_getD {buf : List UInt8} {i : Nat} {b : UInt8} (h : buf[i]? = some b) :
    (buf.drop i).head?.getD 0 = b := by
  rw [List.head?_drop, h]
  rfl

/-- The test of the type byte. -/
theorem type_ne_iff {buf : List UInt8} {type : UInt8} (h : buf[0]? = some type) (pktType : UInt8) :
    type ≠ pktType ↔ buf.head? ≠ some pktType := by
  rw [List.head?_eq_getElem?, h, ne_eq, ne_eq, Option.some.injEq]

theorem psirpInterestDeserializeChecked_refines (pkt : PsirpInterest) (buf : List UInt8) :
    Refines Eq (psirpInterestDeserializeChecked pkt buf) (psirpInterestDeserialize pkt buf) := by
  rw [psirpInterestDeserializeChecked, psirpInterestDeserialize]
  refine .refuseIf_bind Iff.rfl fun hlen => ?_
  obtain ⟨type, htype⟩ := exists_getElem? buf 0 (by omega)
  obtain ⟨count, hcount⟩ := exists_getElem? buf 13 (by omega)
  refine .readAt_bind htype (.refuseIf_bind (type_ne_iff htype _) fun _ => ?_)
  refine .readRange_bind (by omega) fun nonce hnonce =>
    .readRange_bind (by omega) fun lifetime hlifetime =>
    .pass_bind (by rw [sizeSum_of_lt (by decide)]; omega) (.readAt_bind hcount ?_)
  dsimp only
  rw [head?_drop_getD hcount]
  refine .refuseIf_bind Iff.rfl fun hmax => ?_
  rw [takeComponents_eq, Option.bind_eq_bind, Option.bind_map]
  refine (readComponents_start anyLength true (by omega) (by decide) hmax).bind
    fun s c h => ?_
  dsimp only [Function.comp_apply]
  rw [h.decodedName_eq, hnonce, hlifetime]
  exact .ok rfl

/-- What a received Data packet stands for: the packet with the bytes its data pointer points at. -/
structure ReceivedAs (buf : List UInt8) (received : ReceivedData) (pkt : PsirpData) : Prop where
  eq : pkt = ⟨received.name, (buf.drop received.dataPos).take received.dataLen,
    received.timestamp, received.freshnessMs⟩
  inside : received.dataPos + received.dataLen ≤ buf.length

theorem psirpDataDeserializeChecked_refines (pkt : PsirpData) (buf : List UInt8) :
    Refines (ReceivedAs buf) (psirpDataDeserializeChecked pkt buf)
      (psirpDataDeserialize pkt buf) := by
  rw [psirpDataDeserializeChecked, psirpDataDeserialize]
  refine .refuseIf_bind Iff.rfl fun hlen => ?_
  obtain ⟨type, htype⟩ := exists_getElem? buf 0 (by omega)
  obtain ⟨count, hcount⟩ := exists_getElem? buf 17 (by omega)
  refine .readAt_bind htype (.refuseIf_bind (type_ne_iff htype _) fun _ => ?_)
  refine .readRange_bind (by omega) fun timestamp htimestamp =>
    .readRange_bind (by omega) fun freshness hfreshness =>
    .readRange_bind (by omega) fun dlen hdlen =>
    .pass_bind (by rw [sizeSum_of_lt (by decide)]; omega) (.readAt_bind hcount ?_)
  dsimp only
  rw [head?_drop_getD hcount]
  refine .refuseIf_bind Iff.rfl fun hmax => ?_
  rw [takeComponents_eq, Option.bind_eq_bind, Option.bind_map]
  refine (readComponents_start anyLength true (by omega) (by decide) hmax).bind
    fun s c h => ?_
  dsimp only [Function.comp_apply]
  rw [h.decodedName_eq, ← htimestamp, ← hfreshness, ← hdlen]
  have hposle := h.pos_le
  have hpos := h.pos_bound
  have hcountlt : count.toNat < 256 := count.toNat_lt
  have hdata : ofBeBytes dlen.val < 2 ^ 32 := (ofBeBytes_lt dlen.property).trans_eq (by decide)
  have hrest : c.2.length = buf.length - s.1 := by rw [h.rest, List.length_drop]
  rw [sizeSum_of_lt (by omega)]
  refine .refuseIf_bind (by omega) fun hfits => .ok ⟨?_, Nat.le_of_not_lt hfits⟩
  rw [h.rest]

theorem takeShortComponents_eq (count : Nat) : ∀ buf : List UInt8,
    takeShortComponents count buf = (takeBlocks noRoom count buf).map fun (blocks, rest) =>
      (blocks.map CString.ofBytes, rest) := by
  induction count with
  | zero => exact fun _ => rfl
  | succ count ih =>
    intro buf
    cases buf with
    | nil => rfl
    | cons compLen buf =>
      rw [takeShortComponents, takeBlocks, takeBlock]
      by_cases hstop : buf.length < compLen.toNat ∨ psirpMaxComponent ≤ compLen.toNat
      · rw [if_pos hstop, if_pos (by simpa [noRoom] using hstop)]
        rfl
      · rw [if_neg hstop, if_neg (by simpa [noRoom] using hstop), ih, Option.bind_some]
        dsimp only
        cases takeBlocks noRoom count (buf.drop compLen.toNat) <;> rfl

theorem psirpComputeReqDeserializeChecked_refines (name : PsirpName) (buf : List UInt8) :
    Refines Eq (psirpComputeReqDeserializeChecked name buf)
      (psirpComputeReqDeserialize name buf) := by
  rw [psirpComputeReqDeserializeChecked, psirpComputeReqDeserialize]
  refine .refuseIf_bind Iff.rfl fun hlen => ?_
  obtain ⟨type, htype⟩ := exists_getElem? buf 0 (by omega)
  obtain ⟨count, hcount⟩ := exists_getElem? buf 13 (by omega)
  refine .readAt_bind htype (.refuseIf_bind (type_ne_iff htype _) fun _ => ?_)
  refine .readRange_bind (by omega) fun ⟨nonce, _⟩ hnonce =>
    .readRange_bind (by omega) fun ⟨plen, hplen⟩ heq =>
    .pass_bind (by rw [sizeSum_of_lt (by decide)]; omega) (.readAt_bind hcount ?_)
  obtain rfl : nonce = (buf.drop 1).take 8 := hnonce
  obtain rfl : plen = (buf.drop 9).take 4 := heq
  dsimp only
  rw [head?_drop_getD hcount]
  refine .refuseIf_bind Iff.rfl fun hmax => ?_
  rw [takeShortComponents_eq, Option.bind_eq_bind, Option.bind_map]
  refine (readComponents_start noRoom true (by omega) (by decide) hmax).bind
    fun s c h => ?_
  dsimp only [Function.comp_apply]
  rw [h.fillComponents_eq, Option.bind_eq_bind, Option.bind_some]
  have hposle := h.pos_le
  have hpos := h.pos_bound
  have hcountlt : count.toNat < 256 := count.toNat_lt
  have hparams : ofBeBytes ((buf.drop 9).take 4) < 2 ^ 32 :=
    (ofBeBytes_lt hplen).trans_eq (by decide)
  have hrest : c.2.length = buf.length - s.1 := by rw [h.rest, List.length_drop]
  rw [sizeSum_of_lt (by omega)]
  refine .refuseIf_bind (by omega) fun hfits => .refuseIf_bind_dite Iff.rfl fun hmaxParams => ?_
  refine .readRange_bind (by omega) fun bytes hbytes => .append_bind ?_ fun params hparams => ?_
  · rw [bytes.property, List.length_nil, Nat.zero_add]
    exact Nat.le_of_not_lt hmaxParams
  · obtain ⟨params, hle⟩ := params
    have heq : params = c.2.take (ofBeBytes ((buf.drop 9).take 4)) := by
      rw [h.rest]
      exact hparams.trans hbytes
    subst heq
    exact .ok rfl

/-- A field of a fixed size. -/
theorem takeVector_refines {σ γ : Type} {R : σ → γ → Prop} {buf : List UInt8} {pos k : Nat}
    {f : List.Vector UInt8 k → Codec σ} {g : List.Vector UInt8 k × List UInt8 → Option γ}
    (hpos : pos ≤ buf.length) (hsum : pos + k < 2 ^ 64)
    (h : ∀ field, pos + k ≤ buf.length → Refines R (f field) (g (field, buf.drop (pos + k)))) :
    Refines R (refuseIf (buf.length < sizeSum pos k) >>= fun _ =>
      readRange .packet buf pos k >>= f) ((takeVector k (buf.drop pos)).bind g) := by
  have hlen : (buf.drop pos).length = buf.length - pos := List.length_drop
  rw [sizeSum_of_lt hsum, takeVector]
  by_cases hfits : buf.length < pos + k
  · rw [refuseIf, if_pos hfits, dif_pos (by omega)]
    exact .refused
  · rw [dif_neg (by omega), Option.bind_some, List.drop_drop]
    refine .pass_bind hfits (.readRange_bind (Nat.le_of_not_lt hfits) fun field hfield => ?_)
    obtain ⟨field, hk⟩ := field
    obtain rfl : field = (buf.drop pos).take k := hfield
    exact h _ (Nat.le_of_not_lt hfits)

theorem psirpComputeRespDeserializeChecked_refines (name : PsirpName) (buf : List UInt8) :
    Refines Eq (psirpComputeRespDeserializeChecked name buf)
      (psirpComputeRespDeserialize name buf) := by
  rw [psirpComputeRespDeserializeChecked, psirpComputeRespDeserialize]
  refine .refuseIf_bind Iff.rfl fun hlen => ?_
  obtain ⟨type, htype⟩ := exists_getElem? buf 0 (by omega)
  refine .readAt_bind htype (.refuseIf_bind (type_ne_iff htype _) fun _ => ?_)
  refine .readRange_bind (by omega) fun ⟨rlen, hrlen⟩ heq => ?_
  obtain rfl : rlen = (buf.drop 1).take 4 := heq
  have hresult : ofBeBytes ((buf.drop 1).take 4) < 2 ^ 32 :=
    (ofBeBytes_lt hrlen).trans_eq (by decide)
  dsimp only
  rw [sizeSum_of_lt (by omega)]
  refine .refuseIf_bind (by rw [List.length_drop]; omega) fun hfits =>
    .refuseIf_bind_dite Iff.rfl fun hmaxResult => ?_
  refine .readRange_bind (by omega) fun bytes hbytes => .append_bind ?_ fun result hresult' => ?_
  · rw [bytes.property, List.length_nil, Nat.zero_add]
    exact Nat.le_of_not_lt hmaxResult
  · obtain ⟨result, hle⟩ := result
    obtain rfl : result = (buf.drop 5).take (ofBeBytes ((buf.drop 1).take 4)) :=
      hresult'.trans hbytes
    rw [Option.bind_eq_bind, List.drop_drop]
    have hsign : psirpSignSize = 64 := rfl
    have hkey : psirpKeySize = 32 := rfl
    refine takeVector_refines (by omega) (by omega) fun signature hsignature => ?_
    dsimp only
    refine takeVector_refines (by omega) (by omega) fun pubkey hpubkey => ?_
    dsimp only
    rw [sizeSum_of_lt (by omega)]
    cases hrest : buf.drop (5 + ofBeBytes ((buf.drop 1).take 4) + psirpSignSize + psirpKeySize) with
    | nil =>
      have hend := List.drop_eq_nil_iff.mp hrest
      rw [refuseIf, if_pos (by omega)]
      exact .refused
    | cons count rest =>
      have hget : buf[5 + ofBeBytes ((buf.drop 1).take 4) + psirpSignSize + psirpKeySize]? =
          some count := by
        rw [← List.head?_drop, hrest]
        rfl
      have hlt := (List.getElem?_eq_some_iff.mp hget).1
      obtain rfl : buf.drop (5 + ofBeBytes ((buf.drop 1).take 4) + psirpSignSize + psirpKeySize +
          1) = rest := by
        rw [← List.tail_drop, hrest]
        rfl
      refine .pass_bind (by omega) (.readAt_bind hget (.refuseIf_bind Iff.rfl fun hmax => ?_))
      rw [takeShortComponents_eq, Option.bind_eq_bind, Option.bind_map]
      refine (readComponents_start noRoom false (by omega) (by omega) hmax).bind fun s c h => ?_
      dsimp only [Function.comp_apply]
      rw [h.fillComponents_eq]
      exact .ok rfl

/-! ## The writers refine -/

/-- The writer has written these bytes, at most `max` of them, into a buffer of this size. -/
structure Written (bufLen max : Nat) (w : Writer) (out : List UInt8) : Prop where
  pos : w.pos = out.length
  length : w.buf.length = bufLen
  take : w.buf.take w.pos = out
  le : out.length ≤ max

namespace Written

variable {bufLen max : Nat} {w : Writer} {out : List UInt8}

theorem start (buf : List UInt8) : Written buf.length 0 ⟨0, buf⟩ [] :=
  ⟨rfl, rfl, rfl, Nat.le_refl _⟩

theorem pos_le (h : Written bufLen max w out) : w.pos ≤ bufLen := by
  have hlen := congrArg List.length h.take
  rw [List.length_take, h.length, ← h.pos] at hlen
  omega

theorem weaken (h : Written bufLen max w out) {max' : Nat} (hmax : max ≤ max') :
    Written bufLen max' w out := ⟨h.pos, h.length, h.take, h.le.trans hmax⟩

/-- A field that fits. -/
theorem write (h : Written bufLen max w out) (field : List UInt8)
    (hfits : out.length + field.length ≤ bufLen) :
    ∃ w', w.write field = .ok w' ∧ Written bufLen (max + field.length) w' (out ++ field) := by
  have hroom : w.pos + field.length ≤ w.buf.length := by
    rw [h.pos, h.length]
    exact hfits
  have htake : (w.buf.take w.pos).length = w.pos := List.length_take_of_le (by omega)
  refine ⟨⟨w.pos + field.length, w.buf.take w.pos ++ field ++
    w.buf.drop (w.pos + field.length)⟩, ?_, ?_, ?_, ?_, ?_⟩
  · rw [Writer.write, writeRange, if_pos hroom]
    rfl
  · rw [List.length_append, ← h.pos]
  · rw [List.length_append, List.length_append, List.length_drop, htake, ← h.length]
    omega
  · rw [List.take_left' (by rw [List.length_append, htake]), h.take]
  · rw [List.length_append]
    exact Nat.add_le_add_right h.le _

theorem put (h : Written bufLen max w out) {field : List UInt8}
    (hsum : max + field.length < 2 ^ 64) :
    Refines (Written bufLen (max + field.length)) (w.put field) (putField bufLen field out) := by
  have hle := h.le
  rw [Writer.put, putField, h.pos, h.length, sizeSum_of_lt (by omega)]
  refine .refuseIf_bind Iff.rfl fun hfits => ?_
  obtain ⟨w', hrun, hw'⟩ := h.write field (Nat.le_of_not_lt hfits)
  rw [hrun]
  exact .ok hw'

theorem putAll : ∀ {cs : List CString} {max : Nat} {w : Writer} {out : List UInt8},
    Written bufLen max w out → max + 256 * cs.length < 2 ^ 64 →
      Refines (Written bufLen (max + 256 * cs.length)) (Writer.putAll cs w)
        (putComponents bufLen cs out) := by
  intro cs
  induction cs with
  | nil => exact fun h _ => .ok h
  | cons c cs ih =>
    intro max w out h hsum
    rw [List.length_cons] at hsum
    have hle := h.le
    rw [Writer.putAll, putComponents]
    refine .refuseIf_bind Iff.rfl fun hshort => ?_
    have hsum' : sizeSum (sizeSum w.pos 1) c.length = out.length + 1 + c.length := by
      rw [h.pos, sizeSum_of_lt (b := 1) (by omega), sizeSum_of_lt (by omega)]
    have hblock : (UInt8.ofNat c.length :: c.bytes).length = c.length + 1 := by
      rw [List.length_cons, CString.length_bytes]
    rw [hsum', h.length, putField, hblock]
    by_cases hfull : bufLen < out.length + 1 + c.length
    · rw [refuseIf, if_pos hfull, if_pos (by omega)]
      exact .refused
    · rw [if_neg (by omega), Option.bind_some]
      obtain ⟨w₁, hrun₁, hw₁⟩ := h.write [UInt8.ofNat c.length] (by
        rw [List.length_singleton]
        omega)
      obtain ⟨w₂, hrun₂, hw₂⟩ := hw₁.write c.bytes (by
        rw [List.length_append, List.length_singleton, CString.length_bytes]
        omega)
      rw [List.append_assoc, List.singleton_append, List.length_singleton,
        CString.length_bytes] at hw₂
      refine .pass_bind hfull ?_
      rw [hrun₁]
      change Refines _ (w₁.write c.bytes >>= Writer.putAll cs) _
      rw [hrun₂]
      refine (ih hw₂ (by omega)).mono fun w out hw => hw.weaken ?_
      rw [List.length_cons]
      omega

end Written

theorem psirpInterestSerializeChecked_refines (pkt : PsirpInterest) (buf : List UInt8) :
    ∃ max, Refines (Written buf.length max) (psirpInterestSerializeChecked pkt buf)
      (psirpInterestSerialize pkt buf.length) := by
  have hcount : pkt.name.components.length ≤ 16 := pkt.name.count_le
  rw [psirpInterestSerializeChecked, psirpInterestSerialize]
  refine ⟨_, .bind (Written.start buf |>.put ?_) fun _ _ h => .bind (h.put ?_) fun _ _ h =>
    .bind (h.put ?_) fun _ _ h => .bind (h.put ?_) fun _ _ h => h.putAll ?_⟩
  all_goals simp only [List.length_singleton, length_beBytes]
  all_goals omega

theorem psirpDataSerializeChecked_refines {pkt : PsirpData}
    (hdata : pkt.data.length ≤ psirpMaxData) (buf : List UInt8) :
    ∃ max, Refines (Written buf.length max) (psirpDataSerializeChecked pkt buf)
      (psirpDataSerialize pkt buf.length) := by
  have hcount : pkt.name.components.length ≤ 16 := pkt.name.count_le
  rw [psirpMaxData] at hdata
  rw [psirpDataSerializeChecked, psirpDataSerialize]
  refine ⟨_, .bind (Written.start buf |>.put ?_) fun _ _ h => .bind (h.put ?_) fun _ _ h =>
    .bind (h.put ?_) fun _ _ h => .bind (h.put ?_) fun _ _ h => .bind (h.put ?_) fun _ _ h =>
    .bind (h.putAll ?_) fun _ _ h => h.put ?_⟩
  all_goals simp only [List.length_singleton, length_beBytes]
  all_goals omega

theorem psirpComputeReqSerializeChecked_refines (req : PsirpComputeReq) (buf : List UInt8) :
    ∃ max, Refines (Written buf.length max) (psirpComputeReqSerializeChecked req buf)
      (psirpComputeReqSerialize req buf.length) := by
  have hcount : req.name.components.length ≤ 16 := req.name.count_le
  have hparams : req.params.length ≤ 4096 := req.params_le
  rw [psirpComputeReqSerializeChecked, psirpComputeReqSerialize]
  refine ⟨_, .bind (Written.start buf |>.put ?_) fun _ _ h => .bind (h.put ?_) fun _ _ h =>
    .bind (h.put ?_) fun _ _ h => .bind (h.put ?_) fun _ _ h => .bind (h.putAll ?_) fun _ _ h =>
    h.put ?_⟩
  all_goals simp only [List.length_singleton, length_beBytes]
  all_goals omega

theorem psirpComputeRespSerializeChecked_refines (resp : PsirpComputeResp) (buf : List UInt8) :
    ∃ max, Refines (Written buf.length max) (psirpComputeRespSerializeChecked resp buf)
      (psirpComputeRespSerialize resp buf.length) := by
  have hcount : resp.name.components.length ≤ 16 := resp.name.count_le
  have hresult : resp.result.length ≤ 1048576 := resp.result_le
  have hsign : resp.signature.toList.length = 64 := resp.signature.toList_length
  have hkey : resp.pubkey.toList.length = 32 := resp.pubkey.toList_length
  rw [psirpComputeRespSerializeChecked, psirpComputeRespSerialize]
  refine ⟨_, .bind (Written.start buf |>.put ?_) fun _ _ h => .bind (h.put ?_) fun _ _ h =>
    .bind (h.put ?_) fun _ _ h => .bind (h.put ?_) fun _ _ h => .bind (h.put ?_) fun _ _ h =>
    .bind (h.put ?_) fun _ _ h => h.putAll ?_⟩
  all_goals simp only [List.length_singleton, length_beBytes]
  all_goals omega

/-! ## All eight -/

/-- The codec reads and writes nothing outside its buffers. -/
def InBounds {α : Type} (x : Codec α) : Prop := ∀ buffer, x ≠ .error (.outside buffer)

/-- What a serializer returns. -/
def returned : Codec Writer → Nat
  | .ok w => w.pos
  | .error _ => 0

/-- It stays inside the buffer and returns `0` or a length that the buffer has. -/
structure WritesWithin (bufLen : Nat) (x : Codec Writer) : Prop where
  inBounds : InBounds x
  returned_le : returned x ≤ bufLen

theorem WritesWithin.of_refines {bufLen : Nat} {x : Codec Writer} {y : Option (List UInt8)}
    (h : ∃ max, Refines (Written bufLen max) x y) : WritesWithin bufLen x := by
  obtain ⟨max, h⟩ := h
  refine ⟨h.ne_outside, ?_⟩
  cases h with
  | ok hw => exact hw.pos_le
  | refused => exact Nat.zero_le _

/-- **Every codec stays inside its buffers**, whatever the bytes it is given, and what it writes or
accepts is inside them, too. -/
theorem codecs_inBounds (buf : List UInt8) :
    (∀ pkt, InBounds (psirpInterestDeserializeChecked pkt buf)) ∧
    (∀ pkt, InBounds (psirpDataDeserializeChecked pkt buf) ∧
      ∀ received, psirpDataDeserializeChecked pkt buf = .ok received →
        received.dataPos + received.dataLen ≤ buf.length) ∧
    (∀ name, InBounds (psirpComputeReqDeserializeChecked name buf)) ∧
    (∀ name, InBounds (psirpComputeRespDeserializeChecked name buf)) ∧
    (∀ pkt, WritesWithin buf.length (psirpInterestSerializeChecked pkt buf)) ∧
    (∀ pkt : PsirpData, pkt.data.length ≤ psirpMaxData →
      WritesWithin buf.length (psirpDataSerializeChecked pkt buf)) ∧
    (∀ req, WritesWithin buf.length (psirpComputeReqSerializeChecked req buf)) ∧
    ∀ resp, WritesWithin buf.length (psirpComputeRespSerializeChecked resp buf) := by
  refine ⟨fun pkt => (psirpInterestDeserializeChecked_refines pkt buf).ne_outside, fun pkt => ?_,
    fun name => (psirpComputeReqDeserializeChecked_refines name buf).ne_outside,
    fun name => (psirpComputeRespDeserializeChecked_refines name buf).ne_outside,
    fun pkt => .of_refines (psirpInterestSerializeChecked_refines pkt buf),
    fun pkt hdata => .of_refines (psirpDataSerializeChecked_refines hdata buf),
    fun req => .of_refines (psirpComputeReqSerializeChecked_refines req buf),
    fun resp => .of_refines (psirpComputeRespSerializeChecked_refines resp buf)⟩
  have hrefines := psirpDataDeserializeChecked_refines pkt buf
  refine ⟨hrefines.ne_outside, fun received hok => ?_⟩
  obtain ⟨_, -, hstands⟩ := hrefines.exists_of_ok hok
  exact hstands.inside

end DsoBrowser
