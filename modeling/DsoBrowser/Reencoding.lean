import DsoBrowser.Lib.LengthPrefixed
import DsoBrowser.Packet

/-!
# Encoding a decoded packet again

A deserializer accepts component blocks of any bytes and keeps them as C strings. So encoding what
was decoded gives the bytes that were read exactly when no component block has a NUL in it
(`reencoded_iff_nulFree`): any other block comes back cut at its first NUL, while the hash in the decoded
name was taken over all of it.

Both component loops are readers of length-prefixed blocks (`takeComponents_eq`), and an accepted
packet is its header followed by such blocks (`accepted_interest`, `accepted_data`).
-/

namespace DsoBrowser

open ByteOrder LengthPrefixed

/-! ## The component loop -/

/-- What one component adds to `hash_buf`. -/
def hashBlock (hashBuf block : List UInt8) : List UInt8 :=
  if hashBuf.length + 1 + block.length < psirpMaxName then hashBuf ++ slash.val :: block
  else hashBuf

/-- The lengths that the loop of `psirp.c` refuses. -/
def anyLength (_ : Nat) : Bool := false

theorem takeComponents_eq (count : Nat) : ∀ (buf hashBuf : List UInt8),
    takeComponents count buf hashBuf = (takeBlocks anyLength count buf).map fun (blocks, rest) =>
      (blocks.map CString.ofBytes, blocks.foldl hashBlock hashBuf, rest) := by
  induction count with
  | zero => exact fun _ _ => rfl
  | succ count ih =>
    intro buf hashBuf
    cases buf with
    | nil => rfl
    | cons compLen buf =>
      rw [takeComponents, takeBlocks, takeBlock]
      by_cases hfits : buf.length < compLen.toNat
      · rw [if_pos hfits, if_pos (.inl hfits)]
        rfl
      · have htake : (buf.take compLen.toNat).length = compLen.toNat :=
          List.length_take_of_le (Nat.le_of_not_lt hfits)
        rw [if_neg hfits, if_neg (by simpa [anyLength] using hfits), Option.bind_some]
        dsimp only
        rw [ih]
        cases takeBlocks anyLength count (buf.drop compLen.toNat) with
        | none => rfl
        | some blocks =>
          simp only [Option.map_some, List.map_cons, List.foldl_cons, hashBlock, htake]

/-! ## Blocks and strings -/

/-- No block has a NUL in it. -/
def NulFree (blocks : List (List UInt8)) : Prop := ∀ block ∈ blocks, (0 : UInt8) ∉ block

instance (blocks : List (List UInt8)) : Decidable (NulFree blocks) :=
  inferInstanceAs (Decidable (∀ block ∈ blocks, _))

theorem componentBytes_eq (comps : List CString) :
    componentBytes comps = putBlocks (comps.map CString.bytes) := by
  induction comps with
  | nil => rfl
  | cons c comps ih =>
    rw [componentBytes, List.flatMap_cons, ← componentBytes, ih, List.map_cons, putBlocks_cons,
      putBlock, CString.length_bytes]

theorem length_lt_of_mem_map_ofBytes {blocks : List (List UInt8)}
    (hlt : ∀ block ∈ blocks, block.length < 256) :
    ∀ c ∈ blocks.map CString.ofBytes, c.length < 256 := by
  intro c hc
  obtain ⟨block, hblock, rfl⟩ := List.mem_map.mp hc
  exact (CString.length_ofBytes_le block).trans_lt (hlt block hblock)

/-- The strings are written as the blocks were exactly when nothing was cut off. -/
theorem componentBytes_map_ofBytes_iff {blocks : List (List UInt8)}
    (hlt : ∀ block ∈ blocks, block.length < 256) :
    componentBytes (blocks.map CString.ofBytes) = putBlocks blocks ↔ NulFree blocks := by
  rw [componentBytes_eq, List.map_map]
  constructor
  · intro h
    have hmap : blocks.map (CString.bytes ∘ CString.ofBytes) = blocks := by
      refine putBlocks_injective (List.length_map _) ?_ hlt h
      rw [← List.map_map]
      intro b hb
      obtain ⟨c, hc, rfl⟩ := List.mem_map.mp hb
      rw [CString.length_bytes]
      exact length_lt_of_mem_map_ofBytes hlt c hc
    have hself : ∀ block ∈ blocks, (CString.bytes ∘ CString.ofBytes) block = id block :=
      List.map_inj_left.mp (hmap.trans (List.map_id _).symm)
    exact fun block hblock => CString.bytes_ofBytes_eq_iff.mp (hself block hblock)
  · intro hfree
    have hmap : blocks.map (CString.bytes ∘ CString.ofBytes) = blocks.map id :=
      List.map_congr_left fun block hblock => CString.bytes_ofBytes_eq_iff.mpr (hfree block hblock)
    rw [hmap, List.map_id]

theorem length_componentBytes_map_ofBytes_le (blocks : List (List UInt8)) :
    (componentBytes (blocks.map CString.ofBytes)).length ≤ (putBlocks blocks).length := by
  induction blocks with
  | nil => exact Nat.le_refl _
  | cons block blocks ih =>
    have hcut := CString.length_ofBytes_le block
    rw [List.map_cons, componentBytes, List.flatMap_cons, ← componentBytes, putBlocks_cons,
      List.length_append, List.length_append, List.length_cons, CString.length_bytes,
      length_putBlock]
    omega

/-! ## Accepted packets -/

/-- The component blocks that an Interest is read up to, behind its fixed fields. -/
def interestBlocks (buf : List UInt8) : List (List UInt8) :=
  ((takeBlocks anyLength ((buf.drop 13).head?.getD 0).toNat (buf.drop 14)).map Prod.fst).getD []

/-- The bytes that `psirp_interest_deserialize` consumes of a buffer it accepts. -/
def consumedInterest (buf : List UInt8) : Nat := 14 + (putBlocks (interestBlocks buf)).length

/-- The component blocks of a Data packet. -/
def dataBlocks (buf : List UInt8) : List (List UInt8) :=
  ((takeBlocks anyLength ((buf.drop 17).head?.getD 0).toNat (buf.drop 18)).map Prod.fst).getD []

/-- The bytes that `psirp_data_deserialize` consumes of a buffer it accepts. -/
def consumedData (buf : List UInt8) : Nat :=
  18 + (putBlocks (dataBlocks buf)).length + ofBeBytes ((buf.drop 13).take 4)

/-- A field at the front. -/
theorem exists_append_of_le (buf : List UInt8) (k : Nat) (h : k ≤ buf.length) :
    ∃ field rest, buf = field ++ rest ∧ field.length = k ∧ rest.length = buf.length - k :=
  ⟨buf.take k, buf.drop k, (List.take_append_drop k buf).symm, List.length_take_of_le h,
    List.length_drop⟩

/-- A buffer with room for an Interest's fixed fields. -/
theorem interest_split {buf : List UInt8} (h : 14 ≤ buf.length) :
    ∃ type nonce lifetime count rest, buf = type :: (nonce ++ lifetime ++ count :: rest) ∧
      nonce.length = 8 ∧ lifetime.length = 4 := by
  cases buf with
  | nil => exact absurd h (by decide)
  | cons type buf =>
    rw [List.length_cons] at h
    obtain ⟨nonce, buf, rfl, hn, hrest⟩ := exists_append_of_le buf 8 (by omega)
    obtain ⟨lifetime, buf, rfl, hl, hrest⟩ := exists_append_of_le buf 4 (by omega)
    cases buf with
    | nil =>
      rw [List.length_nil] at hrest
      omega
    | cons count rest => exact ⟨type, nonce, lifetime, count, rest, by simp, hn, hl⟩

/-- A buffer with room for a Data packet's fixed fields. -/
theorem data_split {buf : List UInt8} (h : 18 ≤ buf.length) :
    ∃ type timestamp freshness len count rest,
      buf = type :: (timestamp ++ freshness ++ len ++ count :: rest) ∧
      timestamp.length = 8 ∧ freshness.length = 4 ∧ len.length = 4 := by
  cases buf with
  | nil => exact absurd h (by decide)
  | cons type buf =>
    rw [List.length_cons] at h
    obtain ⟨timestamp, buf, rfl, ht, hrest⟩ := exists_append_of_le buf 8 (by omega)
    obtain ⟨freshness, buf, rfl, hf, hrest⟩ := exists_append_of_le buf 4 (by omega)
    obtain ⟨len, buf, rfl, hd, hrest⟩ := exists_append_of_le buf 4 (by omega)
    cases buf with
    | nil =>
      rw [List.length_nil] at hrest
      omega
    | cons count rest =>
      exact ⟨type, timestamp, freshness, len, count, rest, by simp, ht, hf, hd⟩

/-- What a deserializer makes of the component blocks. -/
structure DecodedBlocks (name : PsirpName) (blocks : List (List UInt8)) (count : UInt8) : Prop where
  components : name.components = blocks.map CString.ofBytes
  length_lt : ∀ block ∈ blocks, block.length < 256
  count_eq : count = UInt8.ofNat name.components.length

theorem decodedBlocks_of_takeComponents {init name : PsirpName} {count : UInt8}
    {buf hashBuf rest : List UInt8} {comps : List CString}
    (htake : takeComponents count.toNat buf [] = some (comps, hashBuf, rest))
    (hname : decodedName init comps hashBuf = some name) :
    ∃ blocks, takeBlocks anyLength count.toNat buf = some (blocks, rest) ∧
      buf = putBlocks blocks ++ rest ∧ DecodedBlocks name blocks count := by
  rw [takeComponents_eq] at htake
  obtain ⟨⟨blocks, rest'⟩, hblocks, heq⟩ := Option.map_eq_some_iff.mp htake
  obtain ⟨rfl, -, rfl⟩ : blocks.map CString.ofBytes = comps ∧ _ ∧ rest' = rest := by
    simpa using heq
  obtain ⟨hbuf, hcount, hlt⟩ := takeBlocks_eq_some_iff.mp hblocks
  rw [decodedName] at hname
  split at hname
  · obtain rfl := Option.some.inj hname
    refine ⟨blocks, hblocks, hbuf, rfl, fun block hblock => (hlt block hblock).1, ?_⟩
    rw [List.length_map, hcount, UInt8.ofNat_toNat]
  · cases hname

/-- **An accepted Interest** is its fixed fields and its component blocks. -/
theorem accepted_interest {init pkt : PsirpInterest} {buf : List UInt8}
    (h : psirpInterestDeserialize init buf = some pkt) : ∃ count rest,
    buf = psirpPktInterest :: (beBytes 8 pkt.nonce.toNat ++ beBytes 4 pkt.lifetimeMs.toNat ++
      count :: (putBlocks (interestBlocks buf) ++ rest)) ∧
    DecodedBlocks pkt.name (interestBlocks buf) count := by
  have hhead := head?_of_interest h
  have hlen : 14 ≤ buf.length := by
    by_contra hshort
    rw [psirpInterestDeserialize, if_pos (by omega)] at h
    cases h
  obtain ⟨type, nonce, lifetime, count, rest, rfl, hn, hl⟩ := interest_split hlen
  obtain ⟨-, hnonce, hlifetime, hcount, hrest⟩ := interest_fields type count rest hn hl
  obtain rfl : type = psirpPktInterest := Option.some.inj hhead
  rw [psirpInterestDeserialize, if_neg (by omega), if_neg (by simp)] at h
  simp only [hnonce, hlifetime, hcount, hrest, Option.getD_some] at h
  split at h
  · cases h
  · obtain ⟨⟨comps, hashBuf, rest'⟩, htake, h⟩ := Option.bind_eq_some_iff.mp h
    obtain ⟨name, hname, h⟩ := Option.bind_eq_some_iff.mp h
    obtain rfl := Option.some.inj h
    obtain ⟨blocks, hblocks, rfl, hdecoded⟩ := decodedBlocks_of_takeComponents htake hname
    have heq : interestBlocks (psirpPktInterest :: (nonce ++ lifetime ++ count ::
        (putBlocks blocks ++ rest'))) = blocks := by
      rw [interestBlocks, hcount, hrest, Option.getD_some, hblocks]
      rfl
    refine ⟨count, rest', ?_, ?_⟩
    · rw [heq, beBytes_toUInt64 hn, beBytes_toUInt32 hl]
    · rw [heq]
      exact hdecoded

/-- **An accepted Data packet** is its fixed fields, its component blocks and its data. -/
theorem accepted_data {init pkt : PsirpData} {buf : List UInt8}
    (h : psirpDataDeserialize init buf = some pkt) : ∃ count rest,
    buf = psirpPktData :: (beBytes 8 pkt.timestamp.toNat ++ beBytes 4 pkt.freshnessMs.toNat ++
      beBytes 4 pkt.data.length ++
      count :: (putBlocks (dataBlocks buf) ++ (pkt.data ++ rest))) ∧
    consumedData buf = 18 + (putBlocks (dataBlocks buf)).length + pkt.data.length ∧
    DecodedBlocks pkt.name (dataBlocks buf) count := by
  have hhead := head?_of_data h
  have hlen : 18 ≤ buf.length := by
    by_contra hshort
    rw [psirpDataDeserialize, if_pos (by omega)] at h
    cases h
  obtain ⟨type, timestamp, freshness, len, count, rest, rfl, ht, hf, hd⟩ := data_split hlen
  obtain ⟨-, htime, hfresh, hdlen, hcount, hrest⟩ := data_fields type count rest ht hf hd
  obtain rfl : type = psirpPktData := Option.some.inj hhead
  rw [psirpDataDeserialize, if_neg (by omega), if_neg (by simp)] at h
  simp only [htime, hfresh, hdlen, hcount, hrest, Option.getD_some] at h
  split at h
  · cases h
  · obtain ⟨⟨comps, hashBuf, rest'⟩, htake, h⟩ := Option.bind_eq_some_iff.mp h
    obtain ⟨name, hname, h⟩ := Option.bind_eq_some_iff.mp h
    dsimp only at h
    split at h
    · cases h
    · rename_i hfits
      obtain rfl := Option.some.inj h
      obtain ⟨blocks, hblocks, rfl, hdecoded⟩ := decodedBlocks_of_takeComponents htake hname
      have heq : dataBlocks (psirpPktData :: (timestamp ++ freshness ++ len ++ count ::
          (putBlocks blocks ++ rest'))) = blocks := by
        rw [dataBlocks, hcount, hrest, Option.getD_some, hblocks]
        rfl
      have htaken : (rest'.take (ofBeBytes len)).length = ofBeBytes len :=
        List.length_take_of_le (Nat.le_of_not_lt hfits)
      refine ⟨count, rest'.drop (ofBeBytes len), ?_, ?_, ?_⟩
      · rw [heq, beBytes_toUInt64 ht, beBytes_toUInt32 hf, htaken, beBytes_ofBeBytes hd,
          List.take_append_drop]
      · rw [consumedData, hdlen, htaken]
      · rw [heq]
        exact hdecoded

/-! ## Encoding again -/

/-- Encoding the decoded Interest into any buffer that has room for what was read of it gives
what was read. -/
def InterestReencoded (buf : List UInt8) (pkt : PsirpInterest) : Prop :=
  ∀ bufLen, consumedInterest buf ≤ bufLen →
    psirpInterestSerialize pkt bufLen = some (buf.take (consumedInterest buf))

/-- Encoding the decoded Data packet does. -/
def DataReencoded (buf : List UInt8) (pkt : PsirpData) : Prop :=
  ∀ bufLen, consumedData buf ≤ bufLen →
    psirpDataSerialize pkt bufLen = some (buf.take (consumedData buf))

theorem take_eq_of_eq_append {buf front : List UInt8} {k : Nat} (rest : List UInt8)
    (h : buf = front ++ rest) (hk : front.length = k) : buf.take k = front := by
  rw [h, List.take_left' hk]

/-- **An Interest is encoded again as it was read exactly when** its blocks have no NUL. -/
theorem interestReencoded_iff_nulFree {init pkt : PsirpInterest} {buf : List UInt8}
    (h : psirpInterestDeserialize init buf = some pkt) :
    InterestReencoded buf pkt ↔ NulFree (interestBlocks buf) := by
  obtain ⟨count, rest, hbuf, hdecoded⟩ := accepted_interest h
  have hread : buf.take (consumedInterest buf) = psirpPktInterest :: (beBytes 8 pkt.nonce.toNat ++
      beBytes 4 pkt.lifetimeMs.toNat ++ count :: putBlocks (interestBlocks buf)) := by
    refine take_eq_of_eq_append rest (hbuf.trans ?_) ?_
    · simp
    · simp [consumedInterest]
      omega
  rw [← componentBytes_map_ofBytes_iff hdecoded.length_lt, ← hdecoded.components]
  have hfits {bufLen : Nat} (hroom : consumedInterest buf ≤ bufLen) :
      InterestFits pkt.name.components bufLen := by
    refine ⟨hdecoded.components ▸ length_lt_of_mem_map_ofBytes hdecoded.length_lt, ?_⟩
    have hle := length_componentBytes_map_ofBytes_le (interestBlocks buf)
    rw [← hdecoded.components] at hle
    rw [consumedInterest] at hroom
    omega
  have hwritten {bufLen : Nat} {out : List UInt8}
      (hout : psirpInterestSerialize pkt bufLen = some out) :
      out = buf.take (consumedInterest buf) ↔
        componentBytes pkt.name.components = putBlocks (interestBlocks buf) := by
    rw [(psirpInterestSerialize_eq_some hout).1, hread, ← hdecoded.count_eq]
    simp
  constructor
  · intro hre
    exact (hwritten (hre _ (Nat.le_refl _))).mp rfl
  · intro hsame bufLen hroom
    obtain ⟨out, hout⟩ := psirpInterestSerialize_isSome_iff.mpr (hfits hroom)
    rw [hout, (hwritten hout).mpr hsame]

theorem dataReencoded_iff_nulFree {init pkt : PsirpData} {buf : List UInt8}
    (h : psirpDataDeserialize init buf = some pkt) :
    DataReencoded buf pkt ↔ NulFree (dataBlocks buf) := by
  obtain ⟨count, rest, hbuf, hconsumed, hdecoded⟩ := accepted_data h
  have hread : buf.take (consumedData buf) = psirpPktData :: (beBytes 8 pkt.timestamp.toNat ++
      beBytes 4 pkt.freshnessMs.toNat ++ beBytes 4 pkt.data.length ++
      count :: (putBlocks (dataBlocks buf) ++ pkt.data)) := by
    refine take_eq_of_eq_append rest (hbuf.trans ?_) ?_
    · simp
    · rw [hconsumed]
      simp
      omega
  rw [← componentBytes_map_ofBytes_iff hdecoded.length_lt, ← hdecoded.components]
  have hwritten {bufLen : Nat} {out : List UInt8}
      (hout : psirpDataSerialize pkt bufLen = some out) :
      out = buf.take (consumedData buf) ↔
        componentBytes pkt.name.components = putBlocks (dataBlocks buf) := by
    rw [(psirpDataSerialize_eq_some hout).1, hread, ← hdecoded.count_eq]
    simp
  have hserialize {bufLen : Nat} (hroom : consumedData buf ≤ bufLen) :
      ∃ out, psirpDataSerialize pkt bufLen = some out := by
    have hle := length_componentBytes_map_ofBytes_le (dataBlocks buf)
    rw [← hdecoded.components] at hle
    refine psirpDataSerialize_of_le ?_ (by omega)
    exact hdecoded.components ▸ length_lt_of_mem_map_ofBytes hdecoded.length_lt
  constructor
  · intro hre
    exact (hwritten (hre _ (Nat.le_refl _))).mp rfl
  · intro hsame bufLen hroom
    obtain ⟨out, hout⟩ := hserialize hroom
    rw [hout, (hwritten hout).mpr hsame]

/-- **A decoded packet is encoded as it was read exactly when** none of the component blocks that
were read has a NUL in it. -/
theorem reencoded_iff_nulFree (buf : List UInt8) :
    (∀ init pkt, psirpInterestDeserialize init buf = some pkt →
      (InterestReencoded buf pkt ↔ NulFree (interestBlocks buf))) ∧
    (∀ init pkt, psirpDataDeserialize init buf = some pkt →
      (DataReencoded buf pkt ↔ NulFree (dataBlocks buf))) :=
  ⟨fun _ _ h => interestReencoded_iff_nulFree h, fun _ _ h => dataReencoded_iff_nulFree h⟩

/-- An Interest with the one component block `a`, NUL, `b`. -/
def nulInterest : List UInt8 := 0 :: List.replicate 12 0 ++ [1, 3, 97, 0, 98]

/-- It is decoded to the component `a`, so 16 bytes come back in place of its 18, and the name
forwarded is not the one received. -/
theorem not_interestReencoded_nul : ∃ pkt,
    psirpInterestDeserialize PsirpInterest.zero nulInterest = some pkt ∧
    psirpInterestSerialize pkt 18 = some (0 :: List.replicate 12 0 ++ [1, 1, 97]) ∧
    ¬ InterestReencoded nulInterest pkt := by
  have hdecoded : ∃ pkt, psirpInterestDeserialize PsirpInterest.zero nulInterest = some pkt ∧
      psirpInterestSerialize pkt 18 = some (0 :: List.replicate 12 0 ++ [1, 1, 97]) :=
    ⟨_, rfl, by decide⟩
  obtain ⟨pkt, hpkt, hout⟩ := hdecoded
  refine ⟨pkt, hpkt, hout, fun hre => ?_⟩
  have hsame := hre 18 (by decide)
  rw [hout] at hsame
  exact absurd hsame (by decide)

end DsoBrowser
