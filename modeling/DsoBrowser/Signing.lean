import DsoBrowser.Lib.ByteOrder
import DsoBrowser.Lib.Signatures
import Mathlib.Data.Vector.Defs

/-!
# Content signing

`signing.c`, in the build with libsodium. The library is a parameter (`Sodium`): what it returns is
not said here, and results that depend on it name what they need.

Signed content is a header of 100 bytes and the content behind it. The header is a C struct in the
memory of a little-endian machine; it has room for the low 32 bits of the length only. So **signed
content comes back exactly when** its length fits those, or it was not signed at all for want of
room (`signedRoundTrip_iff`).
-/

namespace DsoBrowser

open ByteOrder Signatures

/-- `PSIRP_KEY_SIZE` -/
def psirpKeySize : Nat := 32

/-- `PSIRP_SECRET_SIZE` -/
def psirpSecretSize : Nat := 64

/-- `PSIRP_SIGN_SIZE` -/
def psirpSignSize : Nat := 64

/-- A public key. -/
abbrev PublicKey : Type := List.Vector UInt8 psirpKeySize

/-- A secret key, expanded. -/
abbrev SecretKey : Type := List.Vector UInt8 psirpSecretSize

/-- A signature. -/
abbrev Signature : Type := List.Vector UInt8 psirpSignSize

/-- `psirp_keypair` -/
structure PsirpKeypair where
  /-- public key -/
  publicKey : PublicKey
  /-- secret key (expanded) -/
  secretKey : SecretKey

/-- The functions of libsodium the program signs with. -/
structure Sodium where
  /-- `sodium_init` -/
  init : Int
  /-- `crypto_sign_ed25519_detached` -/
  signDetached : List UInt8 → SecretKey → Signature
  /-- `crypto_sign_ed25519_verify_detached` -/
  verifyDetached : Signature → List UInt8 → PublicKey → Int

/-- `psirp_sign` -/
def psirpSign (lib : Sodium) (secretKey : SecretKey) (content : List UInt8) : Signature :=
  if lib.init < 0 then List.Vector.replicate _ 0 else lib.signDetached content secretKey

/-- `psirp_verify` -/
def psirpVerify (lib : Sodium) (publicKey : PublicKey) (content : List UInt8)
    (signature : Signature) : Bool :=
  if lib.init < 0 then false else lib.verifyDetached signature content publicKey = 0

/-- What `psirp_sign` and `psirp_verify` make of the library. -/
def Sodium.scheme (lib : Sodium) : Scheme SecretKey PublicKey (List UInt8) Signature :=
  ⟨psirpSign lib, psirpVerify lib⟩

/-- `psirp_verify` accepts what `psirp_sign` signs with this pair. -/
def PsirpKeypair.Matching (kp : PsirpKeypair) (lib : Sodium) : Prop :=
  Matches lib.scheme kp.publicKey kp.secretKey

/-! ## Signed content -/

/-- `psirp_signed_header` -/
structure PsirpSignedHeader where
  /-- Ed25519 signature -/
  signature : Signature
  /-- signer's public key -/
  publicKey : PublicKey
  /-- original content length -/
  contentLen : UInt32

/-- `sizeof(psirp_signed_header)` -/
def psirpSignedHeaderSize : Nat := 100

/-- The header in memory. -/
def PsirpSignedHeader.bytes (header : PsirpSignedHeader) : List UInt8 :=
  header.signature.toList ++ header.publicKey.toList ++ leBytes 4 header.contentLen.toNat

/-- A header read from memory. -/
def PsirpSignedHeader.read (signedData : List UInt8)
    (h : psirpSignedHeaderSize ≤ signedData.length) : PsirpSignedHeader where
  signature := ⟨signedData.take psirpSignSize,
    List.length_take_of_le (Nat.le_trans (by decide) h)⟩
  publicKey := ⟨(signedData.drop psirpSignSize).take psirpKeySize, by
    rw [List.length_take_of_le]
    rw [List.length_drop]
    exact Nat.le_sub_of_add_le (Nat.le_trans (by decide) h)⟩
  contentLen := UInt32.ofNat (ofLeBytes ((signedData.drop (psirpSignSize + psirpKeySize)).take 4))

/-- `psirp_sign_content` into a buffer of `capacity` bytes: the bytes written to `signed_data` and
the new `*signed_len`. The sum of the sizes is a `size_t`. For a length within a header of `2 ^ 64`
it wraps, and the bytes written run over the end of the buffer. -/
def psirpSignContent (lib : Sodium) (keypair : PsirpKeypair) (content : List UInt8)
    (capacity : UInt64) : Option (List UInt8 × UInt64) :=
  let contentLen := UInt64.ofNat content.length
  let total := UInt64.ofNat psirpSignedHeaderSize + contentLen
  if capacity < total then none
  else
    let header : PsirpSignedHeader :=
      ⟨psirpSign lib keypair.secretKey content, keypair.publicKey, contentLen.toUInt32⟩
    some (header.bytes ++ content, total)

/-- `psirp_verify_content`: the bytes from the returned pointer on, and the new `*content_len`. -/
def psirpVerifyContent (lib : Sodium) (signedData : List UInt8) : Option (List UInt8 × UInt64) :=
  if h : signedData.length < psirpSignedHeaderSize then none
  else
    let header := PsirpSignedHeader.read signedData (Nat.le_of_not_lt h)
    if psirpSignedHeaderSize + header.contentLen.toNat ≠ signedData.length then none
    else
      let content := signedData.drop psirpSignedHeaderSize
      if psirpVerify lib header.publicKey (content.take header.contentLen.toNat) header.signature
      then some (content, header.contentLen.toUInt64)
      else none

theorem PsirpSignedHeader.length_bytes (header : PsirpSignedHeader) :
    header.bytes.length = psirpSignedHeaderSize := by
  rw [bytes, List.length_append, List.length_append, List.Vector.toList_length,
    List.Vector.toList_length, length_leBytes]
  rfl

/-- A header is read back as it was written. -/
theorem PsirpSignedHeader.read_bytes (header : PsirpSignedHeader) (content : List UInt8) (h) :
    read (header.bytes ++ content) h = header := by
  obtain ⟨signature, publicKey, contentLen⟩ := header
  have hsig : signature.toList.length = psirpSignSize := signature.toList_length
  have hkey : publicKey.toList.length = psirpKeySize := publicKey.toList_length
  have hlen : contentLen.toNat % 256 ^ 4 = contentLen.toNat :=
    Nat.mod_eq_of_lt (Nat.lt_of_lt_of_eq contentLen.toNat_lt (by decide))
  have hsplit : (⟨signature, publicKey, contentLen⟩ : PsirpSignedHeader).bytes ++ content =
      signature.toList ++ (publicKey.toList ++ (leBytes 4 contentLen.toNat ++ content)) := by
    simp only [bytes, List.append_assoc]
  have htail : (signature.toList ++ (publicKey.toList ++
      (leBytes 4 contentLen.toNat ++ content))).drop (psirpSignSize + psirpKeySize) =
        leBytes 4 contentLen.toNat ++ content := by
    rw [← List.drop_drop, List.drop_left' hsig, List.drop_left' hkey]
  simp only [read, hsplit, htail, List.take_left' hsig, List.drop_left' hsig, List.take_left' hkey,
    List.take_left' (length_leBytes 4 contentLen.toNat), ofLeBytes_leBytes, hlen,
    UInt32.ofNat_toNat]
  rfl

theorem psirpVerifyContent_of_short (lib : Sodium) {signedData : List UInt8}
    (h : signedData.length < psirpSignedHeaderSize) : psirpVerifyContent lib signedData = none :=
  dif_pos h

/-- `psirp_verify_content` of a header and content of any length. -/
theorem psirpVerifyContent_bytes (lib : Sodium) (header : PsirpSignedHeader)
    (content : List UInt8) :
    psirpVerifyContent lib (header.bytes ++ content) =
      if header.contentLen.toNat ≠ content.length then none
      else if psirpVerify lib header.publicKey content header.signature then
        some (content, header.contentLen.toUInt64)
      else none := by
  have hlen : (header.bytes ++ content).length = psirpSignedHeaderSize + content.length := by
    rw [List.length_append, header.length_bytes]
  have hle : ¬ (header.bytes ++ content).length < psirpSignedHeaderSize := by
    rw [hlen]
    exact Nat.not_lt.mpr (Nat.le_add_right _ _)
  have hdrop : (header.bytes ++ content).drop psirpSignedHeaderSize = content :=
    List.drop_left' header.length_bytes
  rw [psirpVerifyContent, dif_neg hle]
  simp only [header.read_bytes, hlen, hdrop]
  by_cases hc : header.contentLen.toNat = content.length
  · rw [if_neg (not_not.mpr (congrArg _ hc)), if_neg (not_not.mpr hc), hc, List.take_length]
  · rw [if_pos fun h => hc (Nat.add_left_cancel h), if_pos hc]

/-- Whatever is accepted is a header and the content behind it. -/
theorem length_of_psirpVerifyContent {lib : Sodium} {signedData content : List UInt8}
    {contentLen : UInt64} (h : psirpVerifyContent lib signedData = some (content, contentLen)) :
    signedData.length = psirpSignedHeaderSize + contentLen.toNat := by
  simp only [psirpVerifyContent] at h
  split at h
  · cases h
  · split at h
    · cases h
    · rename_i hlen
      split at h
      · obtain ⟨-, rfl⟩ := Prod.ext_iff.mp (Option.some.inj h)
        rw [UInt32.toNat_toUInt64]
        exact (not_not.mp hlen).symm
      · cases h

/-! ## The round trip -/

/-- What is signed with these arguments comes back: the bytes `psirp_sign_content` says it wrote
lead `psirp_verify_content` to the content and its length. -/
def SignedRoundTrip (lib : Sodium) (keypair : PsirpKeypair) (content : List UInt8)
    (capacity : UInt64) : Prop :=
  ∀ signedData signedLen,
    psirpSignContent lib keypair content capacity = some (signedData, signedLen) →
      psirpVerifyContent lib (signedData.take signedLen.toNat) =
        some (content, UInt64.ofNat content.length)

/-- An accepted length is that of the header and the returned content. -/
def AcceptedLengths (lib : Sodium) : Prop :=
  ∀ signedData content contentLen,
    psirpVerifyContent lib signedData = some (content, contentLen) →
      signedData.length = psirpSignedHeaderSize + contentLen.toNat

variable {lib : Sodium} {keypair : PsirpKeypair} {content : List UInt8}

/-- The size `psirp_sign_content` asks for. -/
theorem toNat_total (content : List UInt8) :
    (UInt64.ofNat psirpSignedHeaderSize + UInt64.ofNat content.length).toNat =
      (psirpSignedHeaderSize + content.length) % 2 ^ 64 := by
  rw [← UInt64.ofNat_add, UInt64.toNat_ofNat']

/-- With room enough, content is signed. -/
theorem psirpSignContent_of_le {capacity : UInt64}
    (hcap : (psirpSignedHeaderSize + content.length) % 2 ^ 64 ≤ capacity.toNat) :
    psirpSignContent lib keypair content capacity =
      some (PsirpSignedHeader.bytes ⟨psirpSign lib keypair.secretKey content, keypair.publicKey,
          (UInt64.ofNat content.length).toUInt32⟩ ++ content,
        UInt64.ofNat psirpSignedHeaderSize + UInt64.ofNat content.length) := by
  apply if_neg
  rw [UInt64.lt_iff_toNat_lt, toNat_total]
  exact Nat.not_lt.mpr hcap

/-- Content whose length the header holds comes back. -/
theorem signedRoundTrip_of_lt (hkeys : keypair.Matching lib) (hlen : content.length < 2 ^ 32)
    (capacity : UInt64) : SignedRoundTrip lib keypair content capacity := by
  intro signedData signedLen h
  have htotal : (UInt64.ofNat psirpSignedHeaderSize + UInt64.ofNat content.length).toNat =
      psirpSignedHeaderSize + content.length := by
    rw [toNat_total, psirpSignedHeaderSize]
    omega
  have hlen64 : (UInt64.ofNat content.length).toNat = content.length := by
    rw [UInt64.toNat_ofNat']
    omega
  have hlen32 : (UInt64.ofNat content.length).toUInt32.toNat = content.length := by
    rw [UInt64.toNat_toUInt32, hlen64]
    omega
  simp only [psirpSignContent] at h
  split at h
  · cases h
  · obtain ⟨rfl, rfl⟩ := Prod.ext_iff.mp (Option.some.inj h)
    rw [htotal, List.take_of_length_le
        (by rw [List.length_append, PsirpSignedHeader.length_bytes]),
      psirpVerifyContent_bytes, if_neg (not_not.mpr hlen32)]
    have hret : (UInt64.ofNat content.length).toUInt32.toUInt64 = UInt64.ofNat content.length := by
      rw [← UInt64.toNat_inj, UInt32.toNat_toUInt64, hlen32, hlen64]
    exact (if_pos (hkeys content)).trans (by rw [hret])

/-- Longer content, once signed, does not. -/
theorem not_signedRoundTrip_of_le (hlen : 2 ^ 32 ≤ content.length)
    (hsize : content.length < 2 ^ 64) {capacity : UInt64}
    (hcap : (psirpSignedHeaderSize + content.length) % 2 ^ 64 ≤ capacity.toNat) :
    ¬ SignedRoundTrip lib keypair content capacity := by
  intro hround
  have hback := hround _ _ (psirpSignContent_of_le hcap)
  rw [toNat_total] at hback
  have hhead := PsirpSignedHeader.length_bytes ⟨psirpSign lib keypair.secretKey content,
    keypair.publicKey, (UInt64.ofNat content.length).toUInt32⟩
  rcases Nat.lt_or_ge (psirpSignedHeaderSize + content.length) (2 ^ 64) with hlt | hge
  · -- all bytes are there, and the header has the length modulo `2 ^ 32`
    rw [Nat.mod_eq_of_lt hlt, List.take_of_length_le (by rw [List.length_append, hhead]),
      psirpVerifyContent_bytes, if_pos] at hback
    · cases hback
    · rw [UInt64.toNat_toUInt32, UInt64.toNat_ofNat']
      omega
  · -- the sum wrapped: not even the header is there
    have hshort : (psirpSignedHeaderSize + content.length) % 2 ^ 64 < psirpSignedHeaderSize := by
      rw [psirpSignedHeaderSize] at hge ⊢
      omega
    rw [psirpVerifyContent_of_short] at hback
    · cases hback
    · exact Nat.lt_of_le_of_lt (List.length_take_le _ _) hshort

/-- **Signed content comes back exactly when** its length fits the header, or there is no room for
it and nothing is signed. -/
theorem signedRoundTrip_iff (hkeys : keypair.Matching lib) (hsize : content.length < 2 ^ 64)
    (capacity : UInt64) :
    SignedRoundTrip lib keypair content capacity ∧ AcceptedLengths lib ↔
      content.length < 2 ^ 32 ∨
        capacity.toNat < (psirpSignedHeaderSize + content.length) % 2 ^ 64 := by
  constructor
  · rintro ⟨hround, -⟩
    by_contra hneither
    obtain ⟨hlen, hcap⟩ := not_or.mp hneither
    exact not_signedRoundTrip_of_le (Nat.le_of_not_lt hlen) hsize (Nat.le_of_not_lt hcap) hround
  · intro hcond
    refine ⟨?_, fun _ _ _ h => length_of_psirpVerifyContent h⟩
    rcases hcond with hlen | hcap
    · exact signedRoundTrip_of_lt hkeys hlen capacity
    · intro signedData signedLen h
      have hroom : capacity <
          UInt64.ofNat psirpSignedHeaderSize + UInt64.ofNat content.length := by
        rw [UInt64.lt_iff_toNat_lt, toNat_total]
        exact hcap
      simp only [psirpSignContent, if_pos hroom] at h
      cases h

/-! ## A key pair -/

/-- Bytes as a signature: the number they spell, modulo `2 ^ 512`. -/
def spelled (bytes : List UInt8) : Signature :=
  ⟨leBytes psirpSignSize (ofLeBytes bytes), length_leBytes _ _⟩

/-- A library that signs with the public half of the secret key. -/
def spelling : Sodium where
  init := 0
  signDetached content secretKey := spelled (secretKey.toList.drop psirpKeySize ++ content)
  verifyDetached signature content publicKey :=
    if signature = spelled (publicKey.toList ++ content) then 0 else -1

/-- A key pair made of ones. -/
def onesKeypair : PsirpKeypair := ⟨List.Vector.replicate _ 1, List.Vector.replicate _ 1⟩

theorem matching_spelling {keypair : PsirpKeypair}
    (h : keypair.secretKey.toList.drop psirpKeySize = keypair.publicKey.toList) :
    keypair.Matching spelling := by
  intro content
  simp [Sodium.scheme, psirpVerify, psirpSign, spelling, h]

theorem matching_ones : onesKeypair.Matching spelling := matching_spelling (by decide)

theorem signedRoundTrip_iff_ones :
    SignedRoundTrip spelling onesKeypair [104, 105] 200 ∧ AcceptedLengths spelling ↔
      [104, 105].length < 2 ^ 32 ∨ (200 : UInt64).toNat < (psirpSignedHeaderSize + 2) % 2 ^ 64 :=
  signedRoundTrip_iff matching_ones (by decide) 200

/-- `n` zero bytes. -/
def zeroBytes (n : Nat) : List UInt8 := List.replicate n 0

theorem length_zeroBytes (n : Nat) : (zeroBytes n).length = n := List.length_replicate

/-- Content of `2 ^ 32` bytes, with room for all of it, is signed and not accepted. -/
theorem not_signedRoundTrip_ones :
    onesKeypair.Matching spelling ∧
      (psirpSignContent spelling onesKeypair (zeroBytes (2 ^ 32)) 4294967396).isSome ∧
      ¬ SignedRoundTrip spelling onesKeypair (zeroBytes (2 ^ 32)) 4294967396 := by
  have hlen := length_zeroBytes (2 ^ 32)
  have hcap : (psirpSignedHeaderSize + (zeroBytes (2 ^ 32)).length) % 2 ^ 64 ≤
      (4294967396 : UInt64).toNat := by
    rw [hlen]
    decide
  refine ⟨matching_ones, ?_, ?_⟩
  · rw [psirpSignContent_of_le hcap, Option.isSome_some]
  · exact not_signedRoundTrip_of_le (by rw [hlen]) (by rw [hlen]; decide) hcap

end DsoBrowser
