import DsoBrowser.Packet
import DsoBrowser.Signing

/-!
# Compute-on-peer

A request names a resource and carries parameters; an executor runs its handler and answers with
what the handler wrote, signed (`compute.c`). Requests and responses have wire formats of their own,
with the component list of the other packets, except that a reader refuses the components no name
has room for. The hash of a name is not sent and not computed.

The buffers of the two structs are bounds on their contents here (`params_le`, `result_le`).
-/

namespace DsoBrowser

open ByteOrder Signatures

/-- `PSIRP_PKT_COMPUTE_REQ` -/
def psirpPktComputeReq : UInt8 := 5

/-- `PSIRP_PKT_COMPUTE_RESP` -/
def psirpPktComputeResp : UInt8 := 6

/-- `PSIRP_COMPUTE_MAX_PARAMS` -/
def psirpComputeMaxParams : Nat := 4096

/-- `PSIRP_COMPUTE_MAX_RESULT` -/
def psirpComputeMaxResult : Nat := 1048576

/-- `psirp_compute_req` -/
structure PsirpComputeReq where
  /-- resource name -/
  name : PsirpName
  /-- parameters; `params_len` is their length -/
  params : List UInt8
  /-- request ID -/
  nonce : UInt64
  /-- the size of `params` -/
  params_le : params.length ≤ psirpComputeMaxParams

/-- `psirp_compute_resp` -/
structure PsirpComputeResp where
  /-- resource name -/
  name : PsirpName
  /-- what the handler wrote; `result_len` is its length -/
  result : List UInt8
  /-- Ed25519 over the result -/
  signature : Signature
  /-- executor's public key -/
  pubkey : PublicKey
  /-- the size of `result` -/
  result_le : result.length ≤ psirpComputeMaxResult

/-- `psirp_compute_handler`: what it writes to `out`, given the parameters and `out_cap`. -/
structure PsirpComputeHandler where
  /-- render -/
  run : List UInt8 → Nat → List UInt8
  /-- it keeps to `out_cap` -/
  length_le : ∀ params outCap, (run params outCap).length ≤ outCap

/-! ## Writing -/

/-- `psirp_compute_req_serialize` -/
def psirpComputeReqSerialize (req : PsirpComputeReq) (bufLen : Nat) : Option (List UInt8) := do
  let buf ← putField bufLen [psirpPktComputeReq] []
  let buf ← putField bufLen (beBytes 8 req.nonce.toNat) buf
  let buf ← putField bufLen (beBytes 4 req.params.length) buf
  let buf ← putField bufLen [UInt8.ofNat req.name.components.length] buf
  let buf ← putComponents bufLen req.name.components buf
  putField bufLen req.params buf

/-- `psirp_compute_resp_serialize` -/
def psirpComputeRespSerialize (resp : PsirpComputeResp) (bufLen : Nat) : Option (List UInt8) := do
  let buf ← putField bufLen [psirpPktComputeResp] []
  let buf ← putField bufLen (beBytes 4 resp.result.length) buf
  let buf ← putField bufLen resp.result buf
  let buf ← putField bufLen resp.signature.toList buf
  let buf ← putField bufLen resp.pubkey.toList buf
  let buf ← putField bufLen [UInt8.ofNat resp.name.components.length] buf
  putComponents bufLen resp.name.components buf

/-! ## Reading -/

/-- The component loop of the deserializers, on the bytes not read yet. -/
def takeShortComponents : Nat → List UInt8 → Option (List CString × List UInt8)
  | 0, buf => some ([], buf)
  | _ + 1, [] => none
  | count + 1, compLen :: buf =>
    if buf.length < compLen.toNat ∨ psirpMaxComponent ≤ compLen.toNat then none
    else
      (takeShortComponents count (buf.drop compLen.toNat)).map fun (comps, rest) =>
        (CString.ofBytes (buf.take compLen.toNat) :: comps, rest)

/-- Read a field of a fixed size. -/
def takeVector (k : Nat) (buf : List UInt8) : Option (List.Vector UInt8 k × List UInt8) :=
  if h : buf.length < k then none
  else some (⟨buf.take k, List.length_take_of_le (Nat.le_of_not_lt h)⟩, buf.drop k)

/-- The components of a name are filled in. Their count was checked before they were read. -/
def fillComponents (name : PsirpName) (comps : List CString) : Option PsirpName :=
  if h : comps.length ≤ psirpMaxComponents then some { name with components := comps, count_le := h }
  else none

/-- `psirp_compute_req_deserialize`; `name` is the name in `req` before the call. The hash becomes
`0`. The loop fills a buffer to hash, too, which nothing reads. -/
def psirpComputeReqDeserialize (name : PsirpName) (buf : List UInt8) : Option PsirpComputeReq :=
  if buf.length < 14 then none
  else if buf.head? ≠ some psirpPktComputeReq then none
  else
    let nonce := ofBeBytes ((buf.drop 1).take 8)
    let plen := ofBeBytes ((buf.drop 9).take 4)
    let count := ((buf.drop 13).head?.getD 0).toNat
    if psirpMaxComponents < count then none
    else do
      let (comps, rest) ← takeShortComponents count (buf.drop 14)
      let name ← fillComponents { name with hash := 0 } comps
      if rest.length < plen then none
      else if h : psirpComputeMaxParams < plen then none
      else some ⟨name, rest.take plen, UInt64.ofNat nonce,
        (List.length_take_le _ _).trans (Nat.le_of_not_lt h)⟩

/-- `psirp_compute_resp_deserialize`; `name` is the name in `resp` before the call. -/
def psirpComputeRespDeserialize (name : PsirpName) (buf : List UInt8) : Option PsirpComputeResp :=
  if buf.length < 10 then none
  else if buf.head? ≠ some psirpPktComputeResp then none
  else
    let rlen := ofBeBytes ((buf.drop 1).take 4)
    let rest := buf.drop 5
    if rest.length < rlen then none
    else if h : psirpComputeMaxResult < rlen then none
    else do
      let result := rest.take rlen
      let (signature, rest) ← takeVector psirpSignSize (rest.drop rlen)
      let (pubkey, rest) ← takeVector psirpKeySize rest
      match rest with
      | [] => none
      | count :: rest =>
        if psirpMaxComponents < count.toNat then none
        else
          let (comps, _) ← takeShortComponents count.toNat rest
          let name ← fillComponents name comps
          some ⟨name, result, signature, pubkey,
            (List.length_take_le _ _).trans (Nat.le_of_not_lt h)⟩

/-! ## Execution -/

/-- `psirp_compute_execute` -/
def psirpComputeExecute (lib : Sodium) (req : PsirpComputeReq) (handler : PsirpComputeHandler)
    (kp : PsirpKeypair) : Option PsirpComputeResp :=
  let result := handler.run req.params psirpComputeMaxResult
  if result = [] ∧ req.params ≠ [] then none
  else some {
    name := { PsirpName.zero with components := req.name.components, count_le := req.name.count_le }
    result := result
    signature := psirpSign lib kp.secretKey result
    pubkey := kp.publicKey
    result_le := handler.length_le _ _ }

/-- `psirp_compute_verify` -/
def psirpComputeVerify (lib : Sodium) (resp : PsirpComputeResp) : Bool :=
  psirpVerify lib resp.pubkey resp.result resp.signature

/-! ## What a response is bound to -/

/-- What an executor does: a request and the handler it runs for it. -/
abbrev Execution : Type := PsirpComputeReq × PsirpComputeHandler

/-- The responses an executor makes. -/
def responses (lib : Sodium) (kp : PsirpKeypair) (executed : List Execution) :
    List PsirpComputeResp :=
  executed.filterMap fun (req, handler) => psirpComputeExecute lib req handler kp

/-- The messages it signs for them: the results. -/
def signedResults (lib : Sodium) (kp : PsirpKeypair) (executed : List Execution) :
    List (List UInt8) :=
  (responses lib kp executed).map PsirpComputeResp.result

theorem psirpComputeExecute_eq_some {lib : Sodium} {req : PsirpComputeReq}
    {handler : PsirpComputeHandler} {kp : PsirpKeypair} {resp : PsirpComputeResp}
    (h : psirpComputeExecute lib req handler kp = some resp) :
    resp.name.components = req.name.components ∧
      resp.result = handler.run req.params psirpComputeMaxResult ∧
      resp.signature = psirpSign lib kp.secretKey resp.result ∧ resp.pubkey = kp.publicKey := by
  simp only [psirpComputeExecute] at h
  split at h
  · cases h
  · obtain rfl := Option.some.inj h
    exact ⟨rfl, rfl, rfl, rfl⟩

/-- **A verified result was computed**, by this executor, for some request. -/
theorem exists_response_of_verify {lib : Sodium} {kp : PsirpKeypair} {executed : List Execution}
    (hideal : Ideal lib.scheme kp.publicKey kp.secretKey (signedResults lib kp executed))
    {q : PsirpComputeResp} (hkey : q.pubkey = kp.publicKey) (hq : psirpComputeVerify lib q = true) :
    ∃ r ∈ responses lib kp executed, q.result = r.result ∧ q.signature = r.signature := by
  rw [psirpComputeVerify, hkey] at hq
  obtain ⟨hmem, hsig⟩ := hideal.mem_of_verify hq
  obtain ⟨r, hr, hresult⟩ := List.mem_map.mp hmem
  obtain ⟨⟨req, handler⟩, -, hexec⟩ := List.mem_filterMap.mp hr
  obtain ⟨-, -, hrsig, -⟩ := psirpComputeExecute_eq_some hexec
  refine ⟨r, hr, hresult.symm, ?_⟩
  rw [hrsig, hresult]
  exact hsig

/-- A library that accepts, under one key, the signatures of the contents in a record only. -/
def recorder (publicKey : PublicKey) (record : List (List UInt8)) : Sodium where
  init := 0
  signDetached content _ := spelled content
  verifyDetached signature content publicKey' :=
    if publicKey' = publicKey ∧ content ∈ record ∧ signature = spelled content then 0 else -1

theorem scheme_recorder (publicKey : PublicKey) (record : List (List UInt8)) :
    (recorder publicKey record).scheme = recorded publicKey spelled record := by
  rw [Sodium.scheme, recorded, Scheme.mk.injEq]
  refine ⟨rfl, ?_⟩
  funext pk content signature
  rw [Bool.eq_iff_iff]
  simp [psirpVerify, recorder, and_assoc]

/-- A handler that writes `hi`. -/
def hello : PsirpComputeHandler where
  run _ outCap := [104, 105].take outCap
  length_le _ _ := List.length_take_le _ _

/-- A request without parameters. -/
def requestFor (path : CString) : PsirpComputeReq := ⟨(psirpNameInit path).2, [], 1, by decide⟩

/-- `hello` was run for `/a`. -/
def ranForA : List Execution := [(requestFor (text ['/', 'a']), hello)]

/-- A library that has signed for `ranForA`. -/
def afterA : Sodium := recorder onesKeypair.publicKey [[104, 105]]

theorem ideal_afterA :
    Ideal afterA.scheme onesKeypair.publicKey onesKeypair.secretKey
      (signedResults afterA onesKeypair ranForA) := by
  have hsigned : signedResults afterA onesKeypair ranForA = [[104, 105]] := rfl
  rw [hsigned, afterA, scheme_recorder]
  refine ideal_recorded _ _ ?_
  intro m hm m' hm' _
  rw [List.mem_singleton.mp hm, List.mem_singleton.mp hm']

/-- The response for `/a`, under the name `/b`. -/
def renamedB : PsirpComputeResp :=
  ⟨(psirpNameInit (text ['/', 'b'])).2, [104, 105],
    psirpSign afterA onesKeypair.secretKey [104, 105], onesKeypair.publicKey, by decide⟩

theorem verify_renamedB : psirpComputeVerify afterA renamedB = true := by
  have h : afterA.scheme.verify onesKeypair.publicKey [104, 105] (spelled [104, 105]) = true := by
    rw [afterA, scheme_recorder]
    exact verify_recorded.mpr ⟨rfl, List.mem_singleton_self _, rfl⟩
  exact h

theorem exists_response_of_verify_renamedB :
    ∃ r ∈ responses afterA onesKeypair ranForA,
      renamedB.result = r.result ∧ renamedB.signature = r.signature :=
  exists_response_of_verify ideal_afterA rfl verify_renamedB

/-- The result for `/a` is accepted as the result for `/b`, which nobody asked for. -/
theorem renamedB_accepted :
    Ideal afterA.scheme onesKeypair.publicKey onesKeypair.secretKey
        (signedResults afterA onesKeypair ranForA) ∧
      renamedB.pubkey = onesKeypair.publicKey ∧ psirpComputeVerify afterA renamedB = true ∧
      ¬ ∃ r ∈ responses afterA onesKeypair ranForA,
        renamedB.name.components = r.name.components ∧ renamedB.result = r.result := by
  refine ⟨ideal_afterA, rfl, verify_renamedB, ?_⟩
  rintro ⟨r, hr, hname, -⟩
  obtain ⟨⟨req, handler⟩, hmem, hexec⟩ := List.mem_filterMap.mp hr
  obtain ⟨rfl, rfl⟩ := Prod.ext_iff.mp (List.mem_singleton.mp hmem)
  rw [(psirpComputeExecute_eq_some hexec).1] at hname
  exact absurd hname (by decide)

end DsoBrowser
