import DsoBrowser.Compute
import DsoBrowser.NameParse

/-!
# Compute-on-peer end to end

A request is written, read, executed and answered; the response is written, read and verified. The
wire keeps what the executor and the requester need: the components of the name, the parameters, the
nonce, the result, the signature and the key. It loses the hash and the version.

The main result is that **the requester gets what the handler makes of its parameters**
(`computeOnPeer`).
-/

namespace DsoBrowser

open ByteOrder Signatures

/-! ## Components -/

/-- The component loop reads back components a name has room for. -/
theorem takeShortComponents_componentBytes :
    ∀ (cs : List CString) (rest : List UInt8), (∀ c ∈ cs, c.length < psirpMaxComponent) →
      takeShortComponents cs.length (componentBytes cs ++ rest) = some (cs, rest) := by
  intro cs
  induction cs with
  | nil => exact fun rest _ => rfl
  | cons c cs ih =>
    intro rest hlen
    have hshort := hlen c List.mem_cons_self
    have hc : (UInt8.ofNat c.length).toNat = c.bytes.length := by
      rw [CString.length_bytes]
      exact UInt8.toNat_ofNat_of_lt (hshort.trans (by decide))
    have hbytes : componentBytes (c :: cs) ++ rest =
        UInt8.ofNat c.length :: (c.bytes ++ (componentBytes cs ++ rest)) := by
      simp [componentBytes]
    have hfits : ¬ ((c.bytes ++ (componentBytes cs ++ rest)).length < c.bytes.length ∨
        psirpMaxComponent ≤ c.bytes.length) := by
      rw [List.length_append, CString.length_bytes]
      omega
    rw [hbytes, List.length_cons, takeShortComponents, hc, if_neg hfits, List.take_left,
      List.drop_left, ih rest fun d hd => hlen d (List.mem_cons_of_mem _ hd), CString.ofBytes_bytes]
    rfl

theorem takeVector_toList {k : Nat} (v : List.Vector UInt8 k) (rest : List UInt8) :
    takeVector k (v.toList ++ rest) = some (v, rest) := by
  have hlen : v.toList.length = k := v.toList_length
  have hfits : ¬ (v.toList ++ rest).length < k := by
    rw [List.length_append, hlen]
    omega
  rw [takeVector, dif_neg hfits]
  simp only [List.take_left' hlen, List.drop_left' hlen]
  rfl

theorem count_toNat (name : PsirpName) :
    (UInt8.ofNat name.components.length).toNat = name.components.length :=
  UInt8.toNat_ofNat_of_lt (lt_of_le_of_lt name.count_le (by decide))

theorem fillComponents_components (init name : PsirpName) :
    fillComponents init name.components =
      some { init with components := name.components, count_le := name.count_le } :=
  dif_pos name.count_le

theorem exists_psirpComputeExecute (lib : Sodium) (kp : PsirpKeypair) (req : PsirpComputeReq)
    {handler : PsirpComputeHandler}
    (h : req.params ≠ [] → handler.run req.params psirpComputeMaxResult ≠ []) :
    ∃ resp, psirpComputeExecute lib req handler kp = some resp :=
  ⟨_, if_neg fun hfail => h hfail.2 hfail.1⟩

/-! ## Requests -/

/-- The bytes of a request. -/
def PsirpComputeReq.bytes (req : PsirpComputeReq) : List UInt8 :=
  psirpPktComputeReq :: (beBytes 8 req.nonce.toNat ++ beBytes 4 req.params.length ++
    UInt8.ofNat req.name.components.length :: (componentBytes req.name.components ++ req.params))

/-- A request is written if it fits. -/
theorem psirpComputeReqSerialize_of_le {req : PsirpComputeReq} {bufLen : Nat}
    (hlen : ∀ c ∈ req.name.components, c.length < 256)
    (hfit : 14 + (componentBytes req.name.components).length + req.params.length ≤ bufLen) :
    psirpComputeReqSerialize req bufLen = some req.bytes := by
  simp only [psirpComputeReqSerialize, Option.bind_eq_bind]
  rw [putField_of_le (by simp; omega), Option.bind_some, putField_of_le (by simp; omega),
    Option.bind_some, putField_of_le (by simp; omega), Option.bind_some,
    putField_of_le (by simp; omega), Option.bind_some, putComponents_of_le hlen (by simp; omega),
    Option.bind_some, putField_of_le (by simp; omega)]
  simp [PsirpComputeReq.bytes]

/-- **A request comes back** with its components, parameters and nonce. -/
theorem psirpComputeReqDeserialize_bytes {req : PsirpComputeReq}
    (hlen : ∀ c ∈ req.name.components, c.length < psirpMaxComponent) (init : PsirpName) :
    psirpComputeReqDeserialize init req.bytes = some { req with
      name := { init with
        components := req.name.components, hash := 0, count_le := req.name.count_le } } := by
  obtain ⟨hblen, hnonce, hplen, hhead, hrest⟩ := interest_fields psirpPktComputeReq
    (UInt8.ofNat req.name.components.length) (componentBytes req.name.components ++ req.params)
    (length_beBytes 8 req.nonce.toNat) (length_beBytes 4 req.params.length)
  have hp : req.params.length % 256 ^ 4 = req.params.length :=
    Nat.mod_eq_of_lt (lt_of_le_of_lt req.params_le (by decide))
  have hn : UInt64.ofNat (req.nonce.toNat % 256 ^ 8) = req.nonce := by
    rw [Nat.mod_eq_of_lt (req.nonce.toNat_lt.trans_eq (by decide)), UInt64.ofNat_toNat]
  rw [PsirpComputeReq.bytes, psirpComputeReqDeserialize, if_neg (by rw [hblen]; omega),
    if_neg (by rw [List.head?_cons]; exact fun h => h rfl)]
  simp only [hnonce, hplen, hhead, hrest, Option.getD_some, count_toNat]
  rw [if_neg (Nat.not_lt.mpr req.name.count_le), takeShortComponents_componentBytes _ _ hlen]
  simp only [Option.bind_eq_bind, Option.bind_some, fillComponents_components, ofBeBytes_beBytes,
    hp, hn]
  rw [if_neg (Nat.lt_irrefl _), dif_neg (Nat.not_lt.mpr req.params_le)]
  simp only [List.take_length]

/-! ## Responses -/

/-- The bytes of a response. -/
def PsirpComputeResp.bytes (resp : PsirpComputeResp) : List UInt8 :=
  psirpPktComputeResp :: (beBytes 4 resp.result.length ++ (resp.result ++
    (resp.signature.toList ++ (resp.pubkey.toList ++
      UInt8.ofNat resp.name.components.length :: componentBytes resp.name.components))))

/-- A response is written if it fits. -/
theorem psirpComputeRespSerialize_of_le {resp : PsirpComputeResp} {bufLen : Nat}
    (hlen : ∀ c ∈ resp.name.components, c.length < 256)
    (hfit : 102 + (componentBytes resp.name.components).length + resp.result.length ≤ bufLen) :
    psirpComputeRespSerialize resp bufLen = some resp.bytes := by
  have hsig : resp.signature.toList.length = 64 := resp.signature.toList_length
  have hkey : resp.pubkey.toList.length = 32 := resp.pubkey.toList_length
  simp only [psirpComputeRespSerialize, Option.bind_eq_bind]
  rw [putField_of_le (by simp; omega), Option.bind_some, putField_of_le (by simp; omega),
    Option.bind_some, putField_of_le (by simp; omega), Option.bind_some,
    putField_of_le (by simp only [List.length_append, hsig]; simp; omega), Option.bind_some,
    putField_of_le (by simp only [List.length_append, hsig, hkey]; simp; omega), Option.bind_some,
    putField_of_le (by simp only [List.length_append, hsig, hkey]; simp; omega), Option.bind_some,
    putComponents_of_le hlen (by simp only [List.length_append, hsig, hkey]; simp; omega)]
  simp [PsirpComputeResp.bytes]

/-- **A response comes back** with its components, result, signature and key. -/
theorem psirpComputeRespDeserialize_bytes {resp : PsirpComputeResp}
    (hlen : ∀ c ∈ resp.name.components, c.length < psirpMaxComponent) (init : PsirpName) :
    psirpComputeRespDeserialize init resp.bytes = some { resp with
      name := { init with
        components := resp.name.components, count_le := resp.name.count_le } } := by
  have hr : resp.result.length % 256 ^ 4 = resp.result.length :=
    Nat.mod_eq_of_lt (lt_of_le_of_lt resp.result_le (by decide))
  have hsig : resp.signature.toList.length = 64 := resp.signature.toList_length
  have hcomps := takeShortComponents_componentBytes resp.name.components [] hlen
  rw [List.append_nil] at hcomps
  obtain ⟨body, hbody⟩ : ∃ body, body = resp.result ++ (resp.signature.toList ++
      (resp.pubkey.toList ++ UInt8.ofNat resp.name.components.length ::
        componentBytes resp.name.components)) := ⟨_, rfl⟩
  have hbytes : resp.bytes = psirpPktComputeResp :: (beBytes 4 resp.result.length ++ body) := by
    rw [hbody, PsirpComputeResp.bytes]
  have hrlen : (resp.bytes.drop 1).take 4 = beBytes 4 resp.result.length := by
    rw [hbytes, List.drop_one, List.tail_cons, List.take_left' (length_beBytes _ _)]
  have hrest : resp.bytes.drop 5 = body := by
    rw [hbytes, List.drop_succ_cons, List.drop_left' (length_beBytes _ _)]
  have hlong : ¬ resp.bytes.length < 10 := by
    rw [hbytes, List.length_cons, List.length_append, length_beBytes, hbody, List.length_append,
      List.length_append, hsig]
    omega
  have hfull : ¬ body.length < resp.result.length := by
    rw [hbody, List.length_append]
    omega
  rw [psirpComputeRespDeserialize, if_neg hlong,
    if_neg (by rw [hbytes, List.head?_cons]; exact fun h => h rfl)]
  simp only [hrlen, hrest, ofBeBytes_beBytes, hr]
  rw [if_neg hfull, dif_neg (Nat.not_lt.mpr resp.result_le)]
  simp only [hbody, List.take_left, List.drop_left, takeVector_toList, Option.bind_eq_bind,
    Option.bind_some, count_toNat]
  rw [if_neg (Nat.not_lt.mpr resp.name.count_le), hcomps]
  simp only [Option.bind_some, fillComponents_components]

/-! ## End to end -/

/-- Everything that has to happen for a requester to get its result. `initReq` and `initResp` are
the names in the structs the deserializers fill in. -/
def ComputedOnPeer (lib : Sodium) (kp : PsirpKeypair) (req : PsirpComputeReq)
    (handler : PsirpComputeHandler) (reqCap respCap : Nat) (initReq initResp : PsirpName) : Prop :=
  ∃ reqBuf received resp respBuf answer,
    psirpComputeReqSerialize req reqCap = some reqBuf ∧
    psirpComputeReqDeserialize initReq reqBuf = some received ∧
    (received.nonce = req.nonce ∧ received.params = req.params ∧
      received.name.components = req.name.components) ∧
    psirpComputeExecute lib received handler kp = some resp ∧
    psirpComputeRespSerialize resp respCap = some respBuf ∧
    psirpComputeRespDeserialize initResp respBuf = some answer ∧
    (answer.result = resp.result ∧ answer.signature = resp.signature ∧
      answer.pubkey = resp.pubkey ∧ answer.name.components = resp.name.components) ∧
    psirpComputeVerify lib answer = true ∧
    answer.result = handler.run req.params psirpComputeMaxResult

/-- **The requester gets what the handler makes of its parameters.** -/
theorem computeOnPeer {lib : Sodium} {kp : PsirpKeypair} (hkeys : kp.Matching lib)
    {req : PsirpComputeReq} (hname : Parsed req.name) {handler : PsirpComputeHandler}
    (hrun : req.params ≠ [] → handler.run req.params psirpComputeMaxResult ≠ [])
    {reqCap respCap : Nat}
    (hreq : 14 + (componentBytes req.name.components).length + req.params.length ≤ reqCap)
    (hresp : 102 + (componentBytes req.name.components).length +
      (handler.run req.params psirpComputeMaxResult).length ≤ respCap)
    (initReq initResp : PsirpName) :
    ComputedOnPeer lib kp req handler reqCap respCap initReq initResp := by
  have hshort : ∀ c ∈ req.name.components, c.length < psirpMaxComponent :=
    fun c hc => (hname.wellFormed.plain c hc).length_lt
  have hbyte : ∀ c ∈ req.name.components, c.length < 256 :=
    fun c hc => (hshort c hc).trans (by decide)
  obtain ⟨resp, hexec⟩ := exists_psirpComputeExecute lib kp { req with
    name := { initReq with
      components := req.name.components, hash := 0, count_le := req.name.count_le } } hrun
  obtain ⟨hcomps, hresult, hsig, hkey⟩ := psirpComputeExecute_eq_some hexec
  have hshort' : ∀ c ∈ resp.name.components, c.length < psirpMaxComponent := by
    rw [hcomps]
    exact hshort
  have hwritten : psirpComputeRespSerialize resp respCap = some resp.bytes := by
    refine psirpComputeRespSerialize_of_le (fun c hc => (hshort' c hc).trans (by decide)) ?_
    rw [hcomps, hresult]
    exact hresp
  refine ⟨req.bytes, _, resp, resp.bytes, _, psirpComputeReqSerialize_of_le hbyte hreq,
    psirpComputeReqDeserialize_bytes hshort initReq, ⟨rfl, rfl, rfl⟩, hexec, hwritten,
    psirpComputeRespDeserialize_bytes hshort' initResp, ⟨rfl, rfl, rfl, rfl⟩, ?_, hresult⟩
  -- the response carries the key it is signed for
  have hverify := hkeys resp.result
  rw [psirpComputeVerify, hsig, hkey]
  exact hverify

/-- A request for `/a` with parameters `x=1`. -/
def withParams : PsirpComputeReq := ⟨(psirpNameInit (text ['/', 'a'])).2, [120, 61, 49], 7, by decide⟩

theorem computeOnPeer_withParams :
    ComputedOnPeer spelling onesKeypair withParams hello 64 128 PsirpName.zero PsirpName.zero :=
  computeOnPeer matching_ones ⟨text ['/', 'a'], by decide⟩ (fun _ => by decide) (by decide)
    (by decide) _ _

end DsoBrowser
