-- The stapled OCSP response of a handshake and the check that takes its
-- place (sslcom.tpp: check_revocation_stapling, status_resp_callback and
-- certificate_status_oob_check).
import Socle.StatusCheck
import Socle.OcspResponse

namespace socle.stapling

open verify crl status ocsp

/-! ## The stapled response -/

inductive staple_code_t
  | NOT_PROCESSED | MISSING_BODY | PARSING_FAILED | STATUS_NOK | GET_BASIC_FAILED
  | BASIC_VERIFY_FAILED | CERT_TO_ID_FAILED | NO_FIND_STATUS | INVALID_TIME | SUCCESS
deriving DecidableEq, Repr

def OCSP_RESPONSE_STATUS_SUCCESSFUL : Int := 0

/-- What OpenSSL gives in each step: whether there is a body, whether it can be parsed, its
`OCSP_response_status`, whether it has a basic response, the result of `OCSP_basic_verify`,
whether there is a certificate ID, the status that `OCSP_resp_find_status` finds, and
`OCSP_check_validity`. -/
structure stapled where
  stapling_body : Bool
  ocsp_response : Bool
  response_status : Int
  basic_response : Bool
  basic_verify : Int
  cert_id : Bool
  find_status : Option Int
  check_validity : Bool
deriving DecidableEq, Repr

/-- `com->opt.ocsp.enforce_in_verify = true`. -/
def enforce_in_verify (com : baseSSLCom) : baseSSLCom :=
  { com with opt.ocsp.enforce_in_verify := true }

/-- `check_revocation_stapling`: how far it came, and the status. -/
def check_revocation_stapling (s : stapled) (com : baseSSLCom) :
    (staple_code_t × Int) × baseSSLCom :=
  if ¬ s.stapling_body then ((.MISSING_BODY, -1), enforce_in_verify com)
  else if ¬ s.ocsp_response then ((.PARSING_FAILED, -1), enforce_in_verify com)
  else if s.response_status ≠ OCSP_RESPONSE_STATUS_SUCCESSFUL then
    ((.STATUS_NOK, s.response_status), enforce_in_verify com)
  else if ¬ s.basic_response then ((.GET_BASIC_FAILED, s.response_status), enforce_in_verify com)
  -- the only way out that leaves the option as it is
  else if s.basic_verify ≤ 0 then ((.BASIC_VERIFY_FAILED, s.basic_verify), com)
  else if ¬ s.cert_id then ((.CERT_TO_ID_FAILED, s.basic_verify), enforce_in_verify com)
  else
    match s.find_status with
    | none => ((.NO_FIND_STATUS, s.basic_verify), enforce_in_verify com)
    | some ocsp_status =>
      if ¬ s.check_validity then ((.INVALID_TIME, ocsp_status), enforce_in_verify com)
      else ((.SUCCESS, ocsp_status), com)

/-! ## The callback -/

/-- What a callback gives back and leaves behind. `oob` is not in the code: it records the answer
of `certificate_status_ocsp_check`, when it was asked. -/
structure outcome where
  ret : Int
  com : baseSSLCom
  fac : SSLFactory
  oob : Option Int := none

/-- `return com->opt.cert.failed_check_replacement`. -/
def replacement (com : baseSSLCom) : Int :=
  if com.opt.cert.failed_check_replacement then 1 else 0

/-- The options that exempt a problem, each with the problem. -/
def exempted (opt : SSLComOptionsCert) : List (verify_status_t × Bool) :=
  [(.VRF_SELF_SIGNED, opt.allow_self_signed), (.VRF_SELF_SIGNED_CHAIN, opt.allow_self_signed_chain),
    (.VRF_INVALID, opt.allow_not_valid), (.VRF_UNKNOWN_ISSUER, opt.allow_unknown_issuer)]

/-- One of the tests of `is_verify_status_opt_allowed`, which takes the problem out of the mask. -/
def opt_allows (com : baseSSLCom) (r : Bool × BitVec 32) (e : verify_status_t × Bool) :
    Bool × BitVec 32 :=
  if r.1 && com.verify_bitcheck e.1 then (e.2, flag_reset r.2 e.1) else r

def is_verify_status_opt_allowed (com : baseSSLCom) : Bool :=
  let r := (exempted com.opt.cert).foldl (opt_allows com) (true, com.verify_status_)
  if r.1 then
    let problem_mask := flag_reset (flag_reset (flag_reset r.2 .VRF_OK) .VRF_DEFERRED) .VRF_ALLFAILED
    problem_mask = 0 || problem_mask = verify_status_t.VRF_CLIENT_CERT_RQ.val
  else false

/-- `verify_get()` without the flags that tell of no problem. -/
def non_ok (com : baseSSLCom) : BitVec 32 :=
  flag_reset (flag_reset (flag_reset com.verify_status_ .VRF_NOTTESTED) .VRF_DEFERRED) .VRF_OK

/-- The certificate failed already, and no client certificate is asked for. -/
def failed_already (com : baseSSLCom) : Bool :=
  (non_ok com).toInt > 0 && com.verify_status_ != verify_status_t.VRF_OK.val &&
    !com.verify_bitcheck .VRF_CLIENT_CERT_RQ

/-- The end of `status_resp_callback` for a certificate that failed already. -/
def settle_failed (com : baseSSLCom) : Int × baseSSLCom :=
  let com := com.verify_bitreset .VRF_NOTTESTED
  if is_verify_status_opt_allowed com then
    (1, (com.verify_bitset .VRF_OK).verify_origin .EXEMPT)
  else
    (replacement com, (com.verify_bitreset .VRF_OK).verify_bitset .VRF_ALLFAILED)

section
variable (ssl : openssl) (net : servers) (now : Int) (fac : SSLFactory)

/-- `certificate_status_oob_check`. It comes back when the check does, and when there is a certificate
for `print_cn`. -/
def certificate_status_oob_check (com : baseSSLCom) (default_action : Int) : Option outcome :=
  let com := com.verify_bitreset .VRF_DEFERRED
  if com.opt.ocsp.enforce_in_verify then
    let (res, left) := certificate_status_ocsp_check ssl net now fac com
    if com.sslcom_target_cert.isNone then none
    else
      match res.revoked, left with
      | some revoked, some com =>
        if revoked ≠ 0 then
          let com :=
            if revoked > 0 then (com.verify_bitreset .VRF_OK).verify_bitset .VRF_REVOKED
            else (com.verify_bitreset .VRF_OK).verify_bitset .VRF_ALLFAILED
          some { ret := replacement com, com := com, fac := res.fac, oob := some revoked }
        else some { ret := 1, com := com, fac := res.fac, oob := some revoked }
      | _, _ => none
  else some { ret := default_action, com := com, fac := fac }

/-- The end of `status_resp_callback`, when the stapled response gave no answer. -/
def resort_to_oob (com : baseSSLCom) : Option outcome :=
  if com.opt.ocsp.stapling_mode ≥ 2 then
    certificate_status_oob_check ssl net now fac
      ((com.verify_bitset .VRF_DEFERRED).verify_bitreset .VRF_OK) 0
  else certificate_status_oob_check ssl net now fac com 1

/-- `status_resp_callback` behind the call of `check_revocation_stapling`. -/
def act_on_staple (stap_result : staple_code_t × Int) (com : baseSSLCom) : Option outcome :=
  if stap_result.1 = .SUCCESS then
    let com := com.verify_bitreset .VRF_OK
    if stap_result.2 = V_OCSP_CERTSTATUS_GOOD then
      let com := { (com.verify_bitset .VRF_OK).verify_origin .OCSP_STAPLING with
        ocsp_cert_is_revoked := 0 }
      some { ret := 1, com := com, fac := fac }
    else if stap_result.2 = V_OCSP_CERTSTATUS_REVOKED then
      let left := ({ com with ocsp_cert_is_revoked := 1 }.verify_bitset .VRF_REVOKED).verify_origin
        .OCSP_STAPLING
      some { ret := replacement com, com := left, fac := fac }
    else resort_to_oob ssl net now fac com
  else resort_to_oob ssl net now fac com

def status_resp_callback (s : stapled) (com : baseSSLCom) : Option outcome :=
  if failed_already com then
    some { ret := (settle_failed com).1, com := (settle_failed com).2, fac := fac }
  else
    let com := com.verify_bitreset .VRF_NOTTESTED
    if com.sslcom_target_cert.isNone || com.sslcom_target_issuer.isNone then
      let default_action := if com.opt.ocsp.stapling_mode ≥ 2 then 0 else 1
      certificate_status_oob_check ssl net now fac (enforce_in_verify com) default_action
    else
      let (stap_result, com) := check_revocation_stapling s com
      act_on_staple ssl net now fac stap_result com

end

/-! ## What the stapled response comes to -/

/-- A status that was verified. -/
structure VerifiedStatus (s : stapled) (ocsp_status : Int) : Prop where
  stapling_body : s.stapling_body = true
  ocsp_response : s.ocsp_response = true
  response_status : s.response_status = OCSP_RESPONSE_STATUS_SUCCESSFUL
  basic_response : s.basic_response = true
  basic_verify : 0 < s.basic_verify
  cert_id : s.cert_id = true
  find_status : s.find_status = some ocsp_status
  check_validity : s.check_validity = true

/-- There is a response, and its signature is not good. -/
structure BadSignature (s : stapled) : Prop where
  stapling_body : s.stapling_body = true
  ocsp_response : s.ocsp_response = true
  response_status : s.response_status = OCSP_RESPONSE_STATUS_SUCCESSFUL
  basic_response : s.basic_response = true
  basic_verify : s.basic_verify ≤ 0

/-- There is no status that was verified. -/
def Invalid (s : stapled) : Prop :=
  ¬ ∃ ocsp_status, VerifiedStatus s ocsp_status

theorem VerifiedStatus.unique {s : stapled} {a b : Int} (ha : VerifiedStatus s a)
    (hb : VerifiedStatus s b) : a = b := by
  have h := ha.find_status.symm.trans hb.find_status
  rwa [Option.some.injEq] at h

theorem VerifiedStatus.not_bad {s : stapled} {a : Int} (h : VerifiedStatus s a) :
    ¬ BadSignature s := by
  intro hbad
  have hgood := h.basic_verify
  have hle := hbad.basic_verify
  omega

/-- A status that was verified, a bad signature that goes unnoticed, or a failure that calls for
the other check. -/
theorem staple_cases (s : stapled) (com : baseSSLCom) :
    (∃ ocsp_status, VerifiedStatus s ocsp_status ∧
      check_revocation_stapling s com = ((.SUCCESS, ocsp_status), com)) ∨
    (BadSignature s ∧ Invalid s ∧
      check_revocation_stapling s com = ((.BASIC_VERIFY_FAILED, s.basic_verify), com)) ∨
    (¬ BadSignature s ∧ Invalid s ∧ ∃ r, r.1 ≠ staple_code_t.SUCCESS ∧
      check_revocation_stapling s com = (r, enforce_in_verify com)) := by
  unfold check_revocation_stapling
  by_cases hbody : s.stapling_body
  · by_cases hresp : s.ocsp_response
    · by_cases hstatus : s.response_status = OCSP_RESPONSE_STATUS_SUCCESSFUL
      · by_cases hbasic : s.basic_response
        · by_cases hverify : s.basic_verify ≤ 0
          · refine Or.inr (Or.inl ⟨⟨hbody, hresp, hstatus, hbasic, hverify⟩, ?_, ?_⟩)
            · rintro ⟨_, hv⟩
              exact hv.not_bad ⟨hbody, hresp, hstatus, hbasic, hverify⟩
            · simp [hbody, hresp, hstatus, hbasic, hverify]
          · have hpos : 0 < s.basic_verify := by omega
            have hgood : ¬ BadSignature s := fun h => hverify h.basic_verify
            by_cases hid : s.cert_id
            · cases hfind : s.find_status with
              | none =>
                refine Or.inr (Or.inr ⟨hgood, ?_, ?_⟩)
                · rintro ⟨_, hv⟩
                  have hsome := hv.find_status
                  rw [hfind] at hsome
                  cases hsome
                · simp [hbody, hresp, hstatus, hbasic, hverify, hid]
              | some ocsp_status =>
                by_cases hvalid : s.check_validity
                · refine Or.inl ⟨ocsp_status,
                    ⟨hbody, hresp, hstatus, hbasic, hpos, hid, hfind, hvalid⟩, ?_⟩
                  simp [hbody, hresp, hstatus, hbasic, hverify, hid, hvalid]
                · refine Or.inr (Or.inr ⟨hgood, fun ⟨_, hv⟩ => hvalid hv.check_validity, ?_⟩)
                  simp [hbody, hresp, hstatus, hbasic, hverify, hid, hvalid]
            · refine Or.inr (Or.inr ⟨hgood, fun ⟨_, hv⟩ => hid hv.cert_id, ?_⟩)
              simp [hbody, hresp, hstatus, hbasic, hverify, hid]
        · refine Or.inr (Or.inr ⟨fun h => hbasic h.basic_response,
            fun ⟨_, hv⟩ => hbasic hv.basic_response, ?_⟩)
          simp [hbody, hresp, hstatus, hbasic]
      · refine Or.inr (Or.inr ⟨fun h => hstatus h.response_status,
          fun ⟨_, hv⟩ => hstatus hv.response_status, ?_⟩)
        simp [hbody, hresp, hstatus]
    · refine Or.inr (Or.inr ⟨fun h => hresp h.ocsp_response,
        fun ⟨_, hv⟩ => hresp hv.ocsp_response, ?_⟩)
      simp [hbody, hresp]
  · refine Or.inr (Or.inr ⟨fun h => hbody h.stapling_body,
      fun ⟨_, hv⟩ => hbody hv.stapling_body, ?_⟩)
    simp [hbody]

/-! ## The other check -/

section
variable {ssl : openssl} {net : servers} {now : Int} {fac : SSLFactory} {com : baseSSLCom}

/-- The result that an answer of the other check leads to. -/
def oob_ret (com : baseSSLCom) (revoked : Int) : Int :=
  if revoked = 0 then 1 else replacement com

theorem replacement_congr {com' : baseSSLCom} (h : com'.opt = com.opt) :
    replacement com' = replacement com := by
  unfold replacement
  rw [h]

/-- What the other check does with its verdict. -/
def act_on_verdict (revoked : Int) (com : baseSSLCom) : baseSSLCom :=
  if revoked ≠ 0 then
    if revoked > 0 then (com.verify_bitreset .VRF_OK).verify_bitset .VRF_REVOKED
    else (com.verify_bitreset .VRF_OK).verify_bitset .VRF_ALLFAILED
  else com

/-- When it is enforced and comes back, the other check was made, and its verdict decides. -/
theorem oob_enforced (h : com.opt.ocsp.enforce_in_verify = true) {default_action : Int} {o : outcome}
    (ho : certificate_status_oob_check ssl net now fac com default_action = some o) :
    com.sslcom_target_cert.isSome ∧ ∃ revoked left,
      (certificate_status_ocsp_check ssl net now fac
        (com.verify_bitreset .VRF_DEFERRED)).1.revoked = some revoked ∧
      (certificate_status_ocsp_check ssl net now fac
        (com.verify_bitreset .VRF_DEFERRED)).2 = some left ∧
      o.oob = some revoked ∧ o.ret = oob_ret com revoked ∧
      o.com = act_on_verdict revoked left := by
  have hopt {left : baseSSLCom} (hleft : (certificate_status_ocsp_check ssl net now fac
      (com.verify_bitreset .VRF_DEFERRED)).2 = some left) : left.opt = com.opt :=
    (ocsp_check_opt ssl net now fac hleft).trans (baseSSLCom.verify_bitreset_opt ..)
  simp only [certificate_status_oob_check, baseSSLCom.verify_bitreset_opt, h, if_true] at ho
  split at ho
  · cases ho
  next hcert =>
    refine ⟨by simpa [Option.isSome_iff_ne_none] using hcert, ?_⟩
    split at ho
    next revoked left hrevoked hleft =>
      refine ⟨revoked, left, hrevoked, hleft, ?_⟩
      have hsame := hopt hleft
      by_cases hzero : revoked = 0
      · rw [if_neg (by simp [hzero])] at ho
        obtain rfl := Option.some.inj ho
        simp [oob_ret, act_on_verdict, hzero]
      · rw [if_pos hzero] at ho
        obtain rfl := Option.some.inj ho
        refine ⟨rfl, ?_, by simp [act_on_verdict, hzero]⟩
        simp only [oob_ret, if_neg hzero]
        apply replacement_congr
        split <;> simpa using hsame
    next => cases ho

/-- When it is not, there is the default. -/
theorem oob_not_enforced (h : com.opt.ocsp.enforce_in_verify = false) (default_action : Int) :
    certificate_status_oob_check ssl net now fac com default_action =
      some { ret := default_action, com := com.verify_bitreset .VRF_DEFERRED, fac } := by
  simp [certificate_status_oob_check, h]

/-- The same for the end of the callback. -/
theorem resort_enforced {com : baseSSLCom} (h : com.opt.ocsp.enforce_in_verify = true)
    {o : outcome} (ho : resort_to_oob ssl net now fac com = some o) :
    ∃ revoked, o.oob = some revoked ∧ o.ret = oob_ret com revoked := by
  unfold resort_to_oob at ho
  split at ho
  · obtain ⟨-, revoked, -, -, -, hoob, hret, -⟩ := oob_enforced (by exact h) ho
    exact ⟨revoked, hoob, hret⟩
  · obtain ⟨-, revoked, -, -, -, hoob, hret, -⟩ := oob_enforced h ho
    exact ⟨revoked, hoob, hret⟩

variable (ssl net now fac) in
theorem resort_not_enforced (com : baseSSLCom) (h : com.opt.ocsp.enforce_in_verify = false) :
    ∃ o, resort_to_oob ssl net now fac com = some o ∧ o.oob = none ∧
      o.ret = if com.opt.ocsp.stapling_mode ≥ 2 then 0 else 1 := by
  unfold resort_to_oob
  split
  · exact ⟨_, oob_not_enforced (by exact h) 0, rfl, rfl⟩
  · exact ⟨_, oob_not_enforced h 1, rfl, rfl⟩

/-! ## Evidence -/

/-- The callback for a certificate that is known and has not failed already. -/
theorem callback_eq {cert issuer : X509} (hcert : com.sslcom_target_cert = some cert)
    (hissuer : com.sslcom_target_issuer = some issuer) (hearly : failed_already com = false)
    (s : stapled) :
    status_resp_callback ssl net now fac s com =
      act_on_staple ssl net now fac
        (check_revocation_stapling s (com.verify_bitreset .VRF_NOTTESTED)).1
        (check_revocation_stapling s (com.verify_bitreset .VRF_NOTTESTED)).2 := by
  simp [status_resp_callback, hearly, hcert, hissuer]

/-- The other check is made, if the callback comes back. Where it does not, it is in this check. -/
def Asks (ssl : openssl) (net : servers) (now : Int) (fac : SSLFactory) (s : stapled)
    (com : baseSSLCom) : Prop :=
  ∀ o, status_resp_callback ssl net now fac s com = some o → o.oob.isSome

/-- The connection is accepted with evidence alone, or with a replacement page. Without a status
that was verified, the check that a missing response leads to is made too, or the connection is
not accepted. -/
structure Guarded (ssl : openssl) (net : servers) (now : Int) (fac : SSLFactory) (s : stapled)
    (com : baseSSLCom) : Prop where
  evidence : ∀ o, status_resp_callback ssl net now fac s com = some o → 0 < o.ret →
    VerifiedStatus s V_OCSP_CERTSTATUS_GOOD ∨ o.oob = some 0 ∨
      com.opt.cert.failed_check_replacement = true
  not_weaker : Invalid s → Asks ssl net now fac { s with stapling_body := false } com →
    Asks ssl net now fac s com ∨
      ∀ o, status_resp_callback ssl net now fac s com = some o → o.ret ≤ 0

/-- The signature is good. A status that is neither good nor revoked comes with a replacement
page. -/
structure Sound (s : stapled) (com : baseSSLCom) : Prop where
  signature : ¬ BadSignature s
  other : ∀ ocsp_status, VerifiedStatus s ocsp_status →
    ocsp_status = V_OCSP_CERTSTATUS_GOOD ∨ ocsp_status = V_OCSP_CERTSTATUS_REVOKED ∨
      com.opt.cert.failed_check_replacement = true

theorem oob_ret_pos {revoked : Int} (h : 0 < oob_ret com revoked) :
    revoked = 0 ∨ com.opt.cert.failed_check_replacement = true := by
  unfold oob_ret replacement at h
  by_cases hzero : revoked = 0
  · exact Or.inl hzero
  · right
    by_contra hno
    simp [hzero, hno] at h

/-- An outcome of the other check is one that is guarded. -/
theorem guarded_of_resort {s : stapled} (com' : baseSSLCom)
    (hopt : com'.opt.cert = com.opt.cert) (henforce : com'.opt.ocsp.enforce_in_verify = true)
    (h : status_resp_callback ssl net now fac s com = resort_to_oob ssl net now fac com') :
    Guarded ssl net now fac s com := by
  refine ⟨?_, ?_⟩
  · intro o ho hpos
    rw [h] at ho
    obtain ⟨revoked, hoob, hret⟩ := resort_enforced henforce ho
    rw [hret] at hpos
    rcases oob_ret_pos hpos with rfl | hrep
    · exact Or.inr (Or.inl hoob)
    · exact Or.inr (Or.inr (hopt ▸ hrep))
  · intro _ _
    left
    intro o ho
    rw [h] at ho
    obtain ⟨revoked, hoob, -⟩ := resort_enforced henforce ho
    rw [hoob]
    rfl

/-- The same for an outcome that is not accepted. -/
theorem guarded_of_refused {s : stapled}
    (h : ∀ o, status_resp_callback ssl net now fac s com = some o → o.ret ≤ 0) :
    Guarded ssl net now fac s com :=
  ⟨fun o ho hpos => absurd hpos (not_lt.mpr (h o ho)), fun _ _ => Or.inr h⟩

/-- The callback that leaves the options as they were is guarded when the other check is enforced
or stapling is required. -/
theorem guarded_of_asked {s : stapled} {com' : baseSSLCom}
    (h : status_resp_callback ssl net now fac s com = resort_to_oob ssl net now fac com')
    (hopt : com'.opt = com.opt)
    (hask : com.opt.ocsp.enforce_in_verify = true ∨ 2 ≤ com.opt.ocsp.stapling_mode) :
    Guarded ssl net now fac s com := by
  cases henforce : com.opt.ocsp.enforce_in_verify with
  | true => exact guarded_of_resort com' (by rw [hopt]) (by rw [hopt]; exact henforce) h
  | false =>
    have hmode : 2 ≤ com.opt.ocsp.stapling_mode := by simpa [henforce] using hask
    obtain ⟨o, ho, -, hret⟩ := resort_not_enforced ssl net now fac com'
      (by rw [hopt]; exact henforce)
    apply guarded_of_refused
    intro o' ho'
    rw [h, ho, Option.some.injEq] at ho'
    rw [← ho', hret, hopt, if_pos hmode]

/-- Otherwise it accepts without any check. -/
theorem unchecked_of_not_asked {s : stapled} {com' : baseSSLCom}
    (h : status_resp_callback ssl net now fac s com = resort_to_oob ssl net now fac com')
    (hopt : com'.opt = com.opt)
    (hask : ¬ (com.opt.ocsp.enforce_in_verify = true ∨ 2 ≤ com.opt.ocsp.stapling_mode)) :
    ∃ o, status_resp_callback ssl net now fac s com = some o ∧ o.oob = none ∧ o.ret = 1 := by
  rw [not_or, Bool.not_eq_true] at hask
  rw [h]
  have hdefault := resort_not_enforced ssl net now fac com' (by rw [hopt]; exact hask.1)
  rw [hopt, if_neg hask.2] at hdefault
  exact hdefault

/-- A missing response leads to the other check. -/
theorem missing_is_checked {cert issuer : X509} (hcert : com.sslcom_target_cert = some cert)
    (hissuer : com.sslcom_target_issuer = some issuer) (hearly : failed_already com = false)
    (s : stapled) : Asks ssl net now fac { s with stapling_body := false } com := by
  intro o ho
  rw [callback_eq hcert hissuer hearly] at ho
  simp only [check_revocation_stapling, act_on_staple, Bool.false_eq_true, not_false_eq_true,
    if_true, reduceCtorEq, if_false] at ho
  obtain ⟨revoked, hoob, -⟩ := resort_enforced rfl ho
  rw [hoob]
  rfl

end

/-- The callback is guarded when, and only when, the other check is enforced, or stapling is
required, or the signature is good and a status without an answer has a replacement page. -/
theorem staples_are_guarded (ssl : openssl) (net : servers) (now : Int) (fac : SSLFactory)
    (s : stapled) (com : baseSSLCom) (cert issuer : X509)
    (hcert : com.sslcom_target_cert = some cert) (hissuer : com.sslcom_target_issuer = some issuer)
    (hearly : failed_already com = false) :
    Guarded ssl net now fac s com ↔
      com.opt.ocsp.enforce_in_verify = true ∨ 2 ≤ com.opt.ocsp.stapling_mode ∨ Sound s com := by
  have hcall : status_resp_callback ssl net now fac s com = _ :=
    callback_eq hcert hissuer hearly s
  rcases staple_cases s (com.verify_bitreset .VRF_NOTTESTED) with
    ⟨ocsp_status, hv, heq⟩ | ⟨hbad, hinvalid, heq⟩ | ⟨hgood, hinvalid, r, hr, heq⟩
  · rw [heq] at hcall
    have hvalid : ¬ Invalid s := fun h => h ⟨ocsp_status, hv⟩
    by_cases hstatus : ocsp_status = V_OCSP_CERTSTATUS_GOOD
    · subst hstatus
      refine ⟨fun _ => Or.inr (Or.inr ⟨hv.not_bad, fun st hst => Or.inl (hst.unique hv)⟩), ?_⟩
      exact fun _ => ⟨fun _ _ _ => Or.inl hv, fun h => absurd h hvalid⟩
    by_cases hrevoked : ocsp_status = V_OCSP_CERTSTATUS_REVOKED
    · subst hrevoked
      refine ⟨fun _ => Or.inr (Or.inr ⟨hv.not_bad, fun st hst =>
        Or.inr (Or.inl (hst.unique hv))⟩), fun _ => ⟨fun o ho hpos => ?_, fun h => absurd h hvalid⟩⟩
      have hrep : com.opt.cert.failed_check_replacement = true := by
        by_contra hno
        rw [hcall] at ho
        simp only [act_on_staple, if_true, if_neg hstatus, Option.some.injEq] at ho
        rw [← ho] at hpos
        simp [replacement, hno] at hpos
      exact Or.inr (Or.inr hrep)
    · have hresort : status_resp_callback ssl net now fac s com = resort_to_oob ssl net now fac
          ((com.verify_bitreset .VRF_NOTTESTED).verify_bitreset .VRF_OK) := by
        rw [hcall]
        simp [act_on_staple, hstatus, hrevoked]
      have hsound : Sound s com ↔ com.opt.cert.failed_check_replacement = true := by
        refine ⟨?_, ?_⟩
        · intro h
          rcases h.other ocsp_status hv with hst | hst | hrep
          · exact absurd hst hstatus
          · exact absurd hst hrevoked
          · exact hrep
        · exact fun hrep => ⟨hv.not_bad, fun _ _ => Or.inr (Or.inr hrep)⟩
      rw [hsound]
      by_cases hask : com.opt.ocsp.enforce_in_verify = true ∨ 2 ≤ com.opt.ocsp.stapling_mode
      · exact ⟨fun _ => or_assoc.mp (Or.inl hask), fun _ => guarded_of_asked hresort rfl hask⟩
      · obtain ⟨o, ho, hoob, hret⟩ := unchecked_of_not_asked hresort rfl hask
        rw [← or_assoc, or_iff_right hask]
        refine ⟨?_, ?_⟩
        · intro h
          rcases h.evidence o ho (by rw [hret]; decide) with hst | hst | hrep
          · exact absurd (hv.unique hst) hstatus
          · rw [hoob] at hst
            cases hst
          · exact hrep
        · exact fun hrep => ⟨fun _ _ _ => Or.inr (Or.inr hrep), fun h => absurd h hvalid⟩
  · rw [heq] at hcall
    have hresort : status_resp_callback ssl net now fac s com = resort_to_oob ssl net now fac
        (com.verify_bitreset .VRF_NOTTESTED) := hcall
    have hsound : ¬ Sound s com := fun h => h.signature hbad
    rw [← or_assoc, or_iff_left hsound]
    refine ⟨fun h => ?_, guarded_of_asked hresort rfl⟩
    by_contra hask
    obtain ⟨o, ho, hoob, hret⟩ := unchecked_of_not_asked hresort rfl hask
    rcases h.not_weaker hinvalid (missing_is_checked hcert hissuer hearly s) with hasks | hle
    · have hsome := hasks o ho
      rw [hoob] at hsome
      cases hsome
    · have hzero := hle o ho
      omega
  · rw [heq, act_on_staple, if_neg hr] at hcall
    refine ⟨fun _ => Or.inr (Or.inr ⟨hgood, fun st hst => absurd ⟨st, hst⟩ hinvalid⟩), fun _ => ?_⟩
    exact guarded_of_resort (enforce_in_verify (com.verify_bitreset .VRF_NOTTESTED)) rfl rfl hcall

/-- All is well but the signature. -/
def forged : stapled where
  stapling_body := true
  ocsp_response := true
  response_status := OCSP_RESPONSE_STATUS_SUCCESSFUL
  basic_response := true
  basic_verify := 0
  cert_id := true
  find_status := some V_OCSP_CERTSTATUS_GOOD
  check_validity := true

/-- A connection to the server with certificate 7, without a replacement page. -/
def strict_com : baseSSLCom :=
  { sslcom_target_cert := some revoked_cert, sslcom_target_issuer := some issuer_cert,
    opt.cert.failed_check_replacement := false }

theorem staples_are_guarded_with_signature :
    Guarded openssl_accepts (serves_crl crl_with_7) 0 (.reset_caches 300 100)
      { forged with basic_verify := 1 } strict_com :=
  (staples_are_guarded openssl_accepts (serves_crl crl_with_7) 0 (.reset_caches 300 100)
    { forged with basic_verify := 1 } strict_com revoked_cert issuer_cert rfl rfl
    (by decide)).mpr (Or.inr (Or.inr ⟨fun h => absurd h.basic_verify (by decide), fun st hst =>
      Or.inl (Option.some.inj hst.find_status).symm⟩))

/-- A staple with a forged signature is accepted, and no other check is made. -/
theorem a_forged_staple_is_accepted :
    ¬ ∀ (ssl : openssl) (net : servers) (now : Int) (fac : SSLFactory) (s : stapled)
      (com : baseSSLCom) (cert issuer : X509), com.sslcom_target_cert = some cert →
      com.sslcom_target_issuer = some issuer → failed_already com = false →
      Guarded ssl net now fac s com := by
  intro hall
  have h := hall openssl_accepts (serves_crl crl_with_7) 0 (.reset_caches 300 100) forged
    strict_com revoked_cert issuer_cert rfl rfl (by decide)
  have hcall : ∃ o, status_resp_callback openssl_accepts (serves_crl crl_with_7) 0
      (.reset_caches 300 100) forged strict_com = some o ∧ 0 < o.ret ∧ o.oob = none :=
    ⟨_, rfl, by decide, rfl⟩
  obtain ⟨o, ho, hpos, hnone⟩ := hcall
  rcases h.evidence o ho hpos with hv | hoob | hrep
  · exact absurd hv.basic_verify (by decide)
  · rw [hnone] at hoob
    cases hoob
  · exact absurd hrep (by decide)

end socle.stapling
