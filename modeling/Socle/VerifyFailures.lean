-- The failures of a connection: which flags tell of one, what the check of the
-- revocation and the stapled response do to them, and when these verify the
-- connection (sslcom.tpp).
import Socle.VerifyCallbacks

namespace socle.callbacks

open verify crl status stapling ocsp

/-! ## Failures -/

/-- The flags that tell of a failure. -/
def is_failure : verify_status_t → Bool
  | .VRF_UNKNOWN_ISSUER | .VRF_SELF_SIGNED | .VRF_INVALID | .VRF_SELF_SIGNED_CHAIN
  | .VRF_REVOKED | .VRF_HOSTNAME_FAILED | .VRF_CT_MISSING | .VRF_CT_FAILED
  | .VRF_ALLFAILED => true
  | _ => false

/-- A failure that no option permits is on record. -/
def Tainted (com : baseSSLCom) : Prop :=
  ∃ f, is_failure f = true ∧ permitted com.opt.cert f = false ∧ com.verify_bitcheck f = true

/-- A connection that is verified has no failure but those that an option permits. -/
def Clean (com : baseSSLCom) : Prop :=
  com.verify_bitcheck .VRF_OK = true → ¬ Tainted com

/-- Each failure of `com` is one of `com'` too. -/
def Grows (com com' : baseSSLCom) : Prop :=
  ∀ f, is_failure f = true → com.verify_bitcheck f = true → com'.verify_bitcheck f = true

/-- The failures and the options of both are the same. -/
structure Same (com com' : baseSSLCom) : Prop where
  options : com'.opt.cert = com.opt.cert
  failures : ∀ f, is_failure f = true → com'.verify_bitcheck f = com.verify_bitcheck f

/-- The ways in which a step can go: it leaves the connection not verified, it changes nothing
that counts, or it verifies the connection. -/
inductive Turn (com com' : baseSSLCom) : Prop
  | drops (h : com'.verify_bitcheck .VRF_OK = false)
  | keeps (h : Same com com') (hok : com'.verify_bitcheck .VRF_OK = com.verify_bitcheck .VRF_OK)

/-- The step verifies the connection, and changes nothing else that counts. -/
structure Grants (com com' : baseSSLCom) : Prop where
  same : Same com com'
  ok : com'.verify_bitcheck .VRF_OK = true

section
variable {com com' com'' : baseSSLCom}

theorem Grows.refl (com : baseSSLCom) : Grows com com :=
  fun _ _ h => h

theorem Grows.trans (h : Grows com com') (h' : Grows com' com'') : Grows com com'' :=
  fun f hf hc => h' f hf (h f hf hc)

theorem Same.grows (h : Same com com') : Grows com com' :=
  fun f hf hc => (h.failures f hf).trans hc

theorem Same.refl (com : baseSSLCom) : Same com com :=
  ⟨rfl, fun _ _ => rfl⟩

theorem Same.trans (h : Same com com') (h' : Same com' com'') : Same com com'' :=
  ⟨h'.options.trans h.options, fun f hf => (h'.failures f hf).trans (h.failures f hf)⟩

theorem grows_set (com : baseSSLCom) (g : verify_status_t) : Grows com (com.verify_bitset g) := by
  intro f _ h
  simp [h]

/-- A flag that is no failure can be set and taken back. -/
theorem same_set (com : baseSSLCom) {g : verify_status_t} (hg : is_failure g = false) :
    Same com (com.verify_bitset g) := by
  refine ⟨rfl, fun f hf => ?_⟩
  have hne : g ≠ f := by
    rintro rfl
    rw [hg] at hf
    cases hf
  simp [hne]

theorem same_reset (com : baseSSLCom) {g : verify_status_t} (hg : is_failure g = false) :
    Same com (com.verify_bitreset g) := by
  refine ⟨rfl, fun f hf => ?_⟩
  have hne : g ≠ f := by
    rintro rfl
    rw [hg] at hf
    cases hf
  simp [hne]

theorem Same.tainted (h : Same com com') : Tainted com' ↔ Tainted com := by
  unfold Tainted
  rw [h.options]
  constructor
  · rintro ⟨f, hf, hp, hc⟩
    exact ⟨f, hf, hp, (h.failures f hf).symm.trans hc⟩
  · rintro ⟨f, hf, hp, hc⟩
    exact ⟨f, hf, hp, (h.failures f hf).trans hc⟩

theorem Turn.clean (h : Turn com com') (hc : Clean com) : Clean com' := by
  cases h with
  | drops h =>
    intro hok
    rw [h] at hok
    cases hok
  | keeps h hok =>
    intro hok'
    rw [h.tainted]
    exact hc (hok.symm.trans hok')

theorem Grants.clean_iff (h : Grants com com') : Clean com' ↔ ¬ Tainted com := by
  unfold Clean
  rw [h.same.tainted]
  exact ⟨fun hc => hc h.ok, fun hn _ => hn⟩

/-- Setting a failure leaves a clean connection clean when, and only when, the failure is
permitted or the connection is not verified. -/
theorem clean_set_iff (hc : Clean com) {f : verify_status_t} (hf : is_failure f = true) :
    Clean (com.verify_bitset f) ↔
      permitted com.opt.cert f = true ∨ com.verify_bitcheck .VRF_OK = false := by
  have hok : (com.verify_bitset f).verify_bitcheck .VRF_OK = com.verify_bitcheck .VRF_OK := by
    have hne : f ≠ .VRF_OK := by
      rintro rfl
      cases hf
    simp [hne]
  constructor
  · intro h
    cases hp : permitted com.opt.cert f with
    | true => exact Or.inl rfl
    | false =>
      right
      rw [← Bool.not_eq_true]
      intro hset
      exact h (hok.trans hset) ⟨f, hf, hp, by simp⟩
  · rintro (hp | hno) hset
    · rintro ⟨g, hg, hnot, hbit⟩
      have hne : f ≠ g := by
        rintro rfl
        rw [baseSSLCom.verify_bitset_opt, hp] at hnot
        cases hnot
      refine hc (hok.symm.trans hset) ⟨g, hg, hnot, ?_⟩
      simpa [hne] using hbit
    · rw [hok, hno] at hset
      cases hset

theorem Turn.trans (h : Turn com com') (h' : Turn com' com'') : Turn com com'' := by
  cases h' with
  | drops h' => exact Turn.drops h'
  | keeps h' hok' =>
    cases h with
    | drops h => exact Turn.drops (hok'.trans h)
    | keeps h hok => exact Turn.keeps (h.trans h') (hok'.trans hok)

theorem Grants.after (h : Same com com') (h' : Grants com' com'') : Grants com com'' :=
  ⟨h.trans h'.same, h'.ok⟩

/-- Only the flags and the options count. -/
theorem clean_congr (hopt : com'.opt.cert = com.opt.cert)
    (h : ∀ f, com'.verify_bitcheck f = com.verify_bitcheck f) : Clean com' ↔ Clean com := by
  have hsame : Same com com' := ⟨hopt, fun f _ => h f⟩
  unfold Clean
  rw [h, hsame.tainted]

end

/-! ## The check of the revocation -/

section
variable {ssl : openssl} {net : servers} {now : Int} {fac : SSLFactory} {com : baseSSLCom}

theorem record_status_grows (revoked : Int) (origin : verify_origin_t) (com : baseSSLCom) :
    Grows com (record_status revoked origin com) := by
  intro f hf h
  have hne : verify_status_t.VRF_OK ≠ f := by
    rintro rfl
    cases hf
  unfold record_status
  by_cases hpos : revoked > 0
  · simp [hpos, h, hne]
  · by_cases hzero : revoked = 0
    · simp [hzero, h]
    · simp [hpos, hzero, h, hne]

/-- A good verdict verifies the connection. -/
theorem record_status_grants (origin : verify_origin_t) (com : baseSSLCom) :
    Grants com (record_status 0 origin com) := by
  refine ⟨⟨by simp, fun f hf => ?_⟩, by simp⟩
  have hne : verify_status_t.VRF_OK ≠ f := by
    rintro rfl
    cases hf
  simp [record_status, hne]

theorem ocsp_check_grows {left : baseSSLCom}
    (h : (certificate_status_ocsp_check ssl net now fac com).2 = some left) : Grows com left := by
  obtain ⟨revoked, ocsp_cert_is_revoked, -, rfl⟩ := ocsp_check_records ssl net now fac h
  exact record_status_grows _ _ { com with ocsp_cert_is_revoked := ocsp_cert_is_revoked }

theorem ocsp_check_grants {left : baseSSLCom}
    (h : (certificate_status_ocsp_check ssl net now fac com).2 = some left)
    (hgood : (certificate_status_ocsp_check ssl net now fac com).1.revoked = some 0) :
    Grants com left := by
  obtain ⟨revoked, ocsp_cert_is_revoked, hrevoked, rfl⟩ := ocsp_check_records ssl net now fac h
  obtain rfl : revoked = 0 := Option.some.inj (hrevoked.symm.trans hgood)
  have hgrants := record_status_grants
    (certificate_status_ocsp_check ssl net now fac com).1.origin
    { com with ocsp_cert_is_revoked := ocsp_cert_is_revoked }
  exact ⟨⟨hgrants.same.options, hgrants.same.failures⟩, hgrants.ok⟩

/-- The verdict of a check of a certificate that is known. -/
theorem ocsp_check_known (com : baseSSLCom) {cert issuer : X509}
    (hcert : com.sslcom_target_cert = some cert)
    (hissuer : com.sslcom_target_issuer = some issuer) :
    (certificate_status_ocsp_check ssl net now fac com).1.revoked =
      (check_status ssl net now cert issuer fac).revoked := by
  simp [certificate_status_ocsp_check, hcert, hissuer]

theorem ocsp_check_unknown (com : baseSSLCom)
    (h : com.sslcom_target_cert = none ∨ com.sslcom_target_issuer = none) :
    (certificate_status_ocsp_check ssl net now fac com).1.revoked = some (-1) := by
  unfold certificate_status_ocsp_check
  rcases h with h | h
  · simp [h]
  · cases hcert : com.sslcom_target_cert <;> simp [h]

theorem act_on_verdict_grows (revoked : Int) (com : baseSSLCom) :
    Grows com (act_on_verdict revoked com) := by
  have hreset : Grows com (com.verify_bitreset .VRF_OK) := (same_reset com rfl).grows
  unfold act_on_verdict
  split
  · split
    · exact hreset.trans (grows_set _ _)
    · exact hreset.trans (grows_set _ _)
  · exact Grows.refl com

theorem oob_grows {default_action : Int} {o : outcome}
    (ho : certificate_status_oob_check ssl net now fac com default_action = some o) :
    Grows com o.com := by
  have hreset : Grows com (com.verify_bitreset .VRF_DEFERRED) := (same_reset com rfl).grows
  cases henforce : com.opt.ocsp.enforce_in_verify with
  | true =>
    obtain ⟨-, revoked, left, -, hleft, -, -, hcom⟩ := oob_enforced henforce ho
    rw [hcom]
    exact hreset.trans ((ocsp_check_grows hleft).trans (act_on_verdict_grows _ _))
  | false =>
    obtain rfl := Option.some.inj ((oob_not_enforced henforce default_action).symm.trans ho)
    exact hreset

/-- The other check verifies the connection with a good verdict, and in no other case. -/
theorem oob_cases {default_action : Int} {o : outcome}
    (ho : certificate_status_oob_check ssl net now fac com default_action = some o) :
    (com.opt.ocsp.enforce_in_verify = true ∧ (certificate_status_ocsp_check ssl net now fac
        (com.verify_bitreset .VRF_DEFERRED)).1.revoked = some 0 ∧ Grants com o.com) ∨
    (¬ (com.opt.ocsp.enforce_in_verify = true ∧ (certificate_status_ocsp_check ssl net now fac
        (com.verify_bitreset .VRF_DEFERRED)).1.revoked = some 0) ∧ Turn com o.com) := by
  have hreset : Same com (com.verify_bitreset .VRF_DEFERRED) := same_reset com rfl
  cases henforce : com.opt.ocsp.enforce_in_verify with
  | true =>
    obtain ⟨-, revoked, left, hrevoked, hleft, -, -, hcom⟩ := oob_enforced henforce ho
    rw [hcom, hrevoked]
    by_cases hgood : revoked = 0
    · subst hgood
      exact Or.inl ⟨rfl, rfl, (ocsp_check_grants hleft hrevoked).after hreset⟩
    · right
      refine ⟨fun h => hgood (Option.some.inj h.2), Turn.drops ?_⟩
      simp only [act_on_verdict, ne_eq, hgood, not_false_eq_true, if_true]
      split <;> simp
  | false =>
    obtain rfl := Option.some.inj ((oob_not_enforced henforce default_action).symm.trans ho)
    exact Or.inr ⟨fun h => Bool.false_ne_true h.1, Turn.keeps hreset (by simp)⟩

/-! ## The stapled response -/

/-- The callback gets the answer that the certificate is good: from the stapled response, or from
the other check when it is made. -/
def AnswersGood (ssl : openssl) (net : servers) (now : Int) (fac : SSLFactory) (s : stapled)
    (com : baseSSLCom) : Prop :=
  ∃ cert issuer, com.sslcom_target_cert = some cert ∧ com.sslcom_target_issuer = some issuer ∧
    (VerifiedStatus s V_OCSP_CERTSTATUS_GOOD ∨
      (¬ VerifiedStatus s V_OCSP_CERTSTATUS_REVOKED ∧
        (com.opt.ocsp.enforce_in_verify = true ∨ (Invalid s ∧ ¬ BadSignature s)) ∧
        (check_status ssl net now cert issuer fac).revoked = some 0))

/-- The same for a certificate that is known. -/
theorem oob_known {cert issuer : X509} (hcert : com.sslcom_target_cert = some cert)
    (hissuer : com.sslcom_target_issuer = some issuer) {default_action : Int} {o : outcome}
    (ho : certificate_status_oob_check ssl net now fac com default_action = some o) :
    (com.opt.ocsp.enforce_in_verify = true ∧
      (check_status ssl net now cert issuer fac).revoked = some 0 ∧ Grants com o.com) ∨
    (¬ (com.opt.ocsp.enforce_in_verify = true ∧
        (check_status ssl net now cert issuer fac).revoked = some 0) ∧ Turn com o.com) := by
  have h := oob_cases ho
  rwa [ocsp_check_known (com.verify_bitreset .VRF_DEFERRED) hcert hissuer] at h

theorem resort_cases {cert issuer : X509} (hcert : com.sslcom_target_cert = some cert)
    (hissuer : com.sslcom_target_issuer = some issuer) {o : outcome}
    (ho : resort_to_oob ssl net now fac com = some o) :
    (com.opt.ocsp.enforce_in_verify = true ∧
      (check_status ssl net now cert issuer fac).revoked = some 0 ∧ Grants com o.com) ∨
    (¬ (com.opt.ocsp.enforce_in_verify = true ∧
        (check_status ssl net now cert issuer fac).revoked = some 0) ∧ Turn com o.com) := by
  unfold resort_to_oob at ho
  split at ho
  · have hsame : Same com ((com.verify_bitset .VRF_DEFERRED).verify_bitreset .VRF_OK) :=
      (same_set com rfl).trans (same_reset _ rfl)
    have hturn : Turn com ((com.verify_bitset .VRF_DEFERRED).verify_bitreset .VRF_OK) :=
      Turn.drops (by simp)
    rcases oob_known (by exact hcert) (by exact hissuer) ho with ⟨he, hv, hg⟩ | ⟨hno, ht⟩
    · exact Or.inl ⟨he, hv, hg.after hsame⟩
    · exact Or.inr ⟨hno, hturn.trans ht⟩
  · exact oob_known hcert hissuer ho

/-- The end of the callback, behind steps that changed nothing that counts. -/
theorem resort_answers {com' : baseSSLCom} {cert issuer : X509}
    (hcert : com'.sslcom_target_cert = some cert)
    (hissuer : com'.sslcom_target_issuer = some issuer) (hsame : Same com com')
    (hturn : Turn com com') {answer : Prop}
    (hanswer : answer ↔ com'.opt.ocsp.enforce_in_verify = true ∧
      (check_status ssl net now cert issuer fac).revoked = some 0) {o : outcome}
    (ho : resort_to_oob ssl net now fac com' = some o) :
    (answer ∧ Grants com o.com) ∨ (¬ answer ∧ Turn com o.com) := by
  rw [hanswer]
  rcases resort_cases hcert hissuer ho with ⟨he, hv, hg⟩ | ⟨hno, ht⟩
  · exact Or.inl ⟨⟨he, hv⟩, hg.after hsame⟩
  · exact Or.inr ⟨hno, hturn.trans ht⟩

/-- A certificate that is not known does not get the answer, and the connection is not verified. -/
theorem callback_unknown (hearly : failed_already com = false)
    (h : com.sslcom_target_cert = none ∨ com.sslcom_target_issuer = none) {s : stapled}
    {o : outcome} (ho : status_resp_callback ssl net now fac s com = some o) :
    ¬ AnswersGood ssl net now fac s com ∧ Turn com o.com := by
  refine ⟨?_, ?_⟩
  · rintro ⟨cert, issuer, hcert, hissuer, -⟩
    rcases h with h | h
    · rw [hcert] at h
      cases h
    · rw [hissuer] at h
      cases h
  · have hnone : (com.sslcom_target_cert.isNone || com.sslcom_target_issuer.isNone) = true := by
      rcases h with h | h <;> simp [h]
    have hkeeps : Turn com (enforce_in_verify (com.verify_bitreset .VRF_NOTTESTED)) :=
      Turn.keeps ⟨rfl, (same_reset com (g := .VRF_NOTTESTED) rfl).failures⟩
        (com.verify_bitcheck_reset .VRF_NOTTESTED .VRF_OK)
    have hreset : ((com.verify_bitreset .VRF_NOTTESTED).sslcom_target_cert.isNone ||
        (com.verify_bitreset .VRF_NOTTESTED).sslcom_target_issuer.isNone) = true := hnone
    simp only [status_resp_callback, hearly, Bool.false_eq_true, if_false, hreset, if_true] at ho
    rcases oob_cases ho with ⟨-, hv, -⟩ | ⟨-, ht⟩
    · rw [ocsp_check_unknown _ (by exact h)] at hv
      exact absurd hv (by decide)
    · exact hkeeps.trans ht

/-- What the callback is to answer, for a certificate that is known. -/
theorem answers_good_iff {cert issuer : X509} (hcert : com.sslcom_target_cert = some cert)
    (hissuer : com.sslcom_target_issuer = some issuer) (s : stapled) :
    AnswersGood ssl net now fac s com ↔
      (VerifiedStatus s V_OCSP_CERTSTATUS_GOOD ∨
        (¬ VerifiedStatus s V_OCSP_CERTSTATUS_REVOKED ∧
          (com.opt.ocsp.enforce_in_verify = true ∨ (Invalid s ∧ ¬ BadSignature s)) ∧
          (check_status ssl net now cert issuer fac).revoked = some 0)) := by
  simp [AnswersGood, hcert, hissuer]

/-- A status that was verified decides by itself, when it is an answer. -/
theorem verified_answers {cert issuer : X509} (hcert : com.sslcom_target_cert = some cert)
    (hissuer : com.sslcom_target_issuer = some issuer) {s : stapled} {ocsp_status : Int}
    (hv : VerifiedStatus s ocsp_status) {o : outcome}
    (ho : act_on_staple ssl net now fac (.SUCCESS, ocsp_status)
      (com.verify_bitreset .VRF_NOTTESTED) = some o) :
    (AnswersGood ssl net now fac s com ∧ Grants com o.com) ∨
    (¬ AnswersGood ssl net now fac s com ∧ Turn com o.com) := by
  rw [answers_good_iff hcert hissuer]
  have hvalid : ¬ Invalid s := fun h => h ⟨ocsp_status, hv⟩
  have hdrop : Same com ((com.verify_bitreset .VRF_NOTTESTED).verify_bitreset .VRF_OK) :=
    (same_reset com rfl).trans (same_reset _ rfl)
  have hno : ((com.verify_bitreset .VRF_NOTTESTED).verify_bitreset .VRF_OK).verify_bitcheck
      .VRF_OK = false := by simp
  simp only [act_on_staple, if_true] at ho
  by_cases hgood : ocsp_status = V_OCSP_CERTSTATUS_GOOD
  · subst hgood
    rw [if_pos rfl] at ho
    obtain rfl := Option.some.inj ho
    have hset := hdrop.trans (same_set _ (g := .VRF_OK) rfl)
    have hok := baseSSLCom.verify_bitcheck_set
      ((com.verify_bitreset .VRF_NOTTESTED).verify_bitreset .VRF_OK) .VRF_OK .VRF_OK
    exact Or.inl ⟨Or.inl hv, ⟨⟨rfl, hset.failures⟩, hok⟩⟩
  have hngood : ¬ VerifiedStatus s V_OCSP_CERTSTATUS_GOOD := fun h => hgood (hv.unique h)
  rw [if_neg hgood] at ho
  by_cases hrevoked : ocsp_status = V_OCSP_CERTSTATUS_REVOKED
  · subst hrevoked
    rw [if_pos rfl] at ho
    obtain rfl := Option.some.inj ho
    right
    refine ⟨fun h => ?_, Turn.drops ?_⟩
    · rcases h with h | ⟨hn, -⟩
      · exact hngood h
      · exact hn hv
    · rw [baseSSLCom.verify_bitcheck_origin, baseSSLCom.verify_bitcheck_set]
      exact hno
  · have hnrev : ¬ VerifiedStatus s V_OCSP_CERTSTATUS_REVOKED := fun h => hrevoked (hv.unique h)
    rw [if_neg hrevoked] at ho
    exact resort_answers (by exact hcert) (by exact hissuer) hdrop (Turn.drops hno)
      (by simp [hngood, hnrev, hvalid]) ho

/-- The callback that comes back verifies the connection with the answer that the certificate is
good, and in no other case. -/
theorem callback_cases (hearly : failed_already com = false) {s : stapled} {o : outcome}
    (ho : status_resp_callback ssl net now fac s com = some o) :
    (AnswersGood ssl net now fac s com ∧ Grants com o.com) ∨
    (¬ AnswersGood ssl net now fac s com ∧ Turn com o.com) := by
  cases hcert : com.sslcom_target_cert with
  | none => exact Or.inr (callback_unknown hearly (Or.inl hcert) ho)
  | some cert =>
    cases hissuer : com.sslcom_target_issuer with
    | none => exact Or.inr (callback_unknown hearly (Or.inr hissuer) ho)
    | some issuer =>
      have hreset : Same com (com.verify_bitreset .VRF_NOTTESTED) := same_reset com rfl
      have hok : (com.verify_bitreset .VRF_NOTTESTED).verify_bitcheck .VRF_OK =
          com.verify_bitcheck .VRF_OK := com.verify_bitcheck_reset .VRF_NOTTESTED .VRF_OK
      rw [callback_eq hcert hissuer hearly] at ho
      rcases staple_cases s (com.verify_bitreset .VRF_NOTTESTED) with
        ⟨ocsp_status, hv, heq⟩ | ⟨hbad, hinvalid, heq⟩ | ⟨hnbad, hinvalid, r, hr, heq⟩
      · rw [heq] at ho
        exact verified_answers hcert hissuer hv ho
      · rw [heq] at ho
        rw [answers_good_iff hcert hissuer]
        have hno : ∀ st, ¬ VerifiedStatus s st := fun st h => hinvalid ⟨st, h⟩
        exact resort_answers (by exact hcert) (by exact hissuer) hreset (Turn.keeps hreset hok)
          (by simp [hno, hbad]) ho
      · rw [heq, act_on_staple, if_neg hr] at ho
        rw [answers_good_iff hcert hissuer]
        have hno : ∀ st, ¬ VerifiedStatus s st := fun st h => hinvalid ⟨st, h⟩
        have hsame : Same com (enforce_in_verify (com.verify_bitreset .VRF_NOTTESTED)) :=
          ⟨rfl, hreset.failures⟩
        exact resort_answers (by exact hcert) (by exact hissuer) hsame (Turn.keeps hsame hok)
          (by simp [hno, hnbad, hinvalid, enforce_in_verify]) ho

end

/-! ## A certificate that failed already -/

section
variable {com : baseSSLCom}

/-- The options exempt a list of problems when each one that is on record has its option. The
other flags of the mask stay. -/
theorem exempted_fold (com : baseSSLCom) (l : List (verify_status_t × Bool)) (r : Bool × BitVec 32)
    (h : (l.foldl (opt_allows com) r).1 = true) :
    r.1 = true ∧ (∀ e ∈ l, com.verify_bitcheck e.1 = true → e.2 = true) ∧
      ∀ f, (∀ e ∈ l, e.1 ≠ f) → flag_check (l.foldl (opt_allows com) r).2 f = flag_check r.2 f := by
  induction l generalizing r with
  | nil => exact ⟨h, by simp, fun _ _ => rfl⟩
  | cons e rest ih =>
    rw [List.foldl_cons] at h ⊢
    rcases ih _ h with ⟨hr, hrest, hmask⟩
    have hstep : r.1 = true ∧ (com.verify_bitcheck e.1 = true → e.2 = true) ∧
        ∀ f, e.1 ≠ f → flag_check (opt_allows com r e).2 f = flag_check r.2 f := by
      unfold opt_allows at hr ⊢
      split at hr
      next hc =>
        rw [Bool.and_eq_true] at hc
        refine ⟨hc.1, fun _ => hr, fun f hf => ?_⟩
        simp [hc, hf]
      next hc =>
        refine ⟨hr, fun hbit => absurd ?_ hc, fun f _ => by rw [if_neg hc]⟩
        simp [hr, hbit]
    refine ⟨hstep.1, ?_, fun f hf => ?_⟩
    · intro e' he'
      rcases List.mem_cons.mp he' with rfl | he'
      · exact hstep.2.1
      · exact hrest e' he'
    · rw [hmask f fun e' he' => hf e' (List.mem_cons_of_mem e he')]
      exact hstep.2.2 f (hf e List.mem_cons_self)

/-- The options exempt a connection when each failure on record is permitted. One that an
exempted connection can have is VRF_ALLFAILED, which no option is about. -/
theorem allowed_failures (h : is_verify_status_opt_allowed com = true) {f : verify_status_t}
    (hf : is_failure f = true) (hset : com.verify_bitcheck f = true) :
    permitted com.opt.cert f = true ∨ f = .VRF_ALLFAILED := by
  simp only [is_verify_status_opt_allowed] at h
  split at h
  next hall =>
    rcases exempted_fold com (exempted com.opt.cert) (true, com.verify_status_) hall with
      ⟨-, hopts, hmask⟩
    generalize (exempted com.opt.cert).foldl (opt_allows com) (true, com.verify_status_) = r
      at h hmask
    by_cases hlist : ∀ e ∈ exempted com.opt.cert, e.1 ≠ f
    · right
      by_contra hne
      have hkeep : flag_check (flag_reset (flag_reset (flag_reset r.2 .VRF_OK) .VRF_DEFERRED)
          .VRF_ALLFAILED) f = true := by
        have hok : verify_status_t.VRF_OK ≠ f := by
          rintro rfl
          cases hf
        have hdef : verify_status_t.VRF_DEFERRED ≠ f := by
          rintro rfl
          cases hf
        simp only [flag_check_reset, hok, hdef, Ne.symm hne, hmask f hlist]
        exact hset
      rw [Bool.or_eq_true, decide_eq_true_eq, decide_eq_true_eq] at h
      rcases h with h | h
      · rw [h] at hkeep
        simp [flag_check] at hkeep
      · rw [h, flag_check_val, decide_eq_true_eq] at hkeep
        subst hkeep
        cases hf
    · left
      rw [not_forall] at hlist
      rcases hlist with ⟨e, hlist⟩
      rw [Classical.not_imp, not_not] at hlist
      rcases hlist with ⟨hmem, rfl⟩
      have hopt := hopts e hmem hset
      simp only [exempted, List.mem_cons, List.not_mem_nil, or_false] at hmem
      rcases hmem with rfl | rfl | rfl | rfl <;> exact hopt
  next => cases h

/-- The connection that the options exempt is verified, the other one is not. -/
theorem settle_failed_cases (com : baseSSLCom) :
    (is_verify_status_opt_allowed (com.verify_bitreset .VRF_NOTTESTED) = true ∧
      Grants com (settle_failed com).2) ∨
    (is_verify_status_opt_allowed (com.verify_bitreset .VRF_NOTTESTED) = false ∧
      Grows com (settle_failed com).2 ∧ (settle_failed com).2.verify_bitcheck .VRF_OK = false) := by
  have hreset : Same com (com.verify_bitreset .VRF_NOTTESTED) := same_reset com rfl
  cases hallowed : is_verify_status_opt_allowed (com.verify_bitreset .VRF_NOTTESTED) with
  | true =>
    left
    have hset := hreset.trans (same_set _ (g := .VRF_OK) rfl)
    simp only [settle_failed, hallowed, if_true]
    exact ⟨trivial, ⟨⟨rfl, hset.failures⟩, by simp⟩⟩
  | false =>
    right
    simp only [settle_failed, hallowed, Bool.false_eq_true, if_false]
    exact ⟨trivial, (hreset.trans (same_reset _ rfl)).grows.trans (grows_set _ _), by simp⟩

/-- The options never exempt a failure but VRF_ALLFAILED. -/
theorem tainted_of_allowed
    (h : is_verify_status_opt_allowed (com.verify_bitreset .VRF_NOTTESTED) = true) :
    Tainted com ↔ com.verify_bitcheck .VRF_ALLFAILED = true := by
  constructor
  · rintro ⟨f, hf, hnot, hset⟩
    have hset' := ((same_reset com (g := .VRF_NOTTESTED) rfl).failures f hf).trans hset
    rcases allowed_failures h hf hset' with hp | rfl
    · rw [baseSSLCom.verify_bitreset_opt, hnot] at hp
      cases hp
    · exact hset
  · exact fun hset => ⟨.VRF_ALLFAILED, rfl, rfl, hset⟩

end

/-! ## The whole callback -/

section
variable {ssl : openssl} {net : servers} {now : Int} {fac : SSLFactory} {com : baseSSLCom}

theorem resort_grows {o : outcome} (ho : resort_to_oob ssl net now fac com = some o) :
    Grows com o.com := by
  unfold resort_to_oob at ho
  split at ho
  · have hsame : Same com ((com.verify_bitset .VRF_DEFERRED).verify_bitreset .VRF_OK) :=
      (same_set com rfl).trans (same_reset _ rfl)
    exact hsame.grows.trans (oob_grows ho)
  · exact oob_grows ho

theorem act_on_staple_grows {stap_result : staple_code_t × Int} {o : outcome}
    (ho : act_on_staple ssl net now fac stap_result com = some o) : Grows com o.com := by
  have hreset : Grows com (com.verify_bitreset .VRF_OK) := (same_reset com rfl).grows
  simp only [act_on_staple] at ho
  split at ho
  · split at ho
    · obtain rfl := Option.some.inj ho
      exact hreset.trans (grows_set _ .VRF_OK)
    · split at ho
      · obtain rfl := Option.some.inj ho
        exact hreset.trans (grows_set (com.verify_bitreset .VRF_OK) .VRF_REVOKED)
      · exact hreset.trans (resort_grows ho)
  · exact resort_grows ho

/-- The stapled response is read without a change to the status. -/
theorem check_revocation_stapling_grows (s : stapled) (com : baseSSLCom) :
    Grows com (check_revocation_stapling s com).2 := by
  rcases staple_cases s com with ⟨_, _, heq⟩ | ⟨_, _, heq⟩ | ⟨_, _, _, _, heq⟩
  · rw [heq]
    exact Grows.refl com
  · rw [heq]
    exact Grows.refl com
  · rw [heq]
    exact fun _ _ h => h

/-- The callback takes no failure back. -/
theorem status_resp_grows {s : stapled} {o : outcome}
    (ho : status_resp_callback ssl net now fac s com = some o) : Grows com o.com := by
  have hreset : Grows com (com.verify_bitreset .VRF_NOTTESTED) := (same_reset com rfl).grows
  simp only [status_resp_callback] at ho
  split at ho
  · obtain rfl := Option.some.inj ho
    rcases settle_failed_cases com with ⟨-, hgrants⟩ | ⟨-, hgrows, -⟩
    · exact hgrants.same.grows
    · exact hgrows
  · split at ho
    · have henforce : Grows (com.verify_bitreset .VRF_NOTTESTED)
          (enforce_in_verify (com.verify_bitreset .VRF_NOTTESTED)) := fun _ _ h => h
      exact (hreset.trans henforce).trans (oob_grows ho)
    · exact hreset.trans ((check_revocation_stapling_grows s _).trans (act_on_staple_grows ho))

end

end socle.callbacks
