-- The revocation check of a server certificate (sslcom.tpp:
-- certificate_status_ocsp_check): OCSP first, then the CRL of one
-- distribution point after the other, each behind a cache.
import Socle.PtrCache
import Socle.SslCom

namespace socle.status

open verify crl

/-! ## The caches -/

structure VerifyStatus where
  revoked : Int := -1
  ttl : Int := 600
deriving DecidableEq, Repr

/-- `expiring` and `expiring_ptr`. -/
structure expiring (T : Type) where
  value_ : T
  expired_at_ : Int

def expiring.expired {T : Type} (now : Int) (e : expiring T) : Bool :=
  e.expired_at_ ≤ now

/-- `crl_holder`: no pointer stands for a download that failed. -/
structure crl_holder where
  ptr : Option X509_CRL

/-- `make_exp_ocsp_status`. The time to live becomes an `unsigned int`. -/
def make_exp_ocsp_status (now result ttl : Int) : expiring VerifyStatus :=
  { value_ := { revoked := result, ttl := ttl }, expired_at_ := now + ttl % 4294967296 }

def crl_status_ttl : Int := 86400

def make_expiring_crl (now : Int) (crl : Option X509_CRL) : expiring crl_holder :=
  { value_ := { ptr := crl }, expired_at_ := now + crl_status_ttl }

abbrev url := List UInt8

/-- The two caches of `SSLFactory`. -/
structure SSLFactory where
  verify_cache : fifo_cache String (expiring VerifyStatus)
  crl_cache : fifo_cache url (expiring crl_holder)

/-- The caches after `reset_caches`. Only `verify_cache` checks for expiration. -/
def SSLFactory.reset_caches (verify_size crl_size : Nat) : SSLFactory where
  verify_cache :=
    ⟨{ max_size_ := verify_size, fn_expired_check := some expiring.expired }, rfl⟩
  crl_cache := ⟨{ max_size_ := crl_size }, rfl⟩

/-! ## The check -/

/-- What answers from outside: OCSP responders, CRL servers (no bytes when the download fails),
the parser of a CRL, and the texts that name a certificate. -/
structure servers where
  ocsp_check_cert : X509 → X509 → VerifyStatus
  download : url → Option (List UInt8)
  crl_from_bytes : List UInt8 → Option X509_CRL
  print_cn : X509 → String
  fingerprint : X509 → String

/-- The key of a certificate in `verify_cache`. -/
def servers.cn (net : servers) (cert : X509) : String :=
  net.print_cn cert ++ ";" ++ net.fingerprint cert

/-- `c_str()`: what is behind a zero byte is lost. -/
def c_str (s : url) : url :=
  s.takeWhile (· ≠ 0)

/-- What the loop over the distribution points carries. There is no `revoked` when
`crl_is_revoked_by` does not come back. `judged` is not in the code: it records each CRL that is
looked at, with the distribution point that it is looked at for. -/
structure crl_loop where
  crl_cache : fifo_cache url (expiring crl_holder)
  crl_struct : Option X509_CRL := none
  revoked : Option Int
  origin : verify_origin_t
  judged : List (url × X509_CRL) := []

section
variable (ssl : openssl) (net : servers) (now : Int) (cert issuer : X509)

/-- The branch for a URL that is not in the cache. When the download fails, `crl_struct` stays. -/
def download_crl (crl_url : url) (l : crl_loop) : crl_loop :=
  match net.download (c_str crl_url) with
  | some b =>
    match net.crl_from_bytes b with
    | some crl_struct =>
      { l with
        crl_struct := some crl_struct
        crl_cache := l.crl_cache.set (c_str crl_url) (make_expiring_crl now (some crl_struct)) }
    | none => { l with crl_struct := none }
  | none => { l with crl_cache := l.crl_cache.set (c_str crl_url) (make_expiring_crl now none) }

/-- From the cache or from the server. The pointer of a cached entry is only logged. -/
def fetch_crl (crl_url : url) (l : crl_loop) : crl_loop :=
  match l.crl_cache.get now crl_url with
  | (some _, c) => { l with crl_cache := c, origin := .CRL_CACHE }
  | (none, c) => download_crl net now crl_url { l with crl_cache := c }

/-- What `crl_struct` says of the certificate. -/
def judge_crl (crl_struct : Option X509_CRL) : Option Int :=
  match crl_struct with
  | some crl =>
    if crl_verify_trust ssl cert issuer crl = 0 then some (-1)
    else crl_is_revoked_by ssl cert (some issuer) (some crl)
  | none => some (-1)

/-- One turn of the loop. -/
def check_crl (crl_url : url) (l : crl_loop) : crl_loop :=
  let l := fetch_crl net now crl_url l
  let is_revoked_by_crl := judge_crl ssl cert issuer l.crl_struct
  { l with
    revoked := is_revoked_by_crl
    origin := if ∃ r ∈ is_revoked_by_crl, r ≥ 0 then .CRL else l.origin
    judged := l.judged ++ (l.crl_struct.map fun crl => (crl_url, crl)).toList }

/-- The loop, which ends with the first answer, or with a call that does not come back. -/
def check_crls : List url → crl_loop → crl_loop
  | [], l => l
  | crl_url :: crls, l =>
    let l := check_crl ssl net now cert issuer crl_url l
    match l.revoked with
    | some r => if r ≥ 0 then l else check_crls crls l
    | none => l

/-- The answer of OCSP, from the cache or from the responder. -/
def check_ocsp (fac : SSLFactory) : Int × verify_origin_t × SSLFactory :=
  match fac.verify_cache.get now (net.cn cert) with
  | (some cached_result, c) =>
    (cached_result.value_.revoked, .OCSP_CACHE, { fac with verify_cache := c })
  | (none, c) =>
    let res := net.ocsp_check_cert cert issuer
    (res.revoked, .OCSP, { fac with
      verify_cache := c.set (net.cn cert) (make_exp_ocsp_status now res.revoked res.ttl) })

/-- What a check comes to. It has no verdict when it does not come back. -/
structure checked where
  revoked : Option Int
  ocsp_cert_is_revoked : Int
  origin : verify_origin_t
  judged : List (url × X509_CRL)
  fac : SSLFactory

/-- The loop as it starts behind OCSP. -/
def start_crls (fac : SSLFactory) : crl_loop :=
  let ocsp := check_ocsp net now cert issuer fac
  { crl_cache := ocsp.2.2.crl_cache, revoked := some ocsp.1, origin := ocsp.2.1 }

/-- OCSP, and the CRLs when OCSP has no answer. -/
def check_status (fac : SSLFactory) : checked :=
  let ocsp := check_ocsp net now cert issuer fac
  if ocsp.1 < 0 then
    let l := check_crls ssl net now cert issuer (crl_urls cert) (start_crls net now cert issuer fac)
    { revoked := l.revoked, ocsp_cert_is_revoked := ocsp.1, origin := l.origin, judged := l.judged,
      fac := { ocsp.2.2 with crl_cache := l.crl_cache } }
  else
    { revoked := some ocsp.1, ocsp_cert_is_revoked := ocsp.1, origin := ocsp.2.1, judged := [],
      fac := ocsp.2.2 }

/-- What a verdict does to the status of the connection. -/
def record_status (revoked : Int) (origin : verify_origin_t) (com : baseSSLCom) : baseSSLCom :=
  let com := com.verify_origin origin
  if revoked > 0 then (com.verify_bitreset .VRF_OK).verify_bitset .VRF_REVOKED
  else if revoked = 0 then com.verify_bitset .VRF_OK
  else (com.verify_bitreset .VRF_OK).verify_bitset .VRF_DEFERRED

/-- `certificate_status_ocsp_check`, with the connection that it leaves when it comes back. -/
def certificate_status_ocsp_check (fac : SSLFactory) (com : baseSSLCom) :
    checked × Option baseSSLCom :=
  match com.sslcom_target_cert, com.sslcom_target_issuer with
  | some cert, some issuer =>
    let res := check_status ssl net now cert issuer fac
    (res, res.revoked.map fun revoked => record_status revoked res.origin
      { com with ocsp_cert_is_revoked := res.ocsp_cert_is_revoked })
  | _, _ =>
    ({ revoked := some (-1), ocsp_cert_is_revoked := com.ocsp_cert_is_revoked, origin := .NONE,
       judged := [], fac := fac }, some (record_status (-1) .NONE com))

end

/-! ## What a check does -/

section
variable {ssl : openssl} {net : servers} {now : Int} {cert issuer : X509}

/-- A CRL has one of three answers, or the certificate is on it and there is none. -/
theorem judge_crl_cases (ssl : openssl) (cert issuer : X509) (crl_struct : Option X509_CRL) :
    judge_crl ssl cert issuer crl_struct = some (-1) ∨
      judge_crl ssl cert issuer crl_struct = some 0 ∨
      judge_crl ssl cert issuer crl_struct = some 1 ∨
      judge_crl ssl cert issuer crl_struct = none := by
  cases crl_struct with
  | none => exact Or.inl rfl
  | some crl =>
    by_cases htrust : crl_verify_trust ssl cert issuer crl = 0
    · simp [judge_crl, htrust]
    · cases hkey : issuer.pubkey with
      | none => simp [judge_crl, htrust, crl_is_revoked_by, hkey]
      | some ikey =>
        rcases revoked_by_cases ssl cert hkey crl with ⟨-, hr⟩ | ⟨-, -, -, hr⟩ | ⟨-, -, -, hr⟩ |
          ⟨-, -, -, hr⟩
        · simp [judge_crl, htrust, hr]
        · simp [judge_crl, htrust, hr]
        · simp [judge_crl, htrust, hr]
        · simp [judge_crl, htrust, hr]

/-- The loop goes on when, and only when, the CRL in hand has no answer. -/
theorem check_crls_cons (crl_url : url) (crls : List url) (l : crl_loop) :
    check_crls ssl net now cert issuer (crl_url :: crls) l =
      if (check_crl ssl net now cert issuer crl_url l).revoked = some (-1) then
        check_crls ssl net now cert issuer crls (check_crl ssl net now cert issuer crl_url l)
      else check_crl ssl net now cert issuer crl_url l := by
  have hcases : (check_crl ssl net now cert issuer crl_url l).revoked = some (-1) ∨
      (check_crl ssl net now cert issuer crl_url l).revoked = some 0 ∨
      (check_crl ssl net now cert issuer crl_url l).revoked = some 1 ∨
      (check_crl ssl net now cert issuer crl_url l).revoked = none := judge_crl_cases _ _ _ _
  rw [check_crls]
  rcases hcases with h | h | h | h
  · simp [h]
  · simp [h]
  · simp [h]
  · simp [h]

/-- The last CRL that is looked at gives the verdict, and the others gave no answer. -/
theorem judged_decides (crls : List url) (l : crl_loop) {u : url} {crl : X509_CRL}
    (h : (u, crl) ∈ (check_crls ssl net now cert issuer crls l).judged) :
    (u, crl) ∈ l.judged ∨ judge_crl ssl cert issuer (some crl) = some (-1) ∨
      (check_crls ssl net now cert issuer crls l).revoked =
        judge_crl ssl cert issuer (some crl) := by
  induction crls generalizing l with
  | nil => exact Or.inl h
  | cons crl_url crls ih =>
    -- a CRL of this turn is the one in hand
    have hturn : (u, crl) ∈ (check_crl ssl net now cert issuer crl_url l).judged →
        (u, crl) ∈ l.judged ∨ (check_crl ssl net now cert issuer crl_url l).revoked =
          judge_crl ssl cert issuer (some crl) := by
      intro hj
      simp only [check_crl, List.mem_append] at hj
      rcases hj with hj | hj
      · left
        have hsame : (fetch_crl net now crl_url l).judged = l.judged := by
          unfold fetch_crl download_crl
          split
          · rfl
          · split
            · split <;> rfl
            · rfl
        rwa [hsame] at hj
      · right
        cases hstruct : (fetch_crl net now crl_url l).crl_struct with
        | none => simp [hstruct] at hj
        | some crl' =>
          simp only [hstruct, Option.map_some, Option.toList_some, List.mem_singleton,
            Prod.mk.injEq] at hj
          simp only [check_crl, hstruct, hj.2]
    rw [check_crls_cons] at h ⊢
    by_cases hno : (check_crl ssl net now cert issuer crl_url l).revoked = some (-1)
    · simp only [if_pos hno] at h ⊢
      rcases ih _ h with hj | hj | hj
      · rcases hturn hj with hj | hj
        · exact Or.inl hj
        · exact Or.inr (Or.inl (hj.symm.trans hno))
      · exact Or.inr (Or.inl hj)
      · exact Or.inr (Or.inr hj)
    · simp only [if_neg hno] at h ⊢
      rcases hturn h with hj | hj
      · exact Or.inl hj
      · exact Or.inr (Or.inr hj)

@[simp] theorem record_status_ok (revoked : Int) (origin : verify_origin_t) (com : baseSSLCom) :
    (record_status revoked origin com).verify_bitcheck .VRF_OK = decide (revoked = 0) := by
  unfold record_status
  by_cases hpos : revoked > 0
  · have hne : revoked ≠ 0 := by omega
    simp [hpos, hne]
  · by_cases hzero : revoked = 0
    · simp [hzero]
    · simp [hpos, hzero]

@[simp] theorem record_status_opt (revoked : Int) (origin : verify_origin_t) (com : baseSSLCom) :
    (record_status revoked origin com).opt = com.opt := by
  unfold record_status
  by_cases hpos : revoked > 0
  · simp [hpos]
  · by_cases hzero : revoked = 0
    · simp [hzero]
    · simp [hpos, hzero]

variable (ssl net now) in
/-- A check that comes back records its verdict, whether the certificates are known or not. -/
theorem ocsp_check_records (fac : SSLFactory) {com com' : baseSSLCom}
    (h : (certificate_status_ocsp_check ssl net now fac com).2 = some com') :
    ∃ revoked ocsp_cert_is_revoked,
      (certificate_status_ocsp_check ssl net now fac com).1.revoked = some revoked ∧
      com' = record_status revoked (certificate_status_ocsp_check ssl net now fac com).1.origin
        { com with ocsp_cert_is_revoked := ocsp_cert_is_revoked } := by
  unfold certificate_status_ocsp_check at h ⊢
  split at h
  · obtain ⟨revoked, hrevoked, rfl⟩ := Option.map_eq_some_iff.mp h
    exact ⟨revoked, _, hrevoked, rfl⟩
  · obtain rfl := Option.some.inj h
    exact ⟨-1, com.ocsp_cert_is_revoked, rfl, rfl⟩

variable (ssl net now) in
/-- The check leaves the options as they are. -/
theorem ocsp_check_opt (fac : SSLFactory) {com com' : baseSSLCom}
    (h : (certificate_status_ocsp_check ssl net now fac com).2 = some com') :
    com'.opt = com.opt := by
  obtain ⟨revoked, ocsp_cert_is_revoked, -, rfl⟩ := ocsp_check_records ssl net now fac h
  rw [record_status_opt]

/-! ## Certificates on a CRL -/

/-- The CRL is one that the check trusts. -/
def Trusted (ssl : openssl) (cert issuer : X509) (crl : X509_CRL) : Prop :=
  crl_verify_trust ssl cert issuer crl ≠ 0 ∧ Verifies ssl issuer crl

/-- No check that looks at the CRL, and trusts it, accepts a certificate that is on it. -/
def NeverAccepts (ssl : openssl) (cert issuer : X509) (crl : X509_CRL) : Prop :=
  Trusted ssl cert issuer crl → Lists crl cert →
    ∀ (net : servers) (now : Int) (fac : SSLFactory) (com com' : baseSSLCom) (u : url),
      com.sslcom_target_cert = some cert → com.sslcom_target_issuer = some issuer →
      (u, crl) ∈ (certificate_status_ocsp_check ssl net now fac com).1.judged →
      (certificate_status_ocsp_check ssl net now fac com).2 = some com' →
      com'.verify_bitcheck .VRF_OK = false

/-- A certificate on a trusted CRL is found, or the call does not come back. -/
theorem judge_listed {crl : X509_CRL} (htrusted : Trusted ssl cert issuer crl)
    (hlists : Lists crl cert) :
    judge_crl ssl cert issuer (some crl) = some 1 ∨
      judge_crl ssl cert issuer (some crl) = none := by
  obtain ⟨htrust, ikey, hkey, hverify⟩ := htrusted
  simp only [judge_crl, if_neg htrust]
  rcases revoked_by_cases ssl cert hkey crl with ⟨hzero, -⟩ | ⟨-, -, -, hr⟩ | ⟨-, -, -, hr⟩ |
    ⟨-, hno, -⟩
  · omega
  · exact Or.inl hr
  · exact Or.inr hr
  · exact absurd hlists hno

/-- No certificate on a trusted CRL is accepted, in neither variant. -/
theorem never_accepts (ssl : openssl) (cert issuer : X509) (crl : X509_CRL) :
    NeverAccepts ssl cert issuer crl := by
  intro htrusted hlists net now fac com com' u hcert hissuer hj hcom
  have hjudge := judge_listed htrusted hlists
  obtain ⟨revoked, ocsp_cert_is_revoked, hrevoked, rfl⟩ := ocsp_check_records ssl net now fac hcom
  rw [record_status_ok]
  simp only [certificate_status_ocsp_check, hcert, hissuer] at hj hrevoked
  unfold check_status at hj hrevoked
  by_cases hocsp : (check_ocsp net now cert issuer fac).1 < 0
  · simp only [if_pos hocsp] at hj hrevoked
    rcases judged_decides _ _ hj with hj | hj | hj
    · simp [start_crls] at hj
    · rcases hjudge with h | h <;> simp [hj] at h
    · rw [hj] at hrevoked
      rcases hjudge with h | h
      · rw [h, Option.some.injEq] at hrevoked
        rw [← hrevoked]
        rfl
      · rw [h] at hrevoked
        cases hrevoked
  · simp [if_neg hocsp] at hj

/-- `crl_is_revoked_by` gives the right answer, and no certificate on a trusted CRL is accepted,
when and only when none of the slips of `crl_is_revoked_by` is met. -/
theorem listed_certificates_are_revoked (ssl : openssl) (cert issuer : X509) (crl : X509_CRL) :
    (Answers ssl cert issuer crl (crl_is_revoked_by ssl cert (some issuer) (some crl)) ∧
      NeverAccepts ssl cert issuer crl) ↔ Harmless ssl cert issuer crl := by
  rw [← answers_iff_harmless]
  exact ⟨fun h => h.1, fun h => ⟨h, never_accepts ssl cert issuer crl⟩⟩

end

/-- A server with certificate 7, whose CRL has this number and is signed by the issuer. -/
def revoked_cert : X509 :=
  { serialNumber := { data := [7] }, crl_distribution_points := [.fullname [[104]]] }

def issuer_cert : X509 :=
  { serialNumber := { data := [1] }, pubkey := some { spki := [1] } }

def crl_with_7 : X509_CRL :=
  { revoked := [{ serialNumber := { data := [7] } }] }

/-- OpenSSL 1.1, where the signature and the chain are good. -/
def openssl_accepts : openssl where
  USE_OPENSSL11 := true
  X509_CRL_verify _ _ := 1
  X509_verify_cert _ _ _ := 1

/-- No responder answers, and each URL gives this CRL. -/
def serves_crl (crl : X509_CRL) : servers where
  ocsp_check_cert _ _ := { revoked := -1, ttl := 60 }
  download _ := some [48]
  crl_from_bytes _ := some crl
  print_cn _ := "a"
  fingerprint x := if x.serialNumber.data = [7] then "7" else "1"

/-- A certificate on a CRL that verifies is not called revoked: there is no answer. -/
theorem a_revoked_certificate_has_no_answer :
    ¬ (Answers openssl_accepts revoked_cert issuer_cert crl_with_7
        (crl_is_revoked_by openssl_accepts revoked_cert (some issuer_cert) (some crl_with_7)) ∧
      NeverAccepts openssl_accepts revoked_cert issuer_cert crl_with_7) := by
  rintro ⟨hanswers, -⟩
  have hverifies : Verifies openssl_accepts issuer_cert crl_with_7 := ⟨{ spki := [1] }, rfl, by decide⟩
  have hlists : Lists crl_with_7 revoked_cert := ⟨_, List.mem_cons_self, rfl⟩
  exact absurd (hanswers.revoked.mpr ⟨hverifies, hlists⟩) (by decide)

end socle.status
