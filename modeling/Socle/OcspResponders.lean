-- The responders of a certificate, one after the other (sslcertval.cpp:
-- ocsp_check_cert). The loop goes on while is_revoked is -1, and each verdict
-- is put elsewhere.
import Socle.OcspResponse

namespace socle.ocsp

open crl status lib.latest

/-! ## The check -/

def OCSP_RESPONSE_STATUS_SUCCESSFUL : Int := 0

/-- A response, its `OCSP_response_status`, and when it is evaluated. -/
structure reply where
  responder_status : Int
  resp : OCSP_RESPONSE
  now : Int

/-- An URL of the certificate: `use_ssl`, when `OCSP_parse_url` can parse it, and what
`ocsp_send_request` brings, if anything. -/
structure responder where
  use_ssl : Option Bool
  reply : Option reply

/-- What the loop carries. `contacted` is not in the code: it records the calls of
`ocsp_send_request`. -/
structure responder_loop where
  is_revoked : Int := -1
  ret : VerifyStatus := { revoked := -1, ttl := 60 }
  contacted : List responder := []

/-- `OCSP_parse_url(..) && !use_ssl`. -/
def contactable (r : responder) : Bool :=
  r.use_ssl = some false

section
variable (lib : openssl_ocsp) (x509 : X509)

/-- One turn of the loop. -/
def ask_responder (issuer : X509) (l : responder_loop) (r : responder) : responder_loop :=
  if contactable r then
    let l := { l with contacted := l.contacted ++ [r] }
    match r.reply with
    | none => l
    | some answer =>
      if answer.responder_status = OCSP_RESPONSE_STATUS_SUCCESSFUL then
        { l with ret := ocsp_verify_response lib answer.now x509 issuer answer.resp }
      else l
  else l

/-- The loop through the URLs. -/
def ask_responders (issuer : X509) : List responder → responder_loop → responder_loop
  | [], l => l
  | r :: rest, l =>
    if l.is_revoked = -1 then ask_responders issuer rest (ask_responder lib x509 issuer l r) else l

def ocsp_check_cert (issuer : Option X509) (ocsp_list : List responder) : responder_loop :=
  match issuer with
  | some issuer => ask_responders lib x509 issuer ocsp_list {}
  | none => {}

/-! ## The law -/

/-- What a responder that is asked answers. Without an issuer none is asked. -/
def answer_of (issuer : Option X509) (r : responder) : Option VerifyStatus :=
  issuer.bind fun issuer =>
    if contactable r then
      r.reply.bind fun answer =>
        if answer.responder_status = OCSP_RESPONSE_STATUS_SUCCESSFUL then
          some (ocsp_verify_response lib answer.now x509 issuer answer.resp)
        else none
    else none

/-- The responder says that the certificate is good, or that it is revoked. -/
def Definitive (issuer : Option X509) (r : responder) : Prop :=
  ∃ v, answer_of lib x509 issuer r = some v ∧ (v.revoked = 0 ∨ v.revoked = 1)

/-- The first definitive answer is the result, and no responder behind it is asked. Without any,
the result is -1. -/
structure FirstAnswer (issuer : Option X509) (ocsp_list : List responder) : Prop where
  first : ∀ before r behind, ocsp_list = before ++ r :: behind →
    (∀ r' ∈ before, ¬ Definitive lib x509 issuer r') → Definitive lib x509 issuer r →
      answer_of lib x509 issuer r = some (ocsp_check_cert lib x509 issuer ocsp_list).ret ∧
        (ocsp_check_cert lib x509 issuer ocsp_list).contacted =
          (before ++ [r]).filter contactable
  none : (∀ r ∈ ocsp_list, ¬ Definitive lib x509 issuer r) →
    (ocsp_check_cert lib x509 issuer ocsp_list).ret.revoked = -1

/-- Behind a definitive answer there is nobody to be asked. -/
def Alone (issuer : Option X509) (ocsp_list : List responder) : Prop :=
  ocsp_list.Pairwise fun r r' => Definitive lib x509 issuer r → contactable r' = false

end

section
variable {lib : openssl_ocsp} {x509 issuer : X509} {ocsp_list : List responder}

/-! ## Verdicts -/

theorem single_vote_range {now : Int} {s : OCSP_SINGLERESP} {v : Int}
    (h : single_vote now s = some v) : v = 0 ∨ v = 1 := by
  unfold single_vote status_vote at h
  grind

theorem status_vote_range {s : OCSP_SINGLERESP} {v : Int} (h : status_vote s = some v) :
    v = 0 ∨ v = 1 := by
  unfold status_vote at h
  grind

theorem latest_range {pick : OCSP_SINGLERESP → Option Int}
    (hpick : ∀ s v, pick s = some v → v = 0 ∨ v = 1) (l : List OCSP_SINGLERESP) :
    latest_of pick (-1) l = -1 ∨ latest_of pick (-1) l = 0 ∨ latest_of pick (-1) l = 1 := by
  rcases latest_cases pick (-1) l with ⟨hd, -⟩ | ⟨s, -, hs⟩
  · exact Or.inl hd
  · exact Or.inr (hpick s _ hs)

/-- A response is judged to be -1, 0 or 1. -/
theorem verify_response_range (now : Int) (resp : OCSP_RESPONSE) :
    (ocsp_verify_response lib now x509 issuer resp).revoked = -1 ∨
      (ocsp_verify_response lib now x509 issuer resp).revoked = 0 ∨
      (ocsp_verify_response lib now x509 issuer resp).revoked = 1 := by
  obtain ⟨basic⟩ := resp
  cases basic with
  | none => exact Or.inl rfl
  | some br =>
    cases hvariant : lib.USE_OPENSSL11 with
    | false =>
      simp only [ocsp_verify_response, hvariant, Bool.false_eq_true, if_false, old_loop_eq]
      exact latest_range (fun _ _ => status_vote_range) _
    | true =>
      by_cases hverified : 0 < br.verify issuer
      · rw [verify_response_eq hvariant hverified]
        exact latest_range (fun _ _ => single_vote_range) _
      · have hle : br.verify issuer ≤ 0 := by omega
        simp [ocsp_verify_response, hvariant, hle]

/-! ## The loop -/

theorem ask_responder_eq (l : responder_loop) (r : responder) :
    ask_responder lib x509 issuer l r =
      { l with
        ret := (answer_of lib x509 (some issuer) r).getD l.ret
        contacted := l.contacted ++ [r].filter contactable } := by
  unfold ask_responder answer_of
  simp only [Option.bind_some]
  by_cases hc : contactable r = true
  · cases r.reply with
    | none => simp [hc]
    | some answer =>
      by_cases hok : answer.responder_status = OCSP_RESPONSE_STATUS_SUCCESSFUL
      · simp [hc, hok]
      · simp [hc, hok]
  · simp [hc]

/-- Nothing in the loop changes `is_revoked`, so that each responder is asked, and the latest
answer stays. -/
theorem ask_responders_eq (l : responder_loop) (h : l.is_revoked = -1) :
    ask_responders lib x509 issuer ocsp_list l =
      { is_revoked := -1
        ret := latest_of (answer_of lib x509 (some issuer)) l.ret ocsp_list
        contacted := l.contacted ++ ocsp_list.filter contactable } := by
  induction ocsp_list generalizing l with
  | nil =>
    obtain ⟨is_revoked, ret, contacted⟩ := l
    simp only at h
    simp [ask_responders, latest_of, h]
  | cons r rest ih =>
    rw [ask_responders, if_pos h, ask_responder_eq, ih]
    · simp [latest_of, ← List.filter_append]
    · exact h

theorem check_cert_eq : ocsp_check_cert lib x509 (some issuer) ocsp_list =
    { is_revoked := -1
      ret := latest_of (answer_of lib x509 (some issuer)) { revoked := -1, ttl := 60 } ocsp_list
      contacted := ocsp_list.filter contactable } :=
  ask_responders_eq {} rfl

theorem not_definitive_none (r : responder) : ¬ Definitive lib x509 none r := by
  rintro ⟨v, hv, -⟩
  cases hv

/-- An answer that is not definitive is -1. -/
theorem answer_unknown {r : responder} {v : VerifyStatus}
    (hr : ¬ Definitive lib x509 (some issuer) r)
    (hv : answer_of lib x509 (some issuer) r = some v) : v.revoked = -1 := by
  have hrange : v.revoked = -1 ∨ v.revoked = 0 ∨ v.revoked = 1 := by
    unfold answer_of at hv
    rw [Option.bind_some] at hv
    split at hv
    · obtain ⟨answer, -, hv⟩ := Option.bind_eq_some_iff.mp hv
      split at hv
      · cases hv
        exact verify_response_range answer.now answer.resp
      · cases hv
    · cases hv
  exact hrange.resolve_right fun hdef => hr ⟨v, hv, hdef⟩

/-! ## Lists of responders -/

/-- The first definitive answer of a list, if there is any. -/
theorem first_definitive (lib : openssl_ocsp) (x509 : X509) (issuer : Option X509)
    (ocsp_list : List responder) :
    (∀ r ∈ ocsp_list, ¬ Definitive lib x509 issuer r) ∨
      ∃ before r behind, ocsp_list = before ++ r :: behind ∧
        (∀ r' ∈ before, ¬ Definitive lib x509 issuer r') ∧ Definitive lib x509 issuer r := by
  induction ocsp_list with
  | nil => exact Or.inl fun _ hr => absurd hr List.not_mem_nil
  | cons first rest ih =>
    by_cases hfirst : Definitive lib x509 issuer first
    · exact Or.inr ⟨[], first, rest, rfl, fun _ hr => absurd hr List.not_mem_nil, hfirst⟩
    · rcases ih with hnone | ⟨before, r, behind, rfl, hbefore, hr⟩
      · exact Or.inl (List.forall_mem_cons.mpr ⟨hfirst, hnone⟩)
      · exact Or.inr ⟨first :: before, r, behind, rfl,
          List.forall_mem_cons.mpr ⟨hfirst, hbefore⟩, hr⟩

/-- Where the first definitive answer is known, only what stands behind it counts. -/
theorem alone_iff_behind {before behind : List responder} {r : responder}
    (hbefore : ∀ r' ∈ before, ¬ Definitive lib x509 (some issuer) r')
    (hr : Definitive lib x509 (some issuer) r) :
    Alone lib x509 (some issuer) (before ++ r :: behind) ↔
      ∀ r' ∈ behind, contactable r' = false := by
  unfold Alone
  rw [List.pairwise_append, List.pairwise_cons]
  constructor
  · intro h r' hr'
    exact h.2.1.1 r' hr' hr
  · intro h
    refine ⟨?_, ⟨fun r' hr' _ => h r' hr', ?_⟩, fun r' hr' _ _ hdef => absurd hdef (hbefore r' hr')⟩
    · exact List.Pairwise.imp_of_mem (fun hr' _ _ hdef => absurd hdef (hbefore _ hr'))
        (List.pairwise_of_forall fun _ _ => trivial)
    · exact List.Pairwise.imp_of_mem (fun _ hr' _ _ => h _ hr')
        (List.pairwise_of_forall fun _ _ => trivial)

theorem check_cert_first {before behind : List responder} {r : responder} {v : VerifyStatus}
    (hv : answer_of lib x509 (some issuer) r = some v)
    (hbehind : ∀ r' ∈ behind, contactable r' = false) :
    ocsp_check_cert lib x509 (some issuer) (before ++ r :: behind) =
      { is_revoked := -1, ret := v, contacted := (before ++ [r]).filter contactable } := by
  have hsilent : ∀ r' ∈ behind, answer_of lib x509 (some issuer) r' = none := by
    intro r' hr'
    simp [answer_of, hbehind r' hr']
  have hsplit : before ++ r :: behind = (before ++ [r]) ++ behind := by simp
  have hnobody : behind.filter contactable = [] := by
    rw [List.filter_eq_nil_iff]
    intro r' hr'
    simp [hbehind r' hr']
  rw [check_cert_eq, hsplit, latest_append, latest_of_none hsilent, latest_concat before hv,
    List.filter_append, hnobody, List.append_nil]

theorem check_cert_unknown
    (hnone : ∀ r ∈ ocsp_list, ¬ Definitive lib x509 (some issuer) r) :
    (ocsp_check_cert lib x509 (some issuer) ocsp_list).ret.revoked = -1 := by
  rw [check_cert_eq]
  rcases latest_cases (answer_of lib x509 (some issuer)) { revoked := -1, ttl := 60 } ocsp_list
    with ⟨hd, -⟩ | ⟨r, hr, hv⟩
  · simp only [hd]
  · exact answer_unknown (hnone r hr) hv

end

/-- The first definitive answer wins when, and only when, nobody is left to be asked behind a
definitive answer. -/
theorem first_answers_win (lib : openssl_ocsp) (x509 : X509) (issuer : Option X509)
    (ocsp_list : List responder) :
    FirstAnswer lib x509 issuer ocsp_list ↔ Alone lib x509 issuer ocsp_list := by
  cases issuer with
  | none =>
    have hnone : ∀ r, ¬ Definitive lib x509 none r := not_definitive_none
    refine iff_of_true ⟨fun _ r _ _ _ hr => absurd hr (hnone r), fun _ => rfl⟩ ?_
    exact List.pairwise_of_forall fun r _ hr => absurd hr (hnone r)
  | some issuer =>
    constructor
    · intro h
      rcases first_definitive lib x509 (some issuer) ocsp_list with
        hnone | ⟨before, r, behind, rfl, hbefore, hr⟩
      · exact List.Pairwise.imp_of_mem (fun hr _ _ hdef => absurd hdef (hnone _ hr))
          (List.pairwise_of_forall fun _ _ => trivial)
      · obtain ⟨-, hcontacted⟩ := h.first before r behind rfl hbefore hr
        have hsplit : before ++ r :: behind = (before ++ [r]) ++ behind := by simp
        rw [check_cert_eq, hsplit, List.filter_append, List.append_right_eq_self,
          List.filter_eq_nil_iff] at hcontacted
        exact (alone_iff_behind hbefore hr).mpr fun r' hr' =>
          Bool.eq_false_iff.mpr (hcontacted r' hr')
    · intro h
      refine ⟨fun before r behind hsplit hbefore hr => ?_, check_cert_unknown⟩
      subst hsplit
      have hbehind := (alone_iff_behind hbefore hr).mp h
      obtain ⟨v, hv, -⟩ := hr
      rw [check_cert_first hv hbehind]
      exact ⟨hv, rfl⟩

/-- A responder that answers at time 1000 for the certificate with the given status. -/
def answering (status : Int) : responder where
  use_ssl := some false
  reply := some {
    responder_status := OCSP_RESPONSE_STATUS_SUCCESSFUL
    resp := { basic := some {
      responses := [⟨⟨[9], [1], [2], { data := [7] }⟩, status, some (some 2000)⟩]
      verify := fun _ => 1 } }
    now := 1000 }

/-- The first responder says revoked, and the second one good. -/
theorem a_later_responder_overrules :
    ¬ ∀ (lib : openssl_ocsp) (x509 : X509) (issuer : Option X509) (ocsp_list : List responder),
      FirstAnswer lib x509 issuer ocsp_list := by
  intro hall
  have h := hall openssl_id revoked_cert (some issuer_cert)
    [answering V_OCSP_CERTSTATUS_REVOKED, answering V_OCSP_CERTSTATUS_GOOD]
  have hrevoked : answer_of openssl_id revoked_cert (some issuer_cert)
      (answering V_OCSP_CERTSTATUS_REVOKED) = some { revoked := 1, ttl := 1000 } := by decide
  obtain ⟨hret, -⟩ := h.first [] _ _ rfl (fun _ hr => absurd hr List.not_mem_nil)
    ⟨_, hrevoked, Or.inr rfl⟩
  have hgood : (ocsp_check_cert openssl_id revoked_cert (some issuer_cert)
      [answering V_OCSP_CERTSTATUS_REVOKED, answering V_OCSP_CERTSTATUS_GOOD]).ret.revoked = 0 := by
    decide
  rw [hrevoked, Option.some.injEq] at hret
  rw [← hret] at hgood
  cases hgood

end socle.ocsp
