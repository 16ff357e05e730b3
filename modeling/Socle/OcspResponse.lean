-- The evaluation of an OCSP response (sslcertval.cpp: ocsp_verify_response).
-- Its loop begins to count at the first single response for the certificate,
-- and then counts every one, whichever certificate it is for.
import Socle.Lib.Latest
import Socle.StatusCheck

namespace socle.ocsp

open crl status lib.latest

/-! ## Responses -/

structure OCSP_CERTID where
  hashAlgorithm : List UInt8
  issuerNameHash : List UInt8
  issuerKeyHash : List UInt8
  serialNumber : ASN1_INTEGER
deriving DecidableEq, Repr

def V_OCSP_CERTSTATUS_GOOD : Int := 0
def V_OCSP_CERTSTATUS_REVOKED : Int := 1
def V_OCSP_CERTSTATUS_UNKNOWN : Int := 2

/-- A time in seconds, or a text that is no time. -/
abbrev ASN1_GENERALIZEDTIME := Option Int

/-- A single response, which need not have a `nextUpdate`. -/
structure OCSP_SINGLERESP where
  id : OCSP_CERTID
  status : Int
  nextupd : Option ASN1_GENERALIZEDTIME := none
deriving DecidableEq, Repr

/-- A basic response. `verify` is what `OCSP_basic_verify` gives for it, with a signer. -/
structure OCSP_BASICRESP where
  responses : List OCSP_SINGLERESP
  verify : X509 → Int

/-- What `OCSP_response_get1_basic` finds in it. -/
structure OCSP_RESPONSE where
  basic : Option OCSP_BASICRESP

/-- The build, and the certificate ID that OpenSSL makes with a digest. -/
structure openssl_ocsp where
  USE_OPENSSL11 : Bool
  OCSP_cert_to_id : List UInt8 → X509 → X509 → OCSP_CERTID

/-- `ASN1_TIME_diff` from now: days and seconds, both negative for a time in the past. No time
stands for now. -/
def ASN1_TIME_diff (now : Int) (upto : Option ASN1_GENERALIZEDTIME) : Option (Int × Int) :=
  match upto with
  | none => some (0, 0)
  | some none => none
  | some (some t) => some ((t - now).tdiv 86400, (t - now).tmod 86400)

/-- An `int` that overflows wraps. -/
def int32 (n : Int) : Int :=
  n.bmod 4294967296

/-! ## The function -/

/-- What the loop carries. -/
structure resp_loop where
  matching_ids : Bool := false
  is_revoked : Int := -1
  ttl : Int := 60

section
variable (lib : openssl_ocsp) (now : Int) (cert issuer : X509)

/-- The part of a turn behind the test of `matching_ids`. -/
def count_single (single : OCSP_SINGLERESP) (l : resp_loop) : resp_loop :=
  let l :=
    if single.status = V_OCSP_CERTSTATUS_REVOKED then { l with is_revoked := 1 }
    else if single.status = V_OCSP_CERTSTATUS_GOOD then { l with is_revoked := 0 }
    else l
  match ASN1_TIME_diff now single.nextupd with
  | some (days, secs) => { l with ttl := int32 (days * 24 * 60 * 60 + secs) }
  | none => { l with is_revoked := 1 }

/-- `OCSP_id_cmp(id, my_id) == 0`. -/
def same_id (single : OCSP_SINGLERESP) : Bool :=
  single.id = lib.OCSP_cert_to_id single.id.hashAlgorithm cert issuer

/-- One turn of the loop. -/
def single_turn (l : resp_loop) (single : OCSP_SINGLERESP) : resp_loop :=
  let l := if same_id lib cert issuer single then { l with matching_ids := true } else l
  if l.matching_ids then count_single now single l else l

/-- One turn of the loop without `USE_OPENSSL11`. -/
def old_turn (is_revoked : Int) (single : OCSP_SINGLERESP) : Int :=
  if single.status = V_OCSP_CERTSTATUS_REVOKED then 1
  else if single.status = V_OCSP_CERTSTATUS_GOOD then 0
  else is_revoked

def ocsp_verify_response (resp : OCSP_RESPONSE) : VerifyStatus :=
  match resp.basic with
  | none => { revoked := -1, ttl := 60 }
  | some br =>
    if lib.USE_OPENSSL11 then
      if br.verify issuer ≤ 0 then { revoked := -1, ttl := 60 }
      else
        let l := br.responses.foldl (single_turn lib now cert issuer) {}
        { revoked := if l.matching_ids then l.is_revoked else -1, ttl := l.ttl }
    else { revoked := br.responses.foldl old_turn (-1), ttl := 60 }

/-! ## What the answer is to be -/

/-- `nextUpdate` is in the past. -/
def past (single : OCSP_SINGLERESP) : Bool :=
  match single.nextupd with
  | some (some t) => t < now
  | _ => false

/-- The time to live that a single response gives. -/
def ttl_of (single : OCSP_SINGLERESP) : Option Int :=
  (ASN1_TIME_diff now single.nextupd).map fun d => int32 (d.1 * 24 * 60 * 60 + d.2)

/-- The verdict of the single responses for the certificate. -/
def right_verdict (responses : List OCSP_SINGLERESP) : Int :=
  if responses.any fun s => same_id lib cert issuer s &&
      (s.status = V_OCSP_CERTSTATUS_REVOKED || past now s) then 1
  else if responses.any fun s => same_id lib cert issuer s &&
      s.status = V_OCSP_CERTSTATUS_GOOD then 0
  else -1

/-- The time to live is that of a single response for the certificate, or the default when none
of them has one. -/
def RightTtl (responses : List OCSP_SINGLERESP) (ttl : Int) : Prop :=
  (∃ s ∈ responses, same_id lib cert issuer s = true ∧ ttl_of now s = some ttl) ∨
    (ttl = 60 ∧ ∀ s ∈ responses, same_id lib cert issuer s = true → ttl_of now s = none)

/-- A result is right for single responses, whatever their order. -/
structure Right (responses : List OCSP_SINGLERESP) (r : VerifyStatus) : Prop where
  verdict : r.revoked = right_verdict lib now cert issuer responses
  ttl : RightTtl lib now cert issuer responses r.ttl

/-! ## The votes of the single responses -/

/-- The verdict that the loop without `USE_OPENSSL11` takes from a single response. -/
def status_vote (single : OCSP_SINGLERESP) : Option Int :=
  if single.status = V_OCSP_CERTSTATUS_REVOKED then some 1
  else if single.status = V_OCSP_CERTSTATUS_GOOD then some 0
  else none

/-- The verdict that the loop takes from a single response. A time that cannot be read counts as
a revocation. -/
def single_vote (single : OCSP_SINGLERESP) : Option Int :=
  match ASN1_TIME_diff now single.nextupd with
  | some _ => status_vote single
  | none => some 1

/-- Each vote is for the right verdict, those of other certificates too. One of the certificate
has a vote, unless the right verdict is that there is none. Each time to live is a right one. -/
structure Agree (responses : List OCSP_SINGLERESP) : Prop where
  votes : ∀ s ∈ responses, ∀ v, single_vote now s = some v →
    v = right_verdict lib now cert issuer responses
  voted : -1 = right_verdict lib now cert issuer responses ∨
    ∃ s ∈ responses, same_id lib cert issuer s = true ∧ (single_vote now s).isSome
  ttl : ∀ s ∈ responses, ∀ t, ttl_of now s = some t → RightTtl lib now cert issuer responses t

/-- The same without `USE_OPENSSL11`, where times do not count. -/
structure OldAgree (responses : List OCSP_SINGLERESP) : Prop where
  votes : ∀ s ∈ responses, ∀ v, status_vote s = some v →
    v = right_verdict lib now cert issuer responses
  voted : -1 = right_verdict lib now cert issuer responses ∨
    ∃ s ∈ responses, (status_vote s).isSome
  ttl : RightTtl lib now cert issuer responses 60

end

section
variable {lib : openssl_ocsp} {now : Int} {cert issuer : X509}

/-! ## The loop -/

theorem count_single_eq (single : OCSP_SINGLERESP) (l : resp_loop) :
    count_single now single l =
      { l with
        is_revoked := (single_vote now single).getD l.is_revoked
        ttl := (ttl_of now single).getD l.ttl } := by
  unfold count_single single_vote status_vote ttl_of
  by_cases hrevoked : single.status = V_OCSP_CERTSTATUS_REVOKED
  · cases ASN1_TIME_diff now single.nextupd <;> simp [hrevoked]
  · by_cases hgood : single.status = V_OCSP_CERTSTATUS_GOOD
    · have hne : V_OCSP_CERTSTATUS_GOOD ≠ V_OCSP_CERTSTATUS_REVOKED := by decide
      cases ASN1_TIME_diff now single.nextupd <;> simp [hgood, hne]
    · cases ASN1_TIME_diff now single.nextupd <;> simp [hgood, hrevoked]

/-- Once an ID matched, each single response counts. -/
theorem loop_open (responses : List OCSP_SINGLERESP) {l : resp_loop}
    (hl : l.matching_ids = true) :
    responses.foldl (single_turn lib now cert issuer) l =
      { matching_ids := true
        is_revoked := latest_of (single_vote now) l.is_revoked responses
        ttl := latest_of (ttl_of now) l.ttl responses } := by
  induction responses generalizing l with
  | nil =>
    cases l
    simp only at hl
    subst hl
    rfl
  | cons s responses ih =>
    have hturn : single_turn lib now cert issuer l s =
        { matching_ids := true
          is_revoked := (single_vote now s).getD l.is_revoked
          ttl := (ttl_of now s).getD l.ttl } := by
      unfold single_turn
      cases same_id lib cert issuer s <;> simp [hl, count_single_eq]
    rw [List.foldl_cons, hturn, ih rfl]
    rfl

/-- Before that, none does. -/
theorem loop_closed (responses : List OCSP_SINGLERESP) {l : resp_loop}
    (hl : l.matching_ids = false) :
    responses.foldl (single_turn lib now cert issuer) l =
      if ∃ s ∈ responses, same_id lib cert issuer s = true then
        { matching_ids := true
          is_revoked := latest_of (single_vote now) l.is_revoked
            (opened (same_id lib cert issuer) responses)
          ttl := latest_of (ttl_of now) l.ttl (opened (same_id lib cert issuer) responses) }
      else l := by
  induction responses generalizing l with
  | nil => simp
  | cons s responses ih =>
    rw [List.foldl_cons]
    cases hs : same_id lib cert issuer s with
    | true =>
      have hturn : single_turn lib now cert issuer l s =
          single_turn lib now cert issuer { l with matching_ids := true } s := by
        simp [single_turn, hs]
      rw [hturn, ← List.foldl_cons, loop_open _ rfl, opened_cons_of_pos _ hs, if_pos ⟨s,
        List.mem_cons_self, hs⟩]
    | false =>
      have hturn : single_turn lib now cert issuer l s = l := by simp [single_turn, hs, hl]
      rw [hturn, ih hl, opened_cons_of_neg _ hs]
      simp [hs]

/-- What the function makes of a response that is verified. -/
theorem verify_response_eq (hvariant : lib.USE_OPENSSL11 = true) {br : OCSP_BASICRESP}
    (hverified : 0 < br.verify issuer) :
    ocsp_verify_response lib now cert issuer { basic := some br } =
      { revoked := latest_of (single_vote now) (-1)
          (opened (same_id lib cert issuer) br.responses)
        ttl := latest_of (ttl_of now) 60 (opened (same_id lib cert issuer) br.responses) } := by
  have hnot : ¬ br.verify issuer ≤ 0 := by omega
  simp only [ocsp_verify_response, hvariant, if_true, if_neg hnot]
  rw [loop_closed br.responses (l := {}) rfl]
  by_cases hsome : ∃ s ∈ br.responses, same_id lib cert issuer s = true
  · rw [if_pos hsome]
    rfl
  · have hnone : opened (same_id lib cert issuer) br.responses = [] :=
      opened_eq_nil fun s hs => by
        rw [Bool.eq_false_iff]
        exact fun h => hsome ⟨s, hs, h⟩
    rw [if_neg hsome, hnone]
    rfl

theorem old_loop_eq (responses : List OCSP_SINGLERESP) (is_revoked : Int) :
    responses.foldl old_turn is_revoked = latest_of status_vote is_revoked responses := by
  have hturn : old_turn = fun acc s => (status_vote s).getD acc := by
    funext acc s
    unfold old_turn status_vote
    by_cases hrevoked : s.status = V_OCSP_CERTSTATUS_REVOKED
    · simp [hrevoked]
    · by_cases hgood : s.status = V_OCSP_CERTSTATUS_GOOD
      · have hne : V_OCSP_CERTSTATUS_GOOD ≠ V_OCSP_CERTSTATUS_REVOKED := by decide
        simp [hgood, hne]
      · simp [hgood, hrevoked]
  rw [hturn, latest_of]

/-! ## Every order -/

/-- The function is right for these single responses in each order. -/
def RightInEveryOrder (lib : openssl_ocsp) (now : Int) (cert issuer : X509)
    (br : OCSP_BASICRESP) : Prop :=
  ∀ responses, responses.Perm br.responses → Right lib now cert issuer br.responses
    (ocsp_verify_response lib now cert issuer { basic := some { br with responses := responses } })

/-- No single response is for the certificate. -/
def NoneMatches (lib : openssl_ocsp) (cert issuer : X509) (responses : List OCSP_SINGLERESP) :
    Prop :=
  ∀ s ∈ responses, same_id lib cert issuer s = false

theorem right_of_none_matches {responses : List OCSP_SINGLERESP}
    (h : NoneMatches lib cert issuer responses) :
    Right lib now cert issuer responses { revoked := -1, ttl := 60 } := by
  have hany : ∀ p : OCSP_SINGLERESP → Bool,
      (responses.any fun s => same_id lib cert issuer s && p s) = false := by
    intro p
    rw [List.any_eq_false]
    intro s hs
    simp [h s hs]
  refine ⟨?_, Or.inr ⟨rfl, fun s hs htrue => ?_⟩⟩
  · simp [right_verdict, hany]
  · rw [h s hs] at htrue
    cases htrue

/-- The default is right, or a single response for the certificate has a time to live. -/
theorem default_ttl (responses : List OCSP_SINGLERESP) :
    RightTtl lib now cert issuer responses 60 ∨
      ∃ s ∈ responses, same_id lib cert issuer s = true ∧ (ttl_of now s).isSome := by
  by_cases h : ∃ s ∈ responses, same_id lib cert issuer s = true ∧ (ttl_of now s).isSome
  · exact Or.inr h
  · refine Or.inl (Or.inr ⟨rfl, fun s hs hsame => ?_⟩)
    rw [← Option.not_isSome_iff_eq_none]
    exact fun hsome => h ⟨s, hs, hsame, hsome⟩

/-- With `USE_OPENSSL11`. -/
theorem right_in_every_order_iff (hvariant : lib.USE_OPENSSL11 = true) {br : OCSP_BASICRESP}
    (hverified : 0 < br.verify issuer) :
    RightInEveryOrder lib now cert issuer br ↔
      NoneMatches lib cert issuer br.responses ∨ Agree lib now cert issuer br.responses := by
  have heq : ∀ responses, ocsp_verify_response lib now cert issuer
      { basic := some { br with responses := responses } } =
      { revoked := latest_of (single_vote now) (-1) (opened (same_id lib cert issuer) responses)
        ttl := latest_of (ttl_of now) 60 (opened (same_id lib cert issuer) responses) } :=
    fun _ => verify_response_eq hvariant hverified
  by_cases hsome : ∃ s ∈ br.responses, same_id lib cert issuer s = true
  · have hnot : ¬ NoneMatches lib cert issuer br.responses := by
      intro hnone
      rcases hsome with ⟨s, hs, hsame⟩
      rw [hnone s hs] at hsame
      cases hsame
    have hvotes := every_order (single_vote now) (-1)
      (fun v => v = right_verdict lib now cert issuer br.responses) hsome
    have httl := every_order (ttl_of now) 60 (RightTtl lib now cert issuer br.responses) hsome
    constructor
    · intro h
      have hv := hvotes.mp fun responses hperm => by
        have hright := (h responses hperm).verdict
        rwa [heq] at hright
      have ht := httl.mp fun responses hperm => by
        have hright := (h responses hperm).ttl
        rwa [heq] at hright
      exact Or.inr ⟨hv.1, hv.2, ht.1⟩
    · rintro (hnone | hagree)
      · exact absurd hnone hnot
      · intro responses hperm
        rw [heq]
        exact ⟨hvotes.mpr ⟨hagree.votes, hagree.voted⟩ responses hperm,
          httl.mpr ⟨hagree.ttl, default_ttl br.responses⟩ responses hperm⟩
  · have hnone : NoneMatches lib cert issuer br.responses := fun s hs =>
      Bool.eq_false_iff.mpr fun h => hsome ⟨s, hs, h⟩
    refine ⟨fun _ => Or.inl hnone, fun _ responses hperm => ?_⟩
    have hopened : opened (same_id lib cert issuer) responses = [] :=
      opened_eq_nil fun s hs => hnone s (hperm.mem_iff.mp hs)
    rw [heq, hopened]
    exact right_of_none_matches hnone

/-- Without `USE_OPENSSL11`. -/
theorem old_right_in_every_order_iff (hvariant : lib.USE_OPENSSL11 = false)
    (br : OCSP_BASICRESP) :
    RightInEveryOrder lib now cert issuer br ↔ OldAgree lib now cert issuer br.responses := by
  have heq : ∀ responses, ocsp_verify_response lib now cert issuer
      { basic := some { br with responses := responses } } =
      { revoked := latest_of status_vote (-1) (opened (fun _ => true) responses), ttl := 60 } := by
    intro responses
    have hopened : opened (fun _ => true) responses = responses := by simp [opened]
    simp [ocsp_verify_response, hvariant, old_loop_eq, hopened]
  have hvotes : (∀ responses, responses.Perm br.responses →
      latest_of status_vote (-1) (opened (fun _ => true) responses) =
        right_verdict lib now cert issuer br.responses) ↔
      (∀ s ∈ br.responses, ∀ v, status_vote s = some v →
        v = right_verdict lib now cert issuer br.responses) ∧
      (-1 = right_verdict lib now cert issuer br.responses ∨
        ∃ s ∈ br.responses, (status_vote s).isSome) := by
    by_cases hnil : br.responses = []
    · simp [hnil, opened, latest_of, right_verdict]
    · rcases List.exists_mem_of_ne_nil _ hnil with ⟨s, hs⟩
      have hopen : ∃ s ∈ br.responses, (fun _ => true : OCSP_SINGLERESP → Bool) s = true :=
        ⟨s, hs, rfl⟩
      simpa using every_order status_vote (-1)
        (fun v => v = right_verdict lib now cert issuer br.responses) hopen
  constructor
  · intro h
    have hv := hvotes.mp fun responses hperm => by
      have hright := (h responses hperm).verdict
      rwa [heq] at hright
    have ht := (h br.responses (List.Perm.refl _)).ttl
    rw [heq] at ht
    exact ⟨hv.1, hv.2, ht⟩
  · intro h responses hperm
    rw [heq]
    exact ⟨hvotes.mpr ⟨h.votes, h.voted⟩ responses hperm, h.ttl⟩

end

/-- The verdict and the time to live are right in every order when, and only when, no single
response is for the certificate, or all of them agree. -/
theorem responses_are_judged_right (lib : openssl_ocsp) (now : Int) (cert issuer : X509)
    (br : OCSP_BASICRESP) (hverified : 0 < br.verify issuer) :
    RightInEveryOrder lib now cert issuer br ↔
      if lib.USE_OPENSSL11 then
        NoneMatches lib cert issuer br.responses ∨ Agree lib now cert issuer br.responses
      else OldAgree lib now cert issuer br.responses := by
  cases hvariant : lib.USE_OPENSSL11 with
  | true => exact right_in_every_order_iff hvariant hverified
  | false => exact old_right_in_every_order_iff hvariant br

/-- OpenSSL 1.1, with the ID of certificate 7. -/
def openssl_id : openssl_ocsp where
  USE_OPENSSL11 := true
  OCSP_cert_to_id md cert _ := ⟨md, [1], [2], cert.serialNumber⟩

/-- A response that the certificate is good, until a time. -/
def good_until (time : Int) : OCSP_BASICRESP where
  responses := [⟨⟨[9], [1], [2], { data := [7] }⟩, V_OCSP_CERTSTATUS_GOOD, some (some time)⟩]
  verify _ := 1

/-- A response for two certificates. For number 7 it has two answers, with different digests. -/
def good_for_two : OCSP_BASICRESP where
  responses := [⟨⟨[9], [1], [2], { data := [8] }⟩, V_OCSP_CERTSTATUS_GOOD, some (some 2000)⟩,
    ⟨⟨[9], [1], [2], { data := [7] }⟩, V_OCSP_CERTSTATUS_GOOD, some (some 2000)⟩,
    ⟨⟨[10], [1], [2], { data := [7] }⟩, V_OCSP_CERTSTATUS_UNKNOWN, some (some 3000)⟩]
  verify _ := 1

theorem responses_are_judged_right_in_time :
    RightInEveryOrder openssl_id 1000 revoked_cert issuer_cert good_for_two := by
  have hagree : Agree openssl_id 1000 revoked_cert issuer_cert good_for_two.responses := by
    refine ⟨by decide, Or.inr (by decide), fun s hs t ht => ?_⟩
    simp only [good_for_two, List.mem_cons, List.not_mem_nil, or_false] at hs
    obtain rfl | rfl | rfl := hs
    · -- the other certificate's time is that of the second answer
      exact Or.inl ⟨_, List.mem_cons_of_mem _ List.mem_cons_self, by decide, ht⟩
    · exact Or.inl ⟨_, List.mem_cons_of_mem _ List.mem_cons_self, by decide, ht⟩
    · exact Or.inl ⟨_, List.mem_cons_of_mem _ (List.mem_cons_of_mem _ List.mem_cons_self),
        by decide, ht⟩
  exact (responses_are_judged_right openssl_id 1000 revoked_cert issuer_cert good_for_two
    (by decide)).mpr (Or.inr hagree)

/-- A response whose time is over is taken for good. -/
theorem an_old_response_is_good :
    ¬ ∀ (lib : openssl_ocsp) (now : Int) (cert issuer : X509) (br : OCSP_BASICRESP),
      0 < br.verify issuer → RightInEveryOrder lib now cert issuer br := by
  intro hall
  have h := hall openssl_id 1000 revoked_cert issuer_cert (good_until 10) (by decide)
  exact absurd (h (good_until 10).responses (List.Perm.refl _)).verdict (by decide)

end socle.ocsp
