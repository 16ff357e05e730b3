-- The revocation check with caches that earlier checks filled, against the
-- check with empty caches (sslcom.tpp: certificate_status_ocsp_check). A CRL
-- from the cache is not looked at, and the CRL before it stays in hand.
import Mathlib.Data.List.TakeWhile
import Socle.Lib.Run
import Socle.StatusCheck

namespace socle.status

open lib.run verify crl

/-! ## Histories -/

/-- One call of `certificate_status_ocsp_check`. -/
structure call where
  now : Int
  cert : X509
  issuer : X509

/-- The caches after the calls, which began with empty ones and all came back. -/
def after (ssl : openssl) (net : servers) (verify_size crl_size : Nat) (history : List call) :
    Option SSLFactory :=
  exec (fun fac (c : call) =>
      let res := check_status ssl net c.now c.cert c.issuer fac
      res.revoked.map fun _ => res.fac)
    (.reset_caches verify_size crl_size) history

/-- The responders give the same answer for each call that asked for this certificate. -/
def SameAnswers (net : servers) (history : List call) (cert issuer : X509) : Prop :=
  ∀ c ∈ history, net.cn c.cert = net.cn cert →
    (net.ocsp_check_cert c.cert c.issuer).revoked = (net.ocsp_check_cert cert issuer).revoked

/-! ## The walk over the distribution points -/

/-- The CRL that a URL gives. -/
def crl_of (net : servers) (u : url) : Option X509_CRL :=
  (net.download (c_str u)).bind net.crl_from_bytes

section
variable (ssl : openssl) (net : servers) (now : Int) (cert issuer : X509)

/-- What the CRL of a URL says of the certificate. -/
def answer_of (u : url) : Option Int :=
  judge_crl ssl cert issuer (crl_of net u)

/-- The first answer of the CRLs of these URLs. The loop also ends at a CRL for which the call does
not come back. -/
def first_answer (us : List url) : Option Int :=
  match us.find? fun u => answer_of ssl net cert issuer u ≠ some (-1) with
  | some u => answer_of ssl net cert issuer u
  | none => some (-1)

/-- A URL as the loop comes to it. -/
structure turn where
  u : url
  cached : Bool

/-- The cache behind the turn of a URL. -/
def next_cache (u : url) (c : fifo_cache url (expiring crl_holder)) :
    fifo_cache url (expiring crl_holder) :=
  (fetch_crl net now u { crl_cache := c, revoked := some (-1), origin := .NONE }).crl_cache

/-- The URLs, each with whether it is in the cache when its turn comes. -/
def turns_of : List url → fifo_cache url (expiring crl_holder) → List turn
  | [], _ => []
  | u :: us, c => ⟨u, (c.get now u).1.isSome⟩ :: turns_of us (next_cache net now u c)

/-- The URLs that are not in the cache when their turn comes. -/
def fresh (ts : List turn) : List url :=
  (ts.filter fun t => !t.cached).map turn.u

/-- The turn downloads something. -/
def turn.downloads (t : turn) : Bool :=
  !t.cached && (net.download (c_str t.u)).isSome

/-- The CRL in hand after these turns. -/
def in_hand (crl_struct : Option X509_CRL) (ts : List turn) : Option X509_CRL :=
  ts.foldl (fun left t => if t.downloads net then crl_of net t.u else left) crl_struct

/-- The turn has the answer. -/
def turn.answers (t : turn) : Bool :=
  !t.cached && answer_of ssl net cert issuer t.u ≠ some (-1)

/-- Up to the turn with the answer, a URL that downloads nothing does not come behind the CRL of
another one. -/
def NothingLeft (crl_struct : Option X509_CRL) (ts : List turn) : Prop :=
  ∀ before t behind, ts = before ++ t :: behind →
    (∀ v ∈ before, v.answers ssl net cert issuer = false) → t.downloads net = false →
      ∀ crl, in_hand net crl_struct before = some crl → crl_of net t.u = some crl

end

section
variable {ssl : openssl} {net : servers} {now : Int} {cert issuer : X509}

theorem c_str_c_str (u : url) : c_str (c_str u) = c_str u :=
  List.takeWhile_idem

theorem crl_of_c_str (u : url) : crl_of net (c_str u) = crl_of net u := by
  unfold crl_of
  rw [c_str_c_str]

/-! ## One turn -/

variable (net now) in
/-- What a turn fetches: nothing from the cache or after a failed download, or else the CRL of
its URL. -/
theorem fetch_crl_cases (u : url) (l : crl_loop) :
    (fetch_crl net now u l).crl_cache = next_cache net now u l.crl_cache ∧
      (fetch_crl net now u l).judged = l.judged ∧
      (fetch_crl net now u l).crl_struct =
        if turn.downloads net ⟨u, (l.crl_cache.get now u).1.isSome⟩ then crl_of net u
        else l.crl_struct := by
  unfold next_cache fetch_crl turn.downloads crl_of
  cases hget : l.crl_cache.get now u with
  | mk entry c =>
    cases entry with
    | some e => simp
    | none =>
      unfold download_crl
      cases hd : net.download (c_str u) with
      | none => simp
      | some b =>
        cases hc : net.crl_from_bytes b with
        | none => simp [hc]
        | some crl => simp [hc]

variable (net now) in
/-- What is stored for a URL belongs to what the URL gives. -/
theorem next_cache_stores {P : url → Prop} {c : fifo_cache url (expiring crl_holder)}
    (hc : c.Stores fun k _ => P k) (u : url) (hu : (c.get now u).1 = none → P (c_str u)) :
    (next_cache net now u c).Stores fun k _ => P k := by
  have hget := fifo_cache.get_stores hc now u
  unfold next_cache fetch_crl
  cases hg : c.get now u with
  | mk entry c' =>
    rw [hg] at hget hu
    cases entry with
    | some e => exact hget
    | none =>
      unfold download_crl
      cases hd : net.download (c_str u) with
      | none => exact fifo_cache.set_stores hget (hu rfl)
      | some b =>
        cases hcrl : net.crl_from_bytes b with
        | none => simpa only [hcrl] using hget
        | some crl => simpa only [hcrl] using fifo_cache.set_stores hget (hu rfl)

/-- The CRL in hand behind a turn. -/
theorem check_crl_struct (u : url) (l : crl_loop) :
    (check_crl ssl net now cert issuer u l).crl_struct =
      in_hand net l.crl_struct [⟨u, (l.crl_cache.get now u).1.isSome⟩] :=
  (fetch_crl_cases net now u l).2.2

theorem check_crl_cache (u : url) (l : crl_loop) :
    (check_crl ssl net now cert issuer u l).crl_cache = next_cache net now u l.crl_cache :=
  (fetch_crl_cases net now u l).1

variable (net now) in
/-- The CRL in hand before a turn has no answer, so the turn has one when, and only when, it
downloads one. -/
theorem check_crl_revoked (u : url) {l : crl_loop}
    (hl : judge_crl ssl cert issuer l.crl_struct = some (-1)) :
    (check_crl ssl net now cert issuer u l).revoked =
      if turn.answers ssl net cert issuer ⟨u, (l.crl_cache.get now u).1.isSome⟩ then
        answer_of ssl net cert issuer u
      else some (-1) := by
  have hrevoked : (check_crl ssl net now cert issuer u l).revoked =
      judge_crl ssl cert issuer (check_crl ssl net now cert issuer u l).crl_struct := rfl
  rw [hrevoked, check_crl_struct]
  cases hcached : (l.crl_cache.get now u).1.isSome with
  | true => simpa [in_hand, turn.downloads, turn.answers] using hl
  | false =>
    cases hd : net.download (c_str u) with
    | none =>
      have hnone : crl_of net u = none := by simp [crl_of, hd]
      simpa [in_hand, turn.downloads, turn.answers, hd, answer_of, hnone, judge_crl] using hl
    | some b =>
      by_cases hno : judge_crl ssl cert issuer (crl_of net u) = some (-1)
      · simp [in_hand, turn.downloads, turn.answers, hd, answer_of, hno]
      · simp [in_hand, turn.downloads, turn.answers, hd, answer_of, hno]

/-- The CRL in hand behind a turn without an answer has none either. -/
theorem in_hand_judged {u : url} {l : crl_loop}
    (hno : (check_crl ssl net now cert issuer u l).revoked = some (-1)) :
    judge_crl ssl cert issuer (check_crl ssl net now cert issuer u l).crl_struct = some (-1) :=
  hno

/-! ## The verdict of the loop -/

theorem first_answer_cons (u : url) (us : List url) :
    first_answer ssl net cert issuer (u :: us) =
      if answer_of ssl net cert issuer u = some (-1) then first_answer ssl net cert issuer us
      else answer_of ssl net cert issuer u := by
  unfold first_answer
  by_cases h : answer_of ssl net cert issuer u = some (-1) <;> simp [h]

/-- A turn that has no answer does not count for the first answer. -/
theorem first_answer_turn (t : turn) (ts : List turn) :
    first_answer ssl net cert issuer (fresh (t :: ts)) =
      if t.answers ssl net cert issuer then answer_of ssl net cert issuer t.u
      else first_answer ssl net cert issuer (fresh ts) := by
  cases hcached : t.cached with
  | true => simp [fresh, turn.answers, hcached]
  | false =>
    have hcons : fresh (t :: ts) = t.u :: fresh ts := by simp [fresh, hcached]
    rw [hcons, first_answer_cons]
    by_cases h : answer_of ssl net cert issuer t.u = some (-1) <;> simp [turn.answers, hcached, h]

/-- The loop gives the first answer among the URLs that are not in the cache. -/
theorem check_crls_revoked (us : List url) {l : crl_loop}
    (hl : judge_crl ssl cert issuer l.crl_struct = some (-1)) :
    (check_crls ssl net now cert issuer us l).revoked =
      if us = [] then l.revoked
      else first_answer ssl net cert issuer (fresh (turns_of net now us l.crl_cache)) := by
  induction us generalizing l with
  | nil => rfl
  | cons u us ih =>
    have hturn := check_crl_revoked net now u hl
    unfold turns_of
    rw [check_crls_cons, if_neg (List.cons_ne_nil u us), first_answer_turn]
    by_cases hans : turn.answers ssl net cert issuer ⟨u, (l.crl_cache.get now u).1.isSome⟩ = true
    · rw [if_pos hans] at hturn ⊢
      have hsome : answer_of ssl net cert issuer u ≠ some (-1) := by
        simp only [turn.answers, Bool.and_eq_true, decide_eq_true_eq] at hans
        exact hans.2
      rw [hturn, if_neg hsome, hturn]
    · rw [if_neg hans] at hturn ⊢
      rw [if_pos hturn, ih (in_hand_judged hturn), check_crl_cache, hturn]
      by_cases hnil : us = []
      · subst hnil
        rfl
      · rw [if_neg hnil]

/-- A cache that only has URLs without an answer hides none. -/
theorem first_answer_fresh (us : List url) {c : fifo_cache url (expiring crl_holder)}
    (hc : c.Stores fun k _ => answer_of ssl net cert issuer k = some (-1)) :
    first_answer ssl net cert issuer (fresh (turns_of net now us c)) =
      first_answer ssl net cert issuer us := by
  induction us generalizing c with
  | nil => rfl
  | cons u us ih =>
    unfold turns_of
    rw [first_answer_turn, first_answer_cons]
    cases hget : (c.get now u).1 with
    | some e =>
      have hstored := fifo_cache.get_stored hc hget
      have hno : answer_of ssl net cert issuer u = some (-1) := hstored
      have hnext := ih (next_cache_stores net now hc u
        fun hnone => by rw [hget] at hnone; cases hnone)
      simp only [turn.answers, Option.isSome_some, Bool.not_true, Bool.false_and,
        Bool.false_eq_true, if_false, if_pos hno]
      exact hnext
    | none =>
      by_cases hno : answer_of ssl net cert issuer u = some (-1)
      · have hnext := ih (next_cache_stores net now hc u fun _ => by
          unfold answer_of at hno ⊢
          rw [crl_of_c_str]
          exact hno)
        simp only [turn.answers, Option.isSome_none, Bool.not_false, Bool.true_and, hno, ne_eq,
          not_true_eq_false, decide_false, Bool.false_eq_true, if_false, if_true]
        exact hnext
      · simp [turn.answers, hno]

/-! ## The CRLs that are looked at -/

theorem nothing_left_cons (crl_struct : Option X509_CRL) (t : turn) (ts : List turn) :
    NothingLeft ssl net cert issuer crl_struct (t :: ts) ↔
      (t.downloads net = false → ∀ crl, crl_struct = some crl → crl_of net t.u = some crl) ∧
        (t.answers ssl net cert issuer = false →
          NothingLeft ssl net cert issuer (in_hand net crl_struct [t]) ts) := by
  constructor
  · intro h
    refine ⟨h [] t ts rfl (fun v hv => by cases hv), fun ht before v behind hts hno => ?_⟩
    refine h (t :: before) v behind (by rw [hts]; rfl) fun w hw => ?_
    rcases List.mem_cons.mp hw with rfl | hw
    · exact ht
    · exact hno w hw
  · rintro ⟨hhead, htail⟩ before v behind hts hno
    cases before with
    | nil =>
      rw [List.nil_append, List.cons.injEq] at hts
      rcases hts with ⟨rfl, rfl⟩
      exact hhead
    | cons w before =>
      rw [List.cons_append, List.cons.injEq] at hts
      rcases hts with ⟨rfl, rfl⟩
      exact htail (hno _ List.mem_cons_self) before v behind rfl
        fun w hw => hno w (List.mem_cons_of_mem _ hw)

variable (ssl net now cert issuer) in
/-- A turn looks at the CRL of its URL, but when it downloads nothing. -/
theorem check_crl_judged (u : url) (l : crl_loop) :
    (∀ j ∈ (check_crl ssl net now cert issuer u l).judged, crl_of net j.1 = some j.2) ↔
      (∀ j ∈ l.judged, crl_of net j.1 = some j.2) ∧
        (turn.downloads net ⟨u, (l.crl_cache.get now u).1.isSome⟩ = false →
          ∀ crl, l.crl_struct = some crl → crl_of net u = some crl) := by
  rcases fetch_crl_cases net now u l with ⟨-, hjudged, hstruct⟩
  have hj : (check_crl ssl net now cert issuer u l).judged = l.judged ++
      ((if turn.downloads net ⟨u, (l.crl_cache.get now u).1.isSome⟩ then crl_of net u
        else l.crl_struct).map fun crl => (u, crl)).toList := by
    simp only [check_crl, hjudged, hstruct]
  rw [hj]
  simp only [List.mem_append, or_imp, forall_and]
  apply and_congr_right
  intro _
  cases hdown : turn.downloads net ⟨u, (l.crl_cache.get now u).1.isSome⟩ with
  | true => simp
  | false => simp

/-- Each CRL is that of its URL when, and only when, none is left in hand. -/
theorem check_crls_judged (us : List url) {l : crl_loop}
    (hl : judge_crl ssl cert issuer l.crl_struct = some (-1)) :
    (∀ j ∈ (check_crls ssl net now cert issuer us l).judged, crl_of net j.1 = some j.2) ↔
      (∀ j ∈ l.judged, crl_of net j.1 = some j.2) ∧
        NothingLeft ssl net cert issuer l.crl_struct (turns_of net now us l.crl_cache) := by
  induction us generalizing l with
  | nil =>
    refine ⟨fun h => ⟨h, fun before t behind hts => ?_⟩, fun h => h.1⟩
    simp [turns_of] at hts
  | cons u us ih =>
    have hturn := check_crl_revoked net now u hl
    unfold turns_of
    rw [check_crls_cons, nothing_left_cons, ← and_assoc,
      ← check_crl_judged ssl net now cert issuer]
    by_cases hans : turn.answers ssl net cert issuer ⟨u, (l.crl_cache.get now u).1.isSome⟩ = true
    · rw [if_pos hans] at hturn
      have hsome : answer_of ssl net cert issuer u ≠ some (-1) := by
        simp only [turn.answers, Bool.and_eq_true, decide_eq_true_eq] at hans
        exact hans.2
      rw [hturn, if_neg hsome]
      simp only [hans, Bool.true_eq_false, false_imp_iff, and_true]
    · rw [if_neg hans] at hturn
      have hans' : turn.answers ssl net cert issuer
          ⟨u, (l.crl_cache.get now u).1.isSome⟩ = false := by simpa using hans
      rw [if_pos hturn]
      simp only [hans', true_imp_iff]
      rw [ih (in_hand_judged hturn), check_crl_cache, check_crl_struct]

/-! ## OCSP behind its cache -/

theorem check_ocsp_crl_cache (fac : SSLFactory) :
    (check_ocsp net now cert issuer fac).2.2.crl_cache = fac.crl_cache := by
  unfold check_ocsp
  split <;> rfl

theorem check_status_verify_cache (fac : SSLFactory) :
    (check_status ssl net now cert issuer fac).fac.verify_cache =
      (check_ocsp net now cert issuer fac).2.2.verify_cache := by
  simp only [check_status]
  split <;> rfl

/-- A cached answer is that of a call of the history. -/
def Answered (net : servers) (history : List call) (key : String)
    (e : expiring VerifyStatus) : Prop :=
  ∃ c ∈ history, net.cn c.cert = key ∧
    e.value_.revoked = (net.ocsp_check_cert c.cert c.issuer).revoked

theorem check_ocsp_answered {history : List call} {fac : SSLFactory} {c : call}
    (hfac : fac.verify_cache.Stores (Answered net history)) (hc : c ∈ history) :
    (check_ocsp net c.now c.cert c.issuer fac).2.2.verify_cache.Stores
      (Answered net history) := by
  have hget := fifo_cache.get_stores hfac c.now (net.cn c.cert)
  unfold check_ocsp
  cases hg : fac.verify_cache.get c.now (net.cn c.cert) with
  | mk cached_result cache =>
    rw [hg] at hget
    cases cached_result with
    | some e => exact hget
    | none => exact fifo_cache.set_stores hget ⟨c, hc, rfl, rfl⟩

theorem after_answered {verify_size crl_size : Nat} {history : List call} {fac : SSLFactory}
    (h : after ssl net verify_size crl_size history = some fac) :
    fac.verify_cache.Stores (Answered net history) := by
  have hstart : (SSLFactory.reset_caches verify_size crl_size).verify_cache.Stores
      (Answered net history) := fun k b hb => by cases hb
  -- the calls of the history, from any caches that only have its answers
  have hrun : ∀ (h : List call) (fac fac' : SSLFactory), (∀ c ∈ h, c ∈ history) →
      fac.verify_cache.Stores (Answered net history) →
      exec (fun fac (c : call) =>
        let res := check_status ssl net c.now c.cert c.issuer fac
        res.revoked.map fun _ => res.fac) fac h = some fac' →
      fac'.verify_cache.Stores (Answered net history) := by
    intro h
    induction h with
    | nil =>
      intro fac fac' _ hfac hexec
      obtain rfl := Option.some.inj hexec
      exact hfac
    | cons c h ih =>
      intro fac fac' hsub hfac hexec
      rw [exec_cons, Option.bind_eq_some_iff] at hexec
      obtain ⟨next, hnext, hrest⟩ := hexec
      obtain ⟨-, -, rfl⟩ := Option.map_eq_some_iff.mp hnext
      refine ih _ fac' (fun c' hc' => hsub c' (List.mem_cons_of_mem _ hc')) ?_ hrest
      rw [check_status_verify_cache]
      exact check_ocsp_answered hfac (hsub c List.mem_cons_self)
  exact hrun history _ fac (fun _ hc => hc) hstart h

/-- With the same answers, the cache of OCSP makes no difference. -/
theorem check_ocsp_after (now : Int) {verify_size crl_size : Nat} {history : List call}
    {fac : SSLFactory} (h : after ssl net verify_size crl_size history = some fac)
    (hsame : SameAnswers net history cert issuer) :
    (check_ocsp net now cert issuer fac).1 = (net.ocsp_check_cert cert issuer).revoked := by
  have hstores := after_answered h
  unfold check_ocsp
  cases hg : fac.verify_cache.get now (net.cn cert) with
  | mk cached_result cache =>
    cases cached_result with
    | none => rfl
    | some e =>
      rcases fifo_cache.get_stored hstores (congrArg Prod.fst hg) with ⟨c, hc, hkey, he⟩
      exact he.trans (hsame c hc hkey)

/-! ## The check -/

/-- The verdict, from the answer of OCSP and the walk over the distribution points. -/
theorem check_status_revoked (fac : SSLFactory) {o : Int}
    (ho : (check_ocsp net now cert issuer fac).1 = o) :
    (check_status ssl net now cert issuer fac).revoked =
      if o < 0 ∧ crl_urls cert ≠ [] then
        first_answer ssl net cert issuer (fresh (turns_of net now (crl_urls cert) fac.crl_cache))
      else some o := by
  subst ho
  by_cases hneg : (check_ocsp net now cert issuer fac).1 < 0
  · have hstart : judge_crl ssl cert issuer (start_crls net now cert issuer fac).crl_struct =
        some (-1) := rfl
    simp only [check_status, if_pos hneg, check_crls_revoked _ hstart]
    simp only [start_crls, check_ocsp_crl_cache]
    by_cases hnil : crl_urls cert = []
    · simp [hnil]
    · simp [hneg, hnil]
  · simp [check_status, hneg]

theorem check_status_judged (fac : SSLFactory) {o : Int}
    (ho : (check_ocsp net now cert issuer fac).1 = o) :
    (∀ j ∈ (check_status ssl net now cert issuer fac).judged, crl_of net j.1 = some j.2) ↔
      0 ≤ o ∨ NothingLeft ssl net cert issuer none
        (turns_of net now (crl_urls cert) fac.crl_cache) := by
  subst ho
  by_cases hneg : (check_ocsp net now cert issuer fac).1 < 0
  · have hnot : ¬ 0 ≤ (check_ocsp net now cert issuer fac).1 := by omega
    have hstart : judge_crl ssl cert issuer (start_crls net now cert issuer fac).crl_struct =
        some (-1) := rfl
    simp only [check_status, if_pos hneg, hnot, false_or]
    rw [check_crls_judged _ hstart]
    simp [start_crls, check_ocsp_crl_cache]
  · have hpos : 0 ≤ (check_ocsp net now cert issuer fac).1 := by omega
    simp [check_status, hneg, hpos]

/-- The verdict is that of empty caches, and each distribution point is judged by its CRL. When the
check does not come back, there is no verdict. -/
structure CacheFree (ssl : openssl) (net : servers) (now : Int) (fac empty : SSLFactory)
    (com : baseSSLCom) : Prop where
  verdict : (certificate_status_ocsp_check ssl net now fac com).1.revoked =
    (certificate_status_ocsp_check ssl net now empty com).1.revoked
  own : ∀ j ∈ (certificate_status_ocsp_check ssl net now fac com).1.judged,
    crl_of net j.1 = some j.2

end

/-- The caches make no difference when, and only when, OCSP has the answer, or the URLs that are
not in the cache have the same first answer as all of them and no CRL is left in hand for
another URL. -/
theorem cached_checks_agree (ssl : openssl) (net : servers) (verify_size crl_size : Nat)
    (history : List call) (fac : SSLFactory) (now : Int) (com : baseSSLCom) (cert issuer : X509)
    (hcert : com.sslcom_target_cert = some cert) (hissuer : com.sslcom_target_issuer = some issuer)
    (hsame : SameAnswers net history cert issuer)
    (hfac : after ssl net verify_size crl_size history = some fac) :
    CacheFree ssl net now fac (.reset_caches verify_size crl_size) com ↔
      0 ≤ (net.ocsp_check_cert cert issuer).revoked ∨
        (first_answer ssl net cert issuer (fresh (turns_of net now (crl_urls cert) fac.crl_cache)) =
          first_answer ssl net cert issuer (crl_urls cert) ∧
        NothingLeft ssl net cert issuer none (turns_of net now (crl_urls cert) fac.crl_cache)) := by
  have hfilled := check_ocsp_after now hfac hsame
  have hempty : (check_ocsp net now cert issuer (.reset_caches verify_size crl_size)).1 =
      (net.ocsp_check_cert cert issuer).revoked := rfl
  have hnone : first_answer ssl net cert issuer (fresh (turns_of net now (crl_urls cert)
      (SSLFactory.reset_caches verify_size crl_size).crl_cache)) =
      first_answer ssl net cert issuer (crl_urls cert) :=
    first_answer_fresh _ fun k b hb => by cases hb
  have hsplit : CacheFree ssl net now fac (.reset_caches verify_size crl_size) com ↔
      (check_status ssl net now cert issuer fac).revoked =
        (check_status ssl net now cert issuer (.reset_caches verify_size crl_size)).revoked ∧
      ∀ j ∈ (check_status ssl net now cert issuer fac).judged, crl_of net j.1 = some j.2 := by
    constructor
    · rintro ⟨hv, hown⟩
      simp only [certificate_status_ocsp_check, hcert, hissuer] at hv hown
      exact ⟨hv, hown⟩
    · rintro ⟨hv, hown⟩
      refine ⟨?_, ?_⟩
      · simpa only [certificate_status_ocsp_check, hcert, hissuer] using hv
      · simpa only [certificate_status_ocsp_check, hcert, hissuer] using hown
  rw [hsplit, check_status_judged _ hfilled, check_status_revoked _ hfilled,
    check_status_revoked _ hempty, hnone]
  by_cases hpos : 0 ≤ (net.ocsp_check_cert cert issuer).revoked
  · have hneg : ¬ (net.ocsp_check_cert cert issuer).revoked < 0 := by omega
    simp [hpos, hneg]
  · have hneg : (net.ocsp_check_cert cert issuer).revoked < 0 := by omega
    by_cases hnil : crl_urls cert = []
    · simp [hpos, hnil, turns_of, fresh]
    · simp [hpos, hneg, hnil]

/-- A connection to the server with certificate 7. -/
def com_to_7 : baseSSLCom :=
  { sslcom_target_cert := some revoked_cert, sslcom_target_issuer := some issuer_cert }

/-- A responder that knows the certificate. -/
def knows_good : servers :=
  { serves_crl { revoked := [] } with ocsp_check_cert := fun _ _ => { revoked := 0, ttl := 60 } }

/-- With an answer of OCSP, the second connection gets the verdict of the first. -/
theorem cached_checks_agree_on_good :
    ∃ fac, after openssl_accepts knows_good 300 100 [⟨0, revoked_cert, issuer_cert⟩] = some fac ∧
      CacheFree openssl_accepts knows_good 10 fac (.reset_caches 300 100) com_to_7 :=
  ⟨_, rfl, (cached_checks_agree openssl_accepts knows_good 300 100
    [⟨0, revoked_cert, issuer_cert⟩] _ 10 com_to_7 revoked_cert issuer_cert rfl rfl
    (fun _ _ _ => rfl) rfl).mpr (Or.inl (by decide))⟩

/-- On the second connection the CRL is in the cache, and the certificate is not good any more. -/
theorem a_cached_crl_is_lost :
    ¬ ∀ (ssl : openssl) (net : servers) (verify_size crl_size : Nat) (history : List call)
      (fac : SSLFactory) (now : Int) (com : baseSSLCom) (cert issuer : X509),
      com.sslcom_target_cert = some cert → com.sslcom_target_issuer = some issuer →
      SameAnswers net history cert issuer →
      after ssl net verify_size crl_size history = some fac →
      CacheFree ssl net now fac (.reset_caches verify_size crl_size) com := by
  intro hall
  have h := hall openssl_accepts (serves_crl { revoked := [] }) 300 100
    [⟨0, revoked_cert, issuer_cert⟩] _ 10 com_to_7 revoked_cert issuer_cert rfl rfl
    (fun _ _ _ => rfl) rfl
  exact absurd h.verdict (by decide)

end socle.status
