-- What holds of the verification status in each run of the callbacks. A
-- failure is never taken back but by a bypass. That a connection which is
-- verified has no failure holds as long as no step lets both stand together.
import Socle.Lib.Run
import Socle.VerifyFailures

namespace socle.callbacks

open verify crl status stapling lib.run

/-! ## The callback for a certificate of the chain -/

theorem problem_is_failure {err_code : Int} {f : verify_status_t}
    (h : problem_of err_code = some f) : is_failure f = true := by
  simp only [problem_of] at h
  repeat' split at h
  all_goals cases h <;> rfl

section
variable (com : baseSSLCom)

theorem keep_certificate_same (e : chain_entry) :
    Same com (keep_certificate e com) ∧
      (keep_certificate e com).verify_bitcheck .VRF_OK = com.verify_bitcheck .VRF_OK := by
  simp only [keep_certificate]
  split
  · exact ⟨⟨rfl, fun _ _ => rfl⟩, rfl⟩
  split
  · split
    · have hset : Same com (com.verify_bitset .VRF_EXTENDED_INFO) := same_set com rfl
      exact ⟨⟨rfl, hset.failures⟩, com.verify_bitcheck_set .VRF_EXTENDED_INFO .VRF_OK⟩
    · exact ⟨⟨rfl, fun _ _ => rfl⟩, rfl⟩
  split
  · exact ⟨⟨rfl, fun _ _ => rfl⟩, rfl⟩
  · exact ⟨Same.refl com, rfl⟩

/-- The callback records at most the failure of the error code. -/
theorem vrfy_records (lib_preverify err_code : Int) (e : chain_entry) :
    (ssl_client_vrfy_callback lib_preverify err_code e com).2 =
      match problem_of err_code with
      | some f => (keep_certificate e com).verify_bitset f
      | none => keep_certificate e com := by
  simp only [ssl_client_vrfy_callback]
  cases problem_of err_code <;> rfl

theorem vrfy_grows (lib_preverify err_code : Int) (e : chain_entry) :
    Grows com (ssl_client_vrfy_callback lib_preverify err_code e com).2 := by
  have hkeep := (keep_certificate_same com e).1.grows
  rw [vrfy_records]
  split
  · exact hkeep.trans (grows_set _ _)
  · exact hkeep

variable {com}

theorem vrfy_clean (hc : Clean com) (lib_preverify err_code : Int) (e : chain_entry) :
    Clean (ssl_client_vrfy_callback lib_preverify err_code e com).2 ↔
      ∀ f, problem_of err_code = some f →
        permitted com.opt.cert f = true ∨ com.verify_bitcheck .VRF_OK = false := by
  rcases keep_certificate_same com e with ⟨hsame, hok⟩
  have hclean : Clean (keep_certificate e com) := (Turn.keeps hsame hok).clean hc
  rw [vrfy_records]
  cases hproblem : problem_of err_code with
  | none => exact ⟨fun _ => by simp, fun _ => hclean⟩
  | some f =>
    simp only [clean_set_iff hclean (problem_is_failure hproblem), hsame.options, hok,
      Option.some.injEq, forall_eq']

theorem client_cert_same (com : baseSSLCom) :
    Same com (ssl_client_cert_callback com).2 ∧
      (ssl_client_cert_callback com).2.verify_bitcheck .VRF_OK = com.verify_bitcheck .VRF_OK := by
  have hcom : (ssl_client_cert_callback com).2 = com.verify_bitset .VRF_CLIENT_CERT_RQ := by
    simp only [ssl_client_cert_callback]
    repeat' split
    all_goals rfl
  rw [hcom]
  exact ⟨same_set com rfl, by simp⟩

end

/-! ## Certificate transparency -/

/-- An entry that was verified. -/
def is_valid (s : sct) : Bool :=
  s.ret_validate = 1 && s.res_validate = .VALID

/-- An entry that was found to be wrong. -/
def is_invalid (s : sct) : Bool :=
  s.ret_validate = 1 && s.res_validate = .INVALID

theorem count_sct_step (n : sct_counts) (s : sct) :
    (count_sct n s).res_failed = n.res_failed + (if is_valid s then 0 else 1) ∧
      (count_sct n s).res_ok =
        if is_invalid s then -1
        else if is_valid s ∧ 0 ≤ n.res_ok then n.res_ok + 1 else n.res_ok := by
  unfold count_sct is_valid is_invalid
  by_cases hret : s.ret_validate = 1
  · cases s.res_validate <;> simp [hret]
  · simp [hret]

/-- All but the valid entries count as failed. -/
theorem count_failed (scts : List sct) (n : sct_counts) :
    (scts.foldl count_sct n).res_failed = n.res_failed + scts.countP fun s => !is_valid s := by
  induction scts generalizing n with
  | nil => rfl
  | cons s rest ih =>
    rw [List.foldl_cons, ih, (count_sct_step n s).1, List.countP_cons]
    cases is_valid s
    · simp
      omega
    · simp

/-- Once it is negative, the count of the valid ones stays so. -/
theorem count_negative (scts : List sct) (n : sct_counts) (hn : n.res_ok < 0) :
    (scts.foldl count_sct n).res_ok < 0 := by
  induction scts generalizing n with
  | nil => exact hn
  | cons s rest ih =>
    rw [List.foldl_cons]
    apply ih
    rw [(count_sct_step n s).2]
    split
    · decide
    · rw [if_neg (by omega)]
      exact hn

/-- The count of the valid ones is right when no entry is invalid, and negative otherwise. -/
theorem count_ok (scts : List sct) (n : sct_counts) (hn : 0 ≤ n.res_ok) :
    if scts.any is_invalid then (scts.foldl count_sct n).res_ok < 0
    else (scts.foldl count_sct n).res_ok = n.res_ok + scts.countP is_valid := by
  induction scts generalizing n with
  | nil => simp
  | cons s rest ih =>
    have hstep := (count_sct_step n s).2
    rw [List.foldl_cons, List.any_cons]
    cases hs : is_invalid s with
    | true =>
      rw [hs, if_pos rfl] at hstep
      simp only [Bool.true_or, if_true]
      exact count_negative rest _ (by omega)
    | false =>
      rw [hs, if_neg (by decide)] at hstep
      have hcount : (count_sct n s).res_ok = n.res_ok + (if is_valid s then 1 else 0) := by
        rw [hstep]
        cases is_valid s <;> simp [hn]
      have hnext : 0 ≤ (count_sct n s).res_ok := by
        rw [hcount]
        split <;> omega
      have h := ih (count_sct n s) hnext
      rw [Bool.false_or]
      split at h
      · rwa [if_pos ‹_›]
      · rw [if_neg ‹_›, h, hcount, List.countP_cons]
        push_cast
        split <;> omega

/-- Announcing failures sets VRF_CT_FAILED, when there is one. -/
theorem announce_failed_sets (k : Nat) (com : baseSSLCom) :
    (announce_failed k com).opt = com.opt ∧
      ∀ f, (announce_failed k com).verify_bitcheck f =
        if 0 < k then (com.verify_bitset .VRF_CT_FAILED).verify_bitcheck f
        else com.verify_bitcheck f := by
  induction k generalizing com with
  | zero => exact ⟨rfl, fun _ => rfl⟩
  | succ k ih =>
    rcases ih { com.verify_bitset .VRF_CT_FAILED with
      vrf_other_ := com.vrf_other_ ++ [.VRF_OTHER_CT_FAILED] } with ⟨hopt, hbits⟩
    refine ⟨hopt, fun f => ?_⟩
    rw [announce_failed, hbits, if_pos (Nat.succ_pos k)]
    split
    · have htwice : ((com.verify_bitset .VRF_CT_FAILED).verify_bitset .VRF_CT_FAILED).verify_bitcheck
          f = (com.verify_bitset .VRF_CT_FAILED).verify_bitcheck f := by
        simp
      exact htwice
    · rfl

theorem announce_failed_grows (k : Nat) (com : baseSSLCom) :
    Grows com (announce_failed k com) := by
  intro f hf h
  rw [(announce_failed_sets k com).2]
  split
  · exact grows_set com .VRF_CT_FAILED f hf h
  · exact h

/-- The valid entries are enough for the callback, and not all of the entries are valid. -/
structure Mixed (scts : List sct) : Prop where
  enough : 2 ≤ scts.countP is_valid
  none_invalid : scts.any is_invalid = false
  not_all : scts.all is_valid = false

/-- The callback leaves the connection not verified, or it changes nothing, or it announces
failures beside enough valid entries. -/
theorem ct_cases (scts : List sct) (com : baseSSLCom) :
    (Mixed scts ∧ ∃ k, (ct_verify_callback scts com).2 = announce_failed (k + 1) com) ∨
      (¬ Mixed scts ∧ Grows com (ct_verify_callback scts com).2 ∧
        Turn com (ct_verify_callback scts com).2) := by
  have hfailed := count_failed scts {}
  have hok := count_ok scts {} (by decide)
  have hreset : Grows com (com.verify_bitreset .VRF_OK) := (same_reset com rfl).grows
  have hdrops : ∀ (k : Nat) (com' : baseSSLCom), com'.verify_bitcheck .VRF_OK = false →
      (announce_failed k com').verify_bitcheck .VRF_OK = false := by
    intro k com' hno
    rw [(announce_failed_sets k com').2]
    split <;> simp [hno]
  simp only [ct_verify_callback]
  split
  next hshort =>
    refine Or.inr ⟨fun h => ?_, hreset.trans (grows_set _ _), Turn.drops (by simp)⟩
    have hcount := List.countP_le_length (p := is_valid) (l := scts)
    have henough := h.enough
    omega
  generalize scts.foldl count_sct {} = n at hfailed hok ⊢
  simp only [Nat.zero_add, Int.zero_add] at hfailed hok
  split
  next hneg =>
    have hinvalid : scts.any is_invalid = true := by
      by_contra hno
      rw [if_neg hno] at hok
      omega
    refine Or.inr ⟨fun h => ?_, ?_, Turn.drops (hdrops _ _ ?_)⟩
    · have hnone := h.none_invalid
      rw [hinvalid] at hnone
      cases hnone
    · have hset : Grows com { (com.verify_bitreset .VRF_OK).verify_bitset .VRF_CT_FAILED with
          vrf_other_ := com.vrf_other_ ++ [.VRF_OTHER_CT_INVALID] } :=
        hreset.trans (grows_set (com.verify_bitreset .VRF_OK) .VRF_CT_FAILED)
      exact hset.trans (announce_failed_grows n.res_failed _)
    · have hno : ((com.verify_bitreset .VRF_OK).verify_bitset .VRF_CT_FAILED).verify_bitcheck
          .VRF_OK = false := by simp
      exact hno
  next hpos =>
    have hvalid : scts.any is_invalid = false := by
      by_contra hyes
      rw [Bool.not_eq_false] at hyes
      rw [if_pos hyes] at hok
      omega
    rw [if_neg (by rw [hvalid]; decide)] at hok
    split
    next hfew =>
      refine Or.inr ⟨fun h => ?_, ?_, Turn.drops (hdrops _ _ (by simp))⟩
      · have henough := h.enough
        omega
      · exact (hreset.trans (grows_set _ _)).trans (announce_failed_grows _ _)
    next hmany =>
      cases hall : scts.all is_valid with
      | true =>
        have hnone : n.res_failed = 0 := by
          rw [hfailed, List.countP_eq_zero]
          intro s hs
          simp [List.all_eq_true.mp hall s hs]
        rw [hnone]
        refine Or.inr ⟨fun h => ?_, Grows.refl com, Turn.keeps (Same.refl com) rfl⟩
        have hnot := h.not_all
        rw [hall] at hnot
        cases hnot
      | false =>
        have hsome : 0 < n.res_failed := by
          rw [hfailed, List.countP_pos_iff]
          rw [List.all_eq_false] at hall
          rcases hall with ⟨s, hs, hnot⟩
          exact ⟨s, hs, by simpa using hnot⟩
        refine Or.inl ⟨⟨by omega, hvalid, hall⟩, n.res_failed - 1, ?_⟩
        rw [Nat.sub_add_cancel hsome]

theorem ct_grows (scts : List sct) (com : baseSSLCom) :
    Grows com (ct_verify_callback scts com).2 := by
  rcases ct_cases scts com with ⟨-, k, hk⟩ | ⟨-, hgrows, -⟩
  · rw [hk]
    exact announce_failed_grows _ _
  · exact hgrows

theorem ct_clean {com : baseSSLCom} (hc : Clean com) (scts : List sct) :
    Clean (ct_verify_callback scts com).2 ↔
      (Mixed scts → com.verify_bitcheck .VRF_OK = false) := by
  rcases ct_cases scts com with ⟨hmixed, k, hk⟩ | ⟨hno, -, hturn⟩
  · have hset : Clean (announce_failed (k + 1) com) ↔ Clean (com.verify_bitset .VRF_CT_FAILED) := by
      rcases announce_failed_sets (k + 1) com with ⟨hopt, hbits⟩
      refine clean_congr (by rw [hopt, baseSSLCom.verify_bitset_opt]) fun f => ?_
      rw [hbits, if_pos (Nat.succ_pos k)]
    rw [hk, hset, clean_set_iff hc rfl]
    simp [hmixed, permitted]
  · exact ⟨fun _ h => absurd h hno, fun _ => hturn.clean hc⟩

/-! ## One step -/

/-- What a step has to meet, so that no failure stands beside a connection that is verified. -/
def Allowed (ssl : openssl) (c : conn) : event → Prop
  | .vrfy _ err_code _ =>
    ∀ f, problem_of err_code = some f →
      permitted c.com.opt.cert f = true ∨ c.com.verify_bitcheck .VRF_OK = false
  | .status_resp net now s =>
    if failed_already c.com then
      is_verify_status_opt_allowed (c.com.verify_bitreset .VRF_NOTTESTED) = true →
        c.com.verify_bitcheck .VRF_ALLFAILED = false
    else AnswersGood ssl net now c.fac s c.com → ¬ Tainted c.com
  | .ct scts => Mixed scts → c.com.verify_bitcheck .VRF_OK = false
  | .check_cert remote validated =>
    remote = true → validated = false → c.com.verify_status_ ≠ verify_status_t.VRF_OK.val
  | .store_session session_reused => session_reused = true → ¬ Tainted c.com
  | .client_cert | .bypass | .other _ => True

section
variable {com : baseSSLCom}

theorem status_resp_clean {ssl : openssl} {net : servers} {now : Int} {fac : SSLFactory}
    {s : stapled} (hc : Clean com) {o : outcome}
    (ho : status_resp_callback ssl net now fac s com = some o) :
    Clean o.com ↔
      if failed_already com then
        is_verify_status_opt_allowed (com.verify_bitreset .VRF_NOTTESTED) = true →
          com.verify_bitcheck .VRF_ALLFAILED = false
      else AnswersGood ssl net now fac s com → ¬ Tainted com := by
  cases hearly : failed_already com with
  | true =>
    rw [if_pos rfl]
    rw [status_resp_callback, if_pos hearly] at ho
    obtain rfl := Option.some.inj ho
    rcases settle_failed_cases com with ⟨hallowed, hgrants⟩ | ⟨hnot, -, hno⟩
    · rw [hgrants.clean_iff, tainted_of_allowed hallowed, Bool.not_eq_true]
      exact ⟨fun h _ => h, fun h => h hallowed⟩
    · refine ⟨fun _ hallowed => ?_, fun _ => (Turn.drops hno).clean hc⟩
      rw [hnot] at hallowed
      cases hallowed
  | false =>
    rw [if_neg (by decide)]
    rcases callback_cases hearly ho with ⟨hgood, hgrants⟩ | ⟨hno, hturn⟩
    · rw [hgrants.clean_iff]
      exact ⟨fun h _ => h, fun h => h hgood⟩
    · exact ⟨fun _ h => absurd h hno, fun _ => hturn.clean hc⟩

/-- The name of the host fails on a connection that is verified and nothing else. -/
theorem check_cert_clean (hc : Clean com) (remote validated : Bool) :
    Clean (check_cert remote validated com) ↔
      (remote = true → validated = false →
        com.verify_status_ ≠ verify_status_t.VRF_OK.val) := by
  by_cases hstatus : com.verify_status_ = verify_status_t.VRF_OK.val
  · have hok : com.verify_bitcheck .VRF_OK = true := by
      simp [baseSSLCom.verify_bitcheck, hstatus]
    have hset : ¬ Clean (com.verify_bitset .VRF_HOSTNAME_FAILED) := by
      rw [clean_set_iff hc rfl, hok]
      simp [permitted]
    cases remote <;> cases validated <;> simp [check_cert, hstatus, hc, hset]
  · cases remote <;> simp [check_cert, hstatus, hc]

theorem check_cert_grows (remote validated : Bool) (com : baseSSLCom) :
    Grows com (check_cert remote validated com) := by
  unfold check_cert
  repeat' split
  · exact Grows.refl com
  · exact Grows.refl com
  · exact grows_set com _
  · exact Grows.refl com

theorem store_session_cases (session_reused : Bool) (com : baseSSLCom) :
    (session_reused = true ∧ Grants com (store_session_if_needed session_reused com)) ∨
      (session_reused = false ∧ store_session_if_needed session_reused com = com) := by
  cases session_reused with
  | true =>
    have hsame : Same com ((com.verify_bitreset .VRF_NOTTESTED).verify_bitset .VRF_OK) :=
      (same_reset com rfl).trans (same_set _ rfl)
    exact Or.inl ⟨rfl, hsame, by simp [store_session_if_needed]⟩
  | false => exact Or.inr ⟨rfl, rfl⟩

theorem bypass_clean (com : baseSSLCom) : Clean (bypass com) := by
  rintro - ⟨f, hf, -, hset⟩
  have hok : verify_status_t.VRF_OK = f := by
    simpa [bypass, baseSSLCom.verify_bitcheck] using hset
  rw [← hok] at hf
  cases hf

end

/-- A clean connection stays clean in a step when, and only when, the step is allowed. -/
theorem step_clean (ssl : openssl) {c c' : conn} {e : event} (hc : Clean c.com)
    (h : step ssl c e = some c') : Clean c'.com ↔ Allowed ssl c e := by
  cases e with
  | vrfy lib_preverify err_code e =>
    cases h
    exact vrfy_clean hc lib_preverify err_code e
  | client_cert =>
    cases h
    rcases client_cert_same c.com with ⟨hsame, hok⟩
    exact ⟨fun _ => trivial, fun _ => (Turn.keeps hsame hok).clean hc⟩
  | status_resp net now s =>
    obtain ⟨o, ho, rfl⟩ := Option.map_eq_some_iff.mp h
    exact status_resp_clean hc ho
  | ct scts =>
    cases h
    exact ct_clean hc scts
  | check_cert remote validated =>
    cases h
    exact check_cert_clean hc remote validated
  | store_session session_reused =>
    cases h
    rcases store_session_cases session_reused c.com with ⟨hreused, hgrants⟩ | ⟨hnot, heq⟩
    · rw [hgrants.clean_iff]
      exact ⟨fun hn _ => hn, fun hn => hn hreused⟩
    · rw [heq]
      refine ⟨fun _ hreused => ?_, fun _ => hc⟩
      rw [hnot] at hreused
      cases hreused
  | bypass =>
    cases h
    exact ⟨fun _ => trivial, fun _ => bypass_clean c.com⟩
  | other fac =>
    cases h
    exact ⟨fun _ => trivial, fun _ => hc⟩

/-- A step takes no failure back, but for a bypass. -/
theorem step_grows (ssl : openssl) (c : conn) (e : event) (c' : conn) (he : e ≠ .bypass)
    (h : step ssl c e = some c') : Grows c.com c'.com := by
  cases e with
  | vrfy lib_preverify err_code e =>
    cases h
    exact vrfy_grows c.com lib_preverify err_code e
  | client_cert =>
    cases h
    exact (client_cert_same c.com).1.grows
  | status_resp net now s =>
    obtain ⟨o, ho, rfl⟩ := Option.map_eq_some_iff.mp h
    exact status_resp_grows ho
  | ct scts =>
    cases h
    exact ct_grows scts c.com
  | check_cert remote validated =>
    cases h
    exact check_cert_grows remote validated c.com
  | store_session session_reused =>
    cases h
    rcases store_session_cases session_reused c.com with ⟨-, hgrants⟩ | ⟨-, heq⟩
    · exact hgrants.same.grows
    · exact fun f _ hset => by rw [heq]; exact hset
  | bypass => exact absurd rfl he
  | other fac =>
    cases h
    exact Grows.refl c.com

/-! ## Runs -/

/-- A failure that stands after the events `pre` stands after more of them, when none of these is a
bypass. -/
def Lasting (ssl : openssl) (c : conn) (es : List event) : Prop :=
  ∀ pre post rest c' c'', es = pre ++ post ++ rest → (∀ e ∈ post, e ≠ .bypass) →
    exec (step ssl) c pre = some c' → exec (step ssl) c' post = some c'' → Grows c'.com c''.com

/-- In each state of the run a connection that is verified has no failure but those that an option
permits, and no failure is taken back but by a bypass. -/
structure Consistent (ssl : openssl) (c : conn) (es : List event) : Prop where
  clean : Always (step ssl) (fun c => Clean c.com) c es
  lasting : Lasting ssl c es

theorem runs_are_lasting (ssl : openssl) (c : conn) (es : List event) : Lasting ssl c es := by
  intro pre post rest c' c'' _ hpost _ hr
  exact exec_rel (R := fun c c' => Grows c.com c'.com) (A := fun e => e ≠ .bypass)
    (fun c => Grows.refl c.com) Grows.trans (step_grows ssl) hpost hr

theorem start_clean (opt : SSLComOptions) (fac : SSLFactory) : Clean (start opt fac).com := by
  intro hok
  simp [start, baseSSLCom.verify_bitcheck] at hok

/-- For each order and number of callbacks: the status is consistent when, and only when, each
callback is allowed in the state in which it comes. -/
theorem status_is_consistent (ssl : openssl) (opt : SSLComOptions) (fac : SSLFactory)
    (es : List event) :
    Consistent ssl (start opt fac) es ↔ Meets (step ssl) (Allowed ssl) (start opt fac) es := by
  have hruns : Always (step ssl) (fun c => Clean c.com) (start opt fac) es ↔
      Meets (step ssl) (Allowed ssl) (start opt fac) es :=
    always_iff_meets (fun _ h => h) (fun _ _ _ hc ha h => (step_clean ssl hc h).mpr ha)
      (fun _ _ _ hc hn h hclean => hn ((step_clean ssl hc h).mp hclean)) (start_clean opt fac) es
  rw [← hruns]
  exact ⟨fun h => h.clean, fun h => ⟨h, runs_are_lasting ssl _ es⟩⟩

/-- A server with a good certificate and a good stapled response, and a name that is not in the
certificate. -/
def other_host : List event :=
  [.vrfy 1 X509_V_OK { depth := 1, xcert := some issuer_cert, sig_nid := 668 },
    .vrfy 1 X509_V_OK { depth := 0, xcert := some revoked_cert, sig_nid := 668 },
    .status_resp (serves_crl crl_with_7) 0 { forged with basic_verify := 1 },
    .check_cert true false]

/-- A connection to the wrong host is verified and has a failure. -/
theorem a_wrong_host_is_verified :
    ¬ ∀ (ssl : openssl) (opt : SSLComOptions) (fac : SSLFactory) (es : List event),
      Consistent ssl (start opt fac) es := by
  intro hall
  have h := (hall openssl_accepts {} (.reset_caches 300 100) other_host).clean
  have hend := always_exec h rfl
  exact hend (by decide) ⟨.VRF_HOSTNAME_FAILED, rfl, rfl, by decide⟩

end socle.callbacks
