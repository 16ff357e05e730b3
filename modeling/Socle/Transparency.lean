-- The decision about certificate transparency (sslcom.tpp: ct_verify_callback).
-- One loop counts the valid entries and the failed ones, and what is returned
-- is settled apart from the flags.
import Socle.SslCom

namespace socle.ct

open verify

/-! ## The callback -/

inductive sct_validation_status_t
  | SCT_VALIDATION_STATUS_NOT_SET | SCT_VALIDATION_STATUS_UNKNOWN_LOG
  | SCT_VALIDATION_STATUS_VALID | SCT_VALIDATION_STATUS_INVALID
  | SCT_VALIDATION_STATUS_UNVERIFIED | SCT_VALIDATION_STATUS_UNKNOWN_VERSION
deriving DecidableEq, Repr

open sct_validation_status_t

/-- An entry: what `SCT_validate` returns for it, and the status that it has then. -/
structure SCT where
  ret_validate : Int
  res_validate : sct_validation_status_t
deriving DecidableEq, Repr

/-- How many good and valid SCTs were recognized, and how many failed. -/
structure sct_counts where
  res_ok : Int := 0
  res_failed : Nat := 0
deriving DecidableEq, Repr

/-- One turn of the loop. An invalid entry ensures that `res_ok` will not get any non-negative value
anymore. -/
def count_sct (l : sct_counts) (sc_entry : SCT) : sct_counts :=
  if sc_entry.ret_validate = 1 then
    match sc_entry.res_validate with
    | SCT_VALIDATION_STATUS_VALID => if l.res_ok ≥ 0 then { l with res_ok := l.res_ok + 1 } else l
    | SCT_VALIDATION_STATUS_INVALID => { res_ok := -1, res_failed := l.res_failed + 1 }
    | _ => { l with res_failed := l.res_failed + 1 }
  -- 0 or -1 is failed verification
  else { l with res_failed := l.res_failed + 1 }

/-- `verify_extended_info().emplace_back`. -/
def extend_info (com : baseSSLCom) (v : vrf_other_values_t) : baseSSLCom :=
  { com with vrf_other_ := com.vrf_other_ ++ [v] }

/-- The loop over the failed entries. -/
def announce_failed : Nat → baseSSLCom → baseSSLCom
  | 0, com => com
  | n + 1, com => announce_failed n
      (extend_info (com.verify_bitset .VRF_CT_FAILED) .VRF_OTHER_CT_FAILED)

/-- What follows the counts: `result`, and the flags. -/
def judge_counts (l : sct_counts) (com : baseSSLCom) : Bool × baseSSLCom :=
  if l.res_ok < 0 then
    -- there is invalid entry - fail to connect
    (false, announce_failed l.res_failed (extend_info
      ((com.verify_bitreset .VRF_OK).verify_bitset .VRF_CT_FAILED) .VRF_OTHER_CT_INVALID))
  else if l.res_ok < 2 then
    -- announce error and insufficient understood
    (true, announce_failed l.res_failed
      ((com.verify_bitreset .VRF_OK).verify_bitset .VRF_CT_MISSING))
  else (true, announce_failed l.res_failed com)

/-- `ct_verify_callback`, for a connection. -/
def ct_verify (scts : List SCT) (sslcom : baseSSLCom) : Bool × baseSSLCom :=
  let r :=
    if scts.length < 2 then
      (false, (sslcom.verify_bitreset .VRF_OK).verify_bitset .VRF_CT_MISSING)
    else judge_counts (scts.foldl count_sct {}) sslcom
  (r.1 || sslcom.opt.cert.failed_check_replacement, r.2)

/-- `ct_verify_callback`. `arg` may be `nullptr`. -/
def ct_verify_callback (scts : List SCT) : Option baseSSLCom → Bool × Option baseSSLCom
  | none => (true, none)
  | some sslcom => ((ct_verify scts sslcom).1, some (ct_verify scts sslcom).2)

/-! ## The law -/

/-- The entry is valid. -/
def valid (s : SCT) : Bool :=
  s.ret_validate = 1 && s.res_validate = SCT_VALIDATION_STATUS_VALID

/-- The entry is known to be invalid. -/
def invalid (s : SCT) : Bool :=
  s.res_validate = SCT_VALIDATION_STATUS_INVALID

/-- The list has at least two valid entries, and no invalid one. -/
def Transparent (scts : List SCT) : Prop :=
  2 ≤ scts.countP valid ∧ ∀ s ∈ scts, invalid s = false

/-- Transparent lists are accepted, and they only. After others the flags tell that the check
failed. The order of the entries does not matter. -/
structure Decides (scts : List SCT) (com : baseSSLCom) : Prop where
  accepted : (ct_verify scts com).1 = true ↔ Transparent scts
  flagged : ¬ Transparent scts → (ct_verify scts com).2.verify_bitcheck .VRF_OK = false ∧
    ((ct_verify scts com).2.verify_bitcheck .VRF_CT_FAILED = true ∨
      (ct_verify scts com).2.verify_bitcheck .VRF_CT_MISSING = true)
  any_order : ∀ scts', scts'.Perm scts → ct_verify scts' com = ct_verify scts com

/-- The callback fails where it ought to: the list is short, or `SCT_validate` returned 1 for an
invalid entry, or there is nothing to fail for. -/
def Noticed (scts : List SCT) : Prop :=
  scts.length < 2 ∨ (∃ s ∈ scts, s.ret_validate = 1 ∧ invalid s = true) ∨ Transparent scts

/-! ## The counts -/

/-- An invalid entry that the loop sees. -/
def seen_invalid (s : SCT) : Bool :=
  s.ret_validate = 1 && invalid s

theorem count_sct_eq (l : sct_counts) (s : SCT) : count_sct l s =
    { res_ok := if seen_invalid s then -1 else if valid s && 0 ≤ l.res_ok then l.res_ok + 1
        else l.res_ok
      res_failed := l.res_failed + if valid s then 0 else 1 } := by
  obtain ⟨ret, res⟩ := s
  unfold count_sct seen_invalid valid invalid
  by_cases hret : ret = 1
  · cases res <;> simp [hret]
    split <;> rfl
  · simp [hret]

/-- The loop, in closed form. -/
theorem counts_eq (scts : List SCT) (l : sct_counts) (hl : -1 ≤ l.res_ok) :
    scts.foldl count_sct l =
      { res_ok := if l.res_ok < 0 ∨ scts.any seen_invalid then -1 else
          l.res_ok + scts.countP valid
        res_failed := l.res_failed + scts.countP fun s => !valid s } := by
  induction scts generalizing l with
  | nil =>
    obtain ⟨ok, failed⟩ := l
    simp only at hl
    by_cases hneg : ok < 0
    · have hok : ok = -1 := by omega
      simp [hok]
    · simp [hneg]
  | cons s rest ih =>
    have hsv : seen_invalid s = true → valid s = false := by
      unfold seen_invalid valid invalid
      simp only [Bool.and_eq_true, decide_eq_true_eq, Bool.and_eq_false_iff,
        decide_eq_false_iff_not]
      rintro ⟨-, hinv⟩
      exact Or.inr (by rw [hinv]; decide)
    rw [List.foldl_cons, count_sct_eq, ih _ (by dsimp only; split_ifs <;> omega)]
    rw [List.any_cons, List.countP_cons, List.countP_cons]
    congr 1
    · cases hs : seen_invalid s with
      | true => simp
      | false =>
        cases hv : valid s with
        | false => simp
        | true =>
          by_cases hneg : l.res_ok < 0
          · have hok : ¬ 0 ≤ l.res_ok := by omega
            simp [hneg, hok]
          · have hok : 0 ≤ l.res_ok := by omega
            have hnot : ¬ l.res_ok + 1 < 0 := by omega
            simp only [hok, hneg, hnot, decide_true, Bool.and_self, if_true, Bool.false_eq_true,
              if_false, false_or, Bool.false_or]
            split <;> omega
    · cases valid s with
      | true => simp
      | false => simp; omega

/-! ## The flags -/

@[simp] theorem extend_info_bitcheck (com : baseSSLCom) (v : vrf_other_values_t)
    (f : verify_status_t) : (extend_info com v).verify_bitcheck f = com.verify_bitcheck f := rfl

theorem announce_failed_bitcheck (n : Nat) (com : baseSSLCom) (f : verify_status_t) :
    (announce_failed n com).verify_bitcheck f =
      (decide (0 < n ∧ f = .VRF_CT_FAILED) || com.verify_bitcheck f) := by
  induction n generalizing com with
  | zero => simp [announce_failed]
  | succ n ih =>
    rw [announce_failed, ih]
    by_cases hf : f = .VRF_CT_FAILED
    · simp [hf]
    · simp [hf, Ne.symm hf]

/-- A list that is not accepted as it should be has lost its VRF_OK, and has got another flag, when
something was invalid or less than two entries are valid. -/
theorem judge_flags {l : sct_counts} (com : baseSSLCom) (h : l.res_ok < 2) :
    (judge_counts l com).2.verify_bitcheck .VRF_OK = false ∧
      ((judge_counts l com).2.verify_bitcheck .VRF_CT_FAILED = true ∨
        (judge_counts l com).2.verify_bitcheck .VRF_CT_MISSING = true) := by
  unfold judge_counts
  split
  · simp [announce_failed_bitcheck]
  · simp [announce_failed_bitcheck]

theorem judge_result (l : sct_counts) (com : baseSSLCom) :
    (judge_counts l com).1 = decide (0 ≤ l.res_ok) := by
  unfold judge_counts
  split
  next hneg => simp [hneg]
  next hneg =>
    have hok : 0 ≤ l.res_ok := by omega
    split <;> simp [hok]

/-! ## What is decided -/

section
variable {scts : List SCT} {com : baseSSLCom}

theorem ct_verify_long (h : ¬ scts.length < 2)
    (hno : com.opt.cert.failed_check_replacement = false) :
    ct_verify scts com = judge_counts (scts.foldl count_sct {}) com := by
  unfold ct_verify
  simp [h, hno]

theorem ct_verify_short (h : scts.length < 2)
    (hno : com.opt.cert.failed_check_replacement = false) :
    ct_verify scts com =
      (false, (com.verify_bitreset .VRF_OK).verify_bitset .VRF_CT_MISSING) := by
  unfold ct_verify
  simp [h, hno]

/-- A long list is accepted unless an invalid entry was seen. -/
theorem accepts_long (h : ¬ scts.length < 2)
    (hno : com.opt.cert.failed_check_replacement = false) :
    (ct_verify scts com).1 = true ↔ ∀ s ∈ scts, seen_invalid s = false := by
  rw [ct_verify_long h hno, judge_result, counts_eq scts {} (by decide)]
  have hany : scts.any seen_invalid = false ↔ ∀ s ∈ scts, seen_invalid s = false := by
    simp
  rw [← hany]
  cases scts.any seen_invalid <;> simp

/-- The counts do not depend on the order, and so nothing does. -/
theorem any_order {scts' : List SCT} (h : scts'.Perm scts) :
    ct_verify scts' com = ct_verify scts com := by
  unfold ct_verify
  have hany : scts'.any seen_invalid = scts.any seen_invalid := by
    rw [Bool.eq_iff_iff, List.any_eq_true, List.any_eq_true]
    simp [h.mem_iff]
  rw [counts_eq scts' {} (by decide), counts_eq scts {} (by decide), h.length_eq, h.countP_eq,
    h.countP_eq, hany]

theorem transparent_length (h : Transparent scts) : ¬ scts.length < 2 :=
  Nat.not_lt.mpr (h.1.trans List.countP_le_length)

theorem transparent_unseen (h : Transparent scts) : ∀ s ∈ scts, seen_invalid s = false := by
  intro s hs
  unfold seen_invalid
  rw [h.2 s hs, Bool.and_false]

theorem flagged_of_noticed (h : Noticed scts)
    (hno : com.opt.cert.failed_check_replacement = false) (hbad : ¬ Transparent scts) :
    (ct_verify scts com).2.verify_bitcheck .VRF_OK = false ∧
      ((ct_verify scts com).2.verify_bitcheck .VRF_CT_FAILED = true ∨
        (ct_verify scts com).2.verify_bitcheck .VRF_CT_MISSING = true) := by
  by_cases hshort : scts.length < 2
  · rw [ct_verify_short hshort hno]
    simp
  · rcases h with hlt | ⟨s, hs, hret, hinv⟩ | hgood
    · exact absurd hlt hshort
    · rw [ct_verify_long hshort hno]
      apply judge_flags
      have hany : scts.any seen_invalid = true :=
        List.any_eq_true.mpr ⟨s, hs, by simp [seen_invalid, hret, hinv]⟩
      rw [counts_eq scts {} (by decide)]
      simp [hany]
    · exact absurd hgood hbad

end

/-- The decision is right when, and only when, it notices that something is missing: the list is
short, or an entry for which `SCT_validate` returned 1 is invalid. -/
theorem lists_are_decided (scts : List SCT) (com : baseSSLCom)
    (hno : com.opt.cert.failed_check_replacement = false) :
    Decides scts com ↔ Noticed scts := by
  constructor
  · intro h
    by_cases hshort : scts.length < 2
    · exact Or.inl hshort
    · by_cases hseen : ∀ s ∈ scts, seen_invalid s = false
      · exact Or.inr (Or.inr (h.accepted.mp ((accepts_long hshort hno).mpr hseen)))
      · push Not at hseen
        obtain ⟨s, hs, hsome⟩ := hseen
        simp only [seen_invalid, ne_eq, Bool.not_eq_false, Bool.and_eq_true, decide_eq_true_eq]
          at hsome
        exact Or.inr (Or.inl ⟨s, hs, hsome⟩)
  · intro h
    refine ⟨⟨fun htrue => ?_, fun hgood => ?_⟩, flagged_of_noticed h hno, fun _ => any_order⟩
    · by_cases hshort : scts.length < 2
      · rw [ct_verify_short hshort hno] at htrue
        cases htrue
      · have hunseen := (accepts_long hshort hno).mp htrue
        rcases h with hlt | ⟨s, hs, hret, hinv⟩ | hgood
        · exact absurd hlt hshort
        · have hno' := hunseen s hs
          simp [seen_invalid, hret, hinv] at hno'
        · exact hgood
    · exact (accepts_long (transparent_length hgood) hno).mpr (transparent_unseen hgood)

/-- A connection without a replacement page. -/
def no_replacement : baseSSLCom where
  opt := { cert := { failed_check_replacement := false } }
  verify_status_ := verify_status_t.VRF_OK.val

theorem two_valid_entries_are_decided :
    Decides [⟨1, SCT_VALIDATION_STATUS_VALID⟩, ⟨1, SCT_VALIDATION_STATUS_VALID⟩] no_replacement :=
  (lists_are_decided _ no_replacement rfl).mpr (Or.inr (Or.inr ⟨by decide, by decide⟩))

/-- Two entries of unknown logs are accepted. -/
theorem unknown_logs_are_accepted :
    ¬ ∀ (scts : List SCT) (com : baseSSLCom), com.opt.cert.failed_check_replacement = false →
      Decides scts com := by
  intro hall
  have h := hall [⟨0, SCT_VALIDATION_STATUS_UNKNOWN_LOG⟩, ⟨0, SCT_VALIDATION_STATUS_UNKNOWN_LOG⟩]
    no_replacement rfl
  exact absurd (h.accepted.mp (by decide)).1 (by decide)

end socle.ct
