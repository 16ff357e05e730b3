-- Sums in one's complement: a carry comes back at the low end of the word. `m` is
-- the word with all ones. It does not matter whether each addition wraps its
-- carry, or one loop at the end wraps them all.
import Mathlib.Data.Nat.ModEq
import Socle.Lib.Bytes

namespace lib.ones

variable {m r r' n w : Nat}

/-- What is above the word is added at its low end. -/
def wrap (m n : Nat) : Nat :=
  n % (m + 1) + n / (m + 1)

def add (m x y : Nat) : Nat :=
  wrap m (x + y)

def sum (m : Nat) (ws : List Nat) : Nat :=
  ws.foldl (add m) 0

/-! ## One carry -/

theorem wrap_modEq (m n : Nat) : wrap m n ≡ n [MOD m] := by
  have hdiv := Nat.mod_add_div n (m + 1)
  have hsplit : n = wrap m n + m * (n / (m + 1)) := by
    unfold wrap
    rw [Nat.add_mul, Nat.one_mul] at hdiv
    omega
  have hmul : wrap m n + m * (n / (m + 1)) ≡ wrap m n + 0 [MOD m] := by
    apply Nat.ModEq.add_left
    exact Nat.mul_mod_right m _
  rw [Nat.add_zero, ← hsplit] at hmul
  exact hmul.symm

theorem wrap_eq_zero : wrap m n = 0 ↔ n = 0 := by
  unfold wrap
  constructor
  · intro h
    have hdiv := Nat.mod_add_div n (m + 1)
    obtain ⟨hmod0, hdiv0⟩ := Nat.add_eq_zero_iff.mp h
    rw [hmod0, hdiv0, Nat.mul_zero] at hdiv
    exact hdiv.symm
  · rintro rfl
    simp

/-- The sum of two words has at most one carry. -/
theorem wrap_le (h : n ≤ 2 * m) : wrap m n ≤ m := by
  unfold wrap
  rcases Nat.lt_or_ge m n with hlt | hle
  · have hdiv : n / (m + 1) = 1 := Nat.div_eq_of_lt_le (by omega) (by omega)
    have hmod := Nat.mod_add_div n (m + 1)
    rw [hdiv, Nat.mul_one] at hmod
    omega
  · rw [Nat.mod_eq_of_lt (by omega), Nat.div_eq_of_lt (by omega)]
    omega

theorem wrap_lt (hm : 0 < m) (h : m < n) : wrap m n < n := by
  have hdiv := Nat.mod_add_div n (m + 1)
  have hpos : 0 < n / (m + 1) := Nat.div_pos h (Nat.succ_pos m)
  have hmul : 0 < m * (n / (m + 1)) := Nat.mul_pos hm hpos
  rw [Nat.add_mul, Nat.one_mul] at hdiv
  unfold wrap
  omega

/-- The loop that wraps carries until there is none. -/
def carry (m n : Nat) : Nat :=
  if 0 < m ∧ m < n then carry m (wrap m n) else n
termination_by n
decreasing_by exact wrap_lt ‹0 < m ∧ m < n›.1 ‹0 < m ∧ m < n›.2

/-! ## What a word stands for -/

/-- The word `r` stands for the number `n`. Both words that are 0 modulo `m` occur: only the number
0 gives the word 0, and all others give `m`. -/
structure Represents (m r n : Nat) : Prop where
  le : r ≤ m
  mod : r ≡ n [MOD m]
  zero : r = 0 ↔ n = 0

theorem Represents.unique (h : Represents m r n) (h' : Represents m r' n) : r = r' := by
  have hmod : r ≡ r' [MOD m] := h.mod.trans h'.mod.symm
  have hzero : r = 0 ↔ r' = 0 := h.zero.trans h'.zero.symm
  have hle := h.le
  have hle' := h'.le
  by_cases h0 : r = 0
  · rw [h0, hzero.mp h0]
  · have h0' : r' ≠ 0 := fun heq => h0 (hzero.mpr heq)
    -- both are between 1 and `m`, so one below they are residues
    have hpred : r - 1 ≡ r' - 1 [MOD m] := by
      apply Nat.ModEq.add_right_cancel' 1
      rw [Nat.sub_add_cancel (by omega), Nat.sub_add_cancel (by omega)]
      exact hmod
    have heq := Nat.ModEq.eq_of_lt_of_lt hpred (by omega) (by omega)
    omega

/-- The word with all ones stands for the multiples of `m`, except 0. -/
theorem Represents.eq_iff_dvd (h : Represents m r n) (hm : 0 < m) : r = m ↔ n ≠ 0 ∧ m ∣ n := by
  constructor
  · rintro rfl
    refine ⟨fun h0 => hm.ne' (h.zero.mpr h0), ?_⟩
    exact (Nat.modEq_zero_iff_dvd).mp (h.mod.symm.trans (Nat.mod_self r))
  · rintro ⟨hne, hdvd⟩
    have hm' : Represents m m n := by
      refine ⟨Nat.le_refl m, ?_, ?_⟩
      · exact (Nat.mod_self m).trans (Nat.modEq_zero_iff_dvd.mpr hdvd).symm
      · exact iff_of_false hm.ne' hne
    exact h.unique hm'

theorem Represents.add (h : Represents m r n) (hw : w ≤ m) :
    Represents m (add m r w) (n + w) := by
  have hle := h.le
  unfold ones.add
  refine ⟨wrap_le (by omega), ?_, ?_⟩
  · exact (wrap_modEq m (r + w)).trans (h.mod.add_right w)
  · have hzero := h.zero
    rw [wrap_eq_zero]
    omega

theorem represents_foldl (h : Represents m r n) {ws : List Nat} (hws : ∀ w ∈ ws, w ≤ m) :
    Represents m (ws.foldl (ones.add m) r) (n + ws.sum) := by
  induction ws generalizing r n with
  | nil => exact h
  | cons w ws ih =>
    obtain ⟨hw, hrest⟩ := List.forall_mem_cons.mp hws
    rw [List.foldl_cons, List.sum_cons, ← Nat.add_assoc]
    exact ih (h.add hw) hrest

theorem represents_sum {ws : List Nat} (hws : ∀ w ∈ ws, w ≤ m) :
    Represents m (sum m ws) ws.sum := by
  have hstart : Represents m 0 0 := ⟨Nat.zero_le m, rfl, Iff.rfl⟩
  have h := represents_foldl hstart hws
  rw [Nat.zero_add] at h
  exact h

theorem represents_carry (hm : 0 < m) (n : Nat) : Represents m (carry m n) n := by
  fun_induction carry m n with
  | case1 n h ih => exact ⟨ih.le, ih.mod.trans (wrap_modEq m n), ih.zero.trans wrap_eq_zero⟩
  | case2 n h => exact ⟨by omega, rfl, Iff.rfl⟩

/-! ## Checksums -/

/-- The complement of what the words sum up to fills the sum with ones. -/
theorem sum_complement (hm : 0 < m) {ws : List Nat} (hws : ∀ w ∈ ws, w ≤ m)
    (h : ws.sum = n + (m - carry m n)) : sum m ws = m := by
  rw [(represents_sum hws).eq_iff_dvd hm, h]
  have hcarry := represents_carry hm n
  have hle := hcarry.le
  have hzero := hcarry.zero
  refine ⟨by omega, ?_⟩
  apply Nat.modEq_zero_iff_dvd.mp
  calc n + (m - carry m n)
      ≡ carry m n + (m - carry m n) [MOD m] := (hcarry.mod.symm).add_right _
    _ = m := Nat.add_sub_cancel' hle
    _ ≡ 0 [MOD m] := Nat.mod_self m

/-! ## Words of bytes -/

open lib.bytes

/-- The words of two bytes, in network order. A last byte that has no partner is left out. -/
def words : List UInt8 → List Nat
  | hi :: lo :: rest => be16 hi lo :: words rest
  | _ => []

/-- The words added up, with no carry. -/
def total (l : List UInt8) : Nat :=
  (words l).sum

variable {l l' : List UInt8}

theorem words_append (h : l.length % 2 = 0) : words (l ++ l') = words l ++ words l' := by
  fun_induction words l with
  | case1 hi lo rest ih =>
    simp only [List.length_cons] at h
    simp only [List.cons_append, words]
    rw [ih (by omega)]
  | case2 l hl =>
    match l, hl with
    | [], _ => simp
    | [_], _ => simp at h
    | _ :: _ :: _, hl => exact absurd rfl (hl _ _ _)

theorem total_append (h : l.length % 2 = 0) : total (l ++ l') = total l + total l' := by
  unfold total
  rw [words_append h, List.sum_append]

theorem words_le : ∀ w ∈ words l, w ≤ 65535 := by
  fun_induction words l with
  | case1 hi lo rest ih =>
    have hlt := be16_lt hi lo
    exact List.forall_mem_cons.mpr ⟨by omega, ih⟩
  | case2 => simp

theorem total_le (l : List UInt8) : total l ≤ 65535 * (l.length / 2) := by
  unfold total
  fun_induction words l with
  | case1 hi lo rest ih =>
    have hlt := be16_lt hi lo
    simp only [List.sum_cons, List.length_cons]
    omega
  | case2 => simp

@[simp] theorem total_nil : total [] = 0 := rfl

@[simp] theorem total_pair (hi lo : UInt8) : total [hi, lo] = be16 hi lo := by
  simp [total, words]

theorem total_u16 (h : n < 65536) : total (u16 n) = n := by
  unfold u16
  rw [total_pair, be16_u16 h]

/-- Where an even number of bytes stands in front, a field of 0 is the summand that it gets. -/
theorem total_field (hl : l.length % 2 = 0) (h : n < 65536) :
    total (l ++ u16 n ++ l') = total (l ++ u16 0 ++ l') + n := by
  have heven : ∀ k, (l ++ u16 k).length % 2 = 0 := by
    intro k
    rw [List.length_append, u16_length]
    omega
  rw [total_append (heven n), total_append (heven 0), total_append hl, total_append hl,
    total_u16 h, total_u16 (by omega)]
  omega

end lib.ones
