-- The integer types of C++: their limits, the conversions between them, and
-- what a comparison or an operation on two types does. Types of any whole
-- number of bytes, and `bool`.
import Mathlib.Algebra.Order.Group.Nat
import Mathlib.Data.PNat.Basic
import Mathlib.Tactic

namespace lib.cint

inductive IntType
  | bool
  | int (signed : Bool) (bytes : ℕ+)
deriving DecidableEq

namespace IntType

/-! ## Limits -/

def sizeof : IntType → ℕ
  | bool => 1
  | int _ n => n

def is_signed : IntType → Bool
  | bool => false
  | int s _ => s

/-- Half the values of a type of `n` bytes. -/
def half (n : ℕ+) : ℤ := 2 ^ (8 * n.val - 1)

def card : IntType → ℤ
  | bool => 2
  | int _ n => 2 * half n

def min : IntType → ℤ
  | int true n => -half n
  | _ => 0

def max (t : IntType) : ℤ := t.min + t.card - 1

/-- `t` represents `x`. -/
def Contains (t : IntType) (x : ℤ) : Prop := t.min ≤ x ∧ x ≤ t.max

instance (t : IntType) (x : ℤ) : Decidable (t.Contains x) := inferInstanceAs (Decidable (_ ∧ _))

/-- The values of a type. -/
abbrev Value (t : IntType) : Type := { x : ℤ // t.Contains x }

/-! ## Conversions -/

/-- `static_cast`: modulo the number of values, but `bool` is whether there is something. -/
def conv (t : IntType) (x : ℤ) : ℤ :=
  match t with
  | bool => if x = 0 then 0 else 1
  | int s n => (x - (int s n).min) % (int s n).card + (int s n).min

/-- The integer promotion: what `int` holds becomes an `int`. -/
def promoted : IntType → Bool × ℕ+
  | bool => (true, 4)
  | int s n => if n < 4 then (true, 4) else (s, n)

/-- `int` itself. -/
def plain_int : IntType := int true 4

/-- The type in which two promoted operands meet. -/
def meet : Bool × ℕ+ → Bool × ℕ+ → IntType
  | (true, m), (false, n) => if m ≤ n then int false n else int true m
  | (false, m), (true, n) => if n ≤ m then int false m else int true n
  | (s, m), (_, n) => int s (m ⊔ n)

/-- The usual arithmetic conversions. -/
def common (a b : IntType) : IntType := meet a.promoted b.promoted

/-! ## Operations -/

/-- `x < y`, where `x` is an `a` and `y` a `b`. -/
def lt (a b : IntType) (x y : ℤ) : Prop := (common a b).conv x < (common a b).conv y

instance (a b : IntType) (x y : ℤ) : Decidable (lt a b x y) := inferInstanceAs (Decidable (_ < _))

/-- `x <= y`, where `x` is an `a` and `y` a `b`. -/
def le (a b : IntType) (x y : ℤ) : Prop := (common a b).conv x ≤ (common a b).conv y

instance (a b : IntType) (x y : ℤ) : Decidable (le a b x y) := inferInstanceAs (Decidable (_ ≤ _))

/-- The result of an operation: unsigned types wrap, and the overflow of signed ones is undefined. -/
def result (t : IntType) (r : ℤ) : Option ℤ :=
  if t.is_signed ∧ ¬ t.Contains r then none else some (t.conv r)

def add (a b : IntType) (x y : ℤ) : Option ℤ :=
  (common a b).result ((common a b).conv x + (common a b).conv y)

def sub (a b : IntType) (x y : ℤ) : Option ℤ :=
  (common a b).result ((common a b).conv x - (common a b).conv y)

/-- `std::abs`, which exists for signed types from `int` on. -/
def std_abs (a : IntType) (x : ℤ) : Option ℤ :=
  (common a a).result |(common a a).conv x|

/-! ## Lemmas on limits -/

theorem half_pos (n : ℕ+) : 0 < half n := by
  unfold half
  positivity

theorem half_mono {m n : ℕ+} (h : m ≤ n) : half m ≤ half n := by
  have hle : m.val ≤ n.val := h
  exact pow_le_pow_right₀ (by decide) (by omega)

/-- More bytes hold all the values of fewer, and more. -/
theorem card_le_half {m n : ℕ+} (h : m < n) : 2 * half m ≤ half n := by
  have hlt : m.val < n.val := h
  have hpos := m.pos
  have hexp : 2 * (2 : ℤ) ^ (8 * m.val - 1) = 2 ^ (8 * m.val) := by
    rw [← pow_succ']
    congr 1
    omega
  unfold half
  rw [hexp]
  exact pow_le_pow_right₀ (by decide) (by omega)

theorem card_pos (t : IntType) : 0 < t.card := by
  cases t with
  | bool => decide
  | int s n =>
    have hpos := half_pos n
    simp only [card]
    omega

theorem min_nonpos (t : IntType) : t.min ≤ 0 := by
  unfold min
  split
  · have := half_pos ‹ℕ+›
    omega
  · exact le_refl 0

theorem min_of_unsigned {t : IntType} (h : t.is_signed = false) : t.min = 0 := by
  match t with
  | bool => rfl
  | int false n => rfl

theorem max_pos (t : IntType) : 0 < t.max := by
  match t with
  | bool => decide
  | int false n =>
    have := half_pos n
    simp only [max, min, card]
    omega
  | int true n =>
    have hhalf : half 1 ≤ half n := half_mono one_le
    have hone : half 1 = 128 := rfl
    simp only [max, min, card]
    omega

theorem contains_nonneg {t : IntType} {x : ℤ} (h : t.is_signed = false) (hx : t.Contains x) :
    0 ≤ x := by
  have hmin := hx.1
  rwa [min_of_unsigned h] at hmin

theorem contains_min (t : IntType) : t.Contains t.min := by
  have := t.min_nonpos
  have := t.max_pos
  exact ⟨le_refl _, by omega⟩

theorem contains_max (t : IntType) : t.Contains t.max := by
  have := t.min_nonpos
  have := t.max_pos
  exact ⟨by omega, le_refl _⟩

theorem contains_zero (t : IntType) : t.Contains 0 :=
  ⟨t.min_nonpos, t.max_pos.le⟩

/-! ## Lemmas on conversions -/

theorem contains_conv (t : IntType) (x : ℤ) : t.Contains (t.conv x) := by
  cases t with
  | bool =>
    simp only [conv]
    split
    · exact contains_zero bool
    · exact contains_max bool
  | int s n =>
    have hpos := card_pos (int s n)
    have hle := Int.emod_nonneg (x - (int s n).min) hpos.ne'
    have hlt := Int.emod_lt_of_pos (x - (int s n).min) hpos
    simp only [Contains, conv, max]
    omega

theorem conv_of_contains {t : IntType} {x : ℤ} (h : t.Contains x) : t.conv x = x := by
  obtain ⟨hmin, hmax⟩ := h
  cases t with
  | bool =>
    have hx : x = 0 ∨ x = 1 := by
      simp only [max, min, card] at hmin hmax
      omega
    rcases hx with rfl | rfl <;> rfl
  | int s n =>
    simp only [max] at hmax
    simp only [conv]
    rw [Int.emod_eq_of_lt (by omega) (by omega)]
    omega

/-- A type that does not have the negative numbers takes them at its upper end. -/
theorem conv_neg {n : ℕ+} {x : ℤ} (hx : x < 0) (hle : -(2 * half n) ≤ x) :
    (int false n).conv x = x + 2 * half n := by
  have hshift : x % (2 * half n) = x + 2 * half n := by
    rw [← Int.add_emod_right, Int.emod_eq_of_lt (by omega) (by omega)]
  simp only [conv, min, card, sub_zero, add_zero]
  exact hshift

theorem result_of_contains {t : IntType} {r : ℤ} (h : t.Contains r) : t.result r = some r := by
  unfold result
  rw [if_neg (fun hn => hn.2 h), conv_of_contains h]

/-- `a` has no values that `b` does not have. -/
def Within (a b : IntType) : Prop := b.min ≤ a.min ∧ a.max ≤ b.max

theorem Within.contains {a b : IntType} {x : ℤ} (h : a.Within b) (hx : a.Contains x) :
    b.Contains x :=
  ⟨h.1.trans hx.1, hx.2.trans h.2⟩

theorem Within.trans {a b c : IntType} (h : a.Within b) (h' : b.Within c) : a.Within c :=
  ⟨h'.1.trans h.1, h.2.trans h'.2⟩

theorem int_within (s : Bool) {m n : ℕ+} (h : m ≤ n) : (int s m).Within (int s n) := by
  have hhalf := half_mono h
  cases s <;> simp only [Within, max, min, card] <;> omega

theorem unsigned_within {m n : ℕ+} (h : m < n) : (int false m).Within (int true n) := by
  have hcard := card_le_half h
  have hpos := half_pos n
  simp only [Within, max, min, card]
  omega

theorem promoted_int (s : Bool) (n : ℕ+) :
    (int s n).promoted = if n < 4 then (true, 4) else (s, n) := rfl

/-- A promoted type is `int`, or that of the operand. -/
theorem promoted_cases (a : IntType) :
    (a.promoted = (true, 4) ∧ a.Within (int true 4)) ∨ a = int a.promoted.1 a.promoted.2 := by
  match a with
  | bool =>
    refine Or.inl ⟨rfl, ?_⟩
    have hhalf : half 1 ≤ half 4 := half_mono (by decide)
    have hone : half 1 = 128 := rfl
    simp only [Within, max, min, card]
    omega
  | int s n =>
    rw [promoted_int]
    by_cases h : n < 4
    · rw [if_pos h]
      refine Or.inl ⟨rfl, ?_⟩
      cases s with
      | true => exact int_within true h.le
      | false => exact unsigned_within h
    · rw [if_neg h]
      exact Or.inr rfl

theorem promoted_within (a : IntType) : a.Within (int a.promoted.1 a.promoted.2) := by
  rcases a.promoted_cases with ⟨hp, hwithin⟩ | ha
  · rwa [hp]
  · rw [← ha]
    exact ⟨le_refl _, le_refl _⟩

theorem unsigned_of_promoted {a : IntType} (h : a.promoted.1 = false) : a.is_signed = false := by
  rcases a.promoted_cases with ⟨hp, -⟩ | ha
  · rw [hp] at h
    exact absurd h (by decide)
  · rw [ha, h]
    rfl

/-- What a signed type does to a larger common type that is unsigned. -/
theorem meet_unsigned_of_signed {p q : Bool × ℕ+} (h : (meet p q).is_signed = false)
    (hp : p.1 = true) : meet p q = int q.1 q.2 := by
  obtain ⟨s, m⟩ := p
  obtain ⟨s', n⟩ := q
  obtain rfl : s = true := hp
  match s' with
  | false =>
    by_cases hmn : m ≤ n
    · rw [meet, if_pos hmn]
    · rw [meet, if_neg hmn] at h
      exact absurd h (by simp [is_signed])
  | true => exact absurd h (by simp [meet, is_signed])

theorem meet_comm (p q : Bool × ℕ+) : meet p q = meet q p := by
  obtain ⟨s, m⟩ := p
  obtain ⟨s', n⟩ := q
  cases s <;> cases s' <;> simp [meet, sup_comm]

theorem within_meet_of_signed {p q : Bool × ℕ+} (h : (meet p q).is_signed = true) :
    (int p.1 p.2).Within (meet p q) := by
  obtain ⟨s, m⟩ := p
  obtain ⟨s', n⟩ := q
  match s, s' with
  | false, false => exact absurd h (by simp [meet, is_signed])
  | false, true =>
    by_cases hmn : n ≤ m
    · rw [meet, if_pos hmn] at h
      exact absurd h (by simp [is_signed])
    · rw [meet, if_neg hmn]
      exact unsigned_within (not_le.mp hmn)
  | true, false =>
    by_cases hmn : m ≤ n
    · rw [meet, if_pos hmn] at h
      exact absurd h (by simp [is_signed])
    · rw [meet, if_neg hmn]
      exact int_within true (le_refl m)
  | true, true => exact int_within true le_sup_left

theorem meet_unsigned {p q : Bool × ℕ+} (h : (meet p q).is_signed = false) :
    ∃ n, meet p q = int false n ∧ (p.1 = false ∨ q.1 = false) ∧
      (int p.1 p.2).max ≤ (int false n).max ∧ -half n ≤ (int p.1 p.2).min := by
  obtain ⟨s, m⟩ := p
  obtain ⟨s', n⟩ := q
  have hm := half_pos m
  match s, s' with
  | false, false =>
    have hhalf : half m ≤ half (m ⊔ n) := half_mono le_sup_left
    refine ⟨m ⊔ n, rfl, Or.inl rfl, ?_, ?_⟩ <;> simp only [max, min, card] <;> omega
  | false, true =>
    by_cases hmn : n ≤ m
    · rw [meet, if_pos hmn]
      refine ⟨m, rfl, Or.inl rfl, le_refl _, ?_⟩
      simp only [min]
      omega
    · rw [meet, if_neg hmn] at h
      exact absurd h (by simp [is_signed])
  | true, false =>
    by_cases hmn : m ≤ n
    · rw [meet, if_pos hmn]
      have hhalf := half_mono hmn
      refine ⟨n, rfl, Or.inr rfl, ?_, ?_⟩ <;> simp only [max, min, card] <;> omega
    · rw [meet, if_neg hmn] at h
      exact absurd h (by simp [is_signed])
  | true, true => exact absurd h (by simp [meet, is_signed])

/-- The common type of a type and itself is its promotion. -/
theorem meet_self (p : Bool × ℕ+) : meet p p = int p.1 p.2 := by
  obtain ⟨s, m⟩ := p
  cases s <;> simp [meet]

/-- What promotion does to a type. -/
theorem common_self_cases (a : IntType) :
    (a.sizeof < 4 ∧ common a a = int true 4) ∨ (4 ≤ a.sizeof ∧ common a a = a) := by
  unfold common
  rw [meet_self]
  match a with
  | bool => exact Or.inl ⟨by decide, rfl⟩
  | int s n =>
    rw [promoted_int]
    by_cases h : n < 4
    · rw [if_pos h]
      exact Or.inl ⟨h, rfl⟩
    · rw [if_neg h]
      exact Or.inr ⟨not_lt.mp h, rfl⟩

theorem common_comm (a b : IntType) : common a b = common b a := meet_comm _ _

/-- Where the common type is signed, it has the values of both. -/
theorem within_common {a b : IntType} (h : (common a b).is_signed = true) :
    a.Within (common a b) :=
  a.promoted_within.trans (within_meet_of_signed h)

/-- Where it is unsigned, one of the operands is, and it has as many values as the other. -/
theorem common_unsigned {a b : IntType} (h : (common a b).is_signed = false) :
    ∃ n, common a b = int false n ∧ (a.is_signed = false ∨ b.is_signed = false) ∧
      a.max ≤ (int false n).max ∧ -half n ≤ a.min := by
  obtain ⟨hmin, hmax⟩ := a.promoted_within
  obtain ⟨n, heq, hside, hle, hge⟩ := meet_unsigned h
  refine ⟨n, heq, ?_, hmax.trans hle, hge.trans hmin⟩
  exact hside.imp unsigned_of_promoted unsigned_of_promoted

/-- A signed operand meets an unsigned common type only when that is the other operand's. -/
theorem common_eq_of_signed {a b : IntType} (h : (common a b).is_signed = false)
    (ha : a.is_signed = true) : common a b = b := by
  have hp : a.promoted.1 = true := by
    cases hp : a.promoted.1 with
    | true => rfl
    | false => exact absurd (unsigned_of_promoted hp) (by rw [ha]; decide)
  have heq : common a b = int b.promoted.1 b.promoted.2 := meet_unsigned_of_signed h hp
  rcases b.promoted_cases with ⟨hb, -⟩ | hb
  · rw [heq, hb] at h
    exact absurd h (by decide)
  · rw [heq, ← hb]

/-- What is not negative keeps its value in the common type. -/
theorem common_contains {a b : IntType} {x : ℤ} (hx : 0 ≤ x) (ha : a.Contains x) :
    (common a b).Contains x := by
  cases h : (common a b).is_signed with
  | true => exact (within_common h).contains ha
  | false =>
    obtain ⟨n, heq, -, hmax, -⟩ := common_unsigned h
    rw [heq]
    exact ⟨hx, ha.2.trans hmax⟩

/-- Operands of one signedness keep their values. -/
theorem common_contains_of_same {a b : IntType} {x : ℤ} (h : a.is_signed = b.is_signed)
    (ha : a.Contains x) : (common a b).Contains x := by
  cases hc : (common a b).is_signed with
  | true => exact (within_common hc).contains ha
  | false =>
    obtain ⟨-, -, hside, -⟩ := common_unsigned hc
    have hu : a.is_signed = false := hside.elim id fun hb => h.trans hb
    exact common_contains (contains_nonneg hu ha) ha

theorem common_of_signed {a b : IntType} (ha : a.is_signed = true) (hb : b.is_signed = true) :
    (common a b).is_signed = true := by
  cases h : (common a b).is_signed with
  | true => rfl
  | false =>
    obtain ⟨-, -, hside, -⟩ := common_unsigned h
    rw [ha, hb] at hside
    exact absurd hside (by decide)

theorem common_contains_right {a b : IntType} {y : ℤ} (hy : 0 ≤ y) (hb : b.Contains y) :
    (common a b).Contains y := by
  rw [common_comm]
  exact common_contains hy hb

/-- A type next to its own promotion keeps its values. -/
theorem promotion_contains {a : IntType} {x : ℤ} (hx : a.Contains x) :
    (common (common a a) a).Contains x := by
  cases h : (common (common a a) a).is_signed with
  | true =>
    rw [common_comm] at h ⊢
    exact (within_common h).contains hx
  | false =>
    obtain ⟨-, -, hside, -⟩ := common_unsigned h
    have hu : a.is_signed = false := by
      rcases hside with hp | ha
      · obtain ⟨-, -, hside', -⟩ := common_unsigned hp
        exact hside'.elim id id
      · exact ha
    exact common_contains_right (contains_nonneg hu hx) hx

theorem max_of_signed {a : IntType} (h : a.is_signed = true) : a.max = -a.min - 1 := by
  match a with
  | int true n =>
    simp only [max, min, card]
    omega

/-! ## Comparisons -/

/-- A comparison is right where the common type has both numbers. -/
theorem lt_iff {a b : IntType} {x y : ℤ} (hx : (common a b).Contains x)
    (hy : (common a b).Contains y) : lt a b x y ↔ x < y := by
  unfold lt
  rw [conv_of_contains hx, conv_of_contains hy]

theorem le_iff {a b : IntType} {x y : ℤ} (hx : (common a b).Contains x)
    (hy : (common a b).Contains y) : le a b x y ↔ x ≤ y := by
  unfold le
  rw [conv_of_contains hx, conv_of_contains hy]

/-! ## Operations -/

/-- A sum that the common type has. -/
theorem add_of_contains {a b : IntType} {x y : ℤ} (hx : (common a b).Contains x)
    (hy : (common a b).Contains y) (h : (common a b).Contains (x + y)) :
    add a b x y = some (x + y) := by
  unfold add
  rw [conv_of_contains hx, conv_of_contains hy, result_of_contains h]

theorem sub_of_contains {a b : IntType} {x y : ℤ} (hx : (common a b).Contains x)
    (hy : (common a b).Contains y) (h : (common a b).Contains (x - y)) :
    sub a b x y = some (x - y) := by
  unfold sub
  rw [conv_of_contains hx, conv_of_contains hy, result_of_contains h]

theorem result_of_overflow {t : IntType} {r : ℤ} (ht : t.is_signed = true) (h : ¬ t.Contains r) :
    t.result r = none :=
  if_pos ⟨ht, h⟩

end IntType

end lib.cint
