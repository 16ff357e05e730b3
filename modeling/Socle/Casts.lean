-- The casts between integer types (convert.hpp). A cast gives the number in the
-- other type, or nothing when the type does not have it; the `try_` variants
-- throw. The law is for all pairs of types for which a cast compiles.
import Socle.Lib.CInt

namespace socle.raw

open lib.cint lib.cint.IntType

/-! ## Casts -/

inductive cast_overflow
  | out_of_bounds
  | negative

/-- `static_cast<T>`. -/
def static_cast (T : IntType) (x : ℤ) : Value T := ⟨T.conv x, contains_conv T x⟩

def down_cast (T : IntType) {U : IntType} (u : Option (Value U)) : Option (Value T) :=
  match u with
  | none => none
  | some u =>
    if lt T U T.max u.val ∨ lt U T u.val T.min then none else some (static_cast T u.val)

def try_down_cast (T : IntType) {U : IntType} (u : Value U) : Except cast_overflow (Value T) :=
  if lt T U T.max u.val ∨ lt U T u.val T.min then .error .out_of_bounds
  else .ok (static_cast T u.val)

/-- `to_signed_cast`. The outer `none` is an overflow of signed operands, which is undefined. -/
def to_signed_cast (T : IntType) {U : IntType} (u : Option (Value U)) :
    Option (Option (Value T)) :=
  match u with
  | none => some none
  | some u =>
    if le U T u.val T.max then some (some (static_cast T u.val))
    else if le T U T.min u.val then
      (sub U T u.val T.min).bind fun d =>
        (add T T (static_cast T d).val T.min).map fun r => some (static_cast T r)
    else some none

def from_signed_cast (T : IntType) {U : IntType} (u : Option (Value U)) : Option (Value T) :=
  match u with
  | none => none
  | some u => if le U U (static_cast U 0).val u.val then some (static_cast T u.val) else none

def try_from_signed_cast (T : IntType) {U : IntType} (u : Value U) :
    Except cast_overflow (Option (Value T)) :=
  if le U U (static_cast U 0).val u.val then .ok (some (static_cast T u.val))
  else .error .negative

/-- `std::make_unsigned_t`. -/
def make_unsigned : IntType → IntType
  | .bool => .bool
  | .int _ n => .int false n

/-- `std::make_signed_t`. -/
def make_signed : IntType → IntType
  | .bool => .bool
  | .int _ n => .int true n

def sign_remove {U : IntType} (u : Value U) : Option (Value (make_unsigned U)) :=
  from_signed_cast (make_unsigned U) (some u)

def try_sign_remove {U : IntType} (u : Value U) :
    Except cast_overflow (Option (Value (make_unsigned U))) :=
  try_from_signed_cast (make_unsigned U) u

def sign_add {U : IntType} (u : Value U) : Option (Option (Value (make_signed U))) :=
  to_signed_cast (make_signed U) (some u)

def down_cast_signed (T : IntType) {U : IntType} (u : Value U) : Option (Value T) :=
  down_cast T (sign_remove u)

/-! ## The law -/

/-- The casts from `U` to `T` that compile. `try_to_signed_cast`, `try_sign_add` and
`try_down_cast_signed` do so for no types. -/
inductive Cast : IntType → IntType → Type
  | down_cast {T U} (same : T.is_signed = U.is_signed) : Cast T U
  | try_down_cast {T U} : Cast T U
  | to_signed_cast {T U} : Cast T U
  | from_signed_cast {T U} (signed : U.is_signed = true) (size : U.sizeof ≤ T.sizeof) : Cast T U
  | try_from_signed_cast {T U} (signed : U.is_signed = true) (size : U.sizeof ≤ T.sizeof) :
      Cast T U
  | sign_remove {U} (signed : U.is_signed = true) : Cast (make_unsigned U) U
  | try_sign_remove {U} (signed : U.is_signed = true) : Cast (make_unsigned U) U
  | sign_add {U} (unsigned : U.is_signed = false) (int : U ≠ .bool) : Cast (make_signed U) U
  | down_cast_signed {T U} (signed : U.is_signed = true) (unsigned : T.is_signed = false) : Cast T U

/-- How a cast ends. -/
inductive Outcome (T : IntType)
  | returns (r : Option (Value T))
  | throws
  | undefined
deriving DecidableEq

def Outcome.of_option {T : IntType} : Option (Option (Value T)) → Outcome T
  | some r => .returns r
  | none => .undefined

def Outcome.of_except {T : IntType} : Except cast_overflow (Option (Value T)) → Outcome T
  | .ok r => .returns r
  | .error _ => .throws

namespace Cast

variable {T U : IntType}

def run : Cast T U → Value U → Outcome T
  | .down_cast _, u => .returns (raw.down_cast T (some u))
  | .try_down_cast, u => .of_except ((raw.try_down_cast T u).map some)
  | .to_signed_cast, u => .of_option (raw.to_signed_cast T (some u))
  | .from_signed_cast _ _, u => .returns (raw.from_signed_cast T (some u))
  | .try_from_signed_cast _ _, u => .of_except (raw.try_from_signed_cast T u)
  | .sign_remove _, u => .returns (raw.sign_remove u)
  | .try_sign_remove _, u => .of_except (raw.try_sign_remove u)
  | .sign_add _ _, u => .of_option (raw.sign_add u)
  | .down_cast_signed _ _, u => .returns (raw.down_cast_signed T u)

/-- The variants that throw. -/
def is_try : Cast T U → Bool
  | .try_down_cast => true
  | .try_from_signed_cast _ _ => true
  | .try_sign_remove _ => true
  | _ => false

/-- The number in the type `T`, when `T` has it. -/
def represent (T : IntType) (x : ℤ) : Option (Value T) :=
  if h : T.Contains x then some ⟨x, h⟩ else none

/-- What the cast of `u` is to give. -/
def exact (c : Cast T U) (u : Value U) : Outcome T :=
  match represent T u.val with
  | some v => .returns (some v)
  | none => if c.is_try then .throws else .returns none

/-- When a cast gives that. Where a signed and an unsigned type meet in an unsigned one, a negative
number counts as a large one there. -/
def Exact : Cast T U → Value U → Prop
  | .try_down_cast, u => (common U T).is_signed = true ∨ T.is_signed = U.is_signed ∨
      if T.is_signed then T.max < u.val else 0 ≤ u.val
  | .to_signed_cast, u => T.Contains u.val ∨
      (T.is_signed = true ∧ (common U T).is_signed = false ∧ u.val < (common U T).card + T.min)
  | .from_signed_cast _ _, u => (T.is_signed = true → 0 ≤ u.val) ∧ (T = .bool → u.val ≤ 1)
  | .try_from_signed_cast _ _, u => (T.is_signed = true → 0 ≤ u.val) ∧ (T = .bool → u.val ≤ 1)
  | .sign_add _ _, u => (make_signed U).Contains u.val
  | _, _ => True

/-! ## The bounds of the target -/

theorem represent_of_contains {x : ℤ} (h : T.Contains x) : represent T x = some ⟨x, h⟩ :=
  dif_pos h

theorem represent_eq_none {x : ℤ} : represent T x = none ↔ ¬ T.Contains x := by
  unfold represent
  split <;> simp [*]

theorem static_cast_of_contains {x : ℤ} (h : T.Contains x) : static_cast T x = ⟨x, h⟩ :=
  Subtype.ext (conv_of_contains h)

/-- `u` is outside the limits of `T`, as the casts down see it. -/
def Outside (T U : IntType) (u : ℤ) : Prop := lt T U T.max u ∨ lt U T u T.min

instance (T U : IntType) (u : ℤ) : Decidable (Outside T U u) := inferInstanceAs (Decidable (_ ∨ _))

theorem outside_iff {u : ℤ} (hu : (common U T).Contains u) (hmin : (common U T).Contains T.min) :
    Outside T U u ↔ ¬ T.Contains u := by
  have hmax : (common U T).Contains T.max := by
    rw [common_comm]
    exact common_contains T.max_pos.le T.contains_max
  unfold Outside Contains
  rw [lt_iff hu hmin, lt_iff (by rwa [common_comm]) (by rwa [common_comm])]
  omega

/-- The limits are right where both operands keep their value. -/
theorem outside_of_kept {u : Value U}
    (h : (common U T).is_signed = true ∨ T.is_signed = U.is_signed) :
    Outside T U u.val ↔ ¬ T.Contains u.val := by
  rcases h with h | h
  · apply outside_iff
    · exact (within_common h).contains u.property
    · rw [common_comm]
      rw [common_comm] at h
      exact (within_common h).contains T.contains_min
  · apply outside_iff
    · exact common_contains_of_same h.symm u.property
    · rw [common_comm]
      exact common_contains_of_same h T.contains_min

/-- A signed target meets a larger unsigned operand: each operand is outside. -/
theorem outside_of_signed {u : Value U} (hT : T.is_signed = true)
    (hC : (common U T).is_signed = false) : Outside T U u.val := by
  have hC' : (common T U).is_signed = false := by rwa [common_comm]
  obtain ⟨n, heq, hside, -, hmin⟩ := common_unsigned hC'
  have hU : U.is_signed = false := hside.resolve_left (by rw [hT]; decide)
  have hu : 0 ≤ u.val := contains_nonneg hU u.property
  unfold Outside
  rw [lt_iff (common_contains T.max_pos.le T.contains_max)
    (by rw [common_comm]; exact common_contains hu u.property)]
  by_cases hlt : T.max < u.val
  · exact Or.inl hlt
  · right
    have hmax := max_of_signed hT
    have hpos := T.max_pos
    have hhalf := half_pos n
    unfold lt
    rw [conv_of_contains (common_contains hu u.property), common_comm, heq,
      conv_neg (by omega) (by omega)]
    omega

/-- An unsigned target meets a negative operand that is no larger: nothing is outside. -/
theorem not_outside_of_unsigned {u : Value U} (hT : T.is_signed = false) (hU : U.is_signed = true)
    (hC : (common U T).is_signed = false) : ¬ Outside T U u.val := by
  have heq := common_eq_of_signed hC hU
  have hmin := min_of_unsigned hT
  have hcontains := T.contains_conv u.val
  unfold Outside lt
  rw [common_comm T U, heq, conv_of_contains T.contains_max, conv_of_contains T.contains_min]
  have hle := hcontains.1
  have hge := hcontains.2
  omega

/-! ## The casts down -/

theorem down_cast_eq (h : T.is_signed = U.is_signed) (u : Value U) :
    raw.down_cast T (some u) = represent T u.val := by
  have hout := outside_of_kept (T := T) (u := u) (Or.inr h)
  show (if Outside T U u.val then none else some (static_cast T u.val)) = _
  by_cases hu : T.Contains u.val
  · rw [if_neg (by rwa [hout, not_not]), represent_of_contains hu, static_cast_of_contains hu]
  · rw [if_pos (hout.mpr hu), represent_eq_none.mpr hu]

/-- `try_down_cast` is right where it throws for exactly what `T` does not have. -/
theorem try_down_cast_iff (u : Value U) :
    (Cast.try_down_cast : Cast T U).run u = Cast.try_down_cast.exact u ↔
      (Outside T U u.val ↔ ¬ T.Contains u.val) := by
  show Outcome.of_except (Except.map some
    (if Outside T U u.val then .error .out_of_bounds else .ok (static_cast T u.val))) = _ ↔ _
  unfold exact
  by_cases hu : T.Contains u.val
  · rw [represent_of_contains hu]
    by_cases hout : Outside T U u.val
    · simp [hout, hu, Outcome.of_except, Except.map]
    · simp [hout, hu, Outcome.of_except, Except.map, static_cast_of_contains hu]
  · rw [represent_eq_none.mpr hu]
    by_cases hout : Outside T U u.val
    · simp [hout, hu, Outcome.of_except, Except.map, is_try]
    · simp [hout, hu, Outcome.of_except, Except.map, is_try]

theorem try_down_cast_exact (u : Value U) :
    (Outside T U u.val ↔ ¬ T.Contains u.val) ↔ (Cast.try_down_cast : Cast T U).Exact u := by
  unfold Exact
  by_cases hkept : (common U T).is_signed = true ∨ T.is_signed = U.is_signed
  · exact iff_of_true (outside_of_kept hkept) (hkept.imp id Or.inl)
  · push Not at hkept
    obtain ⟨hC, hne⟩ := hkept
    have hC : (common U T).is_signed = false := by simpa using hC
    simp only [hC, hne, false_or, Bool.false_eq_true]
    cases hT : T.is_signed with
    | true =>
      have hU : U.is_signed = false := by
        rw [hT] at hne
        simpa using hne.symm
      have hu := contains_nonneg hU u.property
      have hmin := T.min_nonpos
      rw [iff_true_left (outside_of_signed hT hC)]
      unfold Contains
      simp only [if_true]
      omega
    | false =>
      have hU : U.is_signed = true := by
        rw [hT] at hne
        simpa using hne.symm
      rw [iff_false_left (not_outside_of_unsigned hT hU hC), not_not]
      have hmax : u.val ≤ T.max := by
        have heq := common_eq_of_signed hC hU
        obtain ⟨n, hn, -, hle, -⟩ := common_unsigned hC
        rw [← hn, heq] at hle
        exact u.property.2.trans hle
      unfold Contains
      rw [min_of_unsigned hT]
      simp [hmax]

/-! ## Casts that add a sign -/

/-- The bound above is right for each operand that `T` has. -/
theorem le_max_of_contains {u : Value U} (hu : T.Contains u.val) : le U T u.val T.max := by
  have hmax : (common U T).Contains T.max := by
    rw [common_comm]
    exact common_contains T.max_pos.le T.contains_max
  cases hC : (common U T).is_signed with
  | true =>
    rw [le_iff ((within_common hC).contains u.property) hmax]
    exact hu.2
  | false =>
    obtain ⟨-, -, hside, -⟩ := common_unsigned hC
    have hpos : 0 ≤ u.val := hside.elim (fun hU => contains_nonneg hU u.property)
      fun hT => contains_nonneg hT hu
    rw [le_iff (common_contains hpos u.property) hmax]
    exact hu.2

/-- `nullopt` comes out when `u` passes neither bound. -/
theorem to_signed_cast_eq_none (u : Value U) :
    Outcome.of_option (raw.to_signed_cast T (some u)) = .returns none ↔
      ¬ le U T u.val T.max ∧ ¬ le T U T.min u.val := by
  unfold raw.to_signed_cast
  by_cases hmax : le U T u.val T.max
  · simp [hmax, Outcome.of_option]
  · by_cases hmin : le T U T.min u.val
    · simp only [hmax, hmin, if_false, if_true, not_true, and_false, iff_false]
      intro h
      cases hd : sub U T u.val T.min with
      | none => simp [hd, Outcome.of_option] at h
      | some d =>
        cases hr : add T T (static_cast T d).val T.min with
        | none => simp [hd, hr, Outcome.of_option] at h
        | some r => simp [hd, hr, Outcome.of_option] at h
    · simp [hmax, hmin, Outcome.of_option]

/-- The bounds that a number misses which `T` does not have. -/
theorem misses_iff {u : Value U} (hu : ¬ T.Contains u.val) :
    (¬ le U T u.val T.max ∧ ¬ le T U T.min u.val) ↔
      T.is_signed = true ∧ (common U T).is_signed = false ∧
        u.val < (common U T).card + T.min := by
  have hmax : (common U T).Contains T.max := by
    rw [common_comm]
    exact common_contains T.max_pos.le T.contains_max
  cases hC : (common U T).is_signed with
  | true =>
    -- Both comparisons are right, and no number is below one bound and above the other.
    have hu' := (within_common hC).contains u.property
    have hmin : (common T U).Contains T.min := by
      rw [common_comm] at hC
      exact (within_common hC).contains T.contains_min
    rw [le_iff hu' hmax, le_iff hmin (by rwa [common_comm])]
    have hlt : T.min < T.max := by
      have := T.min_nonpos
      have := T.max_pos
      omega
    constructor
    · rintro ⟨h1, h2⟩
      omega
    · rintro ⟨-, h, -⟩
      exact absurd h (by decide)
  | false =>
    cases hT : T.is_signed with
    | true =>
      have hC' : (common T U).is_signed = false := by rwa [common_comm]
      obtain ⟨n, heq, hside, -, hmin⟩ := common_unsigned hC'
      have hU : U.is_signed = false := hside.resolve_left (by rw [hT]; decide)
      have hpos : 0 ≤ u.val := contains_nonneg hU u.property
      have hu' := common_contains (b := T) hpos u.property
      have hhalf := half_pos n
      have hneg := max_of_signed hT
      have hlarge := T.max_pos
      have hmin' : (common T U).conv T.min = T.min + 2 * half n := by
        rw [heq, conv_neg (by omega) (by omega)]
      have hcard : (common U T).card = 2 * half n := by
        rw [common_comm, heq]
        rfl
      have hover : T.max < u.val := by
        unfold Contains at hu
        omega
      rw [le_iff hu' hmax, hcard]
      unfold le
      rw [hmin', common_comm, conv_of_contains hu']
      constructor
      · rintro ⟨-, h⟩
        exact ⟨rfl, rfl, by omega⟩
      · rintro ⟨-, -, h⟩
        exact ⟨by omega, by omega⟩
    | false =>
      -- The bound below is 0, which an unsigned comparison always passes.
      have hpass : le T U T.min u.val := by
        unfold le
        rw [common_comm, min_of_unsigned hT, conv_of_contains (contains_zero _)]
        exact contains_nonneg hC (contains_conv _ _)
      simp [hpass]

theorem to_signed_cast_iff (u : Value U) :
    (Cast.to_signed_cast : Cast T U).run u = Cast.to_signed_cast.exact u ↔
      (Cast.to_signed_cast : Cast T U).Exact u := by
  unfold Exact run exact
  by_cases hu : T.Contains u.val
  · have hle := le_max_of_contains hu
    rw [represent_of_contains hu]
    simp [raw.to_signed_cast, hle, hu, Outcome.of_option, static_cast_of_contains hu]
  · rw [represent_eq_none.mpr hu]
    simp only [is_try, Bool.false_eq_true, if_false, hu, false_or]
    rw [to_signed_cast_eq_none, misses_iff hu]

/-- With as many bytes on both sides, no number misses both bounds. -/
theorem sign_add_iff (hU : U.is_signed = false) (hint : U ≠ .bool) (u : Value U) :
    (Cast.sign_add hU hint).run u = (Cast.sign_add hU hint).exact u ↔
      (Cast.sign_add hU hint).Exact u := by
  have hmain := to_signed_cast_iff (T := make_signed U) u
  refine Iff.trans hmain (or_iff_left_of_imp ?_)
  rintro ⟨-, hC, hlt⟩
  have hpos := contains_nonneg hU u.property
  match U with
  | .int false n =>
    have hhalf := half_pos n
    have heq : common (.int false n) (make_signed (.int false n)) = .int false n := by
      rw [common_comm] at hC ⊢
      exact common_eq_of_signed hC rfl
    rw [heq] at hlt
    simp only [make_signed, Contains, IntType.max, IntType.min, card] at hlt ⊢
    omega

/-! ## Casts that take a sign away -/

theorem not_negative_iff (u : Value U) : le U U (static_cast U 0).val u.val ↔ 0 ≤ u.val := by
  have hzero : (static_cast U 0).val = 0 := conv_of_contains U.contains_zero
  rw [hzero, le_iff (common_contains_of_same rfl U.contains_zero)
    (common_contains_of_same rfl u.property)]

/-- A type that is as large has what is not negative, unless it is `bool`. -/
theorem contains_of_size {x : ℤ} (hU : U.is_signed = true) (hsize : U.sizeof ≤ T.sizeof)
    (hT : T ≠ .bool) (hx : 0 ≤ x) (hu : U.Contains x) : T.Contains x := by
  match U, T with
  | .int true m, .int s n =>
    have hhalf : half m ≤ half n := half_mono hsize
    have hpos := half_pos m
    have hmax := hu.2
    cases s <;> simp only [Contains, IntType.max, IntType.min, card] at hmax ⊢ <;> omega

/-- A signed type that is as large has everything. -/
theorem contains_of_signed {x : ℤ} (hU : U.is_signed = true) (hsize : U.sizeof ≤ T.sizeof)
    (hT : T.is_signed = true) (hu : U.Contains x) : T.Contains x := by
  match U, T with
  | .int true m, .int true n => exact (int_within true hsize).contains hu

/-- When the numbers that are not negative are the ones that `T` has. -/
theorem not_negative_exact (hU : U.is_signed = true) (hsize : U.sizeof ≤ T.sizeof) (u : Value U) :
    (0 ≤ u.val ↔ T.Contains u.val) ↔
      (T.is_signed = true → 0 ≤ u.val) ∧ (T = .bool → u.val ≤ 1) := by
  cases hT : T.is_signed with
  | true =>
    have hbool : T ≠ .bool := by
      rintro rfl
      exact absurd hT (by decide)
    simp [contains_of_signed hU hsize hT u.property, hbool]
  | false =>
    by_cases hbool : T = .bool
    · subst hbool
      simp only [Contains, IntType.max, IntType.min, card]
      simp
      omega
    · have hiff : 0 ≤ u.val ↔ T.Contains u.val := by
        constructor
        · exact fun hpos => contains_of_size hU hsize hbool hpos u.property
        · exact fun hu => contains_nonneg hT hu
      simp [hiff, hbool]

theorem from_signed_cast_iff (hU : U.is_signed = true) (hsize : U.sizeof ≤ T.sizeof) (u : Value U) :
    (Cast.from_signed_cast hU hsize : Cast T U).run u =
        (Cast.from_signed_cast hU hsize).exact u ↔
      (0 ≤ u.val ↔ T.Contains u.val) := by
  have hneg := not_negative_iff u
  unfold run exact
  simp only [raw.from_signed_cast]
  by_cases hu : T.Contains u.val
  · rw [represent_of_contains hu]
    by_cases hpos : 0 ≤ u.val
    · simp [hneg, hpos, hu, static_cast_of_contains hu]
    · simp [hneg, hpos, hu]
  · rw [represent_eq_none.mpr hu]
    by_cases hpos : 0 ≤ u.val
    · simp [hneg, hpos, hu, is_try]
    · simp [hneg, hpos, hu, is_try]

theorem try_from_signed_cast_iff (hU : U.is_signed = true) (hsize : U.sizeof ≤ T.sizeof)
    (u : Value U) :
    (Cast.try_from_signed_cast hU hsize : Cast T U).run u =
        (Cast.try_from_signed_cast hU hsize).exact u ↔
      (0 ≤ u.val ↔ T.Contains u.val) := by
  have hneg := not_negative_iff u
  unfold run exact
  simp only [raw.try_from_signed_cast]
  by_cases hu : T.Contains u.val
  · rw [represent_of_contains hu]
    by_cases hpos : 0 ≤ u.val
    · simp [hneg, hpos, hu, static_cast_of_contains hu, Outcome.of_except]
    · simp [hneg, hpos, hu, Outcome.of_except]
  · rw [represent_eq_none.mpr hu]
    by_cases hpos : 0 ≤ u.val
    · simp [hneg, hpos, hu, is_try, Outcome.of_except]
    · simp [hneg, hpos, hu, is_try, Outcome.of_except]

/-- The unsigned type of a signed one is large enough, and it is not `bool`. -/
theorem make_unsigned_spec (hU : U.is_signed = true) :
    U.sizeof ≤ (make_unsigned U).sizeof ∧ (make_unsigned U).is_signed = false ∧
      make_unsigned U ≠ .bool := by
  match U with
  | .int true n => exact ⟨le_refl _, rfl, by simp [make_unsigned]⟩

theorem sign_remove_eq (hU : U.is_signed = true) (u : Value U) :
    raw.sign_remove u = represent (make_unsigned U) u.val := by
  obtain ⟨hsize, hunsigned, hbool⟩ := make_unsigned_spec hU
  have hneg := not_negative_iff u
  unfold raw.sign_remove raw.from_signed_cast
  by_cases hpos : 0 ≤ u.val
  · have hu := contains_of_size hU hsize hbool hpos u.property
    simp [hneg, hpos, represent_of_contains hu, static_cast_of_contains hu]
  · have hu : ¬ (make_unsigned U).Contains u.val := fun h => hpos (contains_nonneg hunsigned h)
    simp [hneg, hpos, represent_eq_none.mpr hu]

/-- A number without a sign that fits `T` also fits the type between. -/
theorem down_cast_signed_eq (hU : U.is_signed = true) (hT : T.is_signed = false) (u : Value U) :
    raw.down_cast_signed T u = represent T u.val := by
  obtain ⟨hsize, hunsigned, hbool⟩ := make_unsigned_spec hU
  unfold raw.down_cast_signed
  rw [sign_remove_eq hU]
  by_cases hpos : 0 ≤ u.val
  · have hu := contains_of_size hU hsize hbool hpos u.property
    rw [represent_of_contains hu]
    exact down_cast_eq (hT.trans hunsigned.symm) ⟨u.val, hu⟩
  · have hu : ¬ (make_unsigned U).Contains u.val := fun h => hpos (contains_nonneg hunsigned h)
    have hT' : ¬ T.Contains u.val := fun h => hpos (contains_nonneg hT h)
    rw [represent_eq_none.mpr hu, represent_eq_none.mpr hT']
    rfl

/-! ## All casts -/

/-- A cast is exact for the numbers that `Exact` says, and for no others. -/
theorem cast_exact_iff (c : Cast T U) (u : Value U) : c.run u = c.exact u ↔ c.Exact u := by
  have hreturns : ∀ {T : IntType} (x : ℤ), Outcome.returns (represent T x) =
      match represent T x with
      | some v => .returns (some v)
      | none => if false then .throws else .returns none := by
    intro T x
    cases represent T x <;> rfl
  cases c with
  | down_cast same =>
    refine iff_of_true ?_ trivial
    show Outcome.returns (raw.down_cast T (some u)) = _
    rw [down_cast_eq same]
    exact hreturns u.val
  | try_down_cast => exact (try_down_cast_iff u).trans (try_down_cast_exact u)
  | to_signed_cast => exact to_signed_cast_iff u
  | from_signed_cast hU hsize =>
    exact (from_signed_cast_iff hU hsize u).trans (not_negative_exact hU hsize u)
  | try_from_signed_cast hU hsize =>
    exact (try_from_signed_cast_iff hU hsize u).trans (not_negative_exact hU hsize u)
  | sign_remove hU =>
    refine iff_of_true ?_ trivial
    show Outcome.returns (raw.sign_remove u) = _
    rw [sign_remove_eq hU]
    exact hreturns u.val
  | try_sign_remove hU =>
    obtain ⟨hsize, hunsigned, hbool⟩ := make_unsigned_spec hU
    have hmain := (try_from_signed_cast_iff hU hsize u).trans (not_negative_exact hU hsize u)
    refine iff_of_true (hmain.mpr ⟨?_, fun h => absurd h hbool⟩) trivial
    rw [hunsigned]
    exact fun h => absurd h (by decide)
  | sign_add hU hint => exact sign_add_iff hU hint u
  | down_cast_signed hU hT =>
    refine iff_of_true ?_ trivial
    show Outcome.returns (raw.down_cast_signed T u) = _
    rw [down_cast_signed_eq hU hT]
    exact hreturns u.val

end Cast

/-- 200 is no `int8_t`, and `to_signed_cast` makes it -56. -/
theorem casts_not_exact :
    ¬ ∀ (T U : IntType) (c : Cast T U) (u : Value U), c.run u = c.exact u := by
  intro h
  have hcast := h (.int true 1) (.int false 1) .to_signed_cast ⟨200, by decide⟩
  revert hcast
  decide

end socle.raw
