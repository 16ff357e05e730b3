-- Checked arithmetic (number.hpp, numops.hpp). A number is a value of its type
-- or nan. Sums and differences are checked before they are made, and the checks
-- are operations too, which can overflow.
import Socle.Casts

namespace socle.raw

open lib.cint lib.cint.IntType

/-! ## Sums -/

/-- Which function an unqualified `abs` is. The headers that the code includes declare the one of C,
for `int`; a header included before may have made the overloads of `std::abs` visible. -/
inductive Abs
  | c
  | overloaded

/-- The type of `abs(a)`, to which `a` is converted. -/
def Abs.type : Abs → IntType → IntType
  | .c, _ => plain_int
  | .overloaded, T => common T T

variable {T U : IntType}

/-- `a + b`, made a `T`. -/
def sum (a b : Value T) : Option (Option (Value T)) :=
  (add T T a.val b.val).map fun r => some (static_cast T r)

/-- `safe_add_`. The outer `none` is undefined behaviour, the inner one nan. -/
def safe_add_ (f : Abs) (a b : Value T) : Option (Option (Value T)) :=
  if T.is_signed = true then
    if a.val < 0 ∧ b.val < 0 then
      (std_abs T b.val).bind fun abs_b =>
        (std_abs (f.type T) ((f.type T).conv a.val)).bind fun abs_a =>
          (sub T (f.type T) T.max abs_a).bind fun room =>
            if lt (common T (f.type T)) (common T T) room abs_b then some none else sum a b
    else if 0 < a.val ∧ 0 < b.val then
      -- treat positive values separately to avoid unwanted promotions
      (sub T T T.max a.val).bind fun room =>
        if lt (common T T) T room b.val then some none else sum a b
    else sum a b
  else
    (sub T T T.max a.val).bind fun room =>
      if lt (common T T) T room b.val then some none else sum a b

/-- `safe_add` of two values and more, from the right. -/
def safe_add (f : Abs) : Value T → Value T → List (Value T) → Option (Option (Value T))
  | t, v, [] => safe_add_ f t v
  | t, v, w :: rest => (safe_add f v w rest).bind fun r =>
      match r with
      | none => some none
      | some r => safe_add_ f t r

/-! ## Numbers -/

/-- `number<T>`. -/
abbrev number (T : IntType) : Type := Option (Value T)

def same_signness (T U : IntType) : Bool := T.is_signed == U.is_signed

def can_static_cast (T U : IntType) : Bool := same_signness T U && decide (U.sizeof ≤ T.sizeof)

/-- `number<T>::create`. The last branch compiles for one signedness only. -/
def create (T : IntType) {U : IntType} (b : Value U) : number T :=
  if can_static_cast T U then some (static_cast T b.val)
  else if T.is_signed = false ∧ U.is_signed = true then down_cast T (sign_remove b)
  else down_cast T (some b)

/-- `operator+` on two numbers of one type. -/
def plus (f : Abs) (a b : number T) : Option (number T) :=
  match a, b with
  | some a, some b => safe_add_ f a b
  | _, _ => some none

/-- `operator+` on a number and a value. -/
def plus_value (f : Abs) (a : number T) (b : Value T) : Option (number T) :=
  match a with
  | some a => safe_add_ f a b
  | none => some none

/-- `operator+` on numbers of two types. -/
def plus_mixed (f : Abs) (a : number T) (b : number U) : Option (number T) :=
  match a, b with
  | some a, some b =>
    if can_static_cast T U then safe_add_ f a (static_cast T b.val)
    else
      let downcasted := if T.is_signed = false ∧ U.is_signed = true then down_cast T (sign_remove b)
        else down_cast T (some b)
      match downcasted with
      | some b => safe_add_ f a b
      | none => some none
  | _, _ => some none

def is_negative (b : Value U) : Bool := U.is_signed && decide (b.val < 0)

/-- `a - b`, made a `T`. -/
def difference (a : Value T) (b : Value U) : Option (number T) :=
  (sub T U a.val b.val).map fun r => some (static_cast T r)

/-- `operator-`. -/
def minus (a : number T) (b : number U) : Option (number T) :=
  match a, b with
  | some a, some b =>
    if is_negative b then
      match create T b with
      | none => some none
      | some _ =>
        (sub T U T.max b.val).bind fun limit =>
          if le T (common T U) a.val limit then difference a b else some none
    else
      match create T b with
      | none => some none
      | some compat_b =>
        (add T T T.min compat_b.val).bind fun limit =>
          if le (common T T) T limit a.val then difference a b else some none
  | _, _ => some none

/-! ## The law -/

/-- An operation with a result of type `T`. The ones on two types compile when a signed `T` comes
with a signed `U`. -/
inductive Op (T : IntType)
  | safe_add (t v : Value T) (vals : List (Value T))
  | plus (a b : number T)
  | plus_value (a : number T) (b : Value T)
  | plus_mixed {U : IntType} (signs : T.is_signed = true → U.is_signed = true) (a : number T)
      (b : number U)
  | minus {U : IntType} (signs : T.is_signed = true → U.is_signed = true) (a : number T)
      (b : number U)

namespace Op

def run (f : Abs) : Op T → Option (number T)
  | .safe_add t v vals => raw.safe_add f t v vals
  | .plus a b => raw.plus f a b
  | .plus_value a b => raw.plus_value f a b
  | .plus_mixed _ a b => raw.plus_mixed f a b
  | .minus _ a b => raw.minus a b

/-- `op` on the numbers of two operands, when `T` has the result. -/
def lift (T : IntType) {U V : IntType} (op : ℤ → ℤ → ℤ) (a : number U) (b : number V) : number T :=
  a.bind fun a => b.bind fun b => Cast.represent T (op a.val b.val)

/-- The sum of some values. -/
def total (vals : List (Value T)) : ℤ := (vals.map Subtype.val).sum

/-- What an operation is to give: the number, or nan when `T` does not have it. -/
def exact : Op T → number T
  | .safe_add t v vals => Cast.represent T (total (t :: v :: vals))
  | .plus a b => lift T (· + ·) a b
  | .plus_value a b => lift T (· + ·) a (some b)
  | .plus_mixed _ a b => lift T (· + ·) a b
  | .minus _ a b => lift T (· - ·) a b

/-! ## When it does -/

/-- The absolute values that the check of two negative numbers takes exist. -/
def AbsFits (f : Abs) (T : IntType) (a b : ℤ) : Prop :=
  4 ≤ T.sizeof → b ≠ T.min ∧ (f.type T).conv a ≠ (f.type T).min

/-- The check of two negative numbers. -/
def TooSmall (f : Abs) (T : IntType) (a b : ℤ) : Prop :=
  T.max - |(f.type T).conv a| < |b|

instance (f : Abs) (T : IntType) (a b : ℤ) : Decidable (AbsFits f T a b) :=
  inferInstanceAs (Decidable (_ → _))

instance (f : Abs) (T : IntType) (a b : ℤ) : Decidable (TooSmall f T a b) :=
  inferInstanceAs (Decidable (_ < _))

/-- The sum is given. -/
def Adds (f : Abs) (T : IntType) (a b : ℤ) : Prop :=
  T.Contains (a + b) ∧ (a < 0 → b < 0 → AbsFits f T a b ∧ ¬ TooSmall f T a b)

/-- The sum is refused: nan is given. -/
def Refuses (f : Abs) (T : IntType) (a b : ℤ) : Prop :=
  if a < 0 ∧ b < 0 then AbsFits f T a b ∧ TooSmall f T a b else ¬ T.Contains (a + b)

/-- A sum of two is right: it is given, or refused and not in `T`. -/
def AddExact (f : Abs) (T : IntType) (a b : ℤ) : Prop :=
  Adds f T a b ∨ (Refuses f T a b ∧ ¬ T.Contains (a + b))

/-- All sums from the right are given. -/
def AllAdd (f : Abs) : Value T → Value T → List (Value T) → Prop
  | t, v, [] => Adds f T t.val v.val
  | t, v, w :: rest => AllAdd f v w rest ∧ Adds f T t.val (total (v :: w :: rest))

/-- One of them is refused, and the ones before are given. -/
def OneRefuses (f : Abs) : Value T → Value T → List (Value T) → Prop
  | t, v, [] => Refuses f T t.val v.val
  | t, v, w :: rest =>
    OneRefuses f v w rest ∨ AllAdd f v w rest ∧ Refuses f T t.val (total (v :: w :: rest))

/-- `bool` takes a larger number of one byte for 1. -/
def TakenForOne (T U : IntType) (b : ℤ) : Prop := T = .bool ∧ U = .int false 1 ∧ 1 < b

def PlusExact (f : Abs) (T U : IntType) (a b : ℤ) : Prop :=
  if T.Contains b then AddExact f T a b
  else ¬ T.Contains (a + b) ∧ (TakenForOne T U b → a = 1)

def MinusExact (T U : IntType) (a b : ℤ) : Prop :=
  if T.Contains b then b < 0 → T.sizeof < (common T U).sizeof ∧ a - b ≤ T.max
  else ¬ T.Contains (a - b) ∧ (TakenForOne T U b → a = 0)

/-- A condition on the numbers of two operands, when none is nan. -/
def OnNumbers {U V : IntType} (p : ℤ → ℤ → Prop) (a : number U) (b : number V) : Prop :=
  ∀ x ∈ a, ∀ y ∈ b, p x.val y.val

/-- When an operation gives what it is to give. -/
def Exact (f : Abs) : Op T → Prop
  | .safe_add t v vals =>
    AllAdd f t v vals ∨ OneRefuses f t v vals ∧ ¬ T.Contains (total (t :: v :: vals))
  | .plus a b => OnNumbers (AddExact f T) a b
  | .plus_value a b => OnNumbers (AddExact f T) a (some b)
  | @Op.plus_mixed _ U _ a b => OnNumbers (PlusExact f T U) a b
  | @Op.minus _ U _ a b => OnNumbers (MinusExact T U) a b

/-! ## The sum of two -/

theorem sum_of_contains {a b : Value T} (h : T.Contains (a.val + b.val)) :
    sum a b = some (some ⟨a.val + b.val, h⟩) := by
  unfold sum
  rw [add_of_contains (common_contains_of_same rfl a.property)
    (common_contains_of_same rfl b.property) (common_contains_of_same rfl h), Option.map_some,
    Cast.static_cast_of_contains h]

/-- The room above a number, and the comparison with it, are right. -/
theorem room_check {a b : Value T} (h : 0 ≤ a.val) :
    ((sub T T T.max a.val).bind fun room =>
      if lt (common T T) T room b.val then some none else sum a b) =
      if T.max < a.val + b.val then some none else sum a b := by
  have hroom : T.Contains (T.max - a.val) := by
    have hmin := T.min_nonpos
    have hmax := a.property.2
    exact ⟨by omega, by omega⟩
  rw [sub_of_contains (common_contains_of_same rfl T.contains_max)
    (common_contains_of_same rfl a.property) (common_contains_of_same rfl hroom), Option.bind_some]
  have hlt : lt (common T T) T (T.max - a.val) b.val ↔ T.max < a.val + b.val := by
    rw [lt_iff (promotion_contains hroom) (promotion_contains b.property)]
    omega
  by_cases hover : T.max < a.val + b.val
  · rw [if_pos (hlt.mpr hover), if_pos hover]
  · rw [if_neg (fun hn => hover (hlt.mp hn)), if_neg hover]

/-- Where not both are negative, the sum is checked in the type itself. -/
theorem safe_add_of_not_negative (f : Abs) {a b : Value T} (h : ¬ (a.val < 0 ∧ b.val < 0)) :
    safe_add_ f a b = some (Cast.represent T (a.val + b.val)) := by
  have ha := a.property
  have hb := b.property
  have hmin := T.min_nonpos
  have hgiven : ∀ hin : T.Contains (a.val + b.val),
      sum a b = some (Cast.represent T (a.val + b.val)) := by
    intro hin
    rw [sum_of_contains hin, Cast.represent_of_contains hin]
  unfold safe_add_
  cases hT : T.is_signed with
  | true =>
    rw [if_pos rfl, if_neg h]
    by_cases hpos : 0 < a.val ∧ 0 < b.val
    · rw [if_pos hpos, room_check hpos.1.le]
      by_cases hover : T.max < a.val + b.val
      · rw [if_pos hover, Cast.represent_eq_none.mpr fun hin => absurd hin.2 (by omega)]
      · rw [if_neg hover]
        exact hgiven ⟨by omega, by omega⟩
    · rw [if_neg hpos]
      unfold Contains at ha hb
      exact hgiven ⟨by omega, by omega⟩
  | false =>
    have ha' := contains_nonneg hT ha
    have hb' := contains_nonneg hT hb
    rw [if_neg (by decide), room_check ha']
    by_cases hover : T.max < a.val + b.val
    · rw [if_pos hover, Cast.represent_eq_none.mpr fun hin => absurd hin.2 (by omega)]
    · rw [if_neg hover]
      exact hgiven ⟨by omega, by omega⟩

/-! ## Two negative numbers -/

theorem type_cases (f : Abs) (hT : T.is_signed = true) :
    (f.type T).is_signed = true ∧ common (f.type T) (f.type T) = f.type T ∧
      (T.sizeof < 4 → f.type T = .int true 4) := by
  have hint : common (.int true 4) (.int true 4) = .int true 4 := by decide
  cases f with
  | c => exact ⟨rfl, hint, fun _ => rfl⟩
  | overloaded =>
    show (common T T).is_signed = true ∧ common (common T T) (common T T) = common T T ∧ _
    refine ⟨common_of_signed hT hT, ?_, ?_⟩
    · rcases T.common_self_cases with ⟨-, heq⟩ | ⟨-, heq⟩
      · rw [heq, hint]
      · rw [heq, heq]
    · intro hsmall
      rcases T.common_self_cases with ⟨-, heq⟩ | ⟨hlarge, -⟩
      · exact heq
      · omega

/-- A small type is far from the limits of `int`. -/
theorem small_abs {x : ℤ} (hsmall : T.sizeof < 4) (hx : T.Contains x) :
    (IntType.int true 4).Contains |x| ∧ (IntType.int true 4).conv x = x ∧
      x ≠ (IntType.int true 4).min := by
  have hx' : -half 4 < x ∧ x < half 4 := by
    unfold Contains at hx
    match T with
    | .bool =>
      have hhalf : half 4 = 2147483648 := rfl
      simp only [IntType.max, IntType.min, card] at hx
      omega
    | .int s n =>
      have hcard : 2 * half n ≤ half 4 := card_le_half hsmall
      have hpos := half_pos n
      cases s <;> simp only [IntType.max, IntType.min, card] at hx <;> omega
  have hin : (IntType.int true 4).Contains x := by
    simp only [Contains, IntType.max, IntType.min, card]
    omega
  refine ⟨?_, conv_of_contains hin, ?_⟩
  · simp only [Contains, IntType.max, IntType.min, card]
    rcases abs_cases x with ⟨habs, -⟩ | ⟨habs, -⟩ <;> rw [habs] <;> omega
  · simp only [IntType.min]
    omega

/-- A signed type has the absolute values of all its numbers but the smallest. -/
theorem contains_abs {x : ℤ} (hT : T.is_signed = true) (hx : T.Contains x) :
    T.Contains |x| ↔ x ≠ T.min := by
  have hmax := max_of_signed hT
  have hmin := T.min_nonpos
  have hpos := T.max_pos
  unfold Contains at hx ⊢
  rcases abs_cases x with ⟨habs, hsign⟩ | ⟨habs, hsign⟩ <;> rw [habs] <;> omega

/-- `AbsFits` is that both calls of `abs` are defined. -/
theorem absFits_iff (f : Abs) {a b : ℤ} (hT : T.is_signed = true) (ha : T.Contains a)
    (hb : T.Contains b) :
    AbsFits f T a b ↔
      (common T T).Contains |b| ∧ (f.type T).Contains |(f.type T).conv a| := by
  obtain ⟨hsigned, -, hint⟩ := type_cases f hT
  unfold AbsFits
  rcases T.common_self_cases with ⟨hsmall, heq⟩ | ⟨hlarge, heq⟩
  · obtain ⟨hb', -, -⟩ := small_abs hsmall hb
    obtain ⟨ha', hconv, -⟩ := small_abs hsmall ha
    rw [heq, hint hsmall, hconv]
    exact iff_of_true (fun h => absurd h (by omega)) ⟨hb', ha'⟩
  · rw [heq, contains_abs hT hb, contains_abs hsigned (contains_conv _ _)]
    exact ⟨fun h => h hlarge, fun h _ => h⟩

/-- The sum of two negative numbers: the check may be undefined. -/
theorem safe_add_negative (f : Abs) {a b : Value T} (ha : a.val < 0) (hb : b.val < 0) :
    safe_add_ f a b =
      if AbsFits f T a.val b.val then
        if TooSmall f T a.val b.val then some none else sum a b
      else none := by
  have hT : T.is_signed = true := by
    cases hT : T.is_signed with
    | true => rfl
    | false => exact absurd (contains_nonneg hT a.property) (by omega)
  obtain ⟨hA, hself, -⟩ := type_cases f hT
  have hP : (common T T).is_signed = true := common_of_signed hT hT
  have hfits := absFits_iff f hT a.property b.property
  have habs_b : std_abs T b.val = (common T T).result |b.val| := by
    unfold std_abs
    rw [conv_of_contains (common_contains_of_same rfl b.property)]
  have habs_a : std_abs (f.type T) ((f.type T).conv a.val) =
      (f.type T).result |(f.type T).conv a.val| := by
    unfold std_abs
    rw [hself, conv_of_contains (contains_conv _ _)]
  unfold safe_add_
  rw [if_pos hT, if_pos ⟨ha, hb⟩, habs_b, habs_a]
  by_cases hb' : (common T T).Contains |b.val|
  · by_cases ha' : (f.type T).Contains |(f.type T).conv a.val|
    · -- Both are defined, and all operands meet in signed types.
      rw [if_pos (hfits.mpr ⟨hb', ha'⟩), result_of_contains hb', result_of_contains ha',
        Option.bind_some, Option.bind_some]
      have hC : (common T (f.type T)).is_signed = true := common_of_signed hT hA
      have hCC := common_of_signed hC hP
      have hmax := (within_common hC).contains T.contains_max
      have habs := common_contains_right (a := T) (abs_nonneg _) ha'
      have hroom : (common T (f.type T)).Contains (T.max - |(f.type T).conv a.val|) := by
        have hneg := IntType.max_of_signed hC
        have hle := habs.2
        have hpos := T.max_pos
        have hnn := abs_nonneg ((f.type T).conv a.val)
        have hle' := hmax.2
        exact ⟨by omega, by omega⟩
      have hroom' := (within_common hCC).contains hroom
      have hb'' : (common (common T (f.type T)) (common T T)).Contains |b.val| :=
        common_contains_right (abs_nonneg _) hb'
      rw [sub_of_contains hmax habs hroom, Option.bind_some]
      have hlt := lt_iff hroom' hb''
      by_cases hsmall : TooSmall f T a.val b.val
      · rw [if_pos hsmall, if_pos (hlt.mpr hsmall)]
      · rw [if_neg hsmall, if_neg fun hn => hsmall (hlt.mp hn)]
    · rw [if_neg fun h => ha' (hfits.mp h).2, result_of_contains hb', Option.bind_some,
        result_of_overflow hA ha']
      rfl
  · rw [if_neg fun h => hb' (hfits.mp h).1, result_of_overflow hP hb']
    rfl

/-- Behind a check that is passed, the sum is given or it overflows. -/
theorem sum_of_not_tooSmall (f : Abs) {a b : Value T} (ha : a.val < 0) (hb : b.val < 0)
    (hsmall : ¬ TooSmall f T a.val b.val) (hin : ¬ T.Contains (a.val + b.val)) :
    sum a b = none := by
  have hT : T.is_signed = true := by
    cases hT : T.is_signed with
    | true => rfl
    | false => exact absurd (contains_nonneg hT a.property) (by omega)
  have hmax := IntType.max_of_signed hT
  have hle := a.property
  have hle' := b.property
  unfold Contains at hle hle' hin
  obtain ⟨-, -, hint⟩ := type_cases f hT
  rcases T.common_self_cases with ⟨hlow, -⟩ | ⟨-, heq⟩
  · -- A small type keeps its numbers in the check, which then finds each overflow.
    obtain ⟨-, hconv, -⟩ := small_abs hlow a.property
    unfold TooSmall at hsmall
    rw [hint hlow, hconv, abs_of_neg ha, abs_of_neg hb] at hsmall
    omega
  · unfold sum add
    rw [heq, conv_of_contains a.property, conv_of_contains b.property,
      result_of_overflow hT (by unfold Contains; omega)]
    rfl

theorem safe_add_adds (f : Abs) {a b : Value T} (h : Adds f T a.val b.val) :
    safe_add_ f a b = some (some ⟨a.val + b.val, h.1⟩) := by
  by_cases hneg : a.val < 0 ∧ b.val < 0
  · obtain ⟨hfits, hsmall⟩ := h.2 hneg.1 hneg.2
    rw [safe_add_negative f hneg.1 hneg.2, if_pos hfits, if_neg hsmall, sum_of_contains h.1]
  · rw [safe_add_of_not_negative f hneg, Cast.represent_of_contains h.1]

theorem safe_add_refuses (f : Abs) {a b : Value T} (h : Refuses f T a.val b.val) :
    safe_add_ f a b = some none := by
  unfold Refuses at h
  by_cases hneg : a.val < 0 ∧ b.val < 0
  · rw [if_pos hneg] at h
    rw [safe_add_negative f hneg.1 hneg.2, if_pos h.1, if_pos h.2]
  · rw [if_neg hneg] at h
    rw [safe_add_of_not_negative f hneg, Cast.represent_eq_none.mpr h]

theorem safe_add_undefined (f : Abs) {a b : Value T} (hadd : ¬ Adds f T a.val b.val)
    (href : ¬ Refuses f T a.val b.val) : safe_add_ f a b = none := by
  unfold Adds at hadd
  unfold Refuses at href
  by_cases hneg : a.val < 0 ∧ b.val < 0
  · rw [if_pos hneg] at href
    rw [safe_add_negative f hneg.1 hneg.2]
    by_cases hfits : AbsFits f T a.val b.val
    · have hsmall : ¬ TooSmall f T a.val b.val := fun h => href ⟨hfits, h⟩
      rw [if_pos hfits, if_neg hsmall]
      exact sum_of_not_tooSmall f hneg.1 hneg.2 hsmall fun hin =>
        hadd ⟨hin, fun _ _ => ⟨hfits, hsmall⟩⟩
    · rw [if_neg hfits]
  · rw [if_neg hneg, not_not] at href
    exact absurd ⟨href, fun ha hb => absurd ⟨ha, hb⟩ hneg⟩ hadd

theorem safe_add_exact_iff (f : Abs) (a b : Value T) :
    safe_add_ f a b = some (Cast.represent T (a.val + b.val)) ↔ AddExact f T a.val b.val := by
  unfold AddExact
  by_cases hadd : Adds f T a.val b.val
  · rw [safe_add_adds f hadd, Cast.represent_of_contains hadd.1]
    simp [hadd]
  · by_cases href : Refuses f T a.val b.val
    · rw [safe_add_refuses f href]
      simp only [hadd, href, true_and, false_or, Option.some.injEq, eq_comm (a := none)]
      exact Cast.represent_eq_none
    · rw [safe_add_undefined f hadd href]
      simp [hadd, href]

/-! ## The sum of more -/

theorem total_cons (t : Value T) (vals : List (Value T)) : total (t :: vals) = t.val + total vals := by
  simp [total]

theorem total_pair (t v : Value T) : total [t, v] = t.val + v.val := by
  simp [total]

theorem AllAdd.contains {f : Abs} {t v : Value T} {vals : List (Value T)}
    (h : AllAdd f t v vals) : T.Contains (total (t :: v :: vals)) := by
  cases vals with
  | nil =>
    rw [total_pair]
    exact h.1
  | cons w rest =>
    rw [total_cons]
    exact h.2.1

theorem safe_add_all (f : Abs) {t v : Value T} {vals : List (Value T)} (h : AllAdd f t v vals) :
    raw.safe_add f t v vals = some (some ⟨total (t :: v :: vals), h.contains⟩) := by
  induction vals generalizing t v with
  | nil =>
    rw [raw.safe_add, safe_add_adds f h]
    simp only [total_pair]
  | cons w rest ih =>
    rw [raw.safe_add, ih h.1, Option.bind_some]
    simp only
    rw [safe_add_adds f h.2]
    simp only [total_cons t]

theorem safe_add_one_refuses (f : Abs) {t v : Value T} {vals : List (Value T)}
    (h : OneRefuses f t v vals) : raw.safe_add f t v vals = some none := by
  induction vals generalizing t v with
  | nil =>
    rw [raw.safe_add]
    exact safe_add_refuses f h
  | cons w rest ih =>
    rw [raw.safe_add]
    rcases h with h | ⟨hall, href⟩
    · rw [ih h, Option.bind_some]
    · rw [safe_add_all f hall, Option.bind_some]
      exact safe_add_refuses f href

/-- A sum that is neither given nor refused on the way is undefined. -/
theorem safe_add_neither (f : Abs) {t v : Value T} {vals : List (Value T)}
    (hall : ¬ AllAdd f t v vals) (hone : ¬ OneRefuses f t v vals) :
    raw.safe_add f t v vals = none := by
  induction vals generalizing t v with
  | nil =>
    rw [raw.safe_add]
    exact safe_add_undefined f hall hone
  | cons w rest ih =>
    rw [raw.safe_add]
    by_cases hrest : AllAdd f v w rest
    · rw [safe_add_all f hrest, Option.bind_some]
      exact safe_add_undefined f (fun h => hall ⟨hrest, h⟩) fun h => hone (Or.inr ⟨hrest, h⟩)
    · rw [ih hrest fun h => hone (Or.inl h), Option.bind_none]

theorem safe_add_list_iff (f : Abs) (t v : Value T) (vals : List (Value T)) :
    raw.safe_add f t v vals = some (Cast.represent T (total (t :: v :: vals))) ↔
      AllAdd f t v vals ∨ OneRefuses f t v vals ∧ ¬ T.Contains (total (t :: v :: vals)) := by
  by_cases hall : AllAdd f t v vals
  · rw [safe_add_all f hall, Cast.represent_of_contains hall.contains]
    simp [hall]
  · by_cases hone : OneRefuses f t v vals
    · rw [safe_add_one_refuses f hone]
      simp only [hall, hone, true_and, false_or, Option.some.injEq, eq_comm (a := none)]
      exact Cast.represent_eq_none
    · rw [safe_add_neither f hall hone]
      simp [hall, hone]

/-! ## Two types -/

/-- The signs of the types and the size, where a value is taken as it is. -/
theorem can_static_cast_iff :
    can_static_cast T U = true ↔ T.is_signed = U.is_signed ∧ U.sizeof ≤ T.sizeof := by
  simp [can_static_cast, same_signness]

/-- A type of the same signedness and no smaller has the value, or takes it for 1. -/
theorem contains_or_takenForOne {b : ℤ} (h : can_static_cast T U = true) (hb : U.Contains b) :
    T.Contains b ∨ TakenForOne T U b := by
  obtain ⟨hsign, hsize⟩ := can_static_cast_iff.mp h
  match U, T with
  | .int true m, .int s n =>
    left
    exact Cast.contains_of_signed rfl hsize hsign hb
  | .int false m, .int s n =>
    left
    obtain rfl : s = false := hsign
    exact (int_within false hsize).contains hb
  | .bool, .bool => exact Or.inl hb
  | .bool, .int s n =>
    left
    have hhalf : half 1 ≤ half n := half_mono one_le
    have hone : half 1 = 128 := rfl
    obtain rfl : s = false := hsign
    simp only [Contains, IntType.max, IntType.min, card] at hb ⊢
    omega
  | .int s n, .bool =>
    obtain rfl : s = false := hsign.symm
    have hn : n = 1 := by
      have hle : (n : ℕ) ≤ 1 := hsize
      exact le_antisymm hle one_le
    subst hn
    by_cases hle : b ≤ 1
    · left
      have hpos := hb.1
      simp only [Contains, IntType.max, IntType.min, card] at hpos ⊢
      omega
    · exact Or.inr ⟨rfl, rfl, by omega⟩

theorem not_contains_of_takenForOne {b : ℤ} (h : TakenForOne T U b) : ¬ T.Contains b := by
  obtain ⟨rfl, -, hb⟩ := h
  simp only [Contains, IntType.max, IntType.min, card]
  omega

/-- Where a value is not taken as it is, the cast is exact. -/
theorem cast_eq (hsigns : T.is_signed = true → U.is_signed = true) (b : Value U) :
    (if T.is_signed = false ∧ U.is_signed = true then down_cast T (sign_remove b)
      else down_cast T (some b)) = Cast.represent T b.val := by
  by_cases hmix : T.is_signed = false ∧ U.is_signed = true
  · rw [if_pos hmix]
    exact Cast.down_cast_signed_eq hmix.2 hmix.1 b
  · rw [if_neg hmix]
    apply Cast.down_cast_eq
    cases hT : T.is_signed with
    | true => exact (hsigns hT).symm
    | false =>
      rw [hT] at hmix
      simpa using hmix

theorem create_of_takenForOne {b : Value U} (h : TakenForOne T U b.val) :
    create T b = some (static_cast T b.val) := by
  obtain ⟨rfl, rfl, -⟩ := h
  rfl

/-- `create` gives the value, or nan when there is none. -/
theorem create_eq (hsigns : T.is_signed = true → U.is_signed = true) {b : Value U}
    (hone : ¬ TakenForOne T U b.val) : create T b = Cast.represent T b.val := by
  unfold create
  cases h : can_static_cast T U with
  | true =>
    have hb := (contains_or_takenForOne h b.property).resolve_right hone
    rw [if_pos rfl, Cast.static_cast_of_contains hb, Cast.represent_of_contains hb]
  | false =>
    rw [if_neg (by decide)]
    exact cast_eq hsigns b

theorem static_cast_takenForOne {b : ℤ} (h : TakenForOne T U b) : (static_cast T b).val = 1 := by
  obtain ⟨rfl, -, hb⟩ := h
  exact if_neg (by omega)

/-- The sum of two types, by what becomes of the second operand. -/
theorem plus_mixed_eq (f : Abs) (a : Value T) (b : Value U) :
    raw.plus_mixed f (some a) (some b) =
      match create T b with
      | some b => safe_add_ f a b
      | none => some none := by
  unfold raw.plus_mixed create
  cases can_static_cast T U with
  | true => rfl
  | false => rfl

theorem bool_sum {f : Abs} {a b : Value T} (hT : T = .bool) (hb : b.val = 1) :
    safe_add_ f a b = some none ↔ a.val = 1 := by
  subst hT
  have ha := a.property
  simp only [Contains, IntType.max, IntType.min, card] at ha
  rw [safe_add_of_not_negative f (by omega)]
  simp only [Option.some.injEq, Cast.represent_eq_none, Contains, IntType.max, IntType.min, card]
  omega

theorem plus_mixed_iff (f : Abs) (hsigns : T.is_signed = true → U.is_signed = true) (a : Value T)
    (b : Value U) :
    raw.plus_mixed f (some a) (some b) = some (Cast.represent T (a.val + b.val)) ↔
      PlusExact f T U a.val b.val := by
  rw [plus_mixed_eq f]
  unfold PlusExact
  by_cases hone : TakenForOne T U b.val
  · -- The sum is made with 1, and the real one is above `bool`.
    have hsum : ¬ T.Contains (a.val + b.val) := by
      have ha := a.property
      obtain ⟨rfl, -, hb⟩ := hone
      simp only [Contains, IntType.max, IntType.min, card] at ha ⊢
      omega
    rw [if_neg (not_contains_of_takenForOne hone), create_of_takenForOne hone,
      Cast.represent_eq_none.mpr hsum]
    simp only [hsum, hone, not_false_eq_true, true_and, true_implies]
    exact bool_sum hone.1 (static_cast_takenForOne hone)
  · rw [create_eq hsigns hone]
    by_cases hb : T.Contains b.val
    · rw [if_pos hb, Cast.represent_of_contains hb]
      exact safe_add_exact_iff f a ⟨b.val, hb⟩
    · rw [if_neg hb, Cast.represent_eq_none.mpr hb]
      simp only [hone, false_implies, and_true, Option.some.injEq, eq_comm (a := none)]
      exact Cast.represent_eq_none

/-! ## Differences -/

/-- A difference that is in `T` and in the common type. -/
theorem difference_of_contains {a : Value T} {b : Value U} (ha : (common T U).Contains a.val)
    (hb : (common T U).Contains b.val) (hC : (common T U).Contains (a.val - b.val)) :
    difference a b = some (some (static_cast T (a.val - b.val))) := by
  unfold difference
  rw [sub_of_contains ha hb hC, Option.map_some]

/-- What is subtracted is not negative, and `T` has it. -/
theorem minus_of_nonneg (hsigns : T.is_signed = true → U.is_signed = true) {a : Value T}
    {b : Value U} (hpos : 0 ≤ b.val) (hb : T.Contains b.val) :
    raw.minus (some a) (some b) = some (Cast.represent T (a.val - b.val)) := by
  have ha := a.property
  have hmin := T.min_nonpos
  have hneg : is_negative b = false := by
    unfold is_negative
    simp [hpos]
  have hone : ¬ TakenForOne T U b.val := fun h => not_contains_of_takenForOne h hb
  have hlimit : T.Contains (T.min + b.val) := ⟨by omega, by have := hb.2; omega⟩
  unfold raw.minus
  simp only [hneg, Bool.false_eq_true, if_false]
  rw [create_eq hsigns hone, Cast.represent_of_contains hb]
  simp only
  rw [add_of_contains (common_contains_of_same rfl T.contains_min) (common_contains_of_same rfl hb)
    (common_contains_of_same rfl hlimit), Option.bind_some]
  have hle : le (common T T) T (T.min + b.val) a.val ↔ T.min ≤ a.val - b.val := by
    rw [le_iff (promotion_contains hlimit) (promotion_contains ha)]
    omega
  by_cases hin : T.min ≤ a.val - b.val
  · have hdiff : T.Contains (a.val - b.val) := ⟨hin, by have := ha.2; omega⟩
    -- A signed `T` meets a signed `U`, and otherwise nothing is negative.
    have hkeep : ∀ x, T.Contains x → (common T U).Contains x := by
      intro x hx
      cases hT : T.is_signed with
      | true => exact common_contains_of_same (hT.trans (hsigns hT).symm) hx
      | false => exact common_contains (contains_nonneg hT hx) hx
    rw [if_pos (hle.mpr hin), difference_of_contains (hkeep _ ha) (hkeep _ hb) (hkeep _ hdiff),
      Cast.static_cast_of_contains hdiff, Cast.represent_of_contains hdiff]
  · rw [if_neg fun h => hin (hle.mp h), Cast.represent_eq_none.mpr fun h => hin h.1]

/-- A larger signed type has the differences. -/
theorem larger_contains {C : IntType} {x : ℤ} (hT : T.is_signed = true) (hC : C.is_signed = true)
    (hsize : T.sizeof < C.sizeof) (hle : 2 * T.min ≤ x) (hge : x < -(2 * T.min)) :
    C.Contains x := by
  match T, C with
  | .int true n, .int true m =>
    have hcard : 2 * half n ≤ half m := card_le_half hsize
    simp only [Contains, IntType.max, IntType.min, card] at hle hge ⊢
    omega

theorem max_le_of_size {C : IntType} (hT : T.is_signed = true) (hC : C.is_signed = true)
    (hsize : C.sizeof ≤ T.sizeof) : C.max ≤ T.max := by
  match T, C with
  | .int true n, .int true m => exact (int_within true hsize).2

/-- What is subtracted is negative, and `T` has it. The bound above overflows, unless it is in a
larger type, where it lets everything pass. -/
theorem minus_of_negative {a : Value T} {b : Value U} (hneg : b.val < 0) (hb : T.Contains b.val) :
    raw.minus (some a) (some b) =
      if T.sizeof < (common T U).sizeof then some (some (static_cast T (a.val - b.val)))
      else none := by
  have hT : T.is_signed = true := by
    cases hT : T.is_signed with
    | true => rfl
    | false => exact absurd (contains_nonneg hT hb) (by omega)
  have hU : U.is_signed = true := by
    cases hU : U.is_signed with
    | true => rfl
    | false => exact absurd (contains_nonneg hU b.property) (by omega)
  have hC : (common T U).is_signed = true := common_of_signed hT hU
  have hTC := within_common hC
  have hmax := IntType.max_of_signed hT
  have hmin := T.min_nonpos
  obtain ⟨ha, ha'⟩ := a.property
  have hneg' : is_negative b = true := by
    unfold is_negative
    simp [hU, hneg]
  have hone : ¬ TakenForOne T U b.val := fun h => not_contains_of_takenForOne h hb
  have hb' := hb.1
  unfold raw.minus
  simp only [hneg', if_true]
  rw [create_eq (fun _ => hU) hone, Cast.represent_of_contains hb]
  simp only
  have hmax' := hTC.contains T.contains_max
  have hbC := hTC.contains hb
  by_cases hsize : T.sizeof < (common T U).sizeof
  · have hlimit : (common T U).Contains (T.max - b.val) :=
      larger_contains hT hC hsize (by omega) (by omega)
    have hdiff : (common T U).Contains (a.val - b.val) :=
      larger_contains hT hC hsize (by omega) (by omega)
    have hCC : (common T (common T U)).is_signed = true := common_of_signed hT hC
    have hle : le T (common T U) a.val (T.max - b.val) := by
      have hCC' : (common (common T U) T).is_signed = true := by rwa [common_comm]
      rw [le_iff ((within_common hCC).contains a.property) (by
        rw [common_comm]
        exact (within_common hCC').contains hlimit)]
      omega
    rw [if_pos hsize, sub_of_contains hmax' hbC hlimit, Option.bind_some, if_pos hle,
      difference_of_contains (hTC.contains a.property) hbC hdiff]
  · have hover : ¬ (common T U).Contains (T.max - b.val) := by
      have hle := max_le_of_size hT hC (not_lt.mp hsize)
      rintro ⟨-, h⟩
      omega
    rw [if_neg hsize]
    unfold sub
    rw [conv_of_contains hmax', conv_of_contains hbC, result_of_overflow hC hover]
    rfl

theorem bool_difference {a : Value T} {b : Value U} (hone : TakenForOne T U b.val) :
    raw.minus (some a) (some b) = some none ↔ a.val = 0 := by
  have hcreate := create_of_takenForOne hone
  have hval := static_cast_takenForOne hone
  obtain ⟨rfl, rfl, hb⟩ := hone
  have ha := a.property
  unfold raw.minus
  simp only [is_negative, is_signed, Bool.false_and, Bool.false_eq_true, if_false]
  rw [hcreate]
  simp only
  have hlimit : add .bool .bool IntType.bool.min 1 = some 1 := by decide
  rw [hval, hlimit, Option.bind_some]
  have hvalue : a.val = 0 ∨ a.val = 1 := by
    simp only [Contains, IntType.max, IntType.min, card] at ha
    omega
  rcases hvalue with hz | hz
  · rw [hz, if_neg (by decide)]
    exact iff_of_true rfl rfl
  · rw [hz, if_pos (by decide)]
    refine iff_of_false ?_ (by decide)
    unfold difference
    intro h
    rw [Option.map_eq_some_iff] at h
    obtain ⟨r, -, hr⟩ := h
    exact absurd hr (by simp)

theorem minus_iff (hsigns : T.is_signed = true → U.is_signed = true) (a : Value T) (b : Value U) :
    raw.minus (some a) (some b) = some (Cast.represent T (a.val - b.val)) ↔
      MinusExact T U a.val b.val := by
  unfold MinusExact
  by_cases hone : TakenForOne T U b.val
  · have hdiff : ¬ T.Contains (a.val - b.val) := by
      have ha := a.property
      obtain ⟨rfl, -, hb⟩ := hone
      simp only [Contains, IntType.max, IntType.min, card] at ha ⊢
      omega
    rw [if_neg (not_contains_of_takenForOne hone), Cast.represent_eq_none.mpr hdiff]
    simp only [hdiff, hone, not_false_eq_true, true_and, true_implies]
    exact bool_difference hone
  · by_cases hb : T.Contains b.val
    · rw [if_pos hb]
      by_cases hneg : b.val < 0
      · have hmin : T.min ≤ a.val - b.val := by
          have := a.property.1
          omega
        rw [minus_of_negative hneg hb]
        simp only [hneg, true_implies]
        by_cases hsize : T.sizeof < (common T U).sizeof
        · simp only [hsize, if_true, true_and, Option.some.injEq]
          by_cases hmax : a.val - b.val ≤ T.max
          · have hin : T.Contains (a.val - b.val) := ⟨hmin, hmax⟩
            rw [Cast.represent_of_contains hin, Cast.static_cast_of_contains hin]
            simp [hmax]
          · rw [Cast.represent_eq_none.mpr fun h => hmax h.2]
            simp [hmax]
        · simp [hsize]
      · rw [minus_of_nonneg hsigns (not_lt.mp hneg) hb]
        simp [hneg]
    · rw [if_neg hb]
      simp only [hone, false_implies, and_true]
      have hnan : raw.minus (some a) (some b) = some none := by
        unfold raw.minus
        simp only [create_eq hsigns hone, Cast.represent_eq_none.mpr hb, ite_self]
      rw [hnan]
      simp only [Option.some.injEq, eq_comm (a := none)]
      exact Cast.represent_eq_none

/-! ## All operations -/

/-- An operation on two numbers is right when it is right on their values; nan gives nan. -/
theorem on_numbers_iff {V : IntType} {op : ℤ → ℤ → ℤ} {p : ℤ → ℤ → Prop}
    (code : number U → number V → Option (number T)) (hleft : ∀ b, code none b = some none)
    (hright : ∀ a, code a none = some none)
    (h : ∀ a b, code (some a) (some b) = some (Cast.represent T (op a.val b.val)) ↔ p a.val b.val)
    (a : number U) (b : number V) : code a b = some (lift T op a b) ↔ OnNumbers p a b := by
  cases a with
  | none =>
    rw [hleft]
    exact iff_of_true rfl fun x hx => absurd hx (by simp)
  | some a =>
    cases b with
    | none =>
      rw [hright]
      exact iff_of_true rfl fun x _ y hy => absurd hy (by simp)
    | some b =>
      refine (h a b).trans ⟨?_, fun hp => hp a rfl b rfl⟩
      rintro hp x hx y hy
      cases hx
      cases hy
      exact hp

/-- Checked arithmetic is exact where `Exact` says so, and nowhere else. -/
theorem op_exact_iff (f : Abs) (op : Op T) : op.run f = some op.exact ↔ op.Exact f := by
  cases op with
  | safe_add t v vals => exact safe_add_list_iff f t v vals
  | plus a b =>
    refine on_numbers_iff (raw.plus f) ?_ ?_ (safe_add_exact_iff f) a b
    · intro b
      rfl
    · intro a
      cases a <;> rfl
  | plus_value a b =>
    cases a with
    | none => exact iff_of_true rfl fun x hx => absurd hx (by simp)
    | some a =>
      refine (safe_add_exact_iff f a b).trans ⟨?_, fun hp => hp a rfl b rfl⟩
      rintro hp x hx y hy
      cases hx
      cases hy
      exact hp
  | plus_mixed hsigns a b =>
    refine on_numbers_iff (raw.plus_mixed f) ?_ ?_ (plus_mixed_iff f hsigns) a b
    · intro b
      rfl
    · intro a
      cases a <;> rfl
  | minus hsigns a b =>
    refine on_numbers_iff raw.minus ?_ ?_ (minus_iff hsigns) a b
    · intro b
      rfl
    · intro a
      cases a <;> rfl

/-- With the overloads of `std::abs`, the sum of two is right unless it is the smallest number of the
type, or a negative operand is and the type is as large as `int`. -/
theorem addExact_overloaded {a b : ℤ} (ha : T.Contains a) :
    AddExact .overloaded T a b ↔ (a < 0 → b < 0 →
      a + b ≠ T.min ∧ (4 ≤ T.sizeof → a ≠ T.min ∧ b ≠ T.min)) := by
  unfold AddExact Adds Refuses
  by_cases hneg : a < 0 ∧ b < 0
  · obtain ⟨ha', hb'⟩ := hneg
    have hT : T.is_signed = true := by
      cases hT : T.is_signed with
      | true => rfl
      | false => exact absurd (contains_nonneg hT ha) (by omega)
    have hmax := IntType.max_of_signed hT
    have hpos := T.max_pos
    have hconv : (Abs.overloaded.type T).conv a = a :=
      conv_of_contains (common_contains_of_same rfl ha)
    have hfits : AbsFits .overloaded T a b ↔ (4 ≤ T.sizeof → a ≠ T.min ∧ b ≠ T.min) := by
      unfold AbsFits
      rw [hconv]
      rcases T.common_self_cases with ⟨hsmall, -⟩ | ⟨-, heq⟩
      · exact iff_of_true (fun h => absurd h (by omega)) fun h => absurd h (by omega)
      · rw [Abs.type, heq, and_comm]
    have hsmall : TooSmall .overloaded T a b ↔ a + b ≤ T.min := by
      unfold TooSmall
      rw [hconv, abs_of_neg ha', abs_of_neg hb']
      omega
    have hin : T.Contains (a + b) ↔ T.min ≤ a + b := by
      unfold Contains
      omega
    simp only [ha', hb', and_self, if_true, true_implies, hfits, hsmall, hin, not_le]
    constructor
    · rintro (⟨hle, hf, hlt⟩ | ⟨⟨hf, hle⟩, hlt⟩)
      · exact ⟨by omega, hf⟩
      · exact ⟨by omega, hf⟩
    · rintro ⟨hne, hf⟩
      rcases lt_or_gt_of_ne hne with hlt | hgt
      · exact Or.inr ⟨⟨hf, hlt.le⟩, hlt⟩
      · exact Or.inl ⟨hgt.le, hf, hgt⟩
  · have hno : a < 0 → b < 0 → False := fun ha hb => hneg ⟨ha, hb⟩
    rw [if_neg hneg]
    refine iff_of_true ?_ fun ha hb => (hno ha hb).elim
    by_cases hin : T.Contains (a + b)
    · exact Or.inl ⟨hin, fun ha hb => (hno ha hb).elim⟩
    · exact Or.inr ⟨hin, hin⟩

end Op

/-- The sum of -100 and -28 is an `int8_t`, and the code refuses it. -/
theorem numbers_not_exact :
    ¬ ∀ (f : Abs) (T : IntType) (op : Op T), op.run f = some op.exact := by
  intro h
  have hop := h .c (.int true 1) (.safe_add ⟨-100, by decide⟩ ⟨-28, by decide⟩ [])
  revert hop
  decide

end socle.raw
