-- Shift registers with feedback. A register shifts toward its low end, and the bit
-- that falls out there puts a fixed word back in. Bits that are fed into it are
-- divided by a polynomial, and the register has the remainder.
import Mathlib

namespace lib.shift_register

variable {w : Nat} {p : BitVec w}

/-! ## The register -/

/-- One shift. `p` is the word that a falling bit puts in. -/
def shift (p c : BitVec w) : BitVec w :=
  if c.getLsbD 0 then (c >>> 1) ^^^ p else c >>> 1

def shifts (p : BitVec w) : Nat → BitVec w → BitVec w
  | 0, c => c
  | n + 1, c => shifts p n (shift p c)

/-- A bit as the lowest one of a word. -/
def bit (b : Bool) : BitVec w :=
  (BitVec.ofBool b).setWidth w

/-- A bit comes in at the low end, and the register shifts. -/
def feed (p c : BitVec w) (b : Bool) : BitVec w :=
  shift p (c ^^^ bit b)

def feeds (p c : BitVec w) (bs : List Bool) : BitVec w :=
  bs.foldl (feed p) c

/-- Bits as a word, the first one lowest. -/
def pack (bs : List Bool) : BitVec w :=
  (BitVec.ofBoolListLE bs).setWidth w

theorem getLsbD_bit (b : Bool) (i : Nat) :
    (bit b : BitVec w).getLsbD i = (decide (i < w) && (decide (i = 0) && b)) := by
  unfold bit
  rw [BitVec.getLsbD_setWidth]
  cases i with
  | zero => simp
  | succ i => simp [BitVec.getLsbD_of_ge]

@[simp] theorem bit_false : (bit false : BitVec w) = 0#w := by
  apply BitVec.eq_of_getLsbD_eq
  intro i _
  simp [getLsbD_bit]

theorem getLsbD_pack (bs : List Bool) (i : Nat) :
    (pack bs : BitVec w).getLsbD i = (decide (i < w) && bs.getD i false) := by
  simp [pack]

@[simp] theorem pack_nil : (pack [] : BitVec w) = 0#w := by
  apply BitVec.eq_of_getLsbD_eq
  intro i _
  simp [getLsbD_pack]

theorem pack_cons (b : Bool) (bs : List Bool) :
    (pack (b :: bs) : BitVec w) = pack bs <<< 1 ^^^ bit b := by
  apply BitVec.eq_of_getLsbD_eq
  intro i hi
  simp only [BitVec.getLsbD_xor, BitVec.getLsbD_shiftLeft, getLsbD_bit, getLsbD_pack]
  cases i with
  | zero => simp
  | succ i =>
    have hlt : i < w := Nat.lt_of_succ_lt hi
    simp [hi, hlt]

/-! ## Shifts are linear -/

theorem xor_xor_xor_comm (a b c d : BitVec w) : a ^^^ b ^^^ (c ^^^ d) = a ^^^ c ^^^ (b ^^^ d) := by
  ac_rfl

theorem shift_xor (a b : BitVec w) : shift p (a ^^^ b) = shift p a ^^^ shift p b := by
  unfold shift
  rw [BitVec.getLsbD_xor, BitVec.ushiftRight_xor_distrib]
  cases a.getLsbD 0 <;> cases b.getLsbD 0
  · simp
  · simp only [Bool.false_xor, if_true, Bool.false_eq_true, if_false]
    ac_rfl
  · simp only [Bool.xor_false, if_true, Bool.false_eq_true, if_false]
    ac_rfl
  · simp only [Bool.xor_self, Bool.false_eq_true, if_false, if_true]
    rw [xor_xor_xor_comm, BitVec.xor_self, BitVec.xor_zero]

@[simp] theorem shift_zero : shift p 0#w = 0#w := by
  simp [shift]

@[simp] theorem shifts_zero (n : Nat) : shifts p n 0#w = 0#w := by
  induction n with
  | zero => rfl
  | succ n ih => rw [shifts, shift_zero, ih]

theorem shifts_xor (n : Nat) (a b : BitVec w) :
    shifts p n (a ^^^ b) = shifts p n a ^^^ shifts p n b := by
  induction n generalizing a b with
  | zero => rfl
  | succ n ih =>
    simp only [shifts]
    rw [shift_xor, ih]

theorem bit_xor (a b : Bool) : (bit (a ^^ b) : BitVec w) = bit a ^^^ bit b := by
  apply BitVec.eq_of_getLsbD_eq
  intro i _
  simp only [BitVec.getLsbD_xor, getLsbD_bit]
  cases a <;> cases b <;> simp

theorem feed_xor (c d : BitVec w) (a b : Bool) :
    feed p (c ^^^ d) (a ^^ b) = feed p c a ^^^ feed p d b := by
  unfold feed
  rw [bit_xor, xor_xor_xor_comm, shift_xor]

@[simp] theorem feeds_nil (c : BitVec w) : feeds p c [] = c := rfl

@[simp] theorem feeds_cons (c : BitVec w) (b : Bool) (bs : List Bool) :
    feeds p c (b :: bs) = feeds p (feed p c b) bs := rfl

theorem feeds_append (c : BitVec w) (as bs : List Bool) :
    feeds p c (as ++ bs) = feeds p (feeds p c as) bs :=
  List.foldl_append

/-- The exclusive or of two texts leaves that of their registers. -/
theorem feeds_xor (c d : BitVec w) {as bs : List Bool} (h : as.length = bs.length) :
    feeds p (c ^^^ d) (List.zipWith xor as bs) = feeds p c as ^^^ feeds p d bs := by
  induction as generalizing c d bs with
  | nil =>
    cases bs with
    | nil => rfl
    | cons b bs => simp at h
  | cons a as ih =>
    cases bs with
    | nil => simp at h
    | cons b bs =>
      rw [List.zipWith_cons_cons, feeds_cons, feeds_cons, feeds_cons, feed_xor]
      exact ih _ _ (by simpa using h)

/-- What a difference between two texts does to the register does not depend on the texts. -/
theorem feeds_difference (c : BitVec w) {as ds : List Bool} (h : as.length = ds.length) :
    feeds p c (List.zipWith xor as ds) ^^^ feeds p c as = feeds p 0#w ds := by
  have hxor := feeds_xor (p := p) c 0#w h
  rw [BitVec.xor_zero] at hxor
  rw [hxor, BitVec.xor_comm, ← BitVec.xor_assoc, BitVec.xor_self, BitVec.zero_xor]

/-! ## Chunks -/

/-- A word whose low bits are clear only moves down. -/
theorem shifts_high {n : Nat} {c : BitVec w} (h : ∀ i, i < n → c.getLsbD i = false) :
    shifts p n c = c >>> n := by
  induction n generalizing c with
  | zero => simp [shifts]
  | succ n ih =>
    have hlow : c.getLsbD 0 = false := h 0 (Nat.succ_pos n)
    have hdown : shift p c = c >>> 1 := by simp [shift, hlow]
    rw [shifts, hdown, ih, ← BitVec.shiftRight_add, Nat.add_comm]
    intro i hi
    rw [BitVec.getLsbD_ushiftRight, Nat.add_comm]
    exact h (i + 1) (by omega)

/-- `n` shifts are those of the low `n` bits, and the rest moves down. -/
theorem shifts_split (n : Nat) (c : BitVec w) :
    shifts p n c = shifts p n ((c.setWidth n).setWidth w) ^^^ c >>> n := by
  have hsplit : c = (c.setWidth n).setWidth w ^^^ (c >>> n) <<< n := by
    apply BitVec.eq_of_getLsbD_eq
    intro i hi
    simp only [BitVec.getLsbD_xor, BitVec.getLsbD_setWidth, BitVec.getLsbD_shiftLeft,
      BitVec.getLsbD_ushiftRight, hi]
    by_cases hn : i < n
    · simp [hn]
    · have hback : n + (i - n) = i := by omega
      simp [hn, hback]
  have hhigh : shifts p n ((c >>> n) <<< n) = c >>> n := by
    rw [shifts_high]
    · apply BitVec.eq_of_getLsbD_eq
      intro i hi
      simp only [BitVec.getLsbD_ushiftRight, BitVec.getLsbD_shiftLeft]
      by_cases hn : n + i < w
      · simp [hn]
      · simp [BitVec.getLsbD_of_ge c (n + i) (by omega)]
    · intro i hi
      simp [BitVec.getLsbD_shiftLeft, hi]
  calc shifts p n c = shifts p n ((c.setWidth n).setWidth w ^^^ (c >>> n) <<< n) := by
        rw [← hsplit]
    _ = shifts p n ((c.setWidth n).setWidth w) ^^^ c >>> n := by
        rw [shifts_xor, hhigh]

/-- Up to `w` bits may come in at once, before the register shifts. -/
theorem feeds_eq (c : BitVec w) {bs : List Bool} (h : bs.length ≤ w) :
    feeds p c bs = shifts p bs.length (c ^^^ pack bs) := by
  induction bs generalizing c with
  | nil => simp [shifts]
  | cons b bs ih =>
    have hlt : bs.length < w := h
    have hdown : shift p ((pack bs : BitVec w) <<< 1) = pack bs := by
      have hone : shifts p 1 ((pack bs : BitVec w) <<< 1) = pack bs := by
        rw [shifts_high]
        · apply BitVec.eq_of_getLsbD_eq
          intro i hi
          simp only [BitVec.getLsbD_ushiftRight, BitVec.getLsbD_shiftLeft, getLsbD_pack]
          by_cases hin : i < bs.length
          · have h1 : 1 + i < w := by omega
            simp [h1]
          · have hout : bs[i]? = none := List.getElem?_eq_none (by omega)
            simp [hout]
        · intro i hi
          simp [BitVec.getLsbD_shiftLeft, hi]
      exact hone
    have hregroup : c ^^^ (pack bs <<< 1 ^^^ bit b) = c ^^^ bit b ^^^ pack bs <<< 1 := by ac_rfl
    rw [feeds_cons, ih _ hlt.le, feed, List.length_cons, shifts, pack_cons, hregroup,
      shift_xor _ (pack bs <<< 1), hdown]

/-! ## Nothing is lost -/

/-- A word with its highest bit put in shows which bit fell out. -/
theorem shift_injective (h : p.msb = true) : Function.Injective (shift p) := by
  intro a b hab
  have hmsb : ∀ c : BitVec w, (shift p c).msb = c.getLsbD 0 := by
    intro c
    unfold shift
    cases hc : c.getLsbD 0
    · simp
    · simp [h]
  have hlow : a.getLsbD 0 = b.getLsbD 0 := by rw [← hmsb a, ← hmsb b, hab]
  have hrest : a >>> 1 = b >>> 1 := by
    unfold shift at hab
    rw [hlow] at hab
    cases hb : b.getLsbD 0
    · simpa [hb] using hab
    · simpa [hb] using hab
  apply BitVec.eq_of_getLsbD_eq
  intro i _
  cases i with
  | zero => exact hlow
  | succ i =>
    have hbit := congrArg (fun c : BitVec w => c.getLsbD i) hrest
    simpa [BitVec.getLsbD_ushiftRight, Nat.add_comm] using hbit

theorem shifts_injective (h : p.msb = true) (n : Nat) : Function.Injective (shifts p n) := by
  induction n with
  | zero => exact Function.injective_id
  | succ n ih => exact ih.comp (shift_injective h)

/-- The same bits keep different registers apart. -/
theorem feeds_injective (h : p.msb = true) (bs : List Bool) :
    Function.Injective fun c => feeds p c bs := by
  induction bs with
  | nil => exact Function.injective_id
  | cons b bs ih =>
    intro c d hcd
    have hfeed : feed p c b = feed p d b := ih hcd
    have hxor := shift_injective h hfeed
    simpa using congrArg (· ^^^ bit b) hxor

theorem pack_inj {as bs : List Bool} (hlen : as.length = bs.length) (hw : bs.length ≤ w)
    (h : (pack as : BitVec w) = pack bs) : as = bs := by
  apply List.ext_getElem hlen
  intro i ha hb
  have hi : i < w := Nat.lt_of_lt_of_le hb hw
  have hbit : (pack as : BitVec w).getLsbD i = (pack bs : BitVec w).getLsbD i := by rw [h]
  simpa only [getLsbD_pack, hi, decide_true, Bool.true_and, List.getD_eq_getElem, ha, hb] using hbit

/-- Two texts that differ only within a window as wide as the register are told apart. -/
theorem feeds_window (h : p.msb = true) (c : BitVec w) (l r : List Bool) {as bs : List Bool}
    (hlen : as.length = bs.length) (hw : bs.length ≤ w)
    (heq : feeds p c (l ++ as ++ r) = feeds p c (l ++ bs ++ r)) : as = bs := by
  have hmiddle : feeds p c (l ++ as) = feeds p c (l ++ bs) := by
    rw [feeds_append, feeds_append _ (l ++ bs)] at heq
    exact feeds_injective h r heq
  rw [feeds_append, feeds_append, feeds_eq _ (hlen ▸ hw), feeds_eq _ hw, hlen] at hmiddle
  have hpack := shifts_injective h bs.length hmiddle
  rw [BitVec.xor_right_inj] at hpack
  exact pack_inj hlen hw hpack

/-! ## Division -/

open Polynomial

/-- A register as a polynomial. Its lowest bit is the coefficient of the highest power. -/
noncomputable def poly (c : BitVec w) : (ZMod 2)[X] :=
  ∑ i ∈ Finset.range w, if c.getLsbD i then X ^ (w - 1 - i) else 0

/-- What the register divides by. -/
noncomputable def generator (p : BitVec w) : (ZMod 2)[X] :=
  X ^ w + poly p

/-- Bits as a polynomial. The first bit is the coefficient of the highest power. -/
noncomputable def message : List Bool → (ZMod 2)[X]
  | [] => 0
  | b :: bs => (if b then X ^ bs.length else 0) + message bs

/-- The terms of a register, one for each bit that is set. -/
theorem poly_eq_sum (c : BitVec w) :
    poly c = (((List.range w).filter c.getLsbD).map fun i => (X : (ZMod 2)[X]) ^ (w - 1 - i)).sum := by
  have hterms : ∀ l : List Nat,
      (l.map fun i => if c.getLsbD i then (X : (ZMod 2)[X]) ^ (w - 1 - i) else 0).sum =
        ((l.filter c.getLsbD).map fun i => (X : (ZMod 2)[X]) ^ (w - 1 - i)).sum := by
    intro l
    induction l with
    | nil => rfl
    | cons i l ih => cases hi : c.getLsbD i <;> simp [hi, ih]
  exact hterms (List.range w)

theorem poly_xor (a b : BitVec w) : poly (a ^^^ b) = poly a + poly b := by
  unfold poly
  rw [← Finset.sum_add_distrib]
  apply Finset.sum_congr rfl
  intro i _
  rw [BitVec.getLsbD_xor]
  cases a.getLsbD i <;> cases b.getLsbD i
  · simp
  · simp
  · simp
  · simp [CharTwo.add_self_eq_zero]

theorem degree_poly_lt (c : BitVec w) : (poly c).degree < w := by
  unfold poly
  refine lt_of_le_of_lt (degree_sum_le _ _) ?_
  apply (Finset.sup_lt_iff (WithBot.bot_lt_coe w)).mpr
  intro i hi
  rw [Finset.mem_range] at hi
  split
  · rw [degree_X_pow]
    exact WithBot.coe_lt_coe.mpr (show w - 1 - i < w by omega)
  · rw [degree_zero]
    exact WithBot.bot_lt_coe w

theorem monic_generator (p : BitVec w) : (generator p).Monic :=
  monic_X_pow_add (degree_poly_lt p)

theorem degree_generator (p : BitVec w) : (generator p).degree = w := by
  unfold generator
  rw [degree_add_eq_left_of_degree_lt]
  · exact degree_X_pow w
  · rw [degree_X_pow]
    exact degree_poly_lt p

theorem poly_bit (hw : 0 < w) (b : Bool) :
    poly (bit b : BitVec w) = if b then X ^ (w - 1) else 0 := by
  unfold poly
  rw [Finset.sum_eq_single 0]
  · rw [getLsbD_bit]
    simp [hw]
  · intro i _ hi
    simp [getLsbD_bit, hi]
  · intro h
    exact absurd (Finset.mem_range.mpr hw) h

/-- Without the word that is put in, a shift multiplies by `X`, up to the bit that falls out. -/
theorem poly_shiftRight (c : BitVec w) :
    poly (c >>> 1) + (if c.getLsbD 0 then X ^ w else 0) = X * poly c := by
  cases w with
  | zero => simp [poly, BitVec.getLsbD_of_ge]
  | succ n =>
    unfold poly
    rw [Finset.sum_range_succ, Finset.mul_sum, Finset.sum_range_succ']
    have htop : (c >>> 1).getLsbD n = false := by simp
    have hrest : ∀ i ∈ Finset.range n,
        (if (c >>> 1).getLsbD i then (X : (ZMod 2)[X]) ^ (n + 1 - 1 - i) else 0) =
          X * if c.getLsbD (i + 1) then X ^ (n + 1 - 1 - (i + 1)) else 0 := by
      intro i hi
      rw [Finset.mem_range] at hi
      rw [BitVec.getLsbD_ushiftRight, Nat.add_comm 1 i]
      split
      · rw [← pow_succ']
        congr 1
        omega
      · rw [mul_zero]
    rw [Finset.sum_congr rfl hrest, htop]
    simp only [Bool.false_eq_true, if_false, add_zero, mul_ite, mul_zero]
    congr 1
    split
    · rw [← pow_succ']
      simp
    · rfl

theorem poly_shift (c : BitVec w) :
    poly (shift p c) + (if c.getLsbD 0 then generator p else 0) = X * poly c := by
  rw [← poly_shiftRight]
  unfold shift generator
  split
  · rw [poly_xor]
    calc poly (c >>> 1) + poly p + (X ^ w + poly p)
        = poly (c >>> 1) + X ^ w + (poly p + poly p) := by ring
      _ = poly (c >>> 1) + X ^ w := by rw [CharTwo.add_self_eq_zero, add_zero]
  · rfl

theorem poly_feed (hw : 0 < w) (c : BitVec w) (b : Bool) :
    poly (feed p c b) + (if (c ^^^ bit b).getLsbD 0 then generator p else 0) =
      X * poly c + if b then X ^ w else 0 := by
  have hpow : (X : (ZMod 2)[X]) * X ^ (w - 1) = X ^ w := by
    rw [← pow_succ', Nat.sub_add_cancel hw]
  unfold feed
  rw [poly_shift, poly_xor, poly_bit hw, mul_add]
  cases b
  · simp
  · simp [hpow]

theorem poly_feeds_quotient (hw : 0 < w) (c : BitVec w) (bs : List Bool) :
    ∃ q, poly (feeds p c bs) + generator p * q = X ^ bs.length * poly c + X ^ w * message bs := by
  induction bs generalizing c with
  | nil => exact ⟨0, by simp [message]⟩
  | cons b bs ih =>
    obtain ⟨q, hq⟩ := ih (feed p c b)
    have hfeed := poly_feed (p := p) hw c b
    have hin : X ^ w * message (b :: bs) =
        X ^ bs.length * (if b then X ^ w else 0) + X ^ w * message bs := by
      rw [message]
      cases b
      · simp
      · rw [if_pos rfl, if_pos rfl, mul_add, mul_comm]
    rw [feeds_cons, hin, List.length_cons, pow_succ]
    by_cases hout : (c ^^^ bit b).getLsbD 0 = true
    · rw [if_pos hout] at hfeed
      refine ⟨q + X ^ bs.length, ?_⟩
      linear_combination hq + X ^ bs.length * hfeed
    · rw [if_neg hout] at hfeed
      refine ⟨q, ?_⟩
      linear_combination hq + X ^ bs.length * hfeed

/-- The register has the remainder of all that was fed, behind what it had in the beginning. -/
theorem poly_feeds (hw : 0 < w) (c : BitVec w) (bs : List Bool) :
    poly (feeds p c bs) = (X ^ bs.length * poly c + X ^ w * message bs) %ₘ generator p := by
  obtain ⟨q, hq⟩ := poly_feeds_quotient (p := p) hw c bs
  have hdiv := div_modByMonic_unique q (poly (feeds p c bs)) (monic_generator p) ⟨hq, ?_⟩
  · exact hdiv.2.symm
  · rw [degree_generator]
    exact degree_poly_lt _

end lib.shift_register
