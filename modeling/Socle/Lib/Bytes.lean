-- Bytes in a memory, and the numbers that they write in network order.
import Mathlib.Data.List.GetD

namespace lib.bytes

/-- The number that two bytes write in network order. -/
def be16 (hi lo : UInt8) : Nat :=
  hi.toNat * 256 + lo.toNat

/-- The two bytes that write `n` in network order. -/
def u16 (n : Nat) : List UInt8 :=
  [UInt8.ofNat (n / 256), UInt8.ofNat (n % 256)]

@[simp] theorem u16_length (n : Nat) : (u16 n).length = 2 := rfl

theorem be16_lt (hi lo : UInt8) : be16 hi lo < 65536 := by
  have h := hi.toNat_lt
  have h' := lo.toNat_lt
  unfold be16
  omega

theorem be16_u16 {n : Nat} (h : n < 65536) :
    be16 (UInt8.ofNat (n / 256)) (UInt8.ofNat (n % 256)) = n := by
  unfold be16
  rw [UInt8.toNat_ofNat', UInt8.toNat_ofNat']
  omega

/-- The number that four bytes write in network order. -/
def be32 (a b c d : UInt8) : Nat :=
  be16 a b * 65536 + be16 c d

/-- The four bytes that write `n` in network order. -/
def u32 (n : Nat) : List UInt8 :=
  u16 (n / 65536) ++ u16 (n % 65536)

@[simp] theorem u32_length (n : Nat) : (u32 n).length = 4 := rfl

theorem be32_lt (a b c d : UInt8) : be32 a b c d < 4294967296 := by
  have hhi := be16_lt a b
  have hlo := be16_lt c d
  unfold be32
  omega

/-- The `n` bytes from `p` on. -/
def slice (mem : Nat → UInt8) (p n : Nat) : List UInt8 :=
  (List.range n).map fun i => mem (p + i)

/-- The bytes `l` stand from `p` on. -/
def Holds (mem : Nat → UInt8) (p : Nat) (l : List UInt8) : Prop :=
  slice mem p l.length = l

variable {mem : Nat → UInt8} {p : Nat} {l l' : List UInt8}

theorem slice_succ (mem : Nat → UInt8) (p n : Nat) :
    slice mem p (n + 1) = mem p :: slice mem (p + 1) n := by
  unfold slice
  rw [List.range_succ_eq_map, List.map_cons, List.map_map, Nat.add_zero]
  congr 1
  apply List.map_congr_left
  intro i _
  simp only [Function.comp_apply]
  congr 1
  omega

theorem slice_add (mem : Nat → UInt8) (p m n : Nat) :
    slice mem p (m + n) = slice mem p m ++ slice mem (p + m) n := by
  unfold slice
  rw [List.range_add, List.map_append, List.map_map]
  congr 1
  apply List.map_congr_left
  intro i _
  simp only [Function.comp_apply, Nat.add_assoc]

@[simp] theorem holds_nil : Holds mem p [] := rfl

@[simp] theorem holds_cons {a : UInt8} :
    Holds mem p (a :: l) ↔ mem p = a ∧ Holds mem (p + 1) l := by
  unfold Holds
  rw [List.length_cons, slice_succ, List.cons.injEq]

@[simp] theorem holds_append :
    Holds mem p (l ++ l') ↔ Holds mem p l ∧ Holds mem (p + l.length) l' := by
  induction l generalizing p with
  | nil => simp
  | cons a l ih =>
    rw [List.cons_append, holds_cons, holds_cons, ih, List.length_cons, and_assoc,
      Nat.add_comm l.length 1, Nat.add_assoc]

theorem get_of_holds (h : Holds mem p l) {i : Nat} (hi : i < l.length) : mem (p + i) = l[i] := by
  induction l generalizing p i with
  | nil => cases hi
  | cons a l ih =>
    rw [holds_cons] at h
    cases i with
    | zero => exact h.1
    | succ i =>
      have hi' : i < l.length := Nat.lt_of_succ_lt_succ hi
      have heq : p + (i + 1) = p + 1 + i := by omega
      rw [heq, List.getElem_cons_succ]
      exact ih h.2 hi'

/-- A number that stands in memory is read back. -/
theorem be16_of_holds {n : Nat} (hn : n < 65536) (h : Holds mem p (u16 n)) :
    be16 (mem p) (mem (p + 1)) = n := by
  simp only [u16, holds_cons] at h
  rw [h.1, h.2.1]
  exact be16_u16 hn

theorem be32_of_holds {n : Nat} (hn : n < 4294967296) (h : Holds mem p (u32 n)) :
    be32 (mem p) (mem (p + 1)) (mem (p + 2)) (mem (p + 3)) = n := by
  unfold u32 at h
  rw [holds_append, u16_length] at h
  unfold be32
  rw [be16_of_holds (by omega) h.1, be16_of_holds (by omega) h.2]
  omega

@[simp] theorem slice_length (n : Nat) : (slice mem p n).length = n := by
  unfold slice
  rw [List.length_map, List.length_range]

/-- What stands in memory is what a slice of it gives. -/
theorem slice_of_holds (h : Holds mem p l) {n : Nat} (hn : n = l.length) : slice mem p n = l := by
  rw [hn]
  exact h

/-- `memcpy(p, l, n)`, with the bytes `l`. -/
def put (mem : Nat → UInt8) (p : Nat) (l : List UInt8) : Nat → UInt8 := fun a =>
  if p ≤ a ∧ a < p + l.length then l.getD (a - p) 0 else mem a

/-- What was put stands there. -/
theorem holds_put (mem : Nat → UInt8) (p : Nat) (l : List UInt8) : Holds (put mem p l) p l := by
  unfold Holds slice
  apply List.ext_getElem
  · simp
  · intro i h1 h2
    simp only [List.getElem_map, List.getElem_range]
    unfold put
    rw [if_pos (by omega), Nat.add_sub_cancel_left, List.getD_eq_getElem l 0 h2]

end lib.bytes
