-- Partly known memory. A list tells what stands in memory from some address on,
-- with `none` where it does not say. Copies of memory move such knowledge.
import Mathlib.Data.List.TakeDrop
import Mathlib.Data.List.GetD

namespace lib.known

variable {α : Type*} {mem mem' : Nat → α} {p q n : Nat} {l l' : List (Option α)}

/-- What `l` tells stands from `p` on. -/
def At (mem : Nat → α) (p : Nat) (l : List (Option α)) : Prop :=
  ∀ k x, l[k]? = some (some x) → mem (p + k) = x

/-- The memory after `n` cells from `src` on are copied to `dst`. -/
def copy (mem : Nat → α) (dst src n : Nat) : Nat → α := fun a =>
  if dst ≤ a ∧ a < dst + n then mem (src + (a - dst)) else mem a

theorem known_lt {k : Nat} {x : α} (h : l[k]? = some (some x)) : k < l.length := by
  by_contra hk
  rw [List.getElem?_eq_none (by omega)] at h
  cases h

@[simp] theorem at_nil : At mem p [] := by
  intro k x h
  cases h

theorem at_unknown : At mem p (.replicate n none) := by
  intro k x h
  have hk : k < n := by simpa using known_lt h
  rw [List.getElem?_replicate, if_pos hk] at h
  cases h

theorem at_append : At mem p (l ++ l') ↔ At mem p l ∧ At mem (p + l.length) l' := by
  constructor
  · intro h
    constructor
    · intro k x hk
      apply h k x
      rw [List.getElem?_append_left (known_lt hk)]
      exact hk
    · intro k x hk
      rw [Nat.add_assoc]
      apply h (l.length + k) x
      rw [List.getElem?_append_right (by omega), Nat.add_sub_cancel_left]
      exact hk
  · rintro ⟨h, h'⟩ k x hk
    by_cases hlt : k < l.length
    · rw [List.getElem?_append_left hlt] at hk
      exact h k x hk
    · rw [List.getElem?_append_right (by omega)] at hk
      have heq : p + k = p + l.length + (k - l.length) := by omega
      rw [heq]
      exact h' _ x hk

theorem at_take (h : At mem p l) (n : Nat) : At mem p (l.take n) := by
  intro k x hk
  apply h k x
  have hlt := known_lt hk
  rw [List.length_take] at hlt
  rwa [List.getElem?_take_of_lt (by omega)] at hk

theorem at_drop (h : At mem p l) (n : Nat) : At mem (p + n) (l.drop n) := by
  intro k x hk
  rw [List.getElem?_drop] at hk
  rw [Nat.add_assoc]
  exact h (n + k) x hk

/-- Memory that is the same in all known places. -/
theorem at_congr (h : At mem p l)
    (hsame : ∀ k x, l[k]? = some (some x) → mem' (p + k) = mem (p + k)) : At mem' p l := by
  intro k x hk
  rw [hsame k x hk]
  exact h k x hk

/-- What was known at the source is known at the destination. -/
theorem at_copy (h : At mem q l) (hn : l.length ≤ n) : At (copy mem p q n) p l := by
  intro k x hk
  have hlt := known_lt hk
  unfold copy
  rw [if_pos (by omega), Nat.add_sub_cancel_left]
  exact h k x hk

theorem copy_apart {a : Nat} (h : a < p ∨ p + n ≤ a) : copy mem p q n a = mem a := by
  unfold copy
  rw [if_neg (by omega)]

/-- A copy leaves what is known elsewhere. -/
theorem at_copy_apart {r : Nat} (h : At mem r l) (hapart : r + l.length ≤ p ∨ p + n ≤ r) :
    At (copy mem p q n) r l := by
  apply at_congr h
  intro k x hk
  have hlt := known_lt hk
  exact copy_apart (by omega)

/-! ## What is seen, what is kept -/

open Classical in
/-- The `n` cells from `p` on, known where `K` holds. -/
noncomputable def read (mem : Nat → α) (K : Nat → Prop) (p n : Nat) : List (Option α) :=
  (List.range n).map fun k => if K (p + k) then some (mem (p + k)) else none

open Classical in
/-- What is known from `p` on, as far as `K` holds there. -/
noncomputable def keep (K : Nat → Prop) (p : Nat) (l : List (Option α)) : List (Option α) :=
  l.mapIdx fun k x => if K (p + k) then x else none

/-- The first `n` cells, and unknown ones where there are less. -/
def resize (l : List (Option α)) (n : Nat) : List (Option α) :=
  l.take n ++ .replicate (n - l.length) none

variable {K : Nat → Prop}

@[simp] theorem read_length : (read mem K p n).length = n := by
  simp [read]

theorem read_known {k : Nat} {x : α} (h : (read mem K p n)[k]? = some (some x)) :
    K (p + k) ∧ mem (p + k) = x := by
  have hk : k < n := by simpa using known_lt h
  simpa [read, hk] using h

theorem at_read : At mem p (read mem K p n) :=
  fun _ _ hk => (read_known hk).2

@[simp] theorem keep_length : (keep K p l).length = l.length := by
  simp [keep]

theorem keep_known {k : Nat} {x : α} (h : (keep K p l)[k]? = some (some x)) :
    K (p + k) ∧ l[k]? = some (some x) := by
  have hk : k < l.length := by simpa using known_lt h
  simpa [keep, hk] using h

@[simp] theorem resize_length : (resize l n).length = n := by
  simp only [resize, List.length_append, List.length_take, List.length_replicate]
  omega

theorem at_resize (h : At mem p l) : At mem p (resize l n) :=
  at_append.mpr ⟨at_take h n, at_unknown⟩

end lib.known
