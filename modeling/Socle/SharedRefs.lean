-- Shared pointers that count their references (sobject.hpp). `ι` are the spointers,
-- `κ` the srefs, and `T` the objects.
import Socle.Lib.Run
import Socle.Lib.Total

namespace socle.shared

open lib.run lib.total

/-! ## The counter -/

structure spointer (T : Type) where
  pointer_ : Option T := none
  count_ : Int32 := 0

namespace spointer

variable {T : Type}

/-- `usage`, where the counter becomes an `unsigned int`. -/
def usage (s : spointer T) : Nat :=
  s.count_.toUInt32.toNat

def use (s : spointer T) : spointer T :=
  { s with count_ := s.count_ + 1 }

def unuse (s : spointer T) : spointer T :=
  let count := if s.count_ > 0 then s.count_ - 1 else s.count_
  -- fight data race in previous test
  { s with count_ := if count < 0 then 0 else count }

def invalidate (s : spointer T) : spointer T :=
  { s with pointer_ := none, count_ := 0 }

def ptr (s : spointer T) (p : Option T) : spointer T :=
  { s.invalidate with pointer_ := p }

theorem toInt_unsigned (c : Int32) :
    c.toInt = if 2 * c.toUInt32.toNat < 4294967296 then (c.toUInt32.toNat : Int)
      else c.toUInt32.toNat - 4294967296 := by
  rw [← Int32.toInt_toBitVec, BitVec.toInt_eq_toNat_cond]
  exact rfl

theorem pos_iff (c : Int32) :
    c > 0 ↔ 0 < c.toUInt32.toNat ∧ c.toUInt32.toNat < 2147483648 := by
  have hlt := c.toUInt32.toNat_lt
  rw [gt_iff_lt, Int32.lt_iff_toInt_lt, toInt_unsigned c, Int32.toInt_zero]
  split <;> omega

theorem neg_iff (c : Int32) : c < 0 ↔ 2147483648 ≤ c.toUInt32.toNat := by
  have hlt := c.toUInt32.toNat_lt
  rw [Int32.lt_iff_toInt_lt, toInt_unsigned c, Int32.toInt_zero]
  split <;> omega

theorem usage_use (s : spointer T) : s.use.usage = (s.usage + 1) % 4294967296 := by
  unfold use usage
  rw [Int32.toUInt32_add, UInt32.toNat_add]
  rfl

theorem usage_lt (s : spointer T) : s.usage < 4294967296 :=
  s.count_.toUInt32.toNat_lt

/-- What is below zero becomes zero. -/
theorem usage_unuse (s : spointer T) :
    s.unuse.usage = if s.usage < 2147483648 then s.usage - 1 else 0 := by
  unfold unuse usage
  simp only [neg_iff, pos_iff]
  by_cases hpos : 0 < s.count_.toUInt32.toNat ∧ s.count_.toUInt32.toNat < 2147483648
  · have hpred : (s.count_ - 1).toUInt32.toNat = s.count_.toUInt32.toNat - 1 := by
      rw [Int32.toUInt32_sub, UInt32.toNat_sub_of_le]
      · rfl
      · exact UInt32.le_iff_toNat_le.mpr hpos.1
    rw [if_pos hpos, if_pos hpos.2, if_neg (by omega), hpred]
  · rw [if_neg hpos]
    split
    next h => rw [if_neg (by omega)]; rfl
    next h => rw [if_pos (by omega)]; omega

theorem usage_invalidate (s : spointer T) : s.invalidate.usage = 0 := rfl

theorem usage_ptr (s : spointer T) (p : Option T) : (s.ptr p).usage = 0 := rfl

end spointer

/-! ## The references -/

/-- The spointers, and what each live sref refers to. -/
structure State (ι κ T : Type) where
  sptrs : ι → spointer T
  srefs : AList fun _ : κ => Option ι

section

variable {ι κ T : Type}

namespace State

def usage (s : State ι κ T) (p : ι) : Nat :=
  (s.sptrs p).usage

section
variable [DecidableEq ι]

/-- What a member function does to a spointer. -/
def on (s : State ι κ T) (p : ι) (f : spointer T → spointer T) : State ι κ T :=
  { s with sptrs := Function.update s.sptrs p (f (s.sptrs p)) }

theorem usage_on (s : State ι κ T) (q : ι) (f : spointer T → spointer T) (p : ι) :
    (s.on q f).usage p = if q = p then (f (s.sptrs p)).usage else s.usage p := by
  unfold usage on
  by_cases h : q = p
  · subst h
    simp
  · simp [h, Ne.symm h]

end

variable [DecidableEq κ]

def reference_ (s : State ι κ T) (k : κ) : Option ι :=
  (s.srefs.lookup k).join

/-- `reference_ = n`. -/
def refer (s : State ι κ T) (k : κ) (n : Option ι) : State ι κ T :=
  { s with srefs := s.srefs.insert k n }

theorem reference_of_dead {s : State ι κ T} {k : κ} (h : k ∉ s.srefs) : s.reference_ k = none := by
  unfold reference_
  rw [AList.lookup_eq_none.mpr h]
  rfl

theorem reference_refer (s : State ι κ T) (k : κ) (n : Option ι) (other : κ) :
    (s.refer k n).reference_ other = if other = k then n else s.reference_ other := by
  unfold reference_ refer
  by_cases h : other = k
  · rw [h, if_pos rfl, AList.lookup_insert]
    rfl
  · rw [if_neg h, AList.lookup_insert_ne h]

variable [DecidableEq ι]

def unref (s : State ι κ T) (k : κ) : State ι κ T :=
  match s.reference_ k with
  | some p => (s.on p spointer.unuse).refer k none
  | none => s

/-- `newref`, where a pointer that is not null is used. -/
def newref (s : State ι κ T) (k : κ) (n : Option ι) : State ι κ T :=
  match n with
  | some p => (s.refer k n).on p spointer.use
  | none => s.refer k n

def ref (s : State ι κ T) (k : κ) (n : Option ι) : State ι κ T :=
  (s.unref k).newref k n

/-- `operator=`. -/
def assign (s : State ι κ T) (k other : κ) : State ι κ T :=
  if k ≠ other then (s.unref k).newref k ((s.unref k).reference_ other) else s

/-- `~sref`. -/
def destroy (s : State ι κ T) (k : κ) : State ι κ T :=
  { s.unref k with srefs := (s.unref k).srefs.erase k }

end State

/-- What a program does with spointers and srefs. The pointer that `ref`, `newref` and a constructor
take may be null. -/
inductive call (ι κ T : Type)
  | sref (k : κ)
  | sref_pointer (k : κ) (r : Option ι)
  | sref_reference (k : κ) (r : ι)
  | sref_copy (k other : κ)
  | assign (k other : κ)
  | destroy (k : κ)
  | unref (k : κ)
  | newref_pointer (k : κ) (n : Option ι)
  | newref_reference (k : κ) (n : ι)
  | ref_pointer (k : κ) (n : Option ι)
  | ref_reference (k : κ) (n : ι)
  | ptr (p : ι) (v : Option T)
  | invalidate (p : ι)

variable [DecidableEq κ] [DecidableEq ι]

/-- A constructor takes an sref that does not live, and each other call takes one that lives. The
constructor that takes a pointer does not look whether it is null. -/
def step (s : State ι κ T) : call ι κ T → Option (State ι κ T)
  | .sref k => if k ∈ s.srefs then none else some (s.refer k none)
  | .sref_pointer k r => if k ∈ s.srefs ∨ r = none then none else some (s.newref k r)
  | .sref_reference k r => if k ∈ s.srefs then none else some (s.newref k (some r))
  | .sref_copy k other =>
    if k ∈ s.srefs ∨ other ∉ s.srefs then none else some (s.newref k (s.reference_ other))
  | .assign k other => if k ∈ s.srefs ∧ other ∈ s.srefs then some (s.assign k other) else none
  | .destroy k => if k ∈ s.srefs then some (s.destroy k) else none
  | .unref k => if k ∈ s.srefs then some (s.unref k) else none
  | .newref_pointer k n => if k ∈ s.srefs then some (s.newref k n) else none
  | .newref_reference k n => if k ∈ s.srefs then some (s.newref k (some n)) else none
  | .ref_pointer k n => if k ∈ s.srefs then some (s.ref k n) else none
  | .ref_reference k n => if k ∈ s.srefs then some (s.ref k (some n)) else none
  | .ptr p v => some (s.on p fun sptr => sptr.ptr v)
  | .invalidate p => some (s.on p spointer.invalidate)

/-- Spointers with these pointers, and no sref. -/
def State.start (pointers : ι → Option T) : State ι κ T where
  sptrs p := { pointer_ := pointers p }
  srefs := ∅

end

/-! ## What is counted -/

section

variable {ι κ T : Type} [DecidableEq ι]

/-- What an sref adds to the references of `p`. -/
def points (p : ι) (r : Option ι) : Nat :=
  if r = some p then 1 else 0

namespace State

/-- How many live srefs refer to `p`. -/
def references (s : State ι κ T) (p : ι) : Nat :=
  sum_of (points p) s.srefs

/-- `usage` of each spointer is right. -/
def Right (s : State ι κ T) : Prop :=
  ∀ p, s.usage p = s.references p

/-- A reference that is dropped is one of less than 2^31. -/
def Droppable (s : State ι κ T) (old : Option ι) : Prop :=
  ∀ p, old = some p → s.references p < 2147483648

/-- A reference more can be counted. -/
def Addable (s : State ι κ T) (old new : Option ι) : Prop :=
  ∀ p, new = some p → old = some p ∨ s.references p + 1 < 4294967296

/-- The counter of `p` after a call that gives `released` back and then uses `new`. -/
def counted (p : ι) (released new : Option ι) (u : Nat) : Nat :=
  let u := if released = some p then if u < 2147483648 then u - 1 else 0 else u
  if new = some p then (u + 1) % 4294967296 else u

/-- What a call does that gives `released` back, takes `old` away from an sref and lets it refer to
`new`. -/
structure Moves (s s' : State ι κ T) (released old new : Option ι) : Prop where
  usage : ∀ p, s'.usage p = counted p released new (s.usage p)
  references : ∀ p, s'.references p + points p old = s.references p + points p new

variable {s s' : State ι κ T} {released old new : Option ι}

/-- From right counters, the references alone say whether the counters are right again. -/
theorem Moves.right_again (h : Moves s s' released old new) (hs : s.Right) :
    s'.Right ↔ ∀ p, counted p released new (s.references p) + points p old =
      s.references p + points p new := by
  unfold Right
  apply forall_congr'
  intro p
  have hreferences := h.references p
  rw [h.usage p, hs p]
  omega

theorem references_lt (hs : s.Right) (p : ι) : s.references p < 4294967296 := by
  rw [← hs p]
  exact (s.sptrs p).usage_lt

/-- The counters are right again, when what is taken away is given back. -/
theorem Moves.right_iff (h : Moves s s' old old new) (hs : s.Right)
    (hold : ∀ p, points p old ≤ s.references p) :
    s'.Right ↔ s.Droppable old ∧ s.Addable old new := by
  unfold Droppable Addable
  rw [h.right_again hs, ← forall_and]
  apply forall_congr'
  intro p
  have hle := hold p
  have hlt := references_lt hs p
  unfold points at hle
  unfold counted points
  by_cases hp : old = some p <;> by_cases hq : new = some p
  · simp only [hp, hq, if_true] at hle ⊢
    split <;> simp <;> omega
  · simp only [hp, hq, if_true, if_false] at hle ⊢
    split <;> simp <;> omega
  · simp [hp, hq]
  · simp [hp, hq]

/-- Where nothing is given back, nothing may be taken away. -/
theorem Moves.right_iff_null (h : Moves s s' none old new) (hs : s.Right)
    (hold : ∀ p, points p old ≤ s.references p) :
    s'.Right ↔ old = none ∧ s.Addable none new := by
  unfold Addable
  rw [h.right_again hs, Option.eq_none_iff_forall_ne_some, ← forall_and]
  apply forall_congr'
  intro p
  have hle := hold p
  have hlt := references_lt hs p
  unfold points at hle
  unfold counted points
  by_cases hp : old = some p <;> by_cases hq : new = some p
  · simp only [hp, hq, reduceCtorEq, if_true, if_false] at hle ⊢
    simp
    omega
  · simp only [hp, hq, reduceCtorEq, if_true, if_false] at hle ⊢
    simp
  · simp [hp, hq]
  · simp [hp, hq]

theorem resets_iff {p : ι} {f : spointer T → spointer T} (hf : ∀ sptr, (f sptr).usage = 0)
    (hs : s.Right) : (s.on p f).Right ↔ s.references p = 0 := by
  constructor
  · intro h
    have hp := h p
    rw [usage_on, if_pos rfl, hf] at hp
    exact hp.symm
  · intro h q
    rw [usage_on]
    by_cases hq : p = q
    · rw [if_pos hq, hf, ← h, hq]
      rfl
    · rw [if_neg hq]
      exact hs q

theorem addable_null (s : State ι κ T) (old : Option ι) : s.Addable old none := by
  intro p hp
  cases hp

variable [DecidableEq κ]

/-- The call keeps the counters right: `newref` finds a reference that is null, `ptr` and
`invalidate` find a spointer that nothing refers to, and the counter has room. -/
def Counts (s : State ι κ T) : call ι κ T → Prop
  | .sref _ => True
  | .sref_pointer _ r => s.Addable none r
  | .sref_reference _ r => s.Addable none (some r)
  | .sref_copy _ other => s.Addable none (s.reference_ other)
  | .assign k other =>
    k = other ∨ s.Droppable (s.reference_ k) ∧ s.Addable (s.reference_ k) (s.reference_ other)
  | .destroy k => s.Droppable (s.reference_ k)
  | .unref k => s.Droppable (s.reference_ k)
  | .newref_pointer k n => s.reference_ k = none ∧ s.Addable none n
  | .newref_reference k n => s.reference_ k = none ∧ s.Addable none (some n)
  | .ref_pointer k n => s.Droppable (s.reference_ k) ∧ s.Addable (s.reference_ k) n
  | .ref_reference k n => s.Droppable (s.reference_ k) ∧ s.Addable (s.reference_ k) (some n)
  | .ptr p _ => s.references p = 0
  | .invalidate p => s.references p = 0

variable {k : κ}

theorem at_key_points (s : State ι κ T) (k : κ) (p : ι) :
    at_key (points p) s.srefs k = points p (s.reference_ k) := by
  unfold reference_
  cases hk : s.srefs.lookup k with
  | none => rw [at_key_none hk]; rfl
  | some r => rw [at_key_some hk]; rfl

/-- The sref that refers to `p` is one of those that do. -/
theorem points_le (s : State ι κ T) (k : κ) (p : ι) :
    points p (s.reference_ k) ≤ s.references p := by
  rw [← at_key_points]
  unfold references
  rw [← sum_of_erase (f := points p) (m := s.srefs) (k := k)]
  exact Nat.le_add_left _ _

theorem references_refer (s : State ι κ T) (k : κ) (n : Option ι) (p : ι) :
    (s.refer k n).references p + points p (s.reference_ k) = s.references p + points p n := by
  rw [← at_key_points]
  exact sum_of_insert

theorem unref_moves (s : State ι κ T) (k : κ) :
    Moves s (s.unref k) (s.reference_ k) (s.reference_ k) none := by
  unfold unref
  cases hk : s.reference_ k with
  | none => exact ⟨fun _ => rfl, fun _ => rfl⟩
  | some q =>
    refine ⟨fun p => ?_, fun p => ?_⟩
    · show (s.on q spointer.unuse).usage p = _
      rw [usage_on]
      by_cases hq : q = p
      · subst hq
        unfold counted
        rw [if_pos rfl, if_pos rfl, spointer.usage_unuse]
        rfl
      · simp [counted, hq]
    · have hr := references_refer (s.on q spointer.unuse) k none p
      have hq : (s.on q spointer.unuse).reference_ k = some q := hk
      rw [hq] at hr
      exact hr

theorem newref_moves (s : State ι κ T) (k : κ) (n : Option ι) :
    Moves s (s.newref k n) none (s.reference_ k) n := by
  cases n with
  | none => exact ⟨fun _ => rfl, fun p => references_refer s k none p⟩
  | some q =>
    refine ⟨fun p => ?_, fun p => references_refer s k (some q) p⟩
    show ((s.refer k (some q)).on q spointer.use).usage p = _
    rw [usage_on]
    by_cases hq : q = p
    · subst hq
      unfold counted
      rw [if_pos rfl, if_pos rfl, spointer.usage_use]
      rfl
    · unfold counted
      rw [if_neg hq, if_neg (by simp [hq])]
      rfl

theorem reference_unref (s : State ι κ T) (k other : κ) :
    (s.unref k).reference_ other = if other = k then none else s.reference_ other := by
  unfold unref
  cases hk : s.reference_ k with
  | none =>
    by_cases h : other = k
    · rw [h, if_pos rfl]
      exact hk
    · rw [if_neg h]
  | some q => exact reference_refer (s.on q spointer.unuse) k none other

theorem Moves.newref {released : Option ι} (h : Moves s s' released old none)
    (hk : s'.reference_ k = none) (n : Option ι) :
    Moves s (s'.newref k n) released old n where
  usage p := by
    rw [(newref_moves s' k n).usage p, h.usage p]
    rfl
  references p := by
    have hr := h.references p
    have hr' := (newref_moves s' k n).references p
    have hzero : points p (none : Option ι) = 0 := rfl
    rw [hk, hzero] at hr'
    rw [hzero] at hr
    omega

theorem ref_moves (s : State ι κ T) (k : κ) (n : Option ι) :
    Moves s (s.ref k n) (s.reference_ k) (s.reference_ k) n := by
  apply (unref_moves s k).newref
  rw [reference_unref, if_pos rfl]

/-- The sref that is destroyed refers to nothing any more. -/
theorem destroy_moves (s : State ι κ T) (k : κ) :
    Moves s (s.destroy k) (s.reference_ k) (s.reference_ k) none := by
  have hmoves := unref_moves s k
  refine ⟨hmoves.usage, fun p => ?_⟩
  rw [← hmoves.references p]
  have herase := sum_of_erase (f := points p) (m := (s.unref k).srefs) (k := k)
  rw [at_key_points, reference_unref, if_pos rfl] at herase
  have hzero : points p (none : Option ι) = 0 := rfl
  rw [hzero, Nat.add_zero] at herase
  rw [← show (s.destroy k).references p = (s.unref k).references p from herase]

theorem newref_right_iff (hs : s.Right) (k : κ) (n : Option ι) :
    (s.newref k n).Right ↔ s.reference_ k = none ∧ s.Addable none n :=
  (newref_moves s k n).right_iff_null hs (points_le s k)

theorem construct_right_iff (hs : s.Right) (hk : k ∉ s.srefs) (n : Option ι) :
    (s.newref k n).Right ↔ s.Addable none n := by
  rw [newref_right_iff hs, and_iff_right (reference_of_dead hk)]

theorem ref_right_iff (hs : s.Right) (k : κ) (n : Option ι) :
    (s.ref k n).Right ↔ s.Droppable (s.reference_ k) ∧ s.Addable (s.reference_ k) n :=
  (ref_moves s k n).right_iff hs (points_le s k)

theorem unref_right_iff (hs : s.Right) (k : κ) :
    (s.unref k).Right ↔ s.Droppable (s.reference_ k) := by
  rw [(unref_moves s k).right_iff hs (points_le s k), and_iff_left (addable_null s _)]

theorem destroy_right_iff (hs : s.Right) (k : κ) :
    (s.destroy k).Right ↔ s.Droppable (s.reference_ k) := by
  rw [(destroy_moves s k).right_iff hs (points_le s k), and_iff_left (addable_null s _)]

/-- An assignment is a `ref` to what the other sref refers to. -/
theorem assign_eq {other : κ} (h : k ≠ other) :
    s.assign k other = s.ref k (s.reference_ other) := by
  unfold assign ref
  rw [if_pos h, reference_unref, if_neg (Ne.symm h)]

/-- One call keeps the counters right just when it meets the condition. -/
theorem step_right_iff {a : call ι κ T} (hs : s.Right) (h : step s a = some s') :
    s'.Right ↔ s.Counts a := by
  cases a with
  | sref k =>
    obtain ⟨hk, heq⟩ := Option.ite_none_left_eq_some.mp h
    cases heq
    exact (construct_right_iff hs hk none).trans (iff_true_intro (addable_null s none))
  | sref_pointer k r =>
    obtain ⟨hk, heq⟩ := Option.ite_none_left_eq_some.mp h
    cases heq
    exact construct_right_iff hs (not_or.mp hk).1 r
  | sref_reference k r =>
    obtain ⟨hk, heq⟩ := Option.ite_none_left_eq_some.mp h
    cases heq
    exact construct_right_iff hs hk (some r)
  | sref_copy k other =>
    obtain ⟨hk, heq⟩ := Option.ite_none_left_eq_some.mp h
    cases heq
    exact construct_right_iff hs (not_or.mp hk).1 (s.reference_ other)
  | assign k other =>
    obtain ⟨-, heq⟩ := Option.ite_none_right_eq_some.mp h
    cases heq
    by_cases hother : k = other
    · have hself : s.assign k other = s := if_neg (not_not.mpr hother)
      rw [hself]
      exact iff_of_true hs (Or.inl hother)
    · rw [assign_eq hother, ref_right_iff hs]
      exact (or_iff_right hother).symm
  | destroy k =>
    obtain ⟨-, heq⟩ := Option.ite_none_right_eq_some.mp h
    cases heq
    exact destroy_right_iff hs k
  | unref k =>
    obtain ⟨-, heq⟩ := Option.ite_none_right_eq_some.mp h
    cases heq
    exact unref_right_iff hs k
  | newref_pointer k n =>
    obtain ⟨-, heq⟩ := Option.ite_none_right_eq_some.mp h
    cases heq
    exact newref_right_iff hs k n
  | newref_reference k n =>
    obtain ⟨-, heq⟩ := Option.ite_none_right_eq_some.mp h
    cases heq
    exact newref_right_iff hs k (some n)
  | ref_pointer k n =>
    obtain ⟨-, heq⟩ := Option.ite_none_right_eq_some.mp h
    cases heq
    exact ref_right_iff hs k n
  | ref_reference k n =>
    obtain ⟨-, heq⟩ := Option.ite_none_right_eq_some.mp h
    cases heq
    exact ref_right_iff hs k (some n)
  | ptr p v =>
    cases h
    exact resets_iff (fun sptr => sptr.usage_ptr v) hs
  | invalidate p =>
    cases h
    exact resets_iff spointer.usage_invalidate hs

end State

/-- In each run, `usage` is the number of the srefs that refer to a spointer just when each call meets
the condition. -/
theorem usage_is_right_iff [DecidableEq κ] (pointers : ι → Option T) (calls : List (call ι κ T)) :
    Always step State.Right (.start pointers) calls ↔
      Meets step State.Counts (.start pointers) calls := by
  apply always_iff_meets (P := State.Right) (fun _ h => h)
  · intro s a s' hs hc h
    exact (State.step_right_iff hs h).mpr hc
  · intro s a s' hs hc h hr
    exact hc ((State.step_right_iff hs h).mp hr)
  · exact fun _ => rfl

end

/-- An sref refers to a spointer, `newref` lets it refer to another one, and the first counts it still. -/
theorem newref_leaves_a_count :
    ¬ ∀ (pointers : Bool → Option Unit) (calls : List (call Bool Unit Unit)),
      Always step State.Right (.start pointers) calls := by
  intro h
  have hruns := h (fun _ => some ()) [.sref_reference () true, .newref_reference () false]
  have hright : State.Right _ := always_exec hruns rfl
  have hwrong := hright true
  revert hwrong
  decide

end socle.shared
