-- The groups of signatures (signature.hpp: SignatureTree) and the loop over them
-- (apphostcx.cpp: detect). The groups lie in an array of fixed size, a map has
-- their names, and a bitset tells which of them are allowed.
import Mathlib.Data.List.AList
import Socle.FlowMatch

namespace socle.flows

open lib.run

/-! ## The tree -/

def max_groups : Nat := 128

abbrev sensorType (σ : Type) := List (flowMatchState × σ)

/-- `SignatureTree`. The pointer to a sensor is its place in `made`, which has each sensor that was
made. No function of the code keeps `created` and `allowed`: the sensor that was made last for each
name, and what was said last of each group, since the last reset. -/
structure SignatureTree (σ : Type) where
  filter_ : Vector Bool max_groups := .replicate max_groups false
  sensors_ : Vector (Option Nat) max_groups := .replicate max_groups none
  name_index : AList fun _ : String => Int := ∅
  last_alloc_index : Int := -1
  made : List (sensorType σ) := []
  created : AList fun _ : String => Nat := ∅
  allowed : Nat → Bool := fun _ => false

/-- How a call fails: it leaves the array or follows a null pointer, or the bitset throws. -/
inductive fault
  | undefined | out_of_range
deriving DecidableEq, Repr

namespace SignatureTree

variable {σ : Type} (t : SignatureTree σ)

/-- `filter_.test`. -/
def test (index : Nat) : Except fault Bool :=
  match t.filter_[index]? with
  | some b => .ok b
  | none => .error .out_of_range

/-- The read of `sensors_[index]`. -/
def sensor (index : Nat) : Except fault (Option Nat) :=
  match t.sensors_[index]? with
  | some p => .ok p
  | none => .error .undefined

/-- A new sensor at the index `i`. -/
def allot (i : Int) (allowed : Bool) : SignatureTree σ :=
  { t with
    last_alloc_index := i
    sensors_ := t.sensors_.setIfInBounds i.toNat (some t.made.length)
    filter_ := t.filter_.setIfInBounds i.toNat allowed
    made := t.made ++ [[]]
    allowed := Function.update t.allowed i.toNat allowed }

/-- `name_index[name] = i`. The sensor of the name is `p`. -/
def give_name (name : String) (i : Int) (p : Nat) : SignatureTree σ :=
  { t with
    name_index := t.name_index.insert name i
    created := t.created.insert name p }

/-- `group_add`, without a name. Behind the array, the write is undefined, and the bitset throws in a
function that is `noexcept`. -/
def group_add (allowed : Bool := false) : Except fault (Int × SignatureTree σ) :=
  let last_alloc_index := t.last_alloc_index + 1
  if last_alloc_index < max_groups then
    .ok (last_alloc_index, t.allot last_alloc_index allowed)
  else .error .undefined

/-- `group_add`, with a name. -/
def group_add_named (name : String) (allowed : Bool := false) :
    Except fault (Int × SignatureTree σ) :=
  match t.group_add allowed with
  | .error f => .error f
  | .ok (last_alloc_index, t') =>
    .ok (last_alloc_index, t'.give_name name last_alloc_index t.made.length)

def group_index (name : String) : Option Nat :=
  (t.name_index.lookup name).map Int.toNat

def group (name : String) (allowed_only : Bool := true) : Except fault (Option Nat) :=
  match t.group_index name with
  | none => .ok none
  | some index =>
    if allowed_only then
      match t.test index with
      | .error f => .error f
      | .ok allowed => if allowed then t.sensor index else .ok none
    else t.sensor index

def check (index : Nat) : Except fault Bool :=
  t.test index

def set (index : Nat) (val : Bool) : SignatureTree σ :=
  -- check boundaries to not throw
  if index < max_groups then
    { t with
      filter_ := t.filter_.setIfInBounds index val
      allowed := Function.update t.allowed index val }
  else t

/-- `sensors_[index]->emplace_back(flowMatchState(), sig)`. -/
def emplace_back (index : Nat) (sig : σ) : Except fault (SignatureTree σ) :=
  match t.sensors_[index]? with
  | some (some p) => .ok { t with made := t.made.modify p (· ++ [({}, sig)]) }
  | _ => .error .undefined

def signature_add (sig : σ) (group_name : String) (allowed : Bool := false) :
    Except fault (Bool × SignatureTree σ) :=
  match t.group_index group_name with
  | some gi => (t.emplace_back gi sig).map fun t => (false, t)
  | none =>
    match t.group_add_named group_name allowed with
    | .error f => .error f
    | .ok (gi, t) => (t.emplace_back gi.toNat sig).map fun t => (true, t)

def reset : SignatureTree σ :=
  { t with
    last_alloc_index := -1
    name_index := ∅
    sensors_ := t.sensors_.map fun _ => none
    created := ∅
    allowed := fun _ => false }

/-- The loop of the constructor. -/
def prealloc : Nat → SignatureTree σ → Except fault (SignatureTree σ)
  | 0, t => .ok t
  | n + 1, t =>
    match t.group_add true with
    | .error f => .error f
    | .ok (_, t) => prealloc n t

/-- `SignatureTree(prealloc_count)`. -/
def construct (prealloc_count : Int) : Except fault (SignatureTree σ) :=
  prealloc prealloc_count.toNat {}

/-- The loop of `detect` over the groups: the ones whose sensors are tried. -/
def detect_from : List Nat → List Nat
  | [] => []
  | i :: rest =>
    match t.sensors_[i]? with
    | some (some _) => if t.filter_[i]? = some true then i :: detect_from rest else detect_from rest
    -- end of first nullptr sensor
    | _ => []

/-- `AppHostCX::detect`. It starts with 1, to skip starttls signatures. -/
def detect : List Nat :=
  t.detect_from (List.range' 1 (max_groups - 1))

end SignatureTree

/-! ## Runs -/

variable {σ : Type}

inductive tree_call (σ : Type)
  | group_add (allowed : Bool)
  | group_add_named (name : String) (allowed : Bool)
  | signature_add (sig : σ) (group_name : String) (allowed : Bool)
  | set (index : Nat) (val : Bool)
  | check (index : Nat)
  | reset

/-- The tree, and how the last call failed. -/
structure tree_state (σ : Type) where
  tree : SignatureTree σ
  failed : Option fault := none

/-- What a call makes of the tree. -/
def tree_call.apply (t : SignatureTree σ) : tree_call σ → Except fault (SignatureTree σ)
  | .group_add allowed => (t.group_add allowed).map Prod.snd
  | .group_add_named name allowed => (t.group_add_named name allowed).map Prod.snd
  | .signature_add sig group_name allowed => (t.signature_add sig group_name allowed).map Prod.snd
  | .set index val => .ok (t.set index val)
  | .check index => (t.check index).map fun _ => t
  | .reset => .ok t.reset

def tree_state.after (t : SignatureTree σ) : Except fault (SignatureTree σ) → tree_state σ
  | .ok t' => { tree := t' }
  | .error f => { tree := t, failed := some f }

/-- Nothing follows what is undefined. -/
def tree_step (st : tree_state σ) (a : tree_call σ) : Option (tree_state σ) :=
  if st.failed = some .undefined then none else some (.after st.tree (a.apply st.tree))

def tree_start (prealloc_count : Int) : tree_state σ :=
  .after {} (SignatureTree.construct prealloc_count)

/-! ## The law -/

/-- The last call did not fail; each name leads to the sensor that was made for it; the sensors up to
the last index are there; and a group counts as allowed when it was, since the last reset. -/
structure Grouped (st : tree_state σ) : Prop where
  unfailing : st.failed = none
  named : ∀ name, st.tree.group name false = .ok (st.tree.created.lookup name)
  allotted : ∀ i : Nat, (i : Int) ≤ st.tree.last_alloc_index → ∃ p, st.tree.sensor i = .ok (some p)
  allowed : ∀ i < max_groups, st.tree.check i = .ok (st.tree.allowed i)

/-- There is place for another group. -/
def SignatureTree.Spare (t : SignatureTree σ) : Prop :=
  t.last_alloc_index + 1 < max_groups

/-- A new group has its place, a group that is checked is inside, and none is allowed at a reset. -/
def Fits (st : tree_state σ) : tree_call σ → Prop
  | .group_add _ | .group_add_named _ _ => st.tree.Spare
  | .signature_add _ group_name _ => st.tree.group_index group_name = none → st.tree.Spare
  | .set _ _ => True
  | .check index => index < max_groups
  | .reset => ∀ i < max_groups, st.tree.filter_[i]? = some false

/-! ## The invariant -/

/-- A name without a group, or with the group of its sensor. -/
def SignatureTree.Led (t : SignatureTree σ) (name : String) : Prop :=
  (t.name_index.lookup name = none ∧ t.created.lookup name = none) ∨
    ∃ (i p : Nat), t.name_index.lookup name = some (i : Int) ∧ (i : Int) ≤ t.last_alloc_index ∧
      t.sensors_[i]? = some (some p) ∧ t.created.lookup name = some p

/-- What the containers say of each other. -/
structure SignatureTree.Indexed (t : SignatureTree σ) : Prop where
  lowest : -1 ≤ t.last_alloc_index
  highest : t.last_alloc_index < max_groups
  present : ∀ i < max_groups, (∃ p, t.sensors_[i]? = some (some p)) ↔ (i : Int) ≤ t.last_alloc_index
  led : ∀ name, t.Led name
  filters : ∀ i < max_groups, t.filter_[i]? = some (t.allowed i)

namespace SignatureTree

variable {t t' : SignatureTree σ} {name : String}

theorem Led.group (h : t.Led name) : t.group name false = .ok (t.created.lookup name) := by
  rcases h with ⟨hname, hcreated⟩ | ⟨i, p, hname, -, hsensor, hcreated⟩
  · simp [SignatureTree.group, group_index, hname, hcreated]
  · simp [SignatureTree.group, group_index, hname, hcreated, sensor, hsensor]

theorem Indexed.grouped (h : t.Indexed) : Grouped { tree := t } where
  unfailing := rfl
  named := fun name => (h.led name).group
  allotted := by
    intro i hi
    have hlt : i < max_groups := by
      have hi' : (i : Int) ≤ t.last_alloc_index := hi
      have hhighest := h.highest
      omega
    obtain ⟨p, hp⟩ := (h.present i hlt).mpr hi
    exact ⟨p, by simp [sensor, hp]⟩
  allowed := by
    intro i hi
    simp [check, test, h.filters i hi]

theorem indexed_empty : ({} : SignatureTree σ).Indexed where
  lowest := Int.le_refl _
  highest := by simp [max_groups]
  present := by
    intro i hi
    rw [Vector.getElem?_replicate_of_lt hi]
    simp
    omega
  led := fun name => Or.inl ⟨rfl, rfl⟩
  filters := fun i hi => Vector.getElem?_replicate_of_lt hi

/-! ## A group is added -/

theorem group_add_spare (h : t.Spare) (allowed : Bool) : t.group_add allowed =
    .ok (t.last_alloc_index + 1, t.allot (t.last_alloc_index + 1) allowed) :=
  if_pos h

theorem group_add_full (h : ¬ t.Spare) (allowed : Bool) : t.group_add allowed = .error .undefined :=
  if_neg h

theorem group_add_named_spare (h : t.Spare) (name : String) (allowed : Bool) :
    t.group_add_named name allowed = .ok (t.last_alloc_index + 1,
      (t.allot (t.last_alloc_index + 1) allowed).give_name name (t.last_alloc_index + 1)
        t.made.length) := by
  simp [group_add_named, group_add_spare h]

theorem group_add_named_full (h : ¬ t.Spare) (name : String) (allowed : Bool) :
    t.group_add_named name allowed = .error .undefined := by
  simp [group_add_named, group_add_full h]

/-- The new sensor is there, and the others are where they were. -/
theorem sensors_allot {i j : Nat} (hi : i < max_groups) (allowed : Bool) :
    (t.allot i allowed).sensors_[j]? =
      if i = j then some (some t.made.length) else t.sensors_[j]? := by
  simp [allot, Vector.getElem?_setIfInBounds, hi]

theorem filter_allot {i j : Nat} (hi : i < max_groups) (allowed : Bool) :
    (t.allot i allowed).filter_[j]? = if i = j then some allowed else t.filter_[j]? := by
  simp [allot, Vector.getElem?_setIfInBounds, hi]

theorem Indexed.next (h : t.Indexed) (hs : t.Spare) :
    ∃ i : Nat, t.last_alloc_index + 1 = i ∧ i < max_groups := by
  have hlowest := h.lowest
  unfold Spare at hs
  exact ⟨(t.last_alloc_index + 1).toNat, by omega, by omega⟩

theorem allot_indexed {i : Nat} (h : t.Indexed) (hnext : t.last_alloc_index + 1 = i)
    (hi : i < max_groups) (allowed : Bool) : (t.allot i allowed).Indexed where
  lowest := by simp [allot]
  highest := by simpa [allot] using hi
  present := by
    intro j hj
    rw [sensors_allot hi]
    have hpresent := h.present j hj
    by_cases heq : i = j
    · simp [heq, allot]
    · rw [if_neg heq, hpresent]
      simp [allot]
      omega
  led := by
    intro name
    rcases h.led name with hnone | ⟨j, p, hname, hle, hsensor, hcreated⟩
    · exact Or.inl hnone
    · refine Or.inr ⟨j, p, hname, ?_, ?_, hcreated⟩
      · simp [allot]
        omega
      · rw [sensors_allot hi, if_neg (by omega), hsensor]
  filters := by
    intro j hj
    rw [filter_allot hi, h.filters j hj]
    simp only [allot, Int.toNat_natCast, Function.update_apply]
    split
    next heq => rw [if_pos heq.symm]
    next hne => rw [if_neg (Ne.symm hne)]

theorem give_name_indexed {i p : Nat} (h : t.Indexed) (hle : (i : Int) ≤ t.last_alloc_index)
    (hsensor : t.sensors_[i]? = some (some p)) (name : String) : (t.give_name name i p).Indexed where
  lowest := h.lowest
  highest := h.highest
  present := h.present
  led := by
    intro other
    by_cases heq : other = name
    · subst heq
      refine Or.inr ⟨i, p, ?_, hle, hsensor, ?_⟩
      · exact AList.lookup_insert _
      · exact AList.lookup_insert _
    · have hled := h.led other
      unfold Led at *
      simp only [give_name, AList.lookup_insert_ne heq]
      exact hled
  filters := h.filters

/-- A named group is added. -/
theorem named_indexed {i : Nat} (h : t.Indexed) (hnext : t.last_alloc_index + 1 = i)
    (hi : i < max_groups) (name : String) (allowed : Bool) :
    ((t.allot i allowed).give_name name i t.made.length).Indexed := by
  apply give_name_indexed (allot_indexed h hnext hi allowed)
  · exact Int.le_refl _
  · rw [sensors_allot hi, if_pos rfl]

/-! ## The other calls -/

theorem emplace_back_ok {i p : Nat} (hsensor : t.sensors_[i]? = some (some p)) (sig : σ) :
    t.emplace_back i sig = .ok { t with made := t.made.modify p (· ++ [({}, sig)]) } := by
  simp [emplace_back, hsensor]

theorem Indexed.with_made (h : t.Indexed) (made : List (sensorType σ)) :
    { t with made }.Indexed :=
  ⟨h.lowest, h.highest, h.present, h.led, h.filters⟩

theorem signature_add_known {gi : Nat} (h : t.Indexed) (hgi : t.group_index name = some gi) (sig : σ)
    (allowed : Bool) :
    ∃ t', (t.signature_add sig name allowed).map Prod.snd = .ok t' ∧ t'.Indexed := by
  rcases h.led name with ⟨hname, -⟩ | ⟨i, p, hname, -, hsensor, -⟩
  · simp [group_index, hname] at hgi
  · have hi : i = gi := by simpa [group_index, hname] using hgi
    subst hi
    simp only [signature_add, hgi, emplace_back_ok hsensor]
    exact ⟨_, rfl, h.with_made _⟩

theorem signature_add_spare (h : t.Indexed) (hgi : t.group_index name = none) (hs : t.Spare) (sig : σ)
    (allowed : Bool) :
    ∃ t', (t.signature_add sig name allowed).map Prod.snd = .ok t' ∧ t'.Indexed := by
  obtain ⟨i, hnext, hi⟩ := h.next hs
  have hsensor : ((t.allot i allowed).give_name name i t.made.length).sensors_[i]? =
      some (some t.made.length) := by
    change (t.allot i allowed).sensors_[i]? = _
    rw [sensors_allot hi, if_pos rfl]
  simp only [signature_add, hgi, group_add_named_spare hs, hnext, Int.toNat_natCast,
    emplace_back_ok hsensor]
  exact ⟨_, rfl, (named_indexed h hnext hi name allowed).with_made _⟩

theorem signature_add_full (hgi : t.group_index name = none) (hs : ¬ t.Spare) (sig : σ)
    (allowed : Bool) : (t.signature_add sig name allowed).map Prod.snd = .error .undefined := by
  simp [signature_add, hgi, group_add_named_full hs, Except.map]

theorem set_indexed (h : t.Indexed) (index : Nat) (val : Bool) : (t.set index val).Indexed := by
  unfold set
  split
  next hindex =>
    refine ⟨h.lowest, h.highest, h.present, h.led, fun i hi => ?_⟩
    rw [Vector.getElem?_setIfInBounds, h.filters i hi]
    simp only [Function.update_apply]
    by_cases heq : index = i
    · simp [heq, hi]
    · simp [heq, Ne.symm heq]
  next => exact h

theorem check_inside {index : Nat} (h : t.Indexed) (hindex : index < max_groups) :
    t.check index = .ok (t.allowed index) := by
  simp [check, test, h.filters index hindex]

theorem check_outside {index : Nat} (hindex : ¬ index < max_groups) :
    t.check index = .error .out_of_range := by
  have hnone : t.filter_[index]? = none := Vector.getElem?_eq_none (Nat.not_lt.mp hindex)
  simp [check, test, hnone]

theorem reset_indexed (hfilter : ∀ i < max_groups, t.filter_[i]? = some false) :
    t.reset.Indexed where
  lowest := Int.le_refl _
  highest := by simp [reset, max_groups]
  present := by
    intro i hi
    have hnull : t.reset.sensors_[i]? = some none := by
      simp [reset, Vector.getElem?_eq_getElem hi]
    rw [hnull]
    simp [reset]
    omega
  led := fun name => Or.inl ⟨rfl, rfl⟩
  filters := hfilter

/-- What was allowed before a reset still counts as allowed. -/
theorem not_grouped_reset {i : Nat} (hi : i < max_groups) (hfilter : t.filter_[i]? = some true) :
    ¬ Grouped { tree := t.reset } := by
  intro h
  have htrue : t.reset.check i = .ok true := by
    simp [check, test, reset, hfilter]
  have hfalse : t.reset.check i = .ok false := h.allowed i hi
  rw [htrue] at hfalse
  cases hfalse

/-! ## The loop of detect -/

theorem mem_detect_from (h : t.Indexed) {i s n : Nat} (hn : s + n = max_groups) :
    i ∈ t.detect_from (List.range' s n) ↔
      s ≤ i ∧ (i : Int) ≤ t.last_alloc_index ∧ t.allowed i = true := by
  induction n generalizing s with
  | zero =>
    have hhighest := h.highest
    simp only [List.range'_zero, detect_from, List.not_mem_nil, false_iff, not_and]
    omega
  | succ n ih =>
    have hs : s < max_groups := by omega
    have hpresent := h.present s hs
    rw [List.range'_succ]
    unfold detect_from
    split
    next p hp =>
      have hle := hpresent.mp ⟨p, hp⟩
      rw [h.filters s hs]
      cases hallowed : t.allowed s <;> simp only [Option.some.injEq, Bool.false_eq_true, if_true,
        if_false, List.mem_cons, ih (s := s + 1) (by omega)] <;> grind
    next hp =>
      have hlt : ¬ (s : Int) ≤ t.last_alloc_index := by
        rw [← hpresent]
        rintro ⟨p, hsome⟩
        exact hp p hsome
      simp only [List.not_mem_nil, false_iff, not_and]
      omega

/-- `detect` tries the allowed groups, but not the first one. -/
theorem mem_detect (h : t.Indexed) {i : Nat} :
    i ∈ t.detect ↔ 1 ≤ i ∧ (i : Int) ≤ t.last_alloc_index ∧ t.allowed i = true :=
  mem_detect_from h rfl

/-! ## The constructor -/

theorem prealloc_indexed {n : Nat} (h : t.Indexed) (hn : t.last_alloc_index + n < max_groups) :
    ∃ t', prealloc n t = .ok t' ∧ t'.Indexed := by
  induction n generalizing t with
  | zero => exact ⟨t, rfl, h⟩
  | succ n ih =>
    have hs : t.Spare := by
      unfold Spare
      omega
    obtain ⟨i, hnext, hi⟩ := h.next hs
    simp only [prealloc, group_add_spare hs, hnext]
    apply ih (allot_indexed h hnext hi true)
    simp only [allot]
    omega

theorem prealloc_full {n : Nat} (h : t.Indexed) (hn : max_groups ≤ t.last_alloc_index + n) :
    prealloc n t = .error .undefined := by
  induction n generalizing t with
  | zero =>
    have hhighest := h.highest
    omega
  | succ n ih =>
    by_cases hs : t.Spare
    · obtain ⟨i, hnext, hi⟩ := h.next hs
      simp only [prealloc, group_add_spare hs, hnext]
      apply ih (allot_indexed h hnext hi true)
      simp only [allot]
      omega
    · simp only [prealloc, group_add_full hs]

end SignatureTree

/-! ## One step -/

section
variable {st st' : tree_state σ} {a : tree_call σ}

/-- What holds of a state before each call of a run that keeps the law. -/
structure Ready (st : tree_state σ) : Prop where
  unfailing : st.failed = none
  indexed : st.tree.Indexed

theorem Ready.grouped (h : Ready st) : Grouped st := by
  obtain ⟨tree, failed⟩ := st
  obtain rfl : failed = none := h.unfailing
  exact h.indexed.grouped

theorem tree_step_some (h : Ready st) (hs : tree_step st a = some st') :
    st' = .after st.tree (a.apply st.tree) := by
  simp only [tree_step, h.unfailing, reduceCtorEq, if_false, Option.some.injEq] at hs
  exact hs.symm

/-- A call that fits gives a tree whose containers agree. -/
theorem apply_fits (h : st.tree.Indexed) (hfits : Fits st a) :
    ∃ t', a.apply st.tree = .ok t' ∧ t'.Indexed := by
  cases a with
  | group_add allowed =>
    obtain ⟨i, hnext, hi⟩ := h.next hfits
    refine ⟨st.tree.allot i allowed, ?_, SignatureTree.allot_indexed h hnext hi allowed⟩
    simp [tree_call.apply, SignatureTree.group_add_spare hfits, hnext, Except.map]
  | group_add_named name allowed =>
    obtain ⟨i, hnext, hi⟩ := h.next hfits
    refine ⟨_, ?_, SignatureTree.named_indexed h hnext hi name allowed⟩
    simp [tree_call.apply, SignatureTree.group_add_named_spare hfits, hnext, Except.map]
  | signature_add sig name allowed =>
    cases hgi : st.tree.group_index name with
    | some gi => exact SignatureTree.signature_add_known h hgi sig allowed
    | none => exact SignatureTree.signature_add_spare h hgi (hfits hgi) sig allowed
  | set index val => exact ⟨_, rfl, SignatureTree.set_indexed h index val⟩
  | check index =>
    refine ⟨st.tree, ?_, h⟩
    simp [tree_call.apply, SignatureTree.check_inside h hfits, Except.map]
  | reset => exact ⟨_, rfl, SignatureTree.reset_indexed hfits⟩

/-- A call that does not fit fails, or it is a reset that leaves a group allowed. -/
theorem apply_not_fits (h : st.tree.Indexed) (hfits : ¬ Fits st a) :
    (∃ f, a.apply st.tree = .error f) ∨ (a = .reset ∧
      ∃ i, i < max_groups ∧ st.tree.filter_[i]? = some true) := by
  cases a with
  | group_add allowed =>
    refine Or.inl ⟨.undefined, ?_⟩
    simp [tree_call.apply, SignatureTree.group_add_full hfits, Except.map]
  | group_add_named name allowed =>
    refine Or.inl ⟨.undefined, ?_⟩
    simp [tree_call.apply, SignatureTree.group_add_named_full hfits, Except.map]
  | signature_add sig name allowed =>
    obtain ⟨hgi, hs⟩ := Classical.not_imp.mp hfits
    exact Or.inl ⟨.undefined, SignatureTree.signature_add_full hgi hs sig allowed⟩
  | set index val => exact absurd trivial hfits
  | check index =>
    refine Or.inl ⟨.out_of_range, ?_⟩
    simp [tree_call.apply, SignatureTree.check_outside hfits, Except.map]
  | reset =>
    refine Or.inr ⟨rfl, ?_⟩
    simp only [Fits, not_forall] at hfits
    obtain ⟨i, hi, hfilter⟩ := hfits
    rw [h.filters i hi] at hfilter
    exact ⟨i, hi, by simpa [h.filters i hi] using hfilter⟩

theorem step_ready (h : Ready st) (hfits : Fits st a) (hs : tree_step st a = some st') :
    Ready st' := by
  obtain ⟨t', hok, hindexed⟩ := apply_fits h.indexed hfits
  rw [tree_step_some h hs, hok]
  exact ⟨rfl, hindexed⟩

theorem step_not_grouped (h : Ready st) (hfits : ¬ Fits st a) (hs : tree_step st a = some st') :
    ¬ Grouped st' := by
  rw [tree_step_some h hs]
  rcases apply_not_fits h.indexed hfits with ⟨f, herror⟩ | ⟨rfl, i, hi, hfilter⟩
  · intro hgrouped
    rw [herror] at hgrouped
    cases hgrouped.unfailing
  · exact SignatureTree.not_grouped_reset hi hfilter

end

/-! ## Runs -/

theorem start_ready {n : Int} (hn : n ≤ max_groups) : Ready (tree_start (σ := σ) n) := by
  have hroom : ({} : SignatureTree σ).last_alloc_index + n.toNat < max_groups := by
    simp only [max_groups] at *
    omega
  obtain ⟨t', hok, hindexed⟩ := SignatureTree.prealloc_indexed SignatureTree.indexed_empty hroom
  simp only [tree_start, SignatureTree.construct, hok]
  exact ⟨rfl, hindexed⟩

theorem start_not_grouped {n : Int} (hn : ¬ n ≤ max_groups) : ¬ Grouped (tree_start (σ := σ) n) := by
  have hfull : max_groups ≤ ({} : SignatureTree σ).last_alloc_index + n.toNat := by
    simp only [max_groups] at *
    omega
  intro h
  have hunfailing := h.unfailing
  simp [tree_start, SignatureTree.construct,
    SignatureTree.prealloc_full SignatureTree.indexed_empty hfull, tree_state.after] at hunfailing

/-- After a run of calls that fit, `detect` tries the sensors of the allowed groups, and no other. -/
theorem detect_tries_allowed {prealloc_count : Int} {calls : List (tree_call σ)} {st : tree_state σ}
    (hn : prealloc_count ≤ max_groups) (hfits : Meets tree_step Fits (tree_start prealloc_count) calls)
    (hrun : exec tree_step (tree_start prealloc_count) calls = some st) {i : Nat} :
    i ∈ st.tree.detect ↔
      1 ≤ i ∧ (i : Int) ≤ st.tree.last_alloc_index ∧ st.tree.allowed i = true := by
  have halways := always_of_meets (fun _ _ _ => step_ready) (start_ready (σ := σ) hn) hfits
  have hready : Ready st := always_exec halways hrun
  exact SignatureTree.mem_detect hready.indexed

/-- A third group is added and the second one is not allowed any more: only the third is tried. -/
theorem detect_tries_the_third : ∃ st : tree_state Unit,
    exec tree_step (tree_start 2) [.group_add true, .set 1 false] = some st ∧
      1 ∉ st.tree.detect ∧ 2 ∈ st.tree.detect := by
  have hfits : Meets tree_step Fits (tree_start (σ := Unit) 2) [.group_add true, .set 1 false] := by
    intro _ _
    refine ⟨?_, fun _ _ => ⟨trivial, trivial⟩⟩
    show (1 : Int) + 1 < max_groups
    decide
  refine ⟨_, rfl, ?_, ?_⟩
  · rw [detect_tries_allowed (by decide) hfits rfl]
    decide
  · rw [detect_tries_allowed (by decide) hfits rfl]
    decide

/-- The containers agree and no call fails when, and only when, no more groups are added than the
array holds, groups are checked inside it, and none is allowed at a reset. -/
theorem groups_are_indexed (prealloc_count : Int) (calls : List (tree_call σ)) :
    Always tree_step Grouped (tree_start prealloc_count) calls ↔
      prealloc_count ≤ max_groups ∧ Meets tree_step Fits (tree_start prealloc_count) calls := by
  by_cases hn : prealloc_count ≤ max_groups
  · rw [always_iff_meets (C := Fits) (fun _ => Ready.grouped) (fun _ _ _ => step_ready)
      (fun _ _ _ => step_not_grouped) (start_ready hn)]
    simp [hn]
  · apply iff_of_false
    · exact fun h => start_not_grouped hn (always_here h)
    · exact fun h => hn h.1

/-- The two groups of an AppHostCX still count as allowed after a reset. -/
theorem a_reset_leaves_groups_allowed :
    ¬ ∀ (prealloc_count : Int) (calls : List (tree_call Unit)),
        Always tree_step Grouped (tree_start prealloc_count) calls := by
  intro hall
  have hstart : (tree_start (σ := Unit) 2).tree =
      (SignatureTree.allot {} (0 : Nat) true).allot (1 : Nat) true := rfl
  have hallowed : (tree_start (σ := Unit) 2).tree.filter_[0]? = some true := by
    rw [hstart, SignatureTree.filter_allot (by decide), SignatureTree.filter_allot (by decide)]
    rfl
  apply SignatureTree.not_grouped_reset (by decide) hallowed
  apply always_here ((hall 2 [.reset]).2 _ _)
  rfl

end socle.flows
