-- Loops that may not end. One turn of a loop gives the next state or stops
-- with a result. A loop runs on fuel, and a loop that is out of fuel gives
-- back the state it is in.
import Mathlib.Logic.Relation

namespace lib.loop

variable {σ ρ : Type*}

/-- What one turn of a loop gives. -/
inductive Turn (σ ρ : Type*)
  | next (s : σ)
  | done (r : ρ)

/-- At most `fuel` turns of a loop from `s`. -/
def turns (turn : σ → Turn σ ρ) : Nat → σ → σ ⊕ ρ
  | 0, s => .inl s
  | fuel + 1, s =>
    match turn s with
    | .next s' => turns turn fuel s'
    | .done r => .inr r

/-- The loop comes from `s` to `s'`. -/
def Reach (turn : σ → Turn σ ρ) : σ → σ → Prop :=
  Relation.ReflTransGen fun s s' => turn s = .next s'

/-- The loop from `s` stops with `r`. -/
def Stops (turn : σ → Turn σ ρ) (s : σ) (r : ρ) : Prop :=
  ∃ fuel, turns turn fuel s = .inr r

variable {turn : σ → Turn σ ρ}

theorem turns_next {s s' : σ} (h : turn s = .next s') (fuel : Nat) :
    turns turn (fuel + 1) s = turns turn fuel s' := by
  simp [turns, h]

theorem turns_done {s : σ} {r : ρ} (h : turn s = .done r) (fuel : Nat) :
    turns turn (fuel + 1) s = .inr r := by
  simp [turns, h]

/-- Out of fuel, the loop is in a state that it reaches. -/
theorem reach_of_turns {fuel : Nat} {s s' : σ} (h : turns turn fuel s = .inl s') :
    Reach turn s s' := by
  induction fuel generalizing s with
  | zero =>
    cases h
    exact Relation.ReflTransGen.refl
  | succ fuel ih =>
    cases ht : turn s with
    | next t =>
      rw [turns_next ht] at h
      exact Relation.ReflTransGen.head ht (ih h)
    | done r =>
      rw [turns_done ht] at h
      cases h

/-- With the right fuel, the loop runs out of it in a state that it reaches. -/
theorem turns_of_reach {s s' : σ} (h : Reach turn s s') :
    ∃ fuel, turns turn fuel s = .inl s' := by
  induction h using Relation.ReflTransGen.head_induction_on with
  | refl => exact ⟨0, rfl⟩
  | head ht _ ih =>
    obtain ⟨fuel, hf⟩ := ih
    exact ⟨fuel + 1, by rwa [turns_next ht]⟩

theorem stops_next {s s' : σ} {r : ρ} (h : turn s = .next s') :
    Stops turn s r ↔ Stops turn s' r := by
  constructor
  · rintro ⟨fuel, hf⟩
    cases fuel with
    | zero => cases hf
    | succ fuel => exact ⟨fuel, by rwa [turns_next h] at hf⟩
  · rintro ⟨fuel, hf⟩
    exact ⟨fuel + 1, by rwa [turns_next h]⟩

theorem stops_done {s : σ} {r r' : ρ} (h : turn s = .done r) : Stops turn s r' ↔ r' = r := by
  constructor
  · rintro ⟨fuel, hf⟩
    cases fuel with
    | zero => cases hf
    | succ fuel =>
      rw [turns_done h] at hf
      cases hf
      rfl
  · rintro rfl
    exact ⟨1, turns_done h 0⟩

/-- A loop stops with the result of a state that it reaches. -/
theorem stops_iff {s : σ} {r : ρ} :
    Stops turn s r ↔ ∃ s', Reach turn s s' ∧ turn s' = .done r := by
  constructor
  · rintro ⟨fuel, hf⟩
    induction fuel generalizing s with
    | zero => cases hf
    | succ fuel ih =>
      cases ht : turn s with
      | next t =>
        rw [turns_next ht] at hf
        obtain ⟨s', hr, hd⟩ := ih hf
        exact ⟨s', Relation.ReflTransGen.head ht hr, hd⟩
      | done r' =>
        rw [turns_done ht] at hf
        cases hf
        exact ⟨s, Relation.ReflTransGen.refl, ht⟩
  · rintro ⟨s', hr, hd⟩
    induction hr using Relation.ReflTransGen.head_induction_on with
    | refl => exact (stops_done hd).mpr rfl
    | head h _ ih => exact (stops_next h).mpr ih

theorem stops_unique {s : σ} {r r' : ρ} (h : Stops turn s r) (h' : Stops turn s r') : r = r' := by
  obtain ⟨s', hr, hd⟩ := stops_iff.mp h
  induction hr using Relation.ReflTransGen.head_induction_on with
  | refl => exact ((stops_done hd).mp h').symm
  | head hn _ ih => exact ih ((stops_next hn).mp h) ((stops_next hn).mp h')

/-- A loop stops when each turn of it makes a measure smaller. -/
theorem stops_of_measure (m : σ → Nat) {s : σ}
    (hm : ∀ t t', Reach turn s t → turn t = .next t' → m t' < m t) : ∃ r, Stops turn s r := by
  induction hn : m s using Nat.strongRecOn generalizing s with
  | ind n ih =>
    cases ht : turn s with
    | next t =>
      have hlt : m t < n := hn ▸ hm s t Relation.ReflTransGen.refl ht
      obtain ⟨r, hr⟩ := ih (m t) hlt (fun u u' hu => hm u u' (Relation.ReflTransGen.head ht hu)) rfl
      exact ⟨r, (stops_next ht).mpr hr⟩
    | done r => exact ⟨r, (stops_done ht).mpr rfl⟩

/-- A loop that stops from `s` stops from each state that it reaches from `s`. -/
theorem stops_of_reach {s s' : σ} {r : ρ} (hr : Reach turn s s') :
    Stops turn s r ↔ Stops turn s' r := by
  induction hr using Relation.ReflTransGen.head_induction_on with
  | refl => rfl
  | head h _ ih => rw [stops_next h, ih]

/-- A loop in which `P` always leads on to `P` never stops. -/
theorem not_stops_of_forever {P : σ → Prop} (hp : ∀ t, P t → ∃ t', turn t = .next t' ∧ P t')
    {s : σ} (hs : P s) (r : ρ) : ¬ Stops turn s r := by
  rintro ⟨fuel, hf⟩
  induction fuel generalizing s with
  | zero => cases hf
  | succ fuel ih =>
    obtain ⟨t, ht, hpt⟩ := hp s hs
    rw [turns_next ht] at hf
    exact ih hpt hf

/-- What each turn keeps holds in each state that the loop reaches. -/
theorem reach_kept {P : σ → Prop} (hp : ∀ t t', P t → turn t = .next t' → P t') {s s' : σ}
    (hs : P s) (hr : Reach turn s s') : P s' := by
  induction hr with
  | refl => exact hs
  | tail _ h ih => exact hp _ _ ih h

/-! ## One loop follows another -/

/-- Each turn of the first loop is a turn of the second one, seen through `f`. -/
structure Follows {τ ρ' : Type*} (turn : σ → Turn σ ρ) (turn' : τ → Turn τ ρ') (f : σ → τ) :
    Prop where
  next : ∀ s s', turn s = .next s' → turn' (f s) = .next (f s')
  done : ∀ s r, turn s = .done r → ∃ r', turn' (f s) = .done r'

variable {τ ρ' : Type*} {turn' : τ → Turn τ ρ'} {f : σ → τ}

theorem Follows.reach (h : Follows turn turn' f) {s s' : σ} (hr : Reach turn s s') :
    Reach turn' (f s) (f s') := by
  induction hr with
  | refl => exact Relation.ReflTransGen.refl
  | tail _ ht ih => exact Relation.ReflTransGen.tail ih (h.next _ _ ht)

/-- What the second loop reaches, the first one reaches too. -/
theorem Follows.reach_back (h : Follows turn turn' f) {s : σ} {t : τ}
    (hr : Reach turn' (f s) t) : ∃ s', Reach turn s s' ∧ f s' = t := by
  induction hr with
  | refl => exact ⟨s, Relation.ReflTransGen.refl, rfl⟩
  | tail _ ht ih =>
    obtain ⟨u, hu, rfl⟩ := ih
    cases hturn : turn u with
    | next u' =>
      have hn := h.next u u' hturn
      rw [ht] at hn
      cases hn
      exact ⟨u', Relation.ReflTransGen.tail hu hturn, rfl⟩
    | done r =>
      obtain ⟨r', hd⟩ := h.done u r hturn
      rw [ht] at hd
      cases hd

/-- The two loops stop together. -/
theorem Follows.stops (h : Follows turn turn' f) {s : σ} :
    (∃ r, Stops turn s r) ↔ ∃ r', Stops turn' (f s) r' := by
  constructor
  · rintro ⟨r, hr⟩
    obtain ⟨s', hs', hd⟩ := stops_iff.mp hr
    obtain ⟨r', hd'⟩ := h.done s' r hd
    exact ⟨r', stops_iff.mpr ⟨f s', h.reach hs', hd'⟩⟩
  · rintro ⟨r', hr⟩
    obtain ⟨t, ht, hd⟩ := stops_iff.mp hr
    obtain ⟨s', hs', rfl⟩ := h.reach_back ht
    cases hturn : turn s' with
    | next u =>
      have hn := h.next s' u hturn
      rw [hd] at hn
      cases hn
    | done r => exact ⟨r, stops_iff.mpr ⟨s', hs', hturn⟩⟩

end lib.loop
