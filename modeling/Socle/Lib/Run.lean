-- Runs of a machine. A step takes one action in a state and may refuse it.
-- What a step keeps under a condition, each run keeps whose steps meet the
-- condition. When the condition is exact for one step, it is exact for runs.
import Mathlib.Logic.Basic

namespace lib.run

variable {σ α : Type*} {step : σ → α → Option σ}

/-- The state after the actions of a list, or `none` when a step refuses. -/
def exec (step : σ → α → Option σ) (s : σ) : List α → Option σ
  | [] => some s
  | a :: rest => (step s a).bind fun s' => exec step s' rest

/-- `Q` holds in each state of the run, the first one included. A refused action ends the run. -/
def Always (step : σ → α → Option σ) (Q : σ → Prop) (s : σ) : List α → Prop
  | [] => Q s
  | a :: rest => Q s ∧ ∀ s', step s a = some s' → Always step Q s' rest

/-- Each action of the run meets `C` in the state in which it is taken. -/
def Meets (step : σ → α → Option σ) (C : σ → α → Prop) (s : σ) : List α → Prop
  | [] => True
  | a :: rest => ∀ s', step s a = some s' → C s a ∧ Meets step C s' rest

instance decidableMeets {C : σ → α → Prop} [∀ s a, Decidable (C s a)] :
    (s : σ) → (as : List α) → Decidable (Meets step C s as)
  | _, [] => isTrue trivial
  | s, a :: rest =>
    have (s' : σ) : Decidable (Meets step C s' rest) := decidableMeets s' rest
    inferInstanceAs (Decidable (∀ s' ∈ step s a, C s a ∧ Meets step C s' rest))

@[simp] theorem exec_nil (s : σ) : exec step s [] = some s := rfl

theorem exec_cons (s : σ) (a : α) (rest : List α) :
    exec step s (a :: rest) = (step s a).bind fun s' => exec step s' rest := rfl

theorem exec_append (s : σ) (as bs : List α) :
    exec step s (as ++ bs) = (exec step s as).bind fun t => exec step t bs := by
  induction as generalizing s with
  | nil => rfl
  | cons a rest ih =>
    rw [List.cons_append, exec_cons, exec_cons]
    cases step s a with
    | none => rfl
    | some t => exact ih t

theorem always_here {Q : σ → Prop} {s : σ} {as : List α} (h : Always step Q s as) : Q s := by
  cases as with
  | nil => exact h
  | cons a rest => exact h.1

/-- What holds always holds at the end. -/
theorem always_exec {Q : σ → Prop} {s s' : σ} {as : List α} (h : Always step Q s as)
    (hr : exec step s as = some s') : Q s' := by
  induction as generalizing s with
  | nil =>
    rw [exec_nil] at hr
    cases hr
    exact h
  | cons a rest ih =>
    rw [exec_cons, Option.bind_eq_some_iff] at hr
    obtain ⟨t, ht, hrest⟩ := hr
    exact ih (h.2 t ht) hrest

/-- The invariant rule. `P` holds at the start, and a step that meets `C` keeps it. So it
holds always in each run whose steps all meet `C`. -/
theorem always_of_meets {P : σ → Prop} {C : σ → α → Prop}
    (hstep : ∀ s a s', P s → C s a → step s a = some s' → P s')
    {s : σ} {as : List α} (hs : P s) (hc : Meets step C s as) : Always step P s as := by
  induction as generalizing s with
  | nil => exact hs
  | cons a rest ih =>
    refine ⟨hs, fun s' h => ?_⟩
    obtain ⟨ha, hrest⟩ := hc s' h
    exact ih (hstep s a s' hs ha h) hrest

/-- A condition that the actions of a run meet in any state. -/
theorem meets_of_forall {C : σ → α → Prop} {s : σ} {as : List α} (h : ∀ a ∈ as, ∀ s, C s a) :
    Meets step C s as := by
  induction as generalizing s with
  | nil => trivial
  | cons a rest ih =>
    exact fun s' _ => ⟨h a List.mem_cons_self s, ih fun b hb => h b (List.mem_cons_of_mem a hb)⟩

theorem meets_true {s : σ} (as : List α) : Meets step (fun _ _ => True) s as :=
  meets_of_forall fun _ _ _ => trivial

/-- What each step keeps, each run keeps. -/
theorem always_of_step {P : σ → Prop} (hstep : ∀ s a s', P s → step s a = some s' → P s')
    {s : σ} (hs : P s) (as : List α) : Always step P s as :=
  always_of_meets (fun s a s' hp _ h => hstep s a s' hp h) hs (meets_true as)

section
variable {τ : Type*} {step' : τ → α → Option τ} {f : σ → τ}

/-- A machine that takes each step which another takes, seen through `f`, takes the same runs. -/
theorem exec_map (hf : ∀ s a, step' (f s) a = (step s a).map f) (s : σ) (as : List α) :
    exec step' (f s) as = (exec step s as).map f := by
  induction as generalizing s with
  | nil => rfl
  | cons a rest ih =>
    rw [exec_cons, exec_cons, hf]
    cases step s a with
    | none => rfl
    | some t => exact ih t

theorem meets_map (hf : ∀ s a, step' (f s) a = (step s a).map f) {C : τ → α → Prop} {s : σ}
    {as : List α} (h : Meets step' C (f s) as) : Meets step (fun s a => C (f s) a) s as := by
  induction as generalizing s with
  | nil => trivial
  | cons a rest ih =>
    intro t ht
    have hstep : step' (f s) a = some (f t) := by
      rw [hf, ht]
      rfl
    obtain ⟨ha, hrest⟩ := h (f t) hstep
    exact ⟨ha, ih hrest⟩

end

/-- What each step relates, a run relates, when the relation is reflexive and transitive. `A` says
which actions the run may take. -/
theorem exec_rel {R : σ → σ → Prop} {A : α → Prop} (hrefl : ∀ s, R s s)
    (htrans : ∀ {s t u}, R s t → R t u → R s u)
    (hstep : ∀ s a s', A a → step s a = some s' → R s s') {s s' : σ} {as : List α}
    (has : ∀ a ∈ as, A a) (hr : exec step s as = some s') : R s s' := by
  induction as generalizing s with
  | nil =>
    rw [exec_nil] at hr
    cases hr
    exact hrefl _
  | cons a rest ih =>
    rw [exec_cons, Option.bind_eq_some_iff] at hr
    rcases hr with ⟨t, ht, hrest⟩
    have hfirst : R s t := hstep s a t (has a List.mem_cons_self) ht
    exact htrans hfirst (ih (fun b hb => has b (List.mem_cons_of_mem a hb)) hrest)

theorem Always.mono {P Q : σ → Prop} (hq : ∀ s, P s → Q s) {s : σ} {as : List α}
    (h : Always step P s as) : Always step Q s as := by
  induction as generalizing s with
  | nil => exact hq s h
  | cons a rest ih => exact ⟨hq s h.1, fun s' hs' => ih (h.2 s' hs')⟩

/-- A condition that each action meets in the states of a run. -/
theorem meets_of_each {P : σ → Prop} {C : σ → α → Prop} (hp : ∀ s, P s → ∀ a, C s a) {s : σ}
    {as : List α} (h : Always step P s as) : Meets step C s as := by
  induction as generalizing s with
  | nil => trivial
  | cons a rest ih => exact fun s' hs' => ⟨hp s h.1 a, ih (h.2 s' hs')⟩

/-- When a step that misses `C` breaks `Q`, a run that keeps `Q` meets `C`. `A` says which actions the
run may take. -/
theorem meets_of_always {P Q : σ → Prop} {C : σ → α → Prop} {A : α → Prop}
    (hstep : ∀ s a s', P s → C s a → step s a = some s' → P s')
    (hbad : ∀ s a s', P s → A a → ¬ C s a → step s a = some s' → ¬ Q s')
    {s : σ} {as : List α} (hs : P s) (has : ∀ a ∈ as, A a) (h : Always step Q s as) :
    Meets step C s as := by
  induction as generalizing s with
  | nil => trivial
  | cons a rest ih =>
    intro s' hs'
    have ha : C s a := Classical.byContradiction fun hn =>
      hbad s a s' hs (has a List.mem_cons_self) hn hs' (always_here (h.2 s' hs'))
    exact ⟨ha, ih (hstep s a s' hs ha hs') (fun b hb => has b (List.mem_cons_of_mem a hb))
      (h.2 s' hs')⟩

/-- A condition that is exact for a step from a state with invariant `P` is exact for runs: a
run keeps `Q` when, and only when, its steps meet `C`. -/
theorem always_iff_meets {P Q : σ → Prop} {C : σ → α → Prop} (hq : ∀ s, P s → Q s)
    (hstep : ∀ s a s', P s → C s a → step s a = some s' → P s')
    (hbad : ∀ s a s', P s → ¬ C s a → step s a = some s' → ¬ Q s')
    {s : σ} (hs : P s) (as : List α) : Always step Q s as ↔ Meets step C s as := by
  constructor
  · exact meets_of_always (A := fun _ => True) hstep (fun s a s' hp _ => hbad s a s' hp) hs
      fun _ _ => trivial
  · intro h
    exact (always_of_meets hstep hs h).mono hq

end lib.run
