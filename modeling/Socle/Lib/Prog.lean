-- Programs that change a state and may throw. What a program did to the state
-- before it threw stays done, as in C++. `Keeps` is the rule set for what
-- holds of the state whatever the program does.
import Mathlib.Logic.Basic

namespace lib.prog

variable {ε σ α β : Type}

/-- A program with state `σ` that gives an `α` or throws an `ε`. -/
def Prog (ε σ α : Type) := σ → Except ε α × σ

instance : Monad (Prog ε σ) where
  pure a := fun s => (.ok a, s)
  bind m f := fun s =>
    match m s with
    | (.ok a, s') => f a s'
    | (.error e, s') => (.error e, s')

/-- The state. -/
def read : Prog ε σ σ := fun s => (.ok s, s)

/-- A change of the state. -/
def update (f : σ → σ) : Prog ε σ Unit := fun s => (.ok (), f s)

/-- `throw e`. -/
def raise (e : ε) : Prog ε σ α := fun s => (.error e, s)

/-- `if(c) throw e`. -/
def raise_if (c : Prop) [Decidable c] (e : ε) : Prog ε σ Unit :=
  if c then raise e else pure ()

/-- `try { m } catch { handler }`, for the exceptions that `handler` knows. -/
def attempt (m : Prog ε σ α) (handler : ε → Option (Prog ε σ α)) : Prog ε σ α := fun s =>
  match m s with
  | (.ok a, s') => (.ok a, s')
  | (.error e, s') =>
    match handler e with
    | some h => h s'
    | none => (.error e, s')

/-! ## Running -/

@[simp] theorem run_pure (a : α) (s : σ) : (pure a : Prog ε σ α) s = (.ok a, s) := rfl

theorem bind_ok {m : Prog ε σ α} {f : α → Prog ε σ β} {s s' : σ} {a : α} (h : m s = (.ok a, s')) :
    (m >>= f) s = f a s' := by
  change (match m s with | (.ok a, s') => f a s' | (.error e, s') => (.error e, s')) = _
  rw [h]

theorem bind_error {m : Prog ε σ α} {f : α → Prog ε σ β} {s s' : σ} {e : ε}
    (h : m s = (.error e, s')) : (m >>= f) s = (.error e, s') := by
  change (match m s with | (.ok a, s') => f a s' | (.error e, s') => (.error e, s')) = _
  rw [h]

@[simp] theorem read_bind (f : σ → Prog ε σ β) (s : σ) : (read >>= f) s = f s s := rfl

@[simp] theorem update_bind (g : σ → σ) (f : Unit → Prog ε σ β) (s : σ) :
    (update g >>= f) s = f () (g s) := rfl

@[simp] theorem run_update (g : σ → σ) (s : σ) : (update g : Prog ε σ Unit) s = (.ok (), g s) := rfl

@[simp] theorem pure_bind' (a : α) (f : α → Prog ε σ β) (s : σ) :
    ((pure a : Prog ε σ α) >>= f) s = f a s := rfl

@[simp] theorem raise_bind (e : ε) (f : α → Prog ε σ β) (s : σ) :
    ((raise e : Prog ε σ α) >>= f) s = (.error e, s) := rfl

@[simp] theorem raise_if_bind (c : Prop) [Decidable c] (e : ε) (f : Unit → Prog ε σ β) (s : σ) :
    (raise_if c e >>= f) s = if c then (.error e, s) else f () s := by
  unfold raise_if
  split <;> rfl

/-! ## What a program keeps -/

/-- Whatever the program does, it keeps `P`. -/
def Keeps (P : σ → Prop) (m : Prog ε σ α) : Prop :=
  ∀ s, P s → P (m s).2

variable {P : σ → Prop}

theorem keeps_pure (a : α) : Keeps P (pure a : Prog ε σ α) :=
  fun _ hs => hs

theorem keeps_read : Keeps P (read : Prog ε σ σ) :=
  fun _ hs => hs

theorem keeps_raise (e : ε) : Keeps P (raise e : Prog ε σ α) :=
  fun _ hs => hs

theorem keeps_update {f : σ → σ} (h : ∀ s, P s → P (f s)) : Keeps P (update f : Prog ε σ Unit) :=
  fun s hs => h s hs

theorem keeps_raise_if (c : Prop) [Decidable c] (e : ε) :
    Keeps P (raise_if c e : Prog ε σ Unit) := by
  unfold raise_if
  split
  · exact keeps_raise e
  · exact keeps_pure ()

theorem keeps_bind {m : Prog ε σ α} {f : α → Prog ε σ β} (hm : Keeps P m)
    (hf : ∀ a, Keeps P (f a)) : Keeps P (m >>= f) := by
  intro s hs
  have hs' := hm s hs
  cases h : m s with
  | mk r s' =>
    rw [h] at hs'
    cases r with
    | ok a =>
      rw [bind_ok h]
      exact hf a s' hs'
    | error e =>
      rw [bind_error h]
      exact hs'

theorem keeps_ite {c : Prop} [Decidable c] {m m' : Prog ε σ α} (hm : Keeps P m)
    (hm' : Keeps P m') : Keeps P (if c then m else m') := by
  split
  · exact hm
  · exact hm'

theorem keeps_attempt {m : Prog ε σ α} {handler : ε → Option (Prog ε σ α)} (hm : Keeps P m)
    (hh : ∀ e h, handler e = some h → Keeps P h) : Keeps P (attempt m handler) := by
  intro s hs
  have hs' := hm s hs
  unfold attempt
  cases h : m s with
  | mk r s' =>
    rw [h] at hs'
    cases r with
    | ok a => exact hs'
    | error e =>
      cases hc : handler e with
      | none => simpa [hc] using hs'
      | some g => simpa [hc] using hh e g hc s' hs'

end lib.prog
