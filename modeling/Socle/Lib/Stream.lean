-- Steps without an end. A machine takes one action of a stream at each time.
-- What is reached when a rank that never falls rises again and again.
import Mathlib.Tactic

namespace lib.stream

variable {σ α : Type*}

/-- The state at each time. -/
def along (step : σ → α → σ) (s : σ) (actions : Nat → α) : Nat → σ
  | 0 => s
  | n + 1 => step (along step s actions n) (actions n)

variable {step : σ → α → σ} {s : σ} {actions : Nat → α}

@[simp] theorem along_zero : along step s actions 0 = s := rfl

theorem along_succ (n : Nat) :
    along step s actions (n + 1) = step (along step s actions n) (actions n) := rfl

/-- What each step keeps under a condition holds at all times when the condition does. -/
theorem along_kept {P : σ → Prop} {C : σ → α → Prop}
    (hstep : ∀ s a, P s → C s a → P (step s a)) (hs : P s)
    (hc : ∀ n, C (along step s actions n) (actions n)) (n : Nat) : P (along step s actions n) := by
  induction n with
  | zero => exact hs
  | succ n ih => exact hstep _ _ ih (hc n)

/-- What is never left holds at all later times. -/
theorem along_stays {P : σ → Prop} (hstay : ∀ s a, P s → P (step s a)) {n m : Nat} (h : n ≤ m)
    (hn : P (along step s actions n)) : P (along step s actions m) := by
  induction m, h using Nat.le_induction with
  | base => exact hn
  | succ m _ ih => exact hstay _ _ ih

/-- A rank that is bounded and never falls cannot rise again and again. So `done` is reached, when
the rank behaves like that before. -/
theorem reached_of_rank {x : Nat → σ} {moves : Nat → Prop} (done : σ → Prop) (rank : σ → Nat)
    (bound : Nat) (hkeep : ∀ n, ¬ done (x (n + 1)) → rank (x n) ≤ rank (x (n + 1)))
    (hmove : ∀ n, moves n → ¬ done (x (n + 1)) → rank (x n) < rank (x (n + 1)))
    (hbound : ∀ n, ¬ done (x n) → rank (x n) ≤ bound) (hinf : ∀ n, ∃ m ≥ n, moves m) :
    ∃ n, done (x n) := by
  by_contra hnever
  push Not at hnever
  have hmono : Monotone fun n => rank (x n) := monotone_nat_of_le_succ fun n => hkeep n (hnever _)
  have hunbounded : ∀ k, ∃ n, k ≤ rank (x n) := by
    intro k
    induction k with
    | zero => exact ⟨0, Nat.zero_le _⟩
    | succ k ih =>
      obtain ⟨n, hn⟩ := ih
      obtain ⟨m, hm, hmoves⟩ := hinf n
      have hle : rank (x n) ≤ rank (x m) := hmono hm
      have hlt := hmove m hmoves (hnever _)
      exact ⟨m + 1, by omega⟩
  obtain ⟨n, hn⟩ := hunbounded (bound + 1)
  have hle := hbound n (hnever n)
  omega

end lib.stream
