-- Ledgers. A ledger says what each holder has. It is in order when each thing
-- has one holder, who has it once. Things come, go and are handed over, and the
-- ledger stays in order.
import Mathlib.Data.Multiset.AddSub
import Mathlib.Data.Multiset.ZeroCons
import Mathlib.Data.Multiset.UnionInter
import Mathlib.Logic.Function.Basic

namespace lib.ledger

variable {ι κ α : Type*} {T : ι → Multiset α}

/-- Somebody has `p`. -/
def Held (T : ι → Multiset α) (p : α) : Prop :=
  ∃ i, p ∈ T i

/-- Each thing has one holder, who has it once. -/
structure Once (T : ι → Multiset α) : Prop where
  nodup : ∀ i, (T i).Nodup
  one : ∀ i j p, p ∈ T i → p ∈ T j → i = j

theorem Once.empty (h : ∀ i, T i = 0) : Once T where
  nodup := by
    intro i
    rw [h i]
    exact Multiset.nodup_zero
  one := by
    intro i j p hp
    rw [h i] at hp
    exact absurd hp (Multiset.notMem_zero p)

theorem not_held_empty (h : ∀ i, T i = 0) (p : α) : ¬ Held T p := by
  rintro ⟨i, hi⟩
  rw [h i] at hi
  exact Multiset.notMem_zero p hi

/-- The holders get new names. -/
theorem Once.rename (h : Once T) (e : κ ≃ ι) : Once fun k => T (e k) where
  nodup := fun k => h.nodup (e k)
  one := fun _ _ p hk hl => e.injective (h.one _ _ p hk hl)

theorem held_rename (e : κ ≃ ι) (p : α) : Held (fun k => T (e k)) p ↔ Held T p := by
  constructor
  · rintro ⟨k, hk⟩
    exact ⟨e k, hk⟩
  · rintro ⟨i, hi⟩
    refine ⟨e.symm i, ?_⟩
    simpa using hi

section
variable [DecidableEq ι] {i j : ι} {p q : α} {s t : Multiset α}

theorem mem_update {k : ι} : q ∈ Function.update T i s k ↔ (k = i ∧ q ∈ s) ∨ (k ≠ i ∧ q ∈ T k) := by
  by_cases hk : k = i
  · subst hk
    simp
  · simp [hk]

/-- What holder `i` has by itself, and what the others have. -/
theorem held_update : Held (Function.update T i s) q ↔ q ∈ s ∨ ∃ k, k ≠ i ∧ q ∈ T k := by
  constructor
  · rintro ⟨k, hk⟩
    rcases mem_update.mp hk with ⟨-, hs⟩ | ⟨hne, hk⟩
    · exact Or.inl hs
    · exact Or.inr ⟨k, hne, hk⟩
  · rintro (hs | ⟨k, hne, hk⟩)
    · exact ⟨i, mem_update.mpr (Or.inl ⟨rfl, hs⟩)⟩
    · exact ⟨k, mem_update.mpr (Or.inr ⟨hne, hk⟩)⟩

/-- Holder `i` has something else from now on, and nobody has it already. -/
theorem Once.update (h : Once T) (hs : s.Nodup) (hother : ∀ k, k ≠ i → ∀ q ∈ s, q ∉ T k) :
    Once (Function.update T i s) where
  nodup := by
    intro k
    by_cases hk : k = i
    · subst hk
      rwa [Function.update_self]
    · rw [Function.update_of_ne hk]
      exact h.nodup k
  one := by
    intro k l q hk hl
    rcases mem_update.mp hk with ⟨rfl, hqs⟩ | ⟨hki, hqk⟩
    · rcases mem_update.mp hl with ⟨rfl, -⟩ | ⟨hli, hql⟩
      · rfl
      · exact absurd hql (hother l hli q hqs)
    · rcases mem_update.mp hl with ⟨rfl, hqs⟩ | ⟨-, hql⟩
      · exact absurd hqk (hother k hki q hqs)
      · exact h.one k l q hqk hql

/-- Holder `i` gets something that nobody has. -/
theorem Once.gain (h : Once T) (hp : ¬ Held T p) (hi : T i = s) :
    Once (Function.update T i (p ::ₘ s)) := by
  subst hi
  apply h.update
  · exact Multiset.nodup_cons.mpr ⟨fun hin => hp ⟨i, hin⟩, h.nodup i⟩
  · intro k hk q hq hqk
    rcases Multiset.mem_cons.mp hq with rfl | hq
    · exact hp ⟨k, hqk⟩
    · exact hk (h.one k i q hqk hq)

theorem held_gain (hi : T i = s) : Held (Function.update T i (p ::ₘ s)) q ↔ q = p ∨ Held T q := by
  subst hi
  rw [held_update, Multiset.mem_cons, or_assoc]
  apply or_congr_right
  constructor
  · rintro (hq | ⟨k, -, hk⟩)
    · exact ⟨i, hq⟩
    · exact ⟨k, hk⟩
  · rintro ⟨k, hk⟩
    by_cases hki : k = i
    · exact Or.inl (hki ▸ hk)
    · exact Or.inr ⟨k, hki, hk⟩

/-- Holder `i` gives something away. -/
theorem Once.lose (h : Once T) (hi : T i = p ::ₘ s) : Once (Function.update T i s) := by
  apply h.update
  · have hn := h.nodup i
    rw [hi] at hn
    exact (Multiset.nodup_cons.mp hn).2
  · intro k hk q hq hqk
    refine hk (h.one k i q hqk ?_)
    rw [hi]
    exact Multiset.mem_cons_of_mem hq

theorem Once.held_lose (h : Once T) (hi : T i = p ::ₘ s) :
    Held (Function.update T i s) q ↔ q ≠ p ∧ Held T q := by
  have hp : p ∈ T i := by
    rw [hi]
    exact Multiset.mem_cons_self p s
  have hn := h.nodup i
  rw [hi] at hn
  rw [held_update]
  constructor
  · rintro (hq | ⟨k, hki, hk⟩)
    · refine ⟨?_, i, ?_⟩
      · rintro rfl
        exact (Multiset.nodup_cons.mp hn).1 hq
      · rw [hi]
        exact Multiset.mem_cons_of_mem hq
    · refine ⟨?_, k, hk⟩
      rintro rfl
      exact hki (h.one k i q hk hp)
  · rintro ⟨hne, k, hk⟩
    by_cases hki : k = i
    · subst hki
      rw [hi, Multiset.mem_cons] at hk
      exact Or.inl (hk.resolve_left hne)
    · exact Or.inr ⟨k, hki, hk⟩

/-- Holder `j` hands `s` over to holder `i`. -/
theorem Once.pass (h : Once T) (hij : i ≠ j) (hj : T j = s + t) :
    Once (Function.update (Function.update T j t) i (s + T i)) := by
  have hn := h.nodup j
  rw [hj, Multiset.nodup_add] at hn
  have hmem : ∀ q, q ∈ s ∨ q ∈ t → q ∈ T j := by
    intro q hq
    rw [hj]
    exact Multiset.mem_add.mpr hq
  have hout : Once (Function.update T j t) := by
    apply h.update hn.2.1
    intro k hk q hq hqk
    exact hk (h.one k j q hqk (hmem q (Or.inr hq)))
  apply hout.update
  · rw [Multiset.nodup_add]
    refine ⟨hn.1, h.nodup i, Multiset.disjoint_left.mpr fun hq hqi => ?_⟩
    exact hij (h.one i j _ hqi (hmem _ (Or.inl hq)))
  · intro k hki q hq hqk
    rcases mem_update.mp hqk with ⟨rfl, hqt⟩ | ⟨hkj, hqk⟩
    · rcases Multiset.mem_add.mp hq with hq | hq
      · exact Multiset.disjoint_left.mp hn.2.2 hq hqt
      · exact hij (h.one i k q hq (hmem q (Or.inr hqt)))
    · rcases Multiset.mem_add.mp hq with hq | hq
      · exact hkj (h.one k j q hqk (hmem q (Or.inl hq)))
      · exact hki (h.one k i q hqk hq)

theorem held_pass (hij : i ≠ j) (hj : T j = s + t) :
    Held (Function.update (Function.update T j t) i (s + T i)) q ↔ Held T q := by
  rw [held_update, Multiset.mem_add]
  constructor
  · rintro ((hq | hq) | ⟨k, -, hk⟩)
    · exact ⟨j, by rw [hj]; exact Multiset.mem_add.mpr (Or.inl hq)⟩
    · exact ⟨i, hq⟩
    · rcases mem_update.mp hk with ⟨-, hq⟩ | ⟨-, hq⟩
      · exact ⟨j, by rw [hj]; exact Multiset.mem_add.mpr (Or.inr hq)⟩
      · exact ⟨k, hq⟩
  · rintro ⟨k, hk⟩
    by_cases hki : k = i
    · subst hki
      exact Or.inl (Or.inr hk)
    by_cases hkj : k = j
    · subst hkj
      rw [hj, Multiset.mem_add] at hk
      rcases hk with hk | hk
      · exact Or.inl (Or.inl hk)
      · exact Or.inr ⟨k, hij.symm, mem_update.mpr (Or.inl ⟨rfl, hk⟩)⟩
    · exact Or.inr ⟨k, hki, mem_update.mpr (Or.inr ⟨hkj, hk⟩)⟩

end

/-! ## Holders of at most one thing -/

section
variable [DecidableEq ι] {S : ι → Option α} {i k : ι} {p : α}

/-- Who has `p` after holder `i` got `s`: holder `i` itself, or another one who had it before. -/
theorem update_eq_some {s : Option α} :
    Function.update S i s k = some p ↔ (k = i ∧ s = some p) ∨ (k ≠ i ∧ S k = some p) := by
  by_cases hk : k = i
  · subst hk
    simp
  · simp [hk]

theorem update_none_eq_some :
    Function.update S i none k = some p ↔ k ≠ i ∧ S k = some p := by
  rw [update_eq_some]
  simp

end

end lib.ledger
