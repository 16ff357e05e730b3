-- Totals. What the values of a map with finitely many keys amount to, and how
-- a change of one value changes it.
import Mathlib.Algebra.BigOperators.Group.List.Basic
import Mathlib.Data.List.AList

namespace lib.total

variable {κ α M : Type*} [AddCommMonoid M]

/-- The sum of `f` over the values of a map. -/
def sum_of (f : α → M) (m : AList fun _ : κ => α) : M :=
  (m.entries.map fun e => f e.2).sum

@[simp] theorem sum_of_empty (f : α → M) : sum_of f (∅ : AList fun _ : κ => α) = 0 := rfl

variable [DecidableEq κ]

/-- What `f` gives for the value of a key, if it has one. -/
def at_key (f : α → M) (m : AList fun _ : κ => α) (k : κ) : M :=
  ((m.lookup k).map f).getD 0

variable {f : α → M} {m : AList fun _ : κ => α} {k : κ} {a : α}

theorem at_key_some (h : m.lookup k = some a) : at_key f m k = f a := by
  unfold at_key
  rw [h]
  rfl

theorem at_key_none (h : m.lookup k = none) : at_key f m k = 0 := by
  unfold at_key
  rw [h]
  rfl

theorem entries_erase : (m.erase k).entries = m.entries.kerase k := rfl

theorem sum_of_erase : sum_of f (m.erase k) + at_key f m k = sum_of f m := by
  cases hk : m.lookup k with
  | none =>
    have hkeys : k ∉ m.entries.keys := AList.lookup_eq_none.mp hk
    rw [at_key_none hk, add_zero]
    unfold sum_of
    rw [entries_erase, List.kerase_of_notMem_keys hkeys]
  | some a =>
    have hkeys : k ∈ m.entries.keys := AList.lookup_isSome.mp (by rw [hk]; rfl)
    obtain ⟨b, before, behind, hnot, hentries, hrest⟩ := List.exists_of_kerase hkeys
    have hb : b = a := by
      have hmem : Sigma.mk k b ∈ m.entries := by
        rw [hentries]
        exact List.mem_append_right before List.mem_cons_self
      rw [← AList.mem_lookup_iff, hk] at hmem
      exact (Option.some.inj hmem).symm
    rw [at_key_some hk]
    unfold sum_of
    rw [entries_erase, hrest, hentries, List.map_append, List.sum_append, List.map_append,
      List.sum_append, List.map_cons, List.sum_cons, hb, add_assoc, add_comm (f a)]

theorem sum_of_insert : sum_of f (m.insert k a) + at_key f m k = sum_of f m + f a := by
  have herase : sum_of f (m.insert k a) = f a + sum_of f (m.erase k) := by
    unfold sum_of
    rw [AList.entries_insert, List.map_cons, List.sum_cons]
    rfl
  rw [herase, add_assoc, sum_of_erase, add_comm]

/-- A new key adds its value. -/
theorem sum_of_insert_new (h : m.lookup k = none) :
    sum_of f (m.insert k a) = sum_of f m + f a := by
  rw [← sum_of_insert (f := f) (m := m) (k := k), at_key_none h, add_zero]

end lib.total
