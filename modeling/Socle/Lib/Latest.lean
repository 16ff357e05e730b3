-- A fold that keeps the latest value that the elements of a list give, and
-- that only begins at the first element which opens it. What such a fold
-- gives for every order of the list depends on the elements alone.
import Mathlib.Data.List.TakeWhile

namespace lib.latest

variable {α β : Type}

/-- The latest value that the elements give, or `d`. -/
def latest_of (pick : α → Option β) (d : β) (l : List α) : β :=
  l.foldl (fun acc a => (pick a).getD acc) d

/-- The list from the first element on that opens it. -/
def opened (p : α → Bool) (l : List α) : List α :=
  l.dropWhile fun a => !p a

section
variable {pick : α → Option β} {d : β} {p : α → Bool} {l : List α} {a : α}

theorem latest_concat {v : β} (l : List α) (h : pick a = some v) :
    latest_of pick d (l ++ [a]) = v := by
  simp [latest_of, List.foldl_append, h]

theorem latest_append (l l' : List α) :
    latest_of pick d (l ++ l') = latest_of pick (latest_of pick d l) l' :=
  List.foldl_append

theorem latest_of_none (h : ∀ a ∈ l, pick a = none) : latest_of pick d l = d := by
  induction l with
  | nil => rfl
  | cons a l ih =>
    have hstep : latest_of pick d (a :: l) = latest_of pick ((pick a).getD d) l := rfl
    rw [hstep, h a List.mem_cons_self]
    exact ih fun b hb => h b (List.mem_cons_of_mem a hb)

/-- The latest value is that of an element, or `d` when no element gives one. -/
theorem latest_cases (pick : α → Option β) (d : β) (l : List α) :
    (latest_of pick d l = d ∧ ∀ a ∈ l, pick a = none) ∨ ∃ a ∈ l, pick a = some (latest_of pick d l) := by
  induction l generalizing d with
  | nil => exact Or.inl ⟨rfl, by simp⟩
  | cons a l ih =>
    have hstep : latest_of pick d (a :: l) = latest_of pick ((pick a).getD d) l := rfl
    rw [hstep]
    rcases ih ((pick a).getD d) with ⟨hd, hnone⟩ | ⟨b, hb, hv⟩
    · cases ha : pick a with
      | none =>
        rw [ha] at hd
        refine Or.inl ⟨hd, fun b hb => ?_⟩
        rcases List.mem_cons.mp hb with rfl | hb
        · exact ha
        · exact hnone b hb
      | some v =>
        rw [ha] at hd
        exact Or.inr ⟨a, List.mem_cons_self, by rw [hd, ha]; rfl⟩
    · exact Or.inr ⟨b, List.mem_cons_of_mem _ hb, hv⟩

theorem opened_cons_of_pos (l : List α) (h : p a = true) : opened p (a :: l) = a :: l := by
  simp [opened, h]

theorem opened_cons_of_neg (l : List α) (h : p a = false) : opened p (a :: l) = opened p l := by
  simp [opened, h]

theorem opened_subset (p : α → Bool) (l : List α) : ∀ a ∈ opened p l, a ∈ l :=
  fun _ ha => (List.dropWhile_sublist _).subset ha

/-- An element that opens the list is not lost. -/
theorem mem_opened (hl : a ∈ l) (hp : p a = true) : a ∈ opened p l := by
  induction l with
  | nil => cases hl
  | cons b l ih =>
    cases hb : p b with
    | true => rwa [opened_cons_of_pos l hb]
    | false =>
      rw [opened_cons_of_neg l hb]
      rcases List.mem_cons.mp hl with rfl | hl
      · rw [hp] at hb
        cases hb
      · exact ih hl

/-- The last element of a list that is opened is not lost. -/
theorem opened_concat (h : ∃ b ∈ l ++ [a], p b = true) :
    ∃ l', opened p (l ++ [a]) = l' ++ [a] := by
  induction l with
  | nil =>
    rcases h with ⟨b, hb, hp⟩
    rw [List.nil_append, List.mem_singleton] at hb
    subst hb
    exact ⟨[], opened_cons_of_pos [] hp⟩
  | cons c l ih =>
    cases hc : p c with
    | true => exact ⟨c :: l, opened_cons_of_pos (l ++ [a]) hc⟩
    | false =>
      rcases h with ⟨b, hb, hp⟩
      rw [List.cons_append] at hb
      rcases List.mem_cons.mp hb with rfl | hb
      · rw [hp] at hc
        cases hc
      · rcases ih ⟨b, hb, hp⟩ with ⟨l', hl'⟩
        exact ⟨l', by rw [List.cons_append, opened_cons_of_neg _ hc, hl']⟩

theorem opened_eq_nil (h : ∀ a ∈ l, p a = false) : opened p l = [] :=
  List.dropWhile_eq_nil_iff.mpr fun a ha => by rw [h a ha]; rfl

/-- With the elements that open it at the end, nothing else is left of the list. -/
theorem opened_filter (p : α → Bool) (l : List α) :
    opened p (l.filter (fun a => !p a) ++ l.filter p) = l.filter p := by
  unfold opened
  rw [List.dropWhile_append_of_pos]
  · cases hf : l.filter p with
    | nil => rfl
    | cons b bs =>
      have hb : p b = true := (List.mem_filter.mp (hf ▸ List.mem_cons_self)).2
      simp [hb]
  · intro b hb
    exact (List.mem_filter.mp hb).2

end

/-- What holds of the latest value for every order of a list. -/
theorem every_order (pick : α → Option β) (d : β) {p : α → Bool} {l : List α} (T : β → Prop)
    (hopen : ∃ a ∈ l, p a = true) :
    (∀ l', l'.Perm l → T (latest_of pick d (opened p l'))) ↔
      (∀ a ∈ l, ∀ v, pick a = some v → T v) ∧ (T d ∨ ∃ a ∈ l, p a = true ∧ (pick a).isSome) := by
  constructor
  · intro h
    refine ⟨fun a ha v hv => ?_, ?_⟩
    · -- the order that has the element at its end
      rcases List.append_of_mem ha with ⟨s, t, rfl⟩
      have hperm : (s ++ t ++ [a]).Perm (s ++ a :: t) :=
        (List.perm_append_singleton a (s ++ t)).trans List.perm_middle.symm
      rcases hopen with ⟨b, hb, hp⟩
      rcases opened_concat (l := s ++ t) ⟨b, hperm.mem_iff.mpr hb, hp⟩ with ⟨l', hl'⟩
      have ht := h _ hperm
      rwa [hl', latest_concat l' hv] at ht
    · -- the order that has at its end the elements which open it
      have hperm : (l.filter (fun a => !p a) ++ l.filter p).Perm l :=
        List.perm_append_comm.trans (List.filter_append_perm p l)
      have ht := h _ hperm
      rw [opened_filter] at ht
      rcases latest_cases pick d (l.filter p) with ⟨hd, -⟩ | ⟨a, ha, hv⟩
      · exact Or.inl (hd ▸ ht)
      · exact Or.inr ⟨a, (List.mem_filter.mp ha).1, (List.mem_filter.mp ha).2, by rw [hv]; rfl⟩
  · rintro ⟨hall, hsome⟩ l' hperm
    rcases latest_cases pick d (opened p l') with ⟨hd, hnone⟩ | ⟨a, ha, hv⟩
    · rcases hsome with hd' | ⟨a, ha, hp, hv⟩
      · rwa [hd]
      · rw [hnone a (mem_opened (hperm.mem_iff.mpr ha) hp)] at hv
        cases hv
    · exact hall a (hperm.mem_iff.mp (opened_subset p l' a ha)) _ hv

end lib.latest
