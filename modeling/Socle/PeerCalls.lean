-- Calls of `peer()` that do not overlap (peering.hpp). The count of the shares tells such a call
-- whether its peer is gone. Each of two calls at the same time counts the share of the other.
import Socle.Peering

namespace socle.peering

open lib.run

def call.in_flight : call → Bool
  | fetched _ | shared _ _ | checked _ _ => true
  | holding _ | nullptr | released => false

/-- A call of `peer()` starts when no other is under way, and no owner is attached to itself. -/
def OneCaller (s : peerings) : action → Prop
  | .fetch _ => ∀ k ∈ s.calls, k.in_flight = false
  | .attach i j => i ≠ j
  | _ => True

/-- A call whose check passes has an owner that is there. -/
def CheckedIsThere (s : peerings) : action → Prop
  | .check c => ∀ s', s.check c = some s' → ∀ f y, s'.calls[c]? = some (call.checked f y) →
      ∃ o, s.owners y = some o ∧ o.gone = false
  | _ => True

instance (s : peerings) : (a : action) → Decidable (OneCaller s a)
  | .fetch _ => inferInstanceAs (Decidable (∀ k ∈ s.calls, k.in_flight = false))
  | .attach i j => inferInstanceAs (Decidable (i ≠ j))
  | .create _ _ | .detach _ | .guard _ | .destroy _ | .lock_other _ | .check _ | .lock _
  | .release _ => isTrue trivial

/-- At most one call is under way, and its peer is another owner than its own. -/
structure Alone (s : peerings) : Prop where
  one : ∀ (a b : Nat) k l, s.calls[a]? = some k → s.calls[b]? = some l →
    k.in_flight = true → l.in_flight = true → a = b
  other : ∀ i o, s.owners i = some o → o.other ≠ some i
  shared : ∀ f y, call.shared f y ∈ s.calls → f ≠ y

section
variable {s s' : peerings} {i j c y : Nat} {o o' : Peering} {k : call}

theorem shares_of_idle (hk : k.in_flight = false) (y : Nat) : k.shares y = 0 := by
  cases k <;> first | rfl | cases hk

theorem no_shares {calls : List call} (h : ∀ k ∈ calls, k.in_flight = false) (y : Nat) :
    (calls.map (call.shares y)).sum = 0 := by
  induction calls with
  | nil => rfl
  | cons k rest ih =>
    have hk := shares_of_idle (h k List.mem_cons_self) y
    have hrest := ih fun l hl => h l (List.mem_cons_of_mem k hl)
    rw [List.map_cons, List.sum_cons, hk, hrest]

/-- The shares of all calls are those of the one under way. -/
theorem shares_of_one {calls : List call} (hc : calls[c]? = some k)
    (hone : ∀ (a : Nat) l, calls[a]? = some l → l.in_flight = true → a = c) (y : Nat) :
    (calls.map (call.shares y)).sum = k.shares y := by
  induction calls generalizing c with
  | nil => cases hc
  | cons l rest ih =>
    rw [List.map_cons, List.sum_cons]
    cases c with
    | zero =>
      obtain rfl := Option.some.inj hc
      have hrest : ∀ m ∈ rest, m.in_flight = false := by
        intro m hm
        obtain ⟨a, ha⟩ := List.mem_iff_getElem?.mp hm
        by_contra hflight
        cases hone (a + 1) m ha (by simpa using hflight)
      rw [no_shares hrest, Nat.add_zero]
    | succ c =>
      have hidle : l.in_flight = false := by
        by_contra hflight
        cases hone 0 l rfl (by simpa using hflight)
      rw [shares_of_idle hidle, Nat.zero_add]
      apply ih hc
      intro a m ha hm
      exact Nat.succ.inj (hone (a + 1) m ha hm)

theorem alone_set_owner (h : Alone s) (hother : o.other ≠ some i) : Alone (s.set_owner i o) := by
  refine ⟨h.one, fun a p hp => ?_, h.shared⟩
  by_cases ha : a = i
  · subst ha
    simp only [peerings.set_owner, Function.update_self, Option.some.injEq] at hp
    exact hp ▸ hother
  · simp only [peerings.set_owner, Function.update_of_ne ha] at hp
    exact h.other a p hp

/-- A call goes on that is under way. -/
theorem alone_set_call (h : Alone s) {k₀ : call} (hc : s.calls[c]? = some k₀)
    (hflight : k.in_flight = true → k₀.in_flight = true)
    (hself : ∀ f y, k = .shared f y → f ≠ y) : Alone (s.set_call c k) := by
  have hold : ∀ (a : Nat) l, (s.set_call c k).calls[a]? = some l → l.in_flight = true →
      ∃ m, s.calls[a]? = some m ∧ m.in_flight = true := by
    intro a l ha hl
    simp only [peerings.set_call, List.getElem?_set] at ha
    split at ha
    · next hac =>
      split at ha
      · obtain rfl := Option.some.inj ha
        exact ⟨k₀, hac ▸ hc, hflight hl⟩
      · cases ha
    · exact ⟨l, ha, hl⟩
  refine ⟨fun a b l m ha hb hl hm => ?_, h.other, fun f y hf => ?_⟩
  · obtain ⟨l', ha', hl'⟩ := hold a l ha hl
    obtain ⟨m', hb', hm'⟩ := hold b m hb hm
    exact h.one a b l' m' ha' hb' hl' hm'
  · rcases List.mem_or_eq_of_mem_set hf with hmem | hnew
    · exact h.shared f y hmem
    · exact hself f y hnew.symm

theorem alone_on {f : Peering → Option Peering} (h : Alone s) (hs : s.on i f = some s')
    (hother : ∀ o o', f o = some o' → o.other ≠ some i → o'.other ≠ some i) : Alone s' := by
  obtain ⟨o, o', ho, hf, rfl⟩ := on_some hs
  exact alone_set_owner h (hother o o' hf (h.other i o ho))

theorem alone_attach (h : Alone s) (hij : i ≠ j) (hs : s.attach i j = some s') : Alone s' := by
  simp only [peerings.attach, Option.bind_eq_some_iff] at hs
  obtain ⟨s₁, hi, s₂, hj, hs⟩ := hs
  have hget : ∀ {n} (o o' : Peering), o.get = some o' → o.other ≠ some n → o'.other ≠ some n := by
    intro n o o' hget hother
    simp only [Peering.get, Option.ite_none_left_eq_some] at hget
    obtain rfl := Option.some.inj hget.2
    exact hother
  apply alone_on (alone_on (alone_on h hi hget) hj hget) hs
  intro o o' hattach _
  obtain rfl := Option.some.inj hattach
  intro hji
  exact hij (Option.some.inj hji).symm

theorem alone_fetch (h : Alone s) (hidle : ∀ k ∈ s.calls, k.in_flight = false)
    (hs : s.fetch i = some s') : Alone s' := by
  simp only [peerings.fetch, Option.bind_eq_some_iff, Option.ite_none_left_eq_some] at hs
  obtain ⟨o, ho, -, hs⟩ := hs
  obtain rfl := Option.some.inj hs
  have hlast : ∀ {k₀ : call} (a : Nat) l, (s.calls ++ [k₀])[a]? = some l → l.in_flight = true →
      a = s.calls.length := by
    intro k₀ a l ha hl
    rcases Nat.lt_or_ge a s.calls.length with hlt | hge
    · rw [List.getElem?_append_left hlt] at ha
      rw [hidle l (List.mem_of_getElem? ha)] at hl
      cases hl
    · have hlen := (List.getElem?_eq_some_iff.mp ha).1
      rw [List.length_append, List.length_singleton] at hlen
      omega
  refine ⟨fun a b l m ha hb hl hm => (hlast a l ha hl).trans (hlast b m hb hm).symm, h.other,
    fun f y hf => h.shared f y ?_⟩
  rcases List.mem_append.mp hf with hold | hnew
  · exact hold
  · split at hnew <;> simp at hnew

theorem alone_lock_other (h : Alone s) (hs : s.lock_other c = some s') : Alone s' := by
  unfold peerings.lock_other at hs
  split at hs
  · next fst hc =>
    split at hs
    · next y hy =>
      obtain rfl := Option.some.inj hs
      obtain ⟨o, ho, hother⟩ := Option.bind_eq_some_iff.mp hy
      have hself : fst ≠ y := by
        rintro rfl
        exact h.other fst o ho hother
      split
      · exact alone_set_call h hc nofun nofun
      · apply alone_set_call h hc fun _ => rfl
        intro f y' hk
        cases hk
        exact hself
    · obtain rfl := Option.some.inj hs
      exact alone_set_call h hc nofun nofun
  · cases hs

theorem alone_check (h : Alone s) (hs : s.check c = some s') : Alone s' := by
  unfold peerings.check at hs
  split at hs
  · next fst y hc =>
    obtain rfl := Option.some.inj hs
    split
    · exact alone_set_call h hc nofun nofun
    · exact alone_set_call h hc (fun _ => rfl) nofun
  · cases hs

theorem alone_create {n : Nat} (h : Alone s) (hs : s.create i n = some s') : Alone s' := by
  unfold peerings.create at hs
  split at hs
  · cases hs
  · obtain rfl := Option.some.inj hs
    exact alone_set_owner h (Option.some_ne_none i).symm

theorem alone_detach (h : Alone s) (hs : s.on i Peering.detach = some s') : Alone s' := by
  apply alone_on h hs
  intro o o' hdetach _
  simp only [Peering.detach, Option.ite_none_left_eq_some] at hdetach
  obtain rfl := Option.some.inj hdetach.2
  exact (Option.some_ne_none i).symm

theorem alone_guard (h : Alone s) (hs : s.on i Peering.guard = some s') : Alone s' := by
  apply alone_on h hs
  intro o o' hguard hother
  simp only [Peering.guard, Option.ite_none_left_eq_some] at hguard
  obtain ⟨-, hguard⟩ := hguard
  split at hguard
  · obtain rfl := Option.some.inj (Option.ite_none_left_eq_some.mp hguard).2
    exact (Option.some_ne_none i).symm
  · obtain rfl := Option.some.inj hguard
    exact hother

theorem alone_destroy (h : Alone s) (hs : s.on i Peering.destroy = some s') : Alone s' := by
  apply alone_on h hs
  intro o o' hdestroy hother
  simp only [Peering.destroy, Option.ite_none_left_eq_some] at hdestroy
  obtain rfl := Option.some.inj hdestroy.2
  exact hother

theorem alone_lock (h : Alone s) (hs : s.lock c = some s') : Alone s' := by
  obtain ⟨f, y, o, hc, ho, -, rfl⟩ := lock_some hs
  exact alone_set_call (alone_set_owner h (h.other y o ho)) hc nofun nofun

theorem alone_release (h : Alone s) (hs : s.release c = some s') : Alone s' := by
  unfold peerings.release at hs
  split at hs
  · next y hc =>
    obtain ⟨s₁, hon, rfl⟩ := Option.map_eq_some_iff.mp hs
    obtain ⟨o, o', ho, hlok, rfl⟩ := on_some hon
    obtain rfl := Option.some.inj hlok
    exact alone_set_call (alone_set_owner h (h.other y o ho)) hc nofun nofun
  · cases hs

theorem alone_step {a : action} (h : Alone s) (ha : OneCaller s a) (hs : step s a = some s') :
    Alone s' := by
  cases a with
  | create i n => exact alone_create h hs
  | attach i j => exact alone_attach h ha hs
  | detach i => exact alone_detach h hs
  | guard i => exact alone_guard h hs
  | destroy i => exact alone_destroy h hs
  | fetch i => exact alone_fetch h ha hs
  | lock_other c => exact alone_lock_other h hs
  | check c => exact alone_check h hs
  | lock c => exact alone_lock h hs
  | release c => exact alone_release h hs

/-- The only other share is the one of the owner. -/
theorem checked_of_alone (h : Alone s) (a : action) : CheckedIsThere s a := by
  cases a with
  | check c =>
    intro s' hs f y hy
    unfold peerings.check at hs
    split at hs
    · next f' y' hc =>
      obtain rfl := Option.some.inj hs
      have hlt : c < s.calls.length := (List.getElem?_eq_some_iff.mp hc).1
      have hshares := shares_of_one hc
        (fun b l hb hl => h.one b c l (.shared f' y') hb hc hl rfl) y'
      have hself : f' ≠ y' := h.shared f' y' (List.mem_of_getElem? hc)
      simp only [peerings.set_call, List.getElem?_set_self hlt, Option.some.injEq] at hy
      split at hy
      · cases hy
      · next hcount =>
        cases hy
        simp only [peerings.use_count, hshares, call.shares, if_neg hself, if_true] at hcount
        split at hcount
        · next o ho =>
          refine ⟨o, ho, ?_⟩
          by_contra hgone
          simp [hgone] at hcount
        · simp at hcount
    · cases hs
  | _ => trivial

end

/-- In each run whose calls of `peer()` do not overlap, a call that goes on to the lock has counted
the share of an owner that is there: a peer that is gone gives `nullptr`. -/
theorem gone_is_told (as : List action) (h : Meets step OneCaller {} as) :
    Meets step CheckedIsThere {} as := by
  have hstart : Alone {} := ⟨nofun, nofun, nofun⟩
  have halone : Always step Alone {} as := always_of_meets (fun _ _ _ => alone_step) hstart h
  exact meets_of_each (fun _ => checked_of_alone) halone

theorem gone_is_told_witness :
    Meets step CheckedIsThere {} [.create 0 1, .create 1 1, .attach 0 1, .attach 1 0, .fetch 0,
      .lock_other 0, .check 0, .lock 0, .release 0, .guard 1, .destroy 1, .fetch 0,
      .lock_other 1] :=
  gone_is_told _ (by decide)

end socle.peering
