-- Peers that may be destroyed while they are in use (peering.hpp). `peer()` takes a share of
-- the peer, counts the shares, and then waits for the lock that the guard of the peer takes
-- before the peer goes. Each of these is a step, and steps of any calls and owners interleave.
import Mathlib
import Socle.Lib.Run

namespace socle.peering

open lib.run

/-! ## Model -/

/-- `Peering` of an owner, with its `PeeringImpl`. `guards` are the destructors of `PeeringGuard`
that did not run yet, and `peer_` is that `get` made the impl. `other` and `lok` are of the impl,
which outlives its owner: the impl of the other owner, and the call that holds the lock. -/
structure Peering where
  guards : Nat
  peer_ : Bool := false
  gone : Bool := false
  other : Option Nat := none
  lok : Option Nat := none

/-- How far a call of `peer()` is, with the shares it has. -/
inductive call
  | fetched (f : Nat)
  | shared (f shr : Nat)
  | checked (f shr : Nat)
  | holding (ptr : Nat)
  | nullptr
  | released
  deriving DecidableEq

/-- The shares that a call has of an impl. What `peer()` returns has none. -/
def call.shares (y : Nat) : call → Nat
  | fetched f => if f = y then 1 else 0
  | shared f shr | checked f shr => (if f = y then 1 else 0) + if shr = y then 1 else 0
  | holding _ | nullptr | released => 0

structure peerings where
  owners : Nat → Option Peering := fun _ => none
  calls : List call := []

namespace peerings

def set_owner (s : peerings) (i : Nat) (o : Peering) : peerings :=
  { s with owners := Function.update s.owners i (some o) }

def set_call (s : peerings) (c : Nat) (k : call) : peerings :=
  { s with calls := s.calls.set c k }

/-- An operation on an owner, which may have to wait. -/
def on (s : peerings) (i : Nat) (f : Peering → Option Peering) : Option peerings :=
  (s.owners i).bind fun o => (f o).map (s.set_owner i)

/-- `shr.use_count()`: the share of the owner until it is gone, and the shares of the calls. -/
def use_count (s : peerings) (y : Nat) : Nat :=
  (s.calls.map (call.shares y)).sum +
    match s.owners y with
    | some o => if o.peer_ && !o.gone then 1 else 0
    | none => 0

end peerings

namespace Peering

def get (o : Peering) : Option Peering :=
  if o.gone then none else some { o with peer_ := true }

def attach (j : Nat) (o : Peering) : Option Peering :=
  some { o with other := some j }

/-- `detach`. Without an impl there is nothing to detach. -/
def detach (o : Peering) : Option Peering :=
  if o.gone then none else some { o with other := none }

/-- `~PeeringGuard`. It waits for the lock of the impl. -/
def guard (o : Peering) : Option Peering :=
  if o.gone || o.guards == 0 then none
  else if o.peer_ then
    if o.lok.isSome then none else some { o with other := none, guards := o.guards - 1 }
  else some { o with guards := o.guards - 1 }

/-- `~Peering`, after all guards of the owner. -/
def destroy (o : Peering) : Option Peering :=
  if o.gone || o.guards != 0 then none else some { o with gone := true }

end Peering

namespace peerings

/-- `auto f = fetch()`. -/
def fetch (s : peerings) (i : Nat) : Option peerings :=
  (s.owners i).bind fun o =>
    if o.gone then none
    else some { s with calls := s.calls ++ [if o.peer_ then .fetched i else .nullptr] }

/-- `auto shr = f->other.lock()`. -/
def lock_other (s : peerings) (c : Nat) : Option peerings :=
  match s.calls[c]? with
  | some (.fetched f) =>
    match (s.owners f).bind Peering.other with
    | some y => some (s.set_call c (if s.use_count y = 0 then .nullptr else .shared f y))
    | none => some (s.set_call c .nullptr)
  | _ => none

/-- `shr.use_count() == 1`. -/
def check (s : peerings) (c : Nat) : Option peerings :=
  match s.calls[c]? with
  | some (.shared f y) =>
    some (s.set_call c (if s.use_count y = 1 then .nullptr else .checked f y))
  | _ => none

/-- `std::unique_lock(shr->lok)`, and `peer()` returns. -/
def lock (s : peerings) (c : Nat) : Option peerings :=
  match s.calls[c]? with
  | some (.checked _ y) =>
    (s.on y fun o => if o.lok.isSome then none else some { o with lok := some c }).map
      fun s => s.set_call c (.holding y)
  | _ => none

/-- The end of what `peer()` returned. -/
def release (s : peerings) (c : Nat) : Option peerings :=
  match s.calls[c]? with
  | some (.holding y) =>
    (s.on y fun o => some { o with lok := none }).map fun s => s.set_call c .released
  | _ => none

/-- A new owner, with its number of guards. -/
def create (s : peerings) (i guards : Nat) : Option peerings :=
  match s.owners i with
  | some _ => none
  | none => some (s.set_owner i { guards })

/-- `attach`: both owners get their impl. -/
def attach (s : peerings) (i j : Nat) : Option peerings :=
  (s.on i Peering.get).bind fun s => (s.on j Peering.get).bind fun s => s.on i (Peering.attach j)

end peerings

inductive action
  | create (i guards : Nat)
  | attach (i j : Nat)
  | detach (i : Nat)
  | guard (i : Nat)
  | destroy (i : Nat)
  | fetch (i : Nat)
  | lock_other (c : Nat)
  | check (c : Nat)
  | lock (c : Nat)
  | release (c : Nat)

def step (s : peerings) : action → Option peerings
  | .create i guards => s.create i guards
  | .attach i j => s.attach i j
  | .detach i => s.on i Peering.detach
  | .guard i => s.on i Peering.guard
  | .destroy i => s.on i Peering.destroy
  | .fetch i => s.fetch i
  | .lock_other c => s.lock_other c
  | .check c => s.check c
  | .lock c => s.lock c
  | .release c => s.release c

/-! ## Shares and the lock -/

/-- The owner got an impl. -/
def peerings.made (s : peerings) (y : Nat) : Prop :=
  ∃ o, s.owners y = some o ∧ o.peer_ = true

/-- Who is attached, and who has a share, has an impl, and what a call returned holds the lock. -/
structure Inv (s : peerings) : Prop where
  other : ∀ i o j, s.owners i = some o → o.other = some j → s.made j
  shared : ∀ f y, call.shared f y ∈ s.calls → s.made y
  checked : ∀ f y, call.checked f y ∈ s.calls → s.made y
  held : ∀ (c : Nat) y, s.calls[c]? = some (call.holding y) →
    ∃ o, s.owners y = some o ∧ o.peer_ = true ∧ o.lok = some c

/-- Each owner that a call returned is there, and has a guard that did not run. -/
def HeldGuarded (s : peerings) : Prop :=
  ∀ (c : Nat) y, s.calls[c]? = some (call.holding y) →
    ∃ o, s.owners y = some o ∧ o.gone = false ∧ 0 < o.guards

section
variable {s s' : peerings} {i j c y : Nat} {o o' : Peering} {k : call}
  {f : Peering → Option Peering}

theorem on_some (h : s.on i f = some s') :
    ∃ o o', s.owners i = some o ∧ f o = some o' ∧ s' = s.set_owner i o' := by
  simp only [peerings.on, Option.bind_eq_some_iff, Option.map_eq_some_iff] at h
  obtain ⟨o, ho, o', ho', rfl⟩ := h
  exact ⟨o, o', ho, ho', rfl⟩

theorem made_set_owner (hpeer : s.made i → o.peer_ = true) (h : s.made y) :
    (s.set_owner i o).made y := by
  by_cases hy : y = i
  · subst hy
    exact ⟨o, by simp [peerings.set_owner], hpeer h⟩
  · obtain ⟨p, hp, hmade⟩ := h
    exact ⟨p, by simp [peerings.set_owner, Function.update_of_ne hy, hp], hmade⟩

/-- An owner changes. A call that holds it keeps the lock. -/
theorem inv_change_owner (h : Inv s) (ho : s.owners i = some o)
    (hpeer : o.peer_ = true → o'.peer_ = true)
    (hlok : ∀ c : Nat, s.calls[c]? = some (.holding i) → o'.lok = some c)
    (hother : ∀ j, o'.other = some j → s.made j) : Inv (s.set_owner i o') := by
  have hmade : ∀ {y}, s.made y → (s.set_owner i o').made y := by
    intro y hy
    apply made_set_owner _ hy
    rintro ⟨p, hp, hmade⟩
    rw [ho] at hp
    cases hp
    exact hpeer hmade
  refine ⟨fun a p j hp hj => hmade ?_, fun f y hf => hmade (h.shared f y hf),
    fun f y hf => hmade (h.checked f y hf), fun c y hc => ?_⟩
  · by_cases ha : a = i
    · subst ha
      simp only [peerings.set_owner, Function.update_self, Option.some.injEq] at hp
      exact hother j (hp ▸ hj)
    · simp only [peerings.set_owner, Function.update_of_ne ha] at hp
      exact h.other a p j hp hj
  · obtain ⟨p, hp, hmade', hlok'⟩ := h.held c y hc
    by_cases hy : y = i
    · subst hy
      rw [ho] at hp
      cases hp
      exact ⟨o', by simp [peerings.set_owner], hpeer hmade', hlok c hc⟩
    · exact ⟨p, by simp [peerings.set_owner, Function.update_of_ne hy, hp], hmade', hlok'⟩

theorem inv_set_owner (h : Inv s) (ho : s.owners i = some o)
    (hpeer : o.peer_ = true → o'.peer_ = true) (hlok : o'.lok = o.lok)
    (hother : ∀ j, o'.other = some j → s.made j) : Inv (s.set_owner i o') := by
  refine inv_change_owner h ho hpeer (fun c hc => ?_) hother
  obtain ⟨p, hp, -, hheld⟩ := h.held c i hc
  rw [ho] at hp
  cases hp
  exact hlok.trans hheld

theorem set_call_holding {a : Nat} (ha : (s.set_call c k).calls[a]? = some (.holding y)) :
    (a = c ∧ k = .holding y) ∨ (a ≠ c ∧ s.calls[a]? = some (.holding y)) := by
  simp only [peerings.set_call, List.getElem?_set] at ha
  split at ha
  · next hac =>
    split at ha
    · exact .inl ⟨hac.symm, Option.some.inj ha⟩
    · cases ha
  · next hac => exact .inr ⟨Ne.symm hac, ha⟩

/-- A call goes on. Its share is of an owner with an impl, and it returns an owner that it has the
lock of. -/
theorem inv_set_call (h : Inv s)
    (hk : ∀ y, k = .holding y → ∃ o, s.owners y = some o ∧ o.peer_ = true ∧ o.lok = some c)
    (hmade : ∀ f y, k = .shared f y ∨ k = .checked f y → s.made y) : Inv (s.set_call c k) := by
  refine ⟨h.other, fun f y hf => ?_, fun f y hf => ?_, fun a y ha => ?_⟩
  · rcases List.mem_or_eq_of_mem_set hf with hold | hnew
    · exact h.shared f y hold
    · exact hmade f y (.inl hnew.symm)
  · rcases List.mem_or_eq_of_mem_set hf with hold | hnew
    · exact h.checked f y hold
    · exact hmade f y (.inr hnew.symm)
  · obtain ⟨rfl, hky⟩ | ⟨-, hold⟩ := set_call_holding ha
    · exact hk y hky
    · exact h.held a y hold

/-- An owner changes that keeps its guards, or that no call holds. -/
theorem guarded_set_owner (h : HeldGuarded s) (ho : s.owners i = some o)
    (hkeep : (o'.gone = o.gone ∧ o'.guards = o.guards) ∨
      ∀ c : Nat, s.calls[c]? ≠ some (.holding i)) : HeldGuarded (s.set_owner i o') := by
  intro c y hc
  obtain ⟨p, hp, hgone, hguards⟩ := h c y hc
  by_cases hy : y = i
  · subst hy
    rw [ho] at hp
    cases hp
    rcases hkeep with ⟨hgone', hguards'⟩ | hfree
    · exact ⟨o', by simp [peerings.set_owner], hgone'.trans hgone, hguards' ▸ hguards⟩
    · exact absurd hc (hfree c)
  · exact ⟨p, by simp [peerings.set_owner, Function.update_of_ne hy, hp], hgone, hguards⟩

theorem guarded_set_call (h : HeldGuarded s)
    (hk : ∀ y, k = .holding y → ∃ o, s.owners y = some o ∧ o.gone = false ∧ 0 < o.guards) :
    HeldGuarded (s.set_call c k) := by
  intro a y ha
  obtain ⟨rfl, hky⟩ | ⟨-, hold⟩ := set_call_holding ha
  · exact hk y hky
  · exact h a y hold

/-- A call that holds an owner has its lock, so no call holds an owner whose lock is free. -/
theorem not_held (h : Inv s) (ho : s.owners i = some o) (hlok : o.peer_ = true → o.lok = none)
    (c : Nat) : s.calls[c]? ≠ some (.holding i) := by
  intro hc
  obtain ⟨p, hp, hmade, hheld⟩ := h.held c i hc
  rw [ho] at hp
  cases hp
  rw [hlok hmade] at hheld
  cases hheld

/-! ## What a step does -/

/-- The invariant, and that what is held is guarded. -/
def Good (s : peerings) : Prop :=
  Inv s ∧ HeldGuarded s

theorem good_create {n : Nat} (h : Good s) (hs : s.create i n = some s') : Good s' := by
  unfold peerings.create at hs
  split at hs
  · cases hs
  · next hnone =>
    obtain rfl := Option.some.inj hs
    have hno : ∀ {a p}, s.owners a = some p → a ≠ i := by
      rintro a p ha rfl
      rw [hnone] at ha
      cases ha
    have hmade : ∀ {y}, s.made y → (s.set_owner i { guards := n }).made y := by
      rintro y ⟨p, hp, hpeer⟩
      exact ⟨p, by simp [peerings.set_owner, Function.update_of_ne (hno hp), hp], hpeer⟩
    refine ⟨⟨fun a p j hp hj => hmade ?_, fun f y hf => hmade (h.1.shared f y hf),
      fun f y hf => hmade (h.1.checked f y hf), fun c y hc => ?_⟩, fun c y hc => ?_⟩
    · by_cases ha : a = i
      · subst ha
        simp only [peerings.set_owner, Function.update_self, Option.some.injEq] at hp
        subst hp
        cases hj
      · simp only [peerings.set_owner, Function.update_of_ne ha] at hp
        exact h.1.other a p j hp hj
    · obtain ⟨p, hp, hheld⟩ := h.1.held c y hc
      exact ⟨p, by simp [peerings.set_owner, Function.update_of_ne (hno hp), hp], hheld⟩
    · obtain ⟨p, hp, hguarded⟩ := h.2 c y hc
      exact ⟨p, by simp [peerings.set_owner, Function.update_of_ne (hno hp), hp], hguarded⟩

theorem good_get (h : Good s) (hs : s.on i Peering.get = some s') : Good s' ∧ s'.made i := by
  obtain ⟨o, o', ho, hget, rfl⟩ := on_some hs
  simp only [Peering.get, Option.ite_none_left_eq_some] at hget
  obtain ⟨-, hget⟩ := hget
  obtain rfl := Option.some.inj hget
  refine ⟨⟨inv_set_owner h.1 ho (fun _ => rfl) rfl (h.1.other i o · ho), ?_⟩, ?_⟩
  · exact guarded_set_owner h.2 ho (.inl ⟨rfl, rfl⟩)
  · exact ⟨{ o with peer_ := true }, by simp [peerings.set_owner], rfl⟩

theorem good_attach (h : Good s) (hs : s.attach i j = some s') : Good s' := by
  simp only [peerings.attach, Option.bind_eq_some_iff] at hs
  obtain ⟨s₁, hi, s₂, hj, hs⟩ := hs
  obtain ⟨h₂, hmade⟩ := good_get (good_get h hi).1 hj
  obtain ⟨o, o', ho, hattach, rfl⟩ := on_some hs
  obtain rfl := Option.some.inj hattach
  refine ⟨inv_set_owner h₂.1 ho id rfl fun a ha => ?_, ?_⟩
  · obtain rfl := Option.some.inj ha
    exact hmade
  · exact guarded_set_owner h₂.2 ho (.inl ⟨rfl, rfl⟩)

theorem good_detach (h : Good s) (hs : s.on i Peering.detach = some s') : Good s' := by
  obtain ⟨o, o', ho, hdetach, rfl⟩ := on_some hs
  simp only [Peering.detach, Option.ite_none_left_eq_some] at hdetach
  obtain ⟨-, hdetach⟩ := hdetach
  obtain rfl := Option.some.inj hdetach
  exact ⟨inv_set_owner h.1 ho id rfl nofun, guarded_set_owner h.2 ho (.inl ⟨rfl, rfl⟩)⟩

/-- A guard runs when no call holds the owner. -/
theorem good_guard (h : Good s) (hs : s.on i Peering.guard = some s') : Good s' := by
  obtain ⟨o, o', ho, hguard, rfl⟩ := on_some hs
  simp only [Peering.guard, Option.ite_none_left_eq_some] at hguard
  obtain ⟨-, hguard⟩ := hguard
  split at hguard
  · simp only [Option.ite_none_left_eq_some] at hguard
    obtain ⟨hlok, hguard⟩ := hguard
    obtain rfl := Option.some.inj hguard
    have hfree := not_held h.1 ho fun _ => by simpa using hlok
    exact ⟨inv_set_owner h.1 ho id rfl nofun, guarded_set_owner h.2 ho (.inr hfree)⟩
  · next hpeer =>
    obtain rfl := Option.some.inj hguard
    have hfree := not_held h.1 ho fun hmade => absurd hmade hpeer
    exact ⟨inv_set_owner h.1 ho id rfl (h.1.other i o · ho),
      guarded_set_owner h.2 ho (.inr hfree)⟩

/-- An owner goes when all its guards ran, so when no call holds it. -/
theorem good_destroy (h : Good s) (hs : s.on i Peering.destroy = some s') : Good s' := by
  obtain ⟨o, o', ho, hdestroy, rfl⟩ := on_some hs
  simp only [Peering.destroy, Option.ite_none_left_eq_some, Bool.or_eq_true, bne_iff_ne, ne_eq,
    not_or, not_not] at hdestroy
  obtain ⟨⟨-, hguards⟩, hdestroy⟩ := hdestroy
  obtain rfl := Option.some.inj hdestroy
  have hfree : ∀ c : Nat, s.calls[c]? ≠ some (.holding i) := by
    intro c hc
    obtain ⟨p, hp, -, hpos⟩ := h.2 c i hc
    rw [ho] at hp
    cases hp
    omega
  exact ⟨inv_set_owner h.1 ho id rfl (h.1.other i o · ho), guarded_set_owner h.2 ho (.inr hfree)⟩

theorem getElem?_append_single {l : List call} {a : Nat} (hk : k ≠ .holding y)
    (ha : (l ++ [k])[a]? = some (.holding y)) : l[a]? = some (.holding y) := by
  rcases Nat.lt_or_ge a l.length with hlt | hge
  · rwa [List.getElem?_append_left hlt] at ha
  · rw [List.getElem?_append_right hge, List.getElem?_singleton] at ha
    split at ha
    · exact absurd (Option.some.inj ha) hk
    · cases ha

theorem good_fetch (h : Good s) (hs : s.fetch i = some s') : Good s' := by
  simp only [peerings.fetch, Option.bind_eq_some_iff, Option.ite_none_left_eq_some] at hs
  obtain ⟨o, ho, -, hs⟩ := hs
  obtain rfl := Option.some.inj hs
  have hk : ∀ y, (if o.peer_ then call.fetched i else .nullptr) ≠ .holding y := by
    intro y
    split <;> nofun
  refine ⟨⟨h.1.other, fun f y hf => h.1.shared f y ?_, fun f y hf => h.1.checked f y ?_,
    fun c y hc => h.1.held c y (getElem?_append_single (hk y) hc)⟩,
    fun c y hc => h.2 c y (getElem?_append_single (hk y) hc)⟩
  · rcases List.mem_append.mp hf with hold | hnew
    · exact hold
    · split at hnew <;> simp at hnew
  · rcases List.mem_append.mp hf with hold | hnew
    · exact hold
    · split at hnew <;> simp at hnew

theorem good_lock_other (h : Good s) (hs : s.lock_other c = some s') : Good s' := by
  unfold peerings.lock_other at hs
  split at hs
  · next fst hc =>
    split at hs
    · next y hy =>
      obtain rfl := Option.some.inj hs
      obtain ⟨o, ho, hother⟩ := Option.bind_eq_some_iff.mp hy
      have hmade : s.made y := h.1.other fst o y ho hother
      split
      · exact ⟨inv_set_call h.1 nofun nofun, guarded_set_call h.2 nofun⟩
      · exact ⟨inv_set_call h.1 nofun (by rintro f y' (hk | hk) <;> cases hk; exact hmade),
          guarded_set_call h.2 nofun⟩
    · obtain rfl := Option.some.inj hs
      exact ⟨inv_set_call h.1 nofun nofun, guarded_set_call h.2 nofun⟩
  · cases hs

theorem good_check (h : Good s) (hs : s.check c = some s') : Good s' := by
  unfold peerings.check at hs
  split at hs
  · next fst y hc =>
    obtain rfl := Option.some.inj hs
    have hmade : s.made y := h.1.shared fst y (List.mem_of_getElem? hc)
    split
    · exact ⟨inv_set_call h.1 nofun nofun, guarded_set_call h.2 nofun⟩
    · exact ⟨inv_set_call h.1 nofun (by rintro f y' (hk | hk) <;> cases hk; exact hmade),
        guarded_set_call h.2 nofun⟩
  · cases hs

/-- The call takes the lock of the owner that it returns. -/
theorem lock_some (hs : s.lock c = some s') :
    ∃ f y o, s.calls[c]? = some (.checked f y) ∧ s.owners y = some o ∧ o.lok = none ∧
      s' = (s.set_owner y { o with lok := some c }).set_call c (.holding y) := by
  unfold peerings.lock at hs
  split at hs
  · next f y hc =>
    obtain ⟨s₁, hon, rfl⟩ := Option.map_eq_some_iff.mp hs
    obtain ⟨o, o', ho, hlok, rfl⟩ := on_some hon
    simp only [Option.ite_none_left_eq_some] at hlok
    obtain ⟨hfree, hlok⟩ := hlok
    obtain rfl := Option.some.inj hlok
    exact ⟨f, y, o, hc, ho, by simpa using hfree, rfl⟩
  · cases hs

/-- A call that takes the lock before the last guard of the owner has run. -/
theorem good_lock (h : Good s) (hs : s.lock c = some s')
    (hguard : ∀ f y, s.calls[c]? = some (.checked f y) →
      ∃ o, s.owners y = some o ∧ o.gone = false ∧ 0 < o.guards) : Good s' := by
  obtain ⟨f, y, o, hc, ho, hfree, rfl⟩ := lock_some hs
  have hnot := not_held h.1 ho fun _ => hfree
  obtain ⟨p, hp, hgone, hguards⟩ := hguard f y hc
  rw [ho] at hp
  cases hp
  have hmade : o.peer_ = true := by
    obtain ⟨p, hp, hpeer⟩ := h.1.checked f y (List.mem_of_getElem? hc)
    rw [ho] at hp
    cases hp
    exact hpeer
  have hinv : Inv (s.set_owner y { o with lok := some c }) :=
    inv_change_owner h.1 ho id (fun a ha => absurd ha (hnot a)) (h.1.other y o · ho)
  have hheld : HeldGuarded (s.set_owner y { o with lok := some c }) :=
    guarded_set_owner h.2 ho (.inl ⟨rfl, rfl⟩)
  have howner : (s.set_owner y { o with lok := some c }).owners y =
      some { o with lok := some c } := by simp [peerings.set_owner]
  constructor
  · refine inv_set_call hinv (fun z hz => ?_) nofun
    cases hz
    exact ⟨_, howner, hmade, rfl⟩
  · apply guarded_set_call hheld
    intro z hz
    cases hz
    exact ⟨_, howner, hgone, hguards⟩

/-- The lock of the owner is free then, and no other call has it. -/
theorem good_release (h : Good s) (hs : s.release c = some s') : Good s' := by
  unfold peerings.release at hs
  split at hs
  · next y hc =>
    obtain ⟨s₁, hon, rfl⟩ := Option.map_eq_some_iff.mp hs
    obtain ⟨o, o', ho, hlok, rfl⟩ := on_some hon
    obtain rfl := Option.some.inj hlok
    have hinv : Inv (s.set_call c .released) := inv_set_call h.1 nofun nofun
    have hheld : HeldGuarded (s.set_call c .released) := guarded_set_call h.2 nofun
    have hnot : ∀ a : Nat, (s.set_call c .released).calls[a]? ≠ some (.holding y) := by
      intro a ha
      obtain ⟨-, hk⟩ | ⟨hac, hold⟩ := set_call_holding ha
      · cases hk
      · obtain ⟨p, hp, -, hpa⟩ := h.1.held a y hold
        obtain ⟨q, hq, -, hqc⟩ := h.1.held c y hc
        rw [hp] at hq
        cases hq
        rw [hpa] at hqc
        exact hac (Option.some.inj hqc)
    exact ⟨inv_change_owner hinv ho id (fun a ha => absurd ha (hnot a)) (hinv.other y o · ho),
      guarded_set_owner hheld ho (.inr hnot)⟩
  · cases hs

end

/-! ## The owner that a call returned -/

/-- A call takes the lock of its peer before the last guard of the peer has run. -/
def BeforeLastGuard (s : peerings) : action → Prop
  | .lock c => ∀ f y, s.calls[c]? = some (call.checked f y) →
      ∃ o, s.owners y = some o ∧ o.gone = false ∧ 0 < o.guards
  | _ => True

theorem good_step {s s' : peerings} {a : action} (h : Good s) (ha : BeforeLastGuard s a)
    (hs : step s a = some s') : Good s' := by
  cases a with
  | create i n => exact good_create h hs
  | attach i j => exact good_attach h hs
  | detach i => exact good_detach h hs
  | guard i => exact good_guard h hs
  | destroy i => exact good_destroy h hs
  | fetch i => exact good_fetch h hs
  | lock_other c => exact good_lock_other h hs
  | check c => exact good_check h hs
  | lock c => exact good_lock h hs ha
  | release c => exact good_release h hs

theorem unguarded_of_late {s s' : peerings} {a : action} (ha : ¬ BeforeLastGuard s a)
    (hs : step s a = some s') : ¬ HeldGuarded s' := by
  cases a with
  | lock c =>
    intro hheld
    apply ha
    intro f y hc
    obtain ⟨f', y', o, hc', ho, -, rfl⟩ := lock_some hs
    rw [hc'] at hc
    cases hc
    have hlt : c < s.calls.length := (List.getElem?_eq_some_iff.mp hc').1
    obtain ⟨p, hp, hgone, hguards⟩ :=
      hheld c y (by simp [peerings.set_call, peerings.set_owner, hlt])
    have hpo : { o with lok := some c } = p := by
      simpa [peerings.set_call, peerings.set_owner] using hp
    subst hpo
    exact ⟨o, ho, hgone, hguards⟩
  | _ => exact absurd trivial ha

/-- In each run, the owner of each pointer that `peer()` returned is there, with a guard that waits
for the lock, as long as the pointer is used, if and only if each call takes the lock of its peer
before the last guard of the peer has run. The count of the shares, which `peer()` makes before it
takes the lock, does not say that. -/
theorem held_are_guarded_iff (as : List action) :
    Always step HeldGuarded {} as ↔ Meets step BeforeLastGuard {} as :=
  have hstart : Good {} := ⟨⟨nofun, nofun, nofun, nofun⟩, nofun⟩
  always_iff_meets (P := Good) (fun _ h => h.2) (fun _ _ _ => good_step)
    (fun _ _ _ _ => unguarded_of_late) hstart as

/-- The count of the shares is 2 when the call looks, and the peer goes before the call has the
lock. -/
theorem counted_peers_go : ¬ ∀ as : List action, Always step HeldGuarded {} as := by
  intro hall
  have hheld := always_exec (hall
    [.create 1 1, .create 2 1, .attach 1 2, .fetch 1, .lock_other 0, .check 0,
      .guard 2, .destroy 2, .lock 0]) rfl
  obtain ⟨o, ho, hgone, -⟩ := hheld 0 2 rfl
  cases ho
  cases hgone

end socle.peering
