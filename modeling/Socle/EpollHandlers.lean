-- The handlers of sockets (common/epoll.cpp, epoll.hpp). A poller has a map
-- from sockets to handlers, and a handler keeps one poller, its registrant,
-- and the sockets that it was registered for. The links of the two sides are
-- cut by two destructors, each of which sees one side only.
import Mathlib.Data.List.AList
import Socle.Epoll

namespace socle.poll

open lib.run

/-! ## Data -/

/-- `handler_info`, with the count of its `handler_stats`. -/
structure handler_info (H : Type) where
  call_count : Nat := 0
  handler : H

structure epoller (H : Type) where
  poller : Option epoll := none
  handler_db : AList fun _ : Int => handler_info H := ∅

structure epoll_handler (P : Type) where
  registrant : Option P := none
  registered_sockets : set_type := []

/-- All pollers and handlers there are, and those that are destroyed. -/
structure Registry (P H : Type) where
  pollers : P → epoller H
  handlers : H → epoll_handler P := fun _ => {}
  poller_gone : P → Bool := fun _ => false
  handler_gone : H → Bool := fun _ => false

/-! ## Operations -/

namespace epoller

variable {H : Type}

/-- `handler_db.find(check)`. -/
def find (e : epoller H) (check : Int) : Option (handler_info H) :=
  e.handler_db.lookup check

def get_handler (e : epoller H) (check : Int) : Option H :=
  (e.find check).map handler_info.handler

/-- `handler_db[check] = hi`. -/
def put (check : Int) (hi : handler_info H) (e : epoller H) : epoller H :=
  { e with handler_db := e.handler_db.insert check hi }

def clear_handler (check : Int) (e : epoller H) : epoller H where
  handler_db := e.handler_db.erase check
  poller := e.poller.map fun poller =>
    { poller with
      rescan_set_in := set_type.erase poller.rescan_set_in check
      rescan_set_out := set_type.erase poller.rescan_set_out check }.clear_idle_watch check

/-- The entry of `check` gets a handler, and keeps its count when it is there. -/
def put_handler (check : Int) (h : H) (e : epoller H) : epoller H :=
  e.put check { (e.find check).getD { handler := h } with handler := h }

/-- `clear_handler`, when the handler of `check` is `h`. -/
def clear_own [DecidableEq H] (h : H) (check : Int) (e : epoller H) : epoller H :=
  if e.get_handler check = some h then e.clear_handler check else e

end epoller

namespace Registry

variable {P H : Type} [DecidableEq P] [DecidableEq H]

def with_poller (w : Registry P H) (p : P) (f : epoller H → epoller H) : Registry P H :=
  { w with pollers := Function.update w.pollers p (f (w.pollers p)) }

def with_handler (w : Registry P H) (h : H) (f : epoll_handler P → epoll_handler P) :
    Registry P H :=
  { w with handlers := Function.update w.handlers h (f (w.handlers h)) }

/-- The sockets of a handler that comes from another registrant. Entries are created if they don't
exist yet. -/
def move_sockets (p : P) (h : H) (w : Registry P H) : Registry P H :=
  (w.handlers h).registered_sockets.foldl
    (fun w cur_socket => w.with_poller p (.put cur_socket { handler := h })) w

/-- `set_handler`, with `nullptr` as `none`. -/
def set_handler (p : P) (check : Int) : Option H → Registry P H → Registry P H
  | none, w => w.with_poller p (.clear_handler check)
  | some h, w =>
    let w := w.with_poller p (.put_handler check h)
    let w :=
      if (w.handlers h).registrant.isSome && (w.handlers h).registrant ≠ some p then
        w.move_sockets p h
      else w
    w.with_handler h fun x =>
      { registrant := some p, registered_sockets := x.registered_sockets.insert check }

/-- `~epoll_handler`: it doesn't remove foreign handlers. -/
def destroy_handler (h : H) (w : Registry P H) : Registry P H :=
  let w := match (w.handlers h).registrant with
    | none => w
    | some registrant => (w.handlers h).registered_sockets.foldl
        (fun w s => w.with_poller registrant (.clear_own h s)) w
  { w with handler_gone := Function.update w.handler_gone h true }

/-- The loop of `~epoller`. -/
def unregister (entries : List (Σ _ : Int, handler_info H)) (w : Registry P H) : Registry P H :=
  entries.foldl
    (fun w entry => w.with_handler entry.2.handler fun x => { x with registrant := none }) w

/-- `~epoller`. -/
def destroy_poller (p : P) (w : Registry P H) : Registry P H :=
  let w := w.unregister (w.pollers p).handler_db.entries
  { w with poller_gone := Function.update w.poller_gone p true }

end Registry

inductive handler_call (P H : Type)
  | set_handler (p : P) (check : Int) (h : Option H)
  | clear_handler (p : P) (check : Int)
  | destroy_handler (h : H)
  | destroy_poller (p : P)

section
variable {P H : Type} [DecidableEq P] [DecidableEq H]

/-- Calls of what is destroyed, or with it, are refused. -/
def handler_step (w : Registry P H) : handler_call P H → Option (Registry P H)
  | .set_handler p check h =>
    if w.poller_gone p || h.any w.handler_gone then none else some (w.set_handler p check h)
  | .clear_handler p check =>
    if w.poller_gone p then none else some (w.with_poller p (.clear_handler check))
  | .destroy_handler h => if w.handler_gone h then none else some (w.destroy_handler h)
  | .destroy_poller p => if w.poller_gone p then none else some (w.destroy_poller p)

/-- No handler is registered. `polls` are the `epoll` objects that the pollers have already. -/
def no_handlers (polls : P → Option epoll) : Registry P H where
  pollers p := { poller := polls p }

/-! ## The law -/

/-- The map of `p` has `h`. -/
def Maps (w : Registry P H) (p : P) (h : H) : Prop :=
  ∃ check, (w.pollers p).get_handler check = some h

/-- No map has a destroyed handler, and no registrant is destroyed. -/
structure NoDangling (w : Registry P H) : Prop where
  handlers : ∀ p h, w.poller_gone p = false → Maps w p h → w.handler_gone h = false
  registrants : ∀ h p, w.handler_gone h = false → (w.handlers h).registrant = some p →
    w.poller_gone p = false

/-- A handler is destroyed when no map has it but that of its registrant, and a poller when its map
has each handler that it is the registrant of. -/
def Unlinked (w : Registry P H) : handler_call P H → Prop
  | .destroy_handler h => ∀ p, w.poller_gone p = false → Maps w p h →
      (w.handlers h).registrant = some p
  | .destroy_poller p => ∀ h, w.handler_gone h = false → (w.handlers h).registrant = some p →
      Maps w p h
  | _ => True

end

/-! ## Entries -/

namespace epoller

variable {H : Type} {e : epoller H} {check s : Int} {hi : handler_info H} {h : H}

theorem get_handler_put : (e.put check hi).get_handler s =
    if s = check then some hi.handler else e.get_handler s := by
  unfold get_handler find put
  split
  next heq => rw [heq, AList.lookup_insert, Option.map_some]
  next hne => rw [AList.lookup_insert_ne hne]

theorem get_handler_clear :
    (e.clear_handler check).get_handler s = if s = check then none else e.get_handler s := by
  unfold get_handler find clear_handler
  split
  next heq => rw [heq, AList.lookup_erase, Option.map_none]
  next hne => rw [AList.lookup_erase_ne hne]

theorem get_handler_put_all {sockets : List Int} :
    (sockets.foldl (fun e s => e.put s hi) e).get_handler s =
      if s ∈ sockets then some hi.handler else e.get_handler s := by
  induction sockets generalizing e with
  | nil => simp
  | cons first rest ih =>
    rw [List.foldl_cons, ih, get_handler_put]
    by_cases hrest : s ∈ rest
    · simp [hrest]
    · simp [hrest]

section
variable [DecidableEq H]

theorem get_handler_clear_own : (e.clear_own h check).get_handler s =
    if s = check ∧ e.get_handler s = some h then none else e.get_handler s := by
  unfold clear_own
  by_cases heq : s = check
  · subst heq
    split
    next hown => simp [get_handler_clear, hown]
    next hforeign => simp [hforeign]
  · split
    · simp [get_handler_clear, heq]
    · simp [heq]

theorem get_handler_clear_own_all {sockets : List Int} :
    (sockets.foldl (fun e s => e.clear_own h s) e).get_handler s =
      if s ∈ sockets ∧ e.get_handler s = some h then none else e.get_handler s := by
  induction sockets generalizing e with
  | nil => simp
  | cons first rest ih =>
    rw [List.foldl_cons, ih, get_handler_clear_own]
    by_cases hown : e.get_handler s = some h
    · by_cases heq : s = first
      · simp [heq]
      · simp [heq]
    · simp [hown]

end

end epoller

/-! ## What a call changes -/

namespace Registry

section
variable {P H : Type} [DecidableEq P] {w : Registry P H} {p q : P} {h : H}

@[simp] theorem with_poller_handlers (f : epoller H → epoller H) :
    (w.with_poller p f).handlers = w.handlers := rfl

theorem with_poller_pollers (f : epoller H → epoller H) :
    (w.with_poller p f).pollers q = if q = p then f (w.pollers p) else w.pollers q :=
  Function.update_apply ..

/-- Changes of one poller, one after the other, are one change of it. -/
theorem foldl_with_poller (f : Int → epoller H → epoller H) (sockets : List Int) :
    sockets.foldl (fun w s => w.with_poller p (f s)) w =
      w.with_poller p fun e => sockets.foldl (fun e s => f s e) e := by
  induction sockets generalizing w with
  | nil => simp [with_poller]
  | cons s rest ih =>
    rw [List.foldl_cons, ih]
    simp [with_poller]

theorem move_sockets_eq : w.move_sockets p h = w.with_poller p fun e =>
    (w.handlers h).registered_sockets.foldl (fun e s => e.put s { handler := h }) e :=
  foldl_with_poller ..

end

section
variable {P H : Type} [DecidableEq H] {w : Registry P H} {q : P} {h : H}

@[simp] theorem with_handler_pollers (f : epoll_handler P → epoll_handler P) :
    (w.with_handler h f).pollers = w.pollers := rfl

theorem unregister_registrant (entries : List (Σ _ : Int, handler_info H)) :
    ((w.unregister entries).handlers h).registrant = some q ↔
      (∀ entry ∈ entries, entry.2.handler ≠ h) ∧ (w.handlers h).registrant = some q := by
  induction entries generalizing w with
  | nil => simp [unregister]
  | cons entry rest ih =>
    refine (@ih (w.with_handler entry.2.handler _)).trans ?_
    rw [List.forall_mem_cons, and_assoc]
    by_cases heq : h = entry.2.handler
    · simp [with_handler, heq]
    · simp [with_handler, heq, Ne.symm heq]

theorem unregister_rest (entries : List (Σ _ : Int, handler_info H)) :
    (∀ h, ((w.unregister entries).handlers h).registered_sockets =
      (w.handlers h).registered_sockets) ∧
    (w.unregister entries).pollers = w.pollers ∧
    (w.unregister entries).poller_gone = w.poller_gone ∧
    (w.unregister entries).handler_gone = w.handler_gone := by
  induction entries generalizing w with
  | nil => simp [unregister]
  | cons entry rest ih =>
    obtain ⟨hsockets, hrest⟩ := @ih (w.with_handler entry.2.handler _)
    refine ⟨fun h => (hsockets h).trans ?_, hrest⟩
    by_cases heq : h = entry.2.handler
    · simp [with_handler, heq]
    · simp [with_handler, heq]

end

section
variable {P H : Type} [DecidableEq P] [DecidableEq H] {w : Registry P H} {p q : P} {h : H}
  {check s : Int}

theorem set_handler_handlers : (w.set_handler p check (some h)).handlers =
    Function.update w.handlers h {
      registrant := some p
      registered_sockets := (w.handlers h).registered_sockets.insert check } := by
  unfold set_handler
  simp only [move_sockets_eq]
  split <;> rfl

theorem set_handler_gone (check : Int) :
    (w.set_handler p check (some h)).poller_gone = w.poller_gone ∧
    (w.set_handler p check (some h)).handler_gone = w.handler_gone := by
  unfold set_handler
  simp only [move_sockets_eq]
  split <;> exact ⟨rfl, rfl⟩

/-- A new entry is one of `h`, for a socket that `h` is registered for then. -/
theorem set_handler_entry {g : H}
    (hmem : ((w.set_handler p check (some h)).pollers q).get_handler s = some g) :
    (w.pollers q).get_handler s = some g ∨
      g = h ∧ s ∈ (w.handlers h).registered_sockets.insert check := by
  have hput : ∀ {e : epoller H}, (e.put_handler check h).get_handler s = some g →
      e.get_handler s = some g ∨ g = h ∧ s ∈ (w.handlers h).registered_sockets.insert check := by
    intro e hmem
    unfold epoller.put_handler at hmem
    rw [epoller.get_handler_put] at hmem
    split at hmem
    next heq =>
      rw [heq]
      exact Or.inr ⟨(Option.some.inj hmem).symm, List.mem_insert_self⟩
    · exact Or.inl hmem
  unfold set_handler at hmem
  simp only [move_sockets_eq, with_poller_handlers, with_handler_pollers] at hmem
  split at hmem
  · rw [with_poller_pollers] at hmem
    split at hmem
    next hq =>
      rw [epoller.get_handler_put_all, with_poller_pollers, if_pos rfl] at hmem
      split at hmem
      next hsocket => exact Or.inr ⟨(Option.some.inj hmem).symm, List.mem_insert_of_mem hsocket⟩
      · rw [hq]
        exact hput hmem
    next hq =>
      rw [with_poller_pollers, if_neg hq] at hmem
      exact Or.inl hmem
  · rw [with_poller_pollers] at hmem
    split at hmem
    next hq =>
      rw [hq]
      exact hput hmem
    · exact Or.inl hmem

/-- Of a destroyed handler, the map of its registrant loses the entries of its sockets. -/
theorem get_handler_destroy : ((w.destroy_handler h).pollers q).get_handler s =
    if (w.handlers h).registrant = some q ∧ s ∈ (w.handlers h).registered_sockets ∧
      (w.pollers q).get_handler s = some h then none
    else (w.pollers q).get_handler s := by
  unfold destroy_handler
  cases hreg : (w.handlers h).registrant with
  | none => simp
  | some p =>
    simp only [foldl_with_poller]
    rw [with_poller_pollers]
    by_cases hq : q = p
    · simp [hq, epoller.get_handler_clear_own_all]
    · have hne : ¬ p = q := fun heq => hq heq.symm
      simp [hq, hne]

theorem destroy_handler_rest : (w.destroy_handler h).handlers = w.handlers ∧
    (w.destroy_handler h).poller_gone = w.poller_gone ∧
    (w.destroy_handler h).handler_gone = Function.update w.handler_gone h true := by
  unfold destroy_handler
  cases (w.handlers h).registrant with
  | none => exact ⟨rfl, rfl, rfl⟩
  | some p =>
    simp only [foldl_with_poller]
    exact ⟨rfl, rfl, rfl⟩

/-- The handlers in the map of a destroyed poller lose their registrant, whichever it is. -/
theorem destroy_poller_registrant : ((w.destroy_poller p).handlers h).registrant = some q ↔
    ¬ Maps w p h ∧ (w.handlers h).registrant = some q := by
  refine (unregister_registrant _).trans (and_congr_left fun _ => ?_)
  unfold Maps epoller.get_handler epoller.find
  constructor
  · rintro hnone ⟨check, hget⟩
    obtain ⟨hi, hfind, heq⟩ := Option.map_eq_some_iff.mp hget
    exact hnone ⟨check, hi⟩ (AList.mem_lookup_iff.mp hfind) heq
  · rintro hnone ⟨check, hi⟩ hmem heq
    exact hnone ⟨check, Option.map_eq_some_iff.mpr ⟨hi, AList.mem_lookup_iff.mpr hmem, heq⟩⟩

theorem destroy_poller_rest :
    (∀ h, ((w.destroy_poller p).handlers h).registered_sockets =
      (w.handlers h).registered_sockets) ∧
    (w.destroy_poller p).pollers = w.pollers ∧
    (w.destroy_poller p).poller_gone = Function.update w.poller_gone p true ∧
    (w.destroy_poller p).handler_gone = w.handler_gone := by
  obtain ⟨hsockets, hpollers, hgone, hhandlers⟩ :=
    unregister_rest (w := w) (w.pollers p).handler_db.entries
  refine ⟨hsockets, hpollers, ?_, hhandlers⟩
  rw [← hgone]
  rfl

end

end Registry

/-! ## One step -/

section
variable {P H : Type} [DecidableEq P] [DecidableEq H] {w w' : Registry P H}
  {a : handler_call P H}

/-- Nothing dangles, and a handler is registered for the sockets under which a map has it. -/
structure Linked (w : Registry P H) : Prop extends NoDangling w where
  registered : ∀ p s h, w.poller_gone p = false → (w.pollers p).get_handler s = some h →
    s ∈ (w.handlers h).registered_sockets

omit [DecidableEq H] in
theorem clear_linked (hw : Linked w) (p : P) (check : Int) :
    Linked (w.with_poller p (.clear_handler check)) := by
  have hold : ∀ q s h,
      ((w.with_poller p (.clear_handler check)).pollers q).get_handler s = some h →
        (w.pollers q).get_handler s = some h := by
    intro q s h hget
    rw [Registry.with_poller_pollers] at hget
    split at hget
    next hq =>
      rw [epoller.get_handler_clear] at hget
      split at hget
      · cases hget
      · rwa [hq]
    · exact hget
  refine ⟨⟨fun q h hq ⟨s, hget⟩ => ?_, hw.registrants⟩, fun q s h hq hget => ?_⟩
  · exact hw.handlers q h hq ⟨s, hold q s h hget⟩
  · exact hw.registered q s h hq (hold q s h hget)

theorem set_linked (hw : Linked w) {p : P} {h : H} (check : Int) (hp : w.poller_gone p = false)
    (hh : w.handler_gone h = false) : Linked (w.set_handler p check (some h)) := by
  obtain ⟨hpollers, hhandlers⟩ := Registry.set_handler_gone (w := w) (p := p) (h := h)
    check
  refine ⟨⟨?_, ?_⟩, ?_⟩
  · rintro q g hq ⟨s, hget⟩
    rw [hpollers] at hq
    rw [hhandlers]
    rcases Registry.set_handler_entry hget with hold | ⟨heq, -⟩
    · exact hw.handlers q g hq ⟨s, hold⟩
    · rwa [heq]
  · intro g q hg hreg
    rw [hhandlers] at hg
    rw [hpollers]
    rw [Registry.set_handler_handlers, Function.update_apply] at hreg
    split at hreg
    · cases hreg
      exact hp
    · exact hw.registrants g q hg hreg
  · intro q s g hq hget
    rw [hpollers] at hq
    rw [Registry.set_handler_handlers, Function.update_apply]
    split
    next heq =>
      rcases Registry.set_handler_entry hget with hold | ⟨-, hsocket⟩
      · have hsocket := hw.registered q s g hq hold
        rw [heq] at hsocket
        exact List.mem_insert_of_mem hsocket
      · exact hsocket
    next hne =>
      rcases Registry.set_handler_entry hget with hold | ⟨heq, -⟩
      · exact hw.registered q s g hq hold
      · exact absurd heq hne

theorem destroy_handler_linked (hw : Linked w) {h : H}
    (hc : ∀ p, w.poller_gone p = false → Maps w p h → (w.handlers h).registrant = some p) :
    Linked (w.destroy_handler h) := by
  obtain ⟨hsame, hpollers, hhandlers⟩ := Registry.destroy_handler_rest (w := w) (h := h)
  have hold : ∀ q s g, w.poller_gone q = false →
      ((w.destroy_handler h).pollers q).get_handler s = some g →
        g ≠ h ∧ (w.pollers q).get_handler s = some g := by
    intro q s g hq hget
    rw [Registry.get_handler_destroy] at hget
    split at hget
    · cases hget
    next hleft =>
      refine ⟨?_, hget⟩
      rintro rfl
      exact hleft ⟨hc q hq ⟨s, hget⟩, hw.registered q s g hq hget, hget⟩
  refine ⟨⟨?_, ?_⟩, ?_⟩
  · rintro q g hq ⟨s, hget⟩
    rw [hpollers] at hq
    obtain ⟨hne, hget⟩ := hold q s g hq hget
    rw [hhandlers, Function.update_of_ne hne]
    exact hw.handlers q g hq ⟨s, hget⟩
  · intro g q hg hreg
    rw [hsame] at hreg
    rw [hhandlers, Function.update_apply] at hg
    rw [hpollers]
    split at hg
    · cases hg
    · exact hw.registrants g q hg hreg
  · intro q s g hq hget
    rw [hpollers] at hq
    rw [hsame]
    exact hw.registered q s g hq (hold q s g hq hget).2

theorem destroy_poller_linked (hw : Linked w) {p : P}
    (hc : ∀ h, w.handler_gone h = false → (w.handlers h).registrant = some p → Maps w p h) :
    Linked (w.destroy_poller p) := by
  obtain ⟨hsockets, hpollers, hgone, hhandlers⟩ := Registry.destroy_poller_rest (w := w) (p := p)
  have hlive : ∀ q, (w.destroy_poller p).poller_gone q = false ↔
      q ≠ p ∧ w.poller_gone q = false := by
    intro q
    rw [hgone, Function.update_apply]
    split
    next heq => simp [heq]
    next hne => simp [hne]
  refine ⟨⟨?_, ?_⟩, ?_⟩
  · rintro q h hq ⟨s, hget⟩
    rw [hpollers] at hget
    rw [hhandlers]
    exact hw.handlers q h ((hlive q).mp hq).2 ⟨s, hget⟩
  · intro h q hh hreg
    rw [hhandlers] at hh
    obtain ⟨hunmapped, hold⟩ := Registry.destroy_poller_registrant.mp hreg
    refine (hlive q).mpr ⟨?_, hw.registrants h q hh hold⟩
    rintro rfl
    exact hunmapped (hc h hh hold)
  · intro q s h hq hget
    rw [hpollers] at hget
    rw [hsockets]
    exact hw.registered q s h ((hlive q).mp hq).2 hget

theorem step_linked (hw : Linked w) (hc : Unlinked w a) (hs : handler_step w a = some w') :
    Linked w' := by
  cases a with
  | set_handler p check h =>
    simp only [handler_step] at hs
    split at hs
    · cases hs
    next hlive =>
      cases hs
      cases h with
      | none => exact clear_linked hw p check
      | some h =>
        simp only [Option.any_some, Bool.or_eq_true, not_or, Bool.not_eq_true] at hlive
        exact set_linked hw check hlive.1 hlive.2
  | clear_handler p check =>
    simp only [handler_step] at hs
    split at hs
    · cases hs
    · cases hs
      exact clear_linked hw p check
  | destroy_handler h =>
    simp only [handler_step] at hs
    split at hs
    · cases hs
    · cases hs
      exact destroy_handler_linked hw hc
  | destroy_poller p =>
    simp only [handler_step] at hs
    split at hs
    · cases hs
    · cases hs
      exact destroy_poller_linked hw hc

/-- A destructor that misses the condition leaves a link behind. -/
theorem step_dangles (hc : ¬ Unlinked w a) (hs : handler_step w a = some w') :
    ¬ NoDangling w' := by
  intro hlaw
  cases a with
  | set_handler p check h => exact hc trivial
  | clear_handler p check => exact hc trivial
  | destroy_handler h =>
    simp only [handler_step] at hs
    split at hs
    · cases hs
    · cases hs
      refine hc fun p hp ⟨s, hget⟩ => ?_
      by_contra hreg
      obtain ⟨-, hpollers, hhandlers⟩ := Registry.destroy_handler_rest (w := w) (h := h)
      have hleft : ((w.destroy_handler h).pollers p).get_handler s = some h := by
        rwa [Registry.get_handler_destroy, if_neg fun hown => hreg hown.1]
      have hgone := hlaw.handlers p h (by rwa [hpollers]) ⟨s, hleft⟩
      rw [hhandlers, Function.update_self] at hgone
      cases hgone
  | destroy_poller p =>
    simp only [handler_step] at hs
    split at hs
    · cases hs
    · cases hs
      refine hc fun h hh hreg => ?_
      by_contra hunmapped
      obtain ⟨-, -, hpollers, hhandlers⟩ := Registry.destroy_poller_rest (w := w) (p := p)
      have hgone := hlaw.registrants h p (by rwa [hhandlers])
        (Registry.destroy_poller_registrant.mpr ⟨hunmapped, hreg⟩)
      rw [hpollers, Function.update_self] at hgone
      cases hgone

omit [DecidableEq P] [DecidableEq H] in
theorem no_handlers_linked (polls : P → Option epoll) :
    Linked (no_handlers polls : Registry P H) where
  handlers _ _ _ := fun ⟨_, hget⟩ => nomatch hget
  registrants _ _ _ hreg := nomatch hreg
  registered _ _ _ _ hget := nomatch hget

/-! ## Runs -/

/-- Nothing dangles in a run when, and only when, each handler and each poller is unlinked where it
is destroyed. -/
theorem handlers_do_not_dangle (polls : P → Option epoll) (calls : List (handler_call P H)) :
    Always handler_step NoDangling (no_handlers polls) calls ↔
      Meets handler_step Unlinked (no_handlers polls) calls :=
  always_iff_meets (P := Linked) (fun _ => Linked.toNoDangling)
    (fun _ _ _ => step_linked) (fun _ _ _ _ => step_dangles) (no_handlers_linked polls) calls

end

/-- The handler of socket 5 is replaced by another one, and then the poller goes. -/
theorem a_replaced_handler_keeps_its_registrant :
    ¬ ∀ calls : List (handler_call Nat Nat),
      Always handler_step NoDangling (no_handlers fun _ => none) calls := by
  intro hall
  have hrun : (exec handler_step (no_handlers fun _ => none)
      [.set_handler 0 5 (some 0), .set_handler 0 5 (some 1), .destroy_poller 0]).map
      (fun w => (w.handler_gone 0, (w.handlers 0).registrant, w.poller_gone 0)) =
      some (false, some 0, true) := by decide
  obtain ⟨w, hw, hend⟩ := Option.map_eq_some_iff.mp hrun
  simp only [Prod.mk.injEq] at hend
  have hlaw := always_exec (hall _) hw
  have hlive := hlaw.registrants 0 0 hend.1 hend.2.1
  rw [hend.2.2] at hlive
  cases hlive

end socle.poll
