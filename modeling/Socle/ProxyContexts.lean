-- The contexts of proxies (baseproxy.cpp, hostcx.cpp). Raw pointers to them are in
-- eight vectors, and in peers. A proxy that drops contexts keeps them in its
-- trashcan, and deletes them when it is destroyed itself.
import Mathlib.Data.List.Basic
import Mathlib.Algebra.Order.Group.Multiset
import Socle.Lib.Ledger
import Socle.Lib.Run

namespace socle.contexts

open lib.ledger lib.run

/-! ## Data -/

inductive hand
  | left | right
  deriving DecidableEq

/-- Which of the vectors of one side, as `left_sockets` and `left_delayed_accepts`. -/
inductive kind
  | sockets | bind_sockets | pc_cx | delayed_accepts
  deriving DecidableEq

/-- `baseHostCX`, without its descriptors and buffers, with the number of the calls of
`on_accept_socket` and `on_delay_socket`. -/
structure baseHostCX (P : Type) where
  parent_proxy : Option P := none
  parent_flag : Char := '0'
  peer : Option Nat := none
  permanent : Bool := false
  accepted : Nat := 0
  delayed : Nat := 0

/-- `baseProxy`, with the vectors of its two sides. -/
structure baseProxy where
  cxs : hand → kind → List Nat := fun _ _ => []
  trashcan : List Nat := []

/-- All proxies and contexts there are. `orphans` are contexts that no proxy was given. -/
structure World (P : Type) where
  proxies : P → baseProxy := fun _ => {}
  gone : P → Bool := fun _ => false
  cx : Nat → baseHostCX P := fun _ => {}
  allocated : Nat := 0
  deleted : List Nat := []
  orphans : List Nat := []

/-! ## Operations -/

variable {P : Type} [DecidableEq P]

namespace World

def modify (i : Nat) (f : baseHostCX P → baseHostCX P) (w : World P) : World P :=
  { w with cx := Function.update w.cx i (f (w.cx i)) }

def with_proxy (p : P) (f : baseProxy → baseProxy) (w : World P) : World P :=
  { w with proxies := Function.update w.proxies p (f (w.proxies p)) }

/-- A new context. Its number is the number of those before it. -/
def new_cx (w : World P) : World P :=
  { w with cx := Function.update w.cx w.allocated {}, allocated := w.allocated + 1 }

def put (h : hand) (k : kind) (l : List Nat) (x : baseProxy) : baseProxy :=
  { x with cxs := Function.update x.cxs h (Function.update (x.cxs h) k l) }

/-- A context comes to a vector of a proxy. -/
def add (h : hand) (k : kind) (flag : Char) (p : P) (i : Nat) (w : World P) : World P :=
  (w.with_proxy p fun x => put h k (x.cxs h k ++ [i]) x).modify i fun cx =>
    { cx with parent_proxy := some p, parent_flag := flag }

def permanent (i : Nat) (w : World P) : World P :=
  w.modify i fun cx => { cx with permanent := true }

def ladd : P → Nat → World P → World P := add .left .sockets 'L'
def radd : P → Nat → World P → World P := add .right .sockets 'R'
def lbadd : P → Nat → World P → World P := add .left .bind_sockets 'L'
def rbadd : P → Nat → World P → World P := add .right .bind_sockets 'R'
def lpcadd (p : P) (i : Nat) (w : World P) : World P := add .left .pc_cx 'L' p i (w.permanent i)
def rpcadd (p : P) (i : Nat) (w : World P) : World P := add .right .pc_cx 'R' p i (w.permanent i)
def ldaadd : P → Nat → World P → World P := add .left .delayed_accepts 'l'
def rdaadd : P → Nat → World P → World P := add .right .delayed_accepts 'r'

/-- `baseHostCX::shutdown`, of a context that stays where it is. -/
def cx_shutdown (i : Nat) (w : World P) : World P :=
  w.modify i fun cx => { cx with parent_proxy := none, parent_flag := '-' }

def drop_cx (p : P) (i : Nat) (w : World P) : World P :=
  (w.modify i fun cx => { cx with peer := none }).with_proxy p fun x =>
    { x with trashcan := x.trashcan ++ [i] }

/-- The vectors of a side, in the order in which they are shut down. -/
def kinds : List kind := [.bind_sockets, .sockets, .pc_cx, .delayed_accepts]

/-- A vector is dropped, and cleared. -/
def drop_all (p : P) (h : hand) (w : World P) (k : kind) : World P :=
  (((w.proxies p).cxs h k).foldl (fun w i => w.drop_cx p i) w).with_proxy p (put h k [])

/-- `left_shutdown` and `right_shutdown`. -/
def side_shutdown (h : hand) (p : P) (w : World P) : World P :=
  let all := kinds.flatMap ((w.proxies p).cxs h)
  kinds.foldl (drop_all p h) (all.foldl (fun w i => w.cx_shutdown i) w)

def left_shutdown : P → World P → World P := side_shutdown .left
def right_shutdown : P → World P → World P := side_shutdown .right

def shutdown (p : P) (w : World P) : World P :=
  (w.left_shutdown p).right_shutdown p

/-- `~baseProxy`. What is in the trashcan is deleted last. -/
def destroy (p : P) (w : World P) : World P :=
  let w := w.shutdown p
  { w.with_proxy p fun x => { x with trashcan := [] } with
    deleted := w.deleted ++ (w.proxies p).trashcan
    gone := Function.update w.gone p true }

def on_accept_socket (i : Nat) (w : World P) : World P :=
  w.modify i fun cx => { cx with accepted := cx.accepted + 1 }

def on_delay_socket (i : Nat) (w : World P) : World P :=
  w.modify i fun cx => { cx with delayed := cx.delayed + 1 }

/-- One context of the loop of `accept_from`. Its place in the vector is null when it is accepted.
`ready` is what `read_waiting_for_peercom` says about it. -/
def accepted (ready : Nat → Bool) (action : Nat → World P → World P) (s : World P × List (Option Nat))
    (i : Nat) : World P × List (Option Nat) :=
  if ready i then (action i (s.1.on_accept_socket i), s.2 ++ [none]) else (s.1, s.2 ++ [some i])

/-- `accept_from`, for the delayed contexts of a side. -/
def accept_from (ready : Nat → Bool) (h : hand) (action : P → Nat → World P → World P) (p : P)
    (w : World P) : World P :=
  let (w, places) := ((w.proxies p).cxs h .delayed_accepts).foldl (accepted ready (action p)) (w, [])
  w.with_proxy p (put h .delayed_accepts (places.filterMap id))

end World

inductive action (P : Type)
  | listen (h : hand) (p : P) (sock : Int)
  | connect (h : hand) (p : P) (sock : Int)
  | accept (h : hand) (p : P) (bound : Nat) (client : Int) (waiting : Bool) (q : P) (delays : Bool)
  | accept_delayed (p : P) (ready : Nat → Bool)
  | cx_shutdown (i : Nat)
  | peer (i : Nat) (j : Option Nat)
  | left_shutdown (p : P)
  | right_shutdown (p : P)
  | shutdown (p : P)
  | destroy (p : P)

namespace World

/-- `listen`: a descriptor that is none gives no context. -/
def listen (h : hand) (p : P) (sock : Int) (w : World P) : World P :=
  if 0 < sock then
    match h with
    | .left => w.new_cx.lbadd p w.allocated
    | .right => w.new_cx.rbadd p w.allocated
  else w

/-- `left_connect` and `right_connect`. When there is no socket, nobody has the new context. -/
def connect (h : hand) (p : P) (sock : Int) (w : World P) : World P :=
  if 0 < sock then
    match h with
    | .left => w.new_cx.lpcadd p w.allocated
    | .right => w.new_cx.rpcadd p w.allocated
  else { w.new_cx with orphans := w.orphans ++ [w.allocated] }

/-- `on_left_new` and `on_right_new`. They may be overridden: the context goes to a proxy `q`, and
there to the delayed ones when the class has it so. -/
def on_new (h : hand) (q : P) (delays : Bool) (i : Nat) (w : World P) : World P :=
  match h, delays with
  | .left, false => w.ladd q i
  | .right, false => w.radd q i
  | .left, true => w.ldaadd q i
  | .right, true => w.rdaadd q i

/-- `handle_sockets_accept`, without raw processing. -/
def handle_sockets_accept (h : hand) (client : Int) (waiting : Bool) (q : P) (delays : Bool)
    (w : World P) : World P :=
  if client < 0 then w
  else
    let i := w.allocated
    let w := if waiting then w.new_cx.on_delay_socket i else w.new_cx.on_accept_socket i
    w.on_new h q delays i

/-- The delayed contexts of both sides, in `handle_sockets_once`. -/
def accept_delayed (p : P) (ready : Nat → Bool) (w : World P) : World P :=
  (w.accept_from ready .left ladd p).accept_from ready .right radd p

end World

/-- Calls of destroyed proxies and of deleted contexts are refused. -/
def step (w : World P) : action P → Option (World P)
  | .listen h p sock => if w.gone p then none else some (w.listen h p sock)
  | .connect h p sock => if w.gone p then none else some (w.connect h p sock)
  | .accept h p bound client waiting q delays =>
    if w.gone p || w.gone q || bound ∉ (w.proxies p).cxs h .bind_sockets then none
    else some (w.handle_sockets_accept h client waiting q delays)
  | .accept_delayed p ready => if w.gone p then none else some (w.accept_delayed p ready)
  | .cx_shutdown i => if i < w.allocated && i ∉ w.deleted then some (w.cx_shutdown i) else none
  | .peer i j => if i < w.allocated && i ∉ w.deleted then
      some (w.modify i fun cx => { cx with peer := j }) else none
  | .left_shutdown p => if w.gone p then none else some (w.left_shutdown p)
  | .right_shutdown p => if w.gone p then none else some (w.right_shutdown p)
  | .shutdown p => if w.gone p then none else some (w.shutdown p)
  | .destroy p => if w.gone p then none else some (w.destroy p)

/-! ## Who has a context -/

inductive place (P : Type)
  | listed (p : P) (h : hand) (k : kind)
  | trash (p : P)
  | deleted
  | orphans
  deriving DecidableEq

/-- The proxy that a place is in. -/
def place.proxy : place P → Option P
  | .listed p _ _ => some p
  | .trash p => some p
  | .deleted => none
  | .orphans => none

def contents (w : World P) : place P → Multiset Nat
  | .listed p h k => (w.proxies p).cxs h k
  | .trash p => (w.proxies p).trashcan
  | .deleted => w.deleted
  | .orphans => w.orphans

/-- Each context is in one place, once. A destroyed proxy has none. -/
structure Owned (w : World P) : Prop where
  once : Once (contents w)
  held : ∀ i, Held (contents w) i ↔ i < w.allocated
  gone : ∀ x p, w.gone p = true → x.proxy = some p → contents w x = 0

/-- The proxy has the context, in one of its vectors or in its trashcan. -/
def Has (w : World P) (p : P) (i : Nat) : Prop :=
  ∃ x : place P, x.proxy = some p ∧ i ∈ contents w x

section
variable {w : World P} {p : P} {h : hand} {k : kind} {i : Nat}

omit [DecidableEq P] in
@[simp] theorem contents_modify (f : baseHostCX P → baseHostCX P) :
    contents (w.modify i f) = contents w := by
  funext x
  cases x <;> rfl

omit [DecidableEq P] in
@[simp] theorem contents_new_cx : contents w.new_cx = contents w := by
  funext x
  cases x <;> rfl

theorem contents_put (l : List Nat) : contents (w.with_proxy p (World.put h k l)) =
    Function.update (contents w) (.listed p h k) (l : Multiset Nat) := by
  funext x
  cases x with
  | listed q h' k' =>
    by_cases hq : q = p
    · subst hq
      by_cases hh : h' = h
      · subst hh
        by_cases hk : k' = k
        · subst hk
          simp [contents, World.with_proxy, World.put]
        · simp [contents, World.with_proxy, World.put, hk, Function.update_of_ne]
      · simp [contents, World.with_proxy, World.put, hh, Function.update_of_ne]
    · simp [contents, World.with_proxy, hq, Function.update_of_ne]
  | trash q =>
    by_cases hq : q = p
    · subst hq
      simp [contents, World.with_proxy, World.put]
    · simp [contents, World.with_proxy, hq]
  | deleted => simp [contents, World.with_proxy]
  | orphans => simp [contents, World.with_proxy]

theorem contents_add (flag : Char) : contents (w.add h k flag p i) =
    Function.update (contents w) (.listed p h k) (i ::ₘ contents w (.listed p h k)) := by
  have hput := contents_put (w := w) (p := p) (h := h) (k := k) ((w.proxies p).cxs h k ++ [i])
  unfold World.add
  rw [contents_modify]
  apply hput.trans
  congr 1
  rw [← Multiset.coe_add, Multiset.coe_singleton, add_comm, Multiset.singleton_add]
  rfl

theorem contents_drop_cx : contents (w.drop_cx p i) =
    Function.update (contents w) (.trash p) (i ::ₘ contents w (.trash p)) := by
  funext x
  cases x with
  | listed q h' k' =>
    by_cases hq : q = p
    · subst hq
      simp [contents, World.drop_cx, World.with_proxy, World.modify]
    · simp [contents, World.drop_cx, World.with_proxy, World.modify, hq]
  | trash q =>
    by_cases hq : q = p
    · subst hq
      simp only [contents, World.drop_cx, World.with_proxy, World.modify, Function.update_self]
      rw [← Multiset.coe_add, Multiset.coe_singleton, add_comm, Multiset.singleton_add]
    · simp [contents, World.drop_cx, World.with_proxy, World.modify, hq]
  | deleted => simp [contents, World.drop_cx, World.with_proxy, World.modify]
  | orphans => simp [contents, World.drop_cx, World.with_proxy, World.modify]

theorem contents_drops (l : List Nat) : contents (l.foldl (fun w i => w.drop_cx p i) w) =
    Function.update (contents w) (.trash p) ((l : Multiset Nat) + contents w (.trash p)) := by
  induction l generalizing w with
  | nil => simp
  | cons i rest ih =>
    rw [List.foldl_cons, ih, contents_drop_cx, Function.update_idem, Function.update_self,
      Multiset.add_cons, ← Multiset.cons_coe, Multiset.cons_add]

/-- All of a vector is handed over to the trashcan. -/
theorem contents_drop_all : contents (w.drop_all p h k) =
    Function.update (Function.update (contents w) (.listed p h k) 0) (.trash p)
      (contents w (.listed p h k) + contents w (.trash p)) := by
  unfold World.drop_all
  rw [contents_put, contents_drops, Function.update_comm (by simp)]
  rfl

end

/-! ## What moves within a proxy -/

/-- Contexts moved between the places of a proxy, if they moved. -/
structure Moves (p : P) (w w' : World P) : Prop where
  allocated : w'.allocated = w.allocated
  gone : w'.gone = w.gone
  outside : ∀ x, x.proxy ≠ some p → contents w' x = contents w x
  once : Once (contents w) → Once (contents w')
  held : ∀ i, Held (contents w') i ↔ Held (contents w) i

section
variable {w w' w'' : World P} {p q : P} {h : hand} {k : kind} {i : Nat}

omit [DecidableEq P] in
theorem Moves.of_contents (hc : contents w' = contents w) (ha : w'.allocated = w.allocated)
    (hg : w'.gone = w.gone) : Moves p w w' where
  allocated := ha
  gone := hg
  outside := fun x _ => congrFun hc x
  once := fun ho => hc ▸ ho
  held := fun i => by rw [hc]

omit [DecidableEq P] in
theorem Moves.modify (f : baseHostCX P → baseHostCX P) : Moves p w (w.modify i f) :=
  Moves.of_contents (contents_modify f) rfl rfl

omit [DecidableEq P] in
theorem Moves.trans (hw : Moves p w w') (hw' : Moves p w' w'') : Moves p w w'' where
  allocated := hw'.allocated.trans hw.allocated
  gone := hw'.gone.trans hw.gone
  outside := fun x hx => (hw'.outside x hx).trans (hw.outside x hx)
  once := fun ho => hw'.once (hw.once ho)
  held := fun i => (hw'.held i).trans (hw.held i)

omit [DecidableEq P] in
theorem Moves.foldl {α : Type} {f : World P → α → World P} (hf : ∀ w a, Moves p w (f w a))
    (l : List α) : Moves p w (l.foldl f w) := by
  induction l generalizing w with
  | nil => exact Moves.of_contents rfl rfl rfl
  | cons a rest ih => exact (hf w a).trans ih

/-- A part of one place is handed over to another place of the same proxy. -/
theorem Moves.pass {x y : place P} {s t : Multiset Nat} (hx : x.proxy = some p)
    (hy : y.proxy = some p) (hxy : x ≠ y) (hs : contents w y = s + t)
    (hc : contents w' =
      Function.update (Function.update (contents w) y t) x (s + contents w x))
    (ha : w'.allocated = w.allocated) (hg : w'.gone = w.gone) : Moves p w w' where
  allocated := ha
  gone := hg
  outside := by
    intro z hz
    have hzx : z ≠ x := fun he => hz (he ▸ hx)
    have hzy : z ≠ y := fun he => hz (he ▸ hy)
    rw [hc, Function.update_of_ne hzx, Function.update_of_ne hzy]
  once := fun ho => hc ▸ ho.pass hxy hs
  held := fun i => by rw [hc, held_pass hxy hs]

omit [DecidableEq P] in
theorem Moves.owned (hm : Moves p w w') (hp : w.gone p = false) (ho : Owned w) : Owned w' where
  once := hm.once ho.once
  held := by
    intro i
    rw [hm.held, hm.allocated]
    exact ho.held i
  gone := by
    intro x q hq hx
    rw [hm.gone] at hq
    have hxp : x.proxy ≠ some p := by
      intro hxp
      rw [hx, Option.some_inj] at hxp
      rw [hxp, hp] at hq
      exact Bool.false_ne_true hq
    rw [hm.outside x hxp]
    exact ho.gone x q hq hx

omit [DecidableEq P] in
/-- Each context stays with its proxy. -/
theorem Moves.has (hm : Moves p w w') (ho : Once (contents w)) (hi : Has w q i) : Has w' q i := by
  obtain ⟨x, hx, hix⟩ := hi
  by_cases hxp : x.proxy = some p
  · obtain ⟨y, hiy⟩ := (hm.held i).mpr ⟨x, hix⟩
    by_cases hyp : y.proxy = some p
    · exact ⟨y, hyp.trans (hxp.symm.trans hx), hiy⟩
    · rw [hm.outside y hyp] at hiy
      have hxy : x = y := ho.one x y i hix hiy
      exact absurd (hxy ▸ hxp) hyp
  · exact ⟨x, hx, by rwa [hm.outside x hxp]⟩

theorem drops_rest (l : List Nat) :
    (l.foldl (fun w i => w.drop_cx p i) w).allocated = w.allocated ∧
      (l.foldl (fun w i => w.drop_cx p i) w).gone = w.gone := by
  induction l generalizing w with
  | nil => exact ⟨rfl, rfl⟩
  | cons i rest ih => exact ih

theorem Moves.drop_all : Moves p w (w.drop_all p h k) := by
  apply Moves.pass (x := .trash p) (y := .listed p h k) rfl rfl (by simp) (add_zero _).symm
  · exact contents_drop_all
  · exact (drops_rest _).1
  · exact (drops_rest _).2

omit [DecidableEq P] in
theorem Moves.cx_shutdowns (l : List Nat) :
    Moves p w (l.foldl (fun w i => w.cx_shutdown i) w) := by
  apply Moves.foldl
  intro w i
  exact Moves.modify _

theorem Moves.side_shutdown : Moves p w (w.side_shutdown h p) := by
  have hfirst := Moves.cx_shutdowns (w := w) (p := p)
    (World.kinds.flatMap ((w.proxies p).cxs h))
  apply hfirst.trans
  apply Moves.foldl
  intro w k
  exact Moves.drop_all

theorem Moves.shutdown : Moves p w (w.shutdown p) := by
  have hl : Moves p w (w.left_shutdown p) := Moves.side_shutdown
  have hr : Moves p (w.left_shutdown p) ((w.left_shutdown p).right_shutdown p) :=
    Moves.side_shutdown
  exact hl.trans hr

/-! ## A proxy that shuts down -/

/-- The contexts lose links, and get none. -/
structure Sheds (w w' : World P) : Prop where
  accepted : ∀ i, (w'.cx i).accepted = (w.cx i).accepted
  peer : ∀ i j, (w'.cx i).peer = some j → (w.cx i).peer = some j
  parent : ∀ i q, (w'.cx i).parent_proxy = some q →
    (w.cx i).parent_proxy = some q ∧ (w'.cx i).parent_flag = (w.cx i).parent_flag

omit [DecidableEq P] in
theorem Sheds.of_cx (hc : w'.cx = w.cx) : Sheds w w' where
  accepted := fun _ => by rw [hc]
  peer := fun _ _ hj => hc ▸ hj
  parent := fun _ _ hq => ⟨hc ▸ hq, by rw [hc]⟩

omit [DecidableEq P] in
theorem Sheds.trans (hw : Sheds w w') (hw' : Sheds w' w'') : Sheds w w'' where
  accepted := fun i => (hw'.accepted i).trans (hw.accepted i)
  peer := fun i j hj => hw.peer i j (hw'.peer i j hj)
  parent := by
    intro i q hq
    obtain ⟨hq', hflag'⟩ := hw'.parent i q hq
    obtain ⟨hq, hflag⟩ := hw.parent i q hq'
    exact ⟨hq, hflag'.trans hflag⟩

omit [DecidableEq P] in
theorem Sheds.foldl {α : Type} {f : World P → α → World P} (hf : ∀ w a, Sheds w (f w a))
    (l : List α) : Sheds w (l.foldl f w) := by
  induction l generalizing w with
  | nil => exact Sheds.of_cx rfl
  | cons a rest ih => exact (hf w a).trans ih

omit [DecidableEq P] in
theorem Sheds.cx_shutdown : Sheds w (w.cx_shutdown i) := by
  constructor
  · intro j
    by_cases hj : j = i <;> simp [World.cx_shutdown, World.modify, hj]
  · intro j
    by_cases hj : j = i <;> simp [World.cx_shutdown, World.modify, hj]
  · intro j
    by_cases hj : j = i <;> simp [World.cx_shutdown, World.modify, hj]

theorem Sheds.drop_cx : Sheds w (w.drop_cx p i) := by
  constructor
  · intro j
    by_cases hj : j = i <;> simp [World.drop_cx, World.with_proxy, World.modify, hj]
  · intro j
    by_cases hj : j = i <;> simp [World.drop_cx, World.with_proxy, World.modify, hj]
  · intro j
    by_cases hj : j = i <;> simp [World.drop_cx, World.with_proxy, World.modify, hj]

theorem Sheds.drop_all : Sheds w (w.drop_all p h k) := by
  have hdrops := Sheds.foldl (f := fun w i => World.drop_cx p i w) (w := w)
    (fun w i => Sheds.drop_cx) ((w.proxies p).cxs h k)
  exact hdrops.trans (Sheds.of_cx rfl)

omit [DecidableEq P] in
theorem Sheds.cx_shutdowns (l : List Nat) :
    Sheds w (l.foldl (fun w i => w.cx_shutdown i) w) := by
  apply Sheds.foldl
  intro w i
  exact Sheds.cx_shutdown

theorem Sheds.drops (l : List kind) : Sheds w (l.foldl (World.drop_all p h) w) := by
  apply Sheds.foldl
  intro w k
  exact Sheds.drop_all

theorem Sheds.side_shutdown : Sheds w (w.side_shutdown h p) := by
  have hfirst := Sheds.cx_shutdowns (w := w) (World.kinds.flatMap ((w.proxies p).cxs h))
  exact hfirst.trans (Sheds.drops World.kinds)

theorem Sheds.shutdown : Sheds w (w.shutdown p) := by
  have hl : Sheds w (w.left_shutdown p) := Sheds.side_shutdown
  have hr : Sheds (w.left_shutdown p) ((w.left_shutdown p).right_shutdown p) :=
    Sheds.side_shutdown
  exact hl.trans hr

omit [DecidableEq P] in
theorem orphaned (l : List Nat) (hi : i ∈ l) :
    ((l.foldl (fun w i => w.cx_shutdown i) w).cx i).parent_proxy = none := by
  induction l generalizing w with
  | nil => exact absurd hi List.not_mem_nil
  | cons j rest ih =>
    rw [List.foldl_cons]
    by_cases hrest : i ∈ rest
    · exact ih hrest
    · have hij : i = j := (List.mem_cons.mp hi).resolve_right hrest
      have hnone : ((w.cx_shutdown j).cx i).parent_proxy = none := by
        simp [World.cx_shutdown, World.modify, hij]
      have hsheds := Sheds.cx_shutdowns (w := w.cx_shutdown j) rest
      cases hp : ((rest.foldl (fun w i => w.cx_shutdown i) (w.cx_shutdown j)).cx i).parent_proxy with
      | none => rfl
      | some q =>
        have hsome := (hsheds.parent i q hp).1
        rw [hnone] at hsome
        exact absurd hsome (by simp)

theorem side_shutdown_parent (hk : i ∈ contents w (.listed p h k)) :
    ((w.side_shutdown h p).cx i).parent_proxy = none := by
  have hall : i ∈ World.kinds.flatMap ((w.proxies p).cxs h) := by
    refine List.mem_flatMap.mpr ⟨k, ?_, hk⟩
    cases k <;> decide
  have hnone := orphaned (w := w) _ hall
  have hsheds := Sheds.drops (p := p) (h := h) (w := (World.kinds.flatMap
    ((w.proxies p).cxs h)).foldl (fun w i => w.cx_shutdown i) w) World.kinds
  cases hp : ((w.side_shutdown h p).cx i).parent_proxy with
  | none => rfl
  | some q =>
    have hsome := (hsheds.parent i q hp).1
    rw [hnone] at hsome
    exact absurd hsome (by simp)

theorem listed_drop_all {h' : hand} {k' : kind} :
    contents (w.drop_all p h k) (.listed q h' k') =
      if q = p ∧ h' = h ∧ k' = k then 0 else contents w (.listed q h' k') := by
  rw [contents_drop_all, Function.update_of_ne (by simp), Function.update_apply]
  simp

theorem listed_side_shutdown {h' : hand} {k' : kind} :
    contents (w.side_shutdown h p) (.listed q h' k') =
      if q = p ∧ h' = h then 0 else contents w (.listed q h' k') := by
  have hfirst : contents ((World.kinds.flatMap ((w.proxies p).cxs h)).foldl
      (fun w i => w.cx_shutdown i) w) = contents w := by
    induction World.kinds.flatMap ((w.proxies p).cxs h) generalizing w with
    | nil => rfl
    | cons i rest ih => exact ih.trans (contents_modify _)
  simp only [World.side_shutdown, World.kinds, List.foldl_cons, List.foldl_nil, listed_drop_all]
  rw [World.kinds] at hfirst
  rw [hfirst]
  by_cases hp : q = p ∧ h' = h
  · cases k' <;> simp [hp]
  · cases k' <;> simp [hp]

theorem listed_shutdown {h' : hand} {k' : kind} :
    contents (w.shutdown p) (.listed q h' k') =
      if q = p then 0 else contents w (.listed q h' k') := by
  have hr : contents ((w.left_shutdown p).right_shutdown p) (.listed q h' k') =
      if q = p ∧ h' = .right then 0 else contents (w.left_shutdown p) (.listed q h' k') :=
    listed_side_shutdown
  have hl : contents (w.side_shutdown .left p) (.listed q h' k') =
      if q = p ∧ h' = .left then 0 else contents w (.listed q h' k') :=
    listed_side_shutdown
  apply hr.trans
  rw [World.left_shutdown, hl]
  by_cases hp : q = p
  · cases h' <;> simp [hp]
  · simp [hp]

/-! ## Delayed contexts that are accepted -/

section
variable {ready : Nat → Bool} {flag : Char}

/-- The context after it was accepted, and added. -/
def baseHostCX.taken (p : P) (flag : Char) (cx : baseHostCX P) : baseHostCX P :=
  { cx with parent_proxy := some p, parent_flag := flag, accepted := cx.accepted + 1 }

theorem taken_cx {j : Nat} : ((World.add h k flag p i (w.on_accept_socket i)).cx j) =
    if j = i then (w.cx j).taken p flag else w.cx j := by
  by_cases hj : j = i
  · subst hj
    simp [World.add, World.on_accept_socket, World.modify, World.with_proxy, baseHostCX.taken]
  · simp [World.add, World.on_accept_socket, World.modify, World.with_proxy, hj]

/-- The loop puts what is ready into the sockets, and keeps the rest. -/
theorem accepted_loop (l : List Nat) (places : List (Option Nat)) :
    (l.foldl (World.accepted ready (World.add h .sockets flag p)) (w, places)).2 =
        places ++ l.map (fun i => if ready i then none else some i) ∧
      contents (l.foldl (World.accepted ready (World.add h .sockets flag p)) (w, places)).1 =
        Function.update (contents w) (.listed p h .sockets)
          ((l.filter ready : Multiset Nat) + contents w (.listed p h .sockets)) := by
  induction l generalizing w places with
  | nil => simp
  | cons i rest ih =>
    rw [List.foldl_cons, World.accepted]
    by_cases hi : ready i = true
    · rw [if_pos hi]
      constructor
      · rw [(ih _).1]
        simp [hi]
      · rw [(ih _).2, contents_add, World.on_accept_socket, contents_modify, Function.update_idem,
          Function.update_self, List.filter_cons_of_pos hi, ← Multiset.cons_coe, Multiset.cons_add,
          Multiset.add_cons]
    · rw [if_neg hi]
      constructor
      · rw [(ih _).1]
        simp [hi]
      · rw [(ih _).2, List.filter_cons_of_neg hi]

theorem accepted_rest (l : List Nat) (places : List (Option Nat)) :
    (l.foldl (World.accepted ready (World.add h .sockets flag p)) (w, places)).1.allocated =
        w.allocated ∧
      (l.foldl (World.accepted ready (World.add h .sockets flag p)) (w, places)).1.gone = w.gone := by
  induction l generalizing w places with
  | nil => exact ⟨rfl, rfl⟩
  | cons i rest ih =>
    rw [List.foldl_cons, World.accepted]
    by_cases hi : ready i = true
    · rw [if_pos hi]
      exact ih _
    · rw [if_neg hi]
      exact ih _

theorem accepted_cx (l : List Nat) (places : List (Option Nat)) (hn : l.Nodup) (j : Nat) :
    ((l.foldl (World.accepted ready (World.add h .sockets flag p)) (w, places)).1.cx j) =
      if j ∈ l ∧ ready j = true then (w.cx j).taken p flag else w.cx j := by
  induction l generalizing w places with
  | nil => simp
  | cons i rest ih =>
    obtain ⟨hout, hrest⟩ := List.nodup_cons.mp hn
    rw [List.foldl_cons, World.accepted]
    by_cases hi : ready i = true
    · rw [if_pos hi, ih _ hrest, taken_cx]
      by_cases hj : j = i
      · subst hj
        simp [hout, hi]
      · simp [hj]
    · rw [if_neg hi, ih _ hrest]
      by_cases hj : j = i
      · subst hj
        simp [hout, hi]
      · simp [hj]

/-- The delayed contexts that are ready are handed over to the sockets. -/
theorem contents_accept_from :
    contents (w.accept_from ready h (World.add h .sockets flag) p) =
      Function.update (Function.update (contents w) (.listed p h .delayed_accepts)
          ((((w.proxies p).cxs h .delayed_accepts).filter fun i => !ready i : List Nat) :
            Multiset Nat)) (.listed p h .sockets)
        (((((w.proxies p).cxs h .delayed_accepts).filter ready : List Nat) : Multiset Nat) +
          contents w (.listed p h .sockets)) := by
  obtain ⟨hplaces, hcontents⟩ := @accepted_loop P _ w p h ready flag
    ((w.proxies p).cxs h .delayed_accepts) []
  have hleft : (((w.proxies p).cxs h .delayed_accepts).map
      fun i => if ready i then none else some i).filterMap id =
      ((w.proxies p).cxs h .delayed_accepts).filter fun i => !ready i := by
    induction (w.proxies p).cxs h .delayed_accepts with
    | nil => rfl
    | cons i rest ih => by_cases hi : ready i = true <;> simp_all
  unfold World.accept_from
  rw [contents_put, hcontents, hplaces, List.nil_append, hleft, Function.update_comm (by simp)]

theorem Moves.accept_from : Moves p w (w.accept_from ready h (World.add h .sockets flag) p) := by
  apply Moves.pass (x := .listed p h .sockets) (y := .listed p h .delayed_accepts) rfl rfl (by simp)
  · rw [Multiset.coe_add]
    exact (Multiset.coe_eq_coe.mpr (List.filter_append_perm ready _)).symm
  · exact contents_accept_from
  · exact (accepted_rest _ _).1
  · exact (accepted_rest _ _).2

theorem accept_from_cx (ho : Once (contents w)) (j : Nat) :
    ((w.accept_from ready h (World.add h .sockets flag) p).cx j) =
      if j ∈ contents w (.listed p h .delayed_accepts) ∧ ready j = true then
        (w.cx j).taken p flag else w.cx j :=
  accepted_cx _ _ (ho.nodup (.listed p h .delayed_accepts)) j

theorem mem_accept_from (q : P) (h' : hand) (k' : kind) (j : Nat) :
    j ∈ contents (w.accept_from ready h (World.add h .sockets flag) p) (.listed q h' k') ↔
      if q = p ∧ h' = h ∧ k' = .sockets then
        (j ∈ contents w (.listed p h .delayed_accepts) ∧ ready j = true) ∨
          j ∈ contents w (.listed p h .sockets)
      else if q = p ∧ h' = h ∧ k' = .delayed_accepts then
        j ∈ contents w (.listed p h .delayed_accepts) ∧ ready j = false
      else j ∈ contents w (.listed q h' k') := by
  rw [contents_accept_from, Function.update_apply, Function.update_apply]
  by_cases hs : q = p ∧ h' = h ∧ k' = .sockets
  · obtain ⟨rfl, rfl, rfl⟩ := hs
    simp [contents]
  · by_cases hd : q = p ∧ h' = h ∧ k' = .delayed_accepts
    · obtain ⟨rfl, rfl, rfl⟩ := hd
      simp [contents]
    · simp [hs, hd]

end

/-! ## New contexts -/

/-- The flag that a vector gives to its contexts. -/
def letter : hand → kind → Char
  | .left, .delayed_accepts => 'l'
  | .left, _ => 'L'
  | .right, .delayed_accepts => 'r'
  | .right, _ => 'R'

/-- There is one more context, accepted `n` times, and nobody has it. -/
structure Fresh (n : Nat) (w w' : World P) : Prop where
  allocated : w'.allocated = w.allocated + 1
  gone : w'.gone = w.gone
  same : contents w' = contents w
  old : ∀ i, i ≠ w.allocated → w'.cx i = w.cx i
  peer : (w'.cx w.allocated).peer = none
  accepted : (w'.cx w.allocated).accepted = n

/-- There is one more context, accepted `n` times, and it is in `x`. -/
structure Arrives (n : Nat) (x : place P) (w w' : World P) : Prop where
  allocated : w'.allocated = w.allocated + 1
  gone : w'.gone = w.gone
  gained : contents w' = Function.update (contents w) x (w.allocated ::ₘ contents w x)
  old : ∀ i, i ≠ w.allocated → w'.cx i = w.cx i
  peer : (w'.cx w.allocated).peer = none
  accepted : (w'.cx w.allocated).accepted = n
  parent : ∀ q, (w'.cx w.allocated).parent_proxy = some q →
    ∃ h k, x = .listed q h k ∧ (w'.cx w.allocated).parent_flag = letter h k

omit [DecidableEq P] in
theorem Fresh.new_cx : Fresh 0 w w.new_cx where
  allocated := rfl
  gone := rfl
  same := contents_new_cx
  old := fun i hi => Function.update_of_ne hi _ _
  peer := by simp [World.new_cx]
  accepted := by simp [World.new_cx]

omit [DecidableEq P] in
theorem Fresh.modify {m n : Nat} (hw : Fresh n w w') {f : baseHostCX P → baseHostCX P}
    (hpeer : ∀ cx, (f cx).peer = cx.peer) (hm : ∀ cx, (f cx).accepted = cx.accepted + m) :
    Fresh (n + m) w (w'.modify w.allocated f) where
  allocated := hw.allocated
  gone := hw.gone
  same := (contents_modify f).trans hw.same
  old := fun i hi => (Function.update_of_ne hi _ _).trans (hw.old i hi)
  peer := by
    have hnone := hw.peer
    simpa [World.modify, hpeer] using hnone
  accepted := by
    have hn := hw.accepted
    simpa [World.modify, hm] using hn

theorem Arrives.add {n : Nat} (hw : Fresh n w w') :
    Arrives n (.listed p h k) w (w'.add h k (letter h k) p w.allocated) where
  allocated := hw.allocated
  gone := hw.gone
  gained := by rw [contents_add, hw.same]
  old := by
    intro i hi
    have hold := hw.old i hi
    simpa [World.add, World.modify, World.with_proxy, hi] using hold
  peer := by
    have hnone := hw.peer
    simpa [World.add, World.modify, World.with_proxy] using hnone
  accepted := by
    have hn := hw.accepted
    simpa [World.add, World.modify, World.with_proxy] using hn
  parent := by
    intro q hq
    have hpq : p = q := by simpa [World.add, World.modify, World.with_proxy] using hq
    refine ⟨h, k, by rw [hpq], ?_⟩
    simp [World.add, World.modify, World.with_proxy]

theorem Arrives.orphan :
    Arrives 0 .orphans w { w.new_cx with orphans := w.orphans ++ [w.allocated] } where
  allocated := rfl
  gone := rfl
  gained := by
    funext x
    cases x with
    | listed q h' k' => simp [contents, World.new_cx]
    | trash q => simp [contents, World.new_cx]
    | deleted => simp [contents, World.new_cx]
    | orphans =>
      simp only [contents, Function.update_self]
      rw [← Multiset.coe_add, Multiset.coe_singleton, add_comm, Multiset.singleton_add]
  old := fun i hi => Function.update_of_ne hi _ _
  peer := by simp [World.new_cx]
  accepted := by simp [World.new_cx]
  parent := by simp [World.new_cx]

theorem Arrives.owned {n : Nat} {x : place P} (hw : Arrives n x w w')
    (hx : ∀ q, x.proxy = some q → w.gone q = false) (ho : Owned w) : Owned w' where
  once := by
    rw [hw.gained]
    apply ho.once.gain _ rfl
    rw [ho.held]
    exact Nat.lt_irrefl _
  held := by
    intro i
    rw [hw.gained, held_gain rfl, ho.held, hw.allocated]
    omega
  gone := by
    intro y q hq hy
    rw [hw.gone] at hq
    have hyx : y ≠ x := by
      rintro rfl
      rw [hx q hy] at hq
      exact Bool.false_ne_true hq
    rw [hw.gained, Function.update_of_ne hyx]
    exact ho.gone y q hq hy

theorem Arrives.mem {n : Nat} {x y : place P} (hw : Arrives n x w w') (hi : i ∈ contents w y) :
    i ∈ contents w' y := by
  rw [hw.gained]
  by_cases hy : y = x
  · subst hy
    rw [Function.update_self]
    exact Multiset.mem_cons_of_mem hi
  · rwa [Function.update_of_ne hy]

/-- The place of the context that `handle_sockets_accept` makes. -/
def place.of_new (h : hand) (q : P) (delays : Bool) : place P :=
  .listed q h (if delays then .delayed_accepts else .sockets)

theorem Arrives.on_new {n : Nat} {delays : Bool} (hw : Fresh n w w') :
    Arrives n (.of_new h q delays) w (w'.on_new h q delays w.allocated) := by
  cases h <;> cases delays <;> exact Arrives.add hw

/-- A call that may make a context makes one, in a place of a proxy that is there, or none. -/
theorem listen_cases (sock : Int) : w.listen h p sock = w ∨
    Arrives 0 (.listed p h .bind_sockets) w (w.listen h p sock) := by
  unfold World.listen
  split
  · right
    cases h <;> exact Arrives.add Fresh.new_cx
  · exact Or.inl rfl

theorem connect_cases (sock : Int) : Arrives 0 .orphans w (w.connect h p sock) ∨
    Arrives 0 (.listed p h .pc_cx) w (w.connect h p sock) := by
  have hfresh : Fresh 0 w (w.new_cx.permanent w.allocated) :=
    Fresh.new_cx.modify (m := 0) (fun _ => rfl) fun _ => rfl
  unfold World.connect
  split
  · right
    cases h <;> exact Arrives.add hfresh
  · exact Or.inl Arrives.orphan

theorem accept_cases (client : Int) (waiting delays : Bool) :
    (client < 0 ∧ w.handle_sockets_accept h client waiting q delays = w) ∨
      (¬ client < 0 ∧ Arrives (if waiting then 0 else 1) (.of_new h q delays) w
        (w.handle_sockets_accept h client waiting q delays)) := by
  unfold World.handle_sockets_accept
  by_cases hc : client < 0
  · exact Or.inl ⟨hc, if_pos hc⟩
  · refine Or.inr ⟨hc, ?_⟩
    have hdelayed : Fresh 0 w (w.new_cx.on_delay_socket w.allocated) :=
      Fresh.new_cx.modify (m := 0) (fun _ => rfl) fun _ => rfl
    have haccepted : Fresh 1 w (w.new_cx.on_accept_socket w.allocated) :=
      Fresh.new_cx.modify (m := 1) (fun _ => rfl) fun _ => rfl
    rw [if_neg hc]
    cases waiting with
    | false => exact Arrives.on_new haccepted
    | true => exact Arrives.on_new hdelayed

/-! ## Runs -/

/-- Each context knows the proxy and the vector it is in, as long as it knows any. -/
def Linked (w : World P) : Prop :=
  ∀ i p, (w.cx i).parent_proxy = some p →
    ∃ h k, i ∈ contents w (.listed p h k) ∧ (w.cx i).parent_flag = letter h k

omit [DecidableEq P] in
theorem Owned.of_contents (ho : Owned w) (hc : contents w' = contents w)
    (ha : w'.allocated = w.allocated) (hg : w'.gone = w.gone) : Owned w' := by
  constructor
  · rw [hc]
    exact ho.once
  · rw [hc, ha]
    exact ho.held
  · rw [hc, hg]
    exact ho.gone

omit [DecidableEq P] in
theorem Linked.sheds (hl : Linked w) (hs : Sheds w w') (hc : contents w' = contents w) :
    Linked w' := by
  intro i q hq
  obtain ⟨hq, hflag⟩ := hs.parent i q hq
  obtain ⟨h, k, hi, hk⟩ := hl i q hq
  exact ⟨h, k, by rwa [hc], hflag.trans hk⟩

theorem Linked.arrives {n : Nat} {x : place P} (hl : Linked w) (hw : Arrives n x w w') : Linked w' := by
  intro i q hq
  by_cases hi : i = w.allocated
  · subst hi
    obtain ⟨h, k, rfl, hflag⟩ := hw.parent q hq
    refine ⟨h, k, ?_, hflag⟩
    rw [hw.gained, Function.update_self]
    exact Multiset.mem_cons_self _ _
  · rw [hw.old i hi] at hq
    obtain ⟨h, k, hmem, hflag⟩ := hl i q hq
    exact ⟨h, k, hw.mem hmem, by rw [hw.old i hi, hflag]⟩

theorem Linked.side_shutdown (hl : Linked w) : Linked (w.side_shutdown h p) := by
  intro i q hq
  have hs : Sheds w (w.side_shutdown h p) := Sheds.side_shutdown
  obtain ⟨hq', hflag⟩ := hs.parent i q hq
  obtain ⟨h', k', hi, hk⟩ := hl i q hq'
  refine ⟨h', k', ?_, hflag.trans hk⟩
  rw [listed_side_shutdown]
  split
  · next he =>
    obtain ⟨rfl, rfl⟩ := he
    rw [side_shutdown_parent hi] at hq
    cases hq
  · exact hi

theorem Linked.accept_from {ready : Nat → Bool} (ho : Owned w) (hl : Linked w) :
    Linked (w.accept_from ready h (World.add h .sockets (letter h .sockets)) p) := by
  intro i q hq
  rw [accept_from_cx ho.once] at hq ⊢
  by_cases ht : i ∈ contents w (.listed p h .delayed_accepts) ∧ ready i = true
  · rw [if_pos ht] at hq ⊢
    have hpq : p = q := by simpa [baseHostCX.taken] using hq
    subst hpq
    refine ⟨h, .sockets, ?_, rfl⟩
    rw [mem_accept_from, if_pos ⟨rfl, rfl, rfl⟩]
    exact Or.inl ht
  · rw [if_neg ht] at hq ⊢
    obtain ⟨h', k', hi, hk⟩ := hl i q hq
    refine ⟨h', k', ?_, hk⟩
    rw [mem_accept_from]
    split
    · next he =>
      obtain ⟨rfl, rfl, rfl⟩ := he
      exact Or.inr hi
    · split
      · next he =>
        obtain ⟨rfl, rfl, rfl⟩ := he
        exact ⟨hi, by simpa [hi] using ht⟩
      · exact hi

/-- Each context has one owner, and knows it. -/
structure Sound (w : World P) : Prop where
  owned : Owned w
  linked : Linked w

omit [DecidableEq P] in
theorem Sound.sheds (hw : Sound w) (hs : Sheds w w') (hc : contents w' = contents w)
    (ha : w'.allocated = w.allocated) (hg : w'.gone = w.gone) : Sound w' :=
  ⟨hw.owned.of_contents hc ha hg, hw.linked.sheds hs hc⟩

theorem Sound.arrives {n : Nat} {x : place P} (hw : Sound w) (ha : Arrives n x w w')
    (hx : ∀ q, x.proxy = some q → w.gone q = false) : Sound w' :=
  ⟨ha.owned hx hw.owned, hw.linked.arrives ha⟩

theorem Sound.side_shutdown (hw : Sound w) (hp : w.gone p = false) :
    Sound (w.side_shutdown h p) :=
  ⟨Moves.side_shutdown.owned hp hw.owned, hw.linked.side_shutdown⟩

theorem Sound.shutdown (hw : Sound w) (hp : w.gone p = false) : Sound (w.shutdown p) := by
  have hl : Sound (w.left_shutdown p) := hw.side_shutdown hp
  have hm : Moves p w (w.left_shutdown p) := Moves.side_shutdown
  apply hl.side_shutdown
  rw [hm.gone, hp]

theorem Sound.accept_from {ready : Nat → Bool} (hw : Sound w) (hp : w.gone p = false) :
    Sound (w.accept_from ready h (World.add h .sockets (letter h .sockets)) p) :=
  ⟨Moves.accept_from.owned hp hw.owned, Linked.accept_from hw.owned hw.linked⟩

theorem Moves.accept_delayed {ready : Nat → Bool} : Moves p w (w.accept_delayed p ready) := by
  have hl : Moves p w (w.accept_from ready .left World.ladd p) := Moves.accept_from
  have hr : Moves p (w.accept_from ready .left World.ladd p)
      ((w.accept_from ready .left World.ladd p).accept_from ready .right World.radd p) :=
    Moves.accept_from
  exact hl.trans hr

theorem Sound.accept_delayed {ready : Nat → Bool} (hw : Sound w) (hp : w.gone p = false) :
    Sound (w.accept_delayed p ready) := by
  have hl : Sound (w.accept_from ready .left World.ladd p) := hw.accept_from hp
  have hm : Moves p w (w.accept_from ready .left World.ladd p) := Moves.accept_from
  apply hl.accept_from
  rw [hm.gone, hp]

/-- What was in the trashcan is deleted. -/
theorem contents_destroy : contents (w.destroy p) =
    Function.update (Function.update (contents (w.shutdown p)) (.trash p) 0) .deleted
      (contents (w.shutdown p) (.trash p) + contents (w.shutdown p) .deleted) := by
  funext x
  cases x with
  | listed q h' k' =>
    by_cases hq : q = p
    · subst hq
      simp [contents, World.destroy, World.with_proxy]
    · simp [contents, World.destroy, World.with_proxy, hq]
  | trash q =>
    by_cases hq : q = p
    · subst hq
      simp [contents, World.destroy, World.with_proxy]
    · simp [contents, World.destroy, World.with_proxy, hq]
  | deleted =>
    rw [Function.update_self, add_comm]
    simp [contents, World.destroy, World.with_proxy]
  | orphans => simp [contents, World.destroy, World.with_proxy]

theorem listed_destroy : contents (w.destroy p) (.listed q h k) =
    if q = p then 0 else contents w (.listed q h k) := by
  rw [contents_destroy, Function.update_of_ne (by simp), Function.update_of_ne (by simp),
    listed_shutdown]

theorem Sound.destroy (hw : Sound w) (hp : w.gone p = false) : Sound (w.destroy p) := by
  have hs := hw.shutdown hp
  have hm : Moves p w (w.shutdown p) := Moves.shutdown
  have hpass : contents (w.shutdown p) (.trash p) = contents (w.shutdown p) (.trash p) + 0 :=
    (add_zero _).symm
  refine ⟨⟨?_, ?_, ?_⟩, ?_⟩
  · rw [contents_destroy]
    exact hs.owned.once.pass (by simp) hpass
  · intro i
    rw [contents_destroy, held_pass (by simp) hpass]
    exact hs.owned.held i
  · intro x q hq hx
    by_cases hqp : q = p
    · subst hqp
      cases x with
      | listed q' h' k' =>
        have hq' : q' = q := by simpa [place.proxy] using hx
        rw [listed_destroy, if_pos hq']
      | trash q' =>
        have hq' : q' = q := by simpa [place.proxy] using hx
        rw [contents_destroy, Function.update_of_ne (by simp), hq', Function.update_self]
      | deleted => cases hx
      | orphans => cases hx
    · have hgone : (w.shutdown p).gone q = true := by
        simpa [World.destroy, Function.update_of_ne hqp, World.with_proxy] using hq
      have hzero := hs.owned.gone x q hgone hx
      have htrash : x ≠ .trash p := by
        rintro rfl
        exact hqp (Option.some_inj.mp hx).symm
      have hdeleted : x ≠ .deleted := by
        rintro rfl
        cases hx
      rw [contents_destroy, Function.update_of_ne hdeleted, Function.update_of_ne htrash, hzero]
  · intro i q hq
    obtain ⟨h', k', hi, hk⟩ := hs.linked i q hq
    refine ⟨h', k', ?_, hk⟩
    rwa [contents_destroy, Function.update_of_ne (by simp), Function.update_of_ne (by simp)]

/-- What a step does. Contexts of one proxy move, a context arrives, links are cut, a peer is set, or
a proxy is destroyed. -/
theorem Sound.step {a : action P} (hw : Sound w) (hstep : step w a = some w') : Sound w' := by
  cases a with
  | listen h p sock =>
    obtain ⟨hp, rfl⟩ := by simpa [contexts.step] using hstep
    rcases listen_cases (w := w) (h := h) (p := p) sock with heq | ha
    · rwa [heq]
    · apply hw.arrives ha
      rintro q ⟨⟩
      exact hp
  | connect h p sock =>
    obtain ⟨hp, rfl⟩ := by simpa [contexts.step] using hstep
    rcases connect_cases (w := w) (h := h) (p := p) sock with ha | ha
    · apply hw.arrives ha
      rintro q ⟨⟩
    · apply hw.arrives ha
      rintro q ⟨⟩
      exact hp
  | accept h p bound client waiting q delays =>
    obtain ⟨⟨⟨hp, hq⟩, -⟩, rfl⟩ := by simpa [contexts.step] using hstep
    rcases accept_cases (w := w) (h := h) (q := q) client waiting delays with ⟨-, heq⟩ | ⟨-, ha⟩
    · rwa [heq]
    · apply hw.arrives ha
      rintro q ⟨⟩
      exact hq
  | accept_delayed p ready =>
    obtain ⟨hp, rfl⟩ := by simpa [contexts.step] using hstep
    exact hw.accept_delayed hp
  | cx_shutdown i =>
    obtain ⟨-, rfl⟩ := by simpa [contexts.step] using hstep
    exact hw.sheds Sheds.cx_shutdown (contents_modify _) rfl rfl
  | peer i j =>
    obtain ⟨-, rfl⟩ := by simpa [contexts.step] using hstep
    refine ⟨hw.owned.of_contents (contents_modify _) rfl rfl, ?_⟩
    intro i' q hq
    have hcx : ((w.modify i fun cx => { cx with peer := j }).cx i').parent_proxy =
        (w.cx i').parent_proxy ∧ ((w.modify i fun cx => { cx with peer := j }).cx i').parent_flag =
        (w.cx i').parent_flag := by
      by_cases hi : i' = i
      · subst hi
        simp [World.modify]
      · simp [World.modify, hi]
    rw [hcx.1] at hq
    rw [hcx.2, contents_modify]
    exact hw.linked i' q hq
  | left_shutdown p =>
    obtain ⟨hp, rfl⟩ := by simpa [contexts.step] using hstep
    exact hw.side_shutdown hp
  | right_shutdown p =>
    obtain ⟨hp, rfl⟩ := by simpa [contexts.step] using hstep
    exact hw.side_shutdown hp
  | shutdown p =>
    obtain ⟨hp, rfl⟩ := by simpa [contexts.step] using hstep
    exact hw.shutdown hp
  | destroy p =>
    obtain ⟨hp, rfl⟩ := by simpa [contexts.step] using hstep
    exact hw.destroy hp

end

section
variable {w w' : World P} {p : P} {h : hand} {k : kind} {i : Nat}

omit [DecidableEq P] in
theorem sound_empty : Sound ({} : World P) where
  owned :=
    { once := by
        apply Once.empty
        intro x
        cases x <;> rfl
      held := by
        intro i
        constructor
        · intro hi
          refine absurd hi (not_held_empty ?_ i)
          intro x
          cases x <;> rfl
        · exact fun hi => absurd hi (Nat.not_lt_zero i)
      gone := by
        intro x p hp
        cases hp }
  linked := by
    intro i p hp
    cases hp

/-- Whatever is called, in any order: each context ever made is in one vector, in one trashcan,
deleted, or nobody's, and there once. A destroyed proxy has none, and a context that points to a
proxy is in the vector of it that its flag says. -/
theorem contexts_have_one_owner (as : List (action P)) :
    Always step Sound ({} : World P) as :=
  always_of_step (fun _ _ _ hw hstep => hw.step hstep) sound_empty as

/-- When all proxies are gone, each context was deleted, once, unless its connect had failed. -/
theorem deleted_once (as : List (action P)) (hrun : exec step ({} : World P) as = some w)
    (hgone : ∀ p, w.gone p = true) (i : Nat) :
    w.deleted.count i = if i < w.allocated ∧ i ∉ w.orphans then 1 else 0 := by
  have ho := (always_exec (contexts_have_one_owner as) hrun).owned
  have hnodup : w.deleted.Nodup := ho.once.nodup .deleted
  rw [hnodup.count]
  congr 1
  rw [← ho.held]
  apply propext
  constructor
  · intro hi
    refine ⟨⟨.deleted, hi⟩, fun horphan => ?_⟩
    exact absurd (ho.once.one .deleted .orphans i hi horphan) (by simp)
  · rintro ⟨⟨x, hx⟩, horphan⟩
    cases x with
    | listed p h k =>
      rw [ho.gone _ p (hgone p) rfl] at hx
      exact absurd hx (Multiset.notMem_zero i)
    | trash p =>
      rw [ho.gone _ p (hgone p) rfl] at hx
      exact absurd hx (Multiset.notMem_zero i)
    | deleted => exact hx
    | orphans => exact absurd hx horphan

end

/-- A proxy with a bound context and a context whose connect failed is destroyed. -/
def destroyed : World Unit :=
  (exec step {} [.listen .left () 5, .connect .right () (-1), .destroy ()]).getD {}

theorem deleted_once_witness :
    destroyed.deleted.count 0 = 1 ∧ destroyed.deleted.count 1 = 0 := by
  have hrun : exec step ({} : World Unit)
      [.listen .left () 5, .connect .right () (-1), .destroy ()] = some destroyed := rfl
  have hgone : ∀ p, destroyed.gone p = true := fun _ => rfl
  exact ⟨deleted_once _ hrun hgone 0, deleted_once _ hrun hgone 1⟩

/-! ## Peers -/

/-- Peers belong to one proxy, as long as the one that points is not deleted. -/
def Peered (w : World P) : Prop :=
  ∀ i j, i ∉ w.deleted → (w.cx i).peer = some j → ∃ p, Has w p i ∧ Has w p j

/-- A context gets a peer of its own proxy. -/
def peers_its_own (w : World P) : action P → Prop
  | .peer i (some j) => ∃ p, Has w p i ∧ Has w p j
  | _ => True

section
variable {w w' : World P} {p : P} {i : Nat}

omit [DecidableEq P] in
theorem Peered.keeps (hw : Peered w) (hpeer : ∀ i j, (w'.cx i).peer = some j → (w.cx i).peer = some j)
    (hdeleted : ∀ i, i ∈ w.deleted → i ∈ w'.deleted)
    (hhas : ∀ q i j, i ∉ w'.deleted → Has w q i → Has w q j → Has w' q i ∧ Has w' q j) :
    Peered w' := by
  intro i j hi hj
  obtain ⟨q, hqi, hqj⟩ := hw i j (fun hin => hi (hdeleted i hin)) (hpeer i j hj)
  exact ⟨q, hhas q i j hi hqi hqj⟩

omit [DecidableEq P] in
theorem Peered.moves (hw : Peered w) (ho : Owned w) (hm : Moves p w w')
    (hpeer : ∀ i j, (w'.cx i).peer = some j → (w.cx i).peer = some j) : Peered w' := by
  apply hw.keeps hpeer
  · intro i hi
    have hsame := hm.outside .deleted (by simp [place.proxy])
    have hin : i ∈ contents w .deleted := hi
    rwa [← hsame] at hin
  · intro q i j _ hqi hqj
    exact ⟨hm.has ho.once hqi, hm.has ho.once hqj⟩

theorem Peered.arrives {n : Nat} {x : place P} (hw : Peered w) (ha : Arrives n x w w') :
    Peered w' := by
  have hhas : ∀ q i, Has w q i → Has w' q i := by
    rintro q i ⟨y, hy, hi⟩
    exact ⟨y, hy, ha.mem hi⟩
  apply hw.keeps
  · intro i j hj
    by_cases hi : i = w.allocated
    · subst hi
      rw [ha.peer] at hj
      cases hj
    · rwa [ha.old i hi] at hj
  · intro i hi
    exact ha.mem (y := .deleted) hi
  · exact fun q i j _ hqi hqj => ⟨hhas q i hqi, hhas q j hqj⟩

theorem accept_from_peer {ready : Nat → Bool} {h : hand} {flag : Char} (ho : Once (contents w))
    (i : Nat) : ((w.accept_from ready h (World.add h .sockets flag) p).cx i).peer =
      (w.cx i).peer := by
  rw [accept_from_cx ho]
  split <;> rfl

theorem Peered.accept_from {ready : Nat → Bool} {h : hand} {flag : Char} (hw : Peered w)
    (ho : Owned w) : Peered (w.accept_from ready h (World.add h .sockets flag) p) := by
  apply hw.moves ho Moves.accept_from
  intro i j hj
  rwa [accept_from_peer ho.once] at hj

/-- All that a proxy had is deleted with it. -/
theorem destroy_deletes (ho : Owned w) (hi : Has w p i) : i ∈ (w.destroy p).deleted := by
  have hm : Moves p w (w.shutdown p) := Moves.shutdown
  have hgoal : i ∈ contents (w.destroy p) .deleted := by
    rw [contents_destroy, Function.update_self, Multiset.mem_add]
    left
    obtain ⟨x, hx, hix⟩ := hm.has ho.once hi
    cases x with
    | listed q h k =>
      have hq : q = p := by simpa [place.proxy] using hx
      rw [listed_shutdown, if_pos hq] at hix
      exact absurd hix (Multiset.notMem_zero i)
    | trash q =>
      have hq : q = p := by simpa [place.proxy] using hx
      rwa [hq] at hix
    | deleted => cases hx
    | orphans => cases hx
  exact hgoal

theorem Peered.destroy (hw : Peered w) (ho : Owned w) : Peered (w.destroy p) := by
  have hs : Sheds w (w.shutdown p) := Sheds.shutdown
  have hm : Moves p w (w.shutdown p) := Moves.shutdown
  apply hw.keeps
  · exact hs.peer
  · intro i hi
    have hsame := hm.outside .deleted (by simp [place.proxy])
    have hgoal : i ∈ contents (w.destroy p) .deleted := by
      rw [contents_destroy, Function.update_self, Multiset.mem_add, hsame]
      exact Or.inr hi
    exact hgoal
  · intro q i j hi hqi hqj
    have hqp : q ≠ p := by
      rintro rfl
      exact hi (destroy_deletes ho hqi)
    have hhas : ∀ l, Has w q l → Has (w.destroy p) q l := by
      rintro l ⟨x, hx, hl⟩
      have hxp : x.proxy ≠ some p := by
        rw [hx]
        simpa using hqp
      have htrash : x ≠ .trash p := by
        rintro rfl
        exact hxp rfl
      have hdeleted : x ≠ .deleted := by
        rintro rfl
        cases hx
      refine ⟨x, hx, ?_⟩
      rwa [contents_destroy, Function.update_of_ne hdeleted, Function.update_of_ne htrash,
        hm.outside x hxp]
    exact ⟨hhas i hqi, hhas j hqj⟩

theorem Peered.step {a : action P} (hw : Peered w) (ho : Owned w) (ha : peers_its_own w a)
    (hstep : contexts.step w a = some w') : Peered w' := by
  cases a with
  | listen h p sock =>
    obtain ⟨-, rfl⟩ := by simpa [contexts.step] using hstep
    rcases listen_cases (w := w) (h := h) (p := p) sock with heq | harr
    · rwa [heq]
    · exact hw.arrives harr
  | connect h p sock =>
    obtain ⟨-, rfl⟩ := by simpa [contexts.step] using hstep
    rcases connect_cases (w := w) (h := h) (p := p) sock with harr | harr
    · exact hw.arrives harr
    · exact hw.arrives harr
  | accept h p bound client waiting q delays =>
    obtain ⟨-, rfl⟩ := by simpa [contexts.step] using hstep
    rcases accept_cases (w := w) (h := h) (q := q) client waiting delays with
      ⟨-, heq⟩ | ⟨-, harr⟩
    · rwa [heq]
    · exact hw.arrives harr
  | accept_delayed p ready =>
    obtain ⟨hp, rfl⟩ := by simpa [contexts.step] using hstep
    have hl : Peered (w.accept_from ready .left World.ladd p) := hw.accept_from ho
    have hm : Moves p w (w.accept_from ready .left World.ladd p) := Moves.accept_from
    exact hl.accept_from (hm.owned hp ho)
  | cx_shutdown i =>
    obtain ⟨-, rfl⟩ := by simpa [contexts.step] using hstep
    have hs : Sheds w (w.cx_shutdown i) := Sheds.cx_shutdown
    apply hw.keeps hs.peer (fun _ hi => hi)
    exact fun q i j _ hqi hqj => ⟨hqi, hqj⟩
  | peer i j =>
    obtain ⟨-, rfl⟩ := by simpa [contexts.step] using hstep
    intro i' j' hi' hj'
    have hhas : ∀ q l, Has w q l → Has (w.modify i fun cx => { cx with peer := j }) q l :=
      fun q l hl => hl
    by_cases hi : i' = i
    · subst hi
      have hj : j = some j' := by simpa [World.modify] using hj'
      subst hj
      obtain ⟨q, hqi, hqj⟩ := ha
      exact ⟨q, hhas q i' hqi, hhas q j' hqj⟩
    · have hold : (w.cx i').peer = some j' := by simpa [World.modify, hi] using hj'
      obtain ⟨q, hqi, hqj⟩ := hw i' j' hi' hold
      exact ⟨q, hhas q i' hqi, hhas q j' hqj⟩
  | left_shutdown p =>
    obtain ⟨-, rfl⟩ := by simpa [contexts.step] using hstep
    have hs : Sheds w (w.left_shutdown p) := Sheds.side_shutdown
    exact hw.moves ho Moves.side_shutdown hs.peer
  | right_shutdown p =>
    obtain ⟨-, rfl⟩ := by simpa [contexts.step] using hstep
    have hs : Sheds w (w.right_shutdown p) := Sheds.side_shutdown
    exact hw.moves ho Moves.side_shutdown hs.peer
  | shutdown p =>
    obtain ⟨-, rfl⟩ := by simpa [contexts.step] using hstep
    have hs : Sheds w (w.shutdown p) := Sheds.shutdown
    exact hw.moves ho Moves.shutdown hs.peer
  | destroy p =>
    obtain ⟨-, rfl⟩ := by simpa [contexts.step] using hstep
    exact hw.destroy ho

/-- No context that is left points to a deleted one, when peers are of one proxy. -/
theorem peers_are_alive (as : List (action P))
    (hmeets : Meets step peers_its_own ({} : World P) as) :
    Always step (fun w => ∀ i j, i ∉ w.deleted → (w.cx i).peer = some j → j ∉ w.deleted)
      ({} : World P) as := by
  have hempty : Sound ({} : World P) ∧ Peered ({} : World P) :=
    ⟨sound_empty, fun i j _ hj => by cases hj⟩
  have hkept : ∀ (w : World P) a w', Sound w ∧ Peered w → peers_its_own w a →
      step w a = some w' → Sound w' ∧ Peered w' := by
    intro w a w' hw ha hstep
    exact ⟨hw.1.step hstep, hw.2.step hw.1.owned ha hstep⟩
  apply (always_of_meets (P := fun w => Sound w ∧ Peered w) hkept hempty hmeets).mono
  rintro w ⟨hs, hw⟩ i j hi hj hdeleted
  obtain ⟨q, -, x, hx, hjx⟩ := hw i j hi hj
  have hsame := hs.owned.once.one x .deleted j hjx hdeleted
  rw [hsame] at hx
  cases hx

end

/-- Both sides of a proxy know each other, and the proxy is destroyed. -/
theorem peers_are_alive_witness : Always step
    (fun w => ∀ i j, i ∉ w.deleted → (w.cx i).peer = some j → j ∉ w.deleted) ({} : World Unit)
    [.listen .left () 5, .connect .right () 6, .peer 0 (some 1), .peer 1 (some 0), .destroy ()] := by
  apply peers_are_alive
  intro w1 h1
  obtain rfl := Option.some.inj h1
  refine ⟨trivial, fun w2 h2 => ?_⟩
  obtain rfl := Option.some.inj h2
  refine ⟨trivial, fun w3 h3 => ?_⟩
  obtain rfl := Option.some.inj h3
  refine ⟨⟨(), ⟨.listed () .left .bind_sockets, rfl, ?_⟩, .listed () .right .pc_cx, rfl, ?_⟩,
    fun w4 h4 => ?_⟩
  · exact List.mem_cons_self
  · exact List.mem_cons_self
  obtain rfl := Option.some.inj h4
  refine ⟨⟨(), ⟨.listed () .right .pc_cx, rfl, ?_⟩, .listed () .left .bind_sockets, rfl, ?_⟩,
    fun w5 h5 => ?_⟩
  · exact List.mem_cons_self
  · exact List.mem_cons_self
  exact ⟨trivial, trivial⟩

/-! ## How often a context is accepted -/

/-- What is in the sockets was accepted once, what is delayed was not yet. -/
structure AcceptedOnce (w : World P) : Prop where
  sockets : ∀ p h i, i ∈ contents w (.listed p h .sockets) → (w.cx i).accepted = 1
  delayed : ∀ p h i, i ∈ contents w (.listed p h .delayed_accepts) → (w.cx i).accepted = 0
  most : ∀ i, (w.cx i).accepted ≤ 1

/-- `on_left_new` and `on_right_new` delay exactly the contexts that wait for their peer. -/
def delays_waiting (_ : World P) : action P → Prop
  | .accept _ _ _ client waiting _ delays => client < 0 ∨ delays = waiting
  | _ => True

section
variable {w w' : World P} {p : P} {h : hand} {i : Nat}

theorem AcceptedOnce.arrives {n : Nat} {x : place P} (hw : AcceptedOnce w) (ho : Owned w)
    (ha : Arrives n x w w') (hn : n ≤ 1) (hsockets : ∀ p h, x = .listed p h .sockets → n = 1)
    (hdelayed : ∀ p h, x = .listed p h .delayed_accepts → n = 0) : AcceptedOnce w' := by
  -- a context that was there is not the new one, and was where it is
  have hold : ∀ y i, i ∈ contents w' y → (i = w.allocated ∧ y = x) ∨
      (w'.cx i = w.cx i ∧ i ∈ contents w y) := by
    intro y i hi
    rw [ha.gained, mem_update, Multiset.mem_cons] at hi
    have hne : i ∈ contents w y → i ≠ w.allocated := by
      rintro hin rfl
      exact Nat.lt_irrefl _ ((ho.held _).mp ⟨y, hin⟩)
    rcases hi with ⟨rfl, rfl | hin⟩ | ⟨-, hin⟩
    · exact Or.inl ⟨rfl, rfl⟩
    · exact Or.inr ⟨ha.old i (hne hin), hin⟩
    · exact Or.inr ⟨ha.old i (hne hin), hin⟩
  constructor
  · intro p h i hi
    rcases hold _ i hi with ⟨rfl, hx⟩ | ⟨hcx, hin⟩
    · rw [ha.accepted, hsockets p h hx.symm]
    · rw [hcx, hw.sockets p h i hin]
  · intro p h i hi
    rcases hold _ i hi with ⟨rfl, hx⟩ | ⟨hcx, hin⟩
    · rw [ha.accepted, hdelayed p h hx.symm]
    · rw [hcx, hw.delayed p h i hin]
  · intro i
    by_cases hi : i = w.allocated
    · rw [hi, ha.accepted]
      exact hn
    · rw [ha.old i hi]
      exact hw.most i

omit [DecidableEq P] in
theorem AcceptedOnce.sheds (hw : AcceptedOnce w) (hs : Sheds w w')
    (hsub : ∀ p h k i, i ∈ contents w' (.listed p h k) → i ∈ contents w (.listed p h k)) :
    AcceptedOnce w' := by
  constructor
  · intro p h i hi
    rw [hs.accepted, hw.sockets p h i (hsub p h _ i hi)]
  · intro p h i hi
    rw [hs.accepted, hw.delayed p h i (hsub p h _ i hi)]
  · intro i
    rw [hs.accepted]
    exact hw.most i

theorem AcceptedOnce.side_shutdown (hw : AcceptedOnce w) :
    AcceptedOnce (w.side_shutdown h p) := by
  apply hw.sheds Sheds.side_shutdown
  intro q h' k i hi
  rw [listed_side_shutdown] at hi
  split at hi
  · exact absurd hi (Multiset.notMem_zero i)
  · exact hi

theorem AcceptedOnce.accept_from {ready : Nat → Bool} {flag : Char} (hw : AcceptedOnce w)
    (ho : Owned w) : AcceptedOnce (w.accept_from ready h (World.add h .sockets flag) p) := by
  have htaken : ∀ i, i ∈ contents w (.listed p h .delayed_accepts) →
      ((w.cx i).taken p flag).accepted = 1 := by
    intro i hi
    simp [baseHostCX.taken, hw.delayed p h i hi]
  constructor
  · intro q h' i hi
    rw [accept_from_cx ho.once]
    split
    · next ht => exact htaken i ht.1
    · next ht =>
      rw [mem_accept_from] at hi
      split at hi
      · exact hw.sockets p h i (hi.resolve_left ht)
      · simp only [reduceCtorEq, and_false, if_false] at hi
        exact hw.sockets q h' i hi
  · intro q h' i hi
    have hin : i ∈ contents w (.listed q h' .delayed_accepts) ∧
        ¬ (i ∈ contents w (.listed p h .delayed_accepts) ∧ ready i = true) := by
      rw [mem_accept_from] at hi
      simp only [reduceCtorEq, and_false, if_false, and_true] at hi
      split at hi
      · next he =>
        obtain ⟨rfl, rfl⟩ := he
        exact ⟨hi.1, by simp [hi.2]⟩
      · next he =>
        refine ⟨hi, fun ht => he ?_⟩
        simpa using ho.once.one _ _ i hi ht.1
    rw [accept_from_cx ho.once, if_neg hin.2, hw.delayed q h' i hin.1]
  · intro i
    rw [accept_from_cx ho.once]
    split
    · next ht => rw [htaken i ht.1]
    · exact hw.most i

theorem AcceptedOnce.step {a : action P} (hw : AcceptedOnce w) (ho : Owned w)
    (ha : delays_waiting w a) (hstep : contexts.step w a = some w') : AcceptedOnce w' := by
  cases a with
  | listen h p sock =>
    obtain ⟨-, rfl⟩ := by simpa [contexts.step] using hstep
    rcases listen_cases (w := w) (h := h) (p := p) sock with heq | harr
    · rwa [heq]
    · apply hw.arrives ho harr (Nat.zero_le 1) <;> simp
  | connect h p sock =>
    obtain ⟨-, rfl⟩ := by simpa [contexts.step] using hstep
    rcases connect_cases (w := w) (h := h) (p := p) sock with harr | harr
    · apply hw.arrives ho harr (Nat.zero_le 1) <;> simp
    · apply hw.arrives ho harr (Nat.zero_le 1) <;> simp
  | accept h p bound client waiting q delays =>
    obtain ⟨-, rfl⟩ := by simpa [contexts.step] using hstep
    rcases accept_cases (w := w) (h := h) (q := q) client waiting delays with
      ⟨-, heq⟩ | ⟨hc, harr⟩
    · rwa [heq]
    · have hd : delays = waiting := ha.resolve_left hc
      subst hd
      apply hw.arrives ho harr
      · split <;> omega
      · cases delays <;> simp [place.of_new]
      · cases delays <;> simp [place.of_new]
  | accept_delayed p ready =>
    obtain ⟨hp, rfl⟩ := by simpa [contexts.step] using hstep
    have hl : AcceptedOnce (w.accept_from ready .left World.ladd p) := hw.accept_from ho
    have hm : Moves p w (w.accept_from ready .left World.ladd p) := Moves.accept_from
    exact hl.accept_from (hm.owned hp ho)
  | cx_shutdown i =>
    obtain ⟨-, rfl⟩ := by simpa [contexts.step] using hstep
    exact hw.sheds Sheds.cx_shutdown fun _ _ _ _ hi => hi
  | peer i j =>
    obtain ⟨-, rfl⟩ := by simpa [contexts.step] using hstep
    have hcx : ∀ l, ((w.modify i fun cx => { cx with peer := j }).cx l).accepted =
        (w.cx l).accepted := by
      intro l
      by_cases hl : l = i <;> simp [World.modify, hl]
    constructor
    · intro p h l hl
      rw [hcx]
      exact hw.sockets p h l hl
    · intro p h l hl
      rw [hcx]
      exact hw.delayed p h l hl
    · intro l
      rw [hcx]
      exact hw.most l
  | left_shutdown p =>
    obtain ⟨-, rfl⟩ := by simpa [contexts.step] using hstep
    exact hw.side_shutdown
  | right_shutdown p =>
    obtain ⟨-, rfl⟩ := by simpa [contexts.step] using hstep
    exact hw.side_shutdown
  | shutdown p =>
    obtain ⟨-, rfl⟩ := by simpa [contexts.step] using hstep
    have hl : AcceptedOnce (w.left_shutdown p) := hw.side_shutdown
    exact hl.side_shutdown
  | destroy p =>
    obtain ⟨-, rfl⟩ := by simpa [contexts.step] using hstep
    have hs : Sheds w (w.shutdown p) := Sheds.shutdown
    have hd : Sheds (w.shutdown p) (w.destroy p) := Sheds.of_cx rfl
    apply hw.sheds (hs.trans hd)
    intro q h k i hi
    rw [listed_destroy] at hi
    split at hi
    · exact absurd hi (Multiset.notMem_zero i)
    · exact hi

/-- A context that waits and is put into the sockets is never accepted, and one that does not and
is delayed is accepted again. -/
theorem not_accepted_once {a : action P} (ha : ¬ delays_waiting w a)
    (hstep : step w a = some w') : ¬ AcceptedOnce w' := by
  intro hw
  cases a with
  | accept h p bound client waiting q delays =>
    obtain ⟨-, rfl⟩ := by simpa [step] using hstep
    obtain ⟨hc, hd⟩ := not_or.mp ha
    rcases accept_cases (w := w) (h := h) (q := q) client waiting delays with
      ⟨hlt, -⟩ | ⟨-, harr⟩
    · exact hc hlt
    · have hin : w.allocated ∈ contents (w.handle_sockets_accept h client waiting q delays)
          (.of_new h q delays) := by
        rw [harr.gained, Function.update_self]
        exact Multiset.mem_cons_self _ _
      have hn := harr.accepted
      cases delays with
      | false =>
        rw [hw.sockets q h _ hin] at hn
        cases waiting <;> simp_all
      | true =>
        rw [hw.delayed q h _ hin] at hn
        cases waiting <;> simp_all
  | _ => exact ha trivial

omit [DecidableEq P] in
theorem acceptedOnce_empty : AcceptedOnce ({} : World P) where
  sockets := fun _ _ i hi => absurd hi (Multiset.notMem_zero i)
  delayed := fun _ _ i hi => absurd hi (Multiset.notMem_zero i)
  most := fun _ => Nat.zero_le 1

/-- In a run, contexts are accepted when they come to the sockets, and once, if and only if
`on_left_new` and `on_right_new` delay those that wait, and no others. -/
theorem accepted_once_iff (as : List (action P)) :
    Always step AcceptedOnce ({} : World P) as ↔
      Meets step delays_waiting ({} : World P) as := by
  apply always_iff_meets (P := fun w : World P => Sound w ∧ AcceptedOnce w) (fun w hw => hw.2)
  · intro w a w' hw ha hstep
    exact ⟨hw.1.step hstep, hw.2.step hw.1.owned ha hstep⟩
  · intro w a w' _ ha hstep
    exact not_accepted_once ha hstep
  · exact ⟨sound_empty, acceptedOnce_empty⟩

end

end socle.contexts
