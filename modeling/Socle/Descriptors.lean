-- The descriptors of contexts with a TCPCom or a UxCom (hostcx.cpp, tcpcom.cpp,
-- uxcom.cpp). Shutting such a context down closes nothing: its descriptor is put
-- aside in `closing_fds_`, and closed when the context is destroyed. There is room
-- for one. A UDPCom closes what it shuts down, and is not among them.
import Mathlib.Data.Finset.Basic
import Mathlib.Data.Int.Order.Basic
import Socle.Lib.Run

namespace socle.descriptors

open lib.run

/-! ## Data -/

/-- What `::connect` answers. -/
inductive answer
  | ok | in_progress | failed
  deriving DecidableEq

/-- One address: the descriptor that `::socket` gives, negative when it fails, and what `::connect`
answers. -/
structure attempt where
  socket : Int
  answer : answer

/-- What a `connect` call finds. `getaddrinfo` may fail, which is `none`. -/
inductive connecting
  | tcp (gai : Option (List attempt))
  | ux (a : attempt)

/-- What a `bind` call finds. -/
structure binding where
  socket : Int
  bound : Bool
  listens : Bool

/-- `baseHostCX`, its descriptors and what `reconnect` asks. -/
structure baseHostCX where
  fds : Int := 0
  closing_fds : Int := 0
  permanent : Bool := false

/-- The open descriptors of the process, and its contexts. `bad` are the closed ones that were not
open. -/
structure World (ι : Type) where
  opened : Finset Int
  cx : ι → Option baseHostCX := fun _ => none
  bad : List Int := []

/-- The descriptors that the process starts with. -/
def standard : Finset Int := {0, 1, 2}

def start (ι : Type) : World ι := { opened := standard }

/-! ## Coms -/

/-- `::socket`, `::accept`. The kernel gives no descriptor that is open. -/
def socket (opened : Finset Int) (s : Int) : Option (Finset Int) :=
  if s < 0 then some opened else if s ∈ opened then none else some (insert s opened)

/-- The connection is up, or may come up. -/
def connected (blocking : Bool) : answer → Bool
  | .ok => true
  | .in_progress => !blocking
  | .failed => false

/-- The loop of `TCPCom::connect` over addresses. -/
def TCPCom.connect_loop (blocking : Bool) (opened : Finset Int) (sfd : Int) :
    List attempt → Option (Finset Int × Int)
  | [] => some (opened, sfd)
  | a :: rest =>
    match socket opened a.socket with
    | none => none
    | some opened' =>
      if a.socket < 0 then TCPCom.connect_loop blocking opened' a.socket rest
      else if connected blocking a.answer then some (opened', a.socket)
      else TCPCom.connect_loop blocking (opened'.erase a.socket) (-1) rest

def TCPCom.connect (blocking : Bool) (opened : Finset Int) :
    Option (List attempt) → Option (Finset Int × Int)
  | none => some (opened, -2)
  | some l => TCPCom.connect_loop blocking opened (-1) l

def UxCom.connect (blocking : Bool) (opened : Finset Int) (a : attempt) :
    Option (Finset Int × Int) :=
  match socket opened a.socket with
  | none => none
  | some opened' =>
    if a.socket < 0 then some (opened', a.socket)
    else if connected blocking a.answer then some (opened', a.socket)
    else some (opened'.erase a.socket, 0)

def com_connect (blocking : Bool) (opened : Finset Int) : connecting → Option (Finset Int × Int)
  | .tcp gai => TCPCom.connect blocking opened gai
  | .ux a => UxCom.connect blocking opened a

/-- `TCPCom::bind`. The socket stays open when it cannot listen. -/
def TCPCom.bind (opened : Finset Int) (b : binding) : Option (Finset Int × Int) :=
  match socket opened b.socket with
  | none => none
  | some opened' =>
    if b.socket < 0 then some (opened', -129)
    else if !b.bound then some (opened'.erase b.socket, -130)
    else if !b.listens then some (opened', -131)
    else some (opened', b.socket)

def UxCom.bind (opened : Finset Int) (b : binding) : Option (Finset Int × Int) :=
  match socket opened b.socket with
  | none => none
  | some opened' =>
    if b.socket < 0 then some (opened', -129)
    else if !b.bound then some (opened'.erase b.socket, -130)
    else if !b.listens then some (opened'.erase b.socket, -131)
    else some (opened', b.socket)

/-- `TCPCom::shutdown`, which a `UxCom` has, too. `::shutdown` ends the connection, and the descriptor
stays open. -/
def TCPCom.shutdown (_ : Int) (opened : Finset Int) : Finset Int :=
  opened

/-! ## Contexts -/

variable {ι : Type} [DecidableEq ι]

namespace World

def with_cx (i : ι) (cx : Option baseHostCX) (w : World ι) : World ι :=
  { w with cx := Function.update w.cx i cx }

def close (d : Int) (w : World ι) : World ι :=
  if 0 < d then
    let opened := TCPCom.shutdown d w.opened
    if d ∈ opened then { w with opened := opened.erase d } else { w with bad := w.bad ++ [d] }
  else w

/-- `baseHostCX::connect`: what the context had is forgotten. -/
def connect (blocking : Bool) (i : ι) (cx : baseHostCX) (c : connecting) (w : World ι) :
    Option (World ι) :=
  match com_connect blocking w.opened c with
  | none => none
  | some (opened, fds) => some { w.with_cx i (some { cx with fds := fds }) with opened := opened }

end World

/-- What `baseHostCX::shutdown` does to the members. -/
def baseHostCX.shutdown (cx : baseHostCX) : baseHostCX :=
  if cx.fds ≠ 0 then { cx with closing_fds := cx.fds, fds := 0 } else cx

def World.shutdown (i : ι) (cx : baseHostCX) (w : World ι) : World ι :=
  let w := w.with_cx i (some cx.shutdown)
  if cx.fds ≠ 0 then { w with opened := TCPCom.shutdown cx.shutdown.closing_fds w.opened } else w

/-- `reconnect` goes on. `should` is what `should_reconnect_now` says. -/
def baseHostCX.reconnects (should : Bool) (cx : baseHostCX) : Bool :=
  should && cx.permanent

inductive action (ι : Type)
  | accept (i : ι) (news : Int)
  | bind (i : ι) (ux : Bool) (b : binding)
  | new_cx (i : ι)
  | permanent (i : ι) (p : Bool)
  | connect (i : ι) (c : connecting)
  | shutdown (i : ι)
  | reconnect (i : ι) (should : Bool) (c : connecting)
  | destroy (i : ι)

/-- New contexts are not there yet, others are. -/
def step (blocking : Bool) (w : World ι) : action ι → Option (World ι)
  | .accept i news =>
    match w.cx i, socket w.opened news with
    | none, some opened =>
      if news < 0 then some w
      else some { w.with_cx i (some { fds := news }) with opened := opened }
    | _, _ => none
  | .bind i ux b =>
    match w.cx i, if ux then UxCom.bind w.opened b else TCPCom.bind w.opened b with
    | none, some (opened, s) =>
      if 0 < s then some { w.with_cx i (some { fds := s }) with opened := opened }
      else some { w with opened := opened }
    | _, _ => none
  | .new_cx i =>
    match w.cx i with
    | none => some (w.with_cx i (some {}))
    | some _ => none
  | .permanent i p => (w.cx i).map fun cx => w.with_cx i (some { cx with permanent := p })
  | .connect i c => (w.cx i).bind fun cx => w.connect blocking i cx c
  | .shutdown i => (w.cx i).map fun cx => w.shutdown i cx
  | .reconnect i should c => (w.cx i).bind fun cx =>
    if cx.reconnects should then (w.shutdown i cx).connect blocking i cx.shutdown c else some w
  | .destroy i => (w.cx i).map fun cx => ((w.close cx.fds).close cx.closing_fds).with_cx i none

/-! ## What a call opens -/

/-- A call that gives `v` opened `v`, or nothing when `v` is no descriptor. -/
def Opens (o o' : Finset Int) (v : Int) : Prop :=
  (v ≤ 0 ∧ o' = o) ∨ (0 ≤ v ∧ v ∉ o ∧ o' = insert v o)

theorem socket_some {o o' : Finset Int} {s : Int} (h : socket o s = some o') :
    (s < 0 ∧ o' = o) ∨ (0 ≤ s ∧ s ∉ o ∧ o' = insert s o) := by
  unfold socket at h
  split at h
  · next hs => exact Or.inl ⟨hs, (Option.some.inj h).symm⟩
  · next hs =>
    split at h
    · cases h
    · next hin => exact Or.inr ⟨not_lt.mp hs, hin, (Option.some.inj h).symm⟩

/-- An address that fails leaves nothing behind. -/
theorem connect_loop_opens {blocking : Bool} {o o' : Finset Int} {sfd v : Int} {l : List attempt}
    (hsfd : sfd < 0) (h : TCPCom.connect_loop blocking o sfd l = some (o', v)) : Opens o o' v := by
  induction l generalizing o sfd with
  | nil =>
    simp only [TCPCom.connect_loop, Option.some.injEq, Prod.mk.injEq] at h
    obtain ⟨rfl, rfl⟩ := h
    exact Or.inl ⟨hsfd.le, rfl⟩
  | cons a rest ih =>
    rw [TCPCom.connect_loop] at h
    split at h
    · cases h
    next o1 ho1 =>
      rcases socket_some ho1 with ⟨hneg, rfl⟩ | ⟨hpos, hnew, rfl⟩
      · rw [if_pos hneg] at h
        exact ih hneg h
      · rw [if_neg (not_lt.mpr hpos)] at h
        split at h
        · simp only [Option.some.injEq, Prod.mk.injEq] at h
          obtain ⟨rfl, rfl⟩ := h
          exact Or.inr ⟨hpos, hnew, rfl⟩
        · rw [Finset.erase_insert hnew] at h
          exact ih (by decide) h

theorem com_connect_opens {blocking : Bool} {o o' : Finset Int} {v : Int} {c : connecting}
    (h : com_connect blocking o c = some (o', v)) : Opens o o' v := by
  cases c with
  | tcp gai =>
    cases gai with
    | none =>
      simp only [com_connect, TCPCom.connect, Option.some.injEq, Prod.mk.injEq] at h
      obtain ⟨rfl, rfl⟩ := h
      exact Or.inl ⟨by decide, rfl⟩
    | some l => exact connect_loop_opens (by decide) h
  | ux a =>
    simp only [com_connect, UxCom.connect] at h
    split at h
    · cases h
    next o1 ho1 =>
      rcases socket_some ho1 with ⟨hneg, rfl⟩ | ⟨hpos, hnew, rfl⟩
      · rw [if_pos hneg] at h
        simp only [Option.some.injEq, Prod.mk.injEq] at h
        obtain ⟨rfl, rfl⟩ := h
        exact Or.inl ⟨hneg.le, rfl⟩
      · rw [if_neg (not_lt.mpr hpos)] at h
        split at h
        · simp only [Option.some.injEq, Prod.mk.injEq] at h
          obtain ⟨rfl, rfl⟩ := h
          exact Or.inr ⟨hpos, hnew, rfl⟩
        · simp only [Option.some.injEq, Prod.mk.injEq] at h
          obtain ⟨rfl, rfl⟩ := h
          exact Or.inl ⟨le_refl 0, Finset.erase_insert hnew⟩

/-- A TCP socket is bound, and cannot listen. -/
def unheard (ux : Bool) (b : binding) : Bool :=
  !ux && decide (0 ≤ b.socket) && b.bound && !b.listens

theorem bind_opens {ux : Bool} {o o' : Finset Int} {v : Int} {b : binding}
    (h : (if ux then UxCom.bind o b else TCPCom.bind o b) = some (o', v)) :
    if unheard ux b then v ≤ 0 ∧ b.socket ∉ o ∧ o' = insert b.socket o else Opens o o' v := by
  cases ux with
  | true =>
    simp only [if_true, UxCom.bind] at h
    simp only [unheard, Bool.not_true, Bool.false_and, Bool.false_eq_true, if_false]
    split at h
    · cases h
    next o1 ho1 =>
      rcases socket_some ho1 with ⟨hneg, rfl⟩ | ⟨hpos, hnew, rfl⟩
      · rw [if_pos hneg] at h
        simp only [Option.some.injEq, Prod.mk.injEq] at h
        obtain ⟨rfl, rfl⟩ := h
        exact Or.inl ⟨by decide, rfl⟩
      · rw [if_neg (not_lt.mpr hpos), Finset.erase_insert hnew] at h
        split at h
        · simp only [Option.some.injEq, Prod.mk.injEq] at h
          obtain ⟨rfl, rfl⟩ := h
          exact Or.inl ⟨by decide, rfl⟩
        · split at h
          · simp only [Option.some.injEq, Prod.mk.injEq] at h
            obtain ⟨rfl, rfl⟩ := h
            exact Or.inl ⟨by decide, rfl⟩
          · simp only [Option.some.injEq, Prod.mk.injEq] at h
            obtain ⟨rfl, rfl⟩ := h
            exact Or.inr ⟨hpos, hnew, rfl⟩
  | false =>
    simp only [Bool.false_eq_true, if_false, TCPCom.bind] at h
    split at h
    · cases h
    next o1 ho1 =>
      rcases socket_some ho1 with ⟨hneg, rfl⟩ | ⟨hpos, hnew, rfl⟩
      · rw [if_pos hneg] at h
        simp only [Option.some.injEq, Prod.mk.injEq] at h
        obtain ⟨rfl, rfl⟩ := h
        simp only [unheard, not_le.mpr hneg, decide_false, Bool.and_false, Bool.false_and,
          Bool.false_eq_true, if_false]
        exact Or.inl ⟨by decide, rfl⟩
      · rw [if_neg (not_lt.mpr hpos), Finset.erase_insert hnew] at h
        cases hb : b.bound with
        | false =>
          simp only [hb, Bool.not_false, if_true, Option.some.injEq, Prod.mk.injEq] at h
          obtain ⟨rfl, rfl⟩ := h
          simp only [unheard, hb, Bool.and_false, Bool.false_and, Bool.false_eq_true, if_false]
          exact Or.inl ⟨by decide, rfl⟩
        | true =>
          cases hl : b.listens with
          | false =>
            simp only [hb, hl, Bool.not_true, Bool.not_false, Bool.false_eq_true, if_false, if_true,
              Option.some.injEq, Prod.mk.injEq] at h
            obtain ⟨rfl, rfl⟩ := h
            simp [unheard, hb, hl, hpos, hnew]
          | true =>
            simp only [hb, hl, Bool.not_true, Bool.false_eq_true, if_false, Option.some.injEq,
              Prod.mk.injEq] at h
            obtain ⟨rfl, rfl⟩ := h
            simp only [unheard, hl, Bool.not_true, Bool.and_false, Bool.false_eq_true, if_false]
            exact Or.inr ⟨hpos, hnew, rfl⟩

/-! ## Who has a descriptor -/

inductive slot
  | fds | closing_fds
  deriving DecidableEq

def baseHostCX.value (cx : baseHostCX) : slot → Int
  | .fds => cx.fds
  | .closing_fds => cx.closing_fds

/-- A context has the descriptor `d` in one of its two members. -/
def Has (w : World ι) (i : ι) (s : slot) (d : Int) : Prop :=
  0 < d ∧ ∃ cx, w.cx i = some cx ∧ cx.value s = d

/-- Each descriptor that a context has is open, and nobody else's. No other one was closed. -/
structure Kept (w : World ι) : Prop where
  std : standard ⊆ w.opened
  held : ∀ i s d, Has w i s d → d ∈ w.opened ∧ d ∉ standard
  one : ∀ i s j t d, Has w i s d → Has w j t d → i = j ∧ s = t
  bad : w.bad = []

/-- An open descriptor that nobody has. -/
def Lost (w : World ι) (d : Int) : Prop :=
  d ∈ w.opened ∧ d ∉ standard ∧ ∀ i s, ¬ Has w i s d

/-- Nothing is lost. -/
def Lossless (w : World ι) : Prop :=
  ∀ d, ¬ Lost w d

section
variable {w w' : World ι} {i : ι} {v : Int} {cx cx' : baseHostCX} {blocking : Bool} {c : connecting}

theorem Opens.subset {o o' : Finset Int} (h : Opens o o' v) : o ⊆ o' := by
  rcases h with ⟨-, rfl⟩ | ⟨-, -, rfl⟩
  · exact Finset.Subset.refl _
  · exact Finset.subset_insert v o

/-- What is open already is not what was opened. -/
theorem Opens.ne {o o' : Finset Int} {d : Int} (h : Opens o o' v) (hd : 0 < d) (hin : d ∈ o) :
    d ≠ v := by
  rintro rfl
  rcases h with ⟨hle, -⟩ | ⟨-, hout, -⟩
  · omega
  · exact hout hin

theorem has_set {s : slot} {d : Int} :
    Has (w.with_cx i (some cx)) i s d ↔ 0 < d ∧ cx.value s = d := by
  simp [Has, World.with_cx]

omit [DecidableEq ι] in
theorem has_of_some {s : slot} {d : Int} (hcx : w.cx i = some cx) :
    Has w i s d ↔ 0 < d ∧ cx.value s = d := by
  simp [Has, hcx]

omit [DecidableEq ι] in
theorem has_of_none {s : slot} {d : Int} (hcx : w.cx i = none) : ¬ Has w i s d := by
  simp [Has, hcx]

omit [DecidableEq ι] in
theorem has_other {j : ι} {s : slot} {d : Int} (h : w'.cx j = w.cx j) :
    Has w' j s d ↔ Has w j s d := by
  simp [Has, h]

/-! ## Calls of one context -/

/-- A call of context `i` opened `v`, or nothing, and what the context has now is `v`, or what it
had. -/
structure Call (i : ι) (v : Int) (w w' : World ι) : Prop where
  opens : Opens w.opened w'.opened v
  bad : w'.bad = w.bad
  others : ∀ j, j ≠ i → w'.cx j = w.cx j
  got : ∀ s d, Has w' i s d → d = v ∨ ∃ t, Has w i t d
  one : ∀ s t d, Has w' i s d → Has w' i t d → s = t

theorem Call.kept (hc : Call i v w w') (hk : Kept w) : Kept w' where
  std := hk.std.trans hc.opens.subset
  held := by
    intro j s d hd
    have hold : ∀ k t, Has w k t d → d ∈ w'.opened ∧ d ∉ standard := fun k t ht =>
      ⟨hc.opens.subset (hk.held k t d ht).1, (hk.held k t d ht).2⟩
    by_cases hj : j = i
    · subst hj
      rcases hc.got s d hd with rfl | ⟨t, ht⟩
      · rcases hc.opens with ⟨hle, -⟩ | ⟨-, hout, heq⟩
        · exact absurd hd.1 (not_lt.mpr hle)
        · rw [heq]
          exact ⟨Finset.mem_insert_self _ _, fun hin => hout (hk.std hin)⟩
      · exact hold j t ht
    · exact hold j s ((has_other (hc.others j hj)).mp hd)
  one := by
    -- what `i` has and another context has is not `v`, so both had it
    have hcross : ∀ s j t d, j ≠ i → Has w' i s d → ¬ Has w' j t d := by
      intro s j t d hj hi hjd
      rw [has_other (hc.others j hj)] at hjd
      rcases hc.got s d hi with rfl | ⟨t', ht'⟩
      · exact hc.opens.ne hjd.1 (hk.held j t d hjd).1 rfl
      · exact hj (hk.one j t i t' d hjd ht').1
    intro j s k t d hj hk'
    by_cases hji : j = i
    · subst hji
      by_cases hkj : k = j
      · subst hkj
        exact ⟨rfl, hc.one s t d hj hk'⟩
      · exact absurd hk' (hcross s k t d hkj hj)
    · by_cases hki : k = i
      · subst hki
        exact absurd hj (hcross t j s d hji hk')
      · rw [has_other (hc.others j hji)] at hj
        rw [has_other (hc.others k hki)] at hk'
        exact hk.one j s k t d hj hk'
  bad := hc.bad.trans hk.bad

/-- What is lost stays lost. -/
theorem Call.lost {d : Int} (hc : Call i v w w') (hd : Lost w d) : Lost w' d := by
  obtain ⟨hin, hstd, hno⟩ := hd
  refine ⟨hc.opens.subset hin, hstd, ?_⟩
  intro j s hj
  by_cases hji : j = i
  · subst hji
    rcases hc.got s d hj with heq | ⟨t, ht⟩
    · exact hc.opens.ne hj.1 hin heq
    · exact hno j t ht
  · rw [has_other (hc.others j hji)] at hj
    exact hno j s hj

/-- Nothing is lost by a call after which the context has what it had, and what was opened. -/
theorem Call.lossless (hc : Call i v w w') (hk : Kept w) (hl : Lossless w)
    (hnew : 0 < v → ∃ s, Has w' i s v) (hold : ∀ s d, Has w i s d → ∃ t, Has w' i t d) :
    Lossless w' := by
  rintro d ⟨hin, hstd, hno⟩
  have hw : d ∈ w.opened → Lost w d := by
    intro hd
    refine ⟨hd, hstd, ?_⟩
    intro j s hj
    by_cases hji : j = i
    · subst hji
      obtain ⟨t, ht⟩ := hold s d hj
      exact hno j t ht
    · rw [← has_other (hc.others j hji)] at hj
      exact hno j s hj
  rcases hc.opens with ⟨-, heq⟩ | ⟨hle, hout, heq⟩
  · rw [heq] at hin
    exact hl d (hw hin)
  · rw [heq, Finset.mem_insert] at hin
    rcases hin with rfl | hin
    · have hne : d ≠ 0 := by
        rintro rfl
        exact hout (hk.std (by decide))
      obtain ⟨s, hs⟩ := hnew (by omega)
      exact hno i s hs
    · exact hl d (hw hin)

/-- A new context has what was opened. -/
theorem Call.create {o : Finset Int} (ho : Opens w.opened o v) :
    Call i v w { w.with_cx i (some { fds := v }) with opened := o } where
  opens := ho
  bad := rfl
  others := fun j hj => Function.update_of_ne hj _ _
  got := by
    intro s d hd
    have hd' := has_set.mp hd
    cases s with
    | fds => exact Or.inl hd'.2.symm
    | closing_fds =>
      have hzero : (0 : Int) = d := hd'.2
      omega
  one := by
    intro s t d hs ht
    have hs' := has_set.mp hs
    have ht' := has_set.mp ht
    have hzero : ∀ u : slot, ({ fds := v } : baseHostCX).value u = d → u = .fds := by
      intro u hu
      cases u with
      | fds => rfl
      | closing_fds =>
        have hzero : (0 : Int) = d := hu
        omega
    rw [hzero s hs'.2, hzero t ht'.2]

theorem Call.connect (hcx : w.cx i = some cx) (hk : Kept w)
    (h : w.connect blocking i cx c = some w') : ∃ v, Call i v w w' ∧
      w'.cx i = some { cx with fds := v } := by
  unfold World.connect at h
  split at h
  · cases h
  next o v ho =>
    have hopens := com_connect_opens ho
    obtain rfl := Option.some.inj h
    have hclosing : ∀ d, 0 < d → cx.closing_fds = d → Has w i .closing_fds d := by
      intro d hd heq
      exact (has_of_some hcx).mpr ⟨hd, heq⟩
    refine ⟨v, ⟨hopens, rfl, fun j hj => Function.update_of_ne hj _ _, ?_, ?_⟩, ?_⟩
    · intro s d hd
      have hd' := has_set.mp hd
      cases s with
      | fds => exact Or.inl hd'.2.symm
      | closing_fds => exact Or.inr ⟨.closing_fds, hclosing d hd'.1 hd'.2⟩
    · intro s t d hs ht
      have hs' := has_set.mp hs
      have ht' := has_set.mp ht
      have hne : ∀ d, 0 < d → v = d → cx.closing_fds ≠ d := by
        rintro d hd rfl hc
        have hin := (hk.held i .closing_fds v (hclosing v hd hc)).1
        exact hopens.ne hd hin rfl
      cases s <;> cases t
      · rfl
      · exact absurd ht'.2 (hne d hs'.1 hs'.2)
      · exact absurd hs'.2 (hne d hs'.1 ht'.2)
      · rfl
    · simp [World.with_cx]

theorem value_shutdown (cx : baseHostCX) (s : slot) {d : Int} (hd : 0 < d)
    (h : cx.shutdown.value s = d) : ∃ t, cx.value t = d := by
  unfold baseHostCX.shutdown at h
  split at h
  · cases s with
    | fds =>
      have hzero : (0 : Int) = d := h
      omega
    | closing_fds => exact ⟨.fds, h⟩
  · exact ⟨s, h⟩

theorem shutdown_eq : w.shutdown i cx = w.with_cx i (some cx.shutdown) := by
  unfold World.shutdown TCPCom.shutdown
  split <;> rfl

theorem Call.shutdown (hcx : w.cx i = some cx) (hk : Kept w) :
    Call i 0 w (w.with_cx i (some cx.shutdown)) where
  opens := Or.inl ⟨le_refl 0, rfl⟩
  bad := rfl
  others := fun j hj => Function.update_of_ne hj _ _
  got := by
    intro s d hd
    obtain ⟨hpos, hs⟩ := has_set.mp hd
    obtain ⟨t, ht⟩ := value_shutdown cx s hpos hs
    exact Or.inr ⟨t, (has_of_some hcx).mpr ⟨hpos, ht⟩⟩
  one := by
    intro s t d hs ht
    obtain ⟨hpos, hs'⟩ := has_set.mp hs
    obtain ⟨-, ht'⟩ := has_set.mp ht
    unfold baseHostCX.shutdown at hs' ht'
    split at hs'
    · next hne =>
      rw [if_pos hne] at ht'
      have hzero : ∀ u : slot, ({ cx with closing_fds := cx.fds, fds := 0 } : baseHostCX).value u = d →
          u = .closing_fds := by
        intro u hu
        cases u with
        | closing_fds => rfl
        | fds =>
          have hzero : (0 : Int) = d := hu
          omega
      rw [hzero s hs', hzero t ht']
    · next heq =>
      rw [if_neg heq] at ht'
      exact (hk.one i s i t d ((has_of_some hcx).mpr ⟨hpos, hs'⟩)
        ((has_of_some hcx).mpr ⟨hpos, ht'⟩)).2

theorem Call.permanent {p : Bool} (hcx : w.cx i = some cx) (hk : Kept w) :
    Call i 0 w (w.with_cx i (some { cx with permanent := p })) where
  opens := Or.inl ⟨le_refl 0, rfl⟩
  bad := rfl
  others := fun j hj => Function.update_of_ne hj _ _
  got := by
    intro s d hd
    have hd' := has_set.mp hd
    exact Or.inr ⟨s, (has_of_some hcx).mpr ⟨hd'.1, by cases s <;> exact hd'.2⟩⟩
  one := by
    intro s t d hs ht
    have hold : ∀ u, Has (w.with_cx i (some { cx with permanent := p })) i u d → Has w i u d := by
      intro u hu
      have hu' := has_set.mp hu
      exact (has_of_some hcx).mpr ⟨hu'.1, by cases u <;> exact hu'.2⟩
    exact (hk.one i s i t d (hold s hs) (hold t ht)).2

/-! ## A context is destroyed -/

omit [DecidableEq ι] in
theorem close_open {d : Int} (h : 0 < d → d ∈ w.opened) :
    (w.close d).bad = w.bad ∧ (w.close d).cx = w.cx ∧
      ∀ x, x ∈ (w.close d).opened ↔ x ∈ w.opened ∧ ¬ (0 < d ∧ x = d) := by
  unfold World.close TCPCom.shutdown
  by_cases hd : 0 < d
  · rw [if_pos hd, if_pos (h hd)]
    refine ⟨rfl, rfl, fun x => ?_⟩
    simp [hd, and_comm]
  · rw [if_neg hd]
    simp [hd]

omit [DecidableEq ι] in
/-- The descriptors of the context are closed, and no others. -/
theorem destroy_spec (hcx : w.cx i = some cx) (hk : Kept w) :
    ((w.close cx.fds).close cx.closing_fds).bad = w.bad ∧
      ∀ x, x ∈ ((w.close cx.fds).close cx.closing_fds).opened ↔
        x ∈ w.opened ∧ ∀ s, ¬ Has w i s x := by
  have hfds : 0 < cx.fds → Has w i .fds cx.fds := fun h => (has_of_some hcx).mpr ⟨h, rfl⟩
  have hclosing : 0 < cx.closing_fds → Has w i .closing_fds cx.closing_fds :=
    fun h => (has_of_some hcx).mpr ⟨h, rfl⟩
  obtain ⟨hbad, -, hin⟩ := close_open fun h => (hk.held i _ _ (hfds h)).1
  have hsecond : 0 < cx.closing_fds → cx.closing_fds ∈ (w.close cx.fds).opened := by
    intro h
    rw [hin]
    refine ⟨(hk.held i _ _ (hclosing h)).1, fun ⟨hpos, heq⟩ => ?_⟩
    have hsame := (hk.one i _ i _ _ (hfds hpos) (heq ▸ hclosing h)).2
    cases hsame
  obtain ⟨hbad', -, hin'⟩ := close_open hsecond
  refine ⟨hbad'.trans hbad, fun x => ?_⟩
  rw [hin', hin, and_assoc]
  apply and_congr_right
  intro _
  constructor
  · rintro ⟨hf, hc⟩ s hs
    obtain ⟨hpos, heq⟩ := (has_of_some hcx).mp hs
    subst heq
    cases s with
    | fds => exact hf ⟨hpos, rfl⟩
    | closing_fds => exact hc ⟨hpos, rfl⟩
  · intro hno
    constructor
    · rintro ⟨hpos, rfl⟩
      exact hno .fds (hfds hpos)
    · rintro ⟨hpos, rfl⟩
      exact hno .closing_fds (hclosing hpos)

theorem has_destroy {w1 : World ι} (hw1 : w1.cx = w.cx) {j : ι} {s : slot} {d : Int} :
    Has (w1.with_cx i none) j s d ↔ j ≠ i ∧ Has w j s d := by
  by_cases hj : j = i
  · subst hj
    simp [Has, World.with_cx]
  · simp [Has, World.with_cx, hj, hw1]

omit [DecidableEq ι] in
theorem close_cx (d : Int) : (w.close d).cx = w.cx := by
  unfold World.close
  dsimp only
  split
  · split <;> rfl
  · rfl

theorem Kept.destroy (hcx : w.cx i = some cx) (hk : Kept w) :
    Kept (((w.close cx.fds).close cx.closing_fds).with_cx i none) := by
  obtain ⟨hbad, hin⟩ := destroy_spec hcx hk
  have hcxs : ((w.close cx.fds).close cx.closing_fds).cx = w.cx := by
    rw [close_cx, close_cx]
  constructor
  · intro x hx
    rw [World.with_cx, hin]
    exact ⟨hk.std hx, fun s hs => (hk.held i s x hs).2 hx⟩
  · intro j s d hd
    obtain ⟨hj, hd⟩ := (has_destroy hcxs).mp hd
    obtain ⟨hopen, hstd⟩ := hk.held j s d hd
    refine ⟨?_, hstd⟩
    rw [World.with_cx, hin]
    exact ⟨hopen, fun t ht => hj (hk.one j s i t d hd ht).1⟩
  · intro j s k t d hj hk'
    exact hk.one j s k t d ((has_destroy hcxs).mp hj).2 ((has_destroy hcxs).mp hk').2
  · exact hbad.trans hk.bad

theorem Lossless.destroy (hcx : w.cx i = some cx) (hk : Kept w) (hl : Lossless w) :
    Lossless (((w.close cx.fds).close cx.closing_fds).with_cx i none) := by
  obtain ⟨-, hin⟩ := destroy_spec hcx hk
  have hcxs : ((w.close cx.fds).close cx.closing_fds).cx = w.cx := by
    rw [close_cx, close_cx]
  rintro d ⟨hopen, hstd, hno⟩
  rw [World.with_cx, hin] at hopen
  refine hl d ⟨hopen.1, hstd, ?_⟩
  intro j s hj
  by_cases hji : j = i
  · subst hji
    exact hopen.2 s hj
  · exact hno j s ((has_destroy hcxs).mpr ⟨hji, hj⟩)

/-! ## A socket that cannot listen -/

omit [DecidableEq ι] in
theorem Kept.unheard {d : Int} (hk : Kept w) : Kept { w with opened := insert d w.opened } where
  std := hk.std.trans (Finset.subset_insert d w.opened)
  held := fun j s x hx => ⟨Finset.mem_insert_of_mem (hk.held j s x hx).1, (hk.held j s x hx).2⟩
  one := hk.one
  bad := hk.bad

omit [DecidableEq ι] in
theorem lost_unheard {d : Int} (hk : Kept w) (hout : d ∉ w.opened) :
    Lost { w with opened := insert d w.opened } d :=
  ⟨Finset.mem_insert_self d w.opened, fun hin => hout (hk.std hin),
    fun j s hj => hout (hk.held j s d hj).1⟩

/-! ## What each call loses -/

theorem Lossless.connect (hcx : w.cx i = some cx) (hk : Kept w) (hl : Lossless w)
    (hfds : ¬ 0 < cx.fds) (h : w.connect blocking i cx c = some w') : Lossless w' := by
  obtain ⟨v, hcall, hcx'⟩ := Call.connect hcx hk h
  apply hcall.lossless hk hl
  · intro hv
    exact ⟨.fds, (has_of_some hcx').mpr ⟨hv, rfl⟩⟩
  · intro s d hd
    obtain ⟨hpos, hs⟩ := (has_of_some hcx).mp hd
    cases s with
    | fds =>
      rw [← hs] at hpos
      exact absurd hpos hfds
    | closing_fds => exact ⟨.closing_fds, (has_of_some hcx').mpr ⟨hpos, hs⟩⟩

/-- `connect` of a context that is open. -/
theorem lost_connect (hcx : w.cx i = some cx) (hk : Kept w) (hfds : 0 < cx.fds)
    (h : w.connect blocking i cx c = some w') : Lost w' cx.fds := by
  obtain ⟨v, hcall, hcx'⟩ := Call.connect hcx hk h
  have hhas : Has w i .fds cx.fds := (has_of_some hcx).mpr ⟨hfds, rfl⟩
  obtain ⟨hin, hstd⟩ := hk.held i _ _ hhas
  refine ⟨hcall.opens.subset hin, hstd, ?_⟩
  intro j s hj
  by_cases hji : j = i
  · subst hji
    obtain ⟨-, hs⟩ := (has_of_some hcx').mp hj
    cases s with
    | fds => exact hcall.opens.ne hfds hin hs.symm
    | closing_fds =>
      have hclosing : Has w j .closing_fds cx.fds := (has_of_some hcx).mpr ⟨hfds, hs⟩
      cases (hk.one j _ j _ _ hhas hclosing).2
  · rw [has_other (hcall.others j hji)] at hj
    exact hji (hk.one j s i _ _ hj hhas).1

/-- The member in which `shutdown` puts the descriptor aside is taken. -/
def baseHostCX.full (cx : baseHostCX) : Prop :=
  cx.fds ≠ 0 ∧ 0 < cx.closing_fds

theorem Lossless.shutdown (hcx : w.cx i = some cx) (hk : Kept w) (hl : Lossless w)
    (hfull : ¬ cx.full) : Lossless (w.with_cx i (some cx.shutdown)) := by
  apply (Call.shutdown hcx hk).lossless hk hl
  · intro h
    omega
  · intro s d hd
    obtain ⟨hpos, hs⟩ := (has_of_some hcx).mp hd
    unfold baseHostCX.shutdown
    split
    · next hne =>
      cases s with
      | fds => exact ⟨.closing_fds, has_set.mpr ⟨hpos, hs⟩⟩
      | closing_fds =>
        have hclosing : 0 < cx.closing_fds := lt_of_lt_of_eq hpos hs.symm
        exact absurd ⟨hne, hclosing⟩ hfull
    · exact ⟨s, has_set.mpr ⟨hpos, hs⟩⟩

theorem lost_shutdown (hcx : w.cx i = some cx) (hk : Kept w) (hfull : cx.full) :
    Lost (w.with_cx i (some cx.shutdown)) cx.closing_fds := by
  obtain ⟨hne, hpos⟩ := hfull
  have hhas : Has w i .closing_fds cx.closing_fds := (has_of_some hcx).mpr ⟨hpos, rfl⟩
  obtain ⟨hin, hstd⟩ := hk.held i _ _ hhas
  refine ⟨hin, hstd, ?_⟩
  intro j s hj
  by_cases hji : j = i
  · subst hji
    obtain ⟨-, hs⟩ := has_set.mp hj
    unfold baseHostCX.shutdown at hs
    rw [if_pos hne] at hs
    cases s with
    | fds =>
      have hzero : (0 : Int) = cx.closing_fds := hs
      omega
    | closing_fds =>
      have hfds : Has w j .fds cx.closing_fds := (has_of_some hcx).mpr ⟨hpos, hs⟩
      cases (hk.one j _ j _ _ hhas hfds).2
  · have hother : (w.with_cx i (some cx.shutdown)).cx j = w.cx j := Function.update_of_ne hji _ _
    rw [has_other hother] at hj
    exact hji (hk.one j s i _ _ hj hhas).1

theorem shutdown_fds (cx : baseHostCX) : cx.shutdown.fds = 0 := by
  unfold baseHostCX.shutdown
  split
  · rfl
  · next h => exact not_ne_iff.mp h

/-! ## Runs -/

/-- The call does not overwrite a descriptor: `connect` of a closed context only, `shutdown` with
room in `closing_fds_`, and a TCP socket that is bound listens. -/
def room (w : World ι) : action ι → Prop
  | .bind _ ux b => unheard ux b = false
  | .connect i _ => ∀ cx, w.cx i = some cx → ¬ 0 < cx.fds
  | .shutdown i => ∀ cx, w.cx i = some cx → ¬ cx.full
  | .reconnect i should _ => ∀ cx, w.cx i = some cx → cx.reconnects should = true → ¬ cx.full
  | _ => True

/-- What a step does to one that is kept. -/
theorem step_cases {a : action ι} (hk : Kept w) (h : step blocking w a = some w') :
    Kept w' ∧ (Lossless w → room w a → Lossless w') ∧ (¬ room w a → ∃ d, Lost w' d) := by
  cases a with
  | accept i news =>
    simp only [step] at h
    split at h
    · next o hcx ho =>
      rcases socket_some ho with ⟨hneg, rfl⟩ | ⟨hpos, hout, rfl⟩
      · rw [if_pos hneg] at h
        obtain rfl := Option.some.inj h
        exact ⟨hk, fun hl _ => hl, fun hr => absurd trivial hr⟩
      · rw [if_neg (not_lt.mpr hpos)] at h
        obtain rfl := Option.some.inj h
        have hopens : Opens w.opened (insert news w.opened) news := Or.inr ⟨hpos, hout, rfl⟩
        refine ⟨(Call.create hopens).kept hk, fun hl _ => ?_, fun hr => absurd trivial hr⟩
        apply (Call.create hopens).lossless hk hl
        · exact fun hv => ⟨.fds, has_set.mpr ⟨hv, rfl⟩⟩
        · exact fun s d hd => absurd hd (has_of_none hcx)
    · cases h
  | bind i ux b =>
    simp only [step] at h
    split at h
    · next o v hcx ho =>
      have hb := bind_opens ho
      by_cases hu : unheard ux b = true
      · rw [if_pos hu] at hb
        obtain ⟨hle, hout, rfl⟩ := hb
        rw [if_neg (not_lt.mpr hle)] at h
        obtain rfl := Option.some.inj h
        refine ⟨hk.unheard, fun _ hr => ?_, fun _ => ⟨b.socket, lost_unheard hk hout⟩⟩
        rw [room, hu] at hr
        cases hr
      · rw [if_neg hu] at hb
        have hroom : room w (.bind i ux b) := Bool.eq_false_iff.mpr hu
        split at h
        · obtain rfl := Option.some.inj h
          refine ⟨(Call.create hb).kept hk, fun hl _ => ?_, fun hr => absurd hroom hr⟩
          apply (Call.create hb).lossless hk hl
          · exact fun hv => ⟨.fds, has_set.mpr ⟨hv, rfl⟩⟩
          · exact fun s d hd => absurd hd (has_of_none hcx)
        · next hv =>
          obtain rfl := Option.some.inj h
          rcases hb with ⟨-, rfl⟩ | ⟨hpos, hout, rfl⟩
          · exact ⟨hk, fun hl _ => hl, fun hr => absurd hroom hr⟩
          · have hzero : v = 0 := by omega
            subst hzero
            exact absurd (hk.std (by decide)) hout
    · cases h
  | new_cx i =>
    simp only [step] at h
    split at h
    · next hcx =>
      obtain rfl := Option.some.inj h
      have hcall : Call i 0 w (w.with_cx i (some {})) := Call.create (Or.inl ⟨le_refl 0, rfl⟩)
      refine ⟨hcall.kept hk, fun hl _ => ?_, fun hr => absurd trivial hr⟩
      apply hcall.lossless hk hl
      · intro hv
        omega
      · exact fun s d hd => absurd hd (has_of_none hcx)
    · cases h
  | permanent i p =>
    obtain ⟨cx, hcx, rfl⟩ := Option.map_eq_some_iff.mp h
    have hcall := Call.permanent (p := p) hcx hk
    refine ⟨hcall.kept hk, fun hl _ => ?_, fun hr => absurd trivial hr⟩
    apply hcall.lossless hk hl
    · intro hv
      omega
    · intro s d hd
      obtain ⟨hpos, hs⟩ := (has_of_some hcx).mp hd
      exact ⟨s, has_set.mpr ⟨hpos, by cases s <;> exact hs⟩⟩
  | connect i c =>
    obtain ⟨cx, hcx, hc⟩ := Option.bind_eq_some_iff.mp h
    obtain ⟨v, hcall, -⟩ := Call.connect hcx hk hc
    refine ⟨hcall.kept hk, fun hl hr => hl.connect hcx hk (hr cx hcx) hc, fun hr => ?_⟩
    simp only [room, not_forall, not_not] at hr
    obtain ⟨cx', hcx', hpos⟩ := hr
    obtain rfl : cx = cx' := Option.some.inj (hcx.symm.trans hcx')
    exact ⟨cx.fds, lost_connect hcx hk hpos hc⟩
  | shutdown i =>
    obtain ⟨cx, hcx, rfl⟩ := Option.map_eq_some_iff.mp h
    rw [shutdown_eq]
    refine ⟨(Call.shutdown hcx hk).kept hk, fun hl hr => hl.shutdown hcx hk (hr cx hcx),
      fun hr => ?_⟩
    simp only [room, not_forall, not_not] at hr
    obtain ⟨cx', hcx', hfull⟩ := hr
    obtain rfl : cx = cx' := Option.some.inj (hcx.symm.trans hcx')
    exact ⟨cx.closing_fds, lost_shutdown hcx hk hfull⟩
  | reconnect i should c =>
    obtain ⟨cx, hcx, hc⟩ := Option.bind_eq_some_iff.mp h
    split at hc
    · next hre =>
      rw [shutdown_eq] at hc
      have hk1 := (Call.shutdown hcx hk).kept hk
      have hcx1 : (w.with_cx i (some cx.shutdown)).cx i = some cx.shutdown := by
        simp [World.with_cx]
      obtain ⟨v, hcall, -⟩ := Call.connect hcx1 hk1 hc
      refine ⟨hcall.kept hk1, fun hl hr => ?_, fun hr => ?_⟩
      · have hl1 := hl.shutdown hcx hk (hr cx hcx hre)
        apply hl1.connect hcx1 hk1 _ hc
        rw [shutdown_fds]
        omega
      · simp only [room, not_forall, not_not] at hr
        obtain ⟨cx', hcx', -, hfull⟩ := hr
        obtain rfl : cx = cx' := Option.some.inj (hcx.symm.trans hcx')
        exact ⟨cx.closing_fds, hcall.lost (lost_shutdown hcx hk hfull)⟩
    · next hre =>
      obtain rfl := Option.some.inj hc
      refine ⟨hk, fun hl _ => hl, fun hr => absurd ?_ hr⟩
      intro cx' hcx' hre'
      obtain rfl : cx = cx' := Option.some.inj (hcx.symm.trans hcx')
      exact absurd hre' hre
  | destroy i =>
    obtain ⟨cx, hcx, rfl⟩ := Option.map_eq_some_iff.mp h
    exact ⟨hk.destroy hcx, fun hl _ => hl.destroy hcx hk, fun hr => absurd trivial hr⟩

omit [DecidableEq ι] in
theorem kept_start : Kept (start ι) where
  std := Finset.Subset.refl standard
  held := by
    rintro i s d ⟨-, cx, hcx, -⟩
    cases hcx
  one := by
    rintro i s j t d ⟨-, cx, hcx, -⟩
    cases hcx
  bad := rfl

/-- Whatever contexts do, and whatever the kernel answers: what a context has is open, and not in
another context, and no descriptor is closed that is not open. -/
theorem descriptors_are_kept (blocking : Bool) (as : List (action ι)) :
    Always (step blocking) Kept (start ι) as :=
  always_of_step (fun _ _ _ hk h => (step_cases hk h).1) kept_start as

/-- A run loses no descriptor, if and only if its calls have room for those they put aside. -/
theorem nothing_lost_iff (blocking : Bool) (as : List (action ι)) :
    Always (step blocking) Lossless (start ι) as ↔ Meets (step blocking) room (start ι) as := by
  apply always_iff_meets (P := fun w : World ι => Kept w ∧ Lossless w) (fun w hw => hw.2)
  · intro w a w' hw ha h
    obtain ⟨hk, hl, -⟩ := step_cases hw.1 h
    exact ⟨hk, hl hw.2 ha⟩
  · intro w a w' hw ha h hl
    obtain ⟨d, hd⟩ := (step_cases hw.1 h).2.2 ha
    exact hl d hd
  · refine ⟨kept_start, ?_⟩
    rintro d ⟨hin, hout, -⟩
    exact hout hin

end

end socle.descriptors
