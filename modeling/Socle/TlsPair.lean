-- The two coms of an intercepted connection (sslcom.tpp: bypass_me_and_peer).
-- Each reads and writes for itself, and the handshake of one of them may bypass
-- both. What was encrypted so far is not asked for.
import Mathlib.Tactic
import Socle.SslWrite

namespace socle.tls

open lib.run

inductive side
  | left | right
deriving DecidableEq, Repr

def side.peer : side → side
  | .left => .right
  | .right => .left

/-- `handshake` calls `bypass_me_and_peer`, and the peer is an SSLCom. -/
def bypasses_peer (i : inputs) (com : SSLCom) : Bool :=
  !com.bypass && com.sslcom_waiting && (com.sslcom_ssl || com.auto_upgrade_) && !com.is_server &&
    (handshake_peer_client i com).2.bypass

/-- The call does so. -/
def tls_action.bypasses_peer (s : tls_stream) : tls_action → Bool
  | .write peercom i _ =>
    !(s.stream.cx.write_waiting_for_peercom peercom).write_waiting_for_peercom_ &&
      tls.bypasses_peer i s.com.com
  | .read i _ _ => tls.bypasses_peer i s.com.com
  | .call _ | .bypassed => false

/-- Both contexts, with their coms. -/
abbrev pair := side → tls_stream

/-- A step of one side, and what it does to the other. Nobody else bypasses a com. -/
def pair.step (w : pair) : side × tls_action → Option pair
  | (_, .bypassed) => none
  | (x, a) => ((w x).step a).map fun s =>
      Function.update (Function.update w x s) x.peer
        (if a.bypasses_peer (w x) then (w x.peer).bypass else w x.peer)

/-- Nothing went through the coms so far, which may have begun their handshakes. -/
def pair.start (fds : side → Int) (coms : side → SSLCom) : pair :=
  fun x => tls_stream.start (fds x) (coms x)

/-! ## The law -/

/-- A com that used TLS is not bypassed, and nothing goes beside its TLS. -/
def Protected (s : tls_stream) : Prop :=
  s.used .ssl = true → s.com.com.bypass = false ∧ s.used .l4 = false

/-- A peer is bypassed only as long as nothing went through its TLS. -/
def InTime (w : pair) (a : side × tls_action) : Prop :=
  a.2.bypasses_peer (w a.1) = true → (w a.1.peer).used .ssl = false

/-! ## One step -/

theorem side.peer_ne (x : side) : x.peer ≠ x := by
  cases x <;> decide

theorem side.eq_or_peer (x y : side) : y = x ∨ y = x.peer := by
  cases x <;> cases y <;> decide

/-- What the step of a side is, on both sides. -/
theorem pair.step_cases {w w' : pair} {x : side} {a : tls_action} (h : w.step (x, a) = some w') :
    a ≠ .bypassed ∧ (w x).step a = some (w' x) ∧
      w' x.peer = if a.bypasses_peer (w x) then (w x.peer).bypass else w x.peer := by
  have hmap : a ≠ .bypassed ∧ ((w x).step a).map (fun s =>
      Function.update (Function.update w x s) x.peer
        (if a.bypasses_peer (w x) then (w x.peer).bypass else w x.peer)) = some w' := by
    cases a with
    | bypassed => cases h
    | _ => exact ⟨by simp, h⟩
  obtain ⟨hne, hmap⟩ := hmap
  obtain ⟨s, hs, rfl⟩ := Option.map_eq_some_iff.mp hmap
  refine ⟨hne, ?_, by simp⟩
  rw [Function.update_of_ne x.peer_ne.symm, Function.update_self]
  exact hs

/-- What a side does to itself: no com that is settled changes its layer, and TLS is only used by
a com that is settled. -/
structure Stepped (s s' : tls_stream) : Prop where
  same : Settled s.com.com → Same s.com.com s'.com.com
  ssl : s'.used .ssl = true →
    s.used .ssl = true ∨ (s.com.com.bypass = false ∧ s.com.com.sslcom_waiting = false)

section
variable {s s' : tls_stream}

theorem stepped_write {peercom : Option Bool} {i : inputs} {e : write_inputs}
    (hs : s.write peercom i e = some s') : Stepped s s' := by
  unfold tls_stream.write at hs
  simp only [offer_writebuf] at hs
  split at hs
  · obtain ⟨st, -, rfl⟩ := Option.map_eq_some_iff.mp hs
    exact ⟨fun _ => Same.refl _, Or.inl⟩
  · obtain ⟨st, -, rfl⟩ := Option.map_eq_some_iff.mp hs
    refine ⟨write_same, fun hused => ?_⟩
    have hwrote : Wrote s.com.com s.stream.cx.writebuf_ _ _ _ :=
      write_wrote (i := i) (e := e) (c := s.com)
    generalize s.com.write i e s.stream.cx.writebuf_ = r at hused hwrote
    obtain ⟨l, t, com⟩ := r
    simp only at hused hwrote
    cases hwrote with
    | beside hbypass hl =>
      left
      simpa [tls_stream.used] using hused
    | nothing hl =>
      left
      simpa [tls_stream.used] using hused
    | carried hbypass hwaiting hne hl hle => exact Or.inr ⟨hbypass, hwaiting⟩

theorem stepped_read {i : inputs} {e : ssl_inputs} {n : Nat} (hs : s.read i e n = some s') :
    Stepped s s' := by
  obtain ⟨r, hr, rfl⟩ := Option.map_eq_some_iff.mp hs
  obtain ⟨hsame, -, hssl⟩ := read_spec hr
  refine ⟨hsame, fun hused => ?_⟩
  rcases used_read hused with hbefore | hlayer
  · exact Or.inl hbefore
  · exact Or.inr (hssl hlayer)

theorem stepped {a : tls_action} (ha : a ≠ .bypassed) (hs : s.step a = some s') : Stepped s s' := by
  cases a with
  | call c =>
    obtain ⟨-, st, -, rfl⟩ := call_cases hs
    exact ⟨fun _ => Same.refl _, Or.inl⟩
  | write peercom i e => exact stepped_write hs
  | read i e n => exact stepped_read hs
  | bypassed => exact absurd rfl ha

/-- A com does not bypass itself once it used TLS. -/
theorem Stepped.kept (h : Stepped s s') (hinv : CarriedInv s) (hinv' : CarriedInv s')
    (hp : Protected s) : Protected s' := by
  intro hused
  have hsettled : s.com.com.bypass = false ∧ s.com.com.sslcom_waiting = false := by
    rcases h.ssl hused with hold | hnow
    · exact ⟨(hp hold).1, hinv.settled hold⟩
    · exact hnow
  have hbypass : s'.com.com.bypass = false :=
    (h.same (Or.inr hsettled.2)).bypass.trans hsettled.1
  refine ⟨hbypass, ?_⟩
  by_contra hl4
  have htrue := hinv'.beside (by simpa using hl4)
  rw [hbypass] at htrue
  cases htrue

end

/-! ## Each run -/

section
variable {w w' : pair}

theorem carried_step {a : side × tls_action} (h : ∀ x, CarriedInv (w x)) (hs : w.step a = some w') :
    ∀ x, CarriedInv (w' x) := by
  obtain ⟨x, a⟩ := a
  obtain ⟨-, hown, hpeer⟩ := pair.step_cases hs
  intro y
  rcases side.eq_or_peer x y with rfl | rfl
  · exact (h y).step hown
  · rw [hpeer]
    split
    · exact (h _).bypass
    · exact h _

theorem protected_step {a : side × tls_action} (hinv : ∀ x, CarriedInv (w x))
    (hp : ∀ x, Protected (w x)) (ha : InTime w a) (hs : w.step a = some w') :
    ∀ x, Protected (w' x) := by
  have hinv' := carried_step hinv hs
  obtain ⟨x, a⟩ := a
  obtain ⟨hne, hown, hpeer⟩ := pair.step_cases hs
  intro y
  rcases side.eq_or_peer x y with rfl | rfl
  · exact (stepped hne hown).kept (hinv y) (hinv' y) (hp y)
  · rw [hpeer]
    split
    · next hbypasses =>
      -- nothing went through the peer's TLS
      intro hused
      have hunused := ha hbypasses
      rw [show (w x.peer).used .ssl = true from hused] at hunused
      cases hunused
    · exact hp _

/-- A peer that is bypassed too late is not protected. -/
theorem late_step {a : side × tls_action} (ha : ¬ InTime w a) (hs : w.step a = some w') :
    ¬ ∀ x, Protected (w' x) := by
  obtain ⟨x, a⟩ := a
  obtain ⟨-, -, hpeer⟩ := pair.step_cases hs
  simp only [InTime, Classical.not_imp, Bool.not_eq_false] at ha
  obtain ⟨hbypasses, hused⟩ := ha
  rw [if_pos hbypasses] at hpeer
  intro hall
  have hlate := hall x.peer
  rw [hpeer] at hlate
  have hfalse := (hlate hused).1
  cases hfalse

end

/-- In each run, on both sides: what the context counts as written is what TLS and then the com
below took of what was given, in order, and what `SSL_write` did not take is offered to it again, in
chunks that do not get shorter. -/
theorem writes_are_carried (fds : side → Int) (coms : side → SSLCom)
    (as : List (side × tls_action)) :
    Always pair.step (fun w => ∀ x, Carried (w x)) (pair.start fds coms) as :=
  (always_of_step (fun _ _ _ => carried_step) (fun _ => start_carried _ _) as).mono
    fun _ h x => (h x).carried

/-- In each run, on both sides: a com that used TLS is never bypassed, and nothing goes beside its
TLS, if and only if no handshake bypasses a peer that used its TLS before. -/
theorem never_beside_tls_iff (fds : side → Int) (coms : side → SSLCom)
    (as : List (side × tls_action)) :
    Always pair.step (fun w => ∀ x, Protected (w x)) (pair.start fds coms) as ↔
      Meets pair.step InTime (pair.start fds coms) as := by
  have hstart : ∀ x, Protected (pair.start fds coms x) := fun _ hused => by cases hused
  exact always_iff_meets (P := fun w : pair => (∀ x, CarriedInv (w x)) ∧ ∀ x, Protected (w x))
    (fun _ h => h.2)
    (fun _ _ _ h ha hs => ⟨carried_step h.1 hs, protected_step h.1 h.2 ha hs⟩)
    (fun _ _ _ _ => late_step) ⟨fun _ => start_carried _ _, hstart⟩ as

end socle.tls
