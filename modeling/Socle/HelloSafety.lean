-- When the ClientHello parser ends, and when it stays in the buffer. Both hang
-- on the extensions that the walk comes to: a length of 65532 or more is no
-- step forward, and the texts of two extensions are copied unchecked.
import Socle.HelloWalk

namespace socle.hello

open lib.prog lib.bytes lib.loop

/-! ## The parser as a whole -/

/-- The state of the parser, also when it is not done. -/
def state_after (r : state ⊕ (Except exn Int × state)) : state :=
  r.elim (fun s => s) Prod.snd

/-- The loop of `parse_peer_hello` comes to `t`. -/
def Loops (b : peek) (elapsed : Int) (found : recorded) (flag : err_flags) (t : state) : Prop :=
  ∃ s, parse_peer_hello_head b elapsed (begin found flag) = (.ok .extensions, s) ∧
    Reach (ext_turn b) s t

section
variable {b : peek} {elapsed : Int} {found : recorded} {flag : err_flags}

variable (elapsed found flag) in
/-- A hello with extensions goes through the loop. -/
theorem parse_with_extensions (h : has_extensions b) :
    ∃ s, parse_peer_hello_head b elapsed (begin found flag) = (.ok .extensions, s) ∧
      s.curpos = extensions_at b + 2 ∧ s.ret = 1 ∧
      (∀ P, Steady b P → P (begin found flag) → P s) ∧
      ∀ fuel, parse_peer_hello b elapsed fuel found flag = finish (turns (ext_turn b) fuel s) := by
  obtain ⟨s, hs, hc, hr⟩ := head_extensions b elapsed (s := begin found flag) rfl h
  refine ⟨s, hs, hc, hr, ?_, ?_⟩
  · intro P hP hbegin
    have hsize : 34 ≤ b.size := by
      have hlt := h.2.2.2.1
      simp only [extensions_at, compression_at, ciphers_at] at hlt
      omega
    have hk := head_keeps hP elapsed hsize _ hbegin
    rwa [hs] at hk
  · intro fuel
    unfold parse_peer_hello
    rw [hs]

variable (elapsed found flag) in
/-- Without extensions, the parser is done before the loop. -/
theorem parse_without_extensions (h : ¬ has_extensions b) :
    ∃ r, ∀ fuel, parse_peer_hello b elapsed fuel found flag = .inr r := by
  have hne := head_no_extensions b elapsed (s := begin found flag) rfl h
  unfold parse_peer_hello
  rcases hrun : parse_peer_hello_head b elapsed (begin found flag) with ⟨r, s⟩
  rw [hrun] at hne
  cases r with
  | error e => exact ⟨_, fun _ => rfl⟩
  | ok r =>
    cases r with
    | returns ret => exact ⟨_, fun _ => rfl⟩
    | extensions => exact absurd rfl hne

theorem no_loop (h : ¬ has_extensions b) {t : state} : ¬ Loops b elapsed found flag t := by
  rintro ⟨s, hs, -⟩
  exact head_no_extensions b elapsed (s := begin found flag) rfl h (by rw [hs])

theorem catch_range_state (r : Except exn Int × state) :
    (catch_range r).2 = r.2 ∨ (catch_range r).2 = { r.2 with error_flag_ := .ERROR_UNSPEC } := by
  unfold catch_range
  split
  · exact Or.inr rfl
  · exact Or.inl rfl

variable (elapsed found flag) in
/-- The head leaves a steady property, also when it is all that the parser does. -/
theorem parse_keeps_without_extensions {P : state → Prop} (hP : Steady b P)
    (hflag : ∀ s f, P s → P { s with error_flag_ := f }) (hbegin : P (begin found flag))
    (h : ¬ has_extensions b) (fuel : Nat) :
    P (state_after (parse_peer_hello b elapsed fuel found flag)) := by
  have hhead : P (parse_peer_hello_head b elapsed (begin found flag)).2 := by
    by_cases hsize : 34 ≤ b.size
    · exact head_keeps hP elapsed hsize _ hbegin
    · unfold parse_peer_hello_head
      rw [if_neg hsize, update_bind, read_bind, run_pure]
      split
      · exact hflag _ _ hbegin
      · exact hbegin
  have hne := head_no_extensions b elapsed (s := begin found flag) rfl h
  unfold parse_peer_hello
  rcases hrun : parse_peer_hello_head b elapsed (begin found flag) with ⟨r, s⟩
  rw [hrun] at hne hhead
  cases r with
  | error e =>
    rcases catch_range_state (.error e, s) with heq | heq
    · simpa [state_after, heq] using hhead
    · simpa [state_after, heq] using hflag _ _ hhead
  | ok r =>
    cases r with
    | returns ret => exact hhead
    | extensions => exact absurd rfl hne

/-- What the parser gives does not hang on the number of turns. -/
theorem parse_unique {fuel fuel' : Nat} {r r' : Except exn Int × state}
    (h : parse_peer_hello b elapsed fuel found flag = .inr r)
    (h' : parse_peer_hello b elapsed fuel' found flag = .inr r') : r = r' := by
  by_cases hext : has_extensions b
  · obtain ⟨s, -, -, -, -, hparse⟩ := parse_with_extensions elapsed found flag hext
    rw [hparse] at h h'
    cases hrun : turns (ext_turn b) fuel s with
    | inl t =>
      rw [hrun] at h
      cases h
    | inr x =>
      cases hrun' : turns (ext_turn b) fuel' s with
      | inl t =>
        rw [hrun'] at h'
        cases h'
      | inr x' =>
        have hx : x = x' := stops_unique ⟨fuel, hrun⟩ ⟨fuel', hrun'⟩
        rw [hrun] at h
        rw [hrun', ← hx, h] at h'
        exact Sum.inr.inj h'
  · obtain ⟨x, hx⟩ := parse_without_extensions elapsed found flag hext
    rw [hx] at h h'
    exact (Sum.inr.inj h).symm.trans (Sum.inr.inj h')

/-- The parser returns when its loop stops. -/
theorem finish_returns {s : state} :
    (∃ fuel r, finish (turns (ext_turn b) fuel s) = .inr r) ↔ ∃ r, Stops (ext_turn b) s r := by
  constructor
  · rintro ⟨fuel, r, hf⟩
    cases hrun : turns (ext_turn b) fuel s with
    | inl t =>
      rw [hrun] at hf
      cases hf
    | inr r' => exact ⟨r', fuel, hrun⟩
  · rintro ⟨⟨r, t⟩, fuel, hf⟩
    refine ⟨fuel, ?_⟩
    rw [hf]
    cases r with
    | ok u => exact ⟨_, rfl⟩
    | error e => exact ⟨_, rfl⟩

end

/-! ## The end of the loop -/

/-- Each turn that goes on takes the cursor at least 4 bytes forward. -/
def Advances (b : peek) (elapsed : Int) (found : recorded) (flag : err_flags) : Prop :=
  ∀ t t', Loops b elapsed found flag t → ext_turn b t = .next t' → t.curpos + 4 ≤ t'.curpos

/-- `parse_peer_hello` returns. -/
def Returns (b : peek) (elapsed : Int) (found : recorded) (flag : err_flags) : Prop :=
  ∃ fuel r, parse_peer_hello b elapsed fuel found flag = .inr r

theorem visits_of_loops {b : peek} {elapsed : Int} {found : recorded} {flag : err_flags}
    {t : state} (h : Loops b elapsed found flag t) (hp : t.curpos + 4 < b.size) :
    Visits b t.curpos := by
  by_cases hext : has_extensions b
  · obtain ⟨s, hs, hr⟩ := h
    obtain ⟨s', hs', hc, -⟩ := parse_with_extensions elapsed found flag hext
    rw [hs] at hs'
    cases hs'
    refine ⟨hext, ?_, hp⟩
    rw [← hc]
    exact (loop_follows_walk b).reach hr
  · exact absurd h (no_loop hext)

theorem loops_of_visits {b : peek} {p : Nat} (h : Visits b p) (elapsed : Int) (found : recorded)
    (flag : err_flags) : ∃ t, Loops b elapsed found flag t ∧ t.curpos = p := by
  obtain ⟨hext, hr, -⟩ := h
  obtain ⟨s, hs, hc, -⟩ := parse_with_extensions elapsed found flag hext
  rw [← hc] at hr
  obtain ⟨t, ht, hp⟩ := (loop_follows_walk b).reach_back hr
  exact ⟨t, ⟨s, hs, ht⟩, hp⟩

section
variable {b : peek} {elapsed : Int} {found : recorded} {flag : err_flags}

theorem ext_length_lt (b : peek) (p : Nat) : ext_length b p < 65536 :=
  be16_lt _ _

theorem returns_iff_stops (h : has_extensions b) {s : state}
    (hs : parse_peer_hello_head b elapsed (begin found flag) = (.ok .extensions, s)) :
    Returns b elapsed found flag ↔ ∃ r, Stops (ext_turn b) s r := by
  obtain ⟨s', hs', -, -, -, hparse⟩ := parse_with_extensions elapsed found flag h
  rw [hs] at hs'
  cases hs'
  unfold Returns
  simp only [hparse]
  exact finish_returns

/-- A loop whose turns all go forward ends. -/
theorem returns_of_forward
    (hf : ∀ t t', Loops b elapsed found flag t → ext_turn b t = .next t' →
      t.curpos < t'.curpos) : Returns b elapsed found flag := by
  by_cases hext : has_extensions b
  · obtain ⟨s, hs, -⟩ := parse_with_extensions elapsed found flag hext
    rw [returns_iff_stops hext hs]
    refine stops_of_measure (fun t => b.size - t.curpos) ?_
    intro t t' hr hn
    have hlt := hf t t' ⟨s, hs, hr⟩ hn
    have hp := (ext_turn_cases hn).1
    omega
  · obtain ⟨r, hr⟩ := parse_without_extensions elapsed found flag hext
    exact ⟨0, r, hr 0⟩

/-- The parser returns unless it comes to an extension with the length 65532, which it never
leaves. -/
theorem returns_iff_never_stuck :
    Returns b elapsed found flag ↔
      ∀ p, Visits b p → readable b p → ext_length b p ≠ 65532 := by
  constructor
  · intro hret p hp hread hlen
    obtain ⟨t, ⟨s, hs, hr⟩, rfl⟩ := loops_of_visits hp elapsed found flag
    obtain ⟨r, hstop⟩ := (returns_iff_stops hp.1 hs).mp hret
    rw [stops_of_reach hr] at hstop
    -- from here on, each turn leaves the cursor where it is
    refine not_stops_of_forever (P := fun u => u.curpos = t.curpos) ?_ rfl r hstop
    intro u hu
    obtain ⟨u', hn, hc, -⟩ := ext_turn_next (b := b) (s := u) (by rw [hu]; exact hp.2.2)
      (by rw [hu]; exact hread)
    refine ⟨u', hn, ?_⟩
    rw [hc, hu, hlen]
    omega
  · intro h
    refine returns_of_forward fun t t' ht hn => ?_
    obtain ⟨hp, hread, hc, -⟩ := ext_turn_cases hn
    have hne := h _ (visits_of_loops ht hp) hread
    have hlt := ext_length_lt b t.curpos
    omega

/-- The loop goes 4 bytes forward unless it comes to a length of 65532 or more. -/
theorem advances_iff :
    Advances b elapsed found flag ↔
      ∀ p, Visits b p → readable b p → ext_length b p < 65532 := by
  constructor
  · intro hadv p hp hread
    obtain ⟨t, ht, rfl⟩ := loops_of_visits hp elapsed found flag
    obtain ⟨t', hn, hc, -⟩ := ext_turn_next hp.2.2 hread
    have h4 := hadv t t' ht hn
    have hlt := ext_length_lt b t.curpos
    omega
  · intro h t t' ht hn
    obtain ⟨hp, hread, hc, -⟩ := ext_turn_cases hn
    have hlt := h _ (visits_of_loops ht hp) hread
    omega

end

/-- Parsing ends, and each turn of its loop goes 4 bytes forward, when and only when no extension
that it comes to declares a length of 65532 or more. -/
theorem parsing_ends (b : peek) (elapsed : Int) (found : recorded) (flag : err_flags) :
    (Returns b elapsed found flag ∧ Advances b elapsed found flag) ↔
      ∀ p, Visits b p → readable b p → ext_length b p < 65532 := by
  constructor
  · rintro ⟨-, hadv⟩
    exact advances_iff.mp hadv
  · intro h
    refine ⟨returns_iff_never_stuck.mpr fun p hp hread => ?_, advances_iff.mpr h⟩
    exact Nat.ne_of_lt (h p hp hread)

/-- A hello of 57 bytes whose only extension declares a length of 65532. -/
def endless_bytes : List UInt8 :=
  [22, 3, 1, 0, 52, 1, 0, 0, 48, 3, 3] ++ List.replicate 32 7 ++
    [0, 0, 2, 19, 1, 1, 0, 0, 5, 18, 52, 255, 252, 0]

/-- A buffer that holds just these bytes, with zeros behind them. -/
def peek.of (l : List UInt8) (h : l.length < 2 ^ 31) : peek :=
  { mem := fun i => l.getD i 0, size := l.length, size_lt := h }

/-- The parser never returns from this hello. -/
theorem an_endless_hello :
    (peek.of endless_bytes (by decide)).size ≤ 1500 ∧
      ¬ (Returns (peek.of endless_bytes (by decide)) 0 {} .ERROR_NONE ∧
        Advances (peek.of endless_bytes (by decide)) 0 {} .ERROR_NONE) := by
  refine ⟨by decide, ?_⟩
  rintro ⟨hret, -⟩
  have hvisit : Visits (peek.of endless_bytes (by decide)) 52 := by
    refine ⟨?_, Relation.ReflTransGen.refl, by decide⟩
    unfold has_extensions
    decide
  exact returns_iff_never_stuck.mp hret 52 hvisit (by decide) (by decide)

/-! ## The bounds of the buffer -/

/-- A text on record is the one from before, or it was copied from inside the buffer. -/
def From (b : peek) (before now : List UInt8) : Prop :=
  now = before ∨ ∃ p n, p + n ≤ b.size ∧ now = slice b.mem p n

/-- All reads were in the buffer, and all that is on record comes from there. -/
structure Bounded (b : peek) (found : recorded) (s : state) : Prop where
  inside : Inside b s
  sni : From b found.sslcom_sni_ s.found.sslcom_sni_
  alpn : From b found.sslcom_peer_hello_alpn_ s.found.sslcom_peer_hello_alpn_
  id : From b found.sslcom_peer_hello_id_ s.found.sslcom_peer_hello_id_

theorem bounded_steady (b : peek) (found : recorded) : Steady b (Bounded b found) where
  note := fun _ _ _ hle h => ⟨(inside_of_le hle).mpr h.inside, h.sni, h.alpn, h.id⟩
  skip := fun _ _ h => ⟨h.inside, h.sni, h.alpn, h.id⟩
  ret := fun _ _ h => ⟨h.inside, h.sni, h.alpn, h.id⟩
  id := fun _ p n hle h => ⟨h.inside, h.sni, h.alpn, Or.inr ⟨p, n, hle, rfl⟩⟩

theorem bounded_begin (b : peek) (found : recorded) (flag : err_flags) :
    Bounded b found (begin found flag) := by
  refine ⟨?_, Or.inl rfl, Or.inl rfl, Or.inl rfl⟩
  intro r hr
  cases hr

/-- A turn over an extension whose text fits copies from inside the buffer. -/
theorem bounded_turn {b : peek} {found : recorded} {s s' : state} (h : Bounded b found s)
    (hn : ext_turn b s = .next s') (hfit : fits b s.curpos) : Bounded b found s' := by
  obtain ⟨-, -, -, hrec, -, hin⟩ := ext_turn_cases hn
  refine ⟨hin.mpr ⟨h.inside, hfit⟩, ?_, ?_, ?_⟩
  all_goals rw [hrec]; unfold record
  · by_cases hh : is_host b s.curpos
    · rw [if_pos hh]
      exact Or.inr ⟨_, _, hfit.1 hh, rfl⟩
    · rw [if_neg hh]
      split
      · exact h.sni
      · exact h.sni
  · by_cases hh : is_host b s.curpos
    · rw [if_pos hh]
      exact h.alpn
    · rw [if_neg hh]
      by_cases ha : is_alpn b s.curpos
      · rw [if_pos ha]
        exact Or.inr ⟨_, _, hfit.2 ha, rfl⟩
      · rw [if_neg ha]
        exact h.alpn
  · split
    · exact h.id
    · split
      · exact h.id
      · exact h.id

theorem bounded_same {b : peek} {found : recorded} {s s' : state} (h : Bounded b found s)
    (hf : s'.found = s.found) (hin : Inside b s' ↔ Inside b s) : Bounded b found s' :=
  ⟨hin.mpr h.inside, hf ▸ h.sni, hf ▸ h.alpn, hf ▸ h.id⟩

/-- The state behind the loop is that of the last turn, but for the error. -/
theorem finish_bounded {b : peek} {found : recorded} {s : state} {fuel : Nat}
    (h : ∀ t, Reach (ext_turn b) s t → Bounded b found t) :
    Bounded b found (state_after (finish (turns (ext_turn b) fuel s))) := by
  cases hrun : turns (ext_turn b) fuel s with
  | inl t => exact h t (reach_of_turns hrun)
  | inr r =>
    obtain ⟨t, ht, hd⟩ := stops_iff.mp ⟨fuel, hrun⟩
    obtain ⟨hf, -, hin, -⟩ := ext_turn_done hd
    have hr : Bounded b found r.2 := bounded_same (h t ht) hf hin
    obtain ⟨e, u⟩ := r
    cases e with
    | ok v => exact hr
    | error e =>
      have hflag : Bounded b found { u with error_flag_ := .ERROR_UNSPEC } :=
        bounded_same hr rfl Iff.rfl
      rcases catch_range_state (.error e, u) with heq | heq
      · simpa [finish, state_after, heq] using hr
      · simpa [finish, state_after, heq] using hflag

/-- The parser stays in the buffer when, and only when, the host name and the ALPN list of each
extension that it comes to end there. -/
theorem parsing_stays_in_the_buffer (b : peek) (elapsed : Int) (found : recorded)
    (flag : err_flags) :
    (∀ fuel, Bounded b found (state_after (parse_peer_hello b elapsed fuel found flag))) ↔
      ∀ p, Visits b p → readable b p → fits b p := by
  constructor
  · intro h p hp hread
    obtain ⟨t, ⟨s, hs, hr⟩, rfl⟩ := loops_of_visits hp elapsed found flag
    obtain ⟨t', hn, -, -, -, hin⟩ := ext_turn_next hp.2.2 hread
    obtain ⟨fuel, hf⟩ := turns_of_reach (Relation.ReflTransGen.tail hr hn)
    have hb := h fuel
    unfold parse_peer_hello at hb
    rw [hs] at hb
    simp only [hf, finish] at hb
    exact (hin.mp hb.inside).2
  · intro h fuel
    have hbegin := bounded_begin b found flag
    by_cases hext : has_extensions b
    · obtain ⟨s, hs, -, -, hk, hparse⟩ := parse_with_extensions elapsed found flag hext
      rw [hparse]
      refine finish_bounded fun t ht => ?_
      have hstart := hk _ (bounded_steady b found) hbegin
      induction ht with
      | refl => exact hstart
      | tail hr hn ih =>
        obtain ⟨hp, hread, -⟩ := ext_turn_cases hn
        exact bounded_turn ih hn (h _ (visits_of_loops ⟨s, hs, hr⟩ hp) hread)
    · refine parse_keeps_without_extensions _ _ _ (bounded_steady b found) ?_ hbegin hext fuel
      exact fun s f hs => bounded_same hs rfl Iff.rfl

/-- A hello of 61 bytes that declares a host name of 65535 bytes. -/
def overrun_bytes : List UInt8 :=
  [22, 3, 1, 0, 56, 1, 0, 0, 52, 3, 3] ++ List.replicate 32 7 ++
    [0, 0, 2, 19, 1, 1, 0, 0, 9, 0, 0, 0, 5, 0, 3, 0, 255, 255]

/-- 65535 bytes are copied to the host name from a buffer of 61 bytes. -/
theorem a_host_name_from_behind_the_buffer :
    (peek.of overrun_bytes (by decide)).size ≤ 1500 ∧
      ¬ ∀ fuel, Bounded (peek.of overrun_bytes (by decide)) {}
        (state_after
          (parse_peer_hello (peek.of overrun_bytes (by decide)) 0 fuel {} .ERROR_NONE)) := by
  refine ⟨by decide, fun h => ?_⟩
  have hread : (61, 65535) ∈ (state_after
      (parse_peer_hello (peek.of overrun_bytes (by decide)) 0 1 {} .ERROR_NONE)).reads := by
    decide
  have hle := (h 1).inside _ hread
  exact absurd hle (by decide)

end socle.hello
