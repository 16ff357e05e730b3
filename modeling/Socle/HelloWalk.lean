-- The way of the parser through the extensions, as a walk over the positions
-- of their headers. The walk is a function of the peeked bytes alone, and the
-- loop of the parser follows it step by step.
import Socle.ClientHello

namespace socle.hello

open lib.prog lib.bytes lib.loop

/-! ## The bytes that decide the way -/

/-- Where the length of the ciphers stands. -/
def ciphers_at (b : peek) : Nat :=
  44 + (b.mem 43).toNat

/-- Where the length of the compression methods stands. -/
def compression_at (b : peek) : Nat :=
  ciphers_at b + 2 + be16 (b.mem (ciphers_at b)) (b.mem (ciphers_at b + 1))

/-- Where the length of the extensions stands. -/
def extensions_at (b : peek) : Nat :=
  compression_at b + 1 + (b.mem (compression_at b)).toNat

/-- The length of the extensions. -/
def extensions_length (b : peek) : Nat :=
  be16 (b.mem (extensions_at b)) (b.mem (extensions_at b + 1))

/-- The bytes are those of a ClientHello whose extensions the parser goes through. -/
def has_extensions (b : peek) : Prop :=
  b.mem 0 = 22 ∧ b.mem 1 = 3 ∧ b.mem 5 = 1 ∧ extensions_at b + 2 < b.size ∧
    0 < extensions_length b ∧ extensions_at b + 2 + extensions_length b ≤ b.size

/-- The id of the extension at `p`. -/
def ext_id (b : peek) (p : Nat) : Nat :=
  be16 (b.mem p) (b.mem (p + 1))

/-- The length that the extension at `p` declares. -/
def ext_length (b : peek) (p : Nat) : Nat :=
  be16 (b.mem (p + 2)) (b.mem (p + 3))

/-- The extension at `p` is a server name, and its first name is a host name. -/
def is_host (b : peek) (p : Nat) : Prop :=
  ext_id b p = 0 ∧ b.mem (p + 6) = 0

/-- The extension at `p` is an ALPN list. -/
def is_alpn (b : peek) (p : Nat) : Prop :=
  ext_id b p = 16

/-- The length of the host name at `p`. -/
def host_length (b : peek) (p : Nat) : Nat :=
  be16 (b.mem (p + 7)) (b.mem (p + 8))

/-- The length of the ALPN list at `p`. -/
def alpn_length (b : peek) (p : Nat) : Nat :=
  be16 (b.mem (p + 4)) (b.mem (p + 5))

instance (b : peek) (p : Nat) : Decidable (is_host b p) :=
  inferInstanceAs (Decidable (_ ∧ _))

instance (b : peek) (p : Nat) : Decidable (is_alpn b p) :=
  inferInstanceAs (Decidable (_ = _))

/-- The numbers that the parser reads of the extension at `p` lie in the buffer. -/
def readable (b : peek) (p : Nat) : Prop :=
  p + 4 ≤ b.size ∧ (ext_id b p = 0 → p + 7 ≤ b.size) ∧ (is_host b p → p + 9 ≤ b.size) ∧
    (is_alpn b p → p + 6 ≤ b.size)

instance (b : peek) (p : Nat) : Decidable (readable b p) :=
  inferInstanceAs (Decidable (_ ∧ _))

/-- The text that the parser copies from the extension at `p` lies in the buffer. -/
def fits (b : peek) (p : Nat) : Prop :=
  (is_host b p → p + 9 + host_length b p ≤ b.size) ∧
    (is_alpn b p → p + 6 + alpn_length b p ≤ b.size)

/-- What is on record after the extension at `p`. -/
def record (b : peek) (p : Nat) (r : recorded) : recorded :=
  if is_host b p then { r with sslcom_sni_ := slice b.mem (p + 9) (host_length b p) }
  else if is_alpn b p then
    { r with sslcom_peer_hello_alpn_ := slice b.mem (p + 6) (alpn_length b p) }
  else r

/-- The walk: from one header to the next by the declared length, in 16 bits. -/
def walk (b : peek) (p : Nat) : Turn Nat Unit :=
  if p + 4 < b.size ∧ readable b p then .next (p + (ext_length b p + 4) % 65536) else .done ()

/-- The walk through the extensions comes to the header at `p`. -/
def Visits (b : peek) (p : Nat) : Prop :=
  has_extensions b ∧ Reach (walk b) (extensions_at b + 2) p ∧ p + 4 < b.size

/-! ## Running the parser's steps -/

/-- Every read so far was in the buffer. -/
def Inside (b : peek) (s : state) : Prop :=
  ∀ r ∈ s.reads, r.1 + r.2 ≤ b.size

theorem inside_note {b : peek} {s : state} {p n : Nat} :
    Inside b (s.note p n) ↔ p + n ≤ b.size ∧ Inside b s := by
  simp [Inside]

theorem inside_of_le {b : peek} {s : state} {p n : Nat} (h : p + n ≤ b.size) :
    Inside b (s.note p n) ↔ Inside b s := by
  simp [inside_note, h]

theorem get_u8_bind {α : Type} (b : peek) (idx : Nat) (f : UInt8 → Parse α) (s : state) :
    (b.get_u8 idx >>= f) s =
      if idx + 1 > b.size then (.error .out_of_range, s) else f (b.mem idx) (s.note idx 1) := by
  by_cases h : idx + 1 > b.size
  · rw [if_pos h]
    exact bind_error (by simp [peek.get_u8, h])
  · rw [if_neg h]
    exact bind_ok (by simp [peek.get_u8, h])

theorem get_u16_bind {α : Type} (b : peek) (idx : Nat) (f : Nat → Parse α) (s : state) :
    (b.get_u16 idx >>= f) s =
      if idx + 2 > b.size then (.error .out_of_range, s)
      else f (be16 (b.mem idx) (b.mem (idx + 1))) (s.note idx 2) := by
  by_cases h : idx + 2 > b.size
  · rw [if_pos h]
    exact bind_error (by simp [peek.get_u16, h])
  · rw [if_neg h]
    exact bind_ok (by simp [peek.get_u16, h])

theorem append_bind {α : Type} (b : peek) (pos len : Nat) (f : List UInt8 → Parse α) (s : state) :
    (b.append pos len >>= f) s = f (slice b.mem pos len) (s.note pos len) :=
  rfl

/-- `parse_peer_hello_extensions` on an extension whose numbers lie in the buffer. -/
theorem extensions_ok {b : peek} {p : Nat} (h : readable b p) (s : state) :
    ∃ s', parse_peer_hello_extensions b p s = (.ok ((ext_length b p + 4) % 65536), s') ∧
      s'.curpos = s.curpos ∧ s'.found = record b p s.found ∧ s'.ret = s.ret ∧
      s'.error_flag_ = s.error_flag_ ∧ (Inside b s' ↔ Inside b s ∧ fits b p) := by
  obtain ⟨h4, h7, h9, h6⟩ := h
  unfold parse_peer_hello_extensions
  rw [get_u16_bind, if_neg (by omega), get_u16_bind, if_neg (by omega)]
  by_cases hid : be16 (b.mem p) (b.mem (p + 1)) = 0
  · have hnot : ¬ is_alpn b p := by simp [is_alpn, ext_id, hid]
    have h7 := h7 hid
    rw [if_pos hid, get_u16_bind, if_neg (by omega), get_u8_bind, if_neg (by omega)]
    by_cases htype : b.mem (p + 6) = 0
    · have hhost : is_host b p := ⟨hid, htype⟩
      have h9 := h9 hhost
      rw [if_pos htype, get_u16_bind, if_neg (by omega), append_bind, update_bind]
      refine ⟨_, rfl, rfl, by rw [record, if_pos hhost]; rfl, rfl, rfl, ?_⟩
      change Inside b (((((((s.note p 2).note (p + 2) 2).note (p + 4) 2).note (p + 6) 1).note
        (p + 7) 2).note (p + 9) (host_length b p))) ↔ _
      rw [inside_note]
      simp (disch := omega) only [inside_of_le]
      simp [fits, hhost, hnot, and_comm]
    · have hhost : ¬ is_host b p := fun h => htype h.2
      rw [if_neg htype]
      refine ⟨_, rfl, rfl, by rw [record, if_neg hhost, if_neg hnot]; rfl, rfl, rfl, ?_⟩
      simp (disch := omega) only [inside_of_le]
      simp [fits, hhost, hnot]
  · have hhost : ¬ is_host b p := fun h => hid h.1
    rw [if_neg hid]
    by_cases halpn : be16 (b.mem p) (b.mem (p + 1)) = 16
    · have ha : is_alpn b p := halpn
      have h6 := h6 ha
      rw [if_pos halpn, get_u16_bind, if_neg (by omega), append_bind, update_bind]
      refine ⟨_, rfl, rfl, by rw [record, if_neg hhost, if_pos ha]; rfl, rfl, rfl, ?_⟩
      change Inside b ((((s.note p 2).note (p + 2) 2).note (p + 4) 2).note
        (p + 6) (alpn_length b p)) ↔ _
      rw [inside_note]
      simp (disch := omega) only [inside_of_le]
      simp [fits, hhost, ha, and_comm]
    · have ha : ¬ is_alpn b p := halpn
      rw [if_neg halpn]
      refine ⟨_, rfl, rfl, by rw [record, if_neg hhost, if_neg ha]; rfl, rfl, rfl, ?_⟩
      simp (disch := omega) only [inside_of_le]
      simp [fits, hhost, ha]

/-- `parse_peer_hello_extensions` on an extension that ends too early. -/
theorem extensions_cut {b : peek} {p : Nat} (hp : p + 4 ≤ b.size) (h : ¬ readable b p)
    (s : state) :
    ∃ s', parse_peer_hello_extensions b p s = (.error .out_of_range, s') ∧
      s'.found = s.found ∧ s'.ret = s.ret ∧ (Inside b s' ↔ Inside b s) := by
  unfold parse_peer_hello_extensions
  rw [get_u16_bind, if_neg (by omega), get_u16_bind, if_neg (by omega)]
  by_cases hid : be16 (b.mem p) (b.mem (p + 1)) = 0
  · have hnot : ¬ is_alpn b p := by simp [is_alpn, ext_id, hid]
    rw [if_pos hid, get_u16_bind]
    by_cases h6 : p + 4 + 2 > b.size
    · rw [if_pos h6]
      exact ⟨_, rfl, rfl, rfl, by simp (disch := omega) only [inside_of_le]⟩
    rw [if_neg h6, get_u8_bind]
    by_cases h7 : p + 6 + 1 > b.size
    · rw [if_pos h7]
      exact ⟨_, rfl, rfl, rfl, by simp (disch := omega) only [inside_of_le]⟩
    rw [if_neg h7]
    by_cases htype : b.mem (p + 6) = 0
    · rw [if_pos htype, get_u16_bind]
      by_cases h9 : p + 7 + 2 > b.size
      · rw [if_pos h9]
        exact ⟨_, rfl, rfl, rfl, by simp (disch := omega) only [inside_of_le]⟩
      · exact absurd ⟨hp, fun _ => by omega, fun _ => by omega, fun ha => absurd ha hnot⟩ h
    · have hhost : ¬ is_host b p := fun h => htype h.2
      exact absurd ⟨hp, fun _ => by omega, fun hh => absurd hh hhost, fun ha => absurd ha hnot⟩ h
  · have hhost : ¬ is_host b p := fun h => hid h.1
    rw [if_neg hid]
    by_cases halpn : be16 (b.mem p) (b.mem (p + 1)) = 16
    · rw [if_pos halpn, get_u16_bind]
      by_cases h6 : p + 4 + 2 > b.size
      · rw [if_pos h6]
        exact ⟨_, rfl, rfl, rfl, by simp (disch := omega) only [inside_of_le]⟩
      · exact absurd ⟨hp, fun h0 => absurd h0 hid, fun hh => absurd hh hhost,
          fun _ => by omega⟩ h
    · exact absurd ⟨hp, fun h0 => absurd h0 hid, fun hh => absurd hh hhost,
        fun ha => absurd ha halpn⟩ h

/-! ## The loop follows the walk -/

theorem ext_turn_next {b : peek} {s : state} (hp : s.curpos + 4 < b.size)
    (h : readable b s.curpos) :
    ∃ s', ext_turn b s = .next s' ∧
      s'.curpos = s.curpos + (ext_length b s.curpos + 4) % 65536 ∧
      s'.found = record b s.curpos s.found ∧ s'.ret = s.ret ∧
      (Inside b s' ↔ Inside b s ∧ fits b s.curpos) := by
  obtain ⟨s', heq, hc, hf, hr, -, hin⟩ := extensions_ok h s
  unfold ext_turn
  rw [if_pos hp, heq]
  exact ⟨_, rfl, by rw [state.skip_curpos, hc], hf, hr, hin⟩

theorem ext_turn_cut {b : peek} {s : state} (hp : s.curpos + 4 < b.size)
    (h : ¬ readable b s.curpos) :
    ∃ s', ext_turn b s = .done (.error .out_of_range, s') ∧ s'.found = s.found ∧
      s'.ret = s.ret ∧ (Inside b s' ↔ Inside b s) := by
  obtain ⟨s', heq, hf, hr, hin⟩ := extensions_cut (by omega) h s
  unfold ext_turn
  rw [if_pos hp, heq]
  exact ⟨s', rfl, hf, hr, hin⟩

theorem ext_turn_end {b : peek} {s : state} (hp : ¬ s.curpos + 4 < b.size) :
    ext_turn b s = .done (.ok (), s) := by
  unfold ext_turn
  rw [if_neg hp]

/-- What a turn of the loop that goes on did. -/
theorem ext_turn_cases {b : peek} {s s' : state} (h : ext_turn b s = .next s') :
    s.curpos + 4 < b.size ∧ readable b s.curpos ∧
      s'.curpos = s.curpos + (ext_length b s.curpos + 4) % 65536 ∧
      s'.found = record b s.curpos s.found ∧ s'.ret = s.ret ∧
      (Inside b s' ↔ Inside b s ∧ fits b s.curpos) := by
  by_cases hp : s.curpos + 4 < b.size
  · by_cases hr : readable b s.curpos
    · obtain ⟨t, heq, hrest⟩ := ext_turn_next hp hr
      rw [h] at heq
      cases heq
      exact ⟨hp, hr, hrest⟩
    · obtain ⟨t, heq, -⟩ := ext_turn_cut hp hr
      rw [h] at heq
      cases heq
  · rw [ext_turn_end hp] at h
    cases h

/-- What the last turn of the loop did. -/
theorem ext_turn_done {b : peek} {s : state} {r : Except exn Unit × state}
    (h : ext_turn b s = .done r) :
    r.2.found = s.found ∧ r.2.ret = s.ret ∧ (Inside b r.2 ↔ Inside b s) ∧
      r.1 ≠ .error .SSL_clienthello_malformed := by
  by_cases hp : s.curpos + 4 < b.size
  · by_cases hr : readable b s.curpos
    · obtain ⟨t, heq, -⟩ := ext_turn_next hp hr
      rw [h] at heq
      cases heq
    · obtain ⟨t, heq, hf, hret, hin⟩ := ext_turn_cut hp hr
      rw [h] at heq
      cases heq
      exact ⟨hf, hret, hin, by simp⟩
  · rw [ext_turn_end hp] at h
    cases h
    exact ⟨rfl, rfl, Iff.rfl, by simp⟩

/-- The position of the loop takes the walk. -/
theorem loop_follows_walk (b : peek) : Follows (ext_turn b) (walk b) state.curpos where
  next := by
    intro s s' h
    obtain ⟨hp, hr, hc, -⟩ := ext_turn_cases h
    unfold walk
    rw [if_pos ⟨hp, hr⟩, hc]
  done := by
    intro s r h
    refine ⟨(), ?_⟩
    unfold walk
    rw [if_neg]
    rintro ⟨hp, hr⟩
    obtain ⟨t, heq, -⟩ := ext_turn_next hp hr
    rw [h] at heq
    cases heq

/-! ## The way to the extensions -/

/-- What a read leaves as it was: all but the cursor and the notes. -/
structure Frame (s t : state) : Prop where
  ret : t.ret = s.ret
  found : t.found = s.found
  error_flag_ : t.error_flag_ = s.error_flag_

theorem Frame.refl {s : state} : Frame s s :=
  ⟨rfl, rfl, rfl⟩

theorem Frame.trans {s t u : state} (h : Frame s t) (h' : Frame t u) : Frame s u :=
  ⟨h'.ret.trans h.ret, h'.found.trans h.found, h'.error_flag_.trans h.error_flag_⟩

section
variable {α : Type} {b : peek} {s : state} {p : Nat}

theorem next_u8_ok (hs : s.curpos = p) (h : p + 1 ≤ b.size) (step : Nat) (f : UInt8 → Parse α) :
    ∃ t, (b.next_u8 step >>= f) s = f (b.mem p) t ∧ t.curpos = p + step ∧ Frame s t := by
  have hin : ¬ p + 1 > b.size := by omega
  refine ⟨(s.note p 1).skip step, bind_ok ?_, by simp [hs], ⟨rfl, rfl, rfl⟩⟩
  rw [peek.next_u8, read_bind, hs, get_u8_bind, if_neg hin]
  rfl

theorem next_u8_short (hs : s.curpos = p) (h : b.size < p + 1) (step : Nat)
    (f : UInt8 → Parse α) : (b.next_u8 step >>= f) s = (.error .out_of_range, s) :=
  bind_error (by simp [peek.next_u8, get_u8_bind, hs, h])

theorem next_u16_run (hs : s.curpos = p) (h : p + 2 ≤ b.size) :
    ∃ t, b.next_u16 s = (.ok (be16 (b.mem p) (b.mem (p + 1))), t) ∧ t.curpos = p + 2 ∧
      Frame s t := by
  refine ⟨(s.note p 2).skip 2, ?_, by simp [hs], ⟨rfl, rfl, rfl⟩⟩
  simp [peek.next_u16, get_u16_bind, h, hs]

theorem next_u16_ok (hs : s.curpos = p) (h : p + 2 ≤ b.size) (f : Nat → Parse α) :
    ∃ t, (b.next_u16 >>= f) s = f (be16 (b.mem p) (b.mem (p + 1))) t ∧ t.curpos = p + 2 ∧
      Frame s t := by
  obtain ⟨t, ht, hc, hr⟩ := next_u16_run hs h
  exact ⟨t, bind_ok ht, hc, hr⟩

theorem next_u16_short (hs : s.curpos = p) (h : b.size < p + 2) (f : Nat → Parse α) :
    (b.next_u16 >>= f) s = (.error .out_of_range, s) :=
  bind_error (by simp [peek.next_u16, get_u16_bind, hs, h])

end

theorem skip_block_run (b : peek) (len : Nat) (s : state) :
    b.skip_block len s =
      if s.curpos + len > b.size then (.error .SSL_clienthello_malformed, s)
      else (.ok (), s.skip len) := by
  by_cases h : s.curpos + len > b.size <;> simp [peek.skip_block, h]

theorem skip_block_bind {α : Type} (b : peek) (len : Nat) (f : Unit → Parse α) (s : state) :
    (b.skip_block len >>= f) s =
      if s.curpos + len > b.size then (.error .SSL_clienthello_malformed, s)
      else f () (s.skip len) := by
  by_cases h : s.curpos + len > b.size
  · rw [if_pos h]
    exact bind_error (by rw [skip_block_run, if_pos h])
  · rw [if_neg h]
    exact bind_ok (by rw [skip_block_run, if_neg h])

theorem view_bind {α : Type} (b : peek) (pos len : Nat) (f : List UInt8 → Parse α) (s : state) :
    (b.view pos len >>= f) s =
      if pos < b.size then
        f (slice b.mem pos (if pos + len ≤ b.size then len else b.size - pos))
          (s.note pos (if pos + len ≤ b.size then len else b.size - pos))
      else (.error .out_of_range, s) := by
  by_cases h : pos < b.size
  · rw [if_pos h]
    exact bind_ok (by simp [peek.view, h])
  · rw [if_neg h]
    exact bind_error (by simp [peek.view, h])

/-- The session id ends behind its declared length, or begins behind the buffer. -/
theorem read_session_id_run (b : peek) (n : Nat) (s : state) :
    (∃ s', read_session_id b n s = (.ok (), s') ∧ s'.curpos = s.curpos + n ∧ s'.ret = s.ret) ∨
    (read_session_id b n s = (.error .out_of_range, s) ∧ b.size ≤ s.curpos ∧ 0 < n) := by
  unfold read_session_id
  by_cases hn : n > 0
  · rw [if_pos hn, read_bind, view_bind]
    by_cases hp : s.curpos < b.size
    · rw [if_pos hp]
      exact Or.inl ⟨_, rfl, rfl, rfl⟩
    · rw [if_neg hp]
      exact Or.inr ⟨rfl, by omega, hn⟩
  · rw [if_neg hn]
    exact Or.inl ⟨s, rfl, by omega, rfl⟩

/-- The part of the inner `try` block behind the session id. -/
theorem parse_lists_run (b : peek) {s : state} (hs : s.curpos = ciphers_at b) :
    let lists : Parse Unit := do
      let ciphers_length ← b.next_u16
      b.skip_block ciphers_length
      let compression_length ← b.next_u8 1
      b.skip_block compression_length.toNat
    (∃ s', lists s = (.ok (), s') ∧ s'.curpos = extensions_at b ∧
      extensions_at b ≤ b.size ∧ s'.ret = s.ret) ∨
    (∃ s', lists s = (.error .out_of_range, s') ∧ b.size < s'.curpos + 2 ∧
      b.size < extensions_at b ∧ s'.ret = s.ret) ∨
    (∃ s', lists s = (.error .SSL_clienthello_malformed, s') ∧ b.size < extensions_at b) := by
  intro lists
  have hcomp : ciphers_at b + 2 ≤ compression_at b := Nat.le_add_right _ _
  have hext : compression_at b + 1 ≤ extensions_at b := Nat.le_add_right _ _
  simp only [lists]
  by_cases h1 : b.size < ciphers_at b + 2
  · rw [next_u16_short hs h1]
    exact Or.inr (Or.inl ⟨s, rfl, by omega, by omega, rfl⟩)
  obtain ⟨t, ht, hc, hr⟩ := next_u16_ok (b := b) hs (by omega) fun ciphers_length => do
    b.skip_block ciphers_length
    let compression_length ← b.next_u8 1
    b.skip_block compression_length.toNat
  rw [ht, skip_block_bind, hc]
  by_cases h2 : ciphers_at b + 2 + be16 (b.mem (ciphers_at b)) (b.mem (ciphers_at b + 1)) > b.size
  · rw [if_pos h2]
    have h2 : compression_at b > b.size := h2
    exact Or.inr (Or.inr ⟨_, rfl, by omega⟩)
  rw [if_neg h2]
  -- the cursor is at the compression methods now
  generalize hu : t.skip (be16 (b.mem (ciphers_at b)) (b.mem (ciphers_at b + 1))) = u
  have hcur : u.curpos = compression_at b := by rw [← hu, state.skip_curpos, hc, compression_at]
  have hret : u.ret = s.ret := by rw [← hu, state.skip_ret, hr.ret]
  by_cases h3 : b.size < compression_at b + 1
  · rw [next_u8_short hcur h3]
    exact Or.inr (Or.inl ⟨u, rfl, by omega, by omega, hret⟩)
  obtain ⟨v, hv, hc', hr'⟩ := next_u8_ok (b := b) hcur (by omega) 1
    fun compression_length => b.skip_block compression_length.toNat
  rw [hv, skip_block_run, hc']
  by_cases h4 : compression_at b + 1 + (b.mem (compression_at b)).toNat > b.size
  · rw [if_pos h4]
    exact Or.inr (Or.inr ⟨_, rfl, h4⟩)
  · rw [if_neg h4]
    exact Or.inl ⟨_, rfl, by rw [state.skip_curpos, hc', extensions_at], Nat.le_of_not_gt h4,
      by rw [state.skip_ret, hr'.ret, hret]⟩

/-- The inner `try` block comes to the extensions, or it throws because they begin behind the
end of the buffer. When it throws `out_of_range`, the cursor has no room for a length. -/
theorem parse_handshake_run (b : peek) {s : state} (hs : s.curpos = 7) :
    (∃ s', parse_handshake b s = (.ok (), s') ∧ s'.curpos = extensions_at b ∧
      extensions_at b ≤ b.size ∧ s'.ret = 1) ∨
    (∃ s', parse_handshake b s = (.error .out_of_range, s') ∧ b.size < s'.curpos + 2 ∧
      b.size < extensions_at b ∧ (44 ≤ b.size → s'.ret = 1) ∧
      (b.size < 44 → 12 ≤ b.size → s'.curpos = 43 ∧ Frame s s')) ∨
    (∃ s', parse_handshake b s = (.error .SSL_clienthello_malformed, s') ∧
      b.size < extensions_at b ∧ 44 ≤ b.size) := by
  have hciph : 44 ≤ ciphers_at b := Nat.le_add_right _ _
  have hcomp : ciphers_at b + 2 ≤ compression_at b := Nat.le_add_right _ _
  have hext : compression_at b + 1 ≤ extensions_at b := Nat.le_add_right _ _
  unfold parse_handshake
  by_cases h1 : b.size < 7 + 2
  · rw [next_u16_short hs h1]
    exact Or.inr (Or.inl ⟨s, rfl, by omega, by omega, by omega, by omega⟩)
  obtain ⟨s1, e1, hs1, f1⟩ := next_u16_ok (b := b) hs (by omega) _
  rw [e1]
  by_cases h2 : b.size < 7 + 2 + 1
  · rw [next_u8_short hs1 h2]
    exact Or.inr (Or.inl ⟨s1, rfl, by omega, by omega, by omega, by omega⟩)
  obtain ⟨s2, e2, hs2, f2⟩ := next_u8_ok (b := b) hs1 (by omega) 1 _
  rw [e2]
  by_cases h3 : b.size < 7 + 2 + 1 + 1
  · rw [next_u8_short hs2 h3]
    exact Or.inr (Or.inl ⟨s2, rfl, by omega, by omega, by omega, by omega⟩)
  obtain ⟨s3, e3, hs3, f3⟩ := next_u8_ok (b := b) hs2 (by omega) 1 _
  rw [e3]
  by_cases h4 : b.size < 7 + 2 + 1 + 1 + 1
  · rw [next_u8_short hs3 h4]
    exact Or.inr (Or.inl ⟨s3, rfl, by omega, by omega, by omega, by omega⟩)
  obtain ⟨s4, e4, hs4, f4⟩ := next_u8_ok (b := b) hs3 (by omega) (4 + 28) _
  rw [e4]
  by_cases h5 : b.size < 43 + 1
  · rw [next_u8_short hs4 h5]
    exact Or.inr (Or.inl ⟨s4, rfl, by omega, by omega, by omega, fun _ _ =>
      ⟨hs4, f1.trans (f2.trans (f3.trans f4))⟩⟩)
  obtain ⟨s5, e5, hs5, -⟩ := next_u8_ok (b := b) hs4 (by omega) 1 _
  rw [e5, update_bind]
  have hs6 : ({ s5 with ret := 1 } : state).curpos = 44 := hs5
  generalize hs6' : ({ s5 with ret := 1 } : state) = s6 at hs6
  have hret : s6.ret = 1 := by rw [← hs6']
  rcases read_session_id_run b (b.mem 43).toNat s6 with ⟨t, ht, hc, hr⟩ | ⟨ht, hc, -⟩
  · rw [bind_ok ht]
    have hc : t.curpos = ciphers_at b := by rw [hc, hs6, ciphers_at]
    rcases parse_lists_run b hc with ⟨u, hu, hcu, hle, hru⟩ | ⟨u, hu, hcu, hlt, hru⟩ | ⟨u, hu, hlt⟩
    · exact Or.inl ⟨u, hu, hcu, hle, by rw [hru, hr, hret]⟩
    · exact Or.inr (Or.inl ⟨u, hu, hcu, hlt, fun _ => by rw [hru, hr, hret], by omega⟩)
    · exact Or.inr (Or.inr ⟨u, hu, hlt, by omega⟩)
  · rw [bind_error ht]
    exact Or.inr (Or.inl ⟨s6, rfl, by omega, by omega, fun _ => hret, by omega⟩)

theorem attempt_ok {m : Parse Unit} {s s' : state} (h : m s = (.ok (), s')) :
    attempt m catch_short s = (.ok (), s') := by
  simp [attempt, h]

theorem attempt_short {m : Parse Unit} {s s' : state} (h : m s = (.error .out_of_range, s')) :
    attempt m catch_short s = (.ok (), s') := by
  simp [attempt, h, catch_short]

theorem attempt_malformed {m : Parse Unit} {s s' : state}
    (h : m s = (.error .SSL_clienthello_malformed, s')) :
    attempt m catch_short s = (.error .SSL_clienthello_malformed, s') := by
  simp [attempt, h, catch_short]

/-- The length of the extensions is read when there is more than this length. -/
theorem parse_extensions_length_run (b : peek) {s : state} {p : Nat} (hs : s.curpos = p) :
    let x := if p + 2 < b.size then be16 (b.mem p) (b.mem (p + 1)) else 0
    let q := if p + 2 < b.size then p + 2 else p
    ∃ s', s'.curpos = q ∧ Frame s s' ∧ parse_extensions_length b s =
      if q + x > b.size then (.error .SSL_clienthello_malformed, s')
      else (.ok (if x > 0 then .extensions else .returns s.ret), s') := by
  intro x q
  have hnext : ∃ s', next_extensions_length b s = (.ok x, s') ∧ s'.curpos = q ∧ Frame s s' := by
    unfold next_extensions_length
    rw [read_bind]
    by_cases h : p + 2 < b.size
    · rw [if_pos (by omega)]
      obtain ⟨t, ht, hc, hr⟩ := next_u16_run (b := b) hs (by omega)
      have hx : x = be16 (b.mem p) (b.mem (p + 1)) := if_pos h
      exact ⟨t, by rw [ht, hx], by rw [hc]; exact (if_pos h).symm, hr⟩
    · rw [if_neg (by omega)]
      have hx : x = 0 := if_neg h
      exact ⟨s, by rw [hx, run_pure], by rw [hs]; exact (if_neg h).symm, .refl⟩
  obtain ⟨t, ht, hc, hr⟩ := hnext
  refine ⟨t, hc, hr, ?_⟩
  unfold parse_extensions_length
  rw [bind_ok ht]
  simp only [read_bind, raise_if_bind, run_pure, hc, hr.ret]

/-- The bytes begin like the record of a ClientHello. -/
def is_client_hello (b : peek) : Prop :=
  b.mem 0 = 22 ∧ b.mem 1 = 3 ∧ b.mem 5 = 1

/-- The rest of the head, once the message is known to be a ClientHello. -/
def parse_client_hello (b : peek) : Parse rest := do
  attempt (parse_handshake b) catch_short
  parse_extensions_length b

/-- Only a ClientHello comes to the extensions. -/
theorem head_cases (b : peek) (elapsed : Int) {s : state} (hs : s.curpos = 0)
    (hsize : 34 ≤ b.size) :
    (is_client_hello b ∧ ∃ t, t.curpos = 7 ∧ Frame s t ∧
      parse_peer_hello_head b elapsed s = parse_client_hello b t) ∨
    (¬ is_client_hello b ∧ (parse_peer_hello_head b elapsed s).1 ≠ .ok .extensions) := by
  unfold parse_peer_hello_head
  rw [if_pos hsize]
  obtain ⟨s1, e1, (hs1 : s1.curpos = 1), hr1⟩ := next_u8_ok (b := b) hs (by omega) 1 _
  rw [e1]
  obtain ⟨s2, e2, (hs2 : s2.curpos = 2), hr2⟩ := next_u8_ok (b := b) hs1 (by omega) 1 _
  rw [e2]
  obtain ⟨s3, e3, (hs3 : s3.curpos = 3), hr3⟩ := next_u8_ok (b := b) hs2 (by omega) 1 _
  rw [e3]
  obtain ⟨s4, e4, (hs4 : s4.curpos = 5), hr4⟩ := next_u16_ok (b := b) hs3 (by omega) _
  rw [e4, raise_if_bind]
  by_cases hver : b.mem 1 = 3
  · rw [if_neg (by simp [hver])]
    by_cases hno : b.size ≠ be16 (b.mem 3) (b.mem 4) + 5 ∧ (b.mem 0 ≠ 22 ∨ b.mem 1 > 5)
    · rw [if_pos hno]
      refine Or.inr ⟨?_, by simp⟩
      rintro ⟨h0, -, -⟩
      rcases hno.2 with h | h
      · exact h h0
      · rw [hver] at h
        exact absurd h (by decide)
    · rw [if_neg hno]
      obtain ⟨s5, e5, (hs5 : s5.curpos = 7), hr5⟩ := next_u8_ok (b := b) hs4 (by omega) 2 _
      rw [e5]
      by_cases hch : b.mem 0 = 22 ∧ b.mem 5 = 1
      · rw [if_pos hch]
        refine Or.inl ⟨⟨hch.1, hver, hch.2⟩, s5, hs5, ?_, rfl⟩
        exact hr1.trans (hr2.trans (hr3.trans (hr4.trans hr5)))
      · rw [if_neg hch]
        exact Or.inr ⟨fun h => hch ⟨h.1, h.2.2⟩, by simp⟩
  · rw [if_pos (by simp [hver])]
    exact Or.inr ⟨fun h => hver h.2.1, by simp⟩

/-- A ClientHello with extensions comes to the first one. -/
theorem head_extensions (b : peek) (elapsed : Int) {s : state} (hs : s.curpos = 0)
    (h : has_extensions b) :
    ∃ s', parse_peer_hello_head b elapsed s = (.ok .extensions, s') ∧
      s'.curpos = extensions_at b + 2 ∧ s'.ret = 1 := by
  obtain ⟨h0, h1, h5, hlt, hpos, hle⟩ := h
  have hciph : 44 ≤ ciphers_at b := Nat.le_add_right _ _
  have hcomp : ciphers_at b + 2 ≤ compression_at b := Nat.le_add_right _ _
  have hext : compression_at b + 1 ≤ extensions_at b := Nat.le_add_right _ _
  rcases head_cases b elapsed hs (by omega) with ⟨-, t, ht, -, heq⟩ | ⟨hnot, -⟩
  · rw [heq, parse_client_hello]
    rcases parse_handshake_run b ht with ⟨u, hu, hc, -, hr⟩ | ⟨u, -, -, hbad, -⟩ |
      ⟨u, -, hbad, -⟩
    · rw [bind_ok (attempt_ok hu)]
      obtain ⟨v, hv, hrv, hrun⟩ := parse_extensions_length_run b hc
      rw [if_pos hlt] at hv
      refine ⟨v, ?_, hv, by rw [hrv.ret, hr]⟩
      rw [hrun, if_pos hlt, if_pos hlt]
      have hx : be16 (b.mem (extensions_at b)) (b.mem (extensions_at b + 1)) =
        extensions_length b := rfl
      rw [hx, if_neg (by omega), if_pos hpos]
    · omega
    · omega
  · exact absurd ⟨h0, h1, h5⟩ hnot

/-- Nothing else comes to the extensions. -/
theorem head_no_extensions (b : peek) (elapsed : Int) {s : state} (hs : s.curpos = 0)
    (h : ¬ has_extensions b) : (parse_peer_hello_head b elapsed s).1 ≠ .ok .extensions := by
  by_cases hsize : 34 ≤ b.size
  · rcases head_cases b elapsed hs hsize with ⟨his, t, ht, -, heq⟩ | ⟨-, hne⟩
    · rw [heq, parse_client_hello]
      rcases parse_handshake_run b ht with ⟨u, hu, hc, -, -⟩ | ⟨u, hu, hc, -, -⟩ | ⟨u, hu, -, -⟩
      · rw [bind_ok (attempt_ok hu)]
        obtain ⟨v, -, -, hrun⟩ := parse_extensions_length_run b hc
        rw [hrun]
        by_cases hlt : extensions_at b + 2 < b.size
        · simp only [if_pos hlt]
          by_cases hle : extensions_at b + 2 +
              be16 (b.mem (extensions_at b)) (b.mem (extensions_at b + 1)) > b.size
          · rw [if_pos hle]
            simp
          · have hx : ¬ be16 (b.mem (extensions_at b)) (b.mem (extensions_at b + 1)) > 0 :=
              fun hx => h ⟨his.1, his.2.1, his.2.2, hlt, hx, Nat.le_of_not_gt hle⟩
            rw [if_neg hle, if_neg hx]
            simp
        · simp only [if_neg hlt]
          split <;> simp
      · rw [bind_ok (attempt_short hu)]
        obtain ⟨v, -, -, hrun⟩ := parse_extensions_length_run b (s := u) rfl
        have hlt : ¬ u.curpos + 2 < b.size := by omega
        rw [hrun]
        simp only [if_neg hlt]
        split <;> simp
      · rw [bind_error (attempt_malformed hu)]
        simp
    · exact hne
  · unfold parse_peer_hello_head
    rw [if_neg hsize]
    simp

/-! ## What the head keeps -/

/-- A property of the state that no read inside the buffer, no move of the cursor, no result and
no session id from inside the buffer changes. -/
structure Steady (b : peek) (P : state → Prop) : Prop where
  note : ∀ s p n, p + n ≤ b.size → P s → P (s.note p n)
  skip : ∀ s n, P s → P (s.skip n)
  ret : ∀ s r, P s → P { s with ret := r }
  id : ∀ s p n, p + n ≤ b.size → P s →
    P { s with found.sslcom_peer_hello_id_ := slice b.mem p n }

section
variable {b : peek} {P : state → Prop}

theorem get_u8_keeps (h : Steady b P) (idx : Nat) : Keeps P (b.get_u8 idx) := by
  intro s hs
  by_cases hsize : idx + 1 > b.size
  · simpa [peek.get_u8, hsize] using hs
  · simpa [peek.get_u8, hsize] using h.note s idx 1 (by omega) hs

theorem get_u16_keeps (h : Steady b P) (idx : Nat) : Keeps P (b.get_u16 idx) := by
  intro s hs
  by_cases hsize : idx + 2 > b.size
  · simpa [peek.get_u16, hsize] using hs
  · simpa [peek.get_u16, hsize] using h.note s idx 2 (by omega) hs

theorem next_u8_keeps (h : Steady b P) (step : Nat) : Keeps P (b.next_u8 step) := by
  unfold peek.next_u8
  refine keeps_bind keeps_read fun s => keeps_bind (get_u8_keeps h _) fun v => ?_
  exact keeps_bind (keeps_update fun s hs => h.skip s step hs) fun _ => keeps_pure v

theorem next_u16_keeps (h : Steady b P) : Keeps P b.next_u16 := by
  unfold peek.next_u16
  refine keeps_bind keeps_read fun s => keeps_bind (get_u16_keeps h _) fun v => ?_
  exact keeps_bind (keeps_update fun s hs => h.skip s 2 hs) fun _ => keeps_pure v

theorem skip_block_keeps (h : Steady b P) (len : Nat) : Keeps P (b.skip_block len) := by
  unfold peek.skip_block
  refine keeps_bind keeps_read fun s => keeps_bind (keeps_raise_if _ _) fun _ => ?_
  exact keeps_update fun s hs => h.skip s len hs

/-- The view is clipped, so the id comes from inside the buffer. -/
theorem read_session_id_keeps (h : Steady b P) (n : Nat) : Keeps P (read_session_id b n) := by
  intro s hs
  unfold read_session_id
  by_cases hn : n > 0
  · rw [if_pos hn, read_bind, view_bind]
    by_cases hp : s.curpos < b.size
    · rw [if_pos hp]
      generalize hlen : (if s.curpos + n ≤ b.size then n else b.size - s.curpos) = len
      have hle : s.curpos + len ≤ b.size := by
        rw [← hlen]
        split <;> omega
      exact h.id _ _ _ hle (h.skip _ _ (h.note _ _ _ hle hs))
    · rw [if_neg hp]
      exact hs
  · rw [if_neg hn]
    exact hs

theorem parse_handshake_keeps (h : Steady b P) : Keeps P (parse_handshake b) := by
  unfold parse_handshake
  refine keeps_bind (next_u16_keeps h) fun _ => ?_
  refine keeps_bind (next_u8_keeps h 1) fun _ => ?_
  refine keeps_bind (next_u8_keeps h 1) fun _ => ?_
  refine keeps_bind (next_u8_keeps h _) fun _ => ?_
  refine keeps_bind (next_u8_keeps h 1) fun sid => ?_
  refine keeps_bind (keeps_update fun s hs => h.ret s 1 hs) fun _ => ?_
  refine keeps_bind (read_session_id_keeps h _) fun _ => ?_
  refine keeps_bind (next_u16_keeps h) fun ciphers => ?_
  refine keeps_bind (skip_block_keeps h ciphers) fun _ => ?_
  refine keeps_bind (next_u8_keeps h 1) fun comp => ?_
  exact skip_block_keeps h _

theorem parse_extensions_length_keeps (h : Steady b P) : Keeps P (parse_extensions_length b) := by
  unfold parse_extensions_length
  refine keeps_bind (keeps_bind keeps_read fun s => ?_) fun x => ?_
  · exact keeps_ite (next_u16_keeps h) (keeps_pure 0)
  · refine keeps_bind keeps_read fun t => ?_
    exact keeps_bind (keeps_raise_if _ _) fun _ => keeps_pure _

/-- With 34 bytes or more, the head keeps each steady property. -/
theorem head_keeps (h : Steady b P) (elapsed : Int) (hsize : 34 ≤ b.size) :
    Keeps P (parse_peer_hello_head b elapsed) := by
  unfold parse_peer_hello_head
  rw [if_pos hsize]
  refine keeps_bind (next_u8_keeps h 1) fun _ => ?_
  refine keeps_bind (next_u8_keeps h 1) fun _ => ?_
  refine keeps_bind (next_u8_keeps h 1) fun _ => ?_
  refine keeps_bind (next_u16_keeps h) fun _ => ?_
  refine keeps_bind (keeps_raise_if _ _) fun _ => ?_
  refine keeps_ite (keeps_pure _) ?_
  refine keeps_bind (next_u8_keeps h 2) fun _ => keeps_ite ?_ ?_
  · refine keeps_bind (keeps_attempt (parse_handshake_keeps h) ?_) fun _ =>
      parse_extensions_length_keeps h
    intro e g hg
    cases e with
    | out_of_range =>
      cases hg
      exact keeps_pure ()
    | SSL_clienthello_malformed => cases hg
  · exact keeps_bind (keeps_update fun s hs => h.ret s 1 hs) fun _ => keeps_pure _

end

end socle.hello
