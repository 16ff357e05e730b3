-- A ClientHello that arrives in parts (sslcom.tpp: waiting_peer_hello). Each
-- call peeks what has arrived so far and parses it from the start. A prefix
-- must neither be taken for the hello nor for something else.
import Socle.Lib.Run
import Socle.HelloFormat
import Socle.HelloSafety
import Socle.VerifyStatus

namespace socle.hello

open lib.prog lib.bytes lib.loop verify

/-! ## Waiting for the hello -/

/-- What `waiting_peer_hello` reads and writes of a `baseSSLCom`. -/
structure endpoint where
  found : recorded := {}
  error_flag_ : err_flags := .ERROR_NONE
  sslcom_peer_hello_received_ : Bool := false
  bypass : Bool := false
  verify_status_ : BitVec 32 := verify_status_t.VRF_NOTTESTED.val

/-- `peer()`: nothing, something that is not a `baseSSLCom`, or one with its socket. -/
inductive peer_com
  | nullptr
  | not_ssl
  | ssl (com : endpoint) (socket : Int) (dgram : Bool)

/-- The values of `errno` that are told apart. -/
inductive errno
  | zero | EINPROGRESS | EWOULDBLOCK | EAGAIN | other
deriving DecidableEq, Repr

/-- What `recv` with `MSG_PEEK` gives: bytes, or `red ≤ 0`. -/
inductive peeked
  | bytes (b : peek)
  | nothing (red : Int) (e : errno)

def bypass_me_and_peer (c : endpoint) (p : peer_com) : Bool × endpoint × peer_com :=
  match p with
  | .ssl com socket dgram =>
    (true,
      { c with bypass := true, verify_status_ := verify_status_t.VRF_OK.val },
      .ssl { com with bypass := true, verify_status_ := verify_status_t.VRF_OK.val } socket dgram)
  | p => (false, c, p)

/-- What `waiting_peer_hello` does with the result of `parse_peer_hello`. `none` stands for
`SSL_clienthello_malformed`, after which the result is still 0. -/
def judge_hello (c : endpoint) (p : peer_com) (result : Option Int) : Bool × endpoint × peer_com :=
  let parse_hello_result := result.getD 0
  if parse_hello_result = 0 then
    match bypass_me_and_peer c p with
    | (true, c, p) => (false, c, p)
    | (false, c, p) => (false, { c with error_flag_ := .ERROR_UNSPEC }, p)
  else if parse_hello_result < 0 then (false, c, p)
  else
    match p with
    | .ssl com socket dgram =>
      (true, { c with sslcom_peer_hello_received_ := true },
        .ssl { com with found.sslcom_sni_ := c.found.sslcom_sni_ } socket dgram)
    | p => (true, { c with sslcom_peer_hello_received_ := true }, p)

/-- `waiting_peer_hello`, or `none` when `fuel` turns are not enough for the parser. `elapsed` is
the time in milliseconds since `timer_start`. -/
def waiting_peer_hello (fuel : Nat) (elapsed : Int) (red : peeked) (c : endpoint) (p : peer_com) :
    Option (Bool × endpoint × peer_com) :=
  if c.sslcom_peer_hello_received_ then some (true, c, p)
  else
    match p with
    | .nullptr => some (true, { c with sslcom_peer_hello_received_ := true }, p)
    | .not_ssl => some (false, c, p)
    | .ssl com socket dgram =>
      if socket > 0 then
        match red with
        | .bytes b =>
          match parse_peer_hello b elapsed fuel c.found c.error_flag_ with
          | .inl _ => none
          | .inr (.ok r, s) =>
            some (judge_hello { c with found := s.found, error_flag_ := s.error_flag_ } p (some r))
          | .inr (.error _, s) =>
            some (judge_hello { c with found := s.found, error_flag_ := s.error_flag_ } p none)
        | .nothing red e =>
          if red = 0 ∧ e = .other then
            some (false, { c with error_flag_ := .ERROR_UNSPEC },
              .ssl { com with error_flag_ := .ERROR_READ } socket dgram)
          else some (false, c, p)
      else if dgram then some (true, { c with sslcom_peer_hello_received_ := true }, p)
      else some (false, c, p)

/-! ## What the parser says of a prefix -/

section
variable {b : peek} {elapsed : Int} {found : recorded} {flag : err_flags}

variable (elapsed found flag) in
/-- Less than 34 bytes are not looked at. -/
theorem parse_under_34 (h : b.size < 34) (fuel : Nat) :
    ∃ s, parse_peer_hello b elapsed fuel found flag = .inr (.ok (-1), s) ∧ s.found = found ∧
      s.error_flag_ = if elapsed > SSLCOM_CLIENTHELLO_TIMEOUT then .ERROR_UNSPEC else flag := by
  unfold parse_peer_hello parse_peer_hello_head
  rw [if_neg (by omega)]
  by_cases ht : elapsed > SSLCOM_CLIENTHELLO_TIMEOUT
  · simp only [if_pos ht, update_bind, read_bind, run_pure]
    exact ⟨_, rfl, rfl, rfl⟩
  · simp only [if_neg ht, update_bind, read_bind, run_pure]
    exact ⟨_, rfl, rfl, rfl⟩

variable (elapsed found flag) in
/-- With 34 to 42 bytes the cursor is behind the end, which passes for a malformed message. With
43 bytes it is at the end. -/
theorem parse_34_to_43 (his : is_client_hello b) (h : 34 ≤ b.size) (h' : b.size < 44)
    (fuel : Nat) :
    ∃ s, parse_peer_hello b elapsed fuel found flag =
      .inr (if b.size < 43 then .error .SSL_clienthello_malformed else .ok (-1), s) ∧
      s.found = found ∧ s.error_flag_ = flag := by
  have hext : 44 ≤ extensions_at b := by
    simp only [extensions_at, compression_at, ciphers_at]
    omega
  rcases head_cases b elapsed (s := begin found flag) rfl h with ⟨-, t, ht, hf, heq⟩ | ⟨hnot, -⟩
  · rcases parse_handshake_run b ht with ⟨u, -, -, hbad, -⟩ | ⟨u, hu, -, -, -, hcut⟩ |
      ⟨u, -, -, hbad⟩
    · omega
    · obtain ⟨hc, hf'⟩ := hcut h' (by omega)
      obtain ⟨v, -, hf'', hrun⟩ := parse_extensions_length_run b hc
      have hframe := hf.trans (hf'.trans hf'')
      have hno : ¬ 43 + 2 < b.size := by omega
      simp only [if_neg hno, Nat.add_zero, gt_iff_lt, Nat.lt_irrefl, if_false] at hrun
      unfold parse_peer_hello
      rw [heq, parse_client_hello, bind_ok (attempt_short hu), hrun]
      by_cases h43 : b.size < 43
      · simp only [if_pos h43]
        exact ⟨v, rfl, hframe.found, hframe.error_flag_⟩
      · simp only [if_neg h43]
        refine ⟨v, ?_, hframe.found, hframe.error_flag_⟩
        have hret : u.ret = -1 := (hf.trans hf').ret
        simp [hret]
    · omega
  · exact absurd his hnot

theorem extensions_length_ret {s : state} (hs : s.ret = 1) :
    (∃ t, parse_extensions_length b s = (.ok .extensions, t)) ∨
      (∃ t, parse_extensions_length b s = (.ok (.returns 1), t)) ∨
      ∃ t, parse_extensions_length b s = (.error .SSL_clienthello_malformed, t) := by
  obtain ⟨t, -, -, hrun⟩ := parse_extensions_length_run b (s := s) rfl
  generalize (if s.curpos + 2 < b.size then be16 (b.mem s.curpos) (b.mem (s.curpos + 1)) else 0) =
    x at hrun
  generalize (if s.curpos + 2 < b.size then s.curpos + 2 else s.curpos) = q at hrun
  rw [hrun]
  by_cases hq : q + x > b.size
  · rw [if_pos hq]
    exact Or.inr (Or.inr ⟨t, rfl⟩)
  · rw [if_neg hq]
    by_cases hx : x > 0
    · rw [if_pos hx]
      exact Or.inl ⟨t, rfl⟩
    · rw [if_neg hx, hs]
      exact Or.inr (Or.inl ⟨t, rfl⟩)

variable (elapsed found flag) in
/-- With 44 bytes or more, the message is known to be a handshake. -/
theorem head_from_44 (his : is_client_hello b) (h : 44 ≤ b.size) :
    (∃ s, parse_peer_hello_head b elapsed (begin found flag) = (.ok .extensions, s)) ∨
      (∃ s, parse_peer_hello_head b elapsed (begin found flag) = (.ok (.returns 1), s)) ∨
      ∃ s, parse_peer_hello_head b elapsed (begin found flag) =
        (.error .SSL_clienthello_malformed, s) := by
  rcases head_cases b elapsed (s := begin found flag) rfl (by omega) with
    ⟨-, t, ht, -, heq⟩ | ⟨hnot, -⟩
  · rw [heq, parse_client_hello]
    rcases parse_handshake_run b ht with ⟨u, hu, -, -, hr⟩ | ⟨u, hu, -, -, hr, -⟩ | ⟨u, hu, -, -⟩
    · rw [bind_ok (attempt_ok hu)]
      exact extensions_length_ret hr
    · rw [bind_ok (attempt_short hu)]
      exact extensions_length_ret (hr h)
    · rw [bind_error (attempt_malformed hu)]
      exact Or.inr (Or.inr ⟨u, rfl⟩)
  · exact absurd his hnot

/-- So its result is never that there is not enough data. -/
theorem parse_from_44 (his : is_client_hello b) (h : 44 ≤ b.size) {fuel : Nat} {r : Int}
    {s : state} (hrun : parse_peer_hello b elapsed fuel found flag = .inr (.ok r, s)) : r = 1 := by
  unfold parse_peer_hello at hrun
  rcases head_from_44 elapsed found flag his h with
    ⟨t, ht⟩ | ⟨t, ht⟩ | ⟨t, ht⟩
  · have hext : has_extensions b := by
      by_contra hno
      exact head_no_extensions b elapsed (s := begin found flag) rfl hno (by rw [ht])
    obtain ⟨t', ht', -, hret⟩ := head_extensions b elapsed (s := begin found flag) rfl hext
    rw [ht] at ht'
    cases ht'
    rw [ht] at hrun
    -- each turn keeps the result
    have hkeep : ∀ u, Reach (ext_turn b) t u → u.ret = 1 := fun u hu =>
      reach_kept (P := fun v => v.ret = 1)
        (fun v v' hv hn => (ext_turn_cases hn).2.2.2.2.1.trans hv) hret hu
    cases hturns : turns (ext_turn b) fuel t with
    | inl u =>
      simp only [hturns, finish] at hrun
      cases hrun
    | inr x =>
      obtain ⟨e, u⟩ := x
      obtain ⟨v, hv, hd⟩ := stops_iff.mp ⟨fuel, hturns⟩
      have hu : u.ret = 1 := (ext_turn_done hd).2.1.trans (hkeep v hv)
      cases e with
      | ok y =>
        simp only [hturns, finish] at hrun
        cases hrun
        exact hu
      | error e =>
        cases e with
        | out_of_range =>
          simp only [hturns, finish, catch_range] at hrun
          cases hrun
          exact hu
        | SSL_clienthello_malformed =>
          simp only [hturns, finish, catch_range] at hrun
          cases hrun
  · rw [ht] at hrun
    cases hrun
    rfl
  · rw [ht] at hrun
    cases hrun

end

/-! ## Runs -/

/-- What is there to peek at one call, and the time since `timer_start`. -/
structure arrival where
  b : peek
  elapsed : Int

/-- The buffer holds just these bytes. -/
def Shows (b : peek) (bytes : List UInt8) : Prop :=
  b.size = bytes.length ∧ Holds b.mem 0 bytes

/-- Each call sees a longer proper prefix of `bytes` than the call before, the last one all. -/
structure Cuts (bytes : List UInt8) (as : List arrival) (last : arrival) : Prop where
  proper : ∀ a ∈ as, 0 < a.b.size ∧ a.b.size < bytes.length ∧ Shows a.b (bytes.take a.b.size)
  longer : as.Pairwise fun a a' => a.b.size < a'.b.size
  complete : Shows last.b bytes

/-- One call, on both sides of the connection. -/
def peek_step (fuel : Nat) (s : endpoint × peer_com) (a : arrival) : Option (endpoint × peer_com) :=
  (waiting_peer_hello fuel a.elapsed (.bytes a.b) s.1 s.2).map Prod.snd

/-- The hello was not declared received, the connection is not bypassed and has no error. -/
def Undecided (s : endpoint × peer_com) : Prop :=
  s.1.sslcom_peer_hello_received_ = false ∧ s.1.bypass = false ∧ s.1.error_flag_ = .ERROR_NONE

/-- The names that are on record. -/
def names (s : endpoint × peer_com) : List UInt8 × List UInt8 :=
  (s.1.found.sslcom_sni_, s.1.found.sslcom_peer_hello_alpn_)

/-- Nothing is decided over the prefixes `as`, and the whole message then gives the names that it
gives when it comes at once. -/
def Patient (s : endpoint × peer_com) (as : List arrival) (last : arrival) : Prop :=
  ∃ fuel s', lib.run.exec (peek_step fuel) s as = some s' ∧
    lib.run.Always (peek_step fuel) Undecided s as ∧
    ∀ fuel', (peek_step fuel' s' last).map names = (peek_step fuel' s last).map names

/-- The prefix tells the parser to wait: it has 43 bytes, or less than 34 in time. -/
def Waits (a : arrival) : Prop :=
  a.b.size = 43 ∨ (a.b.size < 34 ∧ a.elapsed ≤ SSLCOM_CLIENTHELLO_TIMEOUT)

/-- A prefix of a message in a record begins as the record does. -/
theorem prefix_is_client_hello {h : client_hello} {record_min : UInt8} {record_length : Nat}
    {b : peek} (hsize : 6 ≤ b.size) (hlt : b.size < (h.framed record_min record_length).length)
    (hb : Shows b ((h.framed record_min record_length).take b.size)) : is_client_hello b := by
  have hget : ∀ i, i < 6 → ∀ hi : i < (h.framed record_min record_length).length,
      b.mem i = (h.framed record_min record_length)[i] := by
    intro i h6 hi
    have hit : i < ((h.framed record_min record_length).take b.size).length := by
      rw [List.length_take]
      omega
    have hg := get_of_holds hb.2 hit
    rwa [Nat.zero_add, List.getElem_take] at hg
  exact ⟨hget 0 (by omega) (by omega), hget 1 (by omega) (by omega), hget 5 (by omega) (by omega)⟩

/-- The other side is a `baseSSLCom` with a socket. -/
def HasPeer (s : endpoint × peer_com) : Prop :=
  ∃ com socket dgram, s.2 = .ssl com socket dgram ∧ socket > 0

theorem peek_step_eq {s : endpoint × peer_com} (hs : Undecided s) (hp : HasPeer s) (fuel : Nat)
    (a : arrival) :
    peek_step fuel s a =
      match parse_peer_hello a.b a.elapsed fuel s.1.found s.1.error_flag_ with
      | .inl _ => none
      | .inr (.ok r, t) => some (judge_hello
          { s.1 with found := t.found, error_flag_ := t.error_flag_ } s.2 (some r)).2
      | .inr (.error _, t) => some (judge_hello
          { s.1 with found := t.found, error_flag_ := t.error_flag_ } s.2 none).2 := by
  obtain ⟨c, p⟩ := s
  obtain ⟨com, socket, dgram, rfl, hsock⟩ := hp
  have hr : c.sslcom_peer_hello_received_ = false := hs.1
  simp only [peek_step, waiting_peer_hello, hr, Bool.false_eq_true, if_false, if_pos hsock]
  cases parse_peer_hello a.b a.elapsed fuel c.found c.error_flag_ with
  | inl t => rfl
  | inr x =>
    obtain ⟨r, t⟩ := x
    cases r <;> rfl

section
variable {s : endpoint × peer_com} {a : arrival}

/-- A prefix that tells the parser to wait changes nothing. -/
theorem step_waits (hs : Undecided s) (hp : HasPeer s) (his : 34 ≤ a.b.size → is_client_hello a.b)
    (hw : Waits a) (fuel : Nat) : peek_step fuel s a = some s := by
  have hsame : ∃ t, parse_peer_hello a.b a.elapsed fuel s.1.found s.1.error_flag_ =
      .inr (.ok (-1), t) ∧ t.found = s.1.found ∧ t.error_flag_ = s.1.error_flag_ := by
    rcases hw with h43 | ⟨h34, htime⟩
    · obtain ⟨t, ht, hf, he⟩ := parse_34_to_43 a.elapsed s.1.found s.1.error_flag_ (his (by omega)) (by omega) (by omega) fuel
      rw [if_neg (by omega)] at ht
      exact ⟨t, ht, hf, he⟩
    · obtain ⟨t, ht, hf, he⟩ := parse_under_34 a.elapsed s.1.found s.1.error_flag_ h34 fuel
      rw [if_neg (by omega)] at he
      exact ⟨t, ht, hf, he⟩
  obtain ⟨t, ht, hf, he⟩ := hsame
  rw [peek_step_eq hs hp, ht]
  simp [judge_hello, hf, he]

/-- A result that is 0, or a malformed message, bypasses the connection. -/
theorem judge_bypasses (hp : HasPeer s) (c : endpoint) {result : Option Int}
    (hr : result.getD 0 = 0) : (judge_hello c s.2 result).2.1.bypass = true := by
  obtain ⟨com, socket, dgram, hpeer, -⟩ := hp
  simp [judge_hello, hr, hpeer, bypass_me_and_peer]

/-- Any other prefix decides something. -/
theorem step_decides (hs : Undecided s) (hp : HasPeer s)
    (his : 34 ≤ a.b.size → is_client_hello a.b) (hw : ¬ Waits a) {fuel : Nat}
    {s' : endpoint × peer_com} (hstep : peek_step fuel s a = some s') : ¬ Undecided s' := by
  rw [peek_step_eq hs hp] at hstep
  by_cases h34 : a.b.size < 34
  · obtain ⟨t, ht, -, he⟩ := parse_under_34 a.elapsed s.1.found s.1.error_flag_ h34 fuel
    have htime : a.elapsed > SSLCOM_CLIENTHELLO_TIMEOUT := by
      by_contra hno
      exact hw (Or.inr ⟨h34, by omega⟩)
    rw [if_pos htime] at he
    rw [ht] at hstep
    cases hstep
    intro hu
    have herr := hu.2.2
    simp [judge_hello, he] at herr
  have his := his (by omega)
  by_cases h44 : a.b.size < 44
  · obtain ⟨t, ht, -⟩ := parse_34_to_43 a.elapsed s.1.found s.1.error_flag_ his (by omega) h44 fuel
    have h43 : a.b.size < 43 := by
      by_contra hno
      exact hw (Or.inl (by omega))
    rw [if_pos h43] at ht
    rw [ht] at hstep
    cases hstep
    intro hu
    have hby := hu.2.1
    rw [judge_bypasses hp _ rfl] at hby
    cases hby
  · cases hparse : parse_peer_hello a.b a.elapsed fuel s.1.found s.1.error_flag_ with
    | inl t =>
      rw [hparse] at hstep
      cases hstep
    | inr x =>
      obtain ⟨r, t⟩ := x
      rw [hparse] at hstep
      cases r with
      | error e =>
        cases hstep
        intro hu
        have hby := hu.2.1
        rw [judge_bypasses hp _ rfl] at hby
        cases hby
      | ok r =>
        have hr := parse_from_44 his (by omega) hparse
        subst hr
        cases hstep
        intro hu
        obtain ⟨com, socket, dgram, hpeer, -⟩ := hp
        have hrec := hu.1
        simp [judge_hello, hpeer] at hrec

end

/-- Nothing is decided over the prefixes when, and only when, each of them has 43 bytes, or less
than 34 and comes in time. -/
theorem prefixes_are_waited_for (h : client_hello) (record_min : UInt8)
    (s : endpoint × peer_com) (hs : Undecided s) (hp : HasPeer s) (as : List arrival)
    (last : arrival) (hcuts : Cuts (h.framed record_min h.handshake.length) as last) :
    Patient s as last ↔ ∀ a ∈ as, Waits a := by
  have his : ∀ a ∈ as, 34 ≤ a.b.size → is_client_hello a.b := by
    intro a ha hsize
    obtain ⟨-, hlt, hshow⟩ := hcuts.proper a ha
    exact prefix_is_client_hello (by omega) hlt hshow
  constructor
  · rintro ⟨fuel, s', hrun, halways, -⟩
    clear hcuts
    induction as with
    | nil =>
      intro a ha
      cases ha
    | cons a as ih =>
      rw [lib.run.exec_cons, Option.bind_eq_some_iff] at hrun
      obtain ⟨t, ht, hrun⟩ := hrun
      have hrest := halways.2 t ht
      have ha : Waits a := by
        by_contra hw
        exact step_decides hs hp (his a List.mem_cons_self) hw ht (lib.run.always_here hrest)
      have hsame := step_waits hs hp (his a List.mem_cons_self) ha fuel
      rw [ht, Option.some.injEq] at hsame
      subst hsame
      intro a' ha'
      rcases List.mem_cons.mp ha' with rfl | ha'
      · exact ha
      · exact ih (fun a ha => his a (List.mem_cons_of_mem _ ha)) hrun hrest a' ha'
  · intro hw
    have hrun : ∀ fuel, lib.run.exec (peek_step fuel) s as = some s ∧
        lib.run.Always (peek_step fuel) Undecided s as := by
      intro fuel
      clear hcuts
      induction as with
      | nil => exact ⟨rfl, hs⟩
      | cons a as ih =>
        have hsame := step_waits hs hp (his a List.mem_cons_self) (hw a List.mem_cons_self) fuel
        obtain ⟨hexec, halways⟩ := ih (fun a ha => his a (List.mem_cons_of_mem _ ha))
          (fun a ha => hw a (List.mem_cons_of_mem _ ha))
        refine ⟨by rw [lib.run.exec_cons, hsame]; exact hexec, hs, fun t ht => ?_⟩
        rw [hsame, Option.some.injEq] at ht
        exact ht ▸ halways
    exact ⟨0, s, (hrun 0).1, (hrun 0).2, fun _ => rfl⟩

/-- Only the client side, in front of the other side of the connection. -/
def fresh : endpoint × peer_com :=
  ({}, .ssl {} 5 false)

/-- The record of `hello_for_a` in full, and its first `n` bytes. -/
def record_of_a : List UInt8 :=
  hello_for_a.framed 1 hello_for_a.handshake.length

def first (n : Nat) : arrival :=
  { b := peek.of (record_of_a.take n) (lt_of_le_of_lt (List.length_take_le' _ _) (by decide))
    elapsed := 0 }

def all : arrival :=
  { b := peek.of record_of_a (by decide), elapsed := 0 }

/-- Ten bytes, then 43, and then the hello. -/
theorem prefixes_are_waited_for_at_43 : Patient fresh [first 10, first 43] all :=
  (prefixes_are_waited_for hello_for_a 1 fresh ⟨rfl, rfl, rfl⟩ ⟨_, _, _, rfl, by decide⟩ _ all
    ⟨by unfold Shows Holds; decide, by decide, by unfold Shows Holds; decide⟩).mpr (by
      intro a ha
      simp only [List.mem_cons, List.not_mem_nil, or_false] at ha
      rcases ha with rfl | rfl
      · exact Or.inr ⟨by decide, by decide⟩
      · exact Or.inl (by decide))

/-- The first 40 bytes of a hello bypass the connection. -/
theorem a_cut_hello_is_bypassed :
    ¬ ∀ (h : client_hello) (record_min : UInt8) (s : endpoint × peer_com), Undecided s →
      HasPeer s → ∀ (as : List arrival) (last : arrival),
      Cuts (h.framed record_min h.handshake.length) as last → Patient s as last := by
  intro hall
  have hcuts : Cuts (hello_for_a.framed 1 hello_for_a.handshake.length) [first 40] all :=
    ⟨by unfold Shows Holds; decide, by decide, by unfold Shows Holds; decide⟩
  obtain ⟨fuel, s', hrun, halways, -⟩ :=
    hall hello_for_a 1 fresh ⟨rfl, rfl, rfl⟩ ⟨_, _, _, rfl, by decide⟩ [first 40] all hcuts
  have hstep : peek_step fuel fresh (first 40) = some s' := by
    rw [lib.run.exec_cons, Option.bind_eq_some_iff] at hrun
    obtain ⟨t, ht, hrun⟩ := hrun
    cases hrun
    exact ht
  have hundecided := lib.run.always_here (halways.2 s' hstep)
  have hbypass : (peek_step fuel fresh (first 40)).map (fun s => s.1.bypass) = some true := by
    cases fuel <;> rfl
  rw [hstep, Option.map_some, Option.some.injEq, hundecided.2.1] at hbypass
  cases hbypass

end socle.hello
