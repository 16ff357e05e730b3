-- The ClientHello parser (sslcom.tpp: parse_peer_hello and
-- parse_peer_hello_extensions) over the bytes that were peeked from the
-- client. The parser may throw, and its last loop may go on for ever.
import Mathlib.Tactic
import Socle.Lib.Bytes
import Socle.Lib.Loop
import Socle.Lib.Prog

namespace socle.hello

open lib.prog lib.bytes

/-! ## The peeked bytes and the state of the parser -/

/-- `sslcom_peer_hello_buffer`: its first `size` bytes are the peeked ones, and `mem` gives the
memory behind them too. `recv` gives an `int`, so no position of the parser leaves 32 bits. -/
structure peek where
  mem : Nat → UInt8
  size : Nat
  size_lt : size < 2 ^ 31

/-- What the parser throws. -/
inductive exn
  | out_of_range
  | SSL_clienthello_malformed
deriving DecidableEq, Repr

inductive err_flags
  | ERROR_NONE | ERROR_UNSPEC | ERROR_READ | ERROR_WRITE | ERROR_SOCKET
deriving DecidableEq, Repr

/-- What the hello gives to the rest of the program. The code keeps the id as hex text. -/
structure recorded where
  sslcom_sni_ : List UInt8 := []
  sslcom_peer_hello_alpn_ : List UInt8 := []
  sslcom_peer_hello_id_ : List UInt8 := []
deriving DecidableEq, Repr

/-- The state of a run of `parse_peer_hello`. The code does not keep `reads`: it notes where each
read of the buffer begins and how many bytes it takes. -/
structure state where
  found : recorded := {}
  error_flag_ : err_flags := .ERROR_NONE
  curpos : Nat := 0
  ret : Int := -1
  reads : List (Nat × Nat) := []

/-- A step of the parser. -/
abbrev Parse (α : Type) := Prog exn state α

namespace state

/-- The cursor goes `n` bytes forward. -/
def skip (s : state) (n : Nat) : state :=
  { s with curpos := s.curpos + n }

/-- `n` bytes are read from `p` on. -/
def note (s : state) (p n : Nat) : state :=
  { s with reads := (p, n) :: s.reads }

@[simp] theorem skip_curpos (s : state) (n : Nat) : (s.skip n).curpos = s.curpos + n := rfl
@[simp] theorem skip_ret (s : state) (n : Nat) : (s.skip n).ret = s.ret := rfl
@[simp] theorem skip_found (s : state) (n : Nat) : (s.skip n).found = s.found := rfl
@[simp] theorem skip_reads (s : state) (n : Nat) : (s.skip n).reads = s.reads := rfl
@[simp] theorem note_curpos (s : state) (p n : Nat) : (s.note p n).curpos = s.curpos := rfl
@[simp] theorem note_ret (s : state) (p n : Nat) : (s.note p n).ret = s.ret := rfl
@[simp] theorem note_found (s : state) (p n : Nat) : (s.note p n).found = s.found := rfl
@[simp] theorem note_reads (s : state) (p n : Nat) : (s.note p n).reads = (p, n) :: s.reads := rfl

end state

/-! ## Reading the buffer -/

/-- `b.get_at<unsigned char>(idx)`. -/
def peek.get_u8 (b : peek) (idx : Nat) : Parse UInt8 := do
  raise_if (idx + 1 > b.size) .out_of_range
  update fun s => s.note idx 1
  return b.mem idx

/-- `ntohs(b.get_at<unsigned short>(idx))`. -/
def peek.get_u16 (b : peek) (idx : Nat) : Parse Nat := do
  raise_if (idx + 2 > b.size) .out_of_range
  update fun s => s.note idx 2
  return be16 (b.mem idx) (b.mem (idx + 1))

/-- `b.view(pos, len)`, which is read in full by its callers: it is clipped at the end. -/
def peek.view (b : peek) (pos len : Nat) : Parse (List UInt8) := do
  raise_if (¬ pos < b.size) .out_of_range
  let n := if pos + len ≤ b.size then len else b.size - pos
  update fun s => s.note pos n
  return slice b.mem pos n

/-- `s.append(b.data() + pos, len)`: nothing compares `len` to the size. -/
def peek.append (b : peek) (pos len : Nat) : Parse (List UInt8) := do
  update fun s => s.note pos len
  return slice b.mem pos len

/-- `get_at<unsigned char>(curpos)`, and `curpos` goes `step` bytes forward. -/
def peek.next_u8 (b : peek) (step : Nat) : Parse UInt8 := do
  let s ← read
  let v ← b.get_u8 s.curpos
  update fun s => s.skip step
  return v

/-- `ntohs(get_at<unsigned short>(curpos))`, and `curpos` goes two bytes forward. -/
def peek.next_u16 (b : peek) : Parse Nat := do
  let s ← read
  let v ← b.get_u16 s.curpos
  update fun s => s.skip 2
  return v

/-- A block of `len` bytes that is not looked at, or `SSL_clienthello_malformed` when it is
larger than what is there. -/
def peek.skip_block (b : peek) (len : Nat) : Parse Unit := do
  let s ← read
  raise_if (s.curpos + len > b.size) .SSL_clienthello_malformed
  update fun s => s.skip len

/-! ## The extensions -/

/-- `parse_peer_hello_extensions`. The sum at the end is an `unsigned short`. -/
def parse_peer_hello_extensions (b : peek) (curpos : Nat) : Parse Nat := do
  let ext_id ← b.get_u16 curpos
  let ext_length ← b.get_u16 (curpos + 2)
  if ext_id = 0 then do
    let _sn_list_length ← b.get_u16 (curpos + 4)
    let sn_type ← b.get_u8 (curpos + 6)
    if sn_type = 0 then do
      let sn_hostname_length ← b.get_u16 (curpos + 7)
      let s ← b.append (curpos + 9) sn_hostname_length
      update fun st => { st with found.sslcom_sni_ := s }
      return (ext_length + 4) % 65536
    else return (ext_length + 4) % 65536
  else if ext_id = 16 then do
    let alpn_length ← b.get_u16 (curpos + 4)
    let s ← b.append (curpos + 6) alpn_length
    update fun st => { st with found.sslcom_peer_hello_alpn_ := s }
    return (ext_length + 4) % 65536
  else return (ext_length + 4) % 65536

open lib.loop in
/-- One turn of the loop over the extensions. -/
def ext_turn (b : peek) (s : state) : Turn state (Except exn Unit × state) :=
  if s.curpos + 4 < b.size then
    match parse_peer_hello_extensions b s.curpos s with
    | (.ok advance, s') => .next (s'.skip advance)
    | (.error e, s') => .done (.error e, s')
  else .done (.ok (), s)

/-! ## The handshake message -/

/-- The session id. The cursor goes forward by its full length, also when the view is clipped. -/
def read_session_id (b : peek) (session_id_length : Nat) : Parse Unit :=
  if session_id_length > 0 then do
    let s ← read
    let session_id ← b.view s.curpos session_id_length
    update fun s => s.skip session_id_length
    update fun s => { s with found.sslcom_peer_hello_id_ := session_id }
  else pure ()

/-- The inner `try` block, from the handshake length to the end of the compression methods. -/
def parse_handshake (b : peek) : Parse Unit := do
  let _handshake_length ← b.next_u16
  let _handshake_version_maj ← b.next_u8 1
  let _handshake_version_min ← b.next_u8 1
  -- only one byte of the time is read, and the random behind it is skipped
  let _handshake_unixtime ← b.next_u8 (4 + 28)
  let session_id_length ← b.next_u8 1
  -- the message is known to be a handshake now
  update fun s => { s with ret := 1 }
  read_session_id b session_id_length.toNat
  let ciphers_length ← b.next_u16
  b.skip_block ciphers_length
  let compression_length ← b.next_u8 1
  b.skip_block compression_length.toNat

/-- What is left to do for `parse_peer_hello`. -/
inductive rest
  | returns (ret : Int)
  | extensions
deriving DecidableEq, Repr

/-- The length of the extensions, which is 0 at the end of the buffer. -/
def next_extensions_length (b : peek) : Parse Nat := do
  let s ← read
  if s.curpos + 2 < b.size then b.next_u16 else pure 0

/-- From the end of the inner `try` block to the loop over the extensions. -/
def parse_extensions_length (b : peek) : Parse rest := do
  let extensions_length ← next_extensions_length b
  let s ← read
  raise_if (s.curpos + extensions_length > b.size) .SSL_clienthello_malformed
  return if extensions_length > 0 then .extensions else .returns s.ret

/-- `catch(std::out_of_range)` of the inner `try` block, which only logs. -/
def catch_short : exn → Option (Parse Unit)
  | .out_of_range => some (pure ())
  | .SSL_clienthello_malformed => none

/-- `SSLCOM_CLIENTHELLO_TIMEOUT`, in milliseconds. -/
def SSLCOM_CLIENTHELLO_TIMEOUT : Int := 3 * 1000

/-- `parse_peer_hello` up to the loop over the extensions. `elapsed` is the time in milliseconds
since `timer_start`. -/
def parse_peer_hello_head (b : peek) (elapsed : Int) : Parse rest :=
  if b.size ≥ 34 then do
    let message_type ← b.next_u8 1
    let version_maj ← b.next_u8 1
    let _version_min ← b.next_u8 1
    let message_length ← b.next_u16
    raise_if (version_maj ≠ 3) .SSL_clienthello_malformed
    if b.size ≠ message_length + 5 ∧ (message_type ≠ 22 ∨ version_maj > 5) then
      return .returns 0
    else do
      let handshake_type ← b.next_u8 2
      if message_type = 22 ∧ handshake_type = 1 then do
        attempt (parse_handshake b) catch_short
        parse_extensions_length b
      else do
        -- the other three branches differ in what they log
        update fun s => { s with ret := 1 }
        return .returns 1
  else do
    update fun s =>
      if elapsed > SSLCOM_CLIENTHELLO_TIMEOUT then { s with error_flag_ := .ERROR_UNSPEC } else s
    let s ← read
    return .returns s.ret

/-- `catch(std::out_of_range)` of `parse_peer_hello`. -/
def catch_range (r : Except exn Int × state) : Except exn Int × state :=
  match r with
  | (.error .out_of_range, s) => (.ok s.ret, { s with error_flag_ := .ERROR_UNSPEC })
  | r => r

/-- The end of `parse_peer_hello` behind its loop. -/
def finish : state ⊕ (Except exn Unit × state) → state ⊕ (Except exn Int × state)
  | .inl s => .inl s
  | .inr (.error e, s) => .inr (catch_range (.error e, s))
  | .inr (.ok (), s) => .inr (.ok s.ret, s)

/-- The state in which `parse_peer_hello` begins. -/
def begin (found : recorded) (error_flag_ : err_flags) : state :=
  { found, error_flag_ }

/-- `parse_peer_hello`, with at most `fuel` turns of its loop: what it gives, or the state that
it is in when the turns are used up. -/
def parse_peer_hello (b : peek) (elapsed : Int) (fuel : Nat) (found : recorded)
    (error_flag_ : err_flags) : state ⊕ (Except exn Int × state) :=
  match parse_peer_hello_head b elapsed (begin found error_flag_) with
  | (.error e, s) => .inr (catch_range (.error e, s))
  | (.ok (.returns ret), s) => .inr (.ok ret, s)
  | (.ok .extensions, s) => finish (lib.loop.turns (ext_turn b) fuel s)

end socle.hello
