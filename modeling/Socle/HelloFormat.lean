-- A ClientHello as RFC 8446 writes it: the message, its bytes, and what the
-- server name and the ALPN extension of it say. No function of the program is
-- here; the parser is measured against this.
import Socle.HelloWalk

namespace socle.hello

open lib.bytes

/-! ## The message -/

/-- An extension. A server name extension has one entry, the host name. -/
inductive extension
  | server_name (host_name : List UInt8)
  | alpn (protocols : List (List UInt8))
  | other (id : Nat) (data : List UInt8)

namespace extension

def id : extension → Nat
  | server_name _ => 0
  | alpn _ => 16
  | other id _ => id

/-- An ALPN protocol list, without the length in front. -/
def protocol_list (protocols : List (List UInt8)) : List UInt8 :=
  protocols.flatMap fun p => UInt8.ofNat p.length :: p

def data : extension → List UInt8
  | server_name host => u16 (host.length + 3) ++ 0 :: (u16 host.length ++ host)
  | alpn protocols => u16 (protocol_list protocols).length ++ protocol_list protocols
  | other _ data => data

def encode (e : extension) : List UInt8 :=
  u16 e.id ++ (u16 e.data.length ++ e.data)

def host_name : extension → Option (List UInt8)
  | server_name host => some host
  | _ => none

def protocols : extension → Option (List UInt8)
  | alpn protocols => some (protocol_list protocols)
  | _ => none

/-- The names are not empty and fit their fields, and the id says what the extension is. -/
def Valid : extension → Prop
  | server_name host => 1 ≤ host.length
  | alpn protocols => ∀ p ∈ protocols, 1 ≤ p.length ∧ p.length ≤ 255
  | other id _ => id < 65536 ∧ id ≠ 0 ∧ id ≠ 16

end extension

/-- The bytes of a list of extensions. -/
def ext_bytes (es : List extension) : List UInt8 :=
  es.flatMap extension.encode

/-- A ClientHello. It has no extension twice, and each of its lengths fits its field. -/
structure client_hello where
  version_maj : UInt8
  version_min : UInt8
  random : List UInt8
  session_id : List UInt8
  cipher_suites : List (UInt8 × UInt8)
  compression_methods : List UInt8
  extensions : Option (List extension)
  random_length : random.length = 32
  session_id_length : session_id.length ≤ 32
  cipher_suites_length : 1 ≤ cipher_suites.length ∧ cipher_suites.length ≤ 32767
  compression_methods_length : 1 ≤ compression_methods.length ∧ compression_methods.length ≤ 255
  extensions_valid : ∀ es, extensions = some es →
    (ext_bytes es).length < 65536 ∧ (es.map extension.id).Nodup ∧ ∀ e ∈ es, e.Valid

namespace client_hello

def cipher_bytes (h : client_hello) : List UInt8 :=
  h.cipher_suites.flatMap fun c => [c.1, c.2]

/-- The extensions with their length in front, when there are any. -/
def extension_block (h : client_hello) : List UInt8 :=
  match h.extensions with
  | none => []
  | some es => u16 (ext_bytes es).length ++ ext_bytes es

/-- From the session id to the end. -/
def lists (h : client_hello) : List UInt8 :=
  h.session_id ++ (u16 h.cipher_bytes.length ++ (h.cipher_bytes ++
    (UInt8.ofNat h.compression_methods.length :: (h.compression_methods ++ h.extension_block))))

/-- The body of the handshake message. -/
def body (h : client_hello) : List UInt8 :=
  h.version_maj :: h.version_min :: (h.random ++
    (UInt8.ofNat h.session_id.length :: h.lists))

/-- The handshake message: its type, its length in 24 bits, its body. -/
def handshake (h : client_hello) : List UInt8 :=
  1 :: UInt8.ofNat (h.body.length / 65536) :: (u16 (h.body.length % 65536) ++ h.body)

/-- The message behind the header of a record. -/
def framed (h : client_hello) (record_min : UInt8) (record_length : Nat) : List UInt8 :=
  22 :: 3 :: record_min :: (u16 record_length ++ h.handshake)

/-- The host name of the server name extension, or nothing. -/
def sni (h : client_hello) : List UInt8 :=
  ((h.extensions.getD []).findSome? extension.host_name).getD []

/-- The protocol list of the ALPN extension, or nothing. -/
def alpn (h : client_hello) : List UInt8 :=
  ((h.extensions.getD []).findSome? extension.protocols).getD []

/-- Where the extension block begins behind the header of the record. -/
def block_at (h : client_hello) : Nat :=
  44 + h.session_id.length + 2 + h.cipher_bytes.length + 1 + h.compression_methods.length

theorem cipher_bytes_length (h : client_hello) :
    h.cipher_bytes.length = 2 * h.cipher_suites.length := by
  unfold cipher_bytes
  induction h.cipher_suites with
  | nil => rfl
  | cons c cs ih =>
    rw [List.flatMap_cons, List.length_append, ih, List.length_cons]
    simp only [List.length_cons, List.length_nil]
    omega

theorem framed_length (h : client_hello) (record_min : UInt8) (record_length : Nat) :
    (h.framed record_min record_length).length = h.block_at + h.extension_block.length := by
  simp only [framed, handshake, body, lists, block_at, List.length_cons, List.length_append,
    u16_length, h.random_length]
  omega

/-- Where the parser looks, the message has what the parser looks for. -/
theorem layout (h : client_hello) {b : peek} {record_min : UInt8} {record_length : Nat}
    (hb : Holds b.mem 0 (h.framed record_min record_length)) :
    is_client_hello b ∧ extensions_at b = h.block_at ∧
      Holds b.mem h.block_at h.extension_block := by
  have hc := h.cipher_suites_length
  have hclen := h.cipher_bytes_length
  have hsid := h.session_id_length
  have hcomp := h.compression_methods_length
  simp only [framed, handshake, body, holds_cons, holds_append, u16_length, h.random_length,
    Nat.zero_add, Nat.reduceAdd] at hb
  obtain ⟨h0, h1, -, -, h5, -, -, -, -, -, h43, hl⟩ := hb
  simp only [lists, holds_cons, holds_append, u16_length] at hl
  obtain ⟨-, hciphers, -, hmethods, -, hblock⟩ := hl
  have hciph : ciphers_at b = 44 + h.session_id.length := by
    rw [ciphers_at, h43, UInt8.toNat_ofNat_of_lt' (by simp [UInt8.size]; omega)]
  have hcompat : compression_at b = 44 + h.session_id.length + 2 + h.cipher_bytes.length := by
    rw [compression_at, hciph, be16_of_holds (by omega) hciphers]
  have hext : extensions_at b = h.block_at := by
    rw [extensions_at, hcompat, hmethods, UInt8.toNat_ofNat_of_lt' (by simp [UInt8.size]; omega),
      block_at]
  exact ⟨⟨h0, h1, h5⟩, hext, hblock⟩

end client_hello

/-- A hello for the host `a`. -/
def hello_for_a : client_hello where
  version_maj := 3
  version_min := 3
  random := List.replicate 32 7
  session_id := []
  cipher_suites := [(19, 1)]
  compression_methods := [0]
  extensions := some [.server_name [97]]
  random_length := rfl
  session_id_length := by decide
  cipher_suites_length := by decide
  compression_methods_length := by decide
  extensions_valid := by
    intro es hes
    cases hes
    exact ⟨by decide, by decide, by simp [extension.Valid]⟩

end socle.hello
