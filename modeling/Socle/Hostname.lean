-- The hostname check of `baseSSLMitmCom::check_cert` (sslmitmcom.tpp), with
-- `get_sans` and `print_cn` (sslcertstore.cpp) and `string_trim`
-- (common/display.cpp). A string is the list of its bytes.
import Mathlib.Tactic
import Socle.StringSplit
import Socle.VerifyCallbacks

namespace socle.hostname

open verify callbacks display.delimited

/-! ## Strings -/

/-- `isspace`, of the C locale. -/
def isspace (c : UInt8) : Bool :=
  (9 ≤ c && c ≤ 13) || c = 32

/-- `tolower`, of the C locale. -/
def tolower (c : UInt8) : UInt8 :=
  if 65 ≤ c ∧ c ≤ 90 then c + 32 else c

/-- `std::transform(.., ::tolower)`. -/
def lower (s : List UInt8) : List UInt8 :=
  s.map tolower

/-- `s.substr(0, n)`. A negative `n` becomes a `size_t` that is larger than any string. -/
def substr0 (s : List UInt8) (n : Int) : List UInt8 :=
  if n < 0 then s else s.take n.toNat

/-- The variables of the loop of `string_trim`. -/
structure trimming where
  ret : List UInt8 := []
  start : Bool := true
  spaces : Nat := 0

def trim_char (t : trimming) (c : UInt8) : trimming :=
  let space := isspace c
  let spaces := if space then t.spaces + 1 else 0
  if space && t.start then { t with spaces }
  else { ret := t.ret ++ [c], start := false, spaces }

def string_trim (orig : List UInt8) : List UInt8 :=
  let t := orig.foldl trim_char {}
  if t.spaces > 0 then substr0 t.ret (-t.spaces) else t.ret

/-! ## The names of a certificate -/

/-- The general names that `get_sans` tells apart. -/
inductive GENERAL_NAME
  | GEN_DNS (name : List UInt8)
  | GEN_IPADD (ip : List UInt8)
  | other

/-- An extension. `alt` is what `X509V3_EXT_d2i` gives for a subject alternative name. -/
structure X509_EXTENSION where
  subject_alt_name : Bool
  alt : Option (List GENERAL_NAME)

/-- What the check reads of a certificate: the extensions, when there are any, and the common name,
which is empty when there is none. -/
structure X509 where
  exts : Option (List X509_EXTENSION)
  cn : List UInt8

/-- "DNS:" -/
def DNS : List UInt8 := [68, 78, 83, 58]

/-- "IP:" -/
def IP : List UInt8 := [73, 80, 58]

/-- The line of one general name. -/
def san_line : GENERAL_NAME → Option (List UInt8)
  | .GEN_DNS name => some (DNS ++ name)
  | .GEN_IPADD ip => some (IP ++ ip)
  | .other => none

/-- The general names of an extension. -/
def alt_names (ex : X509_EXTENSION) : List GENERAL_NAME :=
  if ex.subject_alt_name then ex.alt.getD [] else []

def get_sans (x : X509) : List (List UInt8) :=
  (x.exts.getD []).flatMap fun ex => (alt_names ex).filterMap san_line

def SSLCERTSTORE_BUFSIZE : Nat := 512

/-- What `X509_NAME_get_text_by_NID` leaves of a name: it is cut to the room in the buffer, and ends
at its first NUL. -/
def get_text (name : List UInt8) : List UInt8 :=
  (name.take (SSLCERTSTORE_BUFSIZE - 1 - 1)).takeWhile (· ≠ 0)

def print_cn (x : X509) : List UInt8 :=
  get_text x.cn

/-! ## The check -/

/-- A wildcard begins with "*.". -/
def wildcard (item : List UInt8) : Bool :=
  [42, 46].isPrefixOf item

/-- `sni_wild`: the SNI with "*" for what stands before its first dot. -/
def sni_wild (sni : List UInt8) : List UInt8 :=
  if 46 ∈ sni then lower (42 :: sni.dropWhile (· ≠ 46)) else []

/-- Whether one trimmed item validates the host. `host` is that of `owner_cx()`. -/
def validates (sni : List UInt8) (host : Option (List UInt8)) (item : List UInt8) : Bool :=
  if ¬ sni.isEmpty then
    if item.length > 4 && DNS.isPrefixOf item then
      let item := lower (item.drop 4)
      if wildcard item then sni_wild sni == item
      -- the lower-case copy of the SNI is not used
      else sni == item
    else false
  else if item.length > 3 && IP.isPrefixOf item then
    match host with
    | some h => h == item.drop 3
    | none => false
  else false

/-- The lines that are split into items. -/
def hostnames (x : X509) : List (List UInt8) :=
  get_sans x ++ [DNS ++ print_cn x]

/-- The two loops, each of which stops at the first item that validates the host. -/
def validated (sni : List UInt8) (host : Option (List UInt8)) (x : X509) : Bool :=
  (hostnames x).any fun candidate =>
    (string_split 44 candidate).any fun item => validates sni host (string_trim item)

/-- A name in a certificate. -/
inductive cert_name
  | san_dns (name : List UInt8)
  | san_ip (ip : List UInt8)
  | cn (name : List UInt8)

/-- All names of a certificate. -/
def names (x : X509) : List cert_name :=
  ((x.exts.getD []).flatMap fun ex => (alt_names ex).filterMap fun
    | .GEN_DNS name => some (.san_dns name)
    | .GEN_IPADD ip => some (.san_ip ip)
    | .other => none) ++ [.cn x.cn]

/-- The SNI is the name, whatever the case of its letters, or the name is a wildcard for the first
label of the SNI. -/
def Matches (sni name : List UInt8) : Prop :=
  lower sni = lower name ∨
    ∃ label rest, sni = label ++ 46 :: rest ∧ 46 ∉ label ∧ lower name = 42 :: 46 :: lower rest

section
variable (inet_ntop : List UInt8 → List UInt8) (sni : List UInt8) (host : Option (List UInt8))

/-- The name is the one that was asked for. `inet_ntop` writes an address as text. -/
def Asked : cert_name → Prop
  | .san_dns name => sni ≠ [] ∧ Matches sni name
  | .san_ip ip => sni = [] ∧ host = some (inet_ntop ip)
  | .cn name => sni ≠ [] ∧ Matches sni name

/-! ## What the check can compare -/

/-- The line that the check makes of a name. -/
def line : cert_name → List UInt8
  | .san_dns name => DNS ++ name
  | .san_ip ip => IP ++ ip
  | .cn name => DNS ++ get_text name

/-- The check sees the name as it is: it has no comma, the common name is not cut, the case of the
SNI does not matter or is low, and an address is its own text. -/
def Plain : cert_name → Prop
  | .san_dns name => 44 ∉ name ∧ (wildcard name ∨ lower sni = sni)
  | .san_ip ip => 44 ∉ ip ∧ ip ≠ [] ∧ inet_ntop ip = ip
  | .cn name => 44 ∉ name ∧ (wildcard name ∨ lower sni = sni) ∧
      get_text name = name

/-- A name that was asked for, and that the check sees as it is. -/
def Shown (x : X509) : Prop :=
  ∃ n ∈ names x, Asked inet_ntop sni host n ∧ Plain inet_ntop sni n

/-- A name that was asked for, and that the check does not see as it is. -/
def Hidden (x : X509) : Prop :=
  ∃ n ∈ names x, Asked inet_ntop sni host n ∧ ¬ Plain inet_ntop sni n

/-- The count for `substr` is below zero, so nothing is cut at the end. -/
theorem string_trim_ret (s : List UInt8) : string_trim s = (s.foldl trim_char {}).ret := by
  unfold string_trim
  simp only
  split
  next hspaces =>
    unfold substr0
    rw [if_pos (by omega)]
  next => rfl

/-- After its first character, the trimming takes all. -/
theorem trim_started (s : List UInt8) {t : trimming} (h : t.start = false) :
    (s.foldl trim_char t).ret = t.ret ++ s := by
  induction s generalizing t with
  | nil => rw [List.foldl_nil, List.append_nil]
  | cons c rest ih =>
    have hstep : trim_char t c =
        { ret := t.ret ++ [c], start := false
          spaces := if isspace c then t.spaces + 1 else 0 } := by
      unfold trim_char
      simp only [h, Bool.and_false]
      rfl
    rw [List.foldl_cons, hstep, ih rfl, List.append_assoc]
    rfl

/-- White space in front is passed over. -/
theorem trim_front (s rest : List UInt8) (h : ∀ c ∈ s, isspace c) (spaces : Nat) :
    ((s ++ rest).foldl trim_char { spaces }) =
      rest.foldl trim_char { spaces := spaces + s.length } := by
  induction s generalizing spaces with
  | nil => rfl
  | cons c s ih =>
    have hstep : trim_char { spaces } c = { spaces := spaces + 1 } := by
      unfold trim_char
      rw [h c List.mem_cons_self]
      rfl
    rw [List.cons_append, List.foldl_cons, hstep, ih fun d hd => h d (List.mem_cons_of_mem _ hd),
      List.length_cons]
    congr 2
    omega

/-- Only what stands in front is taken away. -/
theorem string_trim_eq (s : List UInt8) : string_trim s = s.dropWhile isspace := by
  have hfront : ∀ c ∈ s.takeWhile isspace, isspace c := fun c hc => List.mem_takeWhile_imp hc
  calc string_trim s
      = ((s.takeWhile isspace ++ s.dropWhile isspace).foldl trim_char {}).ret := by
        rw [List.takeWhile_append_dropWhile, string_trim_ret]
    _ = ((s.dropWhile isspace).foldl trim_char
          { spaces := 0 + (s.takeWhile isspace).length }).ret := by
        rw [trim_front _ _ hfront]
    _ = s.dropWhile isspace := by
        cases hrest : s.dropWhile isspace with
        | nil => rfl
        | cons c rest =>
          have hc : isspace c = false := by
            have hnot := List.head?_dropWhile_not isspace s
            rw [hrest] at hnot
            exact hnot
          have hfirst : trim_char { spaces := 0 + (s.takeWhile isspace).length } c =
              { ret := [c], start := false, spaces := 0 } := by
            unfold trim_char
            rw [hc]
            rfl
          rw [List.foldl_cons, hfirst, trim_started rest rfl]
          rfl

end

end socle.hostname
