-- `string_trim` and `escape` (common/display.cpp). A `char` has a sign, and a string is
-- the list of its bytes.
import Mathlib.Data.List.DropRight
import Mathlib.Data.Nat.Digits.Defs
import Socle.Hostname
import Socle.Lib.Text

namespace socle.display

open hostname
open lib.text (Reads)

/-! ## Escaped texts -/

/-- `isprint`, of the C locale. -/
def isprint (c : UInt8) : Bool :=
  32 ≤ c && c ≤ 126

/-- A `char` as the `unsigned int` that `%o` takes it for. -/
def promoted (c : UInt8) : Nat :=
  if c < 128 then c.toNat else 4294967296 - 256 + c.toNat

/-- `%03o`. -/
def octal3 (n : Nat) : List UInt8 :=
  ((Nat.digits 8 n).reverse.map fun d => 48 + d.toUInt8).leftpad 3 48

/-- What the loop of `escape` writes for one character. -/
def escape_char (ascii_only escape_space : Bool) (c : UInt8) : List UInt8 :=
  if isprint c && c ∉ [39, 34, 92, 63, 37, 32] then [c]
  else
    match c with
    -- escape in all cases
    | 7 => [92, 97]
    | 8 => [92, 98]
    | 12 => [92, 102]
    | 11 => [92, 118]
    | 92 => [92, 92]
    -- escape only when we want to print string out
    | 37 => if ascii_only then [37, 37] else []
    -- escape if full escape requested
    | 10 => if ascii_only then [] else [92, 110]
    | 9 => if ascii_only then [] else [92, 116]
    | 13 => if ascii_only then [] else [92, 114]
    | 39 => if ascii_only then [] else [92, 39]
    | 34 => if ascii_only then [] else [92, 34]
    | 63 => if ascii_only then [] else [92, 63]
    | 32 => if escape_space then [92, 32] else [32]
    | c => if ascii_only then [] else 92 :: octal3 (promoted c)

def escape (orig : List UInt8) (ascii_only escape_space : Bool) : List UInt8 :=
  orig.flatMap (escape_char ascii_only escape_space)

example : escape [97, 32, 10, 255] false true =
    [97, 92, 32, 92, 110, 92, 51, 55, 55, 55, 55, 55, 55, 55, 55, 55, 55] := by decide

/-! ## What can be read again -/

/-- The character that a letter behind a backslash stands for. -/
def named (letter : UInt8) : Option UInt8 :=
  match letter with
  | 97 => some 7
  | 98 => some 8
  | 102 => some 12
  | 118 => some 11
  | 92 => some 92
  | 110 => some 10
  | 116 => some 9
  | 114 => some 13
  | 39 => some 39
  | 34 => some 34
  | 63 => some 63
  | 32 => some 32
  | _ => none

/-- How many digits there are when the first is this one: three, or the eleven of a negative
`char`. -/
def width (digit : UInt8) : Nat :=
  if digit = 51 then 11 else 3

/-- The lowest byte of an octal number. -/
def value (digits : List UInt8) : UInt8 :=
  digits.foldl (fun v d => v * 8 + (d - 48)) 0

/-- The character that a fully escaped text begins with, and what is behind it. -/
def unescape_char : List UInt8 → Option (UInt8 × List UInt8)
  | [] => none
  | [c] => some (c, [])
  | c :: letter :: rest =>
    if c = 92 then
      match named letter with
      | some c => some (c, rest)
      | none => some (value ((letter :: rest).take (width letter)),
          (letter :: rest).drop (width letter))
    else some (c, letter :: rest)

/-- An octal number tells its length and its byte. -/
theorem octal3_word (c : UInt8) :
    ∃ d ds, octal3 (promoted c) = d :: ds ∧ (d :: ds).length = width d ∧ named d = none ∧
      value (d :: ds) = c ∧ (d :: ds).all isprint := by
  have hword : ∀ n < 256, let word := octal3 (promoted (UInt8.ofNat n))
      word ≠ [] ∧ word.length = width word.headI ∧ named word.headI = none ∧
        value word = UInt8.ofNat n ∧ word.all isprint := by
    decide +kernel
  have h := hword c.toNat c.toNat_lt
  rw [UInt8.ofNat_toNat] at h
  obtain ⟨hne, h⟩ := h
  obtain ⟨d, ds, hds⟩ := List.exists_cons_of_ne_nil hne
  rw [hds] at h
  exact ⟨d, ds, hds, h⟩

section

variable (escape_space : Bool)

/-- A character is written as it is, as a letter that stands for it, or as its number. -/
theorem escape_char_cases {c : UInt8} (hc : c ≠ 37) :
    (escape_char false escape_space c = [c] ∧ c ≠ 92 ∧ isprint c) ∨
    (∃ letter, escape_char false escape_space c = [92, letter] ∧ named letter = some c ∧
      isprint letter) ∨
    escape_char false escape_space c = 92 :: octal3 (promoted c) := by
  unfold escape_char
  split
  next h =>
    rw [Bool.and_eq_true, decide_eq_true_eq] at h
    exact Or.inl ⟨rfl, fun heq => h.2 (by simp [heq]), h.1⟩
  next =>
    split
    -- '%'
    case h_6 => exact absurd rfl hc
    -- the space
    case h_13 =>
      cases escape_space with
      | false => exact Or.inl ⟨rfl, by decide, by decide⟩
      | true => exact Or.inr (Or.inl ⟨32, rfl, rfl, by decide⟩)
    -- what has no name
    case h_14 => exact Or.inr (Or.inr rfl)
    all_goals exact Or.inr (Or.inl ⟨_, rfl, rfl, by decide⟩)

/-- Each character but '%' can be read again. -/
theorem unescape_reads :
    Reads (fun c => c ≠ 37) (escape_char false escape_space) unescape_char := by
  refine ⟨rfl, fun {c} hc rest => ?_⟩
  rcases escape_char_cases escape_space hc with ⟨h, hne, -⟩ | ⟨letter, h, hnamed, -⟩ | h
  · rw [h]
    cases rest with
    | nil => rfl
    | cons d rest => exact if_neg hne
  · rw [h]
    show (match named letter with
      | some c => some (c, rest)
      | none => _) = some (c, rest)
    rw [hnamed]
  · obtain ⟨d, ds, hword, hlen, hnamed, hvalue, -⟩ := octal3_word c
    rw [h, hword]
    show (match named d with
      | some c => some (c, ds ++ rest)
      | none => some (value ((d :: ds ++ rest).take (width d)), (d :: ds ++ rest).drop (width d))) =
        some (c, rest)
    rw [hnamed]
    simp only
    rw [← hlen, List.take_left, List.drop_left, hvalue]

/-- '%' leaves nothing. -/
theorem escape_percent : escape_char false escape_space 37 = [] := by
  cases escape_space <;> rfl

theorem escape_kept (orig : List UInt8) :
    escape orig false escape_space = escape (orig.filter (· ≠ 37)) false escape_space := by
  unfold escape
  induction orig with
  | nil => rfl
  | cons c orig ih =>
    rw [List.flatMap_cons, ih]
    by_cases hc : c = 37
    · rw [hc, escape_percent, List.filter_cons_of_neg (by decide), List.nil_append]
    · rw [List.filter_cons, if_pos (decide_eq_true hc), List.flatMap_cons]

/-- Two texts are escaped alike just when they differ in '%' only. -/
theorem escape_eq_iff (a b : List UInt8) :
    escape a false escape_space = escape b false escape_space ↔
      a.filter (· ≠ 37) = b.filter (· ≠ 37) := by
  constructor
  · intro h
    rw [escape_kept, escape_kept escape_space b] at h
    have hkept : ∀ orig : List UInt8, ∀ c ∈ orig.filter (· ≠ 37), c ≠ 37 := by
      intro orig c hc
      exact of_decide_eq_true (List.mem_filter.mp hc).2
    exact (unescape_reads escape_space).flatMap_inj (hkept a) (hkept b) h
  · intro h
    rw [escape_kept, h, ← escape_kept]

theorem escape_char_printable (c : UInt8) :
    ∀ d ∈ escape_char false escape_space c, isprint d := by
  intro d hd
  by_cases hc : c = 37
  · rw [hc, escape_percent] at hd
    cases hd
  · rcases escape_char_cases escape_space hc with ⟨h, -, hprint⟩ | ⟨letter, h, -, hprint⟩ | h
    · rw [h, List.mem_singleton] at hd
      rw [hd]
      exact hprint
    · rw [h, List.mem_cons, List.mem_singleton] at hd
      rcases hd with rfl | rfl
      · decide
      · exact hprint
    · obtain ⟨e, es, hword, -, -, -, hall⟩ := octal3_word c
      rw [h, hword, List.mem_cons] at hd
      rcases hd with rfl | hd
      · decide
      · exact List.all_eq_true.mp hall d hd

/-- An escaped text is printable. -/
theorem escape_printable (orig : List UInt8) :
    ∀ d ∈ escape orig false escape_space, isprint d := by
  intro d hd
  obtain ⟨c, -, hmem⟩ := List.mem_flatMap.mp hd
  exact escape_char_printable escape_space c d hmem

/-- Full escaping loses nothing of the two texts. -/
structure Lossless (a b : List UInt8) : Prop where
  identifies : escape a false escape_space = escape b false escape_space → a = b
  printable : ∀ orig ∈ [a, b], ∀ d ∈ escape orig false escape_space, isprint d

/-- Full escaping loses nothing just when texts that are not the same differ in more than '%'. -/
theorem lossless_iff (a b : List UInt8) :
    Lossless escape_space a b ↔ a = b ∨ a.filter (· ≠ 37) ≠ b.filter (· ≠ 37) := by
  constructor
  · rintro ⟨h, -⟩
    by_cases hab : a = b
    · exact Or.inl hab
    · exact Or.inr fun hkept => hab (h ((escape_eq_iff escape_space a b).mpr hkept))
  · intro h
    refine ⟨fun heq => ?_, fun orig _ => escape_printable escape_space orig⟩
    rcases h with h | h
    · exact h
    · exact absurd ((escape_eq_iff escape_space a b).mp heq) h

end

/-- "a%" is escaped as "a" is. -/
theorem a_percent_is_lost :
    ¬ ∀ (escape_space : Bool) (a b : List UInt8), Lossless escape_space a b := by
  intro h
  have hlost := (h false [97, 37] [97]).identifies (by decide)
  cases hlost

/-! ## Trimmed texts -/

/-- `string_trim` takes the white space at both ends away, and it has nothing to do on what it
returns. -/
structure Trims (s : List UInt8) : Prop where
  stripped : string_trim s = (s.dropWhile isspace).rdropWhile isspace
  again : string_trim (string_trim s) = string_trim s

theorem getLast_dropWhile {s : List UInt8} (hne : s.dropWhile isspace ≠ []) :
    s.getLast? = some ((s.dropWhile isspace).getLast hne) := by
  rw [← List.getLast?_eq_some_getLast hne]
  calc s.getLast?
      = (s.takeWhile isspace ++ s.dropWhile isspace).getLast? := by
        rw [List.takeWhile_append_dropWhile]
    _ = (s.dropWhile isspace).getLast? := List.getLast?_append_of_ne_nil _ hne

/-- A text is trimmed right just when it is white space as a whole, or does not end with a white
space. -/
theorem trims_iff (s : List UInt8) :
    Trims s ↔ (∀ c ∈ s, isspace c) ∨ ∀ c ∈ s.getLast?, ¬ isspace c := by
  have hagain : string_trim (string_trim s) = string_trim s := by
    rw [string_trim_eq, string_trim_eq, List.dropWhile_idempotent]
  have hstripped : Trims s ↔
      ∀ hne : s.dropWhile isspace ≠ [], ¬ isspace ((s.dropWhile isspace).getLast hne) := by
    rw [← List.rdropWhile_eq_self_iff]
    constructor
    · intro h
      rw [← h.stripped, string_trim_eq]
    · intro h
      exact ⟨by rw [string_trim_eq, h], hagain⟩
  rw [hstripped, ← List.dropWhile_eq_nil_iff]
  by_cases hnil : s.dropWhile isspace = []
  · constructor
    · intro _
      exact Or.inl hnil
    · intro _ hne
      exact absurd hnil hne
  · rw [or_iff_right hnil, getLast_dropWhile hnil]
    constructor
    · rintro h c hc
      rw [← Option.mem_some.mp hc]
      exact h hnil
    · intro h hne
      exact h _ rfl

/-- "a " stays as it is. -/
theorem a_blank_is_not_trimmed : ¬ ∀ s : List UInt8, Trims s := by
  intro h
  have hstripped := (h [97, 32]).stripped
  revert hstripped
  decide

end socle.display
