-- `hex_dump` (common/display.cpp). Each line has an address, sixteen bytes, and the
-- same bytes as characters. The characters of a line are written when the next
-- line begins.
import Mathlib.Data.Nat.Digits.Defs
import Mathlib.Data.List.Basic
import Mathlib.Tactic.IntervalCases

namespace socle.display.dump

/-! ## Model -/

/-- What `hex_dump` is told besides the data. -/
structure Form where
  ltrim : Nat := 0
  pre : UInt8 := 0
  add_cr : Bool := false
  fake_pos : Nat := 0

def MAX_HEXDUMP_SIZE : Nat := 1024

def hex_digit (n : Nat) : Char :=
  if n < 10 then Char.ofNat (48 + n) else Char.ofNat (55 + n)

/-- `%02X`. -/
def hex2 (c : UInt8) : List Char :=
  [hex_digit (c.toNat / 16), hex_digit (c.toNat % 16)]

/-- `%04X`, which takes 32 bits of its argument. -/
def hex4 (n : Nat) : List Char :=
  (((Nat.digits 16 (n % 4294967296)).reverse.map hex_digit)).leftpad 4 '0'

/-- A character that is seen as itself. -/
def filter_visi (c : UInt8) : Char :=
  if c < 33 || c > 126 || c = 92 || c = 37 then '.' else Char.ofNat c.toNat

def cr (f : Form) : List Char :=
  if f.add_cr then ['\r'] else []

/-- A new line, with its address. -/
def new_line (f : Form) (i : Nat) : List Char :=
  List.replicate f.ltrim ' ' ++ (if f.pre ≠ 0 then [Char.ofNat f.pre.toNat] else []) ++ cr f ++
    ['\n', '['] ++ hex4 (i + f.fake_pos) ++ [']', ' ', ' ']

def too_large : List Char :=
  "\n[....]                                                      <data too large>".toList

/-- What stands behind the last byte. -/
def finish (f : Form) (size : Nat) (ascii_line : List Char) (truncated : Bool) : List Char :=
  List.replicate (3 * (16 - size % 16)) ' ' ++
    (if size % 16 ≠ 0 then (if size % 16 ≤ 8 then [' ', ' '] else []) ++ ascii_line else []) ++
    (if truncated then cr f ++ too_large else []) ++ cr f ++ ['\n']

/-- What stands in front of byte `i`. -/
def front (f : Form) (i : Nat) (ascii_line : List Char) : List Char :=
  if i % 16 = 0 then ascii_line ++ new_line f i
  else if i % 8 = 0 then [' ', ' ']
  else []

/-- The characters of the line, with those of byte `i`. -/
def next_ascii (i : Nat) (ascii_line : List Char) (c : UInt8) : List Char :=
  (if i % 16 = 0 then [' ', ' '] else ascii_line) ++ [filter_visi c]

/-- The loop from byte `i`. -/
def loop (f : Form) (i : Nat) (ascii_line : List Char) : List UInt8 → List Char
  | [] => finish f i ascii_line false
  | c :: rest =>
    front f i ascii_line ++ hex2 c ++ [' '] ++
      if MAX_HEXDUMP_SIZE ≤ i then finish f (i + 1) (next_ascii i ascii_line c) true
      else loop f (i + 1) (next_ascii i ascii_line c) rest

def hex_dump (f : Form) (data : List UInt8) : List Char :=
  loop f 0 [] data

example : hex_dump { pre := 62 } [72, 105, 10] =
    ">\n[0000]  48 69 0A                                            Hi.\n".toList := by decide

/-! ## Bytes that are read back -/

theorem hex_digit_ne (n : Nat) (hn : n < 16) : hex_digit n ≠ ' ' := by
  interval_cases n <;> decide

theorem hex_digit_inj {m n : Nat} (hm : m < 16) (hn : n < 16) (h : hex_digit m = hex_digit n) :
    m = n := by
  have hnat : ∀ k < 16, (hex_digit k).toNat = if k < 10 then 48 + k else 55 + k := by decide
  have heq := congrArg Char.toNat h
  rw [hnat m hm, hnat n hn] at heq
  split at heq <;> split at heq <;> omega

theorem hex2_inj {c d : UInt8} (h : hex2 c = hex2 d) : c = d := by
  have hc := c.toNat_lt
  have hd := d.toNat_lt
  simp only [hex2, List.cons.injEq, and_true] at h
  have hhigh : c.toNat / 16 = d.toNat / 16 := hex_digit_inj (by omega) (by omega) h.1
  have hlow : c.toNat % 16 = d.toNat % 16 := hex_digit_inj (by omega) (by omega) h.2
  exact UInt8.toNat_inj.mp (by omega)

theorem filter_visi_ne (c : UInt8) : filter_visi c ≠ ' ' := by
  have hall : ∀ n < 256, filter_visi (UInt8.ofNat n) ≠ ' ' := by decide +kernel
  simpa using hall c.toNat c.toNat_lt

/-- The characters of a line that is begun are two blanks, and one that is no blank. -/
def Begun (i : Nat) (ascii_line : List Char) : Prop :=
  (i = 0 ∧ ascii_line = []) ∨ ∃ v r, ascii_line = ' ' :: ' ' :: v :: r ∧ v ≠ ' '

theorem begun_next {i : Nat} {ascii_line : List Char} (h : Begun i ascii_line) (c : UInt8) :
    Begun (i + 1) (next_ascii i ascii_line c) := by
  right
  unfold next_ascii
  by_cases hi : i % 16 = 0
  · rw [if_pos hi]
    exact ⟨filter_visi c, [], rfl, filter_visi_ne c⟩
  · rw [if_neg hi]
    rcases h with ⟨rfl, -⟩ | ⟨v, r, rfl, hv⟩
    · exact absurd rfl hi
    · exact ⟨v, r ++ [filter_visi c], rfl, hv⟩

/-- Behind the last byte there are three blanks at least. -/
theorem finish_blank (f : Form) (i : Nat) (ascii_line : List Char) (truncated : Bool) :
    ∃ rest, finish f i ascii_line truncated = ' ' :: ' ' :: ' ' :: rest := by
  have hsplit : 3 * (16 - i % 16) = 3 + 3 * (15 - i % 16) := by omega
  unfold finish
  rw [hsplit, List.replicate_add]
  exact ⟨_, rfl⟩

/-- An end is not taken for one more byte. -/
theorem finish_ne {f : Form} {i : Nat} {ascii_line : List Char} (h : Begun i ascii_line) (c : UInt8)
    (rest : List Char) :
    finish f i ascii_line false ≠ front f i ascii_line ++ hex2 c ++ [' '] ++ rest := by
  have hhex : hex_digit (c.toNat / 16) ≠ ' ' := by
    have hc := c.toNat_lt
    exact hex_digit_ne _ (by omega)
  obtain ⟨blanks, hblanks⟩ := finish_blank f i ascii_line false
  intro heq
  unfold front at heq
  by_cases h16 : i % 16 = 0
  · rw [if_pos h16] at heq
    rcases h with ⟨rfl, rfl⟩ | ⟨v, r, rfl, hv⟩
    · -- there is no line before the first byte
      have hin : '[' ∈ finish f 0 [] false := by
        rw [heq]
        simp [new_line]
      have hout : '[' ∉ finish f 0 [] false := by
        cases hcr : f.add_cr <;> simp [finish, cr, hcr]
      exact hout hin
    · rw [hblanks] at heq
      have hthird := congrArg (fun l => l[2]?) heq
      exact hv (Option.some.inj hthird).symm
  · rw [if_neg h16, hblanks] at heq
    split at heq
    · have hthird := congrArg (fun l => l[2]?) heq
      exact hhex (Option.some.inj hthird).symm
    · have hfirst := congrArg (fun l => l[0]?) heq
      exact hhex (Option.some.inj hfirst).symm

theorem loop_inj {f : Form} {a b : List UInt8} {i : Nat} {ascii_line : List Char}
    (hbegun : Begun i ascii_line) (hi : i ≤ MAX_HEXDUMP_SIZE)
    (h : loop f i ascii_line a = loop f i ascii_line b) :
    a.take (MAX_HEXDUMP_SIZE + 1 - i) = b.take (MAX_HEXDUMP_SIZE + 1 - i) := by
  induction a generalizing b i ascii_line with
  | nil =>
    cases b with
    | nil => rfl
    | cons d b => exact absurd h (finish_ne hbegun d _)
  | cons c a ih =>
    cases b with
    | nil => exact absurd h.symm (finish_ne hbegun c _)
    | cons d b =>
      rw [loop, loop, List.append_assoc, List.append_assoc, List.append_assoc, List.append_assoc]
        at h
      have hrest := List.append_cancel_left h
      have hhex : hex2 c = hex2 d := by
        have htwo := congrArg (List.take 2) hrest
        simpa [hex2] using htwo
      obtain rfl := hex2_inj hhex
      have htail := List.append_cancel_left (List.append_cancel_left hrest)
      have hlength : MAX_HEXDUMP_SIZE + 1 - i = MAX_HEXDUMP_SIZE - i + 1 := by omega
      rw [hlength, List.take_succ_cons, List.take_succ_cons]
      congr 1
      by_cases hmax : MAX_HEXDUMP_SIZE ≤ i
      · rw [Nat.sub_eq_zero_of_le hmax, List.take_zero, List.take_zero]
      · rw [if_neg hmax, if_neg hmax] at htail
        have hnext := ih (begun_next hbegun c) (by omega) htail
        rwa [Nat.add_sub_add_right] at hnext

theorem loop_take {f : Form} {a b : List UInt8} {i : Nat} {ascii_line : List Char}
    (hi : i ≤ MAX_HEXDUMP_SIZE)
    (h : a.take (MAX_HEXDUMP_SIZE + 1 - i) = b.take (MAX_HEXDUMP_SIZE + 1 - i)) :
    loop f i ascii_line a = loop f i ascii_line b := by
  have hlength : MAX_HEXDUMP_SIZE + 1 - i = MAX_HEXDUMP_SIZE - i + 1 := by omega
  rw [hlength] at h
  induction a generalizing b i ascii_line with
  | nil =>
    cases b with
    | nil => rfl
    | cons d b => simp at h
  | cons c a ih =>
    cases b with
    | nil => simp at h
    | cons d b =>
      rw [List.take_succ_cons, List.take_succ_cons, List.cons.injEq] at h
      obtain ⟨rfl, hrest⟩ := h
      rw [loop, loop]
      congr 1
      by_cases hmax : MAX_HEXDUMP_SIZE ≤ i
      · rw [if_pos hmax, if_pos hmax]
      · rw [if_neg hmax, if_neg hmax]
        have hnext : MAX_HEXDUMP_SIZE - i = MAX_HEXDUMP_SIZE - (i + 1) + 1 := by omega
        rw [hnext] at hrest
        exact ih (by omega) hrest (by omega)

/-- A dump tells the first 1025 bytes of the data, with how many they are if they are fewer, and
nothing else. -/
theorem hex_dump_eq_iff (f : Form) (a b : List UInt8) :
    hex_dump f a = hex_dump f b ↔
      a.take (MAX_HEXDUMP_SIZE + 1) = b.take (MAX_HEXDUMP_SIZE + 1) := by
  constructor
  · exact loop_inj (Or.inl ⟨rfl, rfl⟩) (Nat.zero_le _)
  · exact loop_take (Nat.zero_le _)

end socle.display.dump
