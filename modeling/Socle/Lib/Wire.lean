-- Readers of a byte stream, and what it means that a reader reads back what was
-- written, whatever comes behind it. Numbers are in little-endian order.
import Mathlib.Data.List.Basic

namespace lib.wire

/-- A reader takes its bytes from the front of the stream, or fails. -/
abbrev Reader (α : Type) := StateT (List UInt8) Option α

variable {α β : Type}

/-- The reader takes exactly `bs` from any stream that starts with `bs`, and gives `a`. -/
def Reads (r : Reader α) (bs : List UInt8) (a : α) : Prop :=
  ∀ rest, r.run (bs ++ rest) = some (a, rest)

/-! ## Readers -/

def byte : Reader UInt8 := fun
  | [] => none
  | b :: rest => some (b, rest)

/-- The next `n` bytes. -/
def bytes (n : Nat) : Reader (List UInt8) := fun bs =>
  if n ≤ bs.length then some (bs.take n, bs.drop n) else none

def check (p : Bool) : Reader Unit :=
  if p then pure () else failure

/-- The two bytes of a 16-bit number. -/
def le16 (n : Nat) : List UInt8 :=
  [UInt8.ofNat n, UInt8.ofNat (n / 256)]

/-- The four bytes of a 32-bit number. -/
def le32 (n : Nat) : List UInt8 :=
  le16 n ++ le16 (n / 65536)

def get16 : Reader Nat := do
  let lo ← byte
  let hi ← byte
  pure (lo.toNat + 256 * hi.toNat)

def get32 : Reader Nat := do
  let lo ← get16
  let hi ← get16
  pure (lo + 65536 * hi)

/-! ## Rules -/

theorem reads_pure (a : α) : Reads (pure a) [] a :=
  fun _ => rfl

theorem Reads.bind {r : Reader α} {bs : List UInt8} {a : α} (h : Reads r bs a)
    {f : α → Reader β} {cs : List UInt8} {b : β} (hf : Reads (f a) cs b) :
    Reads (r >>= f) (bs ++ cs) b := by
  intro rest
  rw [StateT.run_bind, List.append_assoc, h (cs ++ rest)]
  exact hf rest

/-- A reader that comes first in a stream, and then another one. -/
theorem Reads.run_bind {r : Reader α} {bs : List UInt8} {a : α} (h : Reads r bs a)
    (f : α → Reader β) (rest : List UInt8) : (r >>= f).run (bs ++ rest) = (f a).run rest := by
  rw [StateT.run_bind, h rest]
  rfl

theorem reads_bytes (bs : List UInt8) : Reads (bytes bs.length) bs bs := by
  intro rest
  have hle : bs.length ≤ (bs ++ rest).length := by simp
  simp [StateT.run, bytes]

/-- What follows when the next `n` bytes were read. -/
theorem bytes_run {n : Nat} {f : List UInt8 → Reader β} {bs : List UInt8} {r : β × List UInt8}
    (h : (bytes n >>= f).run bs = some r) :
    n ≤ bs.length ∧ (f (bs.take n)).run (bs.drop n) = some r := by
  rw [StateT.run_bind] at h
  by_cases hn : n ≤ bs.length
  · have hread : (bytes n).run bs = some (bs.take n, bs.drop n) := if_pos hn
    rw [hread] at h
    exact ⟨hn, h⟩
  · have hread : (bytes n).run bs = none := if_neg hn
    rw [hread] at h
    cases h

theorem check_run {p : Bool} (h : p = true) (f : Unit → Reader β) (bs : List UInt8) :
    (check p >>= f).run bs = (f ()).run bs := by
  rw [check, if_pos h, pure_bind]

theorem check_fails {p : Bool} (h : p = false) (f : Unit → Reader β) (bs : List UInt8) :
    (check p >>= f).run bs = none := by
  rw [check, h]
  rfl

theorem reads_get16 (n : Nat) : Reads get16 (le16 n) (n % 65536) := by
  have hval : (UInt8.ofNat n).toNat + 256 * (UInt8.ofNat (n / 256)).toNat = n % 65536 := by
    rw [UInt8.toNat_ofNat', UInt8.toNat_ofNat']
    omega
  intro rest
  rw [← hval]
  rfl

theorem reads_get32 (n : Nat) : Reads get32 (le32 n) (n % 4294967296) := by
  have hval : n % 65536 + 65536 * (n / 65536 % 65536) = n % 4294967296 := by omega
  rw [← hval]
  exact (reads_get16 n).bind ((reads_get16 (n / 65536)).bind (reads_pure _))

@[simp] theorem le16_length (n : Nat) : (le16 n).length = 2 := rfl

@[simp] theorem le32_length (n : Nat) : (le32 n).length = 4 := rfl

end lib.wire
