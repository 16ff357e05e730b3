-- The verification status of a TLS connection (sslcom.hpp): 14 flags in an
-- `unsigned int`, and the functions that set, clear and test one of them.
import Mathlib.Tactic

namespace socle.verify

inductive verify_status_t
  | VRF_OK | VRF_UNKNOWN_ISSUER | VRF_SELF_SIGNED | VRF_INVALID | VRF_SELF_SIGNED_CHAIN
  | VRF_REVOKED | VRF_CLIENT_CERT_RQ | VRF_HOSTNAME_FAILED | VRF_CT_MISSING | VRF_CT_FAILED
  | VRF_DEFERRED | VRF_EXTENDED_INFO | VRF_ALLFAILED | VRF_NOTTESTED
deriving DecidableEq, Repr

open verify_status_t

/-- The value of a flag. -/
def verify_status_t.val : verify_status_t → BitVec 32
  | VRF_OK => 0x1
  | VRF_UNKNOWN_ISSUER => 0x2
  | VRF_SELF_SIGNED => 0x4
  | VRF_INVALID => 0x8
  | VRF_SELF_SIGNED_CHAIN => 0x10
  | VRF_REVOKED => 0x20
  | VRF_CLIENT_CERT_RQ => 0x40
  | VRF_HOSTNAME_FAILED => 0x80
  | VRF_CT_MISSING => 0x100
  | VRF_CT_FAILED => 0x200
  | VRF_DEFERRED => 0x1000
  | VRF_EXTENDED_INFO => 0x2000
  | VRF_ALLFAILED => 0x4000
  | VRF_NOTTESTED => 0x8000

/-- The bit of a flag. -/
def verify_status_t.bit : verify_status_t → Nat
  | VRF_OK => 0
  | VRF_UNKNOWN_ISSUER => 1
  | VRF_SELF_SIGNED => 2
  | VRF_INVALID => 3
  | VRF_SELF_SIGNED_CHAIN => 4
  | VRF_REVOKED => 5
  | VRF_CLIENT_CERT_RQ => 6
  | VRF_HOSTNAME_FAILED => 7
  | VRF_CT_MISSING => 8
  | VRF_CT_FAILED => 9
  | VRF_DEFERRED => 12
  | VRF_EXTENDED_INFO => 13
  | VRF_ALLFAILED => 14
  | VRF_NOTTESTED => 15

/-- `flag_check(v, f)`, which is also `verify_bitcheck`. -/
def flag_check (v : BitVec 32) (f : verify_status_t) : Bool :=
  v &&& f.val != 0

/-- `flag_set(v, f)`. -/
def flag_set (v : BitVec 32) (f : verify_status_t) : BitVec 32 :=
  v ||| f.val

/-- `flag_reset(v, f)`. -/
def flag_reset (v : BitVec 32) (f : verify_status_t) : BitVec 32 :=
  v &&& ~~~f.val

theorem val_eq_twoPow (f : verify_status_t) : f.val = BitVec.twoPow 32 f.bit := by
  cases f <;> rfl

theorem bit_lt (f : verify_status_t) : f.bit < 32 := by
  cases f <;> decide

theorem bit_inj {f g : verify_status_t} : f.bit = g.bit ↔ f = g := by
  cases f <;> cases g <;> decide

/-- A flag is set when its bit is. -/
theorem flag_check_eq (v : BitVec 32) (f : verify_status_t) : flag_check v f = v.getLsbD f.bit := by
  unfold flag_check
  rw [val_eq_twoPow, BitVec.and_twoPow]
  cases hb : v.getLsbD f.bit with
  | true =>
    have hne : BitVec.twoPow 32 f.bit ≠ 0#32 := by
      rw [← val_eq_twoPow]
      cases f <;> decide
    simp [hne]
  | false => simp

@[simp] theorem flag_check_set (v : BitVec 32) (f g : verify_status_t) :
    flag_check (flag_set v f) g = (decide (f = g) || flag_check v g) := by
  have hf := bit_lt f
  have hg := bit_lt g
  rw [flag_check_eq, flag_check_eq, flag_set, BitVec.getLsbD_or, val_eq_twoPow,
    BitVec.getLsbD_twoPow, Bool.or_comm]
  simp [hf, hg, bit_inj]

@[simp] theorem flag_check_reset (v : BitVec 32) (f g : verify_status_t) :
    flag_check (flag_reset v f) g = (!decide (f = g) && flag_check v g) := by
  have hf := bit_lt f
  have hg := bit_lt g
  rw [flag_check_eq, flag_check_eq, flag_reset, BitVec.getLsbD_and, BitVec.getLsbD_not,
    val_eq_twoPow, BitVec.getLsbD_twoPow, Bool.and_comm]
  simp [hf, hg, bit_inj]

/-- `verify_reset(f)` leaves just `f`. -/
@[simp] theorem flag_check_val (f g : verify_status_t) : flag_check f.val g = decide (f = g) := by
  cases f <;> cases g <;> decide

end socle.verify
