-- What the callbacks of a TLS connection share (sslcom.hpp): the options of
-- the connection, its certificates, and where its verification stands.
import Mathlib.Tactic
import Socle.VerifyStatus
import Socle.Crl

namespace socle

open verify crl

structure SSLComOptionsCert where
  allow_unknown_issuer : Bool := false
  allow_self_signed_chain : Bool := false
  allow_not_valid : Bool := false
  allow_self_signed : Bool := false
  failed_check_replacement : Bool := true
  client_cert_action : Int := 1
deriving DecidableEq, Repr

structure SSLComOptionsOcsp where
  stapling_mode : Int := 0
  enforce_in_verify : Bool := false
deriving DecidableEq, Repr

structure SSLComOptions where
  cert : SSLComOptionsCert := {}
  ocsp : SSLComOptionsOcsp := {}
deriving DecidableEq, Repr

inductive verify_origin_t
  | NONE | OCSP_STAPLING | OCSP_CACHE | OCSP | CRL_CACHE | CRL | EXEMPT
deriving DecidableEq, Repr

inductive vrf_other_values_t
  | VRF_OTHER_SHA1_SIGNATURE | VRF_OTHER_CT_INVALID | VRF_OTHER_CT_FAILED
deriving DecidableEq, Repr

/-- What the callbacks read and write of a `baseSSLCom`. -/
structure baseSSLCom where
  opt : SSLComOptions := {}
  sslcom_target_cert : Option X509 := none
  sslcom_target_issuer : Option X509 := none
  sslcom_target_issuer_issuer : Option X509 := none
  ocsp_cert_is_revoked : Int := -1
  verify_status_ : BitVec 32 := verify_status_t.VRF_NOTTESTED.val
  verify_origin_ : verify_origin_t := .NONE
  vrf_other_ : List vrf_other_values_t := []
deriving DecidableEq, Repr

namespace baseSSLCom

def verify_bitcheck (com : baseSSLCom) (f : verify_status_t) : Bool :=
  flag_check com.verify_status_ f

def verify_bitset (com : baseSSLCom) (f : verify_status_t) : baseSSLCom :=
  { com with verify_status_ := flag_set com.verify_status_ f }

def verify_bitreset (com : baseSSLCom) (f : verify_status_t) : baseSSLCom :=
  { com with verify_status_ := flag_reset com.verify_status_ f }

/-- `verify_origin(v)`. -/
def verify_origin (com : baseSSLCom) (v : verify_origin_t) : baseSSLCom :=
  { com with verify_origin_ := v }

section
variable (com : baseSSLCom) (f g : verify_status_t) (v : verify_origin_t)

@[simp] theorem verify_bitcheck_set :
    (com.verify_bitset f).verify_bitcheck g = (decide (f = g) || com.verify_bitcheck g) := by
  simp [verify_bitcheck, verify_bitset]

@[simp] theorem verify_bitcheck_reset :
    (com.verify_bitreset f).verify_bitcheck g = (!decide (f = g) && com.verify_bitcheck g) := by
  simp [verify_bitcheck, verify_bitreset]

@[simp] theorem verify_bitcheck_origin :
    (com.verify_origin v).verify_bitcheck g = com.verify_bitcheck g := rfl

@[simp] theorem verify_bitset_opt : (com.verify_bitset f).opt = com.opt := rfl

@[simp] theorem verify_bitreset_opt : (com.verify_bitreset f).opt = com.opt := rfl

@[simp] theorem verify_origin_opt : (com.verify_origin v).opt = com.opt := rfl

@[simp] theorem verify_bitset_target_cert :
    (com.verify_bitset f).sslcom_target_cert = com.sslcom_target_cert := rfl

@[simp] theorem verify_bitreset_target_cert :
    (com.verify_bitreset f).sslcom_target_cert = com.sslcom_target_cert := rfl

@[simp] theorem verify_bitset_target_issuer :
    (com.verify_bitset f).sslcom_target_issuer = com.sslcom_target_issuer := rfl

@[simp] theorem verify_bitreset_target_issuer :
    (com.verify_bitreset f).sslcom_target_issuer = com.sslcom_target_issuer := rfl

end

end baseSSLCom

end socle
