-- The callbacks that set the verification status of a client connection
-- (sslcom.tpp and sslmitmcom.tpp), as one step of a connection.
import Socle.Stapling

namespace socle.callbacks

open verify crl status stapling

/-! ## Certificate problems -/

def X509_V_OK : Int := 0
def X509_V_ERR_UNABLE_TO_GET_ISSUER_CERT : Int := 2
def X509_V_ERR_CERT_NOT_YET_VALID : Int := 9
def X509_V_ERR_CERT_HAS_EXPIRED : Int := 10
def X509_V_ERR_ERROR_IN_CERT_NOT_BEFORE_FIELD : Int := 13
def X509_V_ERR_ERROR_IN_CERT_NOT_AFTER_FIELD : Int := 14
def X509_V_ERR_DEPTH_ZERO_SELF_SIGNED_CERT : Int := 18
def X509_V_ERR_SELF_SIGNED_CERT_IN_CHAIN : Int := 19
def X509_V_ERR_UNABLE_TO_GET_ISSUER_CERT_LOCALLY : Int := 20
def X509_V_ERR_UNABLE_TO_VERIFY_LEAF_SIGNATURE : Int := 21
def X509_V_ERR_CERT_UNTRUSTED : Int := 27
def X509_V_ERR_NO_EXPLICIT_POLICY : Int := 43
def NID_sha1WithRSAEncryption : Int := 65

/-- The flag of an error code. -/
def problem_of (err_code : Int) : Option verify_status_t :=
  if err_code = X509_V_OK then none
  else if err_code = X509_V_ERR_UNABLE_TO_GET_ISSUER_CERT_LOCALLY ∨
      err_code = X509_V_ERR_UNABLE_TO_VERIFY_LEAF_SIGNATURE ∨
      err_code = X509_V_ERR_UNABLE_TO_GET_ISSUER_CERT then some .VRF_UNKNOWN_ISSUER
  else if err_code = X509_V_ERR_SELF_SIGNED_CERT_IN_CHAIN ∨
      err_code = X509_V_ERR_CERT_UNTRUSTED then some .VRF_SELF_SIGNED_CHAIN
  else if err_code = X509_V_ERR_DEPTH_ZERO_SELF_SIGNED_CERT then some .VRF_SELF_SIGNED
  else if err_code = X509_V_ERR_CERT_NOT_YET_VALID ∨
      err_code = X509_V_ERR_ERROR_IN_CERT_NOT_BEFORE_FIELD then some .VRF_INVALID
  else if err_code = X509_V_ERR_CERT_HAS_EXPIRED ∨
      err_code = X509_V_ERR_ERROR_IN_CERT_NOT_AFTER_FIELD then some .VRF_INVALID
  else if err_code = X509_V_ERR_NO_EXPLICIT_POLICY then none
  else if err_code > X509_V_OK then some .VRF_INVALID
  else none

/-- Whether an `allow_*` option permits a flag. -/
def permitted (opt : SSLComOptionsCert) : verify_status_t → Bool
  | .VRF_UNKNOWN_ISSUER => opt.allow_unknown_issuer
  | .VRF_SELF_SIGNED_CHAIN => opt.allow_self_signed_chain
  | .VRF_SELF_SIGNED => opt.allow_self_signed
  | .VRF_INVALID => opt.allow_not_valid
  | _ => false

/-- The certificate of a chain that the callback is called for, and its signature. -/
structure chain_entry where
  depth : Int
  xcert : Option X509
  sig_nid : Int

/-- The part of `ssl_client_vrfy_callback` that keeps the certificates. -/
def keep_certificate (e : chain_entry) (com : baseSSLCom) : baseSSLCom :=
  if e.depth = 0 then { com with sslcom_target_cert := e.xcert }
  else if e.depth = 1 then
    let com := { com with sslcom_target_issuer := e.xcert }
    if e.xcert.isSome && e.sig_nid = NID_sha1WithRSAEncryption then
      { com.verify_bitset .VRF_EXTENDED_INFO with
        vrf_other_ := com.vrf_other_ ++ [.VRF_OTHER_SHA1_SIGNATURE] }
    else com
  else if e.depth = 2 then { com with sslcom_target_issuer_issuer := e.xcert }
  else com

def ssl_client_vrfy_callback (lib_preverify err_code : Int) (e : chain_entry)
    (com : baseSSLCom) : Int × baseSSLCom :=
  let com := keep_certificate e com
  match problem_of err_code with
  | some f =>
    (if permitted com.opt.cert f || com.opt.cert.failed_check_replacement then 1
      else lib_preverify, com.verify_bitset f)
  | none => (lib_preverify, com)

/-- `ssl_client_cert_callback`. No certificate is ever given. -/
def ssl_client_cert_callback (com : baseSSLCom) : Int × baseSSLCom :=
  let com := com.verify_bitset .VRF_CLIENT_CERT_RQ
  if com.opt.cert.client_cert_action = 0 then
    (if com.opt.cert.failed_check_replacement then 0 else 1, com)
  else if com.opt.cert.client_cert_action = 1 then (0, com)
  else (1, com)

/-! ## Certificate transparency -/

/-- `sct_validation_status_t`. -/
inductive sct_status
  | NOT_SET | UNKNOWN_LOG | VALID | INVALID | UNVERIFIED | UNKNOWN_VERSION
deriving DecidableEq, Repr

/-- An entry: the result of `SCT_validate`, and `SCT_get_validation_status`. -/
structure sct where
  ret_validate : Int
  res_validate : sct_status
deriving DecidableEq, Repr

/-- The counts of the loop. An invalid entry makes the first one -1 for good. -/
structure sct_counts where
  res_ok : Int := 0
  res_failed : Nat := 0
deriving DecidableEq, Repr

/-- One turn of the loop. -/
def count_sct (n : sct_counts) (s : sct) : sct_counts :=
  if s.ret_validate = 1 then
    match s.res_validate with
    | .VALID => { n with res_ok := if n.res_ok ≥ 0 then n.res_ok + 1 else n.res_ok }
    | .INVALID => { res_ok := -1, res_failed := n.res_failed + 1 }
    | _ => { n with res_failed := n.res_failed + 1 }
  else { n with res_failed := n.res_failed + 1 }

/-- The loop that announces each entry that failed. -/
def announce_failed : Nat → baseSSLCom → baseSSLCom
  | 0, com => com
  | n + 1, com =>
    announce_failed n { com.verify_bitset .VRF_CT_FAILED with
      vrf_other_ := com.vrf_other_ ++ [.VRF_OTHER_CT_FAILED] }

def ct_verify_callback (scts : List sct) (com : baseSSLCom) : Bool × baseSSLCom :=
  if scts.length < 2 then
    (com.opt.cert.failed_check_replacement,
      (com.verify_bitreset .VRF_OK).verify_bitset .VRF_CT_MISSING)
  else
    let n := scts.foldl count_sct {}
    if n.res_ok < 0 then
      let com := (com.verify_bitreset .VRF_OK).verify_bitset .VRF_CT_FAILED
      (com.opt.cert.failed_check_replacement, announce_failed n.res_failed
        { com with vrf_other_ := com.vrf_other_ ++ [.VRF_OTHER_CT_INVALID] })
    else if n.res_ok < 2 then
      (true, announce_failed n.res_failed
        ((com.verify_bitreset .VRF_OK).verify_bitset .VRF_CT_MISSING))
    else (true, announce_failed n.res_failed com)

/-! ## The other steps -/

/-- What `baseSSLMitmCom::check_cert` does to the status. `remote` tells whether the other side is
a `baseSSLMitmCom`, `validated` whether a name of the certificate is the one that was asked for. -/
def check_cert (remote validated : Bool) (com : baseSSLCom) : baseSSLCom :=
  if remote then
    if com.verify_status_ ≠ verify_status_t.VRF_OK.val then com
    else if validated then com
    else com.verify_bitset .VRF_HOSTNAME_FAILED
  else com

/-- What `store_session_if_needed` does to the status of a client. -/
def store_session_if_needed (session_reused : Bool) (com : baseSSLCom) : baseSSLCom :=
  if session_reused then (com.verify_bitreset .VRF_NOTTESTED).verify_bitset .VRF_OK else com

/-- `verify_reset(VRF_OK)`, when the connection is bypassed. -/
def bypass (com : baseSSLCom) : baseSSLCom :=
  { com with verify_status_ := verify_status_t.VRF_OK.val }

/-! ## Connections -/

/-- A client connection, with the caches that it shares with others. -/
structure conn where
  com : baseSSLCom
  fac : SSLFactory

inductive event
  | vrfy (lib_preverify err_code : Int) (e : chain_entry)
  | client_cert
  | status_resp (net : servers) (now : Int) (s : stapled)
  | ct (scts : List sct)
  | check_cert (remote validated : Bool)
  | store_session (session_reused : Bool)
  | bypass
  -- what other connections do to the caches
  | other (fac : SSLFactory)

/-- What an event makes of a connection. -/
def step (ssl : openssl) (c : conn) : event → Option conn
  | .vrfy lib_preverify err_code e =>
    some { c with com := (ssl_client_vrfy_callback lib_preverify err_code e c.com).2 }
  | .client_cert => some { c with com := (ssl_client_cert_callback c.com).2 }
  | .status_resp net now s =>
    -- without a result when it does not come back
    (status_resp_callback ssl net now c.fac s c.com).map fun r => { com := r.com, fac := r.fac }
  | .ct scts => some { c with com := (ct_verify_callback scts c.com).2 }
  | .check_cert remote validated => some { c with com := check_cert remote validated c.com }
  | .store_session session_reused =>
    some { c with com := store_session_if_needed session_reused c.com }
  | .bypass => some { c with com := bypass c.com }
  | .other fac => some { c with fac := fac }

/-- A new connection, with any options. -/
def start (opt : SSLComOptions) (fac : SSLFactory) : conn :=
  { com := { opt := opt }, fac := fac }

end socle.callbacks
