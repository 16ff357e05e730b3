-- Certificate revocation lists (sslcertval.cpp, namespace inet::crl). What
-- OpenSSL decides is a parameter, and the rest is the code of both variants
-- of `crl_is_revoked_by`.
import Mathlib.Tactic

namespace socle.crl

/-! ## Certificates and lists -/

/-- `ASN1_INTEGER`: the magnitude in `data`, the sign in `type`. -/
structure ASN1_INTEGER where
  data : List UInt8
  negative : Bool := false
deriving DecidableEq, Repr

/-- The name of a distribution point. -/
inductive DIST_POINT_NAME
  | fullname (names : List (List UInt8))
  | relativename (entries : List (List UInt8))
deriving DecidableEq, Repr

structure EVP_PKEY where
  spki : List UInt8
deriving DecidableEq, Repr

/-- What is read of a certificate. `der` stands for all that is only handed on. -/
structure X509 where
  serialNumber : ASN1_INTEGER
  pubkey : Option EVP_PKEY := none
  crl_distribution_points : List DIST_POINT_NAME := []
  der : List UInt8 := []
deriving DecidableEq, Repr

structure X509_REVOKED where
  serialNumber : ASN1_INTEGER
  removeFromCRL : Bool := false
deriving DecidableEq, Repr

structure X509_CRL where
  revoked : List X509_REVOKED
  der : List UInt8 := []
deriving DecidableEq, Repr

/-- The build and the functions of OpenSSL. A `-1` of `X509_CRL_verify` is an error, such as an
algorithm that is not known. -/
structure openssl where
  USE_OPENSSL11 : Bool
  X509_CRL_verify : X509_CRL → EVP_PKEY → Int
  X509_verify_cert : X509 → X509 → X509_CRL → Int

/-- `X509_CRL_get0_by_serial`: 1 with the entry, or 2 when its reason is `removeFromCRL`. -/
def X509_CRL_get0_by_serial (crl : X509_CRL) (serial : ASN1_INTEGER) : Int × Option X509_REVOKED :=
  match crl.revoked.find? fun e => e.serialNumber = serial with
  | some e => (if e.removeFromCRL then 2 else 1, some e)
  | none => (0, none)

/-! ## The functions of inet::crl -/

def crl_urls (x509 : X509) : List (List UInt8) :=
  x509.crl_distribution_points.flatMap fun
    | .fullname names => names
    | .relativename entries => entries

/-- `crl_verify_trust`. The store gets the CRL, and its flag, after the context was made of it. -/
def crl_verify_trust (ssl : openssl) (x509 issuer : X509) (crl_file : X509_CRL) : Int :=
  ssl.X509_verify_cert x509 issuer crl_file

/-- The loop over the entries, without `USE_OPENSSL11`. It compares length and bytes. -/
def scan_revoked (serial : ASN1_INTEGER) : List X509_REVOKED → Int → Int
  | [], is_revoked => is_revoked
  | entry :: revoked_list, is_revoked =>
    if is_revoked ≠ 0 then is_revoked
    else
      scan_revoked serial revoked_list
        (if entry.serialNumber.data = serial.data then 1 else is_revoked)

/-- `BIO_new_string` of biostring.cpp: whether it comes back. With `USE_OPENSSL11` the new BIO is
reset by `bio_string_new`, each control of it is one of `bio_string_ctrl`, and this one first asks
for the memory by another control. So none of these calls ends. -/
def BIO_new_string (ssl : openssl) : Option Unit :=
  if ssl.USE_OPENSSL11 then none else some ()

/-- `crl_is_revoked_by`, which has no result when it does not come back. -/
def crl_is_revoked_by (ssl : openssl) (x509 : X509) (issuer : Option X509)
    (crl_file : Option X509_CRL) : Option Int :=
  match issuer with
  | none => some (-1)
  | some issuer =>
    match crl_file, issuer.pubkey with
    | some crl, some ikey =>
      if ssl.X509_CRL_verify crl ikey ≠ 0 then
        if ssl.USE_OPENSSL11 then
          let (found, myentry) := X509_CRL_get0_by_serial crl x509.serialNumber
          -- an entry that is found is to be logged, and the result stays as it is
          if found > 0 ∧ myentry.isSome then (BIO_new_string ssl).map fun _ => 0
          else some 0
        else some (scan_revoked x509.serialNumber crl.revoked 0)
      else some (-1)
    | _, _ => some (-1)

/-! ## What the answer is to be -/

/-- The CRL verifies under the key of the issuer. -/
def Verifies (ssl : openssl) (issuer : X509) (crl : X509_CRL) : Prop :=
  ∃ ikey, issuer.pubkey = some ikey ∧ ssl.X509_CRL_verify crl ikey > 0

/-- The CRL has the serial number of the certificate. -/
def Lists (crl : X509_CRL) (x509 : X509) : Prop :=
  ∃ e ∈ crl.revoked, e.serialNumber = x509.serialNumber

/-- The CRL has a number of the same magnitude. -/
def ListsMagnitude (crl : X509_CRL) (x509 : X509) : Prop :=
  ∃ e ∈ crl.revoked, e.serialNumber.data = x509.serialNumber.data

/-- 1 for a certificate on a CRL that verifies, 0 for one that is not on it, and -1 when the CRL
does not verify. -/
structure Answers (ssl : openssl) (x509 issuer : X509) (crl : X509_CRL) (r : Option Int) : Prop where
  revoked : r = some 1 ↔ Verifies ssl issuer crl ∧ Lists crl x509
  good : r = some 0 ↔ Verifies ssl issuer crl ∧ ¬ Lists crl x509
  unknown : r = some (-1) ↔ ¬ Verifies ssl issuer crl

/-- The signature is not one that fails with an error. With `USE_OPENSSL11` a CRL that verifies
does not have the certificate, and without it has no number of the same magnitude but another
sign alone. -/
def Harmless (ssl : openssl) (x509 issuer : X509) (crl : X509_CRL) : Prop :=
  ∀ ikey, issuer.pubkey = some ikey → 0 ≤ ssl.X509_CRL_verify crl ikey ∧
    (0 < ssl.X509_CRL_verify crl ikey →
      if ssl.USE_OPENSSL11 then ¬ Lists crl x509
      else ListsMagnitude crl x509 → Lists crl x509)

theorem Lists.magnitude {crl : X509_CRL} {x509 : X509} (h : Lists crl x509) :
    ListsMagnitude crl x509 := by
  rcases h with ⟨e, he, hserial⟩
  exact ⟨e, he, by rw [hserial]⟩

theorem scan_revoked_one (serial : ASN1_INTEGER) (l : List X509_REVOKED) :
    scan_revoked serial l 1 = 1 := by
  cases l <;> simp [scan_revoked]

/-- The loop finds each entry of the same magnitude. -/
theorem scan_revoked_zero (serial : ASN1_INTEGER) (l : List X509_REVOKED) :
    (scan_revoked serial l 0 = 1 ∧ ∃ e ∈ l, e.serialNumber.data = serial.data) ∨
      (scan_revoked serial l 0 = 0 ∧ ¬ ∃ e ∈ l, e.serialNumber.data = serial.data) := by
  induction l with
  | nil => simp [scan_revoked]
  | cons entry l ih =>
    by_cases h : entry.serialNumber.data = serial.data
    · simp [scan_revoked, h, scan_revoked_one]
    · simpa [scan_revoked, h] using ih

/-- The library finds each entry of the same number, and no other. -/
theorem get0_by_serial_iff (crl : X509_CRL) (x509 : X509) :
    ((X509_CRL_get0_by_serial crl x509.serialNumber).1 > 0 ∧
      (X509_CRL_get0_by_serial crl x509.serialNumber).2.isSome) ↔ Lists crl x509 := by
  unfold X509_CRL_get0_by_serial Lists
  cases hfind : crl.revoked.find? fun e => e.serialNumber = x509.serialNumber with
  | none =>
    have hno := List.find?_eq_none.mp hfind
    simp only [gt_iff_lt, lt_self_iff_false, false_and, false_iff]
    rintro ⟨e, he, hserial⟩
    exact hno e he (by simpa using hserial)
  | some e =>
    have hserial := List.find?_some hfind
    simp only [Option.isSome_some, and_true]
    refine ⟨fun _ => ⟨e, List.mem_of_find?_eq_some hfind, by simpa using hserial⟩, fun _ => ?_⟩
    split <;> decide

/-- What the function gives, when there is a key. It does not come back with `USE_OPENSSL11` and a
number that is on the list. -/
theorem revoked_by_cases (ssl : openssl) (x509 : X509) {issuer : X509} {ikey : EVP_PKEY}
    (hkey : issuer.pubkey = some ikey) (crl : X509_CRL) :
    (ssl.X509_CRL_verify crl ikey = 0 ∧
        crl_is_revoked_by ssl x509 (some issuer) (some crl) = some (-1)) ∨
      (ssl.X509_CRL_verify crl ikey ≠ 0 ∧ ssl.USE_OPENSSL11 = false ∧ ListsMagnitude crl x509 ∧
        crl_is_revoked_by ssl x509 (some issuer) (some crl) = some 1) ∨
      (ssl.X509_CRL_verify crl ikey ≠ 0 ∧ ssl.USE_OPENSSL11 = true ∧ Lists crl x509 ∧
        crl_is_revoked_by ssl x509 (some issuer) (some crl) = none) ∨
      (ssl.X509_CRL_verify crl ikey ≠ 0 ∧ ¬ Lists crl x509 ∧
        (ssl.USE_OPENSSL11 = false → ¬ ListsMagnitude crl x509) ∧
        crl_is_revoked_by ssl x509 (some issuer) (some crl) = some 0) := by
  by_cases hv : ssl.X509_CRL_verify crl ikey = 0
  · exact Or.inl ⟨hv, by simp [crl_is_revoked_by, hkey, hv]⟩
  · right
    cases hvar : ssl.USE_OPENSSL11 with
    | true =>
      right
      have hfound := get0_by_serial_iff crl x509
      by_cases hl : Lists crl x509
      · have hpair := hfound.mpr hl
        exact Or.inl ⟨hv, rfl, hl, by
          simp [crl_is_revoked_by, hkey, hv, hvar, hpair, BIO_new_string]⟩
      · have hpair := fun h => hl (hfound.mp h)
        refine Or.inr ⟨hv, hl, by simp, ?_⟩
        simp only [crl_is_revoked_by, hkey, hv, hvar, ne_eq, not_false_eq_true, if_true]
        rw [if_neg hpair]
    | false =>
      rcases scan_revoked_zero x509.serialNumber crl.revoked with ⟨hscan, hl⟩ | ⟨hscan, hl⟩
      · exact Or.inl ⟨hv, rfl, hl, by simp [crl_is_revoked_by, hkey, hv, hvar, hscan]⟩
      · exact Or.inr (Or.inr ⟨hv, fun h => hl h.magnitude, fun _ => hl,
          by simp [crl_is_revoked_by, hkey, hv, hvar, hscan]⟩)

theorem verifies_iff {ssl : openssl} {issuer : X509} {ikey : EVP_PKEY}
    (hkey : issuer.pubkey = some ikey) (crl : X509_CRL) :
    Verifies ssl issuer crl ↔ 0 < ssl.X509_CRL_verify crl ikey := by
  simp [Verifies, hkey]

theorem harmless_iff {ssl : openssl} {issuer : X509} {ikey : EVP_PKEY}
    (hkey : issuer.pubkey = some ikey) (x509 : X509) (crl : X509_CRL) :
    Harmless ssl x509 issuer crl ↔ 0 ≤ ssl.X509_CRL_verify crl ikey ∧
      (0 < ssl.X509_CRL_verify crl ikey →
        if ssl.USE_OPENSSL11 then ¬ Lists crl x509
        else ListsMagnitude crl x509 → Lists crl x509) := by
  simp [Harmless, hkey]

/-- The answer is right when, and only when, none of the slips is met. -/
theorem answers_iff_harmless (ssl : openssl) (x509 issuer : X509) (crl : X509_CRL) :
    Answers ssl x509 issuer crl (crl_is_revoked_by ssl x509 (some issuer) (some crl)) ↔
      Harmless ssl x509 issuer crl := by
  cases hkey : issuer.pubkey with
  | none =>
    have hv : ¬ Verifies ssl issuer crl := by simp [Verifies, hkey]
    have hr : crl_is_revoked_by ssl x509 (some issuer) (some crl) = some (-1) := by
      simp [crl_is_revoked_by, hkey]
    rw [hr]
    refine ⟨fun _ ikey hk => ?_, fun _ => ⟨by simp [hv], by simp [hv], by simp [hv]⟩⟩
    rw [hkey] at hk
    cases hk
  | some ikey =>
    rw [harmless_iff hkey]
    have hmag : Lists crl x509 → ListsMagnitude crl x509 := Lists.magnitude
    have hiff : ∀ r, Answers ssl x509 issuer crl r ↔
        (r = some 1 ↔ 0 < ssl.X509_CRL_verify crl ikey ∧ Lists crl x509) ∧
        (r = some 0 ↔ 0 < ssl.X509_CRL_verify crl ikey ∧ ¬ Lists crl x509) ∧
        (r = some (-1) ↔ ¬ 0 < ssl.X509_CRL_verify crl ikey) := by
      intro r
      rw [← verifies_iff hkey crl]
      exact ⟨fun h => ⟨h.revoked, h.good, h.unknown⟩, fun h => ⟨h.1, h.2.1, h.2.2⟩⟩
    rcases revoked_by_cases ssl x509 hkey crl with ⟨hv, hr⟩ | ⟨hv, hvar, hl, hr⟩ |
      ⟨hv, hvar, hl, hr⟩ | ⟨hv, hno, hl, hr⟩
    · rw [hiff, hr, hv]
      simp
    · rw [hiff, hr, hvar]
      by_cases hpos : 0 < ssl.X509_CRL_verify crl ikey
      · simp [hpos, hl, hpos.le]
      · have hneg : ¬ 0 ≤ ssl.X509_CRL_verify crl ikey := by omega
        simp [hpos, hneg]
    · rw [hiff, hr, hvar]
      by_cases hpos : 0 < ssl.X509_CRL_verify crl ikey
      · simp [hpos, hl]
      · have hneg : ¬ 0 ≤ ssl.X509_CRL_verify crl ikey := by omega
        simp [hpos, hneg]
    · rw [hiff, hr]
      by_cases hpos : 0 < ssl.X509_CRL_verify crl ikey
      · cases hvar : ssl.USE_OPENSSL11 with
        | true => simp [hpos, hpos.le, hno]
        | false => simp [hpos, hpos.le, hno, hl hvar]
      · have hneg : ¬ 0 ≤ ssl.X509_CRL_verify crl ikey := by omega
        simp [hpos, hneg]

end socle.crl
