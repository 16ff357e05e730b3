-- The filter of server names whose connections are not inspected (sslcom.tpp:
-- handshake_peer_client). An entry is looked for from the end of the name, and
-- the byte before it tells whether a label was cut.
import Socle.Handshake

namespace socle.tls

/-! ## Strings -/

/-- `rfind` from place `i` downwards. -/
def rfind_from (part str : List UInt8) : Nat → Option Nat
  | 0 => if part.isPrefixOf str then some 0 else none
  | i + 1 => if part.isPrefixOf (str.drop (i + 1)) then some (i + 1) else rfind_from part str i

/-- `str.rfind(part)`: where `part` starts last in the string. -/
def rfind (part str : List UInt8) : Option Nat :=
  if part.length ≤ str.length then rfind_from part str (str.length - part.length) else none

/-- The character '.'. -/
def dot : UInt8 := 46

/-- The character '*'. -/
def star : UInt8 := 42

/-! ## The filter -/

/-- `filter_element`: the entry without the wildcard that was planted. -/
def filter_element (filter_element_raw : List UInt8) : List UInt8 :=
  if filter_element_raw.length > 1 ∧ filter_element_raw[0]? = some star ∧
      filter_element_raw[1]? = some dot then filter_element_raw.drop 2
  else filter_element_raw

/-- One turn of the loop: is the SNI one of the entry? -/
def matches_element (sni filter_element_raw : List UInt8) : Bool :=
  match rfind (filter_element filter_element_raw) sni with
  | none => false
  | some pos =>
    if pos + (filter_element filter_element_raw).length ≥ sni.length then
      -- SNI ends with the entry: www.mycnn.com is not one of cnn.com
      if pos > 0 then sni[pos - 1]? = some dot else true
    else false

/-- An SSLCom with its SNI and its filter. -/
structure filtered_com where
  com : SSLCom
  sslcom_sni : List UInt8 := []
  sni_filter_to_bypass_ : Option (List (List UInt8)) := none
  sni_filter_to_bypass_matched : Bool := false

/-- The loop over the entries. When the peer can be bypassed too, the first match ends it. -/
def check_entries : List (List UInt8) → filtered_com → Bool × filtered_com
  | [], c => (true, c)
  | filter_element_raw :: rest, c =>
    if matches_element c.sslcom_sni filter_element_raw then
      let c := { c with sni_filter_to_bypass_matched := true }
      match c.com.bypass_me_and_peer with
      | (true, com) => (false, { c with com })
      | (false, com) => check_entries rest { c with com }
    else check_entries rest c

/-- The second half of `handshake_peer_client`. -/
def check_sni (c : filtered_com) : Bool × filtered_com :=
  if c.com.sslcom_peer_hello_received_ then
    match c.sni_filter_to_bypass_ with
    | some entries => if c.sslcom_sni ≠ [] then check_entries entries c else (true, c)
    | none => (true, c)
  else (true, c)

/-- What a com meets that waits for the ClientHello, and the SNI that it has when the ClientHello was
looked at. -/
structure hello_inputs where
  base : inputs
  sni : List UInt8

/-- The first half of `handshake_peer_client`. -/
def hear_hello (i : hello_inputs) (c : filtered_com) : Bool × filtered_com :=
  ((wait_for_hello i.base c.com).1, { c with
    com := (wait_for_hello i.base c.com).2
    sslcom_sni :=
      if c.com.sslcom_peer_hello_received_ || !c.com.peer_scom then c.sslcom_sni else i.sni })

/-- `handshake_peer_client`, with the filter. -/
def filtered_com.handshake_peer_client (i : hello_inputs) (c : filtered_com) : Bool × filtered_com :=
  match hear_hello i c with
  | (false, c) => (false, c)
  | (true, c) => check_sni c

/-! ## The law -/

/-- The SNI is the name of the entry, or one below it. -/
def Covers (filter_element_raw sni : List UInt8) : Prop :=
  filter_element filter_element_raw ≠ [] ∧
    (sni = filter_element filter_element_raw ∨ dot :: filter_element filter_element_raw <:+ sni)

instance (filter_element_raw sni : List UInt8) : Decidable (Covers filter_element_raw sni) :=
  inferInstanceAs (Decidable (_ ∧ _))

/-! ## The last occurrence -/

section
variable {part str : List UInt8}

theorem rfind_from_le {i pos : Nat} (h : rfind_from part str i = some pos) : pos ≤ i := by
  induction i with
  | zero =>
    simp only [rfind_from] at h
    split at h
    · cases h
      exact Nat.le_refl 0
    · cases h
  | succ i ih =>
    simp only [rfind_from] at h
    split at h
    · cases h
      exact Nat.le_refl _
    · exact Nat.le_succ_of_le (ih h)

/-- The first place that is tried is the one where `part` would end the string. -/
theorem rfind_append (pre part : List UInt8) : rfind part (pre ++ part) = some pre.length := by
  have hle : part.length ≤ (pre ++ part).length := by simp
  have hat : (pre ++ part).length - part.length = pre.length := by simp
  rw [rfind, if_pos hle, hat]
  cases hpre : pre.length with
  | zero =>
    have hnil : pre = [] := List.eq_nil_of_length_eq_zero hpre
    simp [rfind_from, hnil]
  | succ i =>
    have hdrop : (pre ++ part).drop (i + 1) = part := by
      rw [← hpre, List.drop_left]
    simp [rfind_from, hdrop]

/-- An occurrence that reaches the end of the string is the end of it. -/
theorem rfind_at_end {pos : Nat} (h : rfind part str = some pos)
    (hend : str.length ≤ pos + part.length) : str = str.take pos ++ part := by
  unfold rfind at h
  split at h
  next hle =>
    have hpos : pos = str.length - part.length := by
      have hbound := rfind_from_le h
      omega
    have hprefix : part <+: str.drop pos := by
      rw [← hpos] at h
      cases pos with
      | zero =>
        simp only [rfind_from] at h
        split at h
        next hp => simpa using hp
        next => cases h
      | succ i =>
        simp only [rfind_from] at h
        split at h
        next hp => simpa using hp
        next =>
          have hbound := rfind_from_le h
          omega
    have hpart : part = str.drop pos := by
      apply hprefix.eq_of_length
      rw [List.length_drop]
      omega
    rw [hpart, List.take_append_drop]
  next => cases h

end

/-! ## One entry -/

/-- The turn finds the SNIs that end with the entry at the start of a label. -/
theorem matches_element_iff (sni raw : List UInt8) :
    matches_element sni raw = true ↔ ∃ pre, sni = pre ++ filter_element raw ∧
      (pre = [] ∨ pre.getLast? = some dot) := by
  unfold matches_element
  generalize filter_element raw = part
  constructor
  · intro h
    split at h
    next => cases h
    next pos hfind =>
      split at h
      next hend =>
        have hsni := rfind_at_end hfind hend
        refine ⟨sni.take pos, hsni, ?_⟩
        have hle : pos ≤ sni.length := by
          by_contra hgt
          have htake : sni.take pos = sni := List.take_of_length_le (by omega)
          rw [htake] at hsni
          have hpart : part = [] := by simpa using hsni
          have hat := rfind_append sni []
          rw [List.append_nil, ← hpart, hfind] at hat
          cases hat
          omega
        by_cases hpos : pos > 0
        · rw [if_pos hpos] at h
          right
          rw [List.getLast?_take, if_neg (by omega)]
          simp [of_decide_eq_true h]
        · left
          have hzero : pos = 0 := by omega
          rw [hzero, List.take_zero]
      next => cases h
  · rintro ⟨pre, rfl, hpre⟩
    rw [rfind_append]
    have hend : pre.length + part.length ≥ (pre ++ part).length := by simp
    simp only [if_pos hend]
    rcases hpre with rfl | hlast
    · simp
    · have hne : pre ≠ [] := by
        rintro rfl
        cases hlast
      have hpos : pre.length > 0 := List.length_pos_of_ne_nil hne
      rw [if_pos hpos, List.getElem?_append_left (by omega), ← List.getLast?_eq_getElem?, hlast]
      simp

/-- For a name that is there and does not end in a dot, the turn decides the law. -/
theorem matches_element_covers {sni : List UInt8} (hsni : sni ≠ []) (hdot : sni.getLast? ≠ some dot)
    (raw : List UInt8) : matches_element sni raw = true ↔ Covers raw sni := by
  rw [matches_element_iff]
  unfold Covers
  generalize filter_element raw = part
  constructor
  · rintro ⟨pre, rfl, hpre⟩
    rcases hpre with rfl | hlast
    · exact ⟨by simpa using hsni, Or.inl rfl⟩
    · refine ⟨?_, Or.inr ?_⟩
      · rintro rfl
        apply hdot
        simpa using hlast
      · obtain ⟨front, rfl⟩ := List.getLast?_eq_some_iff.mp hlast
        exact ⟨front, by simp⟩
  · rintro ⟨-, rfl | ⟨front, rfl⟩⟩
    · exact ⟨[], rfl, Or.inl rfl⟩
    · exact ⟨front ++ [dot], by simp, Or.inr (by simp)⟩

/-! ## The loop -/

/-- The filter has the SNI. -/
def filtered_com.has_match (c : filtered_com) : Bool :=
  match c.sni_filter_to_bypass_ with
  | some entries => c.sslcom_sni ≠ [] && entries.any (matches_element c.sslcom_sni)
  | none => false

/-- What the loop leaves: a match is marked, and bypasses the com when the peer can be bypassed. -/
theorem check_entries_spec (entries : List (List UInt8)) (c : filtered_com) :
    ((check_entries entries c).1, (check_entries entries c).2.com,
        (check_entries entries c).2.sni_filter_to_bypass_matched) =
      if entries.any (matches_element c.sslcom_sni) then
        (!c.com.bypass_me_and_peer.1, c.com.bypass_me_and_peer.2, true)
      else (true, c.com, c.sni_filter_to_bypass_matched) := by
  induction entries generalizing c with
  | nil => simp [check_entries]
  | cons raw rest ih =>
    unfold check_entries
    cases hraw : matches_element c.sslcom_sni raw with
    | false => simp [hraw, ih]
    | true =>
      cases hpeer : c.com.peer_scom with
      | true => simp [hraw, SSLCom.bypass_me_and_peer, hpeer]
      | false => simp [hraw, SSLCom.bypass_me_and_peer, hpeer, ih]

theorem check_entries_matched (entries : List (List UInt8)) (c : filtered_com) :
    (check_entries entries c).2.sni_filter_to_bypass_matched =
      (c.sni_filter_to_bypass_matched || entries.any (matches_element c.sslcom_sni)) := by
  have hmatched := congrArg (fun r => r.2.2) (check_entries_spec entries c)
  cases hany : entries.any (matches_element c.sslcom_sni) with
  | true => simpa [hany] using hmatched
  | false => simpa [hany] using hmatched

theorem check_entries_com (entries : List (List UInt8)) (c : filtered_com) :
    ((check_entries entries c).1, (check_entries entries c).2.com) =
      if entries.any (matches_element c.sslcom_sni) then
        (!c.com.bypass_me_and_peer.1, c.com.bypass_me_and_peer.2)
      else (true, c.com) := by
  have hcom := congrArg (fun r => (r.1, r.2.1)) (check_entries_spec entries c)
  cases hany : entries.any (matches_element c.sslcom_sni) with
  | true => simpa [hany] using hcom
  | false => simpa [hany] using hcom

theorem check_sni_matched {c : filtered_com} (h : c.com.sslcom_peer_hello_received_ = true) :
    (check_sni c).2.sni_filter_to_bypass_matched =
      (c.sni_filter_to_bypass_matched || c.has_match) := by
  unfold check_sni filtered_com.has_match
  rw [if_pos h]
  cases c.sni_filter_to_bypass_ with
  | none => simp
  | some entries =>
    by_cases hsni : c.sslcom_sni = []
    · simp [hsni]
    · simp [hsni, check_entries_matched]

/-- A ClientHello that has come is received. -/
theorem wait_for_hello_received {i : inputs} {com : SSLCom} (h : (wait_for_hello i com).1 = true) :
    (wait_for_hello i com).2.sslcom_peer_hello_received_ = true := by
  unfold wait_for_hello at *
  cases hr : com.sslcom_peer_hello_received_ with
  | true => simp [hr]
  | false =>
    simp only [hr, Bool.not_false, if_true] at h ⊢
    cases hthere : (com.waiting_peer_hello i.peek).1 with
    | false => simp [hthere] at h
    | true =>
      rw [waiting_peer_hello_come hthere]
      simp only [Bool.not_true, Bool.false_eq_true, if_false]
      split
      · have hagain : (com.hello_received).waiting_peer_hello i.peek = (true, com.hello_received) := by
          simp [SSLCom.waiting_peer_hello, SSLCom.hello_received]
        simp only [SSLCom.upgrade_client_socket, hagain, if_true]
        split
        · rfl
        · rw [(upgrade_result_same _ _).2.2.1]
          rfl
      · rfl

theorem check_sni_com (i : inputs) {c : filtered_com}
    (h : c.com.sslcom_peer_hello_received_ = true) (hi : i.filtered = c.has_match) :
    ((check_sni c).1, (check_sni c).2.com) = filter_sni i c.com := by
  unfold check_sni filter_sni
  rw [if_pos h, h, hi, filtered_com.has_match]
  cases c.sni_filter_to_bypass_ with
  | none => simp
  | some entries =>
    by_cases hsni : c.sslcom_sni = []
    · simp [hsni]
    · simp [hsni, check_entries_com]

theorem hear_hello_eq {i : hello_inputs} {c : filtered_com} {come : Bool}
    (h : (hear_hello i c).1 = come) : hear_hello i c = (come, (hear_hello i c).2) := by
  rw [← h]

/-- The handshake of a com with a filter is the one of the com without, which is told whether the
filter has the SNI. -/
theorem handshake_peer_client_filtered (i : hello_inputs) (c : filtered_com) :
    ((c.handshake_peer_client i).1, (c.handshake_peer_client i).2.com) =
      handshake_peer_client { i.base with filtered := (hear_hello i c).2.has_match } c.com := by
  have hsame : wait_for_hello { i.base with filtered := (hear_hello i c).2.has_match } c.com =
      ((hear_hello i c).1, (hear_hello i c).2.com) := rfl
  unfold filtered_com.handshake_peer_client handshake_peer_client
  rw [hsame]
  cases hcome : (hear_hello i c).1 with
  | false =>
    rw [hear_hello_eq hcome]
    simp
  | true =>
    have hreceived : (hear_hello i c).2.com.sslcom_peer_hello_received_ = true :=
      wait_for_hello_received hcome
    rw [hear_hello_eq hcome]
    simp only [Bool.not_true, Bool.false_eq_true, if_false]
    apply check_sni_com _ hreceived
    rfl

/-- A com whose peer's ClientHello has come is marked when, and only when, its SNI is the name of
an entry or one below it. -/
theorem sni_filter_is_exact (i : hello_inputs) (c : filtered_com) (entries : List (List UInt8))
    (hfilter : c.sni_filter_to_bypass_ = some entries)
    (hcome : (hear_hello i c).1 = true) (hsni : (hear_hello i c).2.sslcom_sni ≠ [])
    (hdot : (hear_hello i c).2.sslcom_sni.getLast? ≠ some dot) :
    (c.handshake_peer_client i).2.sni_filter_to_bypass_matched = true ↔
      c.sni_filter_to_bypass_matched = true ∨
        ∃ raw ∈ entries, Covers raw (hear_hello i c).2.sslcom_sni := by
  have hreceived : (hear_hello i c).2.com.sslcom_peer_hello_received_ = true :=
    wait_for_hello_received hcome
  have hentries : (hear_hello i c).2.sni_filter_to_bypass_ = some entries := hfilter
  have hbefore : (hear_hello i c).2.sni_filter_to_bypass_matched = c.sni_filter_to_bypass_matched :=
    rfl
  unfold filtered_com.handshake_peer_client
  rw [hear_hello_eq hcome]
  simp only
  rw [check_sni_matched hreceived, filtered_com.has_match, hentries, hbefore]
  simp [hsni, matches_element_covers hsni hdot]

/-- "cnn.com" -/
def cnn : List UInt8 := [99, 110, 110, 46, 99, 111, 109]

-- www.cnn.com is below cnn.com, and mycnn.com is not.
example : Covers cnn ([119, 119, 119, dot] ++ cnn) ∧ ¬ Covers cnn ([109, 121] ++ cnn) := by decide

/-- A com that has the ClientHello for www.cnn.com, with the filter "*.cnn.com". -/
def www_cnn : filtered_com where
  com := { is_server := false, peer_ := .ssl, sslcom_peer_hello_received_ := true }
  sslcom_sni := [119, 119, 119, dot] ++ cnn
  sni_filter_to_bypass_ := some [[star, dot] ++ cnn]

def no_results : hello_inputs where
  base := { peek := .hello, upgrade := ⟨-1, 2, 0, 0⟩, filtered := false, op := ⟨-1, 2, 0, 0⟩ }
  sni := []

theorem a_subdomain_is_marked :
    (www_cnn.handshake_peer_client no_results).2.sni_filter_to_bypass_matched = true :=
  (sni_filter_is_exact no_results www_cnn [[star, dot] ++ cnn] rfl (by decide) (by decide)
    (by decide)).mpr (Or.inr ⟨_, List.mem_singleton_self _, by decide⟩)

end socle.tls
