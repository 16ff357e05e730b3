-- The keys of the spoofed certificates (SSLFactory::make_store_key in
-- sslcertstore.cpp, use_cert_mitm in sslmitmcom.tpp). A key is the text of the
-- subject with marked texts behind it. A string is the list of its bytes.
import Socle.Hostname
import Socle.Lib.Run
import Socle.PtrCache

namespace socle.spoof

open lib.run hostname

/-! ## Data -/

/-- What is read of the original certificate. `N` stands for `X509_NAME`. -/
structure X509 (N : Type) where
  subject_name : N
  exts : Option (List X509_EXTENSION) := none

structure SpoofOptions where
  self_signed : Bool := false
  sans : List (List UInt8) := []

/-- An original certificate with its spoof options. -/
structure request (N : Type) where
  cert_orig : X509 N
  spo : SpoofOptions := {}

variable {N : Type}

/-- `get_sans(cert_orig)`. -/
def request.cert_sans (x : request N) : List (List UInt8) :=
  get_sans { exts := x.cert_orig.exts, cn := [] }

/-! ## Keys -/

/-- "subj:" -/
def SUBJ : List UInt8 := [115, 117, 98, 106, 58]

/-- "+self_signed" -/
def SELF_SIGNED : List UInt8 := [43, 115, 101, 108, 102, 95, 115, 105, 103, 110, 101, 100]

/-- "+san:" -/
def SAN : List UInt8 := [43, 115, 97, 110, 58]

/-- What `c_str()` is read as: the bytes before the first NUL. -/
def c_str (s : List UInt8) : List UInt8 :=
  s.takeWhile (· ≠ 0)

/-- The largest buffer of `string_format`. -/
def format_max : Nat := 512 * 20

/-- `string_format("+san:%s", s.c_str())`. A text without room in the largest buffer is read beyond
the end of it, which is undefined. -/
def format_san (s : List UInt8) : Option (List UInt8) :=
  if (SAN ++ c_str s).length < format_max then some (SAN ++ c_str s) else none

/-- The loop over the SANs of one list. -/
def format_sans : List (List UInt8) → Option (List UInt8)
  | [] => some []
  | s :: sans => (format_san s).bind fun t => (format_sans sans).map fun rest => t ++ rest

/-- The marker of a self-signed certificate. -/
def self_mark (self_signed : Bool) : List UInt8 :=
  if self_signed then SELF_SIGNED else []

section
variable (X509_NAME_oneline : N → List UInt8)

/-- `make_store_key`. `X509_NAME_oneline` gives what it leaves in the buffer of 512 bytes. -/
def make_store_key (x : request N) : Option (List UInt8) :=
  (format_sans x.cert_sans).bind fun own =>
    (format_sans x.spo.sans).map fun extra =>
      SUBJ ++ X509_NAME_oneline x.cert_orig.subject_name ++ self_mark x.spo.self_signed ++
        own ++ extra

/-! ## The cache -/

/-- A spoofed certificate. `spoofed_for` is not in the code: it records what it was made for. -/
structure spoofed (N : Type) where
  spoofed_for : request N
  complete : Bool

/-- `cert_mitm_cache_`. -/
abbrev X509_CACHE (N : Type) : Type := fifo_cache (List UInt8) (spoofed N)

/-- `add_mitm`. A certificate without its key is not stored, and one that is there stays. -/
def add_mitm (store_key : List UInt8) (parek : spoofed N) (cache : X509_CACHE N) : X509_CACHE N :=
  if !parek.complete then cache
  else
    match cache.get 0 store_key with
    | (some _, cache) => cache
    | (none, cache) => cache.set store_key parek

/-- `use_cert_mitm`: the certificate that it prefers, and the cache. `spoof_ret` is what `spoof`
gives: nothing, or a certificate that may lack a part. -/
def use_cert_mitm (x : request N) (spoof_ret : Option Bool) (cache : X509_CACHE N) :
    Option (Option (spoofed N) × X509_CACHE N) :=
  (make_store_key X509_NAME_oneline x).map fun store_key =>
    match cache.get 0 store_key with
    | (some parek, cache) => (some parek, cache)
    | (none, cache) =>
      match spoof_ret with
      | none => (none, cache)
      | some complete =>
        let parek := { spoofed_for := x, complete }
        (some parek, add_mitm store_key parek cache)

inductive mitm_call (N : Type)
  | use_cert_mitm (x : request N) (spoof_ret : Option Bool)
  | erase_mitm (subject : List UInt8)

def mitm_step (cache : X509_CACHE N) (a : mitm_call N) : Option (X509_CACHE N) :=
  match a with
  | .use_cert_mitm x spoof_ret => (use_cert_mitm X509_NAME_oneline x spoof_ret cache).map Prod.snd
  | .erase_mitm subject => some (cache.erase subject)

/-- The cache at the start. The build chooses its size. -/
def empty_cache (max_size_ : Nat) : X509_CACHE N := ⟨{ max_size_ }, rfl⟩

/-! ## The law -/

/-- The same subject, flag, SANs of the certificate and extra SANs. -/
structure Same (y x : request N) : Prop where
  subject : y.cert_orig.subject_name = x.cert_orig.subject_name
  self_signed : y.spo.self_signed = x.spo.self_signed
  cert_sans : y.cert_sans = x.cert_sans
  sans : y.spo.sans = x.spo.sans

/-- A request has a key, requests with this key are the same, and after any calls the certificate
that it gets was spoofed for the same. -/
structure Separated (x : request N) : Prop where
  defined : (make_store_key X509_NAME_oneline x).isSome
  keys : ∀ y, make_store_key X509_NAME_oneline y = make_store_key X509_NAME_oneline x → Same y x
  presented : ∀ max_size calls cache,
    exec (mitm_step X509_NAME_oneline) (empty_cache max_size) calls = some cache →
      ∀ spoof_ret parek cache',
        use_cert_mitm X509_NAME_oneline x spoof_ret cache = some (some parek, cache') →
          Same parek.spoofed_for x

/-- A SAN as it comes into a key. -/
structure Plain (s : List UInt8) : Prop where
  no_nul : (0 : UInt8) ∉ s
  short : (SAN ++ s).length < format_max

/-- What stands behind the text of a subject. -/
def markers (self_signed : Bool) (sans : List (List UInt8)) : List UInt8 :=
  self_mark self_signed ++ sans.flatMap fun s => SAN ++ s

/-- The request is without SANs, no other subject has the text of its subject, and no text of a
subject with other markers behind it is this text with its own marker. -/
structure Alone (x : request N) : Prop where
  cert_sans : x.cert_sans = []
  sans : x.spo.sans = []
  subject : ∀ n, X509_NAME_oneline n = X509_NAME_oneline x.cert_orig.subject_name →
    n = x.cert_orig.subject_name
  marked : ∀ n self_signed sans, (∀ s ∈ sans, Plain s) →
    X509_NAME_oneline n ++ markers self_signed sans =
      X509_NAME_oneline x.cert_orig.subject_name ++ markers x.spo.self_signed [] →
    self_signed = x.spo.self_signed ∧ sans = []

end

/-! ## The text of a key -/

section
variable {s : List UInt8} {sans others : List (List UInt8)}

theorem c_str_plain (h : (0 : UInt8) ∉ s) : c_str s = s :=
  List.takeWhile_eq_self_iff.mpr fun b hb => decide_eq_true fun hzero : b = 0 => h (hzero ▸ hb)

/-- A NUL at the end is not read. -/
theorem c_str_nul (s : List UInt8) : c_str (s ++ [0]) = c_str s := by
  unfold c_str
  induction s with
  | nil => rfl
  | cons b s ih =>
    by_cases hb : b = 0
    · simp [hb]
    · simpa [hb] using ih

theorem format_san_plain (h : Plain s) : format_san s = some (SAN ++ s) := by
  unfold format_san
  rw [c_str_plain h.no_nul, if_pos h.short]

theorem format_sans_plain (h : ∀ s ∈ sans, Plain s) :
    format_sans sans = some (sans.flatMap fun s => SAN ++ s) := by
  induction sans with
  | nil => rfl
  | cons s sans ih =>
    rw [format_sans, format_san_plain (h s List.mem_cons_self),
      ih fun q hq => h q (List.mem_cons_of_mem s hq)]
    rfl

/-- What a list of SANs comes to is what plain ones come to. -/
theorem format_sans_some {t : List UInt8} (h : format_sans sans = some t) :
    ∃ plain : List (List UInt8), plain.length = sans.length ∧ (∀ s ∈ plain, Plain s) ∧
      t = plain.flatMap fun s => SAN ++ s := by
  induction sans generalizing t with
  | nil =>
    cases h
    exact ⟨[], rfl, nofun, rfl⟩
  | cons s sans ih =>
    rw [format_sans, Option.bind_eq_some_iff] at h
    obtain ⟨first, hfirst, h⟩ := h
    obtain ⟨rest, hrest, rfl⟩ := Option.map_eq_some_iff.mp h
    obtain ⟨plain, hlen, hplain, rfl⟩ := ih hrest
    unfold format_san at hfirst
    split at hfirst
    next hshort =>
      cases hfirst
      have hnul : (0 : UInt8) ∉ c_str s := fun hmem => by
        simpa using List.mem_takeWhile_imp hmem
      refine ⟨c_str s :: plain, by rw [List.length_cons, hlen]; rfl, ?_, rfl⟩
      exact List.forall_mem_cons.mpr ⟨⟨hnul, hshort⟩, hplain⟩
    next => cases hfirst

/-- The lists of SANs are joined without a boundary. -/
theorem format_sans_append : format_sans (sans ++ others) =
    (format_sans sans).bind fun own => (format_sans others).map fun extra => own ++ extra := by
  induction sans with
  | nil => simp [format_sans]
  | cons s sans ih =>
    rw [List.cons_append, format_sans, format_sans, ih]
    cases format_san s <;> cases format_sans sans <;> cases format_sans others <;> simp

end

section
variable {X509_NAME_oneline : N → List UInt8} {x y : request N} {n : N} {self_signed : Bool}
  {sans : List (List UInt8)}

/-- A request for a subject alone. -/
def bare (n : N) (self_signed : Bool) (sans : List (List UInt8)) : request N :=
  { cert_orig := { subject_name := n }, spo := { self_signed, sans } }

theorem key_bare : make_store_key X509_NAME_oneline (bare n self_signed sans) =
    (format_sans sans).map fun extra =>
      SUBJ ++ X509_NAME_oneline n ++ self_mark self_signed ++ [] ++ extra := rfl

theorem key_plain (h : ∀ s ∈ sans, Plain s) :
    make_store_key X509_NAME_oneline (bare n self_signed sans) =
      some (SUBJ ++ (X509_NAME_oneline n ++ markers self_signed sans)) := by
  rw [key_bare, format_sans_plain h]
  simp [markers]

/-- Each key is that of a subject with plain SANs. -/
theorem key_some {k : List UInt8} (h : make_store_key X509_NAME_oneline x = some k) :
    ∃ plain, (∀ s ∈ plain, Plain s) ∧
      plain.length = x.cert_sans.length + x.spo.sans.length ∧
      k = SUBJ ++ (X509_NAME_oneline x.cert_orig.subject_name ++
        markers x.spo.self_signed plain) := by
  rw [make_store_key, Option.bind_eq_some_iff] at h
  obtain ⟨own, hown, h⟩ := h
  obtain ⟨extra, hextra, rfl⟩ := Option.map_eq_some_iff.mp h
  obtain ⟨own', hlen, hplain, rfl⟩ := format_sans_some hown
  obtain ⟨extra', hlen', hplain', rfl⟩ := format_sans_some hextra
  refine ⟨own' ++ extra', ?_, by rw [List.length_append, hlen, hlen'], ?_⟩
  · exact List.forall_mem_append.mpr ⟨hplain, hplain'⟩
  · simp [markers]

/-- The SANs of the certificate may as well come from the options. -/
theorem key_moved : make_store_key X509_NAME_oneline
    (bare x.cert_orig.subject_name x.spo.self_signed (x.cert_sans ++ x.spo.sans)) =
      make_store_key X509_NAME_oneline x := by
  rw [key_bare, format_sans_append, make_store_key]
  cases format_sans x.cert_sans <;> cases format_sans x.spo.sans <;> simp

/-! ## The condition is exact -/

theorem Alone.key (h : Alone X509_NAME_oneline x) : make_store_key X509_NAME_oneline x =
    some (SUBJ ++ (X509_NAME_oneline x.cert_orig.subject_name ++
      markers x.spo.self_signed [])) := by
  rw [make_store_key, h.cert_sans, h.sans]
  simp [format_sans, markers]

theorem Alone.same (h : Alone X509_NAME_oneline x)
    (hy : make_store_key X509_NAME_oneline y = make_store_key X509_NAME_oneline x) : Same y x := by
  rw [h.key] at hy
  obtain ⟨plain, hplain, hlen, hkey⟩ := key_some hy
  have htext := (List.append_cancel_left hkey).symm
  obtain ⟨hself, hnil⟩ := h.marked _ _ _ hplain htext
  rw [hself, hnil] at htext
  rw [hnil, List.length_nil] at hlen
  have hown : y.cert_sans = [] := List.length_eq_zero_iff.mp (by omega)
  have hextra : y.spo.sans = [] := List.length_eq_zero_iff.mp (by omega)
  exact ⟨h.subject _ (List.append_cancel_right htext), hself, hown.trans h.cert_sans.symm,
    hextra.trans h.sans.symm⟩

/-- A request that shares its key with the same requests only. -/
theorem alone_of_keys (h : ∀ y,
    make_store_key X509_NAME_oneline y = make_store_key X509_NAME_oneline x → Same y x) :
    Alone X509_NAME_oneline x := by
  have hown : x.cert_sans = [] := (h _ key_moved).cert_sans.symm
  have hextra : x.spo.sans = [] := by
    have hmoved : make_store_key X509_NAME_oneline _ = make_store_key X509_NAME_oneline x :=
      key_moved
    cases hsans : x.spo.sans with
    | nil => rfl
    | cons s sans =>
      -- a NUL behind the first SAN does not change the key
      have hnul : format_sans ((s ++ [0]) :: sans) = format_sans (s :: sans) := by
        simp only [format_sans, format_san, c_str_nul]
      rw [hown, List.nil_append, hsans, key_bare, ← hnul, ← key_bare] at hmoved
      have hsame := (h _ hmoved).sans
      rw [hsans] at hsame
      have hlen := congrArg List.length (List.cons.inj hsame).1
      simp at hlen
  have hnone : ∀ s ∈ ([] : List (List UInt8)), Plain s := nofun
  have hkey : make_store_key X509_NAME_oneline x =
      some (SUBJ ++ (X509_NAME_oneline x.cert_orig.subject_name ++
        markers x.spo.self_signed [])) := by
    rw [← key_moved, hown, hextra]
    exact key_plain hnone
  refine ⟨hown, hextra, fun n hn => ?_, fun n self_signed sans hplain htext => ?_⟩
  · refine (h (bare n x.spo.self_signed []) ?_).subject
    rw [hkey, key_plain hnone, hn]
  · have hsame := h (bare n self_signed sans) (by rw [hkey, key_plain hplain, htext])
    exact ⟨hsame.self_signed, hsame.sans.trans hextra⟩

theorem markers_takeWhile (self_signed : Bool) (sans : List (List UInt8)) :
    (markers self_signed sans).takeWhile (· ≠ 43) = [] := by
  cases self_signed <;> cases sans <;> rfl

/-- Markers without a SAN are told from all others. -/
theorem markers_inj {b : Bool} (h : markers b sans = markers self_signed []) :
    b = self_signed ∧ sans = [] := by
  cases sans with
  | nil =>
    refine ⟨?_, rfl⟩
    cases b <;> cases self_signed <;> first | rfl | cases h
  | cons s sans =>
    cases b <;> cases self_signed <;> simp [markers, self_mark, SELF_SIGNED, SAN] at h

/-- When no text of a name has a "+" in it, and names differ in their texts, each request without
SANs is alone. -/
theorem alone_of_plain_names (hplus : ∀ n, (43 : UInt8) ∉ X509_NAME_oneline n)
    (hinj : Function.Injective X509_NAME_oneline) (n : N) (self_signed : Bool) :
    Alone X509_NAME_oneline (bare n self_signed []) := by
  refine ⟨rfl, rfl, fun m hm => hinj hm, fun m b sans _ htext => ?_⟩
  -- the text of the name ends at the first "+"
  have hcut : ∀ (m : N) (b : Bool) (sans : List (List UInt8)),
      (X509_NAME_oneline m ++ markers b sans).takeWhile (· ≠ 43) = X509_NAME_oneline m := by
    intro m b sans
    have hall : ∀ c ∈ X509_NAME_oneline m, decide (c ≠ 43) = true :=
      fun c hc => decide_eq_true fun heq => hplus m (heq ▸ hc)
    rw [List.takeWhile_append_of_pos hall, markers_takeWhile, List.append_nil]
  have hname : X509_NAME_oneline m = X509_NAME_oneline n := by
    rw [← hcut m b sans, htext]
    exact hcut n self_signed []
  rw [hname] at htext
  exact markers_inj (List.append_cancel_left htext)

/-! ## The cache -/

/-- Each certificate stands under the key of what it was spoofed for. -/
def Keyed (X509_NAME_oneline : N → List UInt8) (cache : X509_CACHE N) : Prop :=
  cache.Stores fun k parek => make_store_key X509_NAME_oneline parek.spoofed_for = some k

variable {cache : X509_CACHE N}

theorem add_mitm_keyed (h : Keyed X509_NAME_oneline cache) {k : List UInt8} {parek : spoofed N}
    (hk : make_store_key X509_NAME_oneline parek.spoofed_for = some k) :
    Keyed X509_NAME_oneline (add_mitm k parek cache) := by
  have hget := fifo_cache.get_stores h 0 k
  unfold add_mitm
  split
  · exact h
  · split
    next heq =>
      rw [heq] at hget
      exact hget
    next heq =>
      rw [heq] at hget
      exact fifo_cache.set_stores hget hk

/-- What a request gets was spoofed for one with its key. -/
theorem use_cert_mitm_keyed (h : Keyed X509_NAME_oneline cache) {spoof_ret : Option Bool}
    {r : Option (spoofed N) × X509_CACHE N}
    (hr : use_cert_mitm X509_NAME_oneline x spoof_ret cache = some r) :
    Keyed X509_NAME_oneline r.2 ∧ ∀ parek, r.1 = some parek →
      make_store_key X509_NAME_oneline parek.spoofed_for =
        make_store_key X509_NAME_oneline x := by
  obtain ⟨k, hk, hr⟩ := Option.map_eq_some_iff.mp hr
  have hget := fifo_cache.get_stores h 0 k
  split at hr
  next found rest heq =>
    subst hr
    have hstored := fifo_cache.get_stored h (congrArg Prod.fst heq)
    rw [heq] at hget
    refine ⟨hget, fun parek hp => ?_⟩
    cases hp
    exact hstored.trans hk.symm
  next rest heq =>
    rw [heq] at hget
    cases spoof_ret with
    | none =>
      subst hr
      exact ⟨hget, nofun⟩
    | some complete =>
      subst hr
      refine ⟨add_mitm_keyed hget hk, fun parek hp => ?_⟩
      cases hp
      rfl

theorem step_keyed {cache' : X509_CACHE N} {a : mitm_call N} (h : Keyed X509_NAME_oneline cache)
    (hs : mitm_step X509_NAME_oneline cache a = some cache') : Keyed X509_NAME_oneline cache' := by
  cases a with
  | use_cert_mitm x spoof_ret =>
    obtain ⟨r, hr, rfl⟩ := Option.map_eq_some_iff.mp hs
    exact (use_cert_mitm_keyed h hr).1
  | erase_mitm subject =>
    cases hs
    exact fifo_cache.erase_stores h subject

end

/-! ## Requests -/

/-- A request has its key for itself, and gets no certificate that was spoofed for another one, when
it is alone, and only then. -/
theorem spoofed_certificates_are_separated (X509_NAME_oneline : N → List UInt8) (x : request N) :
    Separated X509_NAME_oneline x ↔ Alone X509_NAME_oneline x := by
  constructor
  · exact fun h => alone_of_keys h.keys
  · intro h
    refine ⟨by rw [h.key]; rfl, fun y hy => h.same hy, ?_⟩
    intro max_size calls cache hrun spoof_ret parek cache' huse
    have hstart : Keyed X509_NAME_oneline (empty_cache max_size) := nofun
    have hkeyed : Keyed X509_NAME_oneline cache :=
      always_exec (always_of_step (P := Keyed X509_NAME_oneline)
        (fun _ _ _ hk hs => step_keyed hk hs) hstart calls) hrun
    exact h.same ((use_cert_mitm_keyed hkeyed huse).2 parek rfl)

/-- A subject whose name ends like the marker has the key of a self-signed one. `N` is the text. -/
theorem a_name_is_read_as_a_marker : ¬ ∀ (N : Type) (X509_NAME_oneline : N → List UInt8)
    (x : request N), Separated X509_NAME_oneline x := by
  intro hall
  have hsame := (hall (List UInt8) id (bare [47, 67, 78, 61, 97] true [])).keys
    (bare ([47, 67, 78, 61, 97] ++ SELF_SIGNED) false []) (by decide)
  cases hsame.self_signed

end socle.spoof
