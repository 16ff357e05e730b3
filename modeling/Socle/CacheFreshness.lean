-- How old the values are that the caches of the revocation check give
-- (SSLFactory::reset_caches, expiring and expiring_ptr). Only one of the two
-- caches looks at the time, and a time to live is converted to `unsigned int`.
import Socle.CacheRuns
import Socle.StatusCheck

namespace socle

namespace fifo_cache

variable {K T : Type} [DecidableEq K]

omit [DecidableEq K] in
theorem clear_fifo (c : fifo_cache K T) : c.cache.clear.mode_ = .FIFO :=
  c.fifo

def clear (c : fifo_cache K T) : fifo_cache K T :=
  ⟨c.cache.clear, c.clear_fifo⟩

def expiration_check (fn_expired_check_arg : Int → T → Bool) (c : fifo_cache K T) : fifo_cache K T :=
  ⟨{ c.cache with fn_expired_check := some fn_expired_check_arg }, c.fifo⟩

end fifo_cache

namespace status

open verify crl lib.run

/-! ## Values with a time to live -/

/-- The constructor of `expiring` and `expiring_ptr`. The seconds are an `unsigned int`. -/
def expiring.make {T : Type} (now : Int) (v : T) (in_seconds : Int) : expiring T :=
  { value_ := v, expired_at_ := now + in_seconds % 4294967296 }

example (now result ttl : Int) :
    make_exp_ocsp_status now result ttl = .make now { revoked := result, ttl := ttl } ttl := rfl

example (now : Int) (crl : Option X509_CRL) :
    make_expiring_crl now crl = .make now { ptr := crl } crl_status_ttl := rfl

/-! ## Runs -/

/-- What was stored: a value, when, and its time to live. -/
structure record (V : Type) where
  value : V
  time : Int
  ttl : Int32

/-- What a `get` gave, when, and what was stored last under its key. -/
structure answer (V : Type) where
  value : V
  time : Int
  stored : Option (record V)

/-- A cache with its past. No function of the code keeps `stored`, which has the last value that was
stored under each key, and `given`, the last answer. -/
structure Watched (K V : Type) where
  cache : fifo_cache K (expiring V)
  stored : K → Option (record V) := fun _ => none
  given : Option (answer V) := none

inductive cache_operation (K V : Type)
  | set (k : K) (v : V) (ttl : Int32)
  | get (k : K)
  | erase (k : K)
  | clear

section
variable {K V : Type} [DecidableEq K]

def Watched.perform (now : Int) (w : Watched K V) : cache_operation K V → Watched K V
  | .set k v ttl =>
    { w with
      cache := w.cache.set k (.make now v ttl.toInt)
      stored := Function.update w.stored k (some { value := v, time := now, ttl := ttl }) }
  | .get k =>
    let r := w.cache.get now k
    { w with
      cache := r.2
      given := r.1.map fun e => { value := e.value_, time := now, stored := w.stored k } }
  | .erase k => { w with cache := w.cache.erase k }
  | .clear => { w with cache := w.cache.clear }

end

/-- The clock, and the caches of `SSLFactory`. -/
structure Caches where
  now : Int
  verify_cache : Watched String VerifyStatus
  crl_cache : Watched url crl_holder

inductive operation
  | advance (seconds : Nat)
  | verify_cache (op : cache_operation String VerifyStatus)
  | crl_cache (op : cache_operation url crl_holder)
  | reset_caches

/-- The caches after `init`. -/
def init (now : Int) (verify_size crl_size : Nat) : Caches where
  now := now
  verify_cache := { cache := (SSLFactory.reset_caches verify_size crl_size).verify_cache }
  crl_cache := { cache := (SSLFactory.reset_caches verify_size crl_size).crl_cache }

def step (s : Caches) : operation → Option Caches
  | .advance seconds => some { s with now := s.now + seconds }
  | .verify_cache op => some { s with verify_cache := s.verify_cache.perform s.now op }
  | .crl_cache op => some { s with crl_cache := s.crl_cache.perform s.now op }
  | .reset_caches =>
    some { s with verify_cache := { s.verify_cache with
      cache := s.verify_cache.cache.clear.expiration_check expiring.expired } }

/-! ## The law -/

/-- The value was stored under its key, less than its time to live ago. -/
def Fresh {V : Type} (a : answer V) : Prop :=
  ∃ r, a.stored = some r ∧ r.value = a.value ∧ a.time < r.time + r.ttl.toInt ∧ 0 < r.ttl.toInt

/-- Each value that was given last is fresh. -/
structure AllFresh (s : Caches) : Prop where
  verify_cache : ∀ a, s.verify_cache.given = some a → Fresh a
  crl_cache : ∀ a, s.crl_cache.given = some a → Fresh a

/-- No `get` finds a value that was stored with a negative time to live, unless the check of
`verify_cache` finds it expired, and no `get` on `crl_cache` finds a value that is expired. -/
def Prompt (s : Caches) : operation → Prop
  | .verify_cache (.get k) => ∀ b r, s.verify_cache.cache.cache.cache_ k = some b →
    s.verify_cache.stored k = some r → b.pointer_.expired s.now = false → 0 ≤ r.ttl.toInt
  | .crl_cache (.get k) => ∀ b r, s.crl_cache.cache.cache.cache_ k = some b →
    s.crl_cache.stored k = some r → b.pointer_.expired s.now = false ∧ 0 ≤ r.ttl.toInt
  | _ => True

/-! ## One cache -/

theorem not_expired_iff {T : Type} {e : expiring T} {now : Int} :
    e.expired now = false ↔ now < e.expired_at_ := by
  simp [expiring.expired]

/-- A value that is fresh is not expired, and was not stored with a negative time to live. -/
theorem fresh_iff {V : Type} {r : record V} {now : Int} (h : r.time ≤ now) :
    now < r.time + r.ttl.toInt ∧ 0 < r.ttl.toInt ↔
      (expiring.make r.time r.value r.ttl.toInt).expired now = false ∧ 0 ≤ r.ttl.toInt := by
  have hlt := r.ttl.toInt_lt
  have hsame : 0 ≤ r.ttl.toInt → r.ttl.toInt % 4294967296 = r.ttl.toInt :=
    fun hpos => Int.emod_eq_of_lt hpos (by omega)
  rw [not_expired_iff]
  constructor
  · rintro ⟨hage, hpos⟩
    simp only [expiring.make, hsame hpos.le]
    exact ⟨hage, hpos.le⟩
  · rintro ⟨hage, hpos⟩
    simp only [expiring.make, hsame hpos] at hage
    omega

section
variable {K V : Type} [DecidableEq K] {now : Int} {w : Watched K V}

/-- The cache holds what was stored last, and the value that was given last is fresh. -/
structure Kept (now : Int) (w : Watched K V) : Prop where
  entries : ∀ k b, w.cache.cache.cache_ k = some b → ∃ r, w.stored k = some r ∧
    b.pointer_ = .make r.time r.value r.ttl.toInt ∧ r.time ≤ now
  given : ∀ a, w.given = some a → Fresh a

omit [DecidableEq K] in
theorem Kept.later (hw : Kept now w) {now' : Int} (h : now ≤ now') : Kept now' w where
  entries := by
    intro k b hb
    obtain ⟨r, hr, hvalue, htime⟩ := hw.entries k b hb
    exact ⟨r, hr, hvalue, htime.trans h⟩
  given := hw.given

omit [DecidableEq K] in
/-- A cache that lost values. -/
theorem Kept.fewer (hw : Kept now w) {c : fifo_cache K (expiring V)}
    (h : ∀ k b, c.cache.cache_ k = some b → w.cache.cache.cache_ k = some b) :
    Kept now { w with cache := c } where
  entries := fun k b hb => hw.entries k b (h k b hb)
  given := hw.given

theorem Kept.set (hw : Kept now w) (k : K) (v : V) (ttl : Int32) :
    Kept now (w.perform now (.set k v ttl)) where
  entries := by
    obtain ⟨-, hnew, hold⟩ := w.cache.set_spec k (.make now v ttl.toInt)
    intro k' b hb
    by_cases hk : k' = k
    · subst hk
      refine ⟨{ value := v, time := now, ttl := ttl }, Function.update_self .., ?_, le_refl now⟩
      have hpointer : some b.pointer_ = some (expiring.make now v ttl.toInt) :=
        (congrArg (Option.map DataBlock.pointer_) hb.symm).trans hnew
      exact Option.some.inj hpointer
    · obtain ⟨r, hr, hrest⟩ := hw.entries k' b (hold k' hk b hb)
      exact ⟨r, (Function.update_of_ne hk ..).trans hr, hrest⟩
  given := hw.given

/-- A `get` of a value that the cache does not find expired. -/
def Timely (now : Int) (w : Watched K V) (k : K) : Prop :=
  ∀ b r, w.cache.cache.cache_ k = some b → w.stored k = some r →
    w.cache.cache.expired now b.pointer_ = false →
    b.pointer_.expired now = false ∧ 0 ≤ r.ttl.toInt

/-- What a `get` gives. -/
theorem get_given (hw : Kept now w) {k : K} {a : answer V} :
    (w.perform now (.get k)).given = some a ↔
      ∃ b r, w.cache.cache.cache_ k = some b ∧ w.stored k = some r ∧
        w.cache.cache.expired now b.pointer_ = false ∧
        b.pointer_ = .make r.time r.value r.ttl.toInt ∧ r.time ≤ now ∧
        a = { value := r.value, time := now, stored := some r } := by
  have hvalue : (w.cache.get now k).1 = w.cache.cache.value now k := (w.cache.get_spec now k).1
  simp only [Watched.perform, hvalue, ptr_cache.value]
  cases hb : w.cache.cache.cache_ k with
  | none => simp
  | some b =>
    obtain ⟨r, hr, hmake, htime⟩ := hw.entries k b hb
    have hv : b.pointer_.value_ = r.value := by rw [hmake]; rfl
    cases hexpired : w.cache.cache.expired now b.pointer_ with
    | true => simp [hexpired]
    | false =>
      simp only [Option.bind_some, hexpired, Bool.false_eq_true, if_false, Option.map_some,
        Option.some.injEq, hr, hv]
      constructor
      · intro ha
        exact ⟨b, r, rfl, rfl, hexpired, hmake, htime, ha.symm⟩
      · rintro ⟨b', r', -, rfl, -, -, -, ha⟩
        exact ha.symm

/-- A `get` gives a fresh value, or none, when, and only when, it is timely. -/
theorem get_fresh_iff (hw : Kept now w) (k : K) :
    (∀ a, (w.perform now (.get k)).given = some a → Fresh a) ↔ Timely now w k := by
  constructor
  · intro h b r hb hr hexpired
    obtain ⟨r', hr', hmake, htime⟩ := hw.entries k b hb
    rw [hr, Option.some.injEq] at hr'
    subst hr'
    obtain ⟨q, hq, -, hfresh⟩ :=
      h _ ((get_given hw).mpr ⟨b, r, hb, hr, hexpired, hmake, htime, rfl⟩)
    rw [Option.some.injEq] at hq
    subst hq
    rw [hmake]
    exact (fresh_iff htime).mp hfresh
  · intro h a ha
    obtain ⟨b, r, hb, hr, hexpired, hmake, htime, rfl⟩ := (get_given hw).mp ha
    have hkept := h b r hb hr hexpired
    rw [hmake] at hkept
    exact ⟨r, rfl, rfl, (fresh_iff htime).mpr hkept⟩

/-- An operation keeps the cache when it is timely. -/
theorem Kept.perform (hw : Kept now w) {op : cache_operation K V}
    (h : ∀ k, op = .get k → Timely now w k) : Kept now (w.perform now op) := by
  cases op with
  | set k v ttl => exact hw.set k v ttl
  | get k =>
    refine ⟨?_, (get_fresh_iff hw k).mpr (h k rfl)⟩
    exact fun k' b hb => hw.entries k' b ((w.cache.get_spec now k).2.kept k' b hb)
  | erase k => exact hw.fewer (ptr_cache.erase_within w.cache.cache k).kept
  | clear => exact hw.fewer fun k b hb => by cases hb

theorem perform_check (w : Watched K V) (now : Int) (op : cache_operation K V) :
    (w.perform now op).cache.cache.fn_expired_check = w.cache.cache.fn_expired_check := by
  cases op with
  | set k v ttl => exact w.cache.set_check k _
  | get k => exact w.cache.get_check now k
  | erase k => exact (ptr_cache.erase_within w.cache.cache k).fn_expired_check
  | clear => rfl

end

/-! ## Each run -/

/-- The invariant. Only `verify_cache` has an expiration check. -/
structure Inv (s : Caches) : Prop where
  verify_cache : Kept s.now s.verify_cache
  crl_cache : Kept s.now s.crl_cache
  checks : s.verify_cache.cache.cache.fn_expired_check = some expiring.expired
  no_check : s.crl_cache.cache.cache.fn_expired_check = none

theorem init_inv (now : Int) (verify_size crl_size : Nat) :
    Inv (init now verify_size crl_size) where
  verify_cache := ⟨fun k b hb => (by cases hb), fun a ha => (by cases ha)⟩
  crl_cache := ⟨fun k b hb => (by cases hb), fun a ha => (by cases ha)⟩
  checks := rfl
  no_check := rfl

/-- What is prompt is timely, in each of the two caches. -/
theorem Inv.prompt_iff {s : Caches} (hs : Inv s) :
    (∀ k, Prompt s (.verify_cache (.get k)) ↔ Timely s.now s.verify_cache k) ∧
      ∀ k, Prompt s (.crl_cache (.get k)) ↔ Timely s.now s.crl_cache k := by
  constructor
  · intro k
    simp only [Prompt, Timely, ptr_cache.expired, hs.checks]
    exact forall₂_congr fun b r => by tauto
  · intro k
    simp only [Prompt, Timely, ptr_cache.expired, hs.no_check, forall_const]

theorem step_inv {s s' : Caches} {op : operation} (hs : Inv s) (hc : Prompt s op)
    (h : step s op = some s') : Inv s' := by
  cases op with
  | advance seconds =>
    cases h
    have hle : s.now ≤ s.now + seconds := by omega
    exact ⟨hs.verify_cache.later hle, hs.crl_cache.later hle, hs.checks, hs.no_check⟩
  | verify_cache op =>
    cases h
    have htimely : ∀ k, op = .get k → Timely s.now s.verify_cache k := by
      rintro k rfl
      exact (hs.prompt_iff.1 k).mp hc
    exact ⟨hs.verify_cache.perform htimely, hs.crl_cache, (perform_check ..).trans hs.checks,
      hs.no_check⟩
  | crl_cache op =>
    cases h
    have htimely : ∀ k, op = .get k → Timely s.now s.crl_cache k := by
      rintro k rfl
      exact (hs.prompt_iff.2 k).mp hc
    exact ⟨hs.verify_cache, hs.crl_cache.perform htimely, hs.checks,
      (perform_check ..).trans hs.no_check⟩
  | reset_caches =>
    cases h
    exact ⟨hs.verify_cache.fewer fun k b hb => (by cases hb), hs.crl_cache, rfl, hs.no_check⟩

theorem step_breaks {s s' : Caches} {op : operation} (hs : Inv s) (hc : ¬ Prompt s op)
    (h : step s op = some s') : ¬ AllFresh s' := by
  intro hlaw
  apply hc
  cases op with
  | advance seconds => trivial
  | verify_cache op =>
    cases h
    cases op with
    | get k =>
      rw [hs.prompt_iff.1 k, ← get_fresh_iff hs.verify_cache k]
      exact hlaw.verify_cache
    | set k v ttl => trivial
    | erase k => trivial
    | clear => trivial
  | crl_cache op =>
    cases h
    cases op with
    | get k =>
      rw [hs.prompt_iff.2 k, ← get_fresh_iff hs.crl_cache k]
      exact hlaw.crl_cache
    | set k v ttl => trivial
    | erase k => trivial
    | clear => trivial
  | reset_caches => trivial

/-- In each state of a run the values that were given last are fresh when, and only when, no `get`
finds a value with a negative time to live, and none finds an expired one in `crl_cache`. -/
theorem verdicts_are_fresh (now : Int) (verify_size crl_size : Nat) (ops : List operation) :
    Always step AllFresh (init now verify_size crl_size) ops ↔
      Meets step Prompt (init now verify_size crl_size) ops :=
  always_iff_meets (fun _ h => ⟨h.verify_cache.given, h.crl_cache.given⟩)
    (fun _ _ _ => step_inv) (fun _ _ _ => step_breaks) (init_inv now verify_size crl_size) ops

/-- A download that failed is stored for a day, and looked up after two days. -/
def two_days_later : List operation :=
  [.crl_cache (.set [1] { ptr := none } 86400), .advance 172800, .crl_cache (.get [1])]

/-- The failed download is still there. -/
theorem a_failed_download_stays :
    ¬ ∀ (now : Int) (verify_size crl_size : Nat) (ops : List operation),
      Always step AllFresh (init now verify_size crl_size) ops := by
  intro hall
  have hend : ∃ s a, exec step (init 0 100 100) two_days_later = some s ∧
      s.crl_cache.given = some a ∧ a.time = 172800 ∧
      a.stored = some { value := { ptr := none }, time := 0, ttl := 86400 } :=
    ⟨_, _, rfl, rfl, rfl, rfl⟩
  obtain ⟨s, a, hrun, hgiven, htime, hstored⟩ := hend
  have hlaw := always_exec (hall 0 100 100 two_days_later) hrun
  obtain ⟨r, hr, -, hage, -⟩ := hlaw.crl_cache a hgiven
  rw [hstored, Option.some.injEq] at hr
  subst hr
  rw [htime] at hage
  exact absurd hage (by decide)

end status

end socle
