-- The cache of pointers with a maximal size (ptr_cache.hpp): a map from keys
-- to blocks, and the list of the keys, with the youngest in front. `none`
-- stands for undefined behaviour, which LRU mode can come to.
import Mathlib.Tactic
import Mathlib.Logic.Function.Basic

namespace socle

/-! ## Data -/

/-- `DataBlock`. `dbs_` tells whether the block counts in the statistics of the cache. -/
structure DataBlock (T : Type) where
  pointer_ : T
  counter_ : UInt32 := 0
  dbs_ : Bool := false

inductive mode_t
  | FIFO | LRU
deriving DecidableEq, Repr

/-- `ptr_cache`. `dbs_` is `total_counter`, once `mode_lru` was called. A `max_size_` of 0 is no
limit. `fn_expired_check` gets the time too. -/
structure ptr_cache (K T : Type) where
  mode_ : mode_t := .FIFO
  max_size_ : Nat
  items_ : List K := []
  cache_ : K → Option (DataBlock T) := fun _ => none
  dbs_ : Option UInt32 := none
  fn_expired_check : Option (Int → T → Bool) := none

namespace ptr_cache

variable {K T : Type} [DecidableEq K]

/-! ## Operations -/

/-- `erase(k)` takes the key from the map only. -/
def erase (c : ptr_cache K T) (k : K) : Bool × ptr_cache K T :=
  match c.cache_ k with
  | some _ => (true, { c with cache_ := Function.update c.cache_ k none })
  | none => (false, c)

/-- `items().pop_back()`. -/
def pop_back (c : ptr_cache K T) : ptr_cache K T :=
  { c with items_ := c.items_.dropLast }

/-- `delete_last`: `back()` of an empty list is undefined. -/
def delete_last (c : ptr_cache K T) : Option (Bool × ptr_cache K T) :=
  match c.items_.getLast? with
  | none => none
  | some to_delete =>
    some ((c.erase to_delete).1, (c.erase to_delete).2.pop_back)

/-- `lru_reoder`. The count of the first block is read before it is known to be there. -/
def lru_reoder (c : ptr_cache K T) : Option (Bool × ptr_cache K T) :=
  match c.items_.getLast?, c.items_.head? with
  | some last_key, some first_key =>
    match c.cache_ first_key with
    | none => none
    | some first =>
      let criteria := match c.dbs_ with
        | some total => UInt32.ofNat (total.toNat / c.items_.length)
        | none => first.counter_
      match c.cache_ last_key with
      | some last =>
        if last.counter_ > criteria then
          some (true, { c with items_ := last_key :: c.items_ }.pop_back)
        else some (false, c)
      | none => some (false, c.pop_back)
  | _, _ => none

/-- `touch` on the block of `k`. -/
def touch (c : ptr_cache K T) (k : K) (block : DataBlock T) : ptr_cache K T :=
  { c with
    cache_ := Function.update c.cache_ k (some { block with counter_ := block.counter_ + 1 })
    dbs_ := if block.dbs_ then c.dbs_.map (· + 1) else c.dbs_ }

/-- The expiration check, when there is one. -/
def expired (c : ptr_cache K T) (now : Int) (v : T) : Bool :=
  match c.fn_expired_check with
  | some check_fn => check_fn now v
  | none => false

/-- `get(k)`: the value, or the default value, which is no value. -/
def get (c : ptr_cache K T) (now : Int) (k : K) : Option (Option T × ptr_cache K T) :=
  match c.cache_ k with
  | none => some (none, c)
  | some block =>
    if c.expired now block.pointer_ then some (none, (c.erase k).2)
    else
      match c.mode_ with
      | .FIFO => some (some block.pointer_, c)
      | .LRU => (c.touch k block).lru_reoder.map fun r => (some block.pointer_, r.2)

/-- One turn of the loop that makes room. -/
def remove_one (c : ptr_cache K T) : Option (ptr_cache K T) :=
  match c.mode_ with
  | .FIFO => c.delete_last.map Prod.snd
  | .LRU => c.lru_reoder.bind fun r => r.2.delete_last.map Prod.snd

/-- `while(items().size() >= max_size_)`. Each turn takes a key from the list, so the length of
the list is turns enough. -/
def make_room : Nat → ptr_cache K T → Option (ptr_cache K T)
  | 0, c => some c
  | n + 1, c => if c.items_.length ≥ c.max_size_ then c.remove_one.bind (make_room n) else some c

/-- `std::make_unique<DataBlock>(dbs_, v)`. -/
def block (c : ptr_cache K T) (v : T) : DataBlock T :=
  { pointer_ := v, dbs_ := c.dbs_.isSome }

/-- `set(k, v)`: true when it replaced a value. -/
def set (c : ptr_cache K T) (k : K) (v : T) : Option (Bool × ptr_cache K T) :=
  match c.cache_ k with
  | some _ => some (true, { c with cache_ := Function.update c.cache_ k (some (c.block v)) })
  | none =>
    (if c.max_size_ > 0 then make_room c.items_.length c else some c).map fun c =>
      (false, { c with
        cache_ := Function.update c.cache_ k (some (c.block v))
        items_ := k :: c.items_ })

/-! ## What a cache holds -/

/-- Each value that the cache holds is one that belongs to its key. -/
def Stores (c : ptr_cache K T) (P : K → T → Prop) : Prop :=
  ∀ k b, c.cache_ k = some b → P k b.pointer_

/-- `c'` has nothing that `c` does not have, and is set up as `c` is. -/
structure Within (c' c : ptr_cache K T) : Prop where
  kept : ∀ k b, c'.cache_ k = some b → c.cache_ k = some b
  mode_ : c'.mode_ = c.mode_
  max_size_ : c'.max_size_ = c.max_size_
  fn_expired_check : c'.fn_expired_check = c.fn_expired_check

variable {c c' c'' : ptr_cache K T} {P : K → T → Prop}

omit [DecidableEq K] in
theorem Within.refl (c : ptr_cache K T) : c.Within c :=
  ⟨fun _ _ h => h, rfl, rfl, rfl⟩

omit [DecidableEq K] in
theorem Within.trans (h' : c''.Within c') (h : c'.Within c) : c''.Within c :=
  ⟨fun k b hb => h.kept k b (h'.kept k b hb), h'.mode_.trans h.mode_,
    h'.max_size_.trans h.max_size_, h'.fn_expired_check.trans h.fn_expired_check⟩

omit [DecidableEq K] in
theorem Stores.within (h : c.Stores P) (hw : c'.Within c) : c'.Stores P :=
  fun k b hb => h k b (hw.kept k b hb)

theorem erase_within (c : ptr_cache K T) (k : K) : (c.erase k).2.Within c := by
  unfold erase
  cases hk : c.cache_ k with
  | none => exact Within.refl c
  | some block =>
    refine ⟨fun k' b hb => ?_, rfl, rfl, rfl⟩
    by_cases h : k' = k
    · subst h
      simp at hb
    · simpa [h] using hb

/-! ## FIFO mode -/

/-- The value that `get` gives in FIFO mode. -/
def value (c : ptr_cache K T) (now : Int) (k : K) : Option T :=
  (c.cache_ k).bind fun b => if c.expired now b.pointer_ then none else some b.pointer_

/-- In FIFO mode `get` is defined. It gives a value of the key, and may drop the key. -/
theorem get_fifo (h : c.mode_ = .FIFO) (now : Int) (k : K) :
    ∃ c', c.get now k = some (c.value now k, c') ∧ c'.Within c := by
  unfold get value
  cases hk : c.cache_ k with
  | none => exact ⟨c, rfl, Within.refl c⟩
  | some block =>
    by_cases he : c.expired now block.pointer_
    · exact ⟨(c.erase k).2, by simp [he], erase_within c k⟩
    · exact ⟨c, by simp [he, h], Within.refl c⟩

omit [DecidableEq K] in
theorem value_stored (h : c.Stores P) {now : Int} {k : K} {v : T} (hv : c.value now k = some v) :
    P k v := by
  unfold value at hv
  cases hk : c.cache_ k with
  | none => simp [hk] at hv
  | some block =>
    simp only [hk, Option.bind_some] at hv
    split at hv
    · cases hv
    · cases hv
      exact h k block hk

theorem delete_last_within (h : c.items_ ≠ []) :
    ∃ r, c.delete_last = some r ∧ r.2.Within c ∧ r.2.items_.length + 1 = c.items_.length := by
  have hlen : 0 < c.items_.length := List.length_pos_iff.mpr h
  have hitems : (c.erase (c.items_.getLast h)).2.items_ = c.items_ := by
    unfold erase
    split <;> rfl
  have hw := erase_within c (c.items_.getLast h)
  refine ⟨((c.erase (c.items_.getLast h)).1, (c.erase (c.items_.getLast h)).2.pop_back),
    by rw [delete_last, List.getLast?_eq_some_getLast h],
    ⟨hw.kept, hw.mode_, hw.max_size_, hw.fn_expired_check⟩, ?_⟩
  simp only [pop_back, hitems, List.length_dropLast]
  omega

/-- Making room only takes keys away, and is defined in FIFO mode. -/
theorem make_room_fifo (hmax : 0 < c.max_size_) (h : c.mode_ = .FIFO) (n : Nat) :
    ∃ c', make_room n c = some c' ∧ c'.Within c := by
  induction n generalizing c with
  | zero => exact ⟨c, rfl, Within.refl c⟩
  | succ n ih =>
    unfold make_room
    by_cases hfull : c.items_.length ≥ c.max_size_
    · have hne : c.items_ ≠ [] := by
        intro hnil
        simp only [hnil, List.length_nil] at hfull
        omega
      obtain ⟨r, hr, hw, -⟩ := delete_last_within hne
      obtain ⟨c', hc', hw'⟩ := ih (c := r.2) (by rw [hw.max_size_]; exact hmax)
        (hw.mode_.trans h)
      refine ⟨c', ?_, hw'.trans hw⟩
      rw [if_pos hfull, remove_one, h, hr]
      exact hc'
    · exact ⟨c, by rw [if_neg hfull], Within.refl c⟩

/-- In FIFO mode `set` is defined, and what it does not store was there before. -/
theorem set_fifo (h : c.mode_ = .FIFO) (k : K) (v : T) :
    ∃ r, c.set k v = some r ∧ r.2.mode_ = .FIFO ∧
      r.2.fn_expired_check = c.fn_expired_check ∧
      ((r.2.cache_ k).map DataBlock.pointer_ = some v) ∧
      ∀ k', k' ≠ k → ∀ b, r.2.cache_ k' = some b → c.cache_ k' = some b := by
  unfold set
  cases hk : c.cache_ k with
  | some old =>
    refine ⟨_, rfl, h, rfl, by simp [block], fun k' hne b hb => ?_⟩
    simpa [hne] using hb
  | none =>
    have hroom : ∃ c', (if c.max_size_ > 0 then make_room c.items_.length c else some c) =
        some c' ∧ c'.Within c := by
      by_cases hmax : c.max_size_ > 0
      · rw [if_pos hmax]
        exact make_room_fifo hmax h _
      · rw [if_neg hmax]
        exact ⟨c, rfl, Within.refl c⟩
    obtain ⟨c', hc', hw⟩ := hroom
    rw [hc']
    refine ⟨_, rfl, hw.mode_.trans h, hw.fn_expired_check, by simp [block], fun k' hne b hb => ?_⟩
    exact hw.kept k' b (by simpa [hne] using hb)

/-! ## Both modes -/

omit [DecidableEq K] in
/-- Putting the keys in another order touches no value. -/
theorem lru_reoder_cache {r : Bool × ptr_cache K T} (h : c.lru_reoder = some r) :
    r.2.cache_ = c.cache_ := by
  unfold lru_reoder at h
  split at h
  next last_key first_key _ _ =>
    cases hfirst : c.cache_ first_key with
    | none =>
      rw [hfirst] at h
      cases h
    | some first =>
      rw [hfirst] at h
      cases hlast : c.cache_ last_key with
      | none =>
        simp only [hlast] at h
        cases h
        rfl
      | some last =>
        simp only [hlast] at h
        split_ifs at h <;> (cases h; rfl)
  next => cases h

theorem delete_last_kept {r : Bool × ptr_cache K T} (h : c.delete_last = some r) :
    ∀ k b, r.2.cache_ k = some b → c.cache_ k = some b := by
  unfold delete_last at h
  split at h
  next => cases h
  next to_delete _ =>
    cases h
    exact (erase_within c to_delete).kept

theorem remove_one_kept (h : c.remove_one = some c') :
    ∀ k b, c'.cache_ k = some b → c.cache_ k = some b := by
  unfold remove_one at h
  split at h
  next =>
    rw [Option.map_eq_some_iff] at h
    obtain ⟨r, hr, rfl⟩ := h
    exact delete_last_kept hr
  next =>
    rw [Option.bind_eq_some_iff] at h
    obtain ⟨q, hq, h⟩ := h
    rw [Option.map_eq_some_iff] at h
    obtain ⟨r, hr, rfl⟩ := h
    intro k b hb
    rw [← lru_reoder_cache hq]
    exact delete_last_kept hr k b hb

/-- Making room only takes values away. -/
theorem make_room_kept {n : Nat} (h : make_room n c = some c') :
    ∀ k b, c'.cache_ k = some b → c.cache_ k = some b := by
  induction n generalizing c with
  | zero =>
    cases h
    exact fun _ _ hb => hb
  | succ n ih =>
    unfold make_room at h
    split at h
    · rw [Option.bind_eq_some_iff] at h
      obtain ⟨d, hd, h⟩ := h
      exact fun k b hb => remove_one_kept hd k b (ih h k b hb)
    · cases h
      exact fun _ _ hb => hb

/-- In any mode, `get` gives a value that belongs to the key, and the rest stay where they are. -/
theorem get_stored (h : c.Stores P) {now : Int} {k : K} {r : Option T × ptr_cache K T}
    (hr : c.get now k = some r) : r.2.Stores P ∧ ∀ v, r.1 = some v → P k v := by
  unfold get at hr
  split at hr
  next =>
    cases hr
    exact ⟨h, fun v hv => by cases hv⟩
  next block hk =>
    split at hr
    · cases hr
      exact ⟨h.within (erase_within c k), fun v hv => by cases hv⟩
    split at hr
    next =>
      cases hr
      exact ⟨h, fun v hv => by cases hv; exact h k block hk⟩
    next =>
      rw [Option.map_eq_some_iff] at hr
      obtain ⟨q, hq, rfl⟩ := hr
      refine ⟨?_, fun v hv => by cases hv; exact h k block hk⟩
      intro k' b hb
      rw [lru_reoder_cache hq] at hb
      by_cases hkk : k' = k
      · subst hkk
        simp only [touch, Function.update_self, Option.some.injEq] at hb
        subst hb
        exact h k' block hk
      · simp only [touch, Function.update_of_ne hkk] at hb
        exact h k' b hb

theorem set_stored (h : c.Stores P) {k : K} {v : T} (hv : P k v) {r : Bool × ptr_cache K T}
    (hr : c.set k v = some r) : r.2.Stores P := by
  have hput : ∀ d : ptr_cache K T, (∀ k b, d.cache_ k = some b → c.cache_ k = some b) →
      ∀ k' b, Function.update d.cache_ k (some (d.block v)) k' = some b → P k' b.pointer_ := by
    intro d hd k' b hb
    by_cases hkk : k' = k
    · subst hkk
      rw [Function.update_self, Option.some.injEq] at hb
      subst hb
      exact hv
    · rw [Function.update_of_ne hkk] at hb
      exact h k' b (hd k' b hb)
  unfold set at hr
  split at hr
  next =>
    cases hr
    exact hput c fun _ _ hb => hb
  next =>
    rw [Option.map_eq_some_iff] at hr
    obtain ⟨d, hd, rfl⟩ := hr
    apply hput d
    split at hd
    · exact make_room_kept hd
    · cases hd
      exact fun _ _ hb => hb

end ptr_cache

/-! ## Caches that stay in FIFO mode -/

/-- A cache that was set up in FIFO mode. All its operations are defined. -/
structure fifo_cache (K T : Type) where
  cache : ptr_cache K T
  fifo : cache.mode_ = .FIFO

namespace fifo_cache

variable {K T : Type} [DecidableEq K]

theorem get_isSome (c : fifo_cache K T) (now : Int) (k : K) :
    (c.cache.get now k).isSome := by
  rcases ptr_cache.get_fifo c.fifo now k with ⟨c', h, -⟩
  rw [h]
  rfl

theorem set_isSome (c : fifo_cache K T) (k : K) (v : T) : (c.cache.set k v).isSome := by
  rcases ptr_cache.set_fifo c.fifo k v with ⟨r, h, -⟩
  rw [h]
  rfl

theorem get_spec (c : fifo_cache K T) (now : Int) (k : K) :
    ((c.cache.get now k).get (c.get_isSome now k)).1 = c.cache.value now k ∧
      ((c.cache.get now k).get (c.get_isSome now k)).2.Within c.cache := by
  rcases ptr_cache.get_fifo c.fifo now k with ⟨c', h, hw⟩
  simpa only [h, Option.get_some, true_and] using hw

theorem set_spec (c : fifo_cache K T) (k : K) (v : T) :
    ((c.cache.set k v).get (c.set_isSome k v)).2.mode_ = .FIFO ∧
      ((((c.cache.set k v).get (c.set_isSome k v)).2.cache_ k).map DataBlock.pointer_ = some v) ∧
      ∀ k', k' ≠ k → ∀ b, ((c.cache.set k v).get (c.set_isSome k v)).2.cache_ k' = some b →
        c.cache.cache_ k' = some b := by
  rcases ptr_cache.set_fifo c.fifo k v with ⟨r, h, hmode, -, hnew, hold⟩
  simp only [h, Option.get_some]
  exact ⟨hmode, hnew, hold⟩

/-- `get(k)`. -/
def get (c : fifo_cache K T) (now : Int) (k : K) : Option T × fifo_cache K T :=
  (((c.cache.get now k).get (c.get_isSome now k)).1,
    ⟨((c.cache.get now k).get (c.get_isSome now k)).2, (c.get_spec now k).2.mode_.trans c.fifo⟩)

/-- `set(k, v)`. -/
def set (c : fifo_cache K T) (k : K) (v : T) : fifo_cache K T :=
  ⟨((c.cache.set k v).get (c.set_isSome k v)).2, (c.set_spec k v).1⟩

/-- `erase(k)`, and `erase(i)` with an iterator to the block of `k`. -/
def erase (c : fifo_cache K T) (k : K) : fifo_cache K T :=
  ⟨(c.cache.erase k).2, (ptr_cache.erase_within c.cache k).mode_.trans c.fifo⟩

/-- Each value that the cache holds is one that belongs to its key. -/
def Stores (c : fifo_cache K T) (P : K → T → Prop) : Prop :=
  c.cache.Stores P

variable {c : fifo_cache K T} {P : K → T → Prop} {now : Int} {k : K} {v : T}

theorem get_stores (h : c.Stores P) (now : Int) (k : K) : (c.get now k).2.Stores P :=
  ptr_cache.Stores.within h (c.get_spec now k).2

/-- What `get` gives belongs to the key. -/
theorem get_stored (h : c.Stores P) (hv : (c.get now k).1 = some v) : P k v :=
  ptr_cache.value_stored h ((c.get_spec now k).1.symm.trans hv)

theorem set_stores (h : c.Stores P) (hv : P k v) : (c.set k v).Stores P := by
  intro k' b hb
  rcases c.set_spec k v with ⟨-, hnew, hold⟩
  by_cases hk : k' = k
  · subst hk
    have hb' : some b.pointer_ = some v := (congrArg _ hb.symm).trans hnew
    rw [Option.some.injEq] at hb'
    exact hb' ▸ hv
  · exact h k' b (hold k' hk b hb)

theorem erase_stores (h : c.Stores P) (k : K) : (c.erase k).Stores P :=
  ptr_cache.Stores.within h (ptr_cache.erase_within c.cache k)

/-! ### The check of expiration -/

theorem set_check (c : fifo_cache K T) (k : K) (v : T) :
    (c.set k v).cache.fn_expired_check = c.cache.fn_expired_check := by
  obtain ⟨r, h, -, hcheck, -⟩ := ptr_cache.set_fifo c.fifo k v
  simpa only [set, h, Option.get_some] using hcheck

theorem get_check (c : fifo_cache K T) (now : Int) (k : K) :
    (c.get now k).2.cache.fn_expired_check = c.cache.fn_expired_check :=
  (c.get_spec now k).2.fn_expired_check

/-- Without a check, `get` finds what is there, and leaves the cache as it is. -/
theorem get_of_unchecked (h : c.cache.fn_expired_check = none) (now : Int) (k : K) :
    c.get now k = ((c.cache.cache_ k).map DataBlock.pointer_, c) := by
  have hget : c.cache.get now k = some ((c.cache.cache_ k).map DataBlock.pointer_, c.cache) := by
    unfold ptr_cache.get ptr_cache.expired
    rw [h, c.fifo]
    cases c.cache.cache_ k <;> rfl
  simp only [get, hget, Option.get_some]

end fifo_cache

end socle
