-- Runs of the operations of a cache (ptr_cache.hpp), and where they come to
-- undefined behaviour: `back()` of an empty list, and the count of a block
-- that is not in the map.
import Mathlib.Data.Set.Card
import Socle.Lib.Loop
import Socle.Lib.Run
import Socle.PtrCache

namespace socle.ptr_cache

open lib.loop lib.run

variable {K T : Type}

/-! ## Setting up -/

/-- A cache as the constructors and `expiration_check` set it up. -/
def create (mode : mode_t) (max_size : Nat) (fn_exp : Option (Int → T → Bool)) : ptr_cache K T :=
  { mode_ := mode
    max_size_ := max_size
    dbs_ := if mode = .LRU then some 0 else none
    fn_expired_check := fn_exp }

def clear (c : ptr_cache K T) : ptr_cache K T :=
  { c with cache_ := fun _ => none, items_ := [] }

/-- The key is in the map. -/
def has (c : ptr_cache K T) (k : K) : Bool :=
  (c.cache_ k).isSome

section
variable [DecidableEq K]

/-- `erase(i)`, with an iterator to the block of `k`. It takes the block from the map only, as
`erase(k)` does. -/
def erase_at (c : ptr_cache K T) (k : K) : ptr_cache K T :=
  { c with cache_ := Function.update c.cache_ k none }

/-! ## Operations and runs -/

inductive operation (K T : Type)
  | set (k : K) (v : T)
  | get (now : Int) (k : K)
  | erase (k : K)
  | erase_at (k : K)
  | clear
  | lru_reoder

/-- The cache after an operation, or `none` when the operation is undefined. -/
def perform (c : ptr_cache K T) : operation K T → Option (ptr_cache K T)
  | .set k v => (c.set k v).map Prod.snd
  | .get now k => (c.get now k).map Prod.snd
  | .erase k => some (c.erase k).2
  | .erase_at k => some (c.erase_at k)
  | .clear => some c.clear
  | .lru_reoder => c.lru_reoder.map Prod.snd

/-- There are no iterators to keys that are not in the map. -/
def possible (c : ptr_cache K T) : operation K T → Bool
  | .erase_at k => c.has k
  | _ => true

/-- The key that an operation puts into the map newly. -/
def inserted (c : ptr_cache K T) : operation K T → Option K
  | .set k _ => if c.has k then none else some k
  | _ => none

/-- A cache with its past. No function of the code keeps more than `cache`. `live` are the keys of
the map in the order in which they came, the youngest in front. `came` is the key that the last
operation put in, with the keys that lived before it. -/
structure History (K T : Type) where
  cache : ptr_cache K T
  defined : Bool := true
  live : List K := []
  came : Option (K × List K) := none

/-- The history behind an operation that leaves the cache `c`. -/
def History.after (s : History K T) (op : operation K T) (c : ptr_cache K T) : History K T where
  cache := c
  live := ((s.cache.inserted op).toList ++ s.live).filter c.has
  came := (s.cache.inserted op).map fun k => (k, s.live)

/-- One operation. Nothing follows an undefined one. -/
def step (s : History K T) (op : operation K T) : Option (History K T) :=
  if s.defined && s.cache.possible op then
    match s.cache.perform op with
    | none => some { s with defined := false, came := none }
    | some c => some (s.after op c)
  else none

/-- What an operation leaves. -/
theorem step_cases {s s' : History K T} {op : operation K T} (h : step s op = some s') :
    s.cache.possible op = true ∧
      (s.cache.perform op = none ∧ s'.cache = s.cache ∧ s'.defined = false ∨
        ∃ c, s.cache.perform op = some c ∧ s' = s.after op c) := by
  unfold step at h
  split_ifs at h with hcan
  refine ⟨(Bool.and_eq_true_iff.mp hcan).2, ?_⟩
  cases hc : s.cache.perform op with
  | none =>
    simp only [hc, Option.some.injEq] at h
    exact Or.inl ⟨rfl, h ▸ rfl, h ▸ rfl⟩
  | some c =>
    simp only [hc, Option.some.injEq] at h
    exact Or.inr ⟨c, rfl, h.symm⟩

/-! ## What is undefined -/

omit [DecidableEq K] in
theorem has_iff {c : ptr_cache K T} {k : K} : c.has k = true ↔ ∃ b, c.cache_ k = some b :=
  Option.isSome_iff_exists

omit [DecidableEq K] in
theorem not_has_iff {c : ptr_cache K T} {k : K} : c.has k = false ↔ c.cache_ k = none :=
  Option.isSome_eq_false_iff.trans Option.isNone_iff_eq_none

/-- `delete_last` is undefined for an empty list only. -/
theorem delete_last_undefined (c : ptr_cache K T) : c.delete_last = none ↔ c.items_ = [] := by
  unfold delete_last
  cases h : c.items_.getLast? with
  | none => simpa using h
  | some k =>
    simp only [reduceCtorEq, false_iff]
    intro hnil
    rw [hnil] at h
    cases h

omit [DecidableEq K] in
/-- `lru_reoder` is undefined for an empty list, and when the first key is not in the map. -/
theorem lru_reoder_undefined (c : ptr_cache K T) :
    c.lru_reoder = none ↔ ∀ k ∈ c.items_.head?, c.has k = false := by
  unfold lru_reoder has
  cases hitems : c.items_ with
  | nil => simp
  | cons first rest =>
    rw [List.getLast?_cons]
    simp only [List.head?_cons, Option.mem_some_iff, forall_eq']
    cases c.cache_ first with
    | none => simp
    | some b =>
      cases c.cache_ (rest.getLast?.getD first) with
      | none => simp
      | some b' =>
        simp only [Option.isSome_some, Bool.true_eq_false, iff_false]
        split_ifs <;> simp

omit [DecidableEq K] in
/-- What `lru_reoder` does: the last key comes to the front, or a last key that is not in the map
is dropped. -/
theorem lru_reoder_cases {c : ptr_cache K T} {r : Bool × ptr_cache K T}
    (h : c.lru_reoder = some r) :
    ∃ items, r.2 = { c with items_ := items } ∧
      ∃ keys last, c.items_ = keys ++ [last] ∧
        (items = c.items_ ∨ items = last :: keys ∨
          items = keys ∧ c.has last = false ∧ keys ≠ []) := by
  rcases List.eq_nil_or_concat c.items_ with hnil | ⟨keys, last, hitems⟩
  · rw [(lru_reoder_undefined c).mpr (by simp [hnil])] at h
    cases h
  · rw [List.concat_eq_append] at hitems
    have hlast : c.items_.getLast? = some last := by rw [hitems, List.getLast?_concat]
    unfold lru_reoder at h
    cases hhead : c.items_.head? with
    | none =>
      rw [hlast, hhead] at h
      cases h
    | some first =>
      cases hfirst : c.cache_ first with
      | none =>
        simp only [hlast, hhead, hfirst] at h
        cases h
      | some b =>
        cases hblock : c.cache_ last with
        | none =>
          simp only [hlast, hhead, hfirst, hblock, Option.some.injEq] at h
          subst h
          have hne : keys ≠ [] := by
            rintro rfl
            rw [hitems, List.nil_append, List.head?_cons, Option.some.injEq] at hhead
            rw [hhead, hfirst] at hblock
            cases hblock
          refine ⟨keys, by simp [pop_back, hitems], keys, last, hitems, Or.inr (Or.inr ?_)⟩
          exact ⟨rfl, not_has_iff.mpr hblock, hne⟩
        | some b' =>
          simp only [hlast, hhead, hfirst, hblock] at h
          split_ifs at h
          · cases h
            have hdrop : (last :: c.items_).dropLast = last :: keys := by
              rw [hitems, ← List.cons_append, List.dropLast_concat]
            refine ⟨last :: keys, ?_, keys, last, hitems, Or.inr (Or.inl rfl)⟩
            simp only [pop_back, hdrop]
          · cases h
            exact ⟨c.items_, rfl, keys, last, hitems, Or.inl rfl⟩

/-! ## The loop that makes room -/

/-- One turn of `while(items().size() >= max_size_)`. -/
def eviction (c : ptr_cache K T) : Turn (ptr_cache K T) (Option (ptr_cache K T)) :=
  if c.items_.length ≥ c.max_size_ then
    match c.remove_one with
    | none => .done none
    | some c => .next c
  else .done (some c)

/-- A turn takes one key from the list, or two in LRU mode. -/
theorem remove_one_shrinks {c c' : ptr_cache K T} (h : c.remove_one = some c') :
    c'.items_.length < c.items_.length ∧ c'.max_size_ = c.max_size_ := by
  have hdelete : ∀ {d : ptr_cache K T} {r : Bool × ptr_cache K T}, d.delete_last = some r →
      r.2.items_.length < d.items_.length ∧ r.2.max_size_ = d.max_size_ := by
    intro d r hr
    have hne : d.items_ ≠ [] := by
      intro hnil
      rw [(delete_last_undefined d).mpr hnil] at hr
      cases hr
    obtain ⟨r', hr', hw, hlen⟩ := delete_last_within hne
    rw [hr, Option.some.injEq] at hr'
    subst hr'
    exact ⟨by omega, hw.max_size_⟩
  unfold remove_one at h
  split at h
  next =>
    obtain ⟨r, hr, rfl⟩ := Option.map_eq_some_iff.mp h
    exact hdelete hr
  next =>
    obtain ⟨q, hq, h⟩ := Option.bind_eq_some_iff.mp h
    obtain ⟨r, hr, rfl⟩ := Option.map_eq_some_iff.mp h
    obtain ⟨hlen, hmax⟩ := hdelete hr
    obtain ⟨items, hq', keys, last, hitems, hcases⟩ := lru_reoder_cases hq
    have hle : q.2.items_.length ≤ c.items_.length := by
      rcases hcases with rfl | rfl | ⟨rfl, -, -⟩ <;> simp [hq', hitems]
    exact ⟨by omega, by rw [hmax, hq']⟩

/-- The loop stops, and `make_room` gives what it gives. -/
theorem make_room_stops {n : Nat} {c : ptr_cache K T} (hmax : 0 < c.max_size_)
    (hn : c.items_.length ≤ n) : Stops eviction c (make_room n c) := by
  induction n generalizing c with
  | zero =>
    have hlt : ¬ c.items_.length ≥ c.max_size_ := by omega
    exact stops_iff.mpr ⟨c, Relation.ReflTransGen.refl, by rw [eviction, if_neg hlt, make_room]⟩
  | succ n ih =>
    by_cases hfull : c.items_.length ≥ c.max_size_
    · rw [make_room, if_pos hfull]
      cases hone : c.remove_one with
      | none =>
        have hturn : eviction c = .done none := by rw [eviction, if_pos hfull, hone]
        exact (stops_done hturn).mpr rfl
      | some c' =>
        have hturn : eviction c = .next c' := by rw [eviction, if_pos hfull, hone]
        obtain ⟨hlen, hmax'⟩ := remove_one_shrinks hone
        rw [stops_next hturn]
        exact ih (by omega) (by omega)
    · have hturn : eviction c = .done (some c) := by rw [eviction, if_neg hfull]
      rw [make_room, if_neg hfull]
      exact (stops_done hturn).mpr rfl

/-- There is room already. -/
theorem make_room_of_lt {n : Nat} {c : ptr_cache K T} (h : c.items_.length < c.max_size_) :
    make_room n c = some c := by
  cases n with
  | zero => rfl
  | succ n => rw [make_room, if_neg (Nat.not_le.mpr h)]

/-- One turn is enough for a list that is not too long. -/
theorem make_room_once {c : ptr_cache K T} (hmax : 0 < c.max_size_)
    (h : c.items_.length = c.max_size_) : make_room c.items_.length c = c.remove_one := by
  obtain ⟨n, hn⟩ : ∃ n, c.items_.length = n + 1 := ⟨c.items_.length - 1, by omega⟩
  rw [hn, make_room, if_pos h.ge]
  cases hone : c.remove_one with
  | none => rfl
  | some c' =>
    obtain ⟨hlen, hmax'⟩ := remove_one_shrinks hone
    exact make_room_of_lt (by omega)

end

end socle.ptr_cache
