-- The reordering of a cache in LRU mode (lru_reoder of ptr_cache.hpp). It reads
-- the count of the block of the first key before it looks whether there is one,
-- and `erase` leaves keys in the list that are not in the map.
import Socle.CacheKeys

namespace socle.ptr_cache

open lib.loop lib.run

variable {K T : Type} [DecidableEq K]

/-! ## The law -/

/-- Nothing was undefined, and the loop that makes room would come to its end. -/
structure Unharmed (s : History K T) : Prop where
  defined : s.defined = true
  ends : 0 < s.cache.max_size_ → ∃ r, Stops eviction s.cache r

/-- The list has a first key, and it is in the map. -/
def FrontLives (c : ptr_cache K T) : Prop :=
  ∃ k ∈ c.items_.head?, c.has k = true

/-- A `get` that finds a value which is not expired, a `set` of a new key in a full cache and a
call of `lru_reoder` find the first key in the map. -/
def Fronted (s : History K T) : operation K T → Prop
  | .get now k => ∀ b, s.cache.cache_ k = some b → s.cache.expired now b.pointer_ = false →
    FrontLives s.cache
  | .set k _ => s.cache.has k = false → 0 < s.cache.max_size_ →
    s.cache.max_size_ ≤ s.cache.items_.length → FrontLives s.cache
  | .lru_reoder => FrontLives s.cache
  | .erase _ | .erase_at _ | .clear => True

/-! ## One operation -/

/-- A cache in LRU mode. Its list has the keys of the map, maybe among others, and is not too
long. -/
structure Listed (c : ptr_cache K T) : Prop where
  lru : c.mode_ = .LRU
  listed : ∀ k, c.has k = true → k ∈ c.items_
  room : 0 < c.max_size_ → c.items_.length ≤ c.max_size_

omit [DecidableEq K] in
theorem reorders_iff {c : ptr_cache K T} : c.lru_reoder = none ↔ ¬ FrontLives c := by
  simp [lru_reoder_undefined, FrontLives]

omit [DecidableEq K] in
/-- Reordering keeps the keys of the map in the list, and leaves keys in it. -/
theorem Listed.lru_reoder {c : ptr_cache K T} (h : Listed c) {r : Bool × ptr_cache K T}
    (hr : c.lru_reoder = some r) :
    Listed r.2 ∧ r.2.cache_ = c.cache_ ∧ r.2.max_size_ = c.max_size_ ∧ r.2.items_ ≠ [] ∧
      r.2.items_.length ≤ c.items_.length := by
  obtain ⟨items, hcache, keys, last, hitems, hcases⟩ := lru_reoder_cases hr
  have hlen : items.length ≤ c.items_.length := by
    rcases hcases with rfl | rfl | ⟨rfl, -, -⟩ <;> simp [hitems]
  have hne : items ≠ [] := by
    rcases hcases with rfl | rfl | ⟨rfl, -, hne⟩
    · simp [hitems]
    · exact List.cons_ne_nil _ _
    · exact hne
  have hlisted : ∀ k, c.has k = true → k ∈ items := by
    intro k hk
    have hin := h.listed k hk
    rw [hitems] at hin
    rcases hcases with rfl | rfl | ⟨rfl, hstale, -⟩
    · rw [hitems]
      exact hin
    · exact (List.perm_append_singleton last keys).mem_iff.mp hin
    · rcases List.mem_append.mp hin with hin | hin
      · exact hin
      · rw [List.mem_singleton.mp hin, hstale] at hk
        cases hk
  rw [hcache]
  exact ⟨⟨h.lru, hlisted, fun hmax => hlen.trans (h.room hmax)⟩, rfl, rfl, hne, hlen⟩

theorem Listed.erase_at {c : ptr_cache K T} (h : Listed c) (k : K) : Listed (c.erase_at k) where
  lru := h.lru
  listed := by
    intro k' hk
    rw [ptr_cache.erase_at, has_update_none, Bool.and_eq_true] at hk
    exact h.listed k' hk.1
  room := h.room

theorem Listed.delete_last {c : ptr_cache K T} (h : Listed c) {r : Bool × ptr_cache K T}
    (hr : c.delete_last = some r) : Listed r.2 := by
  rcases List.eq_nil_or_concat c.items_ with hnil | ⟨keys, last, hitems⟩
  · rw [(delete_last_undefined c).mpr hnil] at hr
    cases hr
  · rw [List.concat_eq_append] at hitems
    have hcache : r.2 = { c with
        cache_ := Function.update c.cache_ last none, items_ := keys } := by
      have hlast : c.items_.getLast? = some last := by rw [hitems, List.getLast?_concat]
      simp only [ptr_cache.delete_last, hlast, Option.some.injEq] at hr
      subst hr
      cases hb : c.cache_ last with
      | none =>
        have hsame : Function.update c.cache_ last none = c.cache_ :=
          Function.update_eq_self_iff.mpr hb.symm
        simp [erase, hb, pop_back, hitems, hsame]
      | some b => simp [erase, hb, pop_back, hitems]
    rw [hcache]
    refine ⟨h.lru, fun k hk => ?_, fun hmax => ?_⟩
    · rw [has_update_none, Bool.and_eq_true, decide_eq_true_eq] at hk
      have hin := h.listed k hk.1
      rw [hitems, List.mem_append, List.mem_singleton] at hin
      exact hin.resolve_right hk.2
    · have hle := h.room hmax
      rw [hitems, List.length_append] at hle
      exact (Nat.le_add_right _ _).trans hle

/-- One turn of the loop is defined when, and only when, the first key is in the map. -/
theorem Listed.remove_one {c : ptr_cache K T} (h : Listed c) :
    (c.remove_one = none ↔ ¬ FrontLives c) ∧ ∀ d, c.remove_one = some d → Listed d := by
  unfold ptr_cache.remove_one
  rw [h.lru]
  cases hr : c.lru_reoder with
  | none => simpa [hr] using reorders_iff.mp hr
  | some r =>
    have hfront : FrontLives c := by
      by_contra hn
      rw [reorders_iff.mpr hn] at hr
      cases hr
    obtain ⟨hlisted, -, -, hne, -⟩ := h.lru_reoder hr
    constructor
    · simp [hfront, delete_last_undefined, hne]
    · intro d hd
      obtain ⟨q, hq, rfl⟩ := Option.map_eq_some_iff.mp hd
      exact hlisted.delete_last hq

theorem Listed.push {c : ptr_cache K T} (h : Listed c) (k : K) (v : T)
    (hroom : 0 < c.max_size_ → c.items_.length < c.max_size_) : Listed (c.push k v) where
  lru := h.lru
  listed := by
    intro k' hk
    rw [push_has, Bool.or_eq_true, decide_eq_true_eq] at hk
    exact List.mem_cons.mpr (hk.symm.imp id (h.listed k'))
  room := hroom

/-- The room that `set` makes for a new key. -/
theorem Listed.makes_room {c : ptr_cache K T} (h : Listed c) :
    ((if c.max_size_ > 0 then make_room c.items_.length c else some c) = none ↔
      0 < c.max_size_ ∧ c.max_size_ ≤ c.items_.length ∧ ¬ FrontLives c) ∧
    ∀ d, (if c.max_size_ > 0 then make_room c.items_.length c else some c) = some d →
      Listed d ∧ (0 < d.max_size_ → d.items_.length < d.max_size_) := by
  by_cases hmax : c.max_size_ > 0
  · rw [if_pos hmax]
    have hle := h.room hmax
    by_cases hfull : c.items_.length = c.max_size_
    · rw [make_room_once hmax hfull]
      obtain ⟨hnone, hsome⟩ := h.remove_one
      refine ⟨by simp [hnone, hmax, hfull], fun d hd => ⟨hsome d hd, fun _ => ?_⟩⟩
      obtain ⟨hlen, hmax'⟩ := remove_one_shrinks hd
      omega
    · have hlt : c.items_.length < c.max_size_ := by omega
      rw [make_room_of_lt hlt]
      refine ⟨by simp [hlt], fun d hd => ?_⟩
      cases hd
      exact ⟨h, fun _ => hlt⟩
  · rw [if_neg hmax]
    refine ⟨by simp [hmax], fun d hd => ?_⟩
    cases hd
    exact ⟨h, fun hpos => absurd hpos hmax⟩

/-! ## Each run -/

/-- Behind `touch` the same keys are there. -/
theorem Listed.touch {c : ptr_cache K T} (h : Listed c) {k : K} {b : DataBlock T}
    (hb : c.cache_ k = some b) :
    Listed (c.touch k b) ∧ (FrontLives (c.touch k b) ↔ FrontLives c) := by
  refine ⟨⟨h.lru, fun k' hk' => h.listed k' ?_, h.room⟩, ?_⟩
  · rw [touch_has hb] at hk'
    exact hk'
  · unfold FrontLives
    simp only [touch_has hb]
    rfl

/-- An operation comes to undefined behaviour when, and only when, it does not find what it needs,
and else it keeps the cache. -/
def Comes (s : History K T) (op : operation K T) : Prop :=
  (s.cache.perform op = none ↔ ¬ Fronted s op) ∧
    ∀ c, s.cache.perform op = some c → Listed c

/-- An operation that is always defined. -/
theorem comes_to {s : History K T} {op : operation K T} {c : ptr_cache K T}
    (hperform : s.cache.perform op = some c) (hfree : Fronted s op) (hc : Listed c) :
    Comes s op := by
  unfold Comes
  rw [hperform]
  refine ⟨by simp [hfree], fun d hd => ?_⟩
  cases hd
  exact hc

theorem Listed.set {s : History K T} (h : Listed s.cache) (k : K) (v : T) :
    Comes s (.set k v) := by
  cases hk : s.cache.has k with
  | true =>
    apply comes_to (perform_set_old hk v) (by simp [Fronted, hk])
    refine ⟨h.lru, fun k' hk' => ?_, h.room⟩
    rw [has_update_some, Bool.or_eq_true, decide_eq_true_eq] at hk'
    rcases hk' with hk' | rfl
    · exact h.listed k' hk'
    · exact h.listed k' hk
  | false =>
    obtain ⟨hnone, hsome⟩ := h.makes_room
    unfold Comes
    rw [perform_set_new hk]
    constructor
    · rw [Option.map_eq_none_iff, hnone]
      simp [Fronted, hk]
    · intro c hc
      obtain ⟨d, hd, rfl⟩ := Option.map_eq_some_iff.mp hc
      obtain ⟨hlisted, hroom⟩ := hsome d hd
      exact hlisted.push k v hroom

theorem Listed.get {s : History K T} (h : Listed s.cache) (now : Int) (k : K) :
    Comes s (.get now k) := by
  cases hb : s.cache.cache_ k with
  | none => exact comes_to (perform_get_none hb now) (by simp [Fronted, hb]) h
  | some b =>
    cases hexpired : s.cache.expired now b.pointer_ with
    | true =>
      apply comes_to (perform_get_expired hb hexpired) (by simp [Fronted, hb, hexpired])
      exact h.erase_at k
    | false =>
      obtain ⟨htouched, hfront⟩ := h.touch hb
      unfold Comes
      rw [perform_get_live hb hexpired, h.lru]
      constructor
      · rw [Option.map_eq_none_iff, reorders_iff, hfront]
        simp [Fronted, hb, hexpired]
      · intro c hc
        obtain ⟨r, hr, rfl⟩ := Option.map_eq_some_iff.mp hc
        exact (htouched.lru_reoder hr).1

theorem Listed.erase {s : History K T} (h : Listed s.cache) (k : K) : Comes s (.erase k) := by
  cases hk : s.cache.has k with
  | true => exact comes_to (perform_erase_old hk) trivial (h.erase_at k)
  | false => exact comes_to (perform_erase_none hk) trivial h

omit [DecidableEq K] in
theorem Listed.clear {c : ptr_cache K T} (h : Listed c) : Listed c.clear where
  lru := h.lru
  listed := fun k hk => by cases hk
  room := fun _ => Nat.zero_le _

theorem Listed.reorder {s : History K T} (h : Listed s.cache) : Comes s .lru_reoder := by
  unfold Comes Fronted perform
  constructor
  · rw [Option.map_eq_none_iff, reorders_iff]
  · intro c hc
    obtain ⟨r, hr, rfl⟩ := Option.map_eq_some_iff.mp hc
    exact (h.lru_reoder hr).1

/-- What an operation comes to in LRU mode. -/
theorem Listed.comes {s : History K T} (h : Listed s.cache) (op : operation K T) :
    Comes s op := by
  cases op with
  | set k v => exact h.set k v
  | get now k => exact h.get now k
  | erase k => exact h.erase k
  | erase_at k => exact comes_to rfl trivial (h.erase_at k)
  | clear => exact comes_to rfl trivial h.clear
  | lru_reoder => exact h.reorder

/-- The invariant. -/
structure Running (s : History K T) : Prop where
  defined : s.defined = true
  listed : Listed s.cache

theorem Running.law {s : History K T} (hs : Running s) : Unharmed s where
  defined := hs.defined
  ends := fun hmax => ⟨_, make_room_stops hmax (le_refl _)⟩

/-- In LRU mode each run is defined, and its loops come to an end, when, and only when, the first
key of the list is in the map whenever a `get` finds a value, a `set` makes room, or the list is
reordered. -/
theorem reordering_is_safe (max_size : Nat) (fn_exp : Option (Int → T → Bool))
    (ops : List (operation K T)) :
    Always step Unharmed { cache := create .LRU max_size fn_exp } ops ↔
      Meets step Fronted { cache := create .LRU max_size fn_exp } ops := by
  apply always_iff_meets (P := Running) (fun _ h => h.law)
  · intro s op s' hs hc h
    obtain ⟨hnone, hsome⟩ := hs.listed.comes op
    obtain ⟨-, ⟨hundefined, -⟩ | ⟨c, hperform, rfl⟩⟩ := step_cases h
    · exact absurd hc (hnone.mp hundefined)
    · exact ⟨rfl, hsome c hperform⟩
  · intro s op s' hs hc h hlaw
    obtain ⟨-, ⟨-, -, hundefined⟩ | ⟨c, hperform, rfl⟩⟩ := step_cases h
    · rw [hlaw.defined] at hundefined
      cases hundefined
    · rw [(hs.listed.comes op).1.mpr hc] at hperform
      cases hperform
  · exact ⟨rfl, rfl, fun k hk => (by cases hk), fun _ => Nat.zero_le _⟩

/-- 'b' is set behind 'a' and erased, and then 'a' is looked up. -/
def erased_in_front : List (operation Char Unit) :=
  [.set 'a' (), .set 'b' (), .erase 'b', .get 0 'a']

/-- The count is read of a block that is not in the map. -/
theorem an_erased_key_is_read :
    ¬ ∀ (max_size : Nat) (fn_exp : Option (Int → Unit → Bool)) (ops : List (operation Char Unit)),
      Always step Unharmed { cache := create .LRU max_size fn_exp } ops := by
  intro hall
  have hend : ∃ s, exec step ({ cache := create .LRU 10 none } : History Char Unit)
      erased_in_front = some s ∧ s.defined = false := ⟨_, rfl, rfl⟩
  obtain ⟨s, hrun, hundefined⟩ := hend
  have hlaw := always_exec (hall 10 none erased_in_front) hrun
  rw [hlaw.defined] at hundefined
  cases hundefined

end socle.ptr_cache
