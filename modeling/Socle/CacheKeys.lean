-- The key list of a cache against its map (ptr_cache.hpp). `erase` and a `get`
-- that finds its value expired take a key from the map and leave it in the
-- list, where a later `set` puts a second copy of it.
import Socle.CacheRuns

namespace socle.ptr_cache

open lib.run

variable {K T : Type} [DecidableEq K]

/-! ## The law -/

/-- The list has the keys of the map, each of them once. -/
structure Tidy (c : ptr_cache K T) : Prop where
  distinct : c.items_.Nodup
  keys : ∀ k, k ∈ c.items_ ↔ c.has k = true

/-- The keys that live behind an insertion in FIFO mode: the oldest one goes when there is no
room. -/
def fifo (max_size : Nat) (k : K) (before : List K) : List K :=
  if 0 < max_size ∧ max_size ≤ before.length then k :: before.dropLast else k :: before

/-- What holds behind each operation. -/
structure Law (s : History K T) : Prop where
  defined : s.defined = true
  tidy : Tidy s.cache
  bounded : 0 < s.cache.max_size_ → {k | s.cache.has k = true}.encard ≤ s.cache.max_size_
  evicts : s.cache.mode_ = .FIFO → ∀ k before, s.came = some (k, before) →
    s.live = fifo s.cache.max_size_ k before

/-- No operation takes a key from the map and leaves it in the list, and `lru_reoder` is not called
for an empty cache. -/
def Clean (s : History K T) : operation K T → Prop
  | .get now k => ∀ b, s.cache.cache_ k = some b → s.cache.expired now b.pointer_ = false
  | .erase k => s.cache.has k = false
  | .erase_at _ => False
  | .lru_reoder => s.cache.items_ ≠ []
  | .set _ _ => True
  | .clear => True

/-! ## One operation -/

omit [DecidableEq K] in
/-- The same keys in another order. -/
theorem Tidy.of_perm {c c' : ptr_cache K T} (h : Tidy c) (hitems : c'.items_.Perm c.items_)
    (hhas : ∀ k, c'.has k = c.has k) : Tidy c' where
  distinct := hitems.nodup_iff.mpr h.distinct
  keys := fun k => by rw [hitems.mem_iff, h.keys, hhas]

theorem has_update_some {c : ptr_cache K T} {k : K} {b : DataBlock T} {items : List K}
    {dbs : Option UInt32} (k' : K) :
    ({ c with cache_ := Function.update c.cache_ k (some b), items_ := items, dbs_ := dbs } :
      ptr_cache K T).has k' = (c.has k' || decide (k' = k)) := by
  by_cases h : k' = k
  · subst h
    simp [has]
  · simp [has, h]

theorem has_update_none {c : ptr_cache K T} {k : K} {items : List K} (k' : K) :
    ({ c with cache_ := Function.update c.cache_ k none, items_ := items } :
      ptr_cache K T).has k' = (c.has k' && decide (k' ≠ k)) := by
  by_cases h : k' = k
  · subst h
    simp [has]
  · simp [has, h]

omit [DecidableEq K] in
/-- In a tidy cache with keys `lru_reoder` is defined, and changes the order only. -/
theorem Tidy.lru_reoder {c : ptr_cache K T} (h : Tidy c) (hne : c.items_ ≠ []) :
    ∃ r, c.lru_reoder = some r ∧ ∃ items, items.Perm c.items_ ∧
      r.2 = { c with items_ := items } := by
  cases hr : c.lru_reoder with
  | none =>
    obtain ⟨k, hk⟩ := Option.ne_none_iff_exists'.mp (mt List.head?_eq_none_iff.mp hne)
    have hmem := (h.keys k).mp (List.mem_of_mem_head? hk)
    rw [(lru_reoder_undefined c).mp hr k hk] at hmem
    cases hmem
  | some r =>
    obtain ⟨items, hcache, keys, last, hitems, hcases⟩ := lru_reoder_cases hr
    refine ⟨r, rfl, items, ?_, hcache⟩
    rcases hcases with rfl | rfl | ⟨-, hstale, -⟩
    · exact List.Perm.refl _
    · rw [hitems]
      exact (List.perm_append_singleton last keys).symm
    · have hlast : last ∈ c.items_ := by rw [hitems]; exact List.mem_concat_self
      rw [h.keys, hstale] at hlast
      cases hlast

/-- A block that was not touched, among others that were not. -/
theorem put_untouched {m : K → Option (DataBlock T)} (hm : ∀ k b, m k = some b → b.counter_ = 0)
    {k : K} {new : DataBlock T} (hnew : new.counter_ = 0) :
    ∀ k' b, Function.update m k (some new) k' = some b → b.counter_ = 0 := by
  intro k' b hb
  by_cases h : k' = k
  · subst h
    rw [Function.update_self, Option.some.injEq] at hb
    exact hb ▸ hnew
  · rw [Function.update_of_ne h] at hb
    exact hm k' b hb

/-- In a tidy cache with keys `delete_last` takes the last key from the list and from the map. -/
theorem Tidy.delete_last {c : ptr_cache K T} (h : Tidy c) {keys : List K} {last : K}
    (hitems : c.items_ = keys ++ [last]) :
    ∃ c', c.delete_last = some (true, c') ∧ Tidy c' ∧ c'.items_ = keys ∧
      c'.mode_ = c.mode_ ∧ c'.max_size_ = c.max_size_ ∧ c'.dbs_ = c.dbs_ ∧
      c'.cache_ = Function.update c.cache_ last none := by
  have hlast : c.has last = true := by
    rw [← h.keys, hitems]
    exact List.mem_concat_self
  obtain ⟨b, hb⟩ := has_iff.mp hlast
  have hdistinct := h.distinct
  rw [hitems, List.nodup_append] at hdistinct
  refine ⟨{ c with cache_ := Function.update c.cache_ last none, items_ := keys }, ?_, ?_, rfl, rfl,
    rfl, rfl, rfl⟩
  · simp [ptr_cache.delete_last, hitems, erase, hb, pop_back]
  · refine ⟨hdistinct.1, fun k => ?_⟩
    have hk := h.keys k
    rw [hitems, List.mem_append, List.mem_singleton] at hk
    rw [has_update_none, Bool.and_eq_true, ← hk, decide_eq_true_eq]
    constructor
    · intro hin
      exact ⟨Or.inl hin, hdistinct.2.2 k hin last (List.mem_singleton_self last)⟩
    · rintro ⟨hin | heq, hne⟩
      · exact hin
      · exact absurd heq hne

/-- What one turn of the loop that makes room does to a tidy cache with keys. -/
theorem Tidy.remove_one {c : ptr_cache K T} (h : Tidy c) (hne : c.items_ ≠ []) :
    ∃ c', c.remove_one = some c' ∧ Tidy c' ∧ c'.items_.length + 1 = c.items_.length ∧
      c'.mode_ = c.mode_ ∧ c'.max_size_ = c.max_size_ ∧ c'.dbs_ = c.dbs_ ∧
      (∀ k b, c'.cache_ k = some b → c.cache_ k = some b) ∧
      (c.mode_ = .FIFO → c'.items_ = c.items_.dropLast) := by
  have hdelete : ∀ {d : ptr_cache K T}, Tidy d → d.items_.Perm c.items_ → d.cache_ = c.cache_ →
      ∃ c', d.delete_last = some (true, c') ∧ Tidy c' ∧ c'.items_.length + 1 = c.items_.length ∧
        c'.mode_ = d.mode_ ∧ c'.max_size_ = d.max_size_ ∧ c'.dbs_ = d.dbs_ ∧
        (∀ k b, c'.cache_ k = some b → c.cache_ k = some b) ∧ c'.items_ = d.items_.dropLast := by
    intro d hd hitems hcache
    have hned : d.items_ ≠ [] := by
      intro hnil
      rw [hnil] at hitems
      exact hne hitems.nil_eq.symm
    obtain ⟨keys, last, hkeys⟩ := (List.eq_nil_or_concat d.items_).resolve_left hned
    rw [List.concat_eq_append] at hkeys
    obtain ⟨c', hc', htidy, hi, hmode, hmax, hdbs, hmap⟩ := hd.delete_last hkeys
    refine ⟨c', hc', htidy, ?_, hmode, hmax, hdbs, ?_, by rw [hi, hkeys, List.dropLast_concat]⟩
    · rw [hi, ← hitems.length_eq, hkeys, List.length_append, List.length_singleton]
    · intro k b hb
      rw [hmap] at hb
      by_cases hk : k = last
      · subst hk
        simp at hb
      · rw [Function.update_of_ne hk, hcache] at hb
        exact hb
  unfold ptr_cache.remove_one
  cases hmode : c.mode_ with
  | FIFO =>
    obtain ⟨c', hc', htidy, hlen, hmode', hmax, hdbs, hkept, hitems⟩ :=
      hdelete h (List.Perm.refl _) rfl
    exact ⟨c', by rw [hc']; rfl, htidy, hlen, hmode'.trans hmode, hmax, hdbs, hkept,
      fun _ => hitems⟩
  | LRU =>
    obtain ⟨r, hr, items, hperm, hcache⟩ := h.lru_reoder hne
    have htidy : Tidy r.2 := by
      rw [hcache]
      exact h.of_perm hperm fun _ => rfl
    have hperm' : r.2.items_.Perm c.items_ := by rw [hcache]; exact hperm
    obtain ⟨c', hc', htidy', hlen, hmode', hmax, hdbs, hkept, -⟩ :=
      hdelete htidy hperm' (by rw [hcache])
    rw [hcache] at hmode' hmax hdbs
    refine ⟨c', ?_, htidy', hlen, hmode'.trans hmode, hmax, hdbs, hkept, fun hfifo => by cases hfifo⟩
    rw [hr, Option.bind_some, hc']
    rfl

/-! ## Each run -/

/-- The invariant. In FIFO mode the list has the keys in the order in which they came, and no block
was touched. -/
structure Inv (s : History K T) : Prop where
  defined : s.defined = true
  tidy : Tidy s.cache
  room : 0 < s.cache.max_size_ → s.cache.items_.length ≤ s.cache.max_size_
  order : s.cache.mode_ = .FIFO → s.live = s.cache.items_
  quiet : s.cache.mode_ = .FIFO →
    s.cache.dbs_ = none ∧ ∀ k b, s.cache.cache_ k = some b → b.counter_ = 0
  evicts : s.cache.mode_ = .FIFO → ∀ k before, s.came = some (k, before) →
    s.live = fifo s.cache.max_size_ k before

theorem Inv.law {s : History K T} (hs : Inv s) : Law s where
  defined := hs.defined
  tidy := hs.tidy
  bounded := by
    intro hmax
    have hkeys : {k | s.cache.has k = true} = s.cache.items_.toFinset := by
      ext k
      simp [hs.tidy.keys k]
    rw [hkeys, Set.encard_coe_eq_coe_finsetCard, List.toFinset_card_of_nodup hs.tidy.distinct]
    exact Nat.cast_le.mpr (hs.room hmax)
  evicts := hs.evicts

omit [DecidableEq K] in
theorem create_tidy (mode : mode_t) (max_size : Nat) (fn_exp : Option (Int → T → Bool)) :
    Tidy (create mode max_size fn_exp : ptr_cache K T) where
  distinct := List.nodup_nil
  keys := fun k => by simp [create, has]

omit [DecidableEq K] in
theorem create_inv (mode : mode_t) (max_size : Nat) (fn_exp : Option (Int → T → Bool)) :
    Inv ({ cache := create mode max_size fn_exp } : History K T) where
  defined := rfl
  tidy := create_tidy mode max_size fn_exp
  room := fun _ => Nat.zero_le _
  order := fun _ => rfl
  quiet := by
    intro hmode
    have hfifo : mode = .FIFO := hmode
    subst hfifo
    exact ⟨rfl, fun k b hb => by cases hb⟩
  evicts := fun _ _ _ h => by cases h

omit [DecidableEq K] in
/-- An operation that leaves the keys of the map as they are. -/
theorem Inv.keeps {s : History K T} (hs : Inv s) {c : ptr_cache K T}
    (hmode : c.mode_ = s.cache.mode_) (hmax : c.max_size_ = s.cache.max_size_)
    (hitems : c.items_.Perm s.cache.items_) (hhas : ∀ k, c.has k = s.cache.has k)
    (hfifo : s.cache.mode_ = .FIFO → c.items_ = s.cache.items_ ∧ c.dbs_ = none ∧
      ∀ k b, c.cache_ k = some b → b.counter_ = 0) :
    Inv { cache := c, live := s.live.filter c.has } where
  defined := rfl
  tidy := hs.tidy.of_perm hitems hhas
  room := by
    rw [hmax, hitems.length_eq]
    exact hs.room
  order := by
    intro hm
    rw [hmode] at hm
    rw [hs.order hm, (hfifo hm).1, List.filter_eq_self]
    intro k hk
    rw [hhas, ← hs.tidy.keys]
    exact hk
  quiet := fun hm => (hfifo (hmode.symm.trans hm)).2
  evicts := fun _ _ _ h => by cases h

omit [DecidableEq K] in
/-- A prefix is what is left of a list when the rest is filtered out. -/
theorem filter_prefix {p : K → Bool} {xs ys : List K} (h : ys <+: xs) (hxs : xs.Nodup)
    (hp : ∀ k, p k = true ↔ k ∈ ys) : xs.filter p = ys := by
  obtain ⟨rest, rfl⟩ := h
  have hapart := (List.nodup_append.mp hxs).2.2
  rw [List.filter_append, List.filter_eq_self.mpr fun k hk => (hp k).mpr hk,
    List.filter_eq_nil_iff.mpr, List.append_nil]
  intro k hk hpk
  exact hapart k ((hp k).mp hpk) k hk rfl

/-- The cache with a new entry, in front. -/
def push (c : ptr_cache K T) (k : K) (v : T) : ptr_cache K T :=
  { c with cache_ := Function.update c.cache_ k (some (c.block v)), items_ := k :: c.items_ }

theorem push_has (c : ptr_cache K T) (k : K) (v : T) (k' : K) :
    (c.push k v).has k' = (c.has k' || decide (k' = k)) :=
  has_update_some k'

/-- Of a key that is new the map has no block, and neither has the list. -/
theorem Tidy.push {c : ptr_cache K T} (h : Tidy c) {k : K} (hk : c.has k = false) (v : T) :
    Tidy (c.push k v) where
  distinct := by
    have hfresh : k ∉ c.items_ := by
      rw [h.keys, hk]
      exact Bool.false_ne_true
    exact List.nodup_cons.mpr ⟨hfresh, h.distinct⟩
  keys := by
    intro k'
    rw [push_has, Bool.or_eq_true, decide_eq_true_eq, ← h.keys, or_comm]
    exact List.mem_cons

/-- An insertion, when there is room in `d`. -/
theorem Inv.inserts {s : History K T} (hs : Inv s) {k : K} (hk : s.cache.has k = false) (v : T)
    {d : ptr_cache K T} (htidy : Tidy d) (hmode : d.mode_ = s.cache.mode_)
    (hmax : d.max_size_ = s.cache.max_size_) (hdbs : d.dbs_ = s.cache.dbs_)
    (hkept : ∀ k b, d.cache_ k = some b → s.cache.cache_ k = some b)
    (hroom : 0 < s.cache.max_size_ → d.items_.length < s.cache.max_size_)
    (hfifo : s.cache.mode_ = .FIFO →
      k :: d.items_ = fifo s.cache.max_size_ k s.cache.items_) :
    Inv {
      cache := d.push k v
      live := (k :: s.live).filter (d.push k v).has
      came := some (k, s.live) } := by
  have hnew : d.has k = false := by
    rw [not_has_iff] at hk ⊢
    cases hb : d.cache_ k with
    | none => rfl
    | some b =>
      rw [hkept k b hb] at hk
      cases hk
  have htidy' := htidy.push hnew v
  have horder : s.cache.mode_ = .FIFO →
      (k :: s.live).filter (d.push k v).has = k :: d.items_ := by
    intro hm
    have hlive : k ∉ s.cache.items_ := by
      rw [hs.tidy.keys, hk]
      exact Bool.false_ne_true
    have hitems : (d.push k v).items_ = k :: d.items_ := rfl
    rw [hs.order hm]
    apply filter_prefix ?_ (List.nodup_cons.mpr ⟨hlive, hs.tidy.distinct⟩)
      fun k' => (htidy'.keys k').symm
    rw [hitems, hfifo hm, fifo]
    split_ifs
    · exact (List.prefix_cons_inj k).mpr (List.dropLast_prefix _)
    · exact List.prefix_refl _
  have hmode' : (d.push k v).mode_ = s.cache.mode_ := hmode
  have hmax' : (d.push k v).max_size_ = s.cache.max_size_ := hmax
  constructor
  · rfl
  · exact htidy'
  · intro hpos
    have hlt := hroom (hmax'.symm.trans_gt hpos)
    rw [hmax']
    exact hlt
  · exact fun hm => horder (hmode'.symm.trans hm)
  · intro hm
    obtain ⟨hnone, hzero⟩ := hs.quiet (hmode'.symm.trans hm)
    exact ⟨hdbs.trans hnone, put_untouched (fun k' b hb => hzero k' b (hkept k' b hb)) rfl⟩
  · intro hm k' before h
    cases h
    have hm' : s.cache.mode_ = .FIFO := hmode'.symm.trans hm
    rw [horder hm', hfifo hm', hs.order hm', hmax']

/-- The room that `set` makes for a new key. -/
theorem Inv.makes_room {s : History K T} (hs : Inv s) (k : K) :
    ∃ d, (if s.cache.max_size_ > 0 then make_room s.cache.items_.length s.cache
        else some s.cache) = some d ∧ Tidy d ∧ d.mode_ = s.cache.mode_ ∧
      d.max_size_ = s.cache.max_size_ ∧ d.dbs_ = s.cache.dbs_ ∧
      (∀ k b, d.cache_ k = some b → s.cache.cache_ k = some b) ∧
      (0 < s.cache.max_size_ → d.items_.length < s.cache.max_size_) ∧
      (s.cache.mode_ = .FIFO → k :: d.items_ = fifo s.cache.max_size_ k s.cache.items_) := by
  by_cases hmax : s.cache.max_size_ > 0
  · rw [if_pos hmax]
    have hle := hs.room hmax
    by_cases hfull : s.cache.items_.length = s.cache.max_size_
    · have hne : s.cache.items_ ≠ [] := List.ne_nil_of_length_pos (by omega)
      obtain ⟨d, hd, htidy, hlen, hmode, hmax', hdbs, hkept, hitems⟩ := hs.tidy.remove_one hne
      rw [make_room_once hmax hfull]
      refine ⟨d, hd, htidy, hmode, hmax', hdbs, hkept, fun _ => by omega, fun hm => ?_⟩
      rw [hitems hm, fifo, if_pos ⟨hmax, hfull.ge⟩]
    · have hlt : s.cache.items_.length < s.cache.max_size_ := by omega
      refine ⟨s.cache, make_room_of_lt hlt, hs.tidy, rfl, rfl, rfl, fun _ _ h => h, fun _ => hlt,
        fun _ => ?_⟩
      rw [fifo, if_neg (by omega)]
  · rw [if_neg hmax]
    refine ⟨s.cache, rfl, hs.tidy, rfl, rfl, rfl, fun _ _ h => h, fun h => absurd h hmax,
      fun _ => ?_⟩
    rw [fifo, if_neg (by omega)]

/-! ## Each operation -/

theorem perform_set_old {c : ptr_cache K T} {k : K} (h : c.has k = true) (v : T) :
    c.perform (.set k v) =
      some { c with cache_ := Function.update c.cache_ k (some (c.block v)) } := by
  obtain ⟨b, hb⟩ := has_iff.mp h
  simp [perform, ptr_cache.set, hb]

theorem perform_set_new {c : ptr_cache K T} {k : K} (h : c.has k = false) (v : T) :
    c.perform (.set k v) =
      (if c.max_size_ > 0 then make_room c.items_.length c else some c).map fun d => d.push k v := by
  have hnone := not_has_iff.mp h
  simp only [perform, ptr_cache.set, hnone, Option.map_map]
  rfl

/-- An erased key is taken from the map only. -/
theorem perform_erase_old {c : ptr_cache K T} {k : K} (h : c.has k = true) :
    c.perform (.erase k) = some (c.erase_at k) := by
  obtain ⟨b, hb⟩ := has_iff.mp h
  simp [perform, ptr_cache.erase, hb, erase_at]

theorem perform_erase_none {c : ptr_cache K T} {k : K} (h : c.has k = false) :
    c.perform (.erase k) = some c := by
  have hnone := not_has_iff.mp h
  simp [perform, ptr_cache.erase, hnone]

theorem perform_get_none {c : ptr_cache K T} {k : K} (h : c.cache_ k = none) (now : Int) :
    c.perform (.get now k) = some c := by
  simp [perform, ptr_cache.get, h]

/-- A `get` that finds its value expired erases the key. -/
theorem perform_get_expired {c : ptr_cache K T} {k : K} {b : DataBlock T}
    (hb : c.cache_ k = some b) {now : Int} (hexpired : c.expired now b.pointer_ = true) :
    c.perform (.get now k) = some (c.erase_at k) := by
  simp [perform, ptr_cache.get, hb, hexpired, ptr_cache.erase, erase_at]

/-- What `get` leaves when it finds a value that is not expired. -/
theorem perform_get_live {c : ptr_cache K T} {k : K} {b : DataBlock T} (hb : c.cache_ k = some b)
    {now : Int} (hfresh : c.expired now b.pointer_ = false) :
    c.perform (.get now k) =
      match c.mode_ with
      | .FIFO => some c
      | .LRU => (c.touch k b).lru_reoder.map Prod.snd := by
  simp only [perform, ptr_cache.get, hb, hfresh, Bool.false_eq_true, if_false]
  cases c.mode_ with
  | FIFO => rfl
  | LRU =>
    simp only [Option.map_map]
    rfl

theorem touch_has {c : ptr_cache K T} {k : K} {b : DataBlock T} (hb : c.cache_ k = some b)
    (k' : K) : (c.touch k b).has k' = c.has k' := by
  have hk : c.has k = true := has_iff.mpr ⟨b, hb⟩
  by_cases h : k' = k
  · subst h
    rw [hk]
    simp [has, touch]
  · simp [has, touch, h]

omit [DecidableEq K] in
/-- In FIFO mode no block was touched, so none is worth a place in front. -/
theorem Inv.lru_reoder_fifo {s : History K T} (hs : Inv s) (hmode : s.cache.mode_ = .FIFO)
    (hne : s.cache.items_ ≠ []) : s.cache.lru_reoder = some (false, s.cache) := by
  obtain ⟨hnone, hzero⟩ := hs.quiet hmode
  have hhead := List.head?_eq_some_head hne
  have hlast := List.getLast?_eq_some_getLast hne
  obtain ⟨first, hfirst⟩ := has_iff.mp ((hs.tidy.keys _).mp (List.head_mem hne))
  obtain ⟨last, hblock⟩ := has_iff.mp ((hs.tidy.keys _).mp (List.getLast_mem hne))
  simp [ptr_cache.lru_reoder, hhead, hlast, hfirst, hblock, hnone, hzero _ _ hfirst,
    hzero _ _ hblock]

omit [DecidableEq K] in
/-- An operation that inserts nothing and leaves the cache `c`. -/
theorem after_quiet {s : History K T} {op : operation K T} (h : s.cache.inserted op = none)
    (c : ptr_cache K T) : s.after op c = { cache := c, live := s.live.filter c.has } := by
  rw [History.after, h]
  rfl

theorem Inv.set {s : History K T} (hs : Inv s) (k : K) (v : T) :
    ∃ c, s.cache.perform (.set k v) = some c ∧ Inv (s.after (.set k v) c) := by
  cases hk : s.cache.has k with
  | true =>
    have hquiet : s.cache.inserted (.set k v) = none := by rw [inserted, if_pos hk]
    refine ⟨_, perform_set_old hk v, ?_⟩
    rw [after_quiet hquiet]
    have hhas : ∀ k', ({ s.cache with
        cache_ := Function.update s.cache.cache_ k (some (s.cache.block v)) } :
          ptr_cache K T).has k' = s.cache.has k' := by
      intro k'
      rw [has_update_some, Bool.or_eq_left_iff_imp, decide_eq_true_eq]
      rintro rfl
      exact hk
    refine hs.keeps rfl rfl (List.Perm.refl _) hhas fun hm => ?_
    obtain ⟨hdbs, hzero⟩ := hs.quiet hm
    exact ⟨rfl, hdbs, put_untouched hzero rfl⟩
  | false =>
    obtain ⟨d, hd, htidy, hmode, hmax, hdbs, hkept, hroom, hfifo⟩ := hs.makes_room k
    refine ⟨d.push k v, by rw [perform_set_new hk, hd, Option.map_some], ?_⟩
    have hnew : s.cache.inserted (.set k v) = some k := by
      rw [inserted, hk, if_neg Bool.false_ne_true]
    rw [History.after, hnew]
    exact hs.inserts hk v htidy hmode hmax hdbs hkept hroom hfifo

omit [DecidableEq K] in
/-- An operation that leaves the cache as it is. -/
theorem Inv.same {s : History K T} (hs : Inv s) :
    Inv { cache := s.cache, live := s.live.filter s.cache.has } :=
  hs.keeps rfl rfl (List.Perm.refl _) (fun _ => rfl) fun hm => ⟨rfl, hs.quiet hm⟩

theorem Inv.get {s : History K T} (hs : Inv s) {now : Int} {k : K}
    (hc : ∀ b, s.cache.cache_ k = some b → s.cache.expired now b.pointer_ = false) :
    ∃ c, s.cache.perform (.get now k) = some c ∧ Inv (s.after (.get now k) c) := by
  cases hb : s.cache.cache_ k with
  | none =>
    exact ⟨s.cache, perform_get_none hb now, hs.same⟩
  | some b =>
    rw [perform_get_live hb (hc b hb)]
    cases hmode : s.cache.mode_ with
    | FIFO => exact ⟨s.cache, rfl, hs.same⟩
    | LRU =>
      have hin : k ∈ s.cache.items_ := (hs.tidy.keys k).mpr (has_iff.mpr ⟨b, hb⟩)
      have htidy : Tidy (s.cache.touch k b) :=
        hs.tidy.of_perm (List.Perm.refl _) (touch_has hb)
      have hne : (s.cache.touch k b).items_ ≠ [] := List.ne_nil_of_mem hin
      obtain ⟨r, hr, items, hperm, hcache⟩ := htidy.lru_reoder hne
      refine ⟨r.2, by simp [hr], ?_⟩
      have hmode' : r.2.mode_ = s.cache.mode_ := by rw [hcache]; rfl
      have hmax' : r.2.max_size_ = s.cache.max_size_ := by rw [hcache]; rfl
      have hitems : r.2.items_.Perm s.cache.items_ := by rw [hcache]; exact hperm
      have hhas : ∀ k', r.2.has k' = s.cache.has k' := by
        intro k'
        rw [hcache]
        exact touch_has hb k'
      refine hs.keeps hmode' hmax' hitems hhas fun hm => ?_
      rw [hmode] at hm
      cases hm

omit [DecidableEq K] in
theorem Inv.clear {s : History K T} (hs : Inv s) : Inv (s.after .clear s.cache.clear) := by
  have hnone : ∀ k, s.cache.clear.has k = false := fun _ => rfl
  have hempty : s.live.filter s.cache.clear.has = [] :=
    List.filter_eq_nil_iff.mpr fun k _ => by simp [hnone k]
  rw [after_quiet rfl]
  constructor
  · rfl
  · refine ⟨List.nodup_nil, fun k => ?_⟩
    rw [hnone k]
    exact iff_of_false List.not_mem_nil Bool.false_ne_true
  · exact fun _ => Nat.zero_le _
  · exact fun _ => hempty
  · exact fun hm => ⟨(hs.quiet hm).1, fun k b hb => by cases hb⟩
  · exact fun _ _ _ hcame => by cases hcame

theorem Inv.reorder {s : History K T} (hs : Inv s) (hne : s.cache.items_ ≠ []) :
    ∃ c, s.cache.perform .lru_reoder = some c ∧ Inv (s.after .lru_reoder c) := by
  obtain ⟨r, hr, items, hperm, hcache⟩ := hs.tidy.lru_reoder hne
  refine ⟨r.2, by rw [perform, hr]; rfl, ?_⟩
  have hmode : r.2.mode_ = s.cache.mode_ := by rw [hcache]
  have hmax : r.2.max_size_ = s.cache.max_size_ := by rw [hcache]
  have hitems : r.2.items_.Perm s.cache.items_ := by rw [hcache]; exact hperm
  have hhas : ∀ k', r.2.has k' = s.cache.has k' := by
    intro k'
    rw [hcache]
    rfl
  refine hs.keeps hmode hmax hitems hhas fun hm => ?_
  rw [hs.lru_reoder_fifo hm hne, Option.some.injEq] at hr
  rw [← hr]
  exact ⟨rfl, hs.quiet hm⟩

theorem step_inv {s s' : History K T} {op : operation K T} (hs : Inv s) (hc : Clean s op)
    (h : step s op = some s') : Inv s' := by
  have hperform : ∃ c, s.cache.perform op = some c ∧ Inv (s.after op c) := by
    cases op with
    | set k v => exact hs.set k v
    | get now k => exact hs.get hc
    | erase k => exact ⟨s.cache, perform_erase_none hc, hs.same⟩
    | erase_at k => exact hc.elim
    | clear => exact ⟨s.cache.clear, rfl, hs.clear⟩
    | lru_reoder => exact hs.reorder hc
  obtain ⟨c, hsome, hinv⟩ := hperform
  obtain ⟨-, ⟨hnone, -⟩ | ⟨d, hd, rfl⟩⟩ := step_cases h
  · rw [hsome] at hnone
    cases hnone
  · rw [hsome, Option.some.injEq] at hd
    exact hd ▸ hinv

/-- A key that is taken from the map stays in the list. -/
theorem stale_key {s : History K T} (hs : Inv s) {k : K} (hk : s.cache.has k = true)
    {live : List K} {came : Option (K × List K)} :
    ¬ Law { cache := s.cache.erase_at k, live := live, came := came } := by
  intro hlaw
  have hin : k ∈ (s.cache.erase_at k).items_ := (hs.tidy.keys k).mpr hk
  have hgone := (hlaw.tidy.keys k).mp hin
  rw [erase_at, has_update_none] at hgone
  simp at hgone

theorem step_breaks {s s' : History K T} {op : operation K T} (hs : Inv s) (hc : ¬ Clean s op)
    (h : step s op = some s') : ¬ Law s' := by
  have hperform : s.cache.possible op = true → s.cache.perform op = none ∨
      ∃ k, s.cache.has k = true ∧ s.cache.perform op = some (s.cache.erase_at k) := by
    intro hcan
    cases op with
    | set k v => exact absurd trivial hc
    | get now k =>
      simp only [Clean] at hc
      push Not at hc
      obtain ⟨b, hb, hexpired⟩ := hc
      have hexpired' : s.cache.expired now b.pointer_ = true := by simpa using hexpired
      exact Or.inr ⟨k, has_iff.mpr ⟨b, hb⟩, perform_get_expired hb hexpired'⟩
    | erase k =>
      have hk : s.cache.has k = true := by simpa [Clean] using hc
      exact Or.inr ⟨k, hk, perform_erase_old hk⟩
    | erase_at k => exact Or.inr ⟨k, hcan, rfl⟩
    | clear => exact absurd trivial hc
    | lru_reoder =>
      simp only [Clean, not_not] at hc
      have hnone := (lru_reoder_undefined s.cache).mpr (by simp [hc])
      exact Or.inl (by rw [perform, hnone]; rfl)
  obtain ⟨hcan, ⟨-, -, hundefined⟩ | ⟨c, hc', rfl⟩⟩ := step_cases h
  · intro hlaw
    rw [hlaw.defined] at hundefined
    cases hundefined
  · rcases hperform hcan with hnone | ⟨k, hk, hsome⟩
    · rw [hnone] at hc'
      cases hc'
    · rw [hsome, Option.some.injEq] at hc'
      subst hc'
      exact stale_key hs hk

/-- Behind each operation of a run the list has the keys of the map once each, the cache is within
its size, and in FIFO mode the key that came first goes first, when, and only when, no
operation takes a key from the map alone and none reorders an empty list. -/
theorem lists_have_the_keys (mode : mode_t) (max_size : Nat) (fn_exp : Option (Int → T → Bool))
    (ops : List (operation K T)) :
    Always step Law { cache := create mode max_size fn_exp } ops ↔
      Meets step Clean { cache := create mode max_size fn_exp } ops :=
  always_iff_meets (fun _ h => h.law) (fun _ _ _ => step_inv) (fun _ _ _ => step_breaks)
    (create_inv mode max_size fn_exp) ops

/-- A cache for three: 'a' is erased and set again behind 'b', and then 'c' comes. -/
def erased_and_set_again : List (operation Char Unit) :=
  [.set 'a' (), .set 'b' (), .erase 'a', .set 'a' (), .set 'c' ()]

/-- There is room for 'c'. The stale copy of 'a' costs 'a' its place, and 'b' is older. -/
theorem a_younger_key_goes :
    ¬ ∀ (mode : mode_t) (max_size : Nat) (fn_exp : Option (Int → Unit → Bool))
      (ops : List (operation Char Unit)),
      Always step Law { cache := create mode max_size fn_exp } ops := by
  intro hall
  have hend : ∃ s, exec step ({ cache := create .FIFO 3 none } : History Char Unit)
      erased_and_set_again = some s ∧ s.cache.mode_ = .FIFO ∧ s.cache.max_size_ = 3 ∧
      s.came = some ('c', ['a', 'b']) ∧ s.live = ['c', 'b'] :=
    ⟨_, rfl, rfl, rfl, rfl, rfl⟩
  obtain ⟨s, hrun, hmode, hmax, hcame, hlive⟩ := hend
  have hlaw := always_exec (hall .FIFO 3 none erased_and_set_again) hrun
  have hevicts := hlaw.evicts hmode 'c' ['a', 'b'] hcame
  rw [hlive, hmax] at hevicts
  exact absurd hevicts (by decide)

end socle.ptr_cache
