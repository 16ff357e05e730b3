-- Which deallocator the memory of an entry gets. Buffers, plain memory and trees
-- of entries use one pool in any order. `pack` can leave a chunk of the pool in
-- the entry, and the entry gives it to `delete[]`. In all other runs each piece
-- of memory goes back the way it came.
import Socle.BufferOwners
import Socle.LtvMemory

namespace socle.pairing

open mempool membuf lib.ledger

/-! ## What a tree owns -/

/-- What the entry itself gives to `delete[]`. -/
def LTVEntry.own (e : LTVEntry) : Multiset Nat :=
  if e.owner_ then ref e.data_ else 0

mutual

/-- What the tree owns. -/
def owned : LTVEntry → Multiset Nat
  | ⟨contains, _, _, _, data, owner⟩ => (if owner then ref data else 0) + owned_all contains

/-- What the sub-entries own. -/
def owned_all : List LTVEntry → Multiset Nat
  | [] => 0
  | c :: rest => owned c + owned_all rest

end

theorem owned_eq (e : LTVEntry) : owned e = e.own + owned_all e.contains_ := by
  cases e
  rw [owned]
  rfl

theorem owned_all_append (cs ds : List LTVEntry) :
    owned_all (cs ++ ds) = owned_all cs + owned_all ds := by
  induction cs with
  | nil => rw [List.nil_append, owned_all, zero_add]
  | cons c cs ih => rw [List.cons_append, owned_all, owned_all, ih, add_assoc]

theorem owned_add (e c : LTVEntry) : owned (e.add c) = owned e + owned c := by
  rw [owned_eq, owned_eq e, LTVEntry.add, owned_all_append, owned_all, owned_all, add_zero,
    ← add_assoc]
  rfl

/-- What the other entries of a list own. -/
theorem owned_modify {cs : List LTVEntry} {k : Nat} {c : LTVEntry} (hc : cs[k]? = some c) :
    ∃ rest, owned_all cs = owned c + rest ∧
      ∀ f : LTVEntry → LTVEntry, owned_all (cs.modify k f) = owned (f c) + rest := by
  induction cs generalizing k with
  | nil => cases hc
  | cons d cs ih =>
    cases k with
    | zero =>
      simp only [List.getElem?_cons_zero, Option.some.injEq] at hc
      subst hc
      exact ⟨owned_all cs, by rw [owned_all], fun f => by rw [List.modify_zero_cons, owned_all]⟩
    | succ k =>
      obtain ⟨rest, hold, hnew⟩ := ih (by simpa using hc)
      refine ⟨owned d + rest, ?_, fun f => ?_⟩
      · rw [owned_all, hold, add_left_comm]
      · rw [List.modify_succ_cons, owned_all, hnew, add_left_comm]

/-- What the rest of a tree owns, whatever stands in the place of one entry. -/
theorem owned_replace {path : List Nat} {e n : LTVEntry} (hn : e.find path = some n) :
    ∃ rest, owned e = owned n + rest ∧
      ∀ m : LTVEntry, owned (m.replace path e) = owned m + rest := by
  induction path generalizing e with
  | nil =>
    simp only [LTVEntry.find, Option.some.injEq] at hn
    subst hn
    exact ⟨0, by rw [add_zero], fun m => by rw [LTVEntry.replace, add_zero]⟩
  | cons k path ih =>
    simp only [LTVEntry.find, Option.bind_eq_some_iff] at hn
    obtain ⟨c, hc, hn⟩ := hn
    obtain ⟨rest, hold, hnew⟩ := ih hn
    obtain ⟨others, hlist, hmod⟩ := owned_modify hc
    refine ⟨rest + (others + e.own), ?_, fun m => ?_⟩
    · rw [owned_eq, hlist, hold]
      abel
    · rw [owned_eq, LTVEntry.replace, hmod, hnew]
      simp only [LTVEntry.own]
      abel

theorem place_all_append (cs ds : List ltv.LTVEntry) :
    place_all (cs ++ ds) = place_all cs ++ place_all ds := by
  induction cs with
  | nil => rw [List.nil_append, place_all, List.nil_append]
  | cons c cs ih => rw [List.cons_append, place_all, place_all, ih, List.cons_append]

theorem owned_place {e : ltv.LTVEntry} (h : e.owner_ = false) :
    owned (place e) = owned_all (place_all e.contains_) := by
  cases e
  simp only at h
  rw [place, owned, h, if_neg Bool.false_ne_true, zero_add]

/-- The entries that `unpack` finds own nothing. The induction is on the fuel, which `unpack` and
its loop share. -/
theorem found_own_nothing (heap : Nat → UInt8) (fuel : Nat) :
    (∀ e p n e' r reads, ltv.LTVEntry.owner_ e = false →
      owned_all (place_all e.contains_) = 0 →
      ltv.unpack heap fuel e p n = some (e', r, reads) → owned (place e') = 0) ∧
    ∀ data len idx subs reads, ltv.dig heap fuel data len idx = some (subs, reads) →
      owned_all (place_all subs) = 0 := by
  induction fuel with
  | zero =>
    refine ⟨fun e p n e' r reads _ _ h => ?_, fun data len idx subs reads h => ?_⟩
    · rw [ltv.unpack] at h
      cases h
    · rw [ltv.dig] at h
      cases h
  | succ fuel ih =>
    obtain ⟨ihu, ihd⟩ := ih
    constructor
    · intro e p n e' r reads hf hc h
      have htake : owned (place (e.take heap p)) = 0 := by
        rw [owned_place (e := e.take heap p) hf]
        exact hc
      rw [ltv.unpack_succ] at h
      split at h
      · cases h
        rw [owned_place hf, hc]
      split at h
      · cases h
        rw [owned_place (e := e.look p) hf]
        exact hc
      split at h
      · obtain ⟨⟨subs, more⟩, hd, hr⟩ := Option.map_eq_some_iff.mp h
        cases hr
        rw [owned_place (e := (e.take heap p).push_all subs) hf]
        simp only [ltv.LTVEntry.push_all]
        rw [place_all_append, owned_all_append, ihd _ _ _ _ _ hd, add_zero]
        exact hc
      · cases h
        exact htake
    · intro data len idx subs reads h
      rw [ltv.dig_succ] at h
      obtain ⟨⟨u, red, more⟩, hu, hr⟩ := Option.bind_eq_some_iff.mp h
      have hown : owned (place u) = 0 := by
        apply ihu _ _ _ _ _ _ rfl _ hu
        rw [place_all, owned_all]
      simp only at hr
      split at hr
      · split at hr
        · cases hr
          rw [place_all, place_all, owned_all, owned_all, hown, add_zero]
        · obtain ⟨⟨rest, later⟩, hd, hrest⟩ := Option.map_eq_some_iff.mp hr
          cases hrest
          rw [place_all, owned_all, hown, ihd _ _ _ _ _ hd, add_zero]
      · cases hr
        rw [place_all, owned_all]

/-! ## What each function leaves -/

variable {ι : Type*} {mine : Nat → Prop} {w : World} {T : ι → Multiset Nat} {i : ι}
  {s : Multiset Nat}

theorem mem_ref {p q : Nat} : p ∈ ref q ↔ q ≠ 0 ∧ p = q := by
  unfold ref
  split
  · rename_i h
    simp [h]
  · rename_i h
    simp [h]

/-- The switch between pool and `new[]` stays where it is. -/
@[simp] theorem new_array_use_pool (A : Allocator) (w : World) (n : Nat) :
    (w.new_array A n).2.use_pool = w.use_pool := rfl

@[simp] theorem write_use_pool (w : World) (p : Nat) (l : List UInt8) :
    (write w p l).use_pool = w.use_pool := rfl

@[simp] theorem write_pool (w : World) (p : Nat) (l : List UInt8) :
    (write w p l).pool = w.pool := rfl

@[simp] theorem delete_data_use_pool (e : LTVEntry) (w : World) :
    (e.delete_data w).use_pool = w.use_pool := by
  unfold LTVEntry.delete_data
  split <;> rfl

/-- After a function that gives entry and world `r`, holder `i` has what the tree owns, and `s`. -/
structure Yields [DecidableEq ι] (mine : Nat → Prop) (T : ι → Multiset Nat) (i : ι)
    (s : Multiset Nat) (use_pool : Bool) (r : LTVEntry × World) : Prop where
  kept : Kept mine r.2.pool (Function.update T i (owned r.1 + s))
  switch : r.2.use_pool = use_pool

section
variable [DecidableEq ι]

/-- An entry gives its memory to `delete[]`, which it came from. -/
theorem kept_delete_data {e : LTVEntry} (h : Kept mine w.pool T) (hi : T i = e.own + s)
    (hd : ∀ p ∈ e.own, ¬ mine p) :
    Kept mine (e.delete_data w).pool (Function.update T i s) := by
  unfold LTVEntry.own at hi hd
  unfold LTVEntry.delete_data
  by_cases ho : e.owner_ = true
  · rw [if_pos ho] at hi hd
    by_cases hdata : e.data_ = 0
    · rw [if_neg fun hc => hc.1 hdata]
      rw [hdata, ref_null, zero_add] at hi
      rw [← hi, Function.update_eq_self]
      exact h
    · rw [if_pos ⟨hdata, ho⟩]
      exact h.delete hi fun hne => hd _ (mem_ref.mpr ⟨hne, rfl⟩)
  · rw [if_neg ho, zero_add] at hi
    rw [if_neg fun hc => ho hc.2, ← hi, Function.update_eq_self]
    exact h

/-- The tree without the memory of its root. -/
theorem kept_clear {e : LTVEntry} (h : Kept mine w.pool T) (hi : T i = owned e + s)
    (hd : ∀ p ∈ e.own, ¬ mine p) :
    Kept mine (e.clear w).2.pool (Function.update T i (owned_all e.contains_ + s)) := by
  rw [owned_eq, add_assoc] at hi
  exact kept_delete_data h hi hd

theorem clear_yields {e : LTVEntry} (h : Kept mine w.pool T) (hi : T i = owned e + s)
    (hd : ∀ p ∈ e.own, ¬ mine p) : Yields mine T i s w.use_pool (e.clear w) := by
  refine ⟨?_, delete_data_use_pool e w⟩
  have howned : owned (e.clear w).1 = owned_all e.contains_ := by
    rw [owned_eq, LTVEntry.own]
    simp [LTVEntry.clear]
  rw [howned]
  exact kept_clear h hi hd

/-- A root that owns nothing gets a new block. -/
theorem kept_new_data (A : Allocator) (n : Nat) {cs : List LTVEntry} (h : Kept mine w.pool T)
    (hi : T i = owned_all cs + s) {e : LTVEntry} (hc : e.contains_ = cs) (ho : e.owner_ = true)
    (hd : e.data_ = (w.new_array A n).1) :
    Kept mine (w.new_array A n).2.pool (Function.update T i (owned e + s)) := by
  have hne : (w.new_array A n).1 ≠ 0 := A.place_ne_null _ _ _
  rw [owned_eq, hc, LTVEntry.own, if_pos ho, hd, add_assoc, ref_add hne]
  exact h.grow A n hi

/-- The root gives its memory back and gets a new block. -/
theorem renew_yields (A : Allocator) (n : Nat) {e : LTVEntry} {r : LTVEntry × World}
    (h : Kept mine w.pool T) (hi : T i = owned e + s) (hd : ∀ p ∈ e.own, ¬ mine p)
    (hc : r.1.contains_ = e.contains_) (ho : r.1.owner_ = true)
    (hdata : r.1.data_ = ((e.clear w).2.new_array A n).1)
    (hpool : r.2.pool = ((e.clear w).2.new_array A n).2.pool)
    (hu : r.2.use_pool = (e.clear w).2.use_pool) : Yields mine T i s w.use_pool r := by
  refine ⟨?_, hu.trans (delete_data_use_pool e w)⟩
  have hclear := kept_clear h hi hd
  have hnew := kept_new_data A n hclear (Function.update_self ..) hc ho hdata
  rw [Function.update_idem] at hnew
  rw [hpool]
  exact hnew

theorem set_data_yields (A : Allocator) (k t : UInt8) (n : Nat) (l : List UInt8) {e : LTVEntry}
    (h : Kept mine w.pool T) (hi : T i = owned e + s) (hd : ∀ p ∈ e.own, ¬ mine p) :
    Yields mine T i s w.use_pool (e.set_data A k t n l w) :=
  renew_yields A _ h hi hd rfl rfl rfl rfl rfl

theorem container_yields (A : Allocator) (k : UInt8) {e : LTVEntry} (h : Kept mine w.pool T)
    (hi : T i = owned e + s) (hd : ∀ p ∈ e.own, ¬ mine p) :
    Yields mine T i s w.use_pool (e.container A k w) :=
  renew_yields A _ h hi hd rfl rfl rfl rfl rfl

end

mutual

/-- A tree that goes gives all that it owns to `delete[]`. -/
theorem kept_destroy [DecidableEq ι] : ∀ (e : LTVEntry) {w : World} {T : ι → Multiset Nat}
    {s : Multiset Nat}, Kept mine w.pool T → T i = owned e + s → (∀ p ∈ owned e, ¬ mine p) →
    Kept mine (destroy e w).pool (Function.update T i s) ∧ (destroy e w).use_pool = w.use_pool
  | ⟨contains, len, id, type, data, owner⟩, w, T, s, h, hi, hd => by
    rw [owned_eq] at hi hd
    have hroot := kept_clear h (by rw [hi, owned_eq]) fun p hp =>
      hd p (Multiset.mem_add.mpr (Or.inl hp))
    have hrest := kept_destroy_all contains hroot (Function.update_self ..) fun p hp =>
      hd p (Multiset.mem_add.mpr (Or.inr hp))
    rw [Function.update_idem] at hrest
    rw [destroy]
    exact ⟨hrest.1, hrest.2.trans (delete_data_use_pool _ w)⟩

theorem kept_destroy_all [DecidableEq ι] : ∀ (cs : List LTVEntry) {w : World}
    {T : ι → Multiset Nat} {s : Multiset Nat}, Kept mine w.pool T → T i = owned_all cs + s →
    (∀ p ∈ owned_all cs, ¬ mine p) →
    Kept mine (destroy_all cs w).pool (Function.update T i s) ∧
      (destroy_all cs w).use_pool = w.use_pool
  | [], w, T, s, h, hi, _ => by
    rw [owned_all, zero_add] at hi
    rw [destroy_all, ← hi, Function.update_eq_self]
    exact ⟨h, rfl⟩
  | c :: rest, w, T, s, h, hi, hd => by
    rw [owned_all] at hi hd
    have hfirst := kept_destroy c h (by rw [hi, add_assoc]) fun p hp =>
      hd p (Multiset.mem_add.mpr (Or.inl hp))
    have hrest := kept_destroy_all rest hfirst.1 (Function.update_self ..) fun p hp =>
      hd p (Multiset.mem_add.mpr (Or.inr hp))
    rw [Function.update_idem] at hrest
    rw [destroy_all]
    exact ⟨hrest.1, hrest.2.trans hfirst.2⟩

end

/-! ## Packing -/

theorem append_free (A : Allocator) {b : buffer} (hf : b.free_ = true) (d n : Nat) (w : World) :
    (b.append A d n w).1.free_ = true := by
  by_cases hc : b.capacity_ < b.size_ + n
  · by_cases hn : n = 0
    · subst hn
      unfold buffer.append
      rw [if_neg (by simp)]
      exact hf
    · rw [append_grow A w d hc hn, capacity_eq A w b hc]
  · rw [append_stay A w d hc]
    exact hf

theorem pack_into_cont (A : Allocator) (contains : List LTVEntry) (len : Nat) (id : UInt8)
    (data : Nat) (owner : Bool) (b : buffer) (w : World) :
    pack_into A ⟨contains, len, id, ltv.typ.cont, data, owner⟩ b w =
      let r := b.append A data len w
      let p := pack_all A contains r.1 r.2
      let total := (len + p.2.2.2) % 2 ^ 32
      (⟨p.1, total, id, ltv.typ.cont, data, owner⟩, p.2.1,
        write p.2.2.1 (p.2.1.data_ + b.size_) (lib.bytes.u32 total), total) := by
  rw [pack_into, if_pos rfl]

theorem pack_into_scalar (A : Allocator) (contains : List LTVEntry) (len : Nat) {id type : UInt8}
    (data : Nat) (owner : Bool) (b : buffer) (w : World) (ht : type ≠ ltv.typ.cont) :
    pack_into A ⟨contains, len, id, type, data, owner⟩ b w =
      if len > 0 then
        (⟨contains, len, id, type, data, owner⟩, (b.append A data len w).1,
          (b.append A data len w).2, len)
      else (⟨contains, len, id, type, data, owner⟩, b, w, 0) := by
  rw [pack_into, if_neg ht]

theorem pack_all_cons (A : Allocator) (c : LTVEntry) (rest : List LTVEntry) (b : buffer)
    (w : World) :
    pack_all A (c :: rest) b w =
      let r := pack_into A c b w
      let p := pack_all A rest r.2.1 r.2.2.1
      (r.1 :: p.1, p.2.1, p.2.2.1, r.2.2.2 + p.2.2.2) := by
  rw [pack_all]

/-- What packing into `b₀` keeps: the owner of the buffer has what the buffer owns then, and the
tree owns what it owned. -/
structure Packed [DecidableEq ι] (mine : Nat → Prop) (T : ι → Multiset Nat) (i : ι)
    (s : Multiset Nat) (use_pool : Bool) (b₀ b : buffer) (w : World) (before after : Multiset Nat) :
    Prop where
  leaves : Leaves mine T i s use_pool (b, w)
  free : b₀.free_ = true → b.free_ = true
  same : after = before

section
variable [DecidableEq ι]

/-- The owner has what the buffer owns already. -/
theorem leaves_again {use_pool : Bool} {b : buffer} {r : buffer × World}
    (hr : Leaves mine (Function.update T i (b.own + s)) i s use_pool r) :
    Leaves mine T i s use_pool r := by
  have hk := hr.kept
  rw [Function.update_idem] at hk
  exact ⟨hk, hr.tidy, hr.switch⟩

theorem append_packed (A : Allocator) {b : buffer} (h : Kept mine w.pool T)
    (hi : T i = b.own + s) (ht : b.Tidy mine w.use_pool) (d n : Nat) (before : Multiset Nat) :
    Packed mine T i s w.use_pool b (b.append A d n w).1 (b.append A d n w).2 before before :=
  ⟨append_leaves A h hi ht d n, fun hf => append_free A hf d n w, rfl⟩

end

mutual

theorem pack_into_packed [DecidableEq ι] (A : Allocator) : ∀ (e : LTVEntry) {b : buffer}
    {w : World} {T : ι → Multiset Nat}, Kept mine w.pool T → T i = b.own + s →
    b.Tidy mine w.use_pool →
    Packed mine T i s w.use_pool b (pack_into A e b w).2.1 (pack_into A e b w).2.2.1 (owned e)
      (owned (pack_into A e b w).1)
  | ⟨contains, len, id, type, data, owner⟩, b, w, T, h, hi, ht => by
    have hp := append_packed A h hi ht data len (owned_all contains)
    by_cases hcont : type = ltv.typ.cont
    · subst hcont
      rw [pack_into_cont]
      have hall := pack_all_packed A contains hp.leaves.kept (Function.update_self ..)
        (hp.leaves.switch ▸ hp.leaves.tidy)
      rw [hp.leaves.switch] at hall
      have hleaves := leaves_again hall.leaves
      refine ⟨⟨hleaves.kept, hleaves.tidy, hleaves.switch⟩, fun hf => hall.free (hp.free hf), ?_⟩
      rw [owned, owned]
      rw [hall.same]
    · rw [pack_into_scalar A contains len data owner b w hcont]
      split
      · exact ⟨hp.leaves, hp.free, rfl⟩
      · exact ⟨leaves_self h hi ht, fun hf => hf, rfl⟩

theorem pack_all_packed [DecidableEq ι] (A : Allocator) : ∀ (cs : List LTVEntry) {b : buffer}
    {w : World} {T : ι → Multiset Nat}, Kept mine w.pool T → T i = b.own + s →
    b.Tidy mine w.use_pool →
    Packed mine T i s w.use_pool b (pack_all A cs b w).2.1 (pack_all A cs b w).2.2.1
      (owned_all cs) (owned_all (pack_all A cs b w).1)
  | [], b, w, T, h, hi, ht => by
    rw [pack_all]
    exact ⟨leaves_self h hi ht, fun hf => hf, rfl⟩
  | c :: rest, b, w, T, h, hi, ht => by
    have hp := pack_into_packed A c h hi ht
    have hall := pack_all_packed A rest hp.leaves.kept (Function.update_self ..)
      (hp.leaves.switch ▸ hp.leaves.tidy)
    rw [hp.leaves.switch] at hall
    rw [pack_all_cons]
    refine ⟨leaves_again hall.leaves, fun hf => hall.free (hp.free hf), ?_⟩
    rw [owned_all, owned_all, hp.same, hall.same]

end

/-- The root has memory that it owns and whose length it knows, or nothing is packed. -/
def LTVEntry.Packs (e : LTVEntry) : Prop :=
  e.data_ = 0 ∨ (e.type_ ≠ ltv.typ.cont ∧ e.len_ = 0) ∨ (e.owner_ = true ∧ 0 < e.len_)

/-- The buffer in which a root is packed owns what the root points to. -/
def LTVEntry.attached (e : LTVEntry) : buffer :=
  { data_ := e.data_, size_ := e.len_, capacity_ := e.len_, free_ := true }

theorem work_buffer_eq (A : Allocator) (e : LTVEntry) (hu : w.use_pool = true) :
    (e.work_buffer A w).1 = e.attached ∧ (e.work_buffer A w).2.pool = w.pool ∧
      (e.work_buffer A w).2.use_pool = true := by
  have hnull : w.pool.acquire A 0 = ({ ptr := 0, capacity := 0 }, w.pool) := by
    simp [memPool.acquire]
  unfold LTVEntry.work_buffer LTVEntry.attached
  rw [ctor_eq, obtain_pool hu]
  simp [buffer.attach, buffer.assign_own, buffer.size, buffer.dealloc, buffer.inside,
    World.acquire, hnull, hu]

/-- Nothing is left in the work buffer that its destructor would give back. -/
theorem take_back_world (e : LTVEntry) (b : buffer) (w : World) : (e.take_back b w).2 = w := by
  unfold LTVEntry.take_back
  simp [buffer.release, buffer.detach, buffer.dealloc]

theorem pack_cont (A : Allocator) {e : LTVEntry} (ht : e.type_ = ltv.typ.cont) (w : World) :
    let r := e.work_buffer A w
    let p := pack_all A e.contains_ r.1 r.2
    let total := (e.len_ + p.2.2.2) % 2 ^ 32
    e.pack A w =
      ({ e with
          contains_ := p.1, len_ := total, data_ := p.2.1.data_, owner_ := true },
        write p.2.2.1 p.2.1.data_ (lib.bytes.u32 total), total) := by
  intro r p total
  unfold LTVEntry.pack
  simp only [if_pos ht]
  rw [take_back_world]
  rfl

theorem pack_scalar (A : Allocator) {e : LTVEntry} (ht : e.type_ ≠ ltv.typ.cont)
    (hl : e.len_ > 0) (w : World) :
    let r := e.work_buffer A w
    e.pack A w =
      ({ e with data_ := (r.1.append A e.data_ e.len_ r.2).1.data_, owner_ := true },
        (r.1.append A e.data_ e.len_ r.2).2, e.len_) := by
  intro r
  unfold LTVEntry.pack
  simp only [if_neg ht, if_pos hl]
  rw [take_back_world]
  rfl

theorem pack_nothing (A : Allocator) {e : LTVEntry} (ht : e.type_ ≠ ltv.typ.cont)
    (hl : e.len_ = 0) (w : World) :
    e.pack A w = (e, ((e.work_buffer A w).1.release (e.work_buffer A w).2).2, 0) := by
  unfold LTVEntry.pack
  simp [if_neg ht, hl]

section
variable [DecidableEq ι]

/-- What the buffer owns in the end belongs to the root. -/
theorem packed_yields {use_pool : Bool} {b₀ b : buffer} {before after : Multiset Nat}
    (h : Packed mine T i s use_pool b₀ b w before after) (hf : b₀.free_ = true) {e : LTVEntry}
    (hd : e.data_ = b.data_) (ho : e.owner_ = true) :
    Kept mine w.pool (Function.update T i (e.own + s)) := by
  have hown : e.own = b.own := by
    rw [own_of_free (h.free hf), LTVEntry.own, if_pos ho, hd]
  rw [hown]
  exact h.leaves.kept

theorem pack_yields (A : Allocator) {e : LTVEntry} (h : Kept mine w.pool T)
    (hi : T i = owned e + s) (hu : w.use_pool = true) (hp : e.Packs) :
    Yields mine T i s true ((e.pack A w).1, (e.pack A w).2.1) := by
  obtain ⟨hb, hpool, hswitch⟩ := work_buffer_eq A e hu
  have hk : Kept mine (e.work_buffer A w).2.pool T := by rwa [hpool]
  by_cases hnone : e.type_ ≠ ltv.typ.cont ∧ e.len_ = 0
  · rw [pack_nothing A hnone.1 hnone.2, hb]
    have hkeep : (e.attached.release (e.work_buffer A w).2).2 = (e.work_buffer A w).2 := by
      simp [LTVEntry.attached, buffer.release, buffer.dealloc, hnone.2]
    rw [hkeep]
    refine ⟨?_, hswitch⟩
    rw [← hi, Function.update_eq_self]
    exact hk
  · have hroot : e.data_ = 0 ∨ (e.owner_ = true ∧ 0 < e.len_) := by
      rcases hp with h0 | hn | ho
      · exact Or.inl h0
      · exact absurd hn hnone
      · exact Or.inr ho
    have hown : e.own = e.attached.own := by
      rw [own_of_free rfl, LTVEntry.own]
      rcases hroot with h0 | ⟨ho, -⟩
      · simp [LTVEntry.attached, h0]
      · rw [if_pos ho]
        rfl
    have htidy : e.attached.Tidy mine (e.work_buffer A w).2.use_pool := by
      intro _ hne
      rw [hswitch]
      refine ⟨?_, fun hf => by cases hf⟩
      rcases hroot with h0 | ⟨-, hl⟩
      · exact absurd h0 hne
      · exact hl
    have hrest : T i = e.attached.own + (owned_all e.contains_ + s) := by
      rw [hi, owned_eq, hown, add_assoc]
    by_cases hcont : e.type_ = ltv.typ.cont
    · rw [pack_cont A hcont, hb]
      have hall := pack_all_packed A e.contains_ hk hrest htidy
      rw [hswitch] at hall
      refine ⟨?_, hall.leaves.switch⟩
      rw [owned_eq]
      simp only [write_pool]
      rw [hall.same, add_assoc]
      exact packed_yields hall rfl rfl rfl
    · have hl : e.len_ > 0 := by
        rw [not_and] at hnone
        exact Nat.pos_of_ne_zero (hnone hcont)
      rw [pack_scalar A hcont hl, hb]
      have hone := append_packed A hk hrest htidy e.data_ e.len_ 0
      rw [hswitch] at hone
      refine ⟨?_, hone.leaves.switch⟩
      rw [owned_eq, add_assoc]
      exact packed_yields hone rfl rfl rfl

omit [DecidableEq ι] in
/-- In a root that is no container `pack` leaves memory of a bucket, when the bucket for twice its
length has a chunk left: the work buffer has the bytes of the root, and they are appended again. -/
theorem pack_leaves_chunk_iff (A : Allocator) {e : LTVEntry} (h : Kept mine w.pool T)
    (hu : w.use_pool = true) (ht : e.type_ ≠ ltv.typ.cont) (hl : e.len_ > 0) :
    mine (e.pack A w).1.data_ ↔
      ∃ id, pick_bucket (e.len_ + e.len_) = some id ∧ (w.pool.bucket id).bucket ≠ [] := by
  obtain ⟨hb, hpool, hswitch⟩ := work_buffer_eq A e hu
  have hgrows : e.attached.capacity_ < e.attached.size_ + e.len_ := by
    simp only [LTVEntry.attached]
    omega
  have hdata : (e.pack A w).1.data_ = (w.pool.acquire A (e.len_ + e.len_)).1.ptr := by
    rw [pack_scalar A ht hl, hb]
    simp only
    rw [append_grow A _ _ hgrows (Nat.ne_of_gt hl), capacity_eq A _ _ hgrows, obtain_pool hswitch]
    simp only [buffer.inside, World.acquire, hpool, LTVEntry.attached]
  rw [hdata]
  exact h.acquired_mine_iff A (by omega)

/-! ## Unpacking -/

/-- An owner that has memory already does not get a block for a packet that is all there. -/
def LTVEntry.Unpacks (e : LTVEntry) (buffer buflen : Nat) (w : World) : Prop :=
  4 ≤ buflen → ltv.ltv_get_length (pointer_to w buffer buflen) ≤ buflen → e.owner_ = true →
    e.data_ = 0

theorem owned_found {e : LTVEntry} {subs : List ltv.LTVEntry}
    (h : owned_all (place_all subs) = 0) :
    owned { e with contains_ := e.contains_ ++ place_all subs } = owned e := by
  rw [owned_eq, owned_eq e]
  simp only
  rw [owned_all_append, h, add_zero]
  rfl

theorem take_yields (A : Allocator) {e : LTVEntry} (h : Kept mine w.pool T)
    (hi : T i = owned e + s) (p n : Nat) (hnull : e.owner_ = true → e.data_ = 0) :
    Yields mine T i s w.use_pool (e.take A p n w) := by
  unfold LTVEntry.take LTVEntry.take_data
  by_cases hown : e.owner_ = true
  · simp only [if_pos hown]
    rw [owned_eq, LTVEntry.own, hnull hown, ref_null, ite_self, zero_add] at hi
    refine ⟨?_, rfl⟩
    exact kept_new_data A _ h hi rfl hown rfl
  · simp only [if_neg hown]
    refine ⟨?_, rfl⟩
    rw [owned_eq, LTVEntry.own, if_neg hown] at hi
    rw [owned_eq, LTVEntry.own, if_neg hown, ← hi, Function.update_eq_self]
    exact h

theorem unpack_yields (A : Allocator) {fuel : Nat} {e e' : LTVEntry} {p n : Nat} {w' : World}
    {r : Int} (h : Kept mine w.pool T) (hi : T i = owned e + s) (hc : e.Unpacks p n w)
    (hr : e.unpack A fuel p n w = some (e', w', r)) :
    Yields mine T i s w.use_pool (e', w') := by
  have hsame : Yields mine T i s w.use_pool (e, w) := by
    refine ⟨?_, rfl⟩
    rw [← hi, Function.update_eq_self]
    exact h
  unfold LTVEntry.unpack at hr
  simp only at hr
  split at hr
  · cases hr
    exact hsame
  split at hr
  · cases hr
    refine ⟨?_, rfl⟩
    rw [owned_eq]
    have hk := hsame.kept
    rw [owned_eq] at hk
    exact hk
  rename_i h4 hlen
  have htake := take_yields A h hi p n (hc (by omega) (by omega))
  split at hr
  · obtain ⟨⟨subs, reads⟩, hd, hr⟩ := Option.map_eq_some_iff.mp hr
    cases hr
    refine ⟨?_, htake.switch⟩
    simp only
    rw [owned_found ((found_own_nothing _ fuel).2 _ _ _ _ _ hd)]
    exact htake.kept
  · cases hr
    exact htake

end

/-! ## Runs -/

/-- The buffers, the memory that somebody holds by hand, and the trees of entries. -/
structure State where
  base : membuf.State
  ents : Nat → Option LTVEntry

/-- What a program can do. `k` names a tree, and `path` one of its entries. -/
inductive op
  | buf (o : membuf.op)
  | new_array (v n : Nat)
  | delete_array (v : Nat)
  | make (k : Nat)
  | destroy (k : Nat)
  | clear (k : Nat) (path : List Nat)
  | set_str (k : Nat) (path : List Nat) (id type : UInt8) (str : List UInt8)
  | set_bytes (k : Nat) (path : List Nat) (id type : UInt8) (str : List UInt8) (size : Nat)
  | set_num (k : Nat) (path : List Nat) (id type : UInt8) (d : Nat)
  | container (k : Nat) (path : List Nat) (id : UInt8)
  | add (k : Nat) (path : List Nat) (j : Nat)
  | owner (k : Nat) (path : List Nat) (o : Bool)
  | pack (k : Nat) (path : List Nat)
  | pack_into (k : Nat) (path : List Nat) (i : Nat)
  | unpack (k : Nat) (path : List Nat) (p n fuel : Nat)

namespace State

/-- The root of tree `k`, and its entry at `path`. -/
def node (st : State) (k : Nat) (path : List Nat) : Option (LTVEntry × LTVEntry) := do
  let e ← st.ents k
  let n ← e.find path
  return (e, n)

/-- The entry at `path` becomes `r.1`, in world `r.2`. -/
def put (st : State) (k : Nat) (path : List Nat) (e : LTVEntry) (r : LTVEntry × World) : State where
  base := { st.base with w := r.2 }
  ents := Function.update st.ents k (some (r.1.replace path e))

end State

/-- One call. It is refused when it names something that is not there, or a name that is taken, and
when the code throws or does not end. -/
def step (A : Allocator) (st : State) : op → Option State
  | .buf o => do
    let base ← membuf.step A st.base o
    return { st with base }
  | .new_array v n => do
    st.base.unheld v
    let (ptr, w) := st.base.w.new_array A n
    return { st with base := { st.base with w }.hold v (some { ptr, capacity := n }) }
  | .delete_array v => do
    let c ← st.base.vars v
    return { st with base := { st.base with w := st.base.w.delete_array c.ptr }.hold v none }
  | .make k =>
    if (st.ents k).isNone then some { st with ents := Function.update st.ents k (some {}) } else none
  | .destroy k => do
    let e ← st.ents k
    return {
      base := { st.base with w := destroy e st.base.w }
      ents := Function.update st.ents k none }
  | .clear k path => do
    let (e, n) ← st.node k path
    return st.put k path e (n.clear st.base.w)
  | .set_str k path id type str => do
    let (e, n) ← st.node k path
    return st.put k path e (n.set_str A id type str st.base.w)
  | .set_bytes k path id type str size => do
    let (e, n) ← st.node k path
    return st.put k path e (n.set_bytes A id type str size st.base.w)
  | .set_num k path id type d => do
    let (e, n) ← st.node k path
    return st.put k path e (n.set_num A id type d st.base.w)
  | .container k path id => do
    let (e, n) ← st.node k path
    return st.put k path e (n.container A id st.base.w)
  | .add k path j =>
    -- a tree is not added to itself
    if k = j then none
    else do
      let (e, n) ← st.node k path
      let c ← st.ents j
      let st := st.put k path e (n.add c, st.base.w)
      return { st with ents := Function.update st.ents j none }
  | .owner k path o => do
    let (e, n) ← st.node k path
    return st.put k path e ({ n with owner_ := o }, st.base.w)
  | .pack k path => do
    let (e, n) ← st.node k path
    let (n, w, _) := n.pack A st.base.w
    return st.put k path e (n, w)
  | .pack_into k path i => do
    let (e, n) ← st.node k path
    let b ← st.base.bufs i
    let (n, b, w, _) := pack_into A n b st.base.w
    let st := st.put k path e (n, w)
    return { st with base := st.base.set i (b, w) }
  | .unpack k path p len fuel => do
    let (e, n) ← st.node k path
    let (n, w, _) ← n.unpack A fuel p len st.base.w
    return st.put k path e (n, w)

/-- A program begins with a pool, and with nothing else. -/
def start (pool : memPool) (mem : Nat → UInt8) : State where
  base := membuf.start pool mem
  ents := fun _ => none

/-- Who can own memory: a buffer, somebody by hand, or a tree. -/
def State.ledger (st : State) : holder ⊕ Nat → Multiset Nat :=
  Sum.elim st.base.held fun k => (st.ents k).elim 0 owned

/-! ## The law -/

/-- All memory has one owner and goes back the way it came. -/
def Paired (st : State) : Prop :=
  InOrder st.base.w.pool st.ledger

/-- The address is in the memory of a bucket. -/
abbrev State.Mine (st : State) (p : Nat) : Prop :=
  st.base.w.pool.Mine p

/-- The condition on a call. What an entry or somebody by hand gives to `delete[]` is not in a
bucket, an owner keeps the flag and does not get a second block, a root that is packed owns its
memory, and a buffer takes over memory with a capacity. -/
def Fits (st : State) : op → Prop
  | .buf o => GivesBack st.base o
  | .delete_array v => ∀ c ∈ st.base.vars v, ¬ st.Mine c.ptr
  | .destroy k => ∀ e ∈ st.ents k, ∀ p ∈ owned e, ¬ st.Mine p
  | .clear k path | .set_str k path _ _ _ | .set_bytes k path _ _ _ _ | .set_num k path _ _ _
  | .container k path _ => ∀ r ∈ st.node k path, ∀ p ∈ r.2.own, ¬ st.Mine p
  | .owner k path o => ∀ r ∈ st.node k path, r.2.data_ = 0 ∨ o = r.2.owner_
  | .pack k path => ∀ r ∈ st.node k path, r.2.Packs
  | .unpack k path p len _ => ∀ r ∈ st.node k path, r.2.Unpacks p len st.base.w
  | _ => True

instance (e : LTVEntry) : Decidable e.Packs :=
  inferInstanceAs (Decidable (_ ∨ _))

instance (e : LTVEntry) (p n : Nat) (w : World) : Decidable (e.Unpacks p n w) :=
  inferInstanceAs (Decidable (_ → _ → _ → _))

instance (st : State) : (o : op) → Decidable (Fits st o)
  | .buf o => inferInstanceAs (Decidable (GivesBack st.base o))
  | .delete_array v => inferInstanceAs (Decidable (∀ c ∈ st.base.vars v, ¬ st.Mine c.ptr))
  | .destroy k => inferInstanceAs (Decidable (∀ e ∈ st.ents k, ∀ p ∈ owned e, ¬ st.Mine p))
  | .clear k path | .set_str k path _ _ _ | .set_bytes k path _ _ _ _ | .set_num k path _ _ _
  | .container k path _ =>
    inferInstanceAs (Decidable (∀ r ∈ st.node k path, ∀ p ∈ r.2.own, ¬ st.Mine p))
  | .owner k path o =>
    inferInstanceAs (Decidable (∀ r ∈ st.node k path, r.2.data_ = 0 ∨ o = r.2.owner_))
  | .pack k path => inferInstanceAs (Decidable (∀ r ∈ st.node k path, r.2.Packs))
  | .unpack k path p len _ =>
    inferInstanceAs (Decidable (∀ r ∈ st.node k path, r.2.Unpacks p len st.base.w))
  | .new_array .. | .make _ | .add .. | .pack_into .. => inferInstanceAs (Decidable True)

/-- The invariant of the runs: all memory has its owner, and the pool is in use. -/
abbrev Inv (mine : Nat → Prop) (st : State) : Prop :=
  Owned mine true (fun k => (st.ents k).elim 0 owned) st.base

theorem inv_paired {st : State} (h : Inv mine st) : Paired st :=
  Kept.in_order h.kept

theorem inv_start (A : Allocator) (canary_sz n₁ n₂ n₃ n₄ n₅ : Nat) (mem : Nat → UInt8) :
    Inv (memPool.init A canary_sz n₁ n₂ n₃ n₄ n₅).Mine
      (start (memPool.init A canary_sz n₁ n₂ n₃ n₄ n₅) mem) := by
  refine ⟨?_, rfl, ?_, ?_⟩
  · apply Kept.init
    rintro (k | k)
    · cases k <;> rfl
    · rfl
  · intro i b hb
    cases hb
  · intro v c hc
    cases hc

/-! ## The steps -/

variable {st : State}

theorem node_some {k : Nat} {path : List Nat} {e n : LTVEntry} :
    st.node k path = some (e, n) ↔ st.ents k = some e ∧ e.find path = some n := by
  unfold State.node
  constructor
  · intro h
    simp only [Option.bind_eq_bind, Option.bind_eq_some_iff, Option.pure_def, Option.some.injEq,
      Prod.mk.injEq] at h
    obtain ⟨a, ha, b, hb, rfl, rfl⟩ := h
    exact ⟨ha, hb⟩
  · rintro ⟨he, hn⟩
    simp [he, hn]

theorem rest_update (ents : Nat → Option LTVEntry) (k : Nat) (o : Option LTVEntry) :
    (fun j => (Function.update ents k o j).elim 0 owned) =
      Function.update (fun j => (ents j).elim 0 owned) k (o.elim 0 owned) := by
  funext j
  by_cases hj : j = k
  · subst hj
    simp
  · simp [hj]

/-- Tree `k` owns something else from then on. -/
theorem inv_tree (h : Inv mine st) {w : World} {k : Nat} {o : Option LTVEntry}
    (hk : Kept mine w.pool (Function.update st.ledger (.inr k) (o.elim 0 owned)))
    (hu : w.use_pool = true) :
    Inv mine { base := { st.base with w }, ents := Function.update st.ents k o } := by
  refine ⟨?_, hu, ?_, h.returns⟩
  · simp only
    rw [rest_update, ← Sum.update_elim_inr]
    exact hk
  · intro i b hb
    simp only
    rw [hu, ← h.switch]
    exact h.tidy i b hb

/-- The entry at `path` is what a function left. -/
theorem inv_put (h : Inv mine st) {k : Nat} {path : List Nat} {e n : LTVEntry}
    (hn : st.node k path = some (e, n)) {r : LTVEntry × World}
    (hr : ∀ s, st.ledger (.inr k) = owned n + s →
      Yields mine st.ledger (.inr k) s st.base.w.use_pool r) : Inv mine (st.put k path e r) := by
  obtain ⟨he, hfind⟩ := node_some.mp hn
  obtain ⟨rest, hold, hnew⟩ := owned_replace hfind
  have hy := hr rest (by simp [State.ledger, he, hold])
  apply inv_tree h
  · rw [Option.elim_some, hnew]
    exact hy.kept
  · exact hy.switch.trans h.switch

/-- Tree `j` becomes a part of tree `k`. -/
theorem inv_add (h : Inv mine st) {k j : Nat} {path : List Nat} {e n c : LTVEntry} (hkj : k ≠ j)
    (hn : st.node k path = some (e, n)) (hc : st.ents j = some c) :
    Inv mine { base := st.base, ents := Function.update (Function.update st.ents k
      (some ((n.add c).replace path e))) j none } := by
  obtain ⟨he, hfind⟩ := node_some.mp hn
  obtain ⟨rest, hold, hnew⟩ := owned_replace hfind
  refine ⟨?_, h.switch, h.tidy, h.returns⟩
  have hne : (Sum.inr k : holder ⊕ Nat) ≠ .inr j := by simpa using hkj
  have hj : st.ledger (.inr j) = owned c + 0 := by simp [State.ledger, hc]
  have hk : st.ledger (.inr k) = owned n + rest := by simp [State.ledger, he, hold]
  have hpass := Kept.pass h.kept hne hj
  have hsum : owned ((n.add c).replace path e) = owned c + st.ledger (.inr k) := by
    rw [hnew, owned_add, hk]
    abel
  rw [rest_update, rest_update, ← Sum.update_elim_inr, ← Sum.update_elim_inr,
    Function.update_comm hne, Option.elim_none, Option.elim_some, hsum]
  exact hpass

theorem not_mine_of_state (h : Inv mine st) {s : Multiset Nat}
    (hs : ∀ p ∈ s, ¬ st.Mine p) (p : Nat) (hp : p ∈ s) : ¬ mine p :=
  fun hm => hs p hp ((h.kept.mine_iff p).mp hm)

/-- A call that meets the condition keeps the invariant. -/
theorem inv_step (A : Allocator) {st st' : State} {o : op} (h : Inv mine st) (hf : Fits st o)
    (hs : step A st o = some st') : Inv mine st' := by
  have hk : Kept mine st.base.w.pool st.ledger := h.kept
  cases o with
  | buf o =>
    simp only [step, Option.bind_eq_bind, Option.pure_def, Option.bind_eq_some_iff,
      Option.some.injEq] at hs
    obtain ⟨base, hb, rfl⟩ := hs
    exact owned_step A h hf hb
  | new_array v n =>
    simp only [step, Option.bind_eq_bind, Option.pure_def, Option.bind_eq_some_iff,
      Option.some.injEq, unheld_some, exists_const] at hs
    obtain ⟨hv, rfl⟩ := hs
    have hne : (st.base.w.new_array A n).1 ≠ 0 := A.place_ne_null _ _ _
    have hnone : st.ledger (.inl (.var v)) = 0 := by simp [State.ledger, membuf.State.held, hv]
    have hgrow := hk.grow A n hnone
    refine owned_hold (w := (st.base.w.new_array A n).2) h ?_ rfl ?_
    · rw [Option.elim_some]
      rw [← add_zero (ref _), ref_add hne]
      exact hgrow
    · intro m hm
      cases hm
      intro _ hmine
      obtain ⟨id, hid⟩ := (hk.mine_iff _).mp hmine
      have hnot := hk.toLaid.from_heap_not_mine A n id
      simp only [memPool.from_heap, World.new_array] at hnot hid
      rw [hnot] at hid
      cases hid
  | delete_array v =>
    simp only [step, Option.bind_eq_bind, Option.pure_def, Option.bind_eq_some_iff,
      Option.some.injEq] at hs
    obtain ⟨c, hc, rfl⟩ := hs
    refine owned_hold (w := st.base.w.delete_array c.ptr) h ?_ rfl (fun m hm => by cases hm)
    exact hk.delete (held_var hc) fun _ hm => hf c hc ((hk.mine_iff _).mp hm)
  | make k =>
    simp only [step] at hs
    split at hs
    · rename_i hnone
      cases hs
      have hk0 : st.ledger (.inr k) = 0 := by simp [State.ledger, Option.isNone_iff_eq_none.mp hnone]
      apply inv_tree h _ h.switch
      rw [Option.elim_some, show owned {} = 0 from rfl, ← hk0, Function.update_eq_self]
      exact hk
    · cases hs
  | destroy k =>
    simp only [step, Option.bind_eq_bind, Option.pure_def, Option.bind_eq_some_iff,
      Option.some.injEq] at hs
    obtain ⟨e, he, rfl⟩ := hs
    have hi : st.ledger (.inr k) = owned e + 0 := by simp [State.ledger, he]
    obtain ⟨hd, hu⟩ := kept_destroy e hk hi (not_mine_of_state h (hf e he))
    exact inv_tree h hd (hu.trans h.switch)
  | clear k path =>
    simp only [step, Option.bind_eq_bind, Option.pure_def, Option.bind_eq_some_iff,
      Option.some.injEq] at hs
    obtain ⟨⟨e, n⟩, hn, rfl⟩ := hs
    exact inv_put h hn fun s hi => clear_yields hk hi (not_mine_of_state h (hf (e, n) hn))
  | set_str k path id type str =>
    simp only [step, Option.bind_eq_bind, Option.pure_def, Option.bind_eq_some_iff,
      Option.some.injEq] at hs
    obtain ⟨⟨e, n⟩, hn, rfl⟩ := hs
    exact inv_put h hn fun s hi =>
      set_data_yields A _ _ _ _ hk hi (not_mine_of_state h (hf (e, n) hn))
  | set_bytes k path id type str size =>
    simp only [step, Option.bind_eq_bind, Option.pure_def, Option.bind_eq_some_iff,
      Option.some.injEq] at hs
    obtain ⟨⟨e, n⟩, hn, rfl⟩ := hs
    exact inv_put h hn fun s hi =>
      set_data_yields A _ _ _ _ hk hi (not_mine_of_state h (hf (e, n) hn))
  | set_num k path id type d =>
    simp only [step, Option.bind_eq_bind, Option.pure_def, Option.bind_eq_some_iff,
      Option.some.injEq] at hs
    obtain ⟨⟨e, n⟩, hn, rfl⟩ := hs
    exact inv_put h hn fun s hi =>
      set_data_yields A _ _ _ _ hk hi (not_mine_of_state h (hf (e, n) hn))
  | container k path id =>
    simp only [step, Option.bind_eq_bind, Option.pure_def, Option.bind_eq_some_iff,
      Option.some.injEq] at hs
    obtain ⟨⟨e, n⟩, hn, rfl⟩ := hs
    exact inv_put h hn fun s hi => container_yields A _ hk hi (not_mine_of_state h (hf (e, n) hn))
  | add k path j =>
    simp only [step] at hs
    split at hs
    · cases hs
    · rename_i hkj
      simp only [Option.bind_eq_bind, Option.pure_def, Option.bind_eq_some_iff,
        Option.some.injEq] at hs
      obtain ⟨⟨e, n⟩, hn, c, hc, rfl⟩ := hs
      exact inv_add h hkj hn hc
  | owner k path o =>
    simp only [step, Option.bind_eq_bind, Option.pure_def, Option.bind_eq_some_iff,
      Option.some.injEq] at hs
    obtain ⟨⟨e, n⟩, hn, rfl⟩ := hs
    apply inv_put h hn
    intro s hi
    refine ⟨?_, rfl⟩
    have hsame : owned { n with owner_ := o } = owned n := by
      rw [owned_eq, owned_eq n]
      rcases hf (e, n) hn with (h0 : n.data_ = 0) | ho
      · simp [LTVEntry.own, h0]
      · rw [ho]
        rfl
    rw [hsame, ← hi, Function.update_eq_self]
    exact hk
  | pack k path =>
    simp only [step, Option.bind_eq_bind, Option.pure_def, Option.bind_eq_some_iff,
      Option.some.injEq] at hs
    obtain ⟨⟨e, n⟩, hn, rfl⟩ := hs
    apply inv_put h hn
    intro s hi
    rw [h.switch]
    exact pack_yields A hk hi h.switch (hf (e, n) hn)
  | pack_into k path i =>
    simp only [step, Option.bind_eq_bind, Option.pure_def, Option.bind_eq_some_iff,
      Option.some.injEq] at hs
    obtain ⟨⟨e, n⟩, hn, b, hb, rfl⟩ := hs
    obtain ⟨he, hfind⟩ := node_some.mp hn
    obtain ⟨rest, hold, hnew⟩ := owned_replace hfind
    have hp := pack_into_packed A n hk (held_buf hb) (h.tidy i b hb)
    have hrest : (fun j => (Function.update st.ents k
        (some ((pack_into A n b st.base.w).1.replace path e)) j).elim 0 owned) =
        fun j => (st.ents j).elim 0 owned := by
      rw [rest_update, Option.elim_some, hnew, hp.same, ← hold]
      exact Function.update_eq_self_iff.mpr (by simp [he])
    have hset := owned_set h hp.leaves
    simp only [State.put, Inv]
    rw [hrest]
    exact hset
  | unpack k path p len fuel =>
    simp only [step, Option.bind_eq_bind, Option.pure_def, Option.bind_eq_some_iff,
      Option.some.injEq] at hs
    obtain ⟨⟨e, n⟩, hn, ⟨n', w', r⟩, hr, rfl⟩ := hs
    exact inv_put h hn fun s hi => unpack_yields A hk hi (hf (e, n) hn) hr

/-! ## The law of all runs -/

/-- In each run whose calls meet the condition, all memory goes back the way it came. -/
theorem memory_goes_back_the_way_it_came (A : Allocator) (canary_sz n₁ n₂ n₃ n₄ n₅ : Nat)
    (mem : Nat → UInt8) (ops : List op)
    (hops : lib.run.Meets (step A) Fits
      (start (memPool.init A canary_sz n₁ n₂ n₃ n₄ n₅) mem) ops) :
    lib.run.Always (step A) Paired (start (memPool.init A canary_sz n₁ n₂ n₃ n₄ n₅) mem) ops :=
  (lib.run.always_of_meets (fun _ _ _ h hf hs => inv_step A h hf hs)
    (inv_start A canary_sz n₁ n₂ n₃ n₄ n₅ mem) hops).mono fun _ h => inv_paired h

/-- A container with one number is packed into a buffer that has a chunk of the pool. The buffer and
the container go. -/
def packed_into_a_buffer : List op :=
  [.buf (.ctor 0 20), .make 0, .container 0 [] 1, .make 1, .set_num 1 [] 2 3 7, .add 0 [] 1,
    .pack_into 0 [] 0, .buf (.dtor 0), .destroy 0]

theorem a_pool_with_chunks_is_paired :
    lib.run.Always (step bump) Paired
      (start (memPool.init bump 0 1 0 0 0 0) fun _ => 0) packed_into_a_buffer :=
  memory_goes_back_the_way_it_came bump 0 1 0 0 0 0 (fun _ => 0) packed_into_a_buffer (by
    simp only [memPool.init, counts, memPool.allocate,
      init_memory_eq bump _ _ _ (bucket_id.sz_pos _)]
    decide +kernel)

/-- A container with one number is packed, and then it goes. -/
def packed_container : List op :=
  [.make 0, .container 0 [] 1, .make 1, .set_num 1 [] 2 3 7, .add 0 [] 1, .pack 0 [], .destroy 0]

/-- A pool with 16 chunks of 32 bytes and a few others. `pack` needs 16 bytes where 6 were
attached, so the work buffer gets a chunk of the pool, and `delete[]` gets the chunk. -/
theorem a_chunk_is_deleted :
    ((lib.run.exec (step bump) (start (memPool.init bump 0 1 0 0 0 0) fun _ => 0)
      packed_container).map fun st => st.base.w.pool.heap.bad.length) = some 1 := by
  simp only [memPool.init, counts, memPool.allocate,
    init_memory_eq bump _ _ _ (bucket_id.sz_pos _)]
  decide +kernel

/-- Without the condition, a chunk of the pool goes to `delete[]`. -/
theorem pack_breaks_the_pairing :
    ¬ ∀ (A : Allocator) (canary_sz n₁ n₂ n₃ n₄ n₅ : Nat) (mem : Nat → UInt8) (ops : List op),
      lib.run.Always (step A) Paired
        (start (memPool.init A canary_sz n₁ n₂ n₃ n₄ n₅) mem) ops := by
  intro hall
  obtain ⟨st, hst, hbad⟩ := Option.map_eq_some_iff.mp a_chunk_is_deleted
  have hpaired := lib.run.always_exec (hall bump 0 1 0 0 0 0 (fun _ => 0) packed_container) hst
  rw [hpaired.no_bad_free] at hbad
  cases hbad

end socle.pairing
