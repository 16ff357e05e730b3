-- Unpacking of hostile bytes. `Chain` says, of the bytes alone, when the loop
-- over the sub-entries stays in the payload. It is exact: with it `unpack` is
-- bounded, and without it `unpack` reads or adds what is not there.
import Mathlib.Tactic
import Socle.LtvEntry

namespace socle.ltv

open lib.bytes

/-! ## What a bounded unpack is -/

/-- The memory from 0 on, of which `size` bytes may be read. -/
def block (mem : Nat → UInt8) (size : Nat) : pointer where
  mem := mem
  size := size

/-- Each read stays in the block that it reads. -/
def InBounds (reads : List read) : Prop :=
  ∀ r ∈ reads, r.p.off + r.n ≤ r.p.size

/-- The sub-entry was unpacked from the payload of the entry of `len` bytes at `data`. -/
def Inside (data : Option pointer) (len : Nat) (c : LTVEntry) : Prop :=
  ∃ p k, data = some p ∧ c.data_ = some (p.add k) ∧ c.len_ = ltv_get_length (p.add k) ∧
    ltv_header_size ≤ c.len_ ∧ ltv_header_size ≤ k ∧ k + c.len_ ≤ len

/-- The two entries share no byte. -/
def Apart (c d : LTVEntry) : Prop :=
  ∀ p q, c.data_ = some p → d.data_ = some q →
    p.off + c.len_ ≤ q.off ∨ q.off + d.len_ ≤ p.off

/-- The sub-entries `subs` of an entry, and what they contain, lie where they should. -/
inductive Proper : Option pointer → Nat → List LTVEntry → Prop
  | mk {data : Option pointer} {len : Nat} {subs : List LTVEntry}
      (inside : ∀ c ∈ subs, Inside data len c) (apart : subs.Pairwise Apart)
      (below : ∀ c ∈ subs, Proper c.data_ c.len_ c.contains_) : Proper data len subs

/-- `unpack` comes to an end, reads no byte outside of the buffer or of the copy that it took, and
each sub-entry that it adds is in its place. -/
def Bounded (heap : Nat → UInt8) (e : LTVEntry) (mem : Nat → UInt8) (buflen : Nat) : Prop :=
  ∃ fuel u red reads added, unpack heap fuel e (block mem buflen) buflen = some (u, red, reads) ∧
    InBounds reads ∧ u.contains_ = e.contains_ ++ added ∧ Proper u.data_ u.len_ added

/-! ## The condition -/

/-- What the bytes of a payload must be from `idx` on. `data` is where the payload starts. -/
inductive Chain : pointer → Nat → Nat → Prop
  -- the loop stops at a length that is longer than the whole payload
  | long {data : pointer} {payload_len idx : Nat} (room : 4 ≤ payload_len)
      (bound : (data.add idx).off + 4 ≤ data.size)
      (stops : payload_len < ltv_get_length (data.add idx)) : Chain data payload_len idx
  -- the loop stops at a length of 0
  | zero {data : pointer} {payload_len idx : Nat} (room : 4 ≤ payload_len)
      (bound : (data.add idx).off + 6 ≤ data.size)
      (stops : ltv_get_length (data.add idx) = 0) : Chain data payload_len idx
  -- a whole entry, its own payload, and the rest
  | entry {data : pointer} {payload_len idx : Nat}
      (header : 6 ≤ ltv_get_length (data.add idx))
      (fits : idx + ltv_get_length (data.add idx) ≤ payload_len)
      (inner : ltv_get_type (data.add idx) = typ.cont → 6 < ltv_get_length (data.add idx) →
        Chain (ltv_get_data_ptr (data.add idx)) (ltv_get_length (data.add idx) - 6) 0)
      (next : idx + ltv_get_length (data.add idx) < payload_len →
        Chain data payload_len (idx + ltv_get_length (data.add idx))) :
      Chain data payload_len idx

/-- What the bytes of the buffer must be. An owner has only its own bytes to read on from. -/
def Fits (owner : Bool) (mem : Nat → UInt8) (buflen : Nat) : Prop :=
  let len := ltv_get_length (block mem buflen)
  buflen < 4 ∨ buflen < len ∨
    (6 ≤ buflen ∧ (ltv_get_type (block mem buflen) = typ.cont → 6 < len →
      Chain (ltv_get_data_ptr (block mem (if owner then len else buflen))) (len - 6) 0))

/-! ## One call -/

theorem length_lt (p : pointer) : ltv_get_length p < 2 ^ 32 :=
  be32_lt _ _ _ _

/-- What a call gives. -/
theorem unpack_cases {heap : Nat → UInt8} {fuel buflen : Nat} {e u : LTVEntry} {p : pointer}
    {red : Int} {reads : List read} (h : unpack heap fuel e p buflen = some (u, red, reads)) :
    (buflen < 4 ∧ u = e ∧ red = -1 ∧ reads = []) ∨
    (4 ≤ buflen ∧ buflen < ltv_get_length p ∧ u = e.look p ∧ red = 0 ∧ reads = [⟨p, 4⟩]) ∨
    (4 ≤ buflen ∧ ltv_get_length p ≤ buflen ∧ red = int_of (ltv_get_length p) ∧
      ∃ subs more, u = (e.take heap p).push_all subs ∧ reads = e.take_reads p ++ more ∧
        (((e.take heap p).type_ = typ.cont ∧ ltv_get_length p > ltv_header_size ∧
          ∃ f < fuel, dig heap f (ltv_get_data_ptr (e.take_data heap p))
            (ltv_get_length p - ltv_header_size) 0 = some (subs, more)) ∨
        (¬ ((e.take heap p).type_ = typ.cont ∧ ltv_get_length p > ltv_header_size) ∧
          subs = [] ∧ more = []))) := by
  cases fuel with
  | zero => rw [unpack] at h; cases h
  | succ fuel =>
    rw [unpack_succ] at h
    split at h
    next hshort =>
      cases h
      exact Or.inl ⟨hshort, rfl, rfl, rfl⟩
    next hshort =>
      refine Or.inr ?_
      split at h
      next hmore =>
        cases h
        exact Or.inl ⟨by omega, hmore, rfl, rfl, rfl⟩
      next hmore =>
        refine Or.inr ⟨by omega, by omega, ?_⟩
        split at h
        next hcont =>
          obtain ⟨⟨subs, more⟩, hdig, heq⟩ := Option.map_eq_some_iff.mp h
          cases heq
          exact ⟨rfl, subs, more, rfl, rfl,
            Or.inl ⟨hcont.1, hcont.2, fuel, Nat.lt_succ_self fuel, hdig⟩⟩
        next hcont =>
          cases h
          exact ⟨rfl, [], [], (LTVEntry.push_all_nil _).symm, (List.append_nil _).symm,
            Or.inr ⟨hcont, rfl, rfl⟩⟩

/-- What a turn of the loop gives. -/
theorem dig_cases {heap : Nat → UInt8} {fuel payload_len idx : Nat} {data : pointer}
    {subs : List LTVEntry} {reads : List read}
    (h : dig heap fuel data payload_len idx = some (subs, reads)) :
    ∃ f < fuel, ∃ l red first,
      unpack heap f { owner_ := false } (data.add idx) payload_len = some (l, red, first) ∧
      ((unsigned_of red = 0 ∧ subs = [] ∧ reads = first) ∨
       (0 < unsigned_of red ∧ payload_len ≤ (idx + unsigned_of red) % 2 ^ 32 ∧
          subs = [l] ∧ reads = first) ∨
       (0 < unsigned_of red ∧ (idx + unsigned_of red) % 2 ^ 32 < payload_len ∧ ∃ rest more,
          dig heap f data payload_len ((idx + unsigned_of red) % 2 ^ 32) = some (rest, more) ∧
          subs = l :: rest ∧ reads = first ++ more)) := by
  cases fuel with
  | zero => rw [dig] at h; cases h
  | succ fuel =>
    rw [dig_succ] at h
    obtain ⟨⟨l, red, first⟩, hunpack, h⟩ := Option.bind_eq_some_iff.mp h
    refine ⟨fuel, Nat.lt_succ_self fuel, l, red, first, hunpack, ?_⟩
    simp only at h
    split at h
    next hpos =>
      refine Or.inr ?_
      split at h
      next hend =>
        cases h
        exact Or.inl ⟨hpos, hend, rfl, rfl⟩
      next hend =>
        obtain ⟨⟨rest, more⟩, hrest, heq⟩ := Option.map_eq_some_iff.mp h
        cases heq
        exact Or.inr ⟨hpos, by omega, rest, more, hrest, rfl, rfl⟩
    next hpos =>
      cases h
      exact Or.inl ⟨by omega, rfl, rfl⟩

/-! ## Reads -/

theorem in_bounds_append {r s : List read} : InBounds (r ++ s) ↔ InBounds r ∧ InBounds s :=
  List.forall_mem_append

theorem take_reads_in {e : LTVEntry} {p : pointer} (hheader : p.off + 6 ≤ p.size)
    (howner : e.owner_ = true → p.off + ltv_get_length p ≤ p.size) : InBounds (e.take_reads p) := by
  intro r hr
  unfold LTVEntry.take_reads at hr
  simp only [List.cons_append, List.nil_append, List.mem_cons] at hr
  rcases hr with rfl | rfl | hr
  · exact Nat.le_trans (Nat.add_le_add_left (show 4 ≤ 6 by decide) p.off) hheader
  · exact hheader
  · split at hr
    next hown =>
      rw [List.mem_singleton] at hr
      rw [hr]
      exact howner hown
    next => cases hr

/-! ## With the condition, unpacking is bounded -/

/-- The sub-entries that the loop adds from `idx` on. -/
structure Laid (data : pointer) (payload_len idx : Nat) (subs : List LTVEntry) : Prop where
  each : ∀ c ∈ subs, ∃ k, c.data_ = some (data.add k) ∧ c.len_ = ltv_get_length (data.add k) ∧
    idx ≤ k ∧ 6 ≤ c.len_ ∧ k + c.len_ ≤ payload_len
  apart : subs.Pairwise Apart
  below : ∀ c ∈ subs, Proper c.data_ c.len_ c.contains_

theorem laid_nil (data : pointer) (payload_len idx : Nat) : Laid data payload_len idx [] where
  each := fun c hc => by cases hc
  apart := List.Pairwise.nil
  below := fun c hc => by cases hc

theorem laid_proper {p : pointer} {len : Nat} {subs : List LTVEntry}
    (h : Laid (ltv_get_data_ptr p) (len - 6) 0 subs) : Proper (some p) len subs := by
  refine Proper.mk (fun c hc => ?_) h.apart h.below
  obtain ⟨k, hdata, hlen, -, hheader, hend⟩ := h.each c hc
  unfold ltv_get_data_ptr at hdata hlen
  rw [pointer.add_add] at hdata hlen
  refine ⟨p, 6 + k, rfl, hdata, hlen, hheader, Nat.le_add_right 6 k, ?_⟩
  omega

/-- An entry at `idx`, and the entries behind it. -/
theorem laid_cons {data : pointer} {payload_len idx : Nat} {u : LTVEntry} {rest : List LTVEntry}
    (hdata : u.data_ = some (data.add idx)) (hlen : u.len_ = ltv_get_length (data.add idx))
    (hheader : 6 ≤ u.len_) (hend : idx + u.len_ ≤ payload_len)
    (hbelow : Proper u.data_ u.len_ u.contains_) (hrest : Laid data payload_len (idx + u.len_) rest) :
    Laid data payload_len idx (u :: rest) := by
  constructor
  · intro c hc
    rcases List.mem_cons.mp hc with rfl | hc
    · exact ⟨idx, hdata, hlen, Nat.le_refl idx, hheader, hend⟩
    · obtain ⟨k, hk, hklen, hle, hmin, hmax⟩ := hrest.each c hc
      exact ⟨k, hk, hklen, by omega, hmin, hmax⟩
  · refine List.pairwise_cons.mpr ⟨fun c hc p q hp hq => Or.inl ?_, hrest.apart⟩
    obtain ⟨k, hk, -, hle, -, -⟩ := hrest.each c hc
    rw [hdata] at hp
    rw [hk] at hq
    cases hp
    cases hq
    unfold pointer.add
    simp only
    omega
  · intro c hc
    rcases List.mem_cons.mp hc with rfl | hc
    · exact hbelow
    · exact hrest.below c hc

/-- A call that has all bytes of the entry, when its own loop is bounded. -/
theorem unpack_bounded (heap : Nat → UInt8) (fuel buflen : Nat) (e : LTVEntry) (p : pointer)
    (hroom : 4 ≤ buflen) (hlen : ltv_get_length p ≤ buflen) (hreads : InBounds (e.take_reads p))
    (hinner : ltv_get_type p = typ.cont → 6 < ltv_get_length p → ∃ subs more,
      dig heap fuel (ltv_get_data_ptr (e.take_data heap p)) (ltv_get_length p - 6) 0 =
        some (subs, more) ∧ InBounds more ∧
      Laid (ltv_get_data_ptr (e.take_data heap p)) (ltv_get_length p - 6) 0 subs) :
    ∃ u reads added, unpack heap (fuel + 1) e p buflen = some (u, int_of (ltv_get_length p), reads) ∧
      InBounds reads ∧ u.contains_ = e.contains_ ++ added ∧ u.data_ = some (e.take_data heap p) ∧
      u.len_ = ltv_get_length p ∧ Proper u.data_ u.len_ added := by
  rw [unpack_succ, if_neg (by omega), if_neg (by omega)]
  by_cases hcont : (e.take heap p).type_ = typ.cont ∧ ltv_get_length p > ltv_header_size
  · obtain ⟨subs, more, hdig, hmore, hlaid⟩ := hinner hcont.1 hcont.2
    refine ⟨(e.take heap p).push_all subs, e.take_reads p ++ more, subs, ?_,
      in_bounds_append.mpr ⟨hreads, hmore⟩, rfl, rfl, rfl, laid_proper hlaid⟩
    rw [if_pos hcont]
    exact Option.map_eq_some_iff.mpr ⟨(subs, more), hdig, rfl⟩
  · refine ⟨e.take heap p, e.take_reads p, [], if_neg hcont, hreads, (List.append_nil _).symm,
      rfl, rfl, ?_⟩
    exact laid_proper (laid_nil _ _ _)

theorem chain_bounded {data : pointer} {payload_len idx : Nat} (h : Chain data payload_len idx)
    (heap : Nat → UInt8) : ∀ fuel, data.off + payload_len ≤ data.size → payload_len < 2 ^ 32 →
      idx < payload_len → payload_len - idx < fuel →
      ∃ subs reads, dig heap fuel data payload_len idx = some (subs, reads) ∧ InBounds reads ∧
        Laid data payload_len idx subs := by
  induction h with
  | @long data payload_len idx room bound stops =>
    intro fuel hsize hbits hidx hfuel
    obtain ⟨fuel, rfl⟩ : ∃ f, fuel = f + 2 := ⟨fuel - 2, by omega⟩
    refine ⟨[], [⟨data.add idx, 4⟩], ?_, ?_, laid_nil _ _ _⟩
    · rw [dig_succ, unpack_succ, if_neg (by omega), if_pos stops]
      rfl
    · intro r hr
      rw [List.mem_singleton] at hr
      rw [hr]
      exact bound
  | @zero data payload_len idx room bound stops =>
    intro fuel hsize hbits hidx hfuel
    obtain ⟨fuel, rfl⟩ : ∃ f, fuel = f + 2 := ⟨fuel - 2, by omega⟩
    refine ⟨[], ({ owner_ := false } : LTVEntry).take_reads (data.add idx), ?_,
      take_reads_in bound (fun h => by cases h), laid_nil _ _ _⟩
    rw [dig_succ, unpack_succ, if_neg (by omega), if_neg (by omega), if_neg]
    · rw [stops]
      rfl
    · rw [stops]
      exact fun hc => absurd hc.2 (by decide)
  | @entry data payload_len idx header fits inner next ihinner ihnext =>
    intro fuel hsize hbits hidx hfuel
    obtain ⟨fuel, rfl⟩ : ∃ f, fuel = f + 2 := ⟨fuel - 2, by omega⟩
    have hoff : (data.add idx).off = data.off + idx := rfl
    have hblock : (data.add idx).size = data.size := rfl
    obtain ⟨u, reads, added, hunpack, hreads, hadded, hdata, hlen, hproper⟩ :=
      unpack_bounded heap fuel payload_len { owner_ := false } (data.add idx) (by omega) (by omega)
        (take_reads_in (by omega) (fun h => by cases h)) (fun hcont hmore => by
          apply ihinner hcont hmore fuel
          · change (data.add idx).off + 6 + _ ≤ (data.add idx).size
            omega
          · omega
          · omega
          · omega)
    have hdig := dig_adds hunpack (by omega) (by omega)
    have hbelow : Proper u.data_ u.len_ u.contains_ := by
      rw [hadded]
      exact hproper
    by_cases hend : idx + ltv_get_length (data.add idx) ≥ payload_len
    · refine ⟨[u], reads, by rw [hdig, if_pos hend], hreads, ?_⟩
      exact laid_cons hdata hlen (by omega) (by omega) hbelow (laid_nil _ _ _)
    · obtain ⟨rest, more, hrest, hmore, hlaid⟩ := ihnext (by omega) (fuel + 1) hsize hbits
        (by omega) (by omega)
      refine ⟨u :: rest, reads ++ more, ?_, in_bounds_append.mpr ⟨hreads, hmore⟩, ?_⟩
      · rw [hdig, if_neg hend, hrest]
        rfl
      · rw [← hlen] at hlaid
        exact laid_cons hdata hlen (by omega) (by omega) hbelow hlaid

/-! ## A bounded unpack has the condition -/

/-- The same place, counted from the payload. -/
theorem inside_payload {p : pointer} {len : Nat} {c : LTVEntry} (h : Inside (some p) len c) :
    ∃ k, c.data_ = some ((ltv_get_data_ptr p).add k) ∧ 6 ≤ c.len_ ∧ k + c.len_ ≤ len - 6 := by
  obtain ⟨q, k, hp, hdata, -, hmin, hhead, hmax⟩ := h
  cases hp
  unfold ltv_header_size at hmin hhead
  refine ⟨k - 6, ?_, hmin, by omega⟩
  unfold ltv_get_data_ptr
  rw [pointer.add_add, Nat.add_sub_cancel' hhead]
  exact hdata

theorem bounded_chain {heap : Nat → UInt8} (fuel : Nat) : ∀ {data : pointer} {payload_len idx : Nat}
    {subs : List LTVEntry} {reads : List read},
    dig heap fuel data payload_len idx = some (subs, reads) → payload_len < 2 ^ 32 →
    InBounds reads →
    (∀ c ∈ subs, ∃ k, c.data_ = some (data.add k) ∧ 6 ≤ c.len_ ∧ k + c.len_ ≤ payload_len) →
    (∀ c ∈ subs, Proper c.data_ c.len_ c.contains_) → Chain data payload_len idx := by
  induction fuel using Nat.strongRecOn with
  | ind fuel ih =>
    intro data payload_len idx subs reads h hbits hreads heach hbelow
    obtain ⟨f, hf, l, red, first, hunpack, hturn⟩ := dig_cases h
    have hfirst : InBounds first := by
      rcases hturn with ⟨-, -, rfl⟩ | ⟨-, -, -, rfl⟩ | ⟨-, -, rest, more, -, -, rfl⟩
      · exact hreads
      · exact hreads
      · exact (in_bounds_append.mp hreads).1
    -- what is added is at `idx`
    have hadded : 0 < unsigned_of red → l ∈ subs := by
      intro hpos
      rcases hturn with ⟨hzero, -, -⟩ | ⟨-, -, rfl, -⟩ | ⟨-, -, rest, more, -, rfl, -⟩
      · omega
      · exact List.mem_cons_self
      · exact List.mem_cons_self
    rcases unpack_cases hunpack with ⟨hshort, rfl, rfl, rfl⟩ | ⟨hroom, hmore, rfl, rfl, rfl⟩ |
      ⟨hroom, hle, rfl, own, more, rfl, rfl, hown⟩
    · -- the error is taken for a length
      obtain ⟨k, hdata, -, -⟩ := heach _ (hadded (by decide))
      cases hdata
    · exact Chain.long hroom (hfirst _ List.mem_cons_self) hmore
    · rw [unsigned_of_int_of (length_lt _)] at hturn hadded
      have htake := (in_bounds_append.mp hfirst).1
      by_cases hzero : ltv_get_length (data.add idx) = 0
      · refine Chain.zero hroom ?_ hzero
        exact htake ⟨(data.add idx).add 4, 2⟩ (List.mem_cons_of_mem _ List.mem_cons_self)
      · have hmem := hadded (by omega)
        obtain ⟨k, hdata, hheader, hend⟩ := heach _ hmem
        have hk : idx = k := pointer.add_inj (Option.some.inj hdata)
        subst hk
        have hfits : idx + ltv_get_length (data.add idx) ≤ payload_len := hend
        refine Chain.entry hheader hfits (fun hcont hlong => ?_) (fun hnext => ?_)
        · rcases hown with ⟨-, -, g, hg, hdig⟩ | ⟨hnot, -, -⟩
          · have hproper := hbelow _ hmem
            cases hproper with
            | mk inside apart below =>
              exact ih g (by omega) hdig (by omega) (in_bounds_append.mp hfirst).2
                (fun c hc => inside_payload (inside c hc)) below
          · exact absurd ⟨hcont, hlong⟩ hnot
        · rcases hturn with ⟨hz, -, -⟩ | ⟨-, hstop, -, -⟩ | ⟨-, -, rest, others, hrest, rfl, rfl⟩
          · omega
          · rw [Nat.mod_eq_of_lt (by omega)] at hstop
            omega
          · rw [Nat.mod_eq_of_lt (by omega)] at hrest
            exact ih f hf hrest hbits (in_bounds_append.mp hreads).2
              (fun c hc => heach c (List.mem_cons_of_mem _ hc))
              (fun c hc => hbelow c (List.mem_cons_of_mem _ hc))

/-! ## The whole buffer -/

theorem length_congr {p q : pointer} (hoff : q.off = p.off)
    (hmem : ∀ a < p.off + 4, q.mem a = p.mem a) : ltv_get_length q = ltv_get_length p := by
  unfold ltv_get_length pointer.byte
  rw [hoff, hmem _ (by omega), hmem _ (by omega), hmem _ (by omega), hmem _ (by omega)]

theorem type_congr {p q : pointer} (hoff : q.off = p.off)
    (hmem : ∀ a < p.off + 6, q.mem a = p.mem a) : ltv_get_type q = ltv_get_type p := by
  unfold ltv_get_type pointer.byte
  rw [hoff, hmem _ (by omega)]

/-- The condition is about the bytes in the block only. -/
theorem chain_congr {data : pointer} {payload_len idx : Nat} (h : Chain data payload_len idx) :
    ∀ data' : pointer, data'.off = data.off → data'.size = data.size →
      (∀ a < data.size, data'.mem a = data.mem a) → data.off + payload_len ≤ data.size →
      Chain data' payload_len idx := by
  induction h with
  | @long data payload_len idx room bound stops =>
    intro data' hoff hsize hmem hpayload
    have hlocal : (data'.add idx).off = (data.add idx).off := congrArg (· + idx) hoff
    have hlength := length_congr hlocal (fun a ha => hmem a (by omega))
    exact Chain.long room (by rw [hlocal, hsize]; exact bound) (by rw [hlength]; exact stops)
  | @zero data payload_len idx room bound stops =>
    intro data' hoff hsize hmem hpayload
    have hlocal : (data'.add idx).off = (data.add idx).off := congrArg (· + idx) hoff
    have hlength := length_congr hlocal (fun a ha => hmem a (by omega))
    exact Chain.zero room (by rw [hlocal, hsize]; exact bound) (by rw [hlength]; exact stops)
  | @entry data payload_len idx header fits inner next ihinner ihnext =>
    intro data' hoff hsize hmem hpayload
    have hlocal : (data'.add idx).off = (data.add idx).off := congrArg (· + idx) hoff
    have hplace : (data.add idx).off = data.off + idx := rfl
    have hlength := length_congr hlocal (fun a ha => hmem a (by omega))
    have htype := type_congr hlocal (fun a ha => hmem a (by omega))
    apply Chain.entry
    · rw [hlength]
      exact header
    · rw [hlength]
      exact fits
    · rw [hlength, htype]
      intro hcont hlong
      apply ihinner hcont hlong (ltv_get_data_ptr (data'.add idx)) (congrArg (· + 6) hlocal) hsize hmem
      change (data.add idx).off + 6 + _ ≤ data.size
      omega
    · rw [hlength]
      exact fun hnext => ihnext hnext data' hoff hsize hmem hpayload

/-- Where the bytes of the entry are: the copy of an owner has the same bytes. -/
theorem take_data_same (heap : Nat → UInt8) (e : LTVEntry) (mem : Nat → UInt8) (buflen : Nat) :
    let len := ltv_get_length (block mem buflen)
    let room := if e.owner_ then len else buflen
    (e.take_data heap (block mem buflen)).off = 0 ∧
      (e.take_data heap (block mem buflen)).size = room ∧
      ∀ a < room, (e.take_data heap (block mem buflen)).mem a = mem a := by
  intro len room
  unfold LTVEntry.take_data
  by_cases hown : e.owner_ = true
  · have hroom : room = len := if_pos hown
    rw [if_pos hown, hroom]
    refine ⟨rfl, rfl, fun a ha => ?_⟩
    have hput := holds_put heap 0 (slice mem 0 len)
    have hat := get_of_holds hput (i := a) (by rw [slice_length]; exact ha)
    rw [Nat.zero_add] at hat
    refine hat.trans ?_
    simp [slice]
  · have hroom : room = buflen := if_neg hown
    rw [if_neg hown, hroom]
    exact ⟨rfl, rfl, fun a _ => rfl⟩

theorem chain_take_data (heap : Nat → UInt8) (e : LTVEntry) (mem : Nat → UInt8) {buflen : Nat}
    (hlong : 6 < ltv_get_length (block mem buflen))
    (hle : ltv_get_length (block mem buflen) ≤ buflen) :
    Chain (ltv_get_data_ptr (e.take_data heap (block mem buflen)))
        (ltv_get_length (block mem buflen) - 6) 0 ↔
      Chain (ltv_get_data_ptr
          (block mem (if e.owner_ then ltv_get_length (block mem buflen) else buflen)))
        (ltv_get_length (block mem buflen) - 6) 0 := by
  obtain ⟨hoff, hsize, hmem⟩ := take_data_same heap e mem buflen
  have hroom : ltv_get_length (block mem buflen) ≤
      if e.owner_ then ltv_get_length (block mem buflen) else buflen := by
    split
    · exact Nat.le_refl _
    · exact hle
  have hplace : (ltv_get_data_ptr (e.take_data heap (block mem buflen))).off = 6 := by
    unfold ltv_get_data_ptr pointer.add
    simp only [hoff]
  constructor
  · intro h
    refine chain_congr h _ hplace.symm hsize.symm (fun a ha => ?_) ?_
    · exact (hmem a (Nat.lt_of_lt_of_eq ha hsize)).symm
    · rw [hplace]
      change 6 + _ ≤ (e.take_data heap (block mem buflen)).size
      omega
  · intro h
    refine chain_congr h _ hplace hsize (fun a ha => hmem a ha) ?_
    change 0 + 6 + _ ≤ (if e.owner_ then ltv_get_length (block mem buflen) else buflen)
    omega

theorem fits_bounded {e : LTVEntry} {mem : Nat → UInt8} {buflen : Nat}
    (h : Fits e.owner_ mem buflen) (heap : Nat → UInt8) : Bounded heap e mem buflen := by
  unfold Fits at h
  simp only at h
  by_cases hshort : buflen < 4
  · refine ⟨1, e, -1, [], [], ?_, (fun r hr => by cases hr), (List.append_nil _).symm, ?_⟩
    · rw [unpack_succ, if_pos hshort]
    · exact Proper.mk (fun c hc => by cases hc) List.Pairwise.nil (fun c hc => by cases hc)
  by_cases hmore : buflen < ltv_get_length (block mem buflen)
  · refine ⟨1, e.look (block mem buflen), 0, [⟨block mem buflen, 4⟩], [], ?_, ?_,
      (List.append_nil _).symm, ?_⟩
    · rw [unpack_succ, if_neg hshort, if_pos hmore]
    · intro r hr
      rw [List.mem_singleton] at hr
      rw [hr]
      change 0 + 4 ≤ buflen
      omega
    · exact Proper.mk (fun c hc => by cases hc) List.Pairwise.nil (fun c hc => by cases hc)
  obtain ⟨hheader, hchain⟩ := (h.resolve_left hshort).resolve_left hmore
  have hle : ltv_get_length (block mem buflen) ≤ buflen := by omega
  obtain ⟨u, reads, added, hunpack, hreads, hadded, -, hlen, hproper⟩ :=
    unpack_bounded heap (ltv_get_length (block mem buflen)) buflen e (block mem buflen) (by omega) hle
      (take_reads_in (by change 0 + 6 ≤ buflen; omega) (fun _ => by
        change 0 + _ ≤ buflen
        omega))
      (fun hcont hlong => by
        obtain ⟨hoff, hsize, -⟩ := take_data_same heap e mem buflen
        have hbits := length_lt (block mem buflen)
        apply chain_bounded ((chain_take_data heap e mem hlong hle).mpr (hchain hcont hlong))
        · change (e.take_data heap (block mem buflen)).off + 6 + _ ≤
            (e.take_data heap (block mem buflen)).size
          rw [hoff, hsize]
          split
          · omega
          · omega
        · omega
        · omega
        · omega)
  exact ⟨_, u, _, reads, added, hunpack, hreads, hadded, hproper⟩

theorem bounded_fits {e : LTVEntry} {mem : Nat → UInt8} {buflen : Nat} {heap : Nat → UInt8}
    (h : Bounded heap e mem buflen) : Fits e.owner_ mem buflen := by
  obtain ⟨fuel, u, red, reads, added, hunpack, hreads, hadded, hproper⟩ := h
  have hbits := length_lt (block mem buflen)
  rcases unpack_cases hunpack with ⟨hshort, -⟩ | ⟨-, hmore, -⟩ |
    ⟨hroom, hle, rfl, subs, more, rfl, rfl, hown⟩
  · exact Or.inl hshort
  · exact Or.inr (Or.inl hmore)
  · obtain ⟨htake, hmore⟩ := in_bounds_append.mp hreads
    have hsix : 0 + 4 + 2 ≤ buflen :=
      htake ⟨(block mem buflen).add 4, 2⟩ (List.mem_cons_of_mem _ List.mem_cons_self)
    refine Or.inr (Or.inr ⟨hsix, fun hcont hlong => ?_⟩)
    rcases hown with ⟨-, -, f, -, hdig⟩ | ⟨hnot, -, -⟩
    · have hsame : subs = added := List.append_cancel_left hadded
      rw [← hsame] at hproper
      cases hproper with
      | mk inside apart below =>
        exact (chain_take_data heap e mem hlong hle).mp
          (bounded_chain f hdig (by omega) hmore (fun c hc => inside_payload (inside c hc)) below)
    · exact absurd ⟨hcont, hlong⟩ hnot

/-- Unpacking is bounded when, and only when, the bytes are as the condition says. -/
theorem unpack_bounded_when (heap : Nat → UInt8) (e : LTVEntry) (mem : Nat → UInt8) (buflen : Nat) :
    Bounded heap e mem buflen ↔ Fits e.owner_ mem buflen :=
  ⟨bounded_fits, fun h => fits_bounded h heap⟩

/-- A container with a payload of one byte. -/
def one_byte_payload : Nat → UInt8 := fun a => [0, 0, 0, 7, 1, 6, 0].getD a 0

/-- The sub-entry cannot be unpacked, and its error is added as a length. -/
theorem an_error_is_added :
    ¬ ∀ (heap : Nat → UInt8) (e : LTVEntry) (mem : Nat → UInt8) (buflen : Nat),
      Bounded heap e mem buflen := by
  intro hall
  have hfits := bounded_fits (hall (fun _ => 0) {} one_byte_payload 7)
  have hlen : ltv_get_length (block one_byte_payload 7) = 7 := by decide
  unfold Fits at hfits
  simp only [hlen] at hfits
  rcases hfits with hshort | hmore | ⟨-, hchain⟩
  · omega
  · omega
  · have hone := hchain (by decide) (by decide)
    cases hone with
    | long room => omega
    | zero room => omega
    | entry header fits => omega

end socle.ltv
