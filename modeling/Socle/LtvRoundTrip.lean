-- The round trip of the packets. A tree is what a packet says; `encode` writes
-- it without back-patching. `pack` writes the same bytes, and `unpack` reads the
-- tree back from them.
import Mathlib.Tactic
import Socle.LtvEntry

namespace socle.ltv

open lib.bytes

/-! ## Trees -/

/-- What an entry says. A scalar has another type than a container. -/
inductive tree where
  | container (id : UInt8) (subs : List tree)
  | scalar (id type : UInt8) (not_cont : type ≠ typ.cont) (payload : List UInt8)

mutual

/-- The bytes of a tree. -/
def encode : tree → List UInt8
  | .container id subs =>
    header (ltv_header_size + (encode_all subs).length) id typ.cont ++ encode_all subs
  | .scalar id type _ payload => header (ltv_header_size + payload.length) id type ++ payload

def encode_all : List tree → List UInt8
  | [] => []
  | t :: rest => encode t ++ encode_all rest

end

/-- The bytes behind the header, as `data()` and `datalen()` give them. -/
def LTVEntry.payload (e : LTVEntry) : List UInt8 :=
  match e.data_ with
  | some p => (ltv_get_data_ptr p).bytes (e.len_ - ltv_header_size)
  | none => []

mutual

/-- What the entry says. -/
def LTVEntry.view : LTVEntry → tree
  | ⟨contains, len, id, type, data, owner⟩ =>
    let e : LTVEntry := ⟨contains, len, id, type, data, owner⟩
    if h : type = typ.cont then .container id (view_all contains)
    else .scalar id type h e.payload

def view_all : List LTVEntry → List tree
  | [] => []
  | c :: rest => c.view :: view_all rest

end

/-- `e` was built as the tree `t`, and was not packed. -/
inductive Built : LTVEntry → tree → Prop
  | container (fresh : Nat → UInt8) (i : UInt8) {e : LTVEntry} (empty : e.contains_ = []) :
      Built (e.container fresh i) (.container i [])
  | add {e c : LTVEntry} {i : UInt8} {subs : List tree} {t : tree}
      (parent : Built e (.container i subs)) (sub : Built c t) :
      Built (e.add c) (.container i (subs ++ [t]))
  | set_str (fresh : Nat → UInt8) (i : UInt8) {t : UInt8} (h : t ≠ typ.cont) (str : List UInt8)
      {e : LTVEntry} (empty : e.contains_ = []) :
      Built (e.set_str fresh i t str) (.scalar i t h str)
  | set_bytes (fresh : Nat → UInt8) (i : UInt8) {t : UInt8} (h : t ≠ typ.cont) (str : List UInt8)
      (size : Nat) {e e' : LTVEntry} (empty : e.contains_ = [])
      (fits : e.set_bytes fresh i t str size = some e') :
      Built e' (.scalar i t h (str ++ .replicate (size - str.length) 0))
  | set_num (fresh : Nat → UInt8) (i : UInt8) {t : UInt8} (h : t ≠ typ.cont) (d : Nat)
      {e : LTVEntry} (empty : e.contains_ = []) :
      Built (e.set_num fresh i t d) (.scalar i t h (u32 d))

/-! ## Encoding -/

@[simp] theorem header_length (len : Nat) (id type : UInt8) : (header len id type).length = 6 := rfl

theorem encode_container (id : UInt8) (subs : List tree) :
    encode (.container id subs) =
      header (ltv_header_size + (encode_all subs).length) id typ.cont ++ encode_all subs := by
  rw [encode]

theorem encode_scalar (id type : UInt8) (h : type ≠ typ.cont) (payload : List UInt8) :
    encode (.scalar id type h payload) =
      header (ltv_header_size + payload.length) id type ++ payload := by
  rw [encode]

theorem encode_all_cons (t : tree) (rest : List tree) :
    encode_all (t :: rest) = encode t ++ encode_all rest := by
  rw [encode_all]

theorem encode_all_append (ts us : List tree) :
    encode_all (ts ++ us) = encode_all ts ++ encode_all us := by
  induction ts with
  | nil => simp [encode_all]
  | cons t rest ih => rw [List.cons_append, encode_all_cons, encode_all_cons, ih, List.append_assoc]

theorem container_length (id : UInt8) (subs : List tree) :
    (encode (.container id subs)).length = 6 + (encode_all subs).length := by
  rw [encode_container, List.length_append, header_length]

theorem scalar_length (id type : UInt8) (h : type ≠ typ.cont) (payload : List UInt8) :
    (encode (.scalar id type h payload)).length = 6 + payload.length := by
  rw [encode_scalar, List.length_append, header_length]

/-- A packet has at least a header. -/
theorem header_le (t : tree) : 6 ≤ (encode t).length := by
  cases t with
  | container id subs =>
    rw [container_length]
    exact Nat.le_add_right 6 _
  | scalar id type h payload =>
    rw [scalar_length]
    exact Nat.le_add_right 6 _

theorem encode_all_pos {ts : List tree} (h : ts ≠ []) : 6 ≤ (encode_all ts).length := by
  cases ts with
  | nil => exact absurd rfl h
  | cons t rest =>
    rw [encode_all_cons, List.length_append]
    exact Nat.le_trans (header_le t) (Nat.le_add_right _ _)

/-! ## Packing writes the encoding -/

theorem set_length_at (b old rest : List UInt8) (h : old.length = 4) (len : Nat) :
    set_length (b ++ (old ++ rest)) b.length len = b ++ u32 len ++ rest := by
  unfold set_length
  rw [List.take_left, ← List.append_assoc b old rest, List.drop_left' (by simp [h])]

theorem pack_all_cons (c : LTVEntry) (rest : List LTVEntry) (b : List UInt8) :
    pack_all (c :: rest) b =
      ((pack_into c b).1 :: (pack_all rest (pack_into c b).2.1).1,
        (pack_all rest (pack_into c b).2.1).2.1,
        (pack_into c b).2.2 + (pack_all rest (pack_into c b).2.1).2.2) := by
  rw [pack_all]

theorem pack_all_append (cs ds : List LTVEntry) (b : List UInt8) :
    pack_all (cs ++ ds) b =
      ((pack_all cs b).1 ++ (pack_all ds (pack_all cs b).2.1).1,
        (pack_all ds (pack_all cs b).2.1).2.1,
        (pack_all cs b).2.2 + (pack_all ds (pack_all cs b).2.1).2.2) := by
  induction cs generalizing b with
  | nil => simp [pack_all]
  | cons c rest ih =>
    rw [List.cons_append, pack_all_cons, pack_all_cons, ih]
    simp only [List.cons_append, Nat.add_assoc]

/-- The loop over the sub-entries appends the encoding of `ts`. -/
def Appends (cs : List LTVEntry) (ts : List tree) : Prop :=
  ∀ b, (pack_all cs b).2 = (b ++ encode_all ts, (encode_all ts).length)

/-- What packing needs to know of an entry. -/
def Packs (e : LTVEntry) : tree → Prop
  | .container i subs =>
    e.type_ = typ.cont ∧ e.len_ = ltv_header_size ∧
      (∃ old : List UInt8, old.length = 4 ∧ e.buffer = old ++ [i, typ.cont]) ∧
      ((encode_all subs).length < 2 ^ 31 → Appends e.contains_ subs)
  | .scalar i t h payload =>
    e.type_ = t ∧ ((encode (.scalar i t h payload)).length < 2 ^ 31 →
      e.buffer = encode (.scalar i t h payload) ∧
        e.len_ = (encode (.scalar i t h payload)).length)

theorem pack_into_container {e : LTVEntry} (h : e.type_ = typ.cont) (b : List UInt8) :
    (pack_into e b).2 =
      (set_length (pack_all e.contains_ (b ++ e.buffer)).2.1 b.length
          ((e.len_ + (pack_all e.contains_ (b ++ e.buffer)).2.2) % 2 ^ 32),
        (e.len_ + (pack_all e.contains_ (b ++ e.buffer)).2.2) % 2 ^ 32) := by
  obtain ⟨contains, len, id, type, data, owner⟩ := e
  simp only at h
  rw [pack_into, if_pos h]

theorem pack_into_scalar {e : LTVEntry} (h : e.type_ ≠ typ.cont) (hlen : e.len_ > 0)
    (b : List UInt8) : (pack_into e b).2 = (b ++ e.buffer, e.len_) := by
  obtain ⟨contains, len, id, type, data, owner⟩ := e
  simp only at h hlen
  rw [pack_into, if_neg h, if_pos hlen]

/-- The header of a container is completed when its length is set. -/
theorem container_completes {e : LTVEntry} {i : UInt8} {subs : List tree}
    (h : Packs e (.container i subs)) (hlen : (encode (.container i subs)).length < 2 ^ 31)
    (b : List UInt8) :
    (pack_all e.contains_ (b ++ e.buffer)).2.2 + ltv_header_size =
        (encode (.container i subs)).length ∧
      set_length (pack_all e.contains_ (b ++ e.buffer)).2.1 b.length
        (encode (.container i subs)).length = b ++ encode (.container i subs) := by
  obtain ⟨-, -, ⟨old, hold, hbuffer⟩, happends⟩ := h
  have hsum := container_length i subs
  have hpack := happends (by omega) (b ++ e.buffer)
  constructor
  · rw [hpack, hsum, Nat.add_comm]
    rfl
  · rw [hpack, hbuffer]
    simp only [List.append_assoc]
    rw [set_length_at b old _ hold, hsum, encode_container]
    simp only [header, ltv_header_size, List.append_assoc]

theorem packs_into {e : LTVEntry} {t : tree} (h : Packs e t) (hlen : (encode t).length < 2 ^ 31)
    (b : List UInt8) : (pack_into e b).2 = (b ++ encode t, (encode t).length) := by
  cases t with
  | container i subs =>
    obtain ⟨hsum, hset⟩ := container_completes h hlen b
    have hmod : (e.len_ + (pack_all e.contains_ (b ++ e.buffer)).2.2) % 2 ^ 32 =
        (encode (.container i subs)).length := by
      rw [h.2.1]
      omega
    rw [pack_into_container h.1, hmod, hset]
  | scalar i t hne payload =>
    obtain ⟨htype, hscalar⟩ := h
    obtain ⟨hbuffer, hsize⟩ := hscalar hlen
    have hpos := header_le (.scalar i t hne payload)
    rw [pack_into_scalar (by rw [htype]; exact hne), hbuffer, hsize]
    rw [hsize]
    exact Nat.lt_of_lt_of_le (by decide) hpos

theorem packs_add {e c : LTVEntry} {i : UInt8} {subs : List tree} {t : tree}
    (he : Packs e (.container i subs)) (hc : Packs c t) :
    Packs (e.add c) (.container i (subs ++ [t])) := by
  obtain ⟨htype, hlen, hbuffer, happends⟩ := he
  refine ⟨htype, hlen, hbuffer, fun hsmall b => ?_⟩
  rw [encode_all_append, encode_all_cons, encode_all, List.append_nil] at hsmall ⊢
  rw [List.length_append] at hsmall
  unfold LTVEntry.add
  simp only
  have hsubs := happends (by omega) b
  have hsub := packs_into hc (by omega) (b ++ encode_all subs)
  rw [pack_all_append, hsubs, pack_all_cons, hsub]
  simp only [pack_all, List.append_assoc, List.length_append, Nat.add_zero]

theorem packs_data (fresh : Nat → UInt8) (i : UInt8) {t : UInt8} (h : t ≠ typ.cont)
    (payload : List UInt8) (e : LTVEntry) :
    Packs (e.set_data fresh i t payload) (.scalar i t h payload) := by
  refine ⟨rfl, fun hlen => ?_⟩
  rw [scalar_length] at hlen ⊢
  rw [encode_scalar]
  have hmod : (ltv_header_size + payload.length) % 2 ^ 32 = 6 + payload.length := by
    unfold ltv_header_size
    omega
  unfold LTVEntry.set_data LTVEntry.buffer
  simp only [hmod]
  refine ⟨?_, trivial⟩
  exact slice_of_holds (holds_put fresh 0 _) (by simp)

theorem packs_container (fresh : Nat → UInt8) (i : UInt8) {e : LTVEntry} (h : e.contains_ = []) :
    Packs (e.container fresh i) (.container i []) := by
  refine ⟨rfl, rfl, ⟨slice fresh 0 4, slice_length 4, ?_⟩, fun _ b => ?_⟩
  · have hold : slice (put fresh 4 [i, typ.cont]) 0 4 = slice fresh 0 4 := rfl
    have hnew : slice (put fresh 4 [i, typ.cont]) 4 2 = [i, typ.cont] := holds_put fresh 4 _
    change slice (put fresh 4 [i, typ.cont]) 0 (4 + 2) = _
    rw [slice_add, hold, hnew]
  · unfold LTVEntry.container LTVEntry.clear
    simp [h, pack_all, encode_all]

theorem built_packs {e : LTVEntry} {t : tree} (h : Built e t) : Packs e t := by
  induction h with
  | container fresh i empty => exact packs_container fresh i empty
  | add parent sub ihe ihc => exact packs_add ihe ihc
  | set_str fresh i h str empty => exact packs_data fresh i h str _
  | set_bytes fresh i h str size empty fits =>
    unfold LTVEntry.set_bytes at fits
    split at fits
    next => cases fits
    next =>
      cases fits
      exact packs_data fresh i h _ _
  | set_num fresh i h d empty => exact packs_data fresh i h (u32 d) _

/-! ## Unpacking reads the tree -/

theorem read_header {p : pointer} {len : Nat} {id type : UInt8} {rest : List UInt8}
    (h : p.Holds (header len id type ++ rest)) (hlen : len < 2 ^ 32) :
    ltv_get_length p = len ∧ ltv_get_id p = id ∧ ltv_get_type p = type ∧
      (ltv_get_data_ptr p).Holds rest := by
  unfold pointer.Holds header at h
  rw [holds_append, holds_append] at h
  obtain ⟨⟨hlength, hid⟩, hrest⟩ := h
  simp only [u32_length, holds_cons] at hid
  exact ⟨be32_of_holds hlen hlength, hid.1, hid.2.1, hrest⟩

theorem int_of_small {n : Nat} (h : n < 2 ^ 31) : int_of n = n := if_pos h

/-- The entry keeps the bytes that it was unpacked from. -/
theorem take_data_holds (heap : Nat → UInt8) (e : LTVEntry) {p : pointer} {l : List UInt8}
    (h : p.Holds l) (hlen : ltv_get_length p = l.length) : (e.take_data heap p).Holds l := by
  unfold LTVEntry.take_data
  split
  · have hbytes : p.bytes (ltv_get_length p) = l := slice_of_holds h hlen
    rw [hbytes]
    exact holds_put heap 0 l
  · exact h

theorem view_scalar {e : LTVEntry} {id type : UInt8} (h : type ≠ typ.cont) {payload : List UInt8}
    (hid : e.id_ = id) (htype : e.type_ = type) (hpayload : e.payload = payload) :
    e.view = .scalar id type h payload := by
  obtain ⟨contains, len, id', type', data, owner⟩ := e
  subst hid htype hpayload
  rw [LTVEntry.view, dif_neg h]

theorem view_container {e : LTVEntry} {id : UInt8} {subs : List tree} (hid : e.id_ = id)
    (htype : e.type_ = typ.cont) (hsubs : view_all e.contains_ = subs) :
    e.view = .container id subs := by
  obtain ⟨contains, len, id', type', data, owner⟩ := e
  subst hid hsubs
  rw [LTVEntry.view, dif_pos htype]

mutual

/-- The fuel is more than the calls and the loop turns take: each takes a header at least. -/
theorem unpack_encode (heap : Nat → UInt8) : ∀ (t : tree) (fuel : Nat) (e : LTVEntry) (p : pointer)
    (buflen : Nat), (encode t).length < 2 ^ 31 → p.Holds (encode t) →
    (encode t).length ≤ buflen → (encode t).length ≤ fuel → e.contains_ = [] →
    ∃ u reads, unpack heap fuel e p buflen = some (u, int_of (encode t).length, reads) ∧ u.view = t
  | .scalar id type h payload, fuel, e, p, buflen, hsmall, hp, hbuf, hfuel, hempty => by
    have hsum := scalar_length id type h payload
    obtain ⟨fuel, rfl⟩ : ∃ f, fuel = f + 1 := ⟨fuel - 1, by omega⟩
    have hread := hp
    rw [encode_scalar] at hread
    obtain ⟨hlength, hid, htype, -⟩ := read_header hread (by unfold ltv_header_size; omega)
    replace hlength : ltv_get_length p = (encode (.scalar id type h payload)).length :=
      hlength.trans hsum.symm
    have hdata := take_data_holds heap e hp hlength
    rw [encode_scalar] at hdata
    obtain ⟨-, -, -, hpayload⟩ := read_header hdata (by unfold ltv_header_size; omega)
    have hnot : ¬ ((e.take heap p).type_ = typ.cont ∧ ltv_get_length p > ltv_header_size) :=
      fun hc => h (htype.symm.trans hc.1)
    refine ⟨e.take heap p, e.take_reads p, ?_, view_scalar h hid htype ?_⟩
    · rw [unpack_succ, if_neg (by omega), if_neg (by omega), if_neg hnot, hlength]
    · apply slice_of_holds hpayload
      simp only [LTVEntry.take, ltv_header_size]
      omega
  | .container id subs, fuel, e, p, buflen, hsmall, hp, hbuf, hfuel, hempty => by
    have hsum := container_length id subs
    obtain ⟨fuel, rfl⟩ : ∃ f, fuel = f + 1 := ⟨fuel - 1, by omega⟩
    have hread := hp
    rw [encode_container] at hread
    obtain ⟨hlength, hid, htype, -⟩ := read_header hread (by unfold ltv_header_size; omega)
    replace hlength : ltv_get_length p = (encode (.container id subs)).length :=
      hlength.trans hsum.symm
    have hdata := take_data_holds heap e hp hlength
    rw [encode_container] at hdata
    obtain ⟨-, -, -, hsubs⟩ := read_header hdata (by unfold ltv_header_size; omega)
    rw [unpack_succ, if_neg (by omega), if_neg (by omega), hlength]
    by_cases hnil : subs = []
    · refine ⟨e.take heap p, e.take_reads p, ?_, view_container hid htype ?_⟩
      · rw [if_neg]
        rw [hsum, hnil]
        exact fun hc => absurd hc.2 (by decide)
      · rw [hnil]
        exact congrArg view_all hempty
    · have hpos := encode_all_pos hnil
      have hpayload : (encode (.container id subs)).length - ltv_header_size =
          (encode_all subs).length := by
        unfold ltv_header_size
        omega
      obtain ⟨us, more, hdig, hview⟩ := dig_encode heap subs hnil fuel
        (ltv_get_data_ptr (e.take_data heap p)) (encode_all subs).length 0
        (by omega) hsubs (Nat.zero_add _).symm (by omega)
      refine ⟨(e.take heap p).push_all us, e.take_reads p ++ more, ?_, view_container hid htype ?_⟩
      · rw [if_pos ⟨htype, by unfold ltv_header_size; omega⟩, hpayload, hdig]
        rfl
      · unfold LTVEntry.push_all LTVEntry.take
        simp only [hempty, List.nil_append, hview]

theorem dig_encode (heap : Nat → UInt8) : ∀ (ts : List tree), ts ≠ [] → ∀ (fuel : Nat)
    (data : pointer) (payload_len idx : Nat), payload_len < 2 ^ 31 →
    (data.add idx).Holds (encode_all ts) → payload_len = idx + (encode_all ts).length →
    (encode_all ts).length < fuel →
    ∃ us reads, dig heap fuel data payload_len idx = some (us, reads) ∧ view_all us = ts
  | [], hne, _, _, _, _, _, _, _, _ => absurd rfl hne
  | t :: rest, _, fuel, data, payload_len, idx, hsmall, hp, hlen, hfuel => by
    have hmin := header_le t
    rw [encode_all_cons, List.length_append] at hlen hfuel
    rw [encode_all_cons] at hp
    obtain ⟨hfirst, hrest⟩ := holds_append.mp hp
    obtain ⟨fuel, rfl⟩ : ∃ f, fuel = f + 1 := ⟨fuel - 1, by omega⟩
    obtain ⟨u, reads, hunpack, hview⟩ := unpack_encode heap t fuel { owner_ := false }
      (data.add idx) payload_len (by omega) hfirst (by omega) (by omega) rfl
    have hdig := dig_adds hunpack (by omega) (by omega)
    by_cases hnil : rest = []
    · rw [hnil, encode_all, List.length_nil] at hlen
      refine ⟨[u], reads, ?_, ?_⟩
      · rw [hdig, if_pos (by omega)]
      · rw [view_all, view_all, hview, hnil]
    · have hpos := encode_all_pos hnil
      have hnext : (data.add (idx + (encode t).length)).Holds (encode_all rest) := by
        unfold pointer.Holds pointer.add
        rw [← Nat.add_assoc]
        exact hrest
      obtain ⟨us, more, hmore, hviews⟩ := dig_encode heap rest hnil fuel data payload_len
        (idx + (encode t).length) hsmall hnext (by omega) (by omega)
      refine ⟨u :: us, reads ++ more, ?_, ?_⟩
      · rw [hdig, if_neg (by omega), hmore]
        rfl
      · rw [view_all, hview, hviews]

end

/-! ## The round trip -/

/-- A packed root has the bytes of its tree. -/
theorem pack_encodes (fresh : Nat → UInt8) {e : LTVEntry} {i : UInt8} {subs : List tree}
    (h : Built e (.container i subs)) (hlen : (encode (.container i subs)).length < 2 ^ 31) :
    ∃ e', e.pack fresh = some (e', (encode (.container i subs)).length) ∧
      e'.buffer = encode (.container i subs) := by
  have hpacks := built_packs h
  obtain ⟨hsum, hset⟩ := container_completes hpacks hlen []
  rw [List.nil_append, List.length_nil] at hset
  rw [List.nil_append] at hsum hset
  have hmod : (e.len_ + (pack_all e.contains_ e.buffer).2.2) % 2 ^ 32 =
      (encode (.container i subs)).length := by
    rw [hpacks.2.1]
    omega
  unfold LTVEntry.pack
  rw [if_pos hpacks.1]
  simp only [hmod, hset]
  refine ⟨_, rfl, ?_⟩
  exact slice_of_holds (holds_put fresh 0 _) rfl

/-- What comes before the end of the packet is not taken. -/
theorem unpack_prefix (heap : Nat → UInt8) {t : tree} (hlen : (encode t).length < 2 ^ 31)
    {p : pointer} {k : Nat} (hk : k < (encode t).length) (hp : p.Holds ((encode t).take k)) :
    ∃ u r reads, unpack heap 1 {} p k = some (u, r, reads) ∧ r ≤ 0 ∧ u.contains_ = [] := by
  rw [unpack_succ]
  by_cases hshort : k < 4
  · exact ⟨{}, -1, [], if_pos hshort, by decide, rfl⟩
  · have hlength : ltv_get_length p = (encode t).length := by
      have hfour : (encode t).take 4 = u32 (encode t).length := by
        cases t with
        | container id subs =>
          rw [container_length, encode_container]
          rfl
        | scalar id type h payload =>
          rw [scalar_length, encode_scalar]
          rfl
      have hsplit : (encode t).take k = u32 (encode t).length ++ ((encode t).take k).drop 4 := by
        have htake : ((encode t).take k).take 4 = u32 (encode t).length := by
          rw [List.take_take, Nat.min_eq_left (by omega), hfour]
        rw [← htake, List.take_append_drop]
      rw [hsplit] at hp
      exact be32_of_holds (by omega) (holds_append.mp hp).1
    refine ⟨({} : LTVEntry).look p, 0, [⟨p, 4⟩], ?_, Int.le_refl 0, rfl⟩
    rw [if_neg hshort, if_pos (by omega)]

/-- A packed tree comes back from its bytes, whatever follows them, and also after a part of the
bytes was tried. -/
theorem unpack_reads_what_pack_wrote (fresh heap : Nat → UInt8) {e : LTVEntry} {i : UInt8}
    {subs : List tree} (h : Built e (.container i subs))
    (hlen : (encode (.container i subs)).length < 2 ^ 31) :
    ∃ e', e.pack fresh = some (e', e'.buffer.length) ∧
      (∀ (p : pointer) (rest : List UInt8), p.Holds (e'.buffer ++ rest) →
        ∃ fuel u reads,
          unpack heap fuel {} p (e'.buffer ++ rest).length =
            some (u, (e'.buffer.length : Int), reads) ∧
          u.view = .container i subs) ∧
      ∀ (p : pointer) (k : Nat), k < e'.buffer.length → p.Holds (e'.buffer.take k) →
        ∃ fuel u r reads,
          unpack heap fuel {} p k = some (u, r, reads) ∧ r ≤ 0 ∧ u.contains_ = [] ∧
          ∀ (q : pointer) (rest : List UInt8), q.Holds (e'.buffer ++ rest) →
            ∃ fuel u' reads,
              unpack heap fuel u q (e'.buffer ++ rest).length =
                some (u', (e'.buffer.length : Int), reads) ∧
              u'.view = .container i subs := by
  obtain ⟨e', hpack, hbuffer⟩ := pack_encodes fresh h hlen
  have hwhole : ∀ (u : LTVEntry), u.contains_ = [] → ∀ (q : pointer) (rest : List UInt8),
      q.Holds (e'.buffer ++ rest) → ∃ fuel u' reads,
        unpack heap fuel u q (e'.buffer ++ rest).length =
          some (u', (e'.buffer.length : Int), reads) ∧
        u'.view = .container i subs := by
    intro u hempty q rest hq
    rw [hbuffer] at hq ⊢
    obtain ⟨u', reads, hunpack, hview⟩ := unpack_encode heap (.container i subs) _ u q
      (encode (.container i subs) ++ rest).length hlen (holds_append.mp hq).1
      (by rw [List.length_append]; omega) (Nat.le_refl _) hempty
    rw [int_of_small hlen] at hunpack
    exact ⟨_, u', reads, hunpack, hview⟩
  refine ⟨e', by rw [hpack, hbuffer], hwhole {} rfl, fun p k hk hp => ?_⟩
  rw [hbuffer] at hk hp
  obtain ⟨u, r, reads, hunpack, hr, hempty⟩ := unpack_prefix heap hlen hk hp
  exact ⟨1, u, r, reads, hunpack, hr, hempty, hwhole u hempty⟩

/-- A container with a text, a container with a number, and an empty container. The fresh memory
has no zeros. -/
def nested : LTVEntry :=
  let fresh := fun _ => 204
  let inner := (({} : LTVEntry).container fresh 2).add (({} : LTVEntry).set_num fresh 3 3 258)
  (((({} : LTVEntry).container fresh 1).add (({} : LTVEntry).set_str fresh 4 5 [104, 105])).add
    inner).add (({} : LTVEntry).container fresh 7)

def nested_tree : tree :=
  .container 1 [.scalar 4 5 (by decide) [104, 105],
    .container 2 [.scalar 3 3 (by decide) [0, 0, 1, 2]], .container 7 []]

theorem nested_built : Built nested nested_tree := by
  have hinner := (Built.container (fun _ => 204) 2 (e := {}) rfl).add
    (Built.set_num (fun _ => 204) 3 (t := 3) (by decide) 258 (e := {}) rfl)
  exact (((Built.container (fun _ => 204) 1 (e := {}) rfl).add
    (Built.set_str (fun _ => 204) 4 (t := 5) (by decide) [104, 105] (e := {}) rfl)).add hinner).add
    (Built.container (fun _ => 204) 7 (e := {}) rfl)

theorem a_nested_packet_comes_back :
    ∃ e' fuel u reads, nested.pack (fun _ => 204) = some (e', e'.buffer.length) ∧
      unpack (fun _ => 0) fuel {} { mem := put (fun _ => 0) 0 e'.buffer, size := e'.buffer.length }
        e'.buffer.length = some (u, (e'.buffer.length : Int), reads) ∧
      u.view = nested_tree := by
  obtain ⟨e', hpack, hwhole, -⟩ := unpack_reads_what_pack_wrote (fun _ => 204) (fun _ => 0)
    nested_built (by decide)
  have hput := holds_put (fun _ => 0) 0 (e'.buffer ++ [])
  obtain ⟨fuel, u, reads, hunpack, hview⟩ :=
    hwhole { mem := put (fun _ => 0) 0 (e'.buffer ++ []), size := e'.buffer.length } [] hput
  rw [List.append_nil] at hunpack
  exact ⟨e', fuel, u, reads, hpack, hunpack, hview⟩

end socle.ltv
