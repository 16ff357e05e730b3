-- A virtual socket is readable while data waits in its record (in_virt_set,
-- kept by add_first_datagrams, UDPCom::read and read_from_pool).
import Socle.UdpSessions

namespace socle.udp

open lib.run

/-! ## The law -/

/-- Data waits in the record. -/
def Record.waits (record : Record) : Prop :=
  ∃ elem ∈ record.rx_queue.elems, elem ≠ []

/-- A peek left the buffers as they were, and another read took what it gave from their front. -/
def taken.exact (t : taken) : Prop :=
  if t.peek then t.left = t.record.rx_queue.elems
  else t.bytes ++ t.left.flatten = t.record.rx_queue.elems.flatten

/-- A session without a left socket is in `in_virt_set` while, and only while, data waits, and a
read of it is exact. -/
structure Readable (r : Receiver) : Prop where
  defined : r.defined = true
  readable : ∀ id record, r.com.datagrams_received id = some record → record.socket_left = none →
    (id ∈ r.com.in_virt_set ↔ record.waits)
  exact : ∀ t ∈ r.last, t.record.socket_left = none → t.exact

/-- No session without a left socket gets an empty datagram while no data waits, no socket fails to
be created for a first datagram with data, and a read of waiting data asks for at least one byte,
and a peek for no negative number of them. -/
def Orderly (dist : generator) (r : Receiver) : Receiver.operation → Prop
  | .datagram o red socket_left =>
    match r.com.datagrams_received (o.info.create_session_key dist true) with
    | some record => record.socket_left = none → red = some [] → record.waits
    | none => socket_left = none → ∀ buff ∈ red, buff = []
  | .accept _ _ => True
  | .read reader fd n peek _ =>
    ∀ id ∈ (r.readers reader).session fd, ∀ record ∈ r.com.datagrams_received id, record.waits →
      0 ≤ (Int32.ofNat n).toInt ∧
        (record.socket_left = none → peek = false → (Int32.ofNat n).toInt ≠ 0)

/-! ## One read -/

theorem waits_iff {record : Record} : record.waits ↔ record.rx_queue.elems.flatten ≠ [] := by
  unfold Record.waits
  rw [Ne, List.flatten_eq_nil_iff]
  push Not
  rfl

theorem queue_bytes_pos {β : Type} (q : rx_queue β) : q.queue_bytes > 0 ↔ q.elems.flatten ≠ [] := by
  rw [queue_bytes_eq, gt_iff_lt, List.length_pos_iff]

/-- A session key is a negative descriptor. -/
theorem create_session_key_negative (dist : generator) (info : SocketInfo) :
    (info.create_session_key dist true).toInt32 < 0 := by
  unfold SocketInfo.create_session_key
  simp only [if_true]
  generalize UInt32.ofNat (dist info.seeds).val = x
  have hmsb : (x ||| 0x80000000).toBitVec.msb = true := by
    rw [UInt32.toBitVec_or, BitVec.msb_or, Bool.or_eq_true]
    right
    decide
  rw [Int32.lt_iff_toInt_lt]
  exact BitVec.toInt_neg_of_msb_true hmsb

theorem read_from_pool_left {β : Type} {d d' : Datagram β} {n : Nat} {peek : Bool}
    {r : read_result β} (h : d.read_from_pool n peek = some (r, d')) :
    d'.socket_left = d.socket_left := by
  unfold Datagram.read_from_pool at h
  split at h
  · cases h
    rfl
  · cases h
    rfl
  · split at h
    · cases h
    · cases h
      rfl

theorem flush_length_le {β : Type} (k : Nat) (l : List β) : (flush k l).length ≤ l.length := by
  unfold flush
  split_ifs
  · exact Nat.zero_le _
  · exact List.length_drop ▸ Nat.sub_le _ _

/-- Where a read takes from, its size is known. -/
theorem elem_size_found {before behind : List (List tagged)} {elem : List tagged}
    (hsmall : elem.length ≤ buff_sz) (hbefore : before.flatten = []) (helem : elem ≠ []) :
    DatagramCom.elem_size (before ++ elem :: behind) = some (elem.length : Int) := by
  induction before with
  | nil =>
    have hpos : 0 < elem.length := List.length_pos_iff.mpr helem
    rw [List.nil_append, DatagramCom.elem_size, int_of_small hsmall, if_neg (by omega)]
  | cons first rest ih =>
    rw [List.flatten_cons, List.append_eq_nil_iff] at hbefore
    rw [List.cons_append, hbefore.1, DatagramCom.elem_size, if_pos (by decide)]
    exact ih hbefore.2

theorem elem_size_none {elems : List (List tagged)} (h : elems.flatten = []) :
    DatagramCom.elem_size elems = none := by
  induction elems with
  | nil => rfl
  | cons first rest ih =>
    rw [List.flatten_cons, List.append_eq_nil_iff] at h
    rw [h.1, DatagramCom.elem_size, if_pos (by decide)]
    exact ih h.2

namespace DatagramCom

theorem mem_erase {id i : UInt32} {set : List UInt32} : i ∈ erase id set ↔ i ∈ set ∧ i ≠ id := by
  simp [erase]

theorem mem_virt_set {id i : UInt32} {peek : Bool} {copied : Nat} {record : Record}
    {left : rx_queue tagged} {set : List UInt32} {size : Nat}
    (hsize : elem_size record.rx_queue.elems = some (size : Int)) :
    i ∈ virt_set id peek copied record left set ↔
      i ∈ set ∧ (i = id → peek = true ∨ copied < size) ∨ i = id ∧ left.elems.flatten ≠ [] := by
  have htaken : (peek = false ∧ ∃ s ∈ elem_size record.rx_queue.elems, (copied : Int) ≥ s) ↔
      peek = false ∧ size ≤ copied := by
    simp [hsize]
  have herased : i ∈ (if peek = false ∧ ∃ s ∈ elem_size record.rx_queue.elems, (copied : Int) ≥ s
      then erase id set else set) ↔ i ∈ set ∧ (i = id → peek = true ∨ copied < size) := by
    split_ifs with hall
    · rw [mem_erase]
      rw [htaken] at hall
      have hno : ¬ copied < size := by omega
      simp [hall.1, hno]
    · rw [htaken, not_and_or, Bool.not_eq_false, not_le] at hall
      simp [hall]
  unfold virt_set
  simp only
  by_cases hleft : left.elems.flatten = []
  · have hzero : ¬ left.queue_bytes > 0 := by
      rw [queue_bytes_pos]
      exact not_not.mpr hleft
    rw [if_neg hzero, herased]
    simp [hleft]
  · rw [if_pos ((queue_bytes_pos left).mpr hleft), List.mem_insert_iff, herased]
    simp only [ne_eq, hleft, not_false_eq_true, and_true]
    exact or_comm

/-- A read of a record finds nothing, is undefined, or takes from the first buffer that is not
empty. -/
theorem read_from_pool_cases {com : DatagramCom} {id : UInt32} {record : Record}
    (h : com.datagrams_received id = some record)
    (hsmall : ∀ elem ∈ record.rx_queue.elems, elem.length ≤ buff_sz) (n : Nat) (peek : Bool) :
    (record.rx_queue.elems.flatten = [] ∧ ∃ ret, com.read_from_pool id n peek = some (ret, com) ∧
        Receiver.bytes_read (some ret) = []) ∨
      (record.waits ∧ (Int32.ofNat n).toInt < 0 ∧ com.read_from_pool id n peek = none) ∨
      ∃ before elem behind k d, record.rx_queue.elems = before ++ elem :: behind ∧
        before.flatten = [] ∧ elem ≠ [] ∧ 0 ≤ (Int32.ofNat n).toInt ∧
        k = min (Int32.ofNat n).toInt.toNat elem.length ∧
        d.rx_queue.elems = before ++ (if peek then elem else flush k elem) :: behind ∧
        d.socket_left = record.socket_left ∧
        elem_size record.rx_queue.elems = some (elem.length : Int) ∧
        com.read_from_pool id n peek = some (.copied (elem.take k),
          { com.put id { record with toDatagram := d } with
            in_virt_set := virt_set id peek (elem.take k).length record d.rx_queue
              com.in_virt_set }) := by
  by_cases hempty : record.rx_queue.elems.flatten = []
  · left
    refine ⟨hempty, ?_⟩
    unfold read_from_pool
    rw [h]
    rcases read_from_pool_empty hempty n peek with hread | ⟨fd, hread⟩
    · have hzero : ¬ record.rx_queue.queue_bytes > 0 := by
        rw [queue_bytes_pos]
        exact not_not.mpr hempty
      refine ⟨.copied [], ?_, rfl⟩
      simp only [hread, virt_set, elem_size_none hempty, if_neg hzero]
      simp [put_same h]
    · exact ⟨.recv fd, by simp only [hread], rfl⟩
  · right
    rcases read_elem_cases n peek hsmall with
      ⟨hall, -⟩ | ⟨before, elem, behind, helems, hbefore, helem, hread⟩
    · exact absurd hall hempty
    · have hlen : elem.length ≤ buff_sz := by
        apply hsmall
        rw [helems]
        exact List.mem_append_right _ List.mem_cons_self
      by_cases hneg : (Int32.ofNat n).toInt < 0
      · left
        rw [if_pos hneg] at hread
        refine ⟨waits_iff.mpr hempty, hneg, ?_⟩
        unfold read_from_pool
        rw [h]
        rcases read_from_pool_elem hempty n peek with ⟨-, hpool⟩ | ⟨r, d, hr, -, -⟩
        · simp only [hpool]
        · rw [hread] at hr
          cases hr
      · right
        rw [if_neg hneg] at hread
        rcases read_from_pool_elem hempty n peek with ⟨hnone, -⟩ | ⟨r, d, hr, hpool, hd⟩
        · rw [hread] at hnone
          cases hnone
        · rw [hread, Option.some.injEq] at hr
          subst hr
          refine ⟨before, elem, behind, _, d, helems, hbefore, helem, by omega, rfl, hd,
            read_from_pool_left hpool, ?_, ?_⟩
          · rw [helems]
            exact elem_size_found hlen hbefore helem
          · unfold read_from_pool
            simp only [h, hpool]

/-- What the operations keep. -/
structure Kept (com : DatagramCom) : Prop where
  readable : ∀ id record, com.datagrams_received id = some record → record.socket_left = none →
    (id ∈ com.in_virt_set ↔ record.waits)
  absent : ∀ id, com.datagrams_received id = none → id ∉ com.in_virt_set
  negative : ∀ id record, com.datagrams_received id = some record → id.toInt32 < 0
  small : ∀ id record, com.datagrams_received id = some record →
    ∀ elem ∈ record.rx_queue.elems, elem.length ≤ buff_sz

/-- A record is put in the place of one, or at a new key, and the set is changed for it only. -/
theorem Kept.put {com : DatagramCom} (h : Kept com) {id : UInt32} {record : Record}
    {set : List UInt32} (hnegative : id.toInt32 < 0)
    (hsmall : ∀ elem ∈ record.rx_queue.elems, elem.length ≤ buff_sz)
    (hset : ∀ i ≠ id, i ∈ set ↔ i ∈ com.in_virt_set)
    (hid : record.socket_left = none → (id ∈ set ↔ record.waits)) :
    Kept { com.put id record with in_virt_set := set } := by
  have hself : Function.update com.datagrams_received id (some record) id = some record :=
    Function.update_self ..
  have hother : ∀ i ≠ id,
      Function.update com.datagrams_received id (some record) i = com.datagrams_received i :=
    fun i hi => Function.update_of_ne hi _ _
  refine ⟨?_, ?_, ?_, ?_⟩
  · intro i record' hi hleft
    by_cases hii : i = id
    · subst hii
      cases hself.symm.trans hi
      exact hid hleft
    · exact (hset i hii).trans (h.readable i record' ((hother i hii).symm.trans hi) hleft)
  · intro i hi
    by_cases hii : i = id
    · subst hii
      cases hself.symm.trans hi
    · exact fun hmem => h.absent i ((hother i hii).symm.trans hi) ((hset i hii).mp hmem)
  · intro i record' hi
    by_cases hii : i = id
    · rw [hii]
      exact hnegative
    · exact h.negative i record' ((hother i hii).symm.trans hi)
  · intro i record' hi
    by_cases hii : i = id
    · subst hii
      cases hself.symm.trans hi
      exact hsmall
    · exact h.small i record' ((hother i hii).symm.trans hi)

/-- A read of a record, but for one that flushes a buffer of which it copied nothing. -/
theorem Kept.read {com : DatagramCom} (h : Kept com) {id : UInt32} {record : Record}
    (hrecord : com.datagrams_received id = some record) {n : Nat} {peek : Bool}
    (hn : record.waits → 0 ≤ (Int32.ofNat n).toInt ∧
      (record.socket_left = none → peek = false → (Int32.ofNat n).toInt ≠ 0)) :
    ∃ ret com' record', com.read_from_pool id n peek = some (ret, com') ∧ Kept com' ∧
      com'.datagrams_received id = some record' ∧
      (record.socket_left = none →
        taken.exact ⟨record, peek, Receiver.bytes_read (some ret), record'.rx_queue.elems⟩) := by
  rcases read_from_pool_cases hrecord (h.small id record hrecord) n peek with
    ⟨hempty, ret, hread, hbytes⟩ | ⟨hwaits, hneg, -⟩ |
      ⟨before, elem, behind, k, d, helems, hbefore, helem, hint, hk, hd, hleft, hsize, hread⟩
  · refine ⟨ret, com, record, hread, h, hrecord, fun _ => ?_⟩
    unfold taken.exact
    split_ifs
    · rfl
    · simp only [hbytes, List.nil_append]
  · exact absurd (hn hwaits).1 (by omega)
  · have hwaits : record.waits := ⟨elem, by rw [helems]; exact List.mem_append_right _ (by simp), helem⟩
    have hlen : 0 < elem.length := List.length_pos_iff.mpr helem
    have hcopied : (elem.take k).length = k := by
      rw [List.length_take]
      omega
    have hnone : record.socket_left = none → peek = false → 0 < k := by
      intro hno hpeek
      have hne := (hn hwaits).2 hno hpeek
      omega
    refine ⟨_, _, { record with toDatagram := d }, hread, ?_, Function.update_self .., ?_⟩
    · apply h.put (h.negative id record hrecord)
      · intro elem' helem'
        have hold : ∀ e ∈ before ++ elem :: behind, e.length ≤ buff_sz := by
          rw [← helems]
          exact h.small id record hrecord
        simp only [hd, List.mem_append, List.mem_cons] at helem'
        rcases helem' with hmem | rfl | hmem
        · exact hold elem' (List.mem_append_left _ hmem)
        · have hle := hold elem (List.mem_append_right _ List.mem_cons_self)
          split_ifs
          · exact hle
          · exact (flush_length_le k elem).trans hle
        · exact hold elem' (List.mem_append_right _ (List.mem_cons_of_mem _ hmem))
      · intro i hi
        rw [mem_virt_set hsize]
        simp [hi]
      · intro hno
        have hmore : peek = true ∨ k < elem.length → d.rx_queue.elems.flatten ≠ [] := by
          intro hpart hall
          rw [hd, List.flatten_append, hbefore, List.nil_append, List.flatten_cons,
            List.append_eq_nil_iff] at hall
          cases peek with
          | true => exact helem hall.1
          | false =>
            have hless : k < elem.length := hpart.resolve_left Bool.false_ne_true
            rw [if_neg Bool.false_ne_true, flush_drop (hnone (hleft.symm.trans hno) rfl),
              List.drop_eq_nil_iff] at hall
            omega
        rw [mem_virt_set hsize, hcopied, waits_iff]
        simp only [true_implies, true_and, or_iff_right_iff_imp, and_imp]
        exact fun _ => hmore
    · intro hno
      unfold taken.exact
      simp only [Receiver.bytes_read, hd]
      split_ifs with hpeek
      · exact helems.symm
      · have hpos := hnone hno (Bool.not_eq_true _ ▸ hpeek)
        rw [flush_drop hpos, helems, List.flatten_append, hbefore, List.flatten_append, hbefore]
        simp only [List.nil_append, List.flatten_cons]
        rw [← List.append_assoc, List.take_append_drop]

/-! ## One datagram -/

theorem filled_waits (o : origin) (buff : List UInt8) (record : Record) :
    (filled o buff record).waits ↔ record.waits ∨ buff ≠ [] := by
  unfold Record.waits
  rcases filled_elems o buff record with ⟨hfull, hsame⟩ | ⟨before, behind, helems, hfilled⟩
  · -- all of the five buffers are occupied
    have hwaits : ∃ elem ∈ record.rx_queue.elems, elem ≠ [] := by
      have hlen := record.rx_queue.size
      cases helems : record.rx_queue.elems with
      | nil =>
        rw [helems] at hlen
        cases hlen
      | cons elem rest =>
        refine ⟨elem, List.mem_cons_self, fun hnil => hfull ?_⟩
        rw [helems, hnil]
        exact List.mem_cons_self
    rw [hsame]
    exact iff_of_true hwaits (Or.inl hwaits)
  · rw [hfilled, helems]
    simp only [List.mem_append, List.mem_cons, or_and_right, exists_or, exists_eq_left, ne_eq,
      List.map_eq_nil_iff, not_true_eq_false, false_or]
    exact (or_congr_right or_comm).trans or_assoc.symm

theorem filled_small {o : origin} {buff : List UInt8} {record : Record}
    (hbuff : buff.length ≤ buff_sz) (hsmall : ∀ elem ∈ record.rx_queue.elems, elem.length ≤ buff_sz) :
    ∀ elem ∈ (filled o buff record).rx_queue.elems, elem.length ≤ buff_sz := by
  rcases filled_elems o buff record with ⟨-, hsame⟩ | ⟨before, behind, helems, hfilled⟩
  · rw [hsame]
    exact hsmall
  · rw [hfilled]
    rw [helems] at hsmall
    intro elem hmem
    simp only [List.mem_append, List.mem_cons] at hmem
    rcases hmem with hmem | rfl | hmem
    · exact hsmall elem (List.mem_append_left _ hmem)
    · rw [List.length_map]
      exact hbuff
    · exact hsmall elem (List.mem_append_right _ (List.mem_cons_of_mem _ hmem))

theorem fresh_waits (o : origin) : ¬ ({ src := o.src, dst := o.dst } : Record).waits := by
  unfold Record.waits
  simp

theorem fresh_small (o : origin) :
    ∀ elem ∈ ({ src := o.src, dst := o.dst } : Record).rx_queue.elems, elem.length ≤ buff_sz := by
  simp

/-- The condition on a datagram. -/
theorem orderly_datagram {dist : generator} {r : Receiver} {o : origin}
    {red : Option (List UInt8)} {socket_left : Option Int} :
    Orderly dist r (.datagram o red socket_left) ↔
      (∀ record, r.com.datagrams_received (o.info.create_session_key dist true) = some record →
        record.socket_left = none → red = some [] → record.waits) ∧
      (r.com.datagrams_received (o.info.create_session_key dist true) = none →
        socket_left = none → ∀ buff, red = some buff → buff = []) := by
  cases hrecord : r.com.datagrams_received (o.info.create_session_key dist true) with
  | some record => simp [Orderly, hrecord]
  | none => simp [Orderly, hrecord]

theorem Kept.datagram {com : DatagramCom} (h : Kept com) {dist : generator} {o : origin}
    {red : Option (List UInt8)} {socket_left : Option Int}
    (hbuff : ∀ buff, red = some buff → buff.length ≤ buff_sz)
    (hold : ∀ record, com.datagrams_received (o.info.create_session_key dist true) = some record →
      record.socket_left = none → red = some [] → record.waits)
    (hnew : com.datagrams_received (o.info.create_session_key dist true) = none →
      socket_left = none → ∀ buff, red = some buff → buff = []) :
    Kept (com.add_first_datagrams dist o red socket_left) := by
  have hnegative := create_session_key_negative dist o.info
  rcases com.add_first_datagrams_cases dist o red socket_left with
    ⟨record, hrecord, ⟨-, heq⟩ | ⟨buff, hred, heq⟩⟩ | ⟨hnone, ⟨-, heq⟩ | ⟨buff, hred, ⟨hleft, heq⟩ |
      ⟨fd, hleft, heq⟩⟩⟩
  · rw [heq]
    exact h
  · rw [heq]
    apply h.put hnegative (filled_small (hbuff buff hred) (h.small _ record hrecord))
    · intro i hi
      simp [List.mem_insert_iff, hi]
    · intro hno
      apply iff_of_true List.mem_insert_self
      rw [filled_waits]
      by_cases hempty : buff = []
      · exact Or.inl (hold record hrecord hno (hempty ▸ hred))
      · exact Or.inr hempty
  · rw [heq]
    apply h.put hnegative (fresh_small o) fun i _ => Iff.rfl
    exact fun _ => iff_of_false (h.absent _ hnone) (fresh_waits o)
  · rw [heq]
    apply h.put hnegative (filled_small (hbuff buff hred) (fresh_small o)) fun i _ => Iff.rfl
    intro _
    apply iff_of_false (h.absent _ hnone)
    rw [filled_waits, not_or, not_not]
    exact ⟨fresh_waits o, hnew hnone hleft buff hred⟩
  · rw [heq]
    apply h.put hnegative
    · exact filled_small (hbuff buff hred) (fresh_small o)
    · intro i hi
      simp [List.mem_insert_iff, hi]
    · intro hno
      cases hno

/-- When the law holds behind a datagram, the condition held. -/
theorem Kept.orderly {com : DatagramCom} (h : Kept com) {dist : generator} {o : origin}
    {red : Option (List UInt8)} {socket_left : Option Int}
    (hlaw : ∀ id record,
      (com.add_first_datagrams dist o red socket_left).datagrams_received id = some record →
      record.socket_left = none →
      (id ∈ (com.add_first_datagrams dist o red socket_left).in_virt_set ↔ record.waits)) :
    (∀ record, com.datagrams_received (o.info.create_session_key dist true) = some record →
      record.socket_left = none → red = some [] → record.waits) ∧
    (com.datagrams_received (o.info.create_session_key dist true) = none →
      socket_left = none → ∀ buff, red = some buff → buff = []) := by
  rcases com.add_first_datagrams_cases dist o red socket_left with
    ⟨record, hrecord, ⟨hred, -⟩ | ⟨buff, hred, heq⟩⟩ | ⟨hnone, ⟨hred, -⟩ | ⟨buff, hred, ⟨hleft, heq⟩ |
      ⟨fd, hleft, -⟩⟩⟩
  · refine ⟨fun _ _ _ hempty => ?_, fun hnone => ?_⟩
    · rw [hred] at hempty
      cases hempty
    · rw [hrecord] at hnone
      cases hnone
  · refine ⟨fun record' hrecord' hno hempty => ?_, fun hnone => ?_⟩
    · rw [hrecord, Option.some.injEq] at hrecord'
      subst hrecord'
      rw [hred, Option.some.injEq] at hempty
      have hself := hlaw _ (filled o buff record) (by rw [heq]; exact Function.update_self ..) hno
      rw [heq] at hself
      have hwaits := hself.mp List.mem_insert_self
      rw [filled_waits, hempty] at hwaits
      exact hwaits.resolve_right (not_not.mpr rfl)
    · rw [hrecord] at hnone
      cases hnone
  · refine ⟨fun record hrecord => ?_, fun _ _ buff hsome => ?_⟩
    · rw [hnone] at hrecord
      cases hrecord
    · rw [hred] at hsome
      cases hsome
  · refine ⟨fun record hrecord => ?_, fun _ _ buff' hsome => ?_⟩
    · rw [hnone] at hrecord
      cases hrecord
    · rw [hred, Option.some.injEq] at hsome
      subst hsome
      have hself := hlaw _ (filled o buff { src := o.src, dst := o.dst })
        (by rw [heq]; exact Function.update_self ..) rfl
      rw [heq] at hself
      by_contra hdata
      exact h.absent _ hnone (hself.mpr ((filled_waits ..).mpr (Or.inr hdata)))
  · refine ⟨fun record hrecord => ?_, fun _ hno => ?_⟩
    · rw [hnone] at hrecord
      cases hrecord
    · rw [hleft] at hno
      cases hno

/-- A session that is not found readable has no data, or is none. -/
theorem Kept.erase {com : DatagramCom} (h : Kept com) {id : UInt32} {real : Bool}
    (hno : com.in_readset real id.toInt32 = false) :
    Kept { com with in_virt_set := erase id com.in_virt_set } := by
  cases hrecord : com.datagrams_received id with
  | none =>
    have hsame : DatagramCom.erase id com.in_virt_set = com.in_virt_set := by
      apply List.filter_eq_self.mpr
      intro i hi
      have hne : i ≠ id := fun heq => h.absent id hrecord (heq ▸ hi)
      simpa using hne
    rw [hsame]
    exact h
  | some record =>
    have hnegative := h.negative id record hrecord
    have hempty : ¬ record.rx_queue.queue_bytes > 0 := by
      intro hbytes
      simp [in_readset, hnegative, hrecord, hbytes] at hno
    have hput : Kept { com.put id record with
        in_virt_set := DatagramCom.erase id com.in_virt_set } := by
      apply h.put hnegative (h.small id record hrecord)
      · intro i hi
        simp [mem_erase, hi]
      · intro _
        rw [waits_iff, ← queue_bytes_pos]
        exact iff_of_false (fun hmem => (mem_erase.mp hmem).2 rfl) hempty
    rw [put_same hrecord] at hput
    exact hput

end DatagramCom

/-! ## Each run -/

namespace Receiver

/-- A read keeps the law when it is orderly. -/
theorem read_readable {dist : generator} {r r' : Receiver} (h : r.com.Kept)
    (hdefined : r.defined = true) {reader : Nat} {fd : Int32} {n : Nat} {peek real : Bool}
    (hc : Orderly dist r (.read reader fd n peek real))
    (hs : step dist r (.read reader fd n peek real) = some r') : r'.com.Kept ∧ Readable r' := by
  simp only [step, hdefined, Bool.true_eq_false, if_false] at hs
  cases hsession : (r.readers reader).session fd with
  | none =>
    rw [read_real hsession] at hs
    cases hs
    refine ⟨h, rfl, h.readable, fun t ht => ?_⟩
    simp [hsession] at ht
  | some id =>
    have hkept : ∀ {com₁ com₂ : DatagramCom}, com₁.Kept →
        (com₂ = com₁ ∨ com₁.in_readset real id.toInt32 = false ∧
          com₂ = { com₁ with in_virt_set := DatagramCom.erase id com₁.in_virt_set }) →
        com₂.Kept ∧ com₂.datagrams_received = com₁.datagrams_received := by
      rintro com₁ com₂ hcom (rfl | ⟨hno, rfl⟩)
      · exact ⟨hcom, rfl⟩
      · exact ⟨hcom.erase hno, rfl⟩
    cases hrecord : r.com.datagrams_received id with
    | none =>
      have hpool : r.com.read_from_pool id n peek = some (.copied [], r.com) := by
        simp only [DatagramCom.read_from_pool, hrecord]
      rcases read_session hsession n peek real r.com with
        ⟨hnone, -⟩ | ⟨ret, com₁, e', com₂, hsome, hread, hcom⟩
      · rw [hpool] at hnone
        cases hnone
      · rw [hpool, Option.some.injEq, Prod.mk.injEq] at hsome
        rw [← hsome.2] at hcom
        obtain ⟨hcom, -⟩ := hkept h hcom
        rw [hread] at hs
        cases hs
        refine ⟨hcom, rfl, hcom.readable, fun t ht => ?_⟩
        simp [hsession, took, hrecord] at ht
    | some record =>
      obtain ⟨ret, com₁, record', hpool, hcom₁, hrecord', hexact⟩ :=
        h.read hrecord fun hwaits => hc id hsession record hrecord hwaits
      rcases read_session hsession n peek real r.com with
        ⟨hnone, -⟩ | ⟨ret', com₂, e', com₃, hsome, hread, hcom⟩
      · rw [hpool] at hnone
        cases hnone
      · rw [hpool, Option.some.injEq, Prod.mk.injEq] at hsome
        obtain ⟨rfl, rfl⟩ := hsome
        obtain ⟨hcom, hlookup⟩ := hkept hcom₁ hcom
        rw [hread] at hs
        cases hs
        refine ⟨hcom, rfl, hcom.readable, fun t ht hleft => ?_⟩
        simp only [hsession, Option.bind_some, took, hrecord, hlookup, hrecord',
          Option.mem_some_iff] at ht
        rw [← ht] at hleft ⊢
        exact hexact hleft

/-- A read that keeps the law is orderly. -/
theorem orderly_read {dist : generator} {r r' : Receiver} (h : r.com.Kept)
    (hdefined : r.defined = true) {reader : Nat} {fd : Int32} {n : Nat} {peek real : Bool}
    (hs : step dist r (.read reader fd n peek real) = some r') (hlaw : Readable r') :
    Orderly dist r (.read reader fd n peek real) := by
  intro id hsession record hrecord hwaits
  rw [Option.mem_def] at hsession hrecord
  simp only [step, hdefined, Bool.true_eq_false, if_false] at hs
  rcases DatagramCom.read_from_pool_cases hrecord (h.small id record hrecord) n peek with
    ⟨hempty, -⟩ | ⟨-, -, hpool⟩ |
      ⟨before, elem, behind, k, d, helems, hbefore, helem, hint, hk, hd, -, -, hpool⟩
  · exact absurd hempty (waits_iff.mp hwaits)
  · rcases read_session hsession n peek real r.com with
      ⟨-, hread⟩ | ⟨ret, com₁, e', com₂, hsome, -⟩
    · rw [hread] at hs
      cases hs
      cases hlaw.defined
    · rw [hpool] at hsome
      cases hsome
  · refine ⟨hint, fun hleft hpeek hzero => ?_⟩
    rcases read_session hsession n peek real r.com with
      ⟨hnone, -⟩ | ⟨ret, com₁, e', com₂, hsome, hread, hcom⟩
    · rw [hpool] at hnone
      cases hnone
    · rw [hpool, Option.some.injEq, Prod.mk.injEq] at hsome
      obtain ⟨rfl, rfl⟩ := hsome
      have hlookup : com₂.datagrams_received id = some { record with toDatagram := d } := by
        rcases hcom with rfl | ⟨-, rfl⟩
        · exact Function.update_self ..
        · exact Function.update_self ..
      rw [hread] at hs
      cases hs
      have hexact := hlaw.exact ⟨record, peek, elem.take k, d.rx_queue.elems⟩ (by
        simp only [hsession, Option.bind_some, took, hrecord, hlookup, bytes_read,
          Option.mem_some_iff]) hleft
      -- no byte was given, and a buffer was flushed
      have hk0 : k = 0 := by
        rw [hk, hzero]
        rfl
      have hflushed : flush 0 elem = [] := if_pos (Or.inl rfl)
      simp only [taken.exact, hpeek, Bool.false_eq_true, if_false, hk0, hd, hflushed, helems,
        List.take_zero, List.nil_append, List.flatten_append, List.flatten_cons, hbefore] at hexact
      have hlen := congrArg List.length hexact
      rw [List.length_append] at hlen
      have hpos := List.length_pos_iff.mpr helem
      omega

/-- One step keeps the law when, and only when, it is orderly. -/
theorem step_readable {dist : generator} {r r' : Receiver} {a : operation} (h : r.com.Kept)
    (hlaw : Readable r) (hs : step dist r a = some r') :
    (Orderly dist r a → r'.com.Kept ∧ Readable r') ∧ (Readable r' → Orderly dist r a) := by
  cases a with
  | read reader fd n peek real =>
    exact ⟨fun hc => read_readable h hlaw.defined hc hs, orderly_read h hlaw.defined hs⟩
  | accept reader virtual_socket =>
    refine ⟨fun _ => ?_, fun _ => trivial⟩
    simp only [step] at hs
    split at hs
    · cases hs
    · cases hs
      exact ⟨h, hlaw.defined, h.readable, fun t ht => nomatch ht⟩
  | datagram o red socket_left =>
    simp only [step] at hs
    split at hs
    · cases hs
    next hno =>
      push Not at hno
      cases hs
      rw [DatagramCom.orderly_datagram]
      refine ⟨fun hc => ?_, fun hlaw' => h.orderly hlaw'.readable⟩
      have hkept := h.datagram hno.2 hc.1 hc.2
      exact ⟨hkept, hlaw.defined, hkept.readable, fun t ht => nomatch ht⟩

end Receiver

/-- A session without a left socket is readable just while data waits, and its reads are exact, in
each run of orderly steps and in no other run. -/
theorem sessions_are_readable (dist : generator) (ops : List Receiver.operation) :
    Always (Receiver.step dist) Readable {} ops ↔
      Meets (Receiver.step dist) (Orderly dist) {} ops := by
  refine always_iff_meets (P := fun r => r.com.Kept ∧ Readable r) (fun r h => h.2) ?_ ?_ ?_ ops
  · exact fun r a r' h hc hs => (Receiver.step_readable h.1 h.2 hs).1 hc
  · exact fun r a r' h hc hs hlaw => hc ((Receiver.step_readable h.1 h.2 hs).2 hlaw)
  · refine ⟨⟨?_, fun id _ => List.not_mem_nil, ?_, ?_⟩, rfl, ?_, ?_⟩
    · exact fun _ _ h => nomatch h
    · exact fun _ _ h => nomatch h
    · exact fun _ _ h => nomatch h
    · exact fun _ _ h => nomatch h
    · exact fun _ h => nomatch h

/-- The socket for the first datagram of a session is not created, and its byte waits for a read
that nobody is told of. -/
theorem a_session_is_not_readable :
    ¬ ∀ (dist : generator) (ops : List Receiver.operation),
      Always (Receiver.step dist) Readable {} ops := by
  intro hall
  have hlaw := always_exec (hall (fun _ => 0)
    [.datagram ⟨⟨AF_INET, 0x8813, 0x0100000a, (0, 0, 0, 0)⟩,
      ⟨AF_INET, 0x3500, 0x08080808, (0, 0, 0, 0)⟩⟩ (some [7]) none]) rfl
  have hwaits := (hlaw.readable 0x80000000 _ rfl rfl).mpr ⟨_, List.mem_cons_self, by decide⟩
  exact absurd hwaits List.not_mem_nil

end socle.udp
