-- The law of the pcapng blocks. A reader of the format takes a block as it was
-- written and lands on the next one: when, and only when, the block has no more
-- than one option, and its numbers fit into their fields.
import Socle.Pcapng

namespace socle.pcapng

open lib.wire

/-! ## A reader of the format -/

/-- An option: its code and its data. -/
abbrev option := Nat × List UInt8

/-- Options up to the end-of-options, which has code 0 and no data. Each one takes at least four
bytes, so the number of bytes is turns enough. -/
def option_list : Nat → Reader (List option)
  | 0 => failure
  | n + 1 => do
    let code ← get16
    let len ← get16
    if code = 0 then
      check (len = 0)
      pure []
    else
      let data ← bytes len
      let _ ← bytes (padding_sz32 len)
      let rest ← option_list n
      pure ((code, data) :: rest)

/-- The options of a block. There are none, or they fill the rest of the block with exactly one
end-of-options at the end. -/
def read_options (bs : List UInt8) : Option (List option) :=
  if bs = [] then some []
  else
    match (option_list bs.length).run bs with
    | some (opts, []) => some opts
    | _ => none

def rest_options : Reader (List option) := fun bs =>
  (read_options bs).map fun opts => (opts, [])

/-- What a block says. -/
inductive content
  | section_header (opts : List option)
  | interface (link_type snaplen : Nat) (opts : List option)
  | packet (iface_id timestamp_high timestamp_low original_len : Nat) (data : List UInt8)
      (opts : List option)

def read_section : Reader content := do
  let magic ← get32
  check (magic = pcapng_shb.magic.toNat)
  -- the versions, and the length of the section
  let _ ← get16
  let _ ← get16
  let _ ← get32
  let _ ← get32
  let opts ← rest_options
  pure (.section_header opts)

def read_interface : Reader content := do
  let link_type ← get16
  let _ ← get16
  let snaplen ← get32
  let opts ← rest_options
  pure (.interface link_type snaplen opts)

def read_packet : Reader content := do
  let iface_id ← get32
  let high ← get32
  let low ← get32
  let captured_len ← get32
  let original_len ← get32
  let data ← bytes captured_len
  let _ ← bytes (padding_sz32 captured_len)
  let opts ← rest_options
  pure (.packet iface_id high low original_len data opts)

/-- What the body of a block of the type says. -/
def content_of (type : Nat) (body : List UInt8) : Option content :=
  if type = pcapng_shb.type.toNat then (read_section.run body).map Prod.fst
  else if type = pcapng_ifb.type.toNat then (read_interface.run body).map Prod.fst
  else if type = pcapng_epb.type.toNat then (read_packet.run body).map Prod.fst
  else none

/-- A block: its type, its total length, its body, and the same length again. -/
def read_block : Reader content := do
  let type ← get32
  let total ← get32
  check (12 ≤ total ∧ total % 4 = 0)
  let body ← bytes (total - 12)
  let again ← get32
  check (again = total)
  match content_of type body with
  | some c => pure c
  | none => failure

/-! ## The law -/

/-- A block of the code. -/
inductive block
  | section_header (b : pcapng_shb)
  | interface (b : pcapng_ifb)
  | packet (b : pcapng_epb)

namespace block

def size : block → Nat
  | .section_header b => b.size
  | .interface b => b.size
  | .packet b => b.size

/-- `append`: how many bytes it appended, and the buffer. -/
def append (now : UInt32 × UInt32) (out : List UInt8) : block → Nat × List UInt8
  | .section_header b => ((b.append out).1, (b.append out).2.1)
  | .interface b => ((b.append out).1, (b.append out).2.1)
  | .packet b => ((b.append now out).1, (b.append now out).2.1)

/-- The entries of a packet block. The other blocks take their options as bytes. -/
def entries : block → List entry
  | .packet b => b.options.getD []
  | _ => []

/-- The content has the packet data and the options of the block. -/
def Says : block → content → Prop
  | .section_header b, .section_header opts => read_options (b.options.getD []) = some opts
  | .interface b, .interface link_type snaplen opts =>
    link_type = b.link_type.toNat ∧ snaplen = b.snaplen.toNat ∧
      read_options (b.options.getD []) = some opts
  | .packet b, .packet iface_id _ _ original_len data opts =>
    iface_id = b.iface_id.toNat ∧ original_len = data.length ∧ data = b.packet_data.getD [] ∧
      opts = (b.options.getD []).map fun e => (e.code.toNat, e.bytes)
  | _, _ => False

/-- `append` appended the bytes `bs`, and they are what the format and `size` say. -/
structure Lawful (blk : block) (now : UInt32 × UInt32) (out bs : List UInt8) : Prop where
  appends : blk.append now out = (blk.size, out ++ bs)
  size : bs.length = blk.size
  leading : (get32.run (bs.drop 4)).map Prod.fst = some bs.length
  trailing : (get32.run (bs.drop (bs.length - 4))).map Prod.fst = some bs.length
  aligned : 4 ∣ bs.length
  /-- The length field of an option that is written says how long its data are. -/
  lens : ∀ e ∈ blk.entries, e.written = true → (e.append out).2.2.len.toNat = e.bytes.length
  reads : ∃ c, blk.Says c ∧ Reads read_block bs c

/-- An option that can be written: it is no end-of-options, it has data, and their length fits. -/
def entry_fits (e : entry) : Prop :=
  e.code ≠ 0 ∧ e.bytes ≠ [] ∧ e.bytes.length < 65536

/-- What a block needs for the law. -/
def Fits : block → Prop
  | .section_header b => b.size < 2 ^ 32 ∧ (read_options (b.options.getD [])).isSome ∧
      4 ∣ (b.options.getD []).length
  | .interface b => b.size < 2 ^ 32 ∧ (read_options (b.options.getD [])).isSome ∧
      4 ∣ (b.options.getD []).length
  | .packet b => b.size < 2 ^ 32 ∧ (b.options.getD []).length ≤ 1 ∧
      (∀ e ∈ b.options.getD [], entry_fits e) ∧ (b.packet_data = none → b.captured_len = 0)

end block

/-! ## Frames -/

theorem reads_u16 (n : UInt16) : Reads get16 (u16 n) n.toNat := by
  have h : n.toNat % 65536 = n.toNat := Nat.mod_eq_of_lt n.toNat_lt
  have hr := reads_get16 n.toNat
  rw [h] at hr
  exact hr

theorem reads_u32 (n : UInt32) : Reads get32 (u32 n) n.toNat := by
  have h : n.toNat % 4294967296 = n.toNat := Nat.mod_eq_of_lt n.toNat_lt
  have hr := reads_get32 n.toNat
  rw [h] at hr
  exact hr

/-- A block with its total length before and behind its body. -/
def frame (type n : UInt32) (body : List UInt8) : List UInt8 :=
  u32 type ++ (u32 n ++ (body ++ u32 n))

theorem frame_length (type n : UInt32) (body : List UInt8) :
    (frame type n body).length = body.length + 12 := by
  simp [frame]
  omega

theorem frame_leading (type n : UInt32) (body : List UInt8) :
    (get32.run ((frame type n body).drop 4)).map Prod.fst = some n.toNat := by
  have hdrop : (frame type n body).drop 4 = u32 n ++ (body ++ u32 n) := rfl
  rw [hdrop, reads_u32 n]
  rfl

theorem frame_trailing (type n : UInt32) (body : List UInt8) :
    (get32.run ((frame type n body).drop ((frame type n body).length - 4))).map Prod.fst =
      some n.toNat := by
  have hsplit : frame type n body = (u32 type ++ u32 n ++ body) ++ u32 n := by
    simp only [frame, List.append_assoc]
  have hlen : (frame type n body).length - 4 = (u32 type ++ u32 n ++ body).length := by
    rw [hsplit, List.length_append, u32_length]
    omega
  have hread := reads_u32 n []
  rw [List.append_nil] at hread
  rw [hlen, hsplit, List.drop_left, hread]
  rfl

/-- A frame whose length is right is read by what its body says. -/
theorem frame_read {type n : UInt32} {body : List UInt8} (hn : n.toNat = body.length + 12)
    (hal : 4 ∣ n.toNat) (rest : List UInt8) :
    read_block.run (frame type n body ++ rest) =
      (content_of type.toNat body).map fun c => (c, rest) := by
  have hcheck : decide (12 ≤ n.toNat ∧ n.toNat % 4 = 0) = true := by
    rw [decide_eq_true_eq]
    omega
  have hbody : n.toNat - 12 = body.length := by omega
  unfold read_block frame
  rw [List.append_assoc, (reads_u32 type).run_bind, List.append_assoc, (reads_u32 n).run_bind,
    check_run hcheck, hbody, List.append_assoc, (reads_bytes body).run_bind,
    (reads_u32 n).run_bind, check_run (decide_eq_true rfl)]
  cases content_of type.toNat body with
  | none => rfl
  | some c => rfl

/-- A frame that is read lands where the length says only if the length is right. -/
theorem frame_reads_iff {type n : UInt32} {body : List UInt8} (hn : n.toNat = body.length + 12)
    (hal : 4 ∣ n.toNat) (c : content) :
    Reads read_block (frame type n body) c ↔ content_of type.toNat body = some c := by
  constructor
  · intro h
    have hrun := h []
    rw [frame_read hn hal] at hrun
    obtain ⟨c', hc', heq⟩ := Option.map_eq_some_iff.mp hrun
    cases heq
    exact hc'
  · intro h rest
    rw [frame_read hn hal, h]
    rfl

/-! ## Options -/

/-- The option that an entry stands for. -/
def entry.option (e : entry) : option :=
  (e.code.toNat, e.bytes)

theorem entry_fits_written {e : entry} (h : block.entry_fits e) : e.written = true := by
  simp [entry.written, h.2.1]

theorem option_list_succ (n : Nat) : option_list (n + 1) = (do
    let code ← get16
    let len ← get16
    if code = 0 then
      check (len = 0)
      pure []
    else
      let data ← bytes len
      let _ ← bytes (padding_sz32 len)
      let rest ← option_list n
      pure ((code, data) :: rest)) :=
  rfl

/-- An entry that fits is read back, and the rest of the list behind it. -/
theorem option_list_cons {e : entry} (h : e.code ≠ 0) (hlen : e.bytes.length < 65536) (n : Nat)
    (rest : List UInt8) :
    (option_list (n + 1)).run (e.encoding ++ rest) =
      ((option_list n).run rest).map fun r => (e.option :: r.1, r.2) := by
  have hcode : e.code.toNat ≠ 0 := by
    intro hzero
    exact h (UInt16.toNat_inj.mp hzero)
  have hl : (UInt16.ofNat e.bytes.length).toNat = e.bytes.length := by
    rw [UInt16.toNat_ofNat']
    omega
  have hpad := reads_bytes (padding (padding_sz32 e.bytes.length))
  rw [padding_length] at hpad
  unfold entry.encoding
  simp only [List.append_assoc]
  rw [option_list_succ, (reads_u16 e.code).run_bind, (reads_u16 _).run_bind, if_neg hcode, hl,
    (reads_bytes e.bytes).run_bind, hpad.run_bind, StateT.run_bind]
  cases (option_list n).run rest with
  | none => rfl
  | some r => rfl

theorem option_list_end (n : Nat) (rest : List UInt8) :
    (option_list (n + 1)).run (u32 footer ++ rest) = some ([], rest) := by
  have hfooter : u32 footer = u16 0 ++ u16 0 := rfl
  have hzero : (0 : UInt16).toNat = 0 := rfl
  rw [option_list_succ, hfooter, List.append_assoc, (reads_u16 0).run_bind, (reads_u16 0).run_bind, if_pos hzero,
    check_run (decide_eq_true hzero)]
  rfl

/-- An end-of-options in the middle, with data, is no option. -/
theorem option_list_zero {e : entry} (h : e.code = 0) (hpos : 0 < e.bytes.length)
    (hlen : e.bytes.length < 65536) (n : Nat) (rest : List UInt8) :
    (option_list (n + 1)).run (e.encoding ++ rest) = none := by
  have hl : (UInt16.ofNat e.bytes.length).toNat = e.bytes.length := by
    rw [UInt16.toNat_ofNat']
    omega
  have hcheck : decide (e.bytes.length = 0) = false := by
    rw [decide_eq_false_iff_not]
    omega
  have hzero : (0 : UInt16).toNat = 0 := rfl
  unfold entry.encoding
  simp only [List.append_assoc]
  rw [option_list_succ, (reads_u16 e.code).run_bind, (reads_u16 _).run_bind, h, if_pos hzero, hl]
  exact check_fails hcheck _ _

/-- Any list of entries that fit, with one end-of-options, is read back. -/
theorem options_read {entries : List entry} (h : ∀ e ∈ entries, block.entry_fits e) {n : Nat}
    (hn : entries.length < n) :
    (option_list n).run (entries.flatMap entry.encoding ++ u32 footer) =
      some (entries.map entry.option, []) := by
  induction entries generalizing n with
  | nil =>
    cases n with
    | zero => omega
    | succ n =>
      have hend := option_list_end n []
      rw [List.append_nil] at hend
      exact hend
  | cons e rest ih =>
    cases n with
    | zero => omega
    | succ n =>
      obtain ⟨hcode, -, hlen⟩ := h e List.mem_cons_self
      have hrest : rest.length < n := by
        rw [List.length_cons] at hn
        omega
      rw [List.flatMap_cons, List.append_assoc, option_list_cons hcode hlen,
        ih (fun e he => h e (List.mem_cons_of_mem _ he)) hrest]
      rfl

theorem encodings_length (entries : List entry) :
    entries.length ≤ (entries.flatMap entry.encoding).length := by
  induction entries with
  | nil => exact Nat.le_refl 0
  | cons e rest ih =>
    have hpos := encoding_pos e
    rw [List.flatMap_cons, List.length_append, List.length_cons]
    omega

/-- What the options of a packet block append, read back. -/
theorem read_tail {entries : List entry} (h : ∀ e ∈ entries, block.entry_fits e) :
    read_options (tail entries) = some (entries.map entry.option) := by
  have hall : entries.filter entry.written = entries :=
    List.filter_eq_self.mpr fun e he => entry_fits_written (h e he)
  unfold read_options tail encodings
  rw [hall]
  cases entries with
  | nil => rfl
  | cons e rest =>
    have hne : (e :: rest).flatMap entry.encoding ++ u32 footer ≠ [] := by
      intro hnil
      have hfooter := (List.append_eq_nil_iff.mp hnil).2
      cases hfooter
    have hlen : (e :: rest).length < ((e :: rest).flatMap entry.encoding ++ u32 footer).length := by
      have := encodings_length (e :: rest)
      rw [List.length_append, u32_length]
      omega
    rw [if_neg (List.cons_ne_nil e rest), if_neg hne, options_read h hlen]

/-! ## What a block appends -/

namespace block

def type : block → UInt32
  | .section_header _ => pcapng_shb.type
  | .interface _ => pcapng_ifb.type
  | .packet _ => pcapng_epb.type

/-- The length that a packet block gives for its data. -/
def captured (b : pcapng_epb) : UInt32 :=
  match b.packet_data with
  | some packet_data => UInt32.ofNat packet_data.length
  | none => b.captured_len

/-- The packet data with their padding. -/
def padded (b : pcapng_epb) : List UInt8 :=
  match b.packet_data with
  | some packet_data => packet_data ++ padding (padding_sz32 packet_data.length)
  | none => []

/-- What stands between the two lengths. -/
def body (now : UInt32 × UInt32) : block → List UInt8
  | .section_header b =>
    u32 pcapng_shb.magic ++ (u16 pcapng_shb.version_maj ++ (u16 pcapng_shb.version_min ++
      (u64 pcapng_shb.section_length ++ b.options.getD [])))
  | .interface b =>
    u16 b.link_type ++ (u16 pcapng_ifb._reserved1 ++ (u32 b.snaplen ++ b.options.getD []))
  | .packet b =>
    u32 b.iface_id ++ (u32 (b.timestamp now).timestamp_high ++
      (u32 (b.timestamp now).timestamp_low ++ (u32 (captured b) ++ (u32 (captured b) ++
        (padded b ++ tail (b.options.getD []))))))

theorem timestamp_total (now : UInt32 × UInt32) (b : pcapng_epb) (n : UInt32) :
    ({ b with total_length := n } : pcapng_epb).timestamp now =
      { b.timestamp now with total_length := n } := by
  unfold pcapng_epb.timestamp
  split <;> rfl

theorem timestamp_same (now : UInt32 × UInt32) (b : pcapng_epb) :
    (b.timestamp now).packet_data = b.packet_data ∧ (b.timestamp now).options = b.options ∧
      (b.timestamp now).captured_len = b.captured_len ∧
      (b.timestamp now).iface_id = b.iface_id := by
  unfold pcapng_epb.timestamp
  split <;> exact ⟨rfl, rfl, rfl, rfl⟩

theorem tail_nil : tail [] = [] := rfl

/-- A block appends a frame. -/
theorem append_eq (blk : block) (now : UInt32 × UInt32) (out : List UInt8) :
    blk.append now out = ((frame blk.type (UInt32.ofNat blk.size) (blk.body now)).length,
      out ++ frame blk.type (UInt32.ofNat blk.size) (blk.body now)) := by
  have hsum : ∀ (next f : List UInt8), next = out ++ f →
      (next.length - out.length, next) = (f.length, out ++ f) := by
    rintro next f rfl
    rw [List.length_append, Nat.add_sub_cancel_left]
  cases blk with
  | section_header b =>
    have hnext : (b.append out).2.1 =
        out ++ frame pcapng_shb.type (UInt32.ofNat b.size) (body now (.section_header b)) := by
      unfold pcapng_shb.append
      cases hopt : b.options <;>
        simp only [hopt, frame, body, Option.getD_some, Option.getD_none, List.append_assoc,
          List.append_nil]
    exact hsum _ _ hnext
  | interface b =>
    have hnext : (b.append out).2.1 =
        out ++ frame pcapng_ifb.type (UInt32.ofNat b.size) (body now (.interface b)) := by
      unfold pcapng_ifb.append
      cases hopt : b.options <;>
        simp only [hopt, frame, body, Option.getD_some, Option.getD_none, List.append_assoc,
          List.append_nil]
    exact hsum _ _ hnext
  | packet b =>
    have hnext : (b.append now out).2.1 =
        out ++ frame pcapng_epb.type (UInt32.ofNat b.size) (body now (.packet b)) := by
      obtain ⟨hdata, hoptions, hlen, -⟩ := timestamp_same now b
      simp only [pcapng_epb.append, timestamp_total, hdata, options.append_eq, frame, body,
        captured, padded]
      cases b.packet_data <;> cases hopt : b.options <;>
        simp only [hoptions, hlen, hopt, Option.getD_some, Option.getD_none, tail_nil,
          List.append_assoc, List.append_nil, List.nil_append]
    exact hsum _ _ hnext

theorem ofNat_toNat {n : Nat} : (UInt32.ofNat n).toNat = n % 4294967296 :=
  UInt32.toNat_ofNat'

/-- The law of a block, without its frame. -/
theorem lawful_iff (blk : block) (now : UInt32 × UInt32) (out : List UInt8) :
    (∃ bs, blk.Lawful now out bs) ↔
      (blk.body now).length + 12 = blk.size ∧ blk.size < 2 ^ 32 ∧ 4 ∣ blk.size ∧
        (∀ e ∈ blk.entries, e.written = true → (e.append out).2.2.len.toNat = e.bytes.length) ∧
        ∃ c, blk.Says c ∧ content_of blk.type.toNat (blk.body now) = some c := by
  have hlen := frame_length blk.type (UInt32.ofNat blk.size) (blk.body now)
  constructor
  · rintro ⟨bs, h⟩
    have hbs : bs = frame blk.type (UInt32.ofNat blk.size) (blk.body now) := by
      have happ := h.appends
      rw [append_eq, Prod.mk.injEq] at happ
      exact (List.append_cancel_left happ.2).symm
    have hsize : (blk.body now).length + 12 = blk.size := by
      rw [← hlen, ← hbs]
      exact h.size
    have hfit : blk.size < 2 ^ 32 := by
      have hlead := h.leading
      rw [hbs, frame_leading, ofNat_toNat, Option.some.injEq, hlen, hsize] at hlead
      omega
    have hal : 4 ∣ blk.size := by
      rw [← h.size]
      exact h.aligned
    have hn : (UInt32.ofNat blk.size).toNat = blk.size := by
      rw [ofNat_toNat]
      omega
    have hn4 : 4 ∣ (UInt32.ofNat blk.size).toNat := by
      rw [hn]
      exact hal
    obtain ⟨c, hsaid, hreads⟩ := h.reads
    rw [hbs, frame_reads_iff (hn.trans hsize.symm) hn4] at hreads
    exact ⟨hsize, hfit, hal, h.lens, c, hsaid, hreads⟩
  · rintro ⟨hsize, hfit, hal, hlens, c, hsaid, hcontent⟩
    have hn : (UInt32.ofNat blk.size).toNat = blk.size := by
      rw [ofNat_toNat]
      omega
    have hn4 : 4 ∣ (UInt32.ofNat blk.size).toNat := by
      rw [hn]
      exact hal
    refine ⟨frame blk.type (UInt32.ofNat blk.size) (blk.body now), ?_, ?_, ?_, ?_, ?_, hlens, c,
      hsaid, ?_⟩
    · rw [append_eq, hlen, hsize]
    · rw [hlen, hsize]
    · rw [frame_leading, hn, hlen, hsize]
    · rw [frame_trailing, hn, hlen, hsize]
    · rw [hlen, hsize]
      exact hal
    · rw [frame_reads_iff (hn.trans hsize.symm) hn4]
      exact hcontent

/-! ## Section header and interface -/

theorem rest_options_run (bs : List UInt8) (f : List option → content) :
    ((rest_options >>= fun opts => pure (f opts)).run bs).map Prod.fst =
      (read_options bs).map f := by
  rw [StateT.run_bind]
  change ((rest_options bs).bind _).map Prod.fst = _
  unfold rest_options
  cases read_options bs with
  | none => rfl
  | some opts => rfl

theorem section_content (b : pcapng_shb) (now : UInt32 × UInt32) :
    content_of pcapng_shb.type.toNat (body now (.section_header b)) =
      (read_options (b.options.getD [])).map content.section_header := by
  have hmagic : decide (pcapng_shb.magic.toNat = pcapng_shb.magic.toNat) = true :=
    decide_eq_true rfl
  unfold content_of body
  rw [if_pos rfl]
  unfold read_section u64
  rw [(reads_u32 _).run_bind, check_run hmagic, (reads_u16 _).run_bind, (reads_u16 _).run_bind,
    List.append_assoc, (reads_get32 _).run_bind, (reads_get32 _).run_bind]
  exact rest_options_run _ content.section_header

theorem interface_content (b : pcapng_ifb) (now : UInt32 × UInt32) :
    content_of pcapng_ifb.type.toNat (body now (.interface b)) =
      (read_options (b.options.getD [])).map
        (content.interface b.link_type.toNat b.snaplen.toNat) := by
  have hne : ¬ pcapng_ifb.type.toNat = pcapng_shb.type.toNat := by decide
  unfold content_of body
  rw [if_neg hne, if_pos rfl]
  unfold read_interface
  rw [(reads_u16 _).run_bind, (reads_u16 _).run_bind, (reads_u32 _).run_bind]
  exact rest_options_run _ (content.interface b.link_type.toNat b.snaplen.toNat)

/-- The law of a block of `n` bytes that takes its options as bytes. -/
theorem bytes_iff {blk : block} {now : UInt32 × UInt32} {n : Nat} {bs : List UInt8}
    {f : List option → content} (hsize : blk.size = n + bs.length) (hn : 4 ∣ n)
    (hbody : (blk.body now).length + 12 = blk.size) (hentries : blk.entries = [])
    (hcontent : content_of blk.type.toNat (blk.body now) = (read_options bs).map f)
    (hsaid : ∀ opts, read_options bs = some opts → blk.Says (f opts)) (out : List UInt8) :
    (∃ bs, blk.Lawful now out bs) ↔
      blk.size < 2 ^ 32 ∧ (read_options bs).isSome ∧ 4 ∣ bs.length := by
  rw [lawful_iff, hcontent]
  constructor
  · rintro ⟨-, hfit, hal, -, c, -, hread⟩
    obtain ⟨opts, hopts, -⟩ := Option.map_eq_some_iff.mp hread
    exact ⟨hfit, Option.isSome_iff_exists.mpr ⟨opts, hopts⟩, by omega⟩
  · rintro ⟨hfit, hopts, hal⟩
    obtain ⟨opts, hopts⟩ := Option.isSome_iff_exists.mp hopts
    refine ⟨hbody, hfit, by omega, ?_, f opts, hsaid opts hopts, by rw [hopts, Option.map_some]⟩
    intro e he
    rw [hentries] at he
    cases he

theorem section_iff (b : pcapng_shb) (now : UInt32 × UInt32) (out : List UInt8) :
    (∃ bs, (block.section_header b).Lawful now out bs) ↔ (block.section_header b).Fits := by
  have hsize : (block.section_header b).size = 28 + (b.options.getD []).length := by
    simp only [size, pcapng_shb.size]
    cases b.options with
    | none => rfl
    | some options => exact Nat.add_comm _ _
  have hbody : (body now (.section_header b)).length + 12 = (block.section_header b).size := by
    rw [hsize]
    simp [body]
    omega
  exact bytes_iff hsize (by decide) hbody rfl (section_content b now) (fun _ h => h) out

theorem interface_iff (b : pcapng_ifb) (now : UInt32 × UInt32) (out : List UInt8) :
    (∃ bs, (block.interface b).Lawful now out bs) ↔ (block.interface b).Fits := by
  have hsize : (block.interface b).size = 20 + (b.options.getD []).length := by
    simp only [size, pcapng_ifb.size]
    cases b.options with
    | none => rfl
    | some options => exact Nat.add_comm _ _
  have hbody : (body now (.interface b)).length + 12 = (block.interface b).size := by
    rw [hsize]
    simp [body]
    omega
  apply bytes_iff hsize (by decide) hbody rfl (interface_content b now)
  exact fun opts h => ⟨rfl, rfl, h⟩

/-! ## Packets -/

theorem packet_content (b : pcapng_epb) (now : UInt32 × UInt32) {data : List UInt8}
    (hdata : padded b = data ++ padding (padding_sz32 data.length))
    (hlen : (captured b).toNat = data.length) :
    content_of pcapng_epb.type.toNat (body now (.packet b)) =
      (read_options (tail (b.options.getD []))).map
        (content.packet b.iface_id.toNat (b.timestamp now).timestamp_high.toNat
          (b.timestamp now).timestamp_low.toNat data.length data) := by
  have hshb : ¬ pcapng_epb.type.toNat = pcapng_shb.type.toNat := by decide
  have hifb : ¬ pcapng_epb.type.toNat = pcapng_ifb.type.toNat := by decide
  have hpad := reads_bytes (padding (padding_sz32 data.length))
  rw [padding_length] at hpad
  unfold content_of body
  rw [if_neg hshb, if_neg hifb, if_pos rfl]
  unfold read_packet
  rw [(reads_u32 _).run_bind, (reads_u32 _).run_bind, (reads_u32 _).run_bind,
    (reads_u32 _).run_bind, (reads_u32 _).run_bind, hlen, hdata, List.append_assoc,
    (reads_bytes data).run_bind, hpad.run_bind]
  exact rest_options_run _ _

/-- A block without packet data, and with a length that it keeps from before, says other data. -/
theorem captured_zero {b : pcapng_epb} {now : UInt32 × UInt32} {c : content}
    (hnone : b.packet_data = none) (hsaid : (block.packet b).Says c)
    (hcontent : content_of pcapng_epb.type.toNat (body now (.packet b)) = some c) :
    b.captured_len = 0 := by
  have hshb : ¬ pcapng_epb.type.toNat = pcapng_shb.type.toNat := by decide
  have hifb : ¬ pcapng_epb.type.toNat = pcapng_ifb.type.toNat := by decide
  unfold content_of body at hcontent
  rw [if_neg hshb, if_neg hifb, if_pos rfl] at hcontent
  unfold read_packet at hcontent
  rw [(reads_u32 _).run_bind, (reads_u32 _).run_bind, (reads_u32 _).run_bind,
    (reads_u32 _).run_bind, (reads_u32 _).run_bind] at hcontent
  obtain ⟨r, hr, hc⟩ := Option.map_eq_some_iff.mp hcontent
  have hcaptured : captured b = b.captured_len := by
    unfold captured
    rw [hnone]
  rw [hcaptured] at hr
  obtain ⟨hlen, hr⟩ := bytes_run hr
  obtain ⟨-, hr⟩ := bytes_run hr
  have hmap := congrArg (Option.map Prod.fst) hr
  rw [rest_options_run _ (content.packet _ _ _ _ _), Option.map_some, hc,
    Option.map_eq_some_iff] at hmap
  obtain ⟨opts, -, rfl⟩ := hmap
  -- the packet data that are read are as long as the length says, and there are none
  have hempty := hsaid.2.2.1
  rw [hnone, Option.getD_none, List.take_eq_nil_iff] at hempty
  have hzero : b.captured_len.toNat = 0 := by
    rcases hempty with h | h
    · exact h
    · rw [h, List.length_nil] at hlen
      omega
  exact UInt32.toNat_inj.mp hzero

theorem packet_lengths (b : pcapng_epb) (now : UInt32 × UInt32) :
    (block.packet b).size = 32 + (padded b).length + (encodings (b.options.getD [])).length +
        4 * ((b.options.getD []).filter entry.written).length ∧
      (body now (.packet b)).length =
        20 + (padded b).length + (tail (b.options.getD [])).length := by
  constructor
  · simp only [size, pcapng_epb.size, pcapng_epb.fixed_sz, padded]
    cases hd : b.packet_data <;> cases ho : b.options <;>
      simp only [options.size_eq, Option.getD_some, Option.getD_none, encodings, List.filter_nil,
        List.flatMap_nil, List.length_nil, List.length_append, padding_length] <;> omega
  · simp only [body, List.length_append, u32_length]
    omega

theorem padding_aligned (n : Nat) : 4 ∣ n + padding_sz32 n := by
  rw [padding_sz32_eq]
  omega

theorem padded_aligned (b : pcapng_epb) : 4 ∣ (padded b).length := by
  unfold padded
  cases b.packet_data with
  | none => exact Nat.dvd_zero 4
  | some data =>
    rw [List.length_append, padding_length]
    exact padding_aligned data.length

theorem encodings_aligned (entries : List entry) : 4 ∣ (encodings entries).length := by
  unfold encodings
  induction entries.filter entry.written with
  | nil => exact Nat.dvd_zero 4
  | cons e rest ih =>
    have hpad := padding_aligned e.bytes.length
    rw [List.flatMap_cons, List.length_append]
    simp only [entry.encoding, List.length_append, u16_length, padding_length]
    omega

theorem tail_length (entries : List entry) :
    (tail entries).length = (encodings entries).length +
      if (entries.filter entry.written).length = 0 then 0 else 4 := by
  unfold tail
  rw [List.length_append]
  cases entries.filter entry.written with
  | nil => rfl
  | cons e rest => simp

/-- A reader finds no code 0 before the end of the options. -/
theorem code_of_read {e : entry} (hw : e.written = true) (hlen : e.bytes.length < 65536)
    {opts : List option} (hread : read_options (e.encoding ++ u32 footer) = some opts) :
    e.code ≠ 0 := by
  intro hzero
  have hne : e.bytes ≠ [] := by
    intro h
    simp [entry.written, h] at hw
  have hpos : 0 < e.bytes.length := List.length_pos_iff.mpr hne
  have hnil : e.encoding ++ u32 footer ≠ [] := by
    intro h
    have hzeros := congrArg List.length h
    simp at hzeros
  obtain ⟨n, hn⟩ := Nat.exists_eq_succ_of_ne_zero (List.length_pos_iff.mpr hnil).ne'
  unfold read_options at hread
  rw [if_neg hnil, hn, option_list_zero hzero hpos hlen] at hread
  cases hread

/-- The options that a packet block writes are read back as they are only if each of them fits. -/
theorem options_fit {entries : List entry} (hcount : (entries.filter entry.written).length ≤ 1)
    (hlens : ∀ e ∈ entries, e.written = true → e.bytes.length < 65536)
    (hread : read_options (tail entries) = some (entries.map entry.option)) :
    entries.length ≤ 1 ∧ ∀ e ∈ entries, entry_fits e := by
  cases hf : entries.filter entry.written with
  | nil =>
    have htail : tail entries = [] := by
      unfold tail encodings
      rw [hf]
      rfl
    rw [htail] at hread
    have hnil : entries.map entry.option = [] := (Option.some.inj hread).symm
    rw [List.map_eq_nil_iff] at hnil
    subst hnil
    exact ⟨Nat.zero_le 1, fun e he => absurd he List.not_mem_nil⟩
  | cons e rest =>
    have hrest : rest = [] := by
      rw [hf, List.length_cons] at hcount
      exact List.eq_nil_of_length_eq_zero (by omega)
    subst hrest
    have hmem : e ∈ entries.filter entry.written := by
      rw [hf]
      exact List.mem_singleton_self e
    obtain ⟨he, hw⟩ := List.mem_filter.mp hmem
    have hlen := hlens e he hw
    have hne : e.bytes ≠ [] := by
      intro h
      simp [entry.written, h] at hw
    have htail : tail entries = e.encoding ++ u32 footer := by
      unfold tail encodings
      rw [hf]
      simp
    have hfits : entry_fits e := ⟨code_of_read hw hlen (htail ▸ hread), hne, hlen⟩
    have hsingle : read_options (tail [e]) = some [e.option] :=
      read_tail fun e' he' => (List.mem_singleton.mp he') ▸ hfits
    have hsame : tail entries = tail [e] := by
      unfold tail encodings
      rw [hf, List.filter_cons_of_pos hw, List.filter_nil]
    rw [hsame, hsingle, Option.some.injEq] at hread
    have hone : entries.length = 1 := by
      have := congrArg List.length hread
      rw [List.length_map] at this
      exact this.symm
    obtain ⟨x, rfl⟩ := List.length_eq_one_iff.mp hone
    rw [List.mem_singleton] at he
    subst he
    exact ⟨Nat.le_refl 1, fun e' he' => (List.mem_singleton.mp he') ▸ hfits⟩

theorem entry_append_len (e : entry) (out : List UInt8) (h : e.written = true) :
    (e.append out).2.2.len.toNat = e.bytes.length ↔ e.bytes.length < 65536 := by
  rw [e.append_eq out h]
  have hl : (UInt16.ofNat e.bytes.length).toNat = e.bytes.length % 65536 := UInt16.toNat_ofNat'
  simp only [hl]
  omega

/-- A packet block that is not too long says its data, and what its options say. -/
theorem packet_body_content (b : pcapng_epb) (now : UInt32 × UInt32)
    (hfit : (block.packet b).size < 2 ^ 32) (hcap : b.packet_data = none → b.captured_len = 0) :
    content_of pcapng_epb.type.toNat (body now (.packet b)) =
      (read_options (tail (b.options.getD []))).map
        (content.packet b.iface_id.toNat (b.timestamp now).timestamp_high.toNat
          (b.timestamp now).timestamp_low.toNat (b.packet_data.getD []).length
          (b.packet_data.getD [])) := by
  obtain ⟨hsize, -⟩ := packet_lengths b now
  cases hd : b.packet_data with
  | none =>
    apply packet_content
    · unfold padded
      rw [hd]
      rfl
    · unfold captured
      rw [hd]
      simp [hcap hd]
  | some data =>
    have hp : padded b = data ++ padding (padding_sz32 data.length) := by
      unfold padded
      rw [hd]
    have hlt : data.length < 4294967296 := by
      rw [hp, List.length_append] at hsize
      omega
    apply packet_content
    · exact hp
    · unfold captured
      rw [hd]
      exact ofNat_toNat.trans (Nat.mod_eq_of_lt hlt)

theorem packet_iff (b : pcapng_epb) (now : UInt32 × UInt32) (out : List UInt8) :
    (∃ bs, (block.packet b).Lawful now out bs) ↔ (block.packet b).Fits := by
  obtain ⟨hsize, hbody⟩ := packet_lengths b now
  have htail := tail_length (b.options.getD [])
  rw [lawful_iff]
  constructor
  · rintro ⟨hlen, hfit, -, hlens, c, hsaid, hc⟩
    change content_of pcapng_epb.type.toNat _ = _ at hc
    have hcap : b.packet_data = none → b.captured_len = 0 := fun hd => captured_zero hd hsaid hc
    have hcount : ((b.options.getD []).filter entry.written).length ≤ 1 := by
      rw [hsize, hbody, htail] at hlen
      split at hlen <;> omega
    have hlens' : ∀ e ∈ b.options.getD [], e.written = true → e.bytes.length < 65536 :=
      fun e he hw => (entry_append_len e out hw).mp (hlens e he hw)
    have hread : read_options (tail (b.options.getD [])) =
        some ((b.options.getD []).map entry.option) := by
      rw [packet_body_content b now hfit hcap, Option.map_eq_some_iff] at hc
      obtain ⟨opts, hopts, rfl⟩ := hc
      rw [hopts, hsaid.2.2.2]
      rfl
    obtain ⟨hone, hall⟩ := options_fit hcount hlens' hread
    exact ⟨hfit, hone, hall, hcap⟩
  · rintro ⟨hfit, hone, hall, hcap⟩
    have hfilter : (b.options.getD []).filter entry.written = b.options.getD [] :=
      List.filter_eq_self.mpr fun e he => entry_fits_written (hall e he)
    have hlen : (body now (.packet b)).length + 12 = (block.packet b).size := by
      rw [hsize, hbody, htail, hfilter]
      split <;> omega
    have hal : 4 ∣ (block.packet b).size := by
      have hdata := padded_aligned b
      have hopts := encodings_aligned (b.options.getD [])
      omega
    refine ⟨hlen, hfit, hal, fun e he hw => (entry_append_len e out hw).mpr (hall e he).2.2, ?_⟩
    refine ⟨_, ?_, (packet_body_content b now hfit hcap).trans
      (congrArg (Option.map _) (read_tail hall))⟩
    exact ⟨rfl, rfl, rfl, rfl⟩

/-- For each block, each time and each buffer: `append` does what the law says when, and only
when, the numbers of the block fit into their fields, options that are given as bytes are a list
of the format, and a packet has at most one option, with data. -/
theorem blocks_are_lawful (blk : block) (now : UInt32 × UInt32) (out : List UInt8) :
    (∃ bs, blk.Lawful now out bs) ↔ blk.Fits := by
  cases blk with
  | section_header b => exact section_iff b now out
  | interface b => exact interface_iff b now out
  | packet b => exact packet_iff b now out

/-- A packet block with the comments `a` and `b`. -/
def two_comments : pcapng_epb :=
  (({} : pcapng_epb).comment [97]).comment [98]

/-- It says that it has 56 bytes, and appends 52. -/
theorem two_comments_are_not_lawful :
    ¬ ∀ (blk : block) (now : UInt32 × UInt32) (out : List UInt8), ∃ bs, blk.Lawful now out bs := by
  intro hall
  obtain ⟨bs, h⟩ := hall (.packet two_comments) (1, 2) []
  have hsize : (append (1, 2) [] (.packet two_comments)).1 = size (.packet two_comments) :=
    congrArg Prod.fst h.appends
  exact absurd hsize (by decide)

end block

end socle.pcapng
