-- Matching a signature against a flow, chunk by chunk (flowMatch and
-- flowMatchState of signature.hpp). The length of the result tells where the last
-- call stopped. A flow has fewer entries than an int can count.
import Socle.Flow

namespace socle.flows

open lib.run

/-! ## One pattern -/

abbrev range := Int × Int

def NULLRANGE : range := (0, -1)

/-- A `size_t` as an `int`. -/
def to_int (n : Nat) : Int :=
  if n % 2 ^ 32 < 2 ^ 31 then (n % 2 ^ 32 : Nat) else (n % 2 ^ 32 : Nat) - 2 ^ 32

/-- `str.find(expr)`: where `expr` starts first in the string. -/
def find (expr : List UInt8) : List UInt8 → Option Nat
  | [] => if expr = [] then some 0 else none
  | b :: rest => if expr.isPrefixOf (b :: rest) then some 0 else (find expr rest).map (· + 1)

structure simpleMatch where
  expr : List UInt8
  match_limits_offset : UInt32 := 0
  match_limits_bytes : UInt32 := 0

namespace simpleMatch

def search_function (expr str : List UInt8) : range :=
  match find expr str with
  | none => NULLRANGE
  | some pos => (to_int pos, to_int str.length)

/-- `match`. -/
def match_ (m : simpleMatch) (data : List UInt8) (len : UInt32) : range :=
  let loc := search_function m.expr (data.take len.toNat)
  if loc = NULLRANGE then NULLRANGE else (loc.1, loc.1 + loc.2 - 1)

/-- The view of the data which reflects the limits. The sum of the limits is of 32 bits. -/
def view (m : simpleMatch) (data : List UInt8) : List UInt8 :=
  if m.match_limits_bytes > 0 ∨ m.match_limits_offset > 0 then
    let pos := if m.match_limits_offset.toNat < data.length then m.match_limits_offset.toNat
      else data.length - 1
    let len := if (m.match_limits_bytes + m.match_limits_offset).toNat < data.length then
      m.match_limits_bytes.toNat else data.length
    (data.drop pos).take len
  else data

/-- The match in the data of an entry. -/
def match_view (m : simpleMatch) (data : List UInt8) : range :=
  m.match_ (m.view data) (UInt32.ofNat (m.view data).length)

end simpleMatch

/-! ## A chain of patterns -/

/-- `signature_` of a `flowMatch`: for each step the side, and the pattern. -/
abbrev flowMatch (S : Type) := List (S × simpleMatch)

/-- What `match` keeps from call to call. No function of the code keeps `valid`, which tells whether
each `erase` was at a valid position, and `examined`, the number of entries that were looked at. -/
structure flowMatchState where
  ranges_ : List range := []
  sig_pos_ : Nat := 0
  valid : Bool := true
  examined : Nat := 0
deriving DecidableEq

variable {S : Type} [DecidableEq S]

namespace flowMatchState

/-- `ret.erase(ret.end())`: there is nothing at this position. What follows is undefined. Here, as
with the usual library, it takes the last range away. -/
def erase_end (m : flowMatchState) : flowMatchState :=
  { m with ranges_ := m.ranges_.dropLast, valid := false }

def push_back (r : range) (m : flowMatchState) : flowMatchState :=
  { m with ranges_ := m.ranges_ ++ [r] }

/-- The body of the loop of `match`, for the entry at `cur_flow`. -/
def examine (cur_flow : Nat) (ff : FlowEntry S) (step : S × simpleMatch) (m : flowMatchState) :
    flowMatchState :=
  let m := { m with examined := max m.examined (cur_flow + 1) }
  -- don't attempt to match empty buffer
  if ff.data_ = [] then m
  else if ff.source_ = step.1 then
    let r := step.2.match_view ff.data_
    if r ≠ NULLRANGE then
      -- if previous result was NULLRANGE, remove
      let m := if cur_flow + 1 = m.ranges_.length then m.erase_end else m
      { m.push_back r with sig_pos_ := m.sig_pos_ + 1 }
    -- don't add another NULLRANGES if we are at last position which is NULLRANGE already
    else if cur_flow + 1 ≠ m.ranges_.length then m.push_back NULLRANGE
    else m
  -- different direction, skipping
  else if cur_flow + 1 ≠ m.ranges_.length then m.push_back NULLRANGE
  else m

variable (signature : flowMatch S)

/-- The loop of `match`, over the entries from `cur_flow` on. -/
def loop : Nat → List (FlowEntry S) → flowMatchState → flowMatchState
  | _, [], m => m
  | cur_flow, ff :: rest, m =>
    match signature[m.sig_pos_]? with
    | none => m
    | some step => loop (cur_flow + 1) rest (m.examine cur_flow ff step)

/-- The first entry that a call looks at: the LAST already examined, NOT NEXT. -/
def flow_step (m : flowMatchState) : Nat :=
  if m.ranges_ ≠ [] then m.ranges_.length - 1 else 0

/-- `update`, and `match` with the state. -/
def update (f : Flow S) (m : flowMatchState) : Bool × flowMatchState :=
  let m := loop signature m.flow_step (f.flow_queue_.drop m.flow_step) m
  (decide (m.sig_pos_ > 0 ∧ m.sig_pos_ ≥ signature.length), m)

end flowMatchState

/-! ## Runs -/

/-- A flow, the state of one signature, and what the last `update` returned. -/
structure Detection (S : Type) where
  flow : Flow S := {}
  state : flowMatchState := {}
  hit : Bool := false

section
variable (max_flow_size : Nat) (signature : flowMatch S)

/-- A chunk, and then `update`. -/
def detect (s : Detection S) (chunk : S × List UInt8) : Option (Detection S) :=
  if chunk.2 = [] then none
  else
    let flow := s.flow.append max_flow_size chunk.1 chunk.2
    let r := s.state.update signature flow
    some { flow, state := r.2, hit := r.1 }

/-! ## The law -/

/-- A single `update` on the flow. -/
def one_shot (f : Flow S) : Bool × flowMatchState :=
  ({} : flowMatchState).update signature f

/-- Updates after each chunk end as a single update does. -/
structure OneShot (s : Detection S) : Prop where
  verdict : s.hit = (one_shot signature s.flow).1
  steps : s.state.sig_pos_ = (one_shot signature s.flow).2.sig_pos_
  /-- There is at most one range for each entry that was looked at. -/
  ranges : s.state.ranges_.length ≤ s.state.examined
  entries : s.state.examined ≤ s.flow.flow_queue_.length
  valid : s.state.valid = true
  again : s.state.update signature s.flow = (s.hit, s.state)

/-- The entry matches the step of the signature. -/
def hits (pos : Nat) (e : FlowEntry S) : Bool :=
  match signature[pos]? with
  | none => false
  | some step => decide (e.source_ = step.1 ∧ step.2.match_view e.data_ ≠ NULLRANGE)

/-- The last entry was looked at, and has a match in the result. -/
def matched (s : Detection S) : Prop :=
  s.state.ranges_.length = s.flow.flow_queue_.length ∧
    ∀ r ∈ s.state.ranges_.getLast?, r ≠ NULLRANGE

/-- A chunk that starts an entry does not make it match two steps. A chunk that makes the last entry
grow leaves it with the match that it had, and gives it no other one. -/
def Steady (s : Detection S) (chunk : S × List UInt8) : Prop :=
  let pos := s.state.sig_pos_
  let started : FlowEntry S := { source_ := chunk.1, data_ := chunk.2 }
  let starts := hits signature pos started → hits signature (pos + 1) started = false
  match s.flow.flow_queue_.getLast? with
  | none => starts
  | some back =>
    if back.source_ = chunk.1 then
      back.data_.length + chunk.2.length ≤ max_flow_size →
        let grown := back.append chunk.2
        (matched s → hits signature (pos - 1) grown) ∧ hits signature pos grown = false
    else starts

end

/-! ## One entry -/

section
variable {signature : flowMatch S}

theorem hits_beyond {pos : Nat} (h : signature.length ≤ pos) (e : FlowEntry S) :
    hits signature pos e = false := by
  rw [hits, List.getElem?_eq_none h]

/-- A match depends on the side and the bytes of an entry only. -/
theorem hits_congr {pos : Nat} {e e' : FlowEntry S} (hsource : e'.source_ = e.source_)
    (hdata : e'.data_ = e.data_) : hits signature pos e' = hits signature pos e := by
  simp only [hits, hsource, hdata]

section
variable {m : flowMatchState} {cur_flow : Nat} {e : FlowEntry S} {step : S × simpleMatch}

/-- The result for an entry that was not looked at before stands behind the others. -/
theorem examine_new (hcur : m.ranges_.length = cur_flow) (he : e.data_ ≠ [])
    (hstep : signature[m.sig_pos_]? = some step) :
    ∃ r, (r ≠ NULLRANGE ↔ hits signature m.sig_pos_ e = true) ∧
      m.examine cur_flow e step = { m with
        ranges_ := m.ranges_ ++ [r]
        sig_pos_ := if hits signature m.sig_pos_ e then m.sig_pos_ + 1 else m.sig_pos_
        examined := max m.examined (cur_flow + 1) } := by
  have hnew : cur_flow + 1 ≠ m.ranges_.length := by omega
  by_cases hmatch : e.source_ = step.1 ∧ step.2.match_view e.data_ ≠ NULLRANGE
  · have hhit : hits signature m.sig_pos_ e = true := by simp [hits, hstep, hmatch]
    refine ⟨step.2.match_view e.data_, by simp [hhit, hmatch.2], ?_⟩
    simp [flowMatchState.examine, flowMatchState.push_back, he, hmatch.1, hmatch.2, hnew, hhit]
  · have hmiss : hits signature m.sig_pos_ e = false := by simp [hits, hstep, hmatch]
    refine ⟨NULLRANGE, by simp [hmiss], ?_⟩
    by_cases hsource : e.source_ = step.1
    · have hnull : step.2.match_view e.data_ = NULLRANGE := by
        by_contra hne
        exact hmatch ⟨hsource, hne⟩
      simp [flowMatchState.examine, flowMatchState.push_back, he, hsource, hnull, hnew, hmiss]
    · simp [flowMatchState.examine, flowMatchState.push_back, he, hsource, hnew, hmiss]

/-- Another look at the last entry changes nothing when the entry does not match. -/
theorem examine_idle (hcur : cur_flow + 1 = m.ranges_.length) (hex : m.examined = m.ranges_.length)
    (hstep : signature[m.sig_pos_]? = some step) (hmiss : hits signature m.sig_pos_ e = false) :
    m.examine cur_flow e step = m := by
  have hsame : { m with examined := max m.examined (cur_flow + 1) } = m := by
    rw [hcur, hex, max_self, ← hex]
  simp only [hits, hstep, decide_eq_false_iff_not, not_and, not_not] at hmiss
  simp only [flowMatchState.examine, hsame]
  by_cases he : e.data_ = []
  · rw [if_pos he]
  · by_cases hsource : e.source_ = step.1
    · simp [he, hsource, hmiss hsource, hcur]
    · simp [he, hsource, hcur]

/-- When it matches, a range is erased at the end. -/
theorem examine_erases (hcur : cur_flow + 1 = m.ranges_.length) (he : e.data_ ≠ [])
    (hstep : signature[m.sig_pos_]? = some step) (hhit : hits signature m.sig_pos_ e = true) :
    (m.examine cur_flow e step).valid = false := by
  simp only [hits, hstep, decide_eq_true_eq] at hhit
  simp [flowMatchState.examine, flowMatchState.push_back, flowMatchState.erase_end, he, hhit.1,
    hhit.2, hcur]

end

/-! ## The loop -/

/-- The steps that the entries match, one after the other. -/
def reach (signature : flowMatch S) (pos : Nat) (es : List (FlowEntry S)) : Nat :=
  es.foldl (fun pos e => if hits signature pos e then pos + 1 else pos) pos

theorem reach_concat (pos : Nat) (es : List (FlowEntry S)) (e : FlowEntry S) :
    reach signature pos (es ++ [e]) =
      if hits signature (reach signature pos es) e then reach signature pos es + 1
      else reach signature pos es := by
  rw [reach, List.foldl_append]
  rfl

/-- Behind the signature nothing matches. -/
theorem reach_beyond {pos : Nat} (h : signature.length ≤ pos) (es : List (FlowEntry S)) :
    reach signature pos es = pos := by
  induction es with
  | nil => rfl
  | cons e rest ih =>
    simp only [reach, List.foldl_cons, hits_beyond h] at ih ⊢
    exact ih

theorem loop_done {m : flowMatchState} (h : signature.length ≤ m.sig_pos_) (cur_flow : Nat)
    (es : List (FlowEntry S)) : m.loop signature cur_flow es = m := by
  cases es with
  | nil => rfl
  | cons e rest => simp only [flowMatchState.loop, List.getElem?_eq_none h]

/-- Over entries that were not looked at before, the loop advances with each match. -/
theorem loop_reaches {m : flowMatchState} {es : List (FlowEntry S)} (hes : ∀ e ∈ es, e.data_ ≠ [])
    {cur_flow : Nat} (hcur : m.ranges_.length = cur_flow) :
    (m.loop signature cur_flow es).sig_pos_ = reach signature m.sig_pos_ es := by
  induction es generalizing m cur_flow with
  | nil => rfl
  | cons e rest ih =>
    by_cases hdone : signature.length ≤ m.sig_pos_
    · rw [loop_done hdone, reach_beyond hdone]
    · have hstep := List.getElem?_eq_getElem (Nat.not_le.mp hdone)
      obtain ⟨r, -, hm⟩ := examine_new hcur (hes e List.mem_cons_self) hstep
      simp only [flowMatchState.loop, hstep, hm]
      apply ih fun e' he' => hes e' (List.mem_cons_of_mem e he')
      simp [hcur]

/-- A call goes on behind the entries that were looked at, when the last one does not match. -/
theorem loop_resumes {m : flowMatchState} {q : List (FlowEntry S)}
    (hlen : m.ranges_.length = q.length) (hex : m.examined = m.ranges_.length)
    (hidle : ∀ back ∈ q.getLast?, hits signature m.sig_pos_ back = false)
    (rest : List (FlowEntry S)) :
    m.loop signature m.flow_step ((q ++ rest).drop m.flow_step) = m.loop signature q.length rest := by
  rcases List.eq_nil_or_concat q with rfl | ⟨q', back, rfl⟩
  · have hnil : m.ranges_ = [] := List.eq_nil_of_length_eq_zero hlen
    simp [flowMatchState.flow_step, hnil]
  · simp only [List.concat_eq_append, List.length_append, List.length_singleton] at hlen hidle ⊢
    have hstep : m.flow_step = q'.length := by
      have hne : m.ranges_ ≠ [] := List.ne_nil_of_length_pos (by omega)
      rw [flowMatchState.flow_step, if_pos hne, hlen, Nat.add_sub_cancel]
    rw [hstep, List.append_assoc, List.drop_left, List.singleton_append]
    by_cases hdone : signature.length ≤ m.sig_pos_
    · rw [loop_done hdone, loop_done hdone]
    · have hsig := List.getElem?_eq_getElem (Nat.not_le.mp hdone)
      have hmiss := hidle back (by simp)
      rw [flowMatchState.loop, hsig]
      simp only
      rw [examine_idle hlen.symm hex hsig hmiss]

/-- When the last one matches, a range is erased at the end. -/
theorem loop_erases {m : flowMatchState} {q : List (FlowEntry S)} {back : FlowEntry S}
    (hlen : m.ranges_.length = q.length + 1) (he : back.data_ ≠ [])
    (hhit : hits signature m.sig_pos_ back = true) :
    (m.loop signature m.flow_step ((q ++ [back]).drop m.flow_step)).valid = false := by
  have hstep : m.flow_step = q.length := by
    have hne : m.ranges_ ≠ [] := List.ne_nil_of_length_pos (by omega)
    rw [flowMatchState.flow_step, if_pos hne, hlen, Nat.add_sub_cancel]
  have hlt : m.sig_pos_ < signature.length := by
    by_contra hge
    rw [hits_beyond (Nat.not_lt.mp hge)] at hhit
    cases hhit
  have hsig := List.getElem?_eq_getElem hlt
  rw [hstep, List.drop_left, flowMatchState.loop, hsig]
  simp only [flowMatchState.loop]
  exact examine_erases hlen.symm he hsig hhit

/-! ## One chunk -/

/-- The invariant. The result has a range for each entry of the flow, unless the whole signature was
found, and the last entry does not match the next step. -/
structure Settled (signature : flowMatch S) (s : Detection S) : Prop where
  stream : s.flow.domain_ = SOCK_STREAM
  nonempty : ∀ e ∈ s.flow.flow_queue_, e.data_ ≠ []
  hit : s.hit = decide (s.state.sig_pos_ > 0 ∧ s.state.sig_pos_ ≥ signature.length)
  steps : s.state.sig_pos_ = reach signature 0 s.flow.flow_queue_
  valid : s.state.valid = true
  examined : s.state.examined = s.state.ranges_.length
  entries : s.state.ranges_.length ≤ s.flow.flow_queue_.length
  all : s.state.sig_pos_ < signature.length →
    s.state.ranges_.length = s.flow.flow_queue_.length
  idle : ∀ back ∈ s.flow.flow_queue_.getLast?, hits signature s.state.sig_pos_ back = false
  last : ∀ q back, s.flow.flow_queue_ = q ++ [back] →
    (matched s ↔ hits signature (reach signature 0 q) back = true)

omit [DecidableEq S] in
theorem nonempty_concat {q : List (FlowEntry S)} {e : FlowEntry S}
    (hq : ∀ e ∈ q, e.data_ ≠ []) (he : e.data_ ≠ []) : ∀ e' ∈ q ++ [e], e'.data_ ≠ [] := by
  intro e' he'
  rw [List.mem_append, List.mem_singleton] at he'
  rcases he' with hin | rfl
  · exact hq e' hin
  · exact he

theorem start_settled : Settled signature ({} : Detection S) where
  stream := rfl
  nonempty := fun _ he => absurd he List.not_mem_nil
  hit := by simp
  steps := rfl
  valid := rfl
  examined := rfl
  entries := le_refl 0
  all := fun _ => rfl
  idle := fun _ he => by cases he
  last := fun q back h => by simp at h

theorem Settled.nonempty_before {s : Detection S} (hs : Settled signature s)
    {q : List (FlowEntry S)} {back : FlowEntry S} (hq : s.flow.flow_queue_ = q ++ [back]) :
    ∀ e ∈ q, e.data_ ≠ [] := by
  intro e he
  apply hs.nonempty e
  rw [hq]
  exact List.mem_append_left _ he

theorem one_shot_steps {f : Flow S} (hf : ∀ e ∈ f.flow_queue_, e.data_ ≠ []) :
    (one_shot signature f).2.sig_pos_ = reach signature 0 f.flow_queue_ :=
  loop_reaches hf rfl

/-- A call without new data changes nothing. -/
theorem Settled.loop_eq {s : Detection S} (hs : Settled signature s) :
    s.state.loop signature s.state.flow_step (s.flow.flow_queue_.drop s.state.flow_step) =
      s.state := by
  by_cases hdone : signature.length ≤ s.state.sig_pos_
  · exact loop_done hdone _ _
  · have hlen := hs.all (Nat.not_le.mp hdone)
    have hresume := loop_resumes hlen hs.examined hs.idle []
    rw [List.append_nil] at hresume
    exact hresume

theorem Settled.law {s : Detection S} (hs : Settled signature s) : OneShot signature s where
  verdict := by
    rw [hs.hit, hs.steps, ← one_shot_steps hs.nonempty]
    rfl
  steps := by rw [hs.steps, one_shot_steps hs.nonempty]
  ranges := hs.examined.ge
  entries := hs.examined.trans_le hs.entries
  valid := hs.valid
  again := by
    rw [flowMatchState.update, hs.loop_eq, ← hs.hit]

section
variable {max_flow_size : Nat}

variable (max_flow_size) in
/-- A chunk starts an entry, is lost, or goes into the last entry. -/
theorem append_cases {f : Flow S} (hf : f.domain_ = SOCK_STREAM) (src : S) (data : List UInt8) :
    (∀ back ∈ f.flow_queue_.getLast?, back.source_ ≠ src) ∧
        (f.append max_flow_size src data).flow_queue_ =
          f.flow_queue_ ++ [{ source_ := src, data_ := data }] ∨
      ∃ q back, f.flow_queue_ = q ++ [back] ∧ back.source_ = src ∧
        (back.data_.length + data.length > max_flow_size ∧
            (f.append max_flow_size src data).flow_queue_ =
              q ++ [{ back with validity_ := .TRUNCATED }] ∨
          back.data_.length + data.length ≤ max_flow_size ∧
            (f.append max_flow_size src data).flow_queue_ = q ++ [back.append data]) := by
  rcases List.eq_nil_or_concat f.flow_queue_ with hq | ⟨q, back, hq⟩
  · left
    simp [Flow.append, Flow.emplace_back, hq]
  · rw [List.concat_eq_append] at hq
    have hlast : f.flow_queue_.getLast? = some back := by rw [hq, List.getLast?_concat]
    by_cases hsrc : back.source_ = src
    · right
      refine ⟨q, back, hq, hsrc, ?_⟩
      by_cases hbig : back.data_.length + data.length > max_flow_size
      · left
        simp [Flow.append, Flow.set_back, hq, hsrc, hf, hbig]
      · right
        simp [Flow.append, Flow.set_back, hq, hsrc, hf, hbig, Nat.not_lt.mp hbig]
    · left
      simp [Flow.append, Flow.emplace_back, hq, hsrc]

theorem append_domain (f : Flow S) (src : S) (data : List UInt8) :
    (f.append max_flow_size src data).domain_ = f.domain_ := by
  unfold Flow.append
  split
  · rfl
  · split
    · split
      · split <;> rfl
      · rfl
    · rfl

/-- What a chunk leaves. -/
theorem detect_cases {s s' : Detection S} {src : S} {data : List UInt8}
    (h : detect max_flow_size signature s (src, data) = some s') :
    data ≠ [] ∧ s'.flow = s.flow.append max_flow_size src data ∧
      s'.state = s.state.loop signature s.state.flow_step
        (s'.flow.flow_queue_.drop s.state.flow_step) ∧
      s'.hit = decide (s'.state.sig_pos_ > 0 ∧ s'.state.sig_pos_ ≥ signature.length) := by
  unfold detect at h
  by_cases hdata : data = []
  · simp only [hdata, if_true] at h
    cases h
  · simp only [hdata, if_false, Option.some.injEq] at h
    subst h
    exact ⟨hdata, rfl, rfl, rfl⟩

end

/-- The state behind a chunk that starts an entry. -/
theorem Settled.starts {s : Detection S} (hs : Settled signature s) {e : FlowEntry S}
    (he : e.data_ ≠ []) {m : flowMatchState}
    (hm : m = s.state.loop signature s.state.flow_step
      ((s.flow.flow_queue_ ++ [e]).drop s.state.flow_step)) :
    signature.length ≤ s.state.sig_pos_ ∧ m = s.state ∨
      s.state.sig_pos_ < signature.length ∧
        ∃ r, (r ≠ NULLRANGE ↔ hits signature s.state.sig_pos_ e = true) ∧
          m = { s.state with
            ranges_ := s.state.ranges_ ++ [r]
            sig_pos_ := if hits signature s.state.sig_pos_ e then s.state.sig_pos_ + 1
              else s.state.sig_pos_
            examined := s.flow.flow_queue_.length + 1 } := by
  by_cases hdone : signature.length ≤ s.state.sig_pos_
  · exact Or.inl ⟨hdone, hm.trans (loop_done hdone _ _)⟩
  · right
    have hlt := Nat.not_le.mp hdone
    have hlen := hs.all hlt
    have hsig := List.getElem?_eq_getElem hlt
    obtain ⟨r, hr, hexamine⟩ := examine_new hlen he hsig
    refine ⟨hlt, r, hr, ?_⟩
    rw [hm, loop_resumes hlen hs.examined hs.idle, flowMatchState.loop, hsig]
    simp only [flowMatchState.loop]
    rw [hexamine, hs.examined, hlen, max_eq_right (Nat.le_succ _)]

theorem Settled.start_keeps {s s' : Detection S} (hs : Settled signature s) {e : FlowEntry S}
    (he : e.data_ ≠ []) (hdomain : s'.flow.domain_ = SOCK_STREAM)
    (hq : s'.flow.flow_queue_ = s.flow.flow_queue_ ++ [e])
    (hm : s'.state = s.state.loop signature s.state.flow_step
      (s'.flow.flow_queue_.drop s.state.flow_step))
    (hhit : s'.hit = decide (s'.state.sig_pos_ > 0 ∧ s'.state.sig_pos_ ≥ signature.length))
    (hc : hits signature s.state.sig_pos_ e → hits signature (s.state.sig_pos_ + 1) e = false) :
    Settled signature s' := by
  have hnonempty : ∀ e' ∈ s'.flow.flow_queue_, e'.data_ ≠ [] := by
    rw [hq]
    exact nonempty_concat hs.nonempty he
  have hreach : reach signature 0 s'.flow.flow_queue_ =
      if hits signature s.state.sig_pos_ e then s.state.sig_pos_ + 1 else s.state.sig_pos_ := by
    rw [hq, reach_concat, ← hs.steps]
  have hlast : ∀ back ∈ s'.flow.flow_queue_.getLast?, back = e := by
    intro back hback
    rw [hq, List.getLast?_concat, Option.mem_some_iff] at hback
    exact hback.symm
  have hsnoc : ∀ q back, s'.flow.flow_queue_ = q ++ [back] →
      q = s.flow.flow_queue_ ∧ back = e := by
    intro q back h
    obtain ⟨h1, h2⟩ := List.append_inj' (h.symm.trans hq) rfl
    exact ⟨h1, List.singleton_inj.mp h2⟩
  rw [hq] at hm
  rcases hs.starts he hm with ⟨hdone, hsame⟩ | ⟨hlt, r, hr, hnew⟩
  · have hmiss := hits_beyond hdone e
    rw [if_neg (by simp [hmiss])] at hreach
    constructor
    · exact hdomain
    · exact hnonempty
    · exact hhit
    · rw [hsame, hreach]
    · rw [hsame, hs.valid]
    · rw [hsame, hs.examined]
    · rw [hsame, hq, List.length_append]
      exact hs.entries.trans (Nat.le_add_right _ _)
    · intro h
      rw [hsame] at h
      omega
    · intro back hback
      rw [hsame, hlast back hback, hmiss]
    · intro q back h
      obtain ⟨rfl, rfl⟩ := hsnoc q back h
      have hshort := hs.entries
      rw [← hs.steps, hmiss, matched, hsame, hq, List.length_append, List.length_singleton]
      simp only [Bool.false_eq_true, iff_false, not_and]
      omega
  · have hlen := hs.all hlt
    constructor
    · exact hdomain
    · exact hnonempty
    · exact hhit
    · rw [hnew, hreach]
    · rw [hnew, hs.valid]
    · simp [hnew, hlen]
    · simp [hnew, hq, hlen]
    · intro _
      simp [hnew, hq, hlen]
    · intro back hback
      rw [hlast back hback, hnew]
      cases hmatch : hits signature s.state.sig_pos_ e with
      | true => exact hc hmatch
      | false => exact hmatch
    · intro q back h
      obtain ⟨rfl, rfl⟩ := hsnoc q back h
      rw [← hs.steps, ← hr]
      simp [matched, hnew, hq, hlen]

/-- An entry that matches two steps is found again by the next call. -/
theorem Settled.start_breaks {s s' : Detection S} (hs : Settled signature s) {e : FlowEntry S}
    (he : e.data_ ≠ []) (hq : s'.flow.flow_queue_ = s.flow.flow_queue_ ++ [e])
    (hm : s'.state = s.state.loop signature s.state.flow_step
      (s'.flow.flow_queue_.drop s.state.flow_step))
    (hnow : hits signature s.state.sig_pos_ e = true)
    (hnext : hits signature (s.state.sig_pos_ + 1) e = true) : ¬ OneShot signature s' := by
  intro hlaw
  rw [hq] at hm
  rcases hs.starts he hm with ⟨hdone, -⟩ | ⟨hlt, r, -, hnew⟩
  · rw [hits_beyond hdone] at hnow
    cases hnow
  · have hlen : s'.state.ranges_.length = s.flow.flow_queue_.length + 1 := by
      simp [hnew, hs.all hlt]
    have hpos : s'.state.sig_pos_ = s.state.sig_pos_ + 1 := by simp [hnew, hnow]
    have herased : (s'.state.update signature s'.flow).2.valid = false := by
      rw [flowMatchState.update, hq]
      apply loop_erases hlen he
      rw [hpos, hnext]
    rw [hlaw.again] at herased
    exact absurd (hlaw.valid.symm.trans herased) (by decide)

/-- A call over a last entry that has changed, and does not match the next step. -/
theorem Settled.stays {s s' : Detection S} (hs : Settled signature s) {q : List (FlowEntry S)}
    {back back' : FlowEntry S} (hold : s.flow.flow_queue_ = q ++ [back])
    (hq : s'.flow.flow_queue_ = q ++ [back'])
    (hm : s'.state = s.state.loop signature s.state.flow_step
      (s'.flow.flow_queue_.drop s.state.flow_step))
    (hidle : hits signature s.state.sig_pos_ back' = false) : s'.state = s.state := by
  by_cases hdone : signature.length ≤ s.state.sig_pos_
  · exact hm.trans (loop_done hdone _ _)
  · have hlen : s.state.ranges_.length = s'.flow.flow_queue_.length := by
      rw [hs.all (Nat.not_le.mp hdone), hold, hq, List.length_append, List.length_append]
      rfl
    have hlast : ∀ b ∈ s'.flow.flow_queue_.getLast?, hits signature s.state.sig_pos_ b = false := by
      intro b hb
      rw [hq, List.getLast?_concat, Option.mem_some_iff] at hb
      rw [← hb, hidle]
    have hresume := loop_resumes hlen hs.examined hlast []
    rw [List.append_nil] at hresume
    rw [hm, hresume]
    rfl

/-- The last entry has changed, and has the matches that it had. -/
theorem Settled.stay_keeps {s s' : Detection S} (hs : Settled signature s)
    {q : List (FlowEntry S)} {back back' : FlowEntry S} (he : back'.data_ ≠ [])
    (hdomain : s'.flow.domain_ = SOCK_STREAM) (hold : s.flow.flow_queue_ = q ++ [back])
    (hq : s'.flow.flow_queue_ = q ++ [back'])
    (hm : s'.state = s.state.loop signature s.state.flow_step
      (s'.flow.flow_queue_.drop s.state.flow_step))
    (hhit : s'.hit = decide (s'.state.sig_pos_ > 0 ∧ s'.state.sig_pos_ ≥ signature.length))
    (hidle : hits signature s.state.sig_pos_ back' = false)
    (hsame : hits signature (reach signature 0 q) back' =
      hits signature (reach signature 0 q) back) : Settled signature s' := by
  have hstate : s'.state = s.state := hs.stays hold hq hm hidle
  have hlen : s'.flow.flow_queue_.length = s.flow.flow_queue_.length := by
    rw [hold, hq, List.length_append, List.length_append]
    rfl
  have hreach : reach signature 0 s'.flow.flow_queue_ = reach signature 0 s.flow.flow_queue_ := by
    rw [hold, hq, reach_concat, reach_concat, hsame]
  constructor
  · exact hdomain
  · rw [hq]
    exact nonempty_concat (hs.nonempty_before hold) he
  · exact hhit
  · rw [hstate, hreach, hs.steps]
  · rw [hstate, hs.valid]
  · rw [hstate, hs.examined]
  · rw [hstate, hlen]
    exact hs.entries
  · rw [hstate, hlen]
    exact hs.all
  · intro b hb
    rw [hq, List.getLast?_concat, Option.mem_some_iff] at hb
    rw [← hb, hstate, hidle]
  · intro q' b h
    obtain ⟨rfl, hb⟩ := List.append_inj' (h.symm.trans hq) rfl
    rw [List.singleton_inj.mp hb, hsame, ← hs.last q' back hold, matched, matched, hstate, hlen]

/-- The step of the last entry: the one before the next step, when the entry has a match. -/
theorem Settled.last_step {s : Detection S} (hs : Settled signature s) {q : List (FlowEntry S)}
    {back : FlowEntry S} (hq : s.flow.flow_queue_ = q ++ [back]) :
    (matched s → s.state.sig_pos_ = reach signature 0 q + 1) ∧
      (¬ matched s → s.state.sig_pos_ = reach signature 0 q) := by
  have hsteps := hs.steps
  have hlast := hs.last q back hq
  rw [hq, reach_concat] at hsteps
  constructor
  · intro hmatched
    rw [hsteps, if_pos (hlast.mp hmatched)]
  · intro hmatched
    rw [hsteps, if_neg (hlast.not.mp hmatched)]

/-- The last entry grows, and matches the next step: a range is erased at the end. -/
theorem Settled.grow_erases {s s' : Detection S} (hs : Settled signature s)
    {q : List (FlowEntry S)} {back back' : FlowEntry S} (he : back'.data_ ≠ [])
    (hold : s.flow.flow_queue_ = q ++ [back]) (hq : s'.flow.flow_queue_ = q ++ [back'])
    (hm : s'.state = s.state.loop signature s.state.flow_step
      (s'.flow.flow_queue_.drop s.state.flow_step))
    (hhit : hits signature s.state.sig_pos_ back' = true) : ¬ OneShot signature s' := by
  intro hlaw
  have hlt : s.state.sig_pos_ < signature.length := by
    by_contra hge
    rw [hits_beyond (Nat.not_lt.mp hge)] at hhit
    cases hhit
  have hlen := hs.all hlt
  rw [hold, List.length_append, List.length_singleton] at hlen
  have herased := loop_erases hlen he hhit
  rw [← hq, ← hm, hlaw.valid] at herased
  cases herased

/-- The last entry grows, and loses its match: a single call does not find it. -/
theorem Settled.grow_loses {s s' : Detection S} (hs : Settled signature s)
    {q : List (FlowEntry S)} {back back' : FlowEntry S}
    (hnonempty : ∀ e ∈ s'.flow.flow_queue_, e.data_ ≠ [])
    (hold : s.flow.flow_queue_ = q ++ [back]) (hq : s'.flow.flow_queue_ = q ++ [back'])
    (hm : s'.state = s.state.loop signature s.state.flow_step
      (s'.flow.flow_queue_.drop s.state.flow_step))
    (hidle : hits signature s.state.sig_pos_ back' = false) (hmatched : matched s)
    (hlost : ¬ hits signature (s.state.sig_pos_ - 1) back' = true) : ¬ OneShot signature s' := by
  intro hlaw
  have hpos := (hs.last_step hold).1 hmatched
  have hsteps := hlaw.steps
  rw [hpos, Nat.add_sub_cancel] at hlost
  rw [one_shot_steps hnonempty, hq, reach_concat, if_neg hlost, hs.stays hold hq hm hidle,
    hpos] at hsteps
  exact Nat.succ_ne_self _ hsteps

/-! ## Each run -/

section
variable {max_flow_size : Nat}

/-- What `Steady` asks of a chunk that starts an entry. -/
theorem steady_start {s : Detection S} {src : S} {data : List UInt8}
    (hside : ∀ back ∈ s.flow.flow_queue_.getLast?, back.source_ ≠ src) :
    Steady max_flow_size signature s (src, data) ↔
      (hits signature s.state.sig_pos_ { source_ := src, data_ := data } = true →
        hits signature (s.state.sig_pos_ + 1) { source_ := src, data_ := data } = false) := by
  cases hlast : s.flow.flow_queue_.getLast? with
  | none => simp only [Steady, hlast]
  | some back => simp only [Steady, hlast, if_neg (hside back hlast)]

theorem detect_settled {s s' : Detection S} {chunk : S × List UInt8} (hs : Settled signature s)
    (hc : Steady max_flow_size signature s chunk)
    (h : detect max_flow_size signature s chunk = some s') : Settled signature s' := by
  obtain ⟨src, data⟩ := chunk
  obtain ⟨hdata, hflow, hm, hhit⟩ := detect_cases h
  have hdomain : s'.flow.domain_ = SOCK_STREAM := by rw [hflow, append_domain, hs.stream]
  rcases append_cases max_flow_size hs.stream src data with
    ⟨hside, hq⟩ | ⟨q, back, hold, hside, hlost | hfits⟩
  · rw [← hflow] at hq
    apply hs.start_keeps hdata hdomain hq hm hhit
    exact (steady_start hside).mp hc
  · obtain ⟨-, hq⟩ := hlost
    rw [← hflow] at hq
    have hlast : back ∈ s.flow.flow_queue_.getLast? := by rw [hold, List.getLast?_concat]; rfl
    have hin : back ∈ s.flow.flow_queue_ := List.mem_of_getLast? hlast
    have hmarked : ({ back with validity_ := .TRUNCATED } : FlowEntry S).data_ ≠ [] :=
      hs.nonempty back hin
    apply hs.stay_keeps hmarked hdomain hold hq hm hhit
    · rw [← hs.idle back hlast]
      exact hits_congr rfl rfl
    · exact hits_congr rfl rfl
  · obtain ⟨hlen, hq⟩ := hfits
    rw [← hflow] at hq
    have hgrown : (back.append data).data_ ≠ [] := List.append_ne_nil_of_right_ne_nil _ hdata
    have hlast : s.flow.flow_queue_.getLast? = some back := by rw [hold, List.getLast?_concat]
    simp only [Steady, hlast, if_pos hside] at hc
    obtain ⟨hkept, hidle⟩ := hc hlen
    apply hs.stay_keeps hgrown hdomain hold hq hm hhit hidle
    rw [Bool.eq_iff_iff, ← hs.last q back hold]
    obtain ⟨hyes, hno⟩ := hs.last_step hold
    by_cases hmatched : matched s
    · have hpos := hyes hmatched
      have hagain := hkept hmatched
      rw [hpos, Nat.add_sub_cancel] at hagain
      exact iff_of_true hagain hmatched
    · rw [hno hmatched] at hidle
      simp [hidle, hmatched]

theorem detect_breaks {s s' : Detection S} {chunk : S × List UInt8} (hs : Settled signature s)
    (hc : ¬ Steady max_flow_size signature s chunk)
    (h : detect max_flow_size signature s chunk = some s') : ¬ OneShot signature s' := by
  obtain ⟨src, data⟩ := chunk
  obtain ⟨hdata, hflow, hm, -⟩ := detect_cases h
  rcases append_cases max_flow_size hs.stream src data with
    ⟨hside, hq⟩ | ⟨q, back, hold, hside, hlost | hfits⟩
  · rw [← hflow] at hq
    have htwo := mt (steady_start hside).mpr hc
    push Not at htwo
    exact hs.start_breaks hdata hq hm htwo.1 (by simpa using htwo.2)
  · have hlast : s.flow.flow_queue_.getLast? = some back := by rw [hold, List.getLast?_concat]
    simp only [Steady, hlast, if_pos hside] at hc
    push Not at hc
    exact absurd hc.1 (Nat.not_le.mpr hlost.1)
  · obtain ⟨-, hq⟩ := hfits
    rw [← hflow] at hq
    have hgrown : (back.append data).data_ ≠ [] := List.append_ne_nil_of_right_ne_nil _ hdata
    have hlast : s.flow.flow_queue_.getLast? = some back := by rw [hold, List.getLast?_concat]
    simp only [Steady, hlast, if_pos hside] at hc
    cases hnext : hits signature s.state.sig_pos_ (back.append data) with
    | true => exact hs.grow_erases hgrown hold hq hm hnext
    | false =>
      simp only [hnext, and_true] at hc
      push Not at hc
      obtain ⟨-, hmatched, hlost⟩ := hc
      have hnonempty : ∀ e ∈ s'.flow.flow_queue_, e.data_ ≠ [] := by
        rw [hq]
        exact nonempty_concat (hs.nonempty_before hold) hgrown
      exact hs.grow_loses hnonempty hold hq hm hnext hmatched (by simpa using hlost)

/-- In each state of a run the updates end as a single one does when, and only when, no chunk
makes the entry that it starts match two steps, and each chunk that makes the last entry grow
leaves it with the match that it had and gives it no other one. -/
theorem updates_end_as_one_update (max_flow_size : Nat) (signature : flowMatch S)
    (chunks : List (S × List UInt8)) :
    Always (detect max_flow_size signature) (OneShot signature) {} chunks ↔
      Meets (detect max_flow_size signature) (Steady max_flow_size signature) {} chunks :=
  always_iff_meets (fun _ h => h.law) (fun _ _ _ => detect_settled)
    (fun _ _ _ => detect_breaks) start_settled chunks

end

end

/-- One step without limits: the bytes 1, 2. -/
def one_pattern : flowMatch Char :=
  [('r', { expr := [1, 2] })]

/-- The pattern is complete with the second chunk, in the entry of the first one. -/
theorem a_split_match_erases_past_the_end :
    ¬ ∀ (max_flow_size : Nat) (signature : flowMatch Char) (chunks : List (Char × List UInt8)),
      (∀ step ∈ signature, step.2.match_limits_offset = 0 ∧ step.2.match_limits_bytes = 0) →
        Always (detect max_flow_size signature) (OneShot signature) {} chunks := by
  intro hall
  have hend : ∃ s, exec (detect 100 one_pattern) {} [('r', [1]), ('r', [2])] = some s ∧
      s.state.valid = false := ⟨_, rfl, by decide⟩
  obtain ⟨s, hrun, herased⟩ := hend
  have hfree : ∀ step ∈ one_pattern,
      step.2.match_limits_offset = 0 ∧ step.2.match_limits_bytes = 0 := by decide
  have hlaw := always_exec (hall 100 one_pattern [('r', [1]), ('r', [2])] hfree) hrun
  rw [hlaw.valid] at herased
  cases herased

end socle.flows
