-- The flow that an inspected connection keeps of its data (Flow and FlowEntry of
-- signature.hpp): one entry for each turn of a side, up to a limit.
import Mathlib.Tactic
import Socle.Lib.Run

namespace socle.flows

open lib.run

/-! ## Data -/

inductive up_validity
  | OK | MORE | CONTINUATION | TRUNCATED
deriving DecidableEq, Repr

/-- `FlowEntry`. Its buffer is never null. -/
structure FlowEntry (S : Type) where
  source_ : S
  data_ : List UInt8
  counter_ : Nat := 1
  validity_ : up_validity := .OK
deriving DecidableEq

def SOCK_STREAM : Int := 1

/-- `Flow`. The back of the queue is its end. -/
structure Flow (S : Type) where
  flow_queue_ : List (FlowEntry S) := []
  domain_ : Int := SOCK_STREAM
  exchanges : UInt32 := 0
deriving DecidableEq

variable {S : Type}

/-! ## Appending -/

def FlowEntry.append (data : List UInt8) (e : FlowEntry S) : FlowEntry S :=
  { e with data_ := e.data_ ++ data, counter_ := e.counter_ + 1 }

namespace Flow

def emplace_back (src : S) (data : List UInt8) (f : Flow S) : Flow S :=
  { f with flow_queue_ := f.flow_queue_ ++ [{ source_ := src, data_ := data }] }

def set_back (e : FlowEntry S) (f : Flow S) : Flow S :=
  { f with flow_queue_ := f.flow_queue_.dropLast ++ [e] }

def append [DecidableEq S] (max_flow_size : Nat) (src : S) (data : List UInt8) (f : Flow S) : Flow S :=
  match f.flow_queue_.getLast? with
  -- New flow init
  | none => f.emplace_back src data
  | some back =>
    -- to current side
    if back.source_ = src then
      if f.domain_ = SOCK_STREAM then
        if back.data_.length + data.length > max_flow_size then
          f.set_back { back with validity_ := .TRUNCATED }
        else f.set_back (back.append data)
      else f.emplace_back src data
    -- to new side
    else { f.emplace_back src data with exchanges := f.exchanges + 1 }

end Flow

/-! ## Runs -/

/-- A turn of a side: what was appended during it, and what its entry held when it first lost
data. -/
structure turn (S : Type) where
  source : S
  given : List UInt8
  cut : Option (List UInt8) := none

/-- A flow, and what was appended to it. No function of the code reads `turns` and `changes`. -/
structure Record (S : Type) where
  flow : Flow S := {}
  turns : List (turn S) := []
  changes : Nat := 0

def held (f : Flow S) : List UInt8 :=
  (f.flow_queue_.getLast?.map FlowEntry.data_).getD []

section
variable (max_flow_size : Nat)

def step [DecidableEq S] (s : Record S) (chunk : S × List UInt8) : Option (Record S) :=
  let flow := s.flow.append max_flow_size chunk.1 chunk.2
  match s.turns.getLast? with
  | none => some { s with flow, turns := [{ source := chunk.1, given := chunk.2 }] }
  | some t =>
    if t.source = chunk.1 then
      let cut := t.cut <|> if held flow = held s.flow ++ chunk.2 then none else some (held s.flow)
      some { s with
        flow
        turns := s.turns.dropLast ++ [{ t with given := t.given ++ chunk.2, cut }] }
    else
      some {
        flow
        turns := s.turns ++ [{ source := chunk.1, given := chunk.2 }]
        changes := s.changes + 1 }

/-! ## The law -/

/-- What an entry keeps of its turn. -/
structure Keeps (e : FlowEntry S) (t : turn S) : Prop where
  source : e.source_ = t.source
  /-- Its bytes are a prefix of what was appended, and all of it as long as nothing was lost. -/
  starts : e.data_ <+: t.given
  whole : t.cut = none → e.data_ = t.given
  /-- An entry that lost data is marked, and never grows again. -/
  marked : t.cut ≠ none → e.validity_ = .TRUNCATED
  frozen : ∀ data, t.cut = some data → e.data_ = data
  bounded : e.data_.length ≤ max_flow_size

structure Faithful (s : Record S) : Prop where
  neighbours : (s.flow.flow_queue_.map FlowEntry.source_).IsChain (· ≠ ·)
  exchanges : s.flow.exchanges.toNat = s.changes
  entries : List.Forall₂ (Keeps max_flow_size) s.flow.flow_queue_ s.turns

/-- A chunk that starts an entry is within the limit, and its change of side can be counted. A chunk
for an entry that is truncated does not fit into it. -/
def Orderly [DecidableEq S] (s : Record S) (chunk : S × List UInt8) : Prop :=
  match s.flow.flow_queue_.getLast? with
  | none => chunk.2.length ≤ max_flow_size
  | some back =>
    if back.source_ = chunk.1 then
      back.validity_ = .TRUNCATED →
        chunk.2 = [] ∨ back.data_.length + chunk.2.length > max_flow_size
    else chunk.2.length ≤ max_flow_size ∧ s.changes + 1 < 2 ^ 32

/-! ## Each run -/

/-- The invariant: the law, and the marks tell which entries lost data. -/
structure Inv (s : Record S) : Prop where
  law : Faithful max_flow_size s
  marks : List.Forall₂ (fun e t => e.validity_ = .TRUNCATED → t.cut ≠ none) s.flow.flow_queue_
    s.turns
  stream : s.flow.domain_ = SOCK_STREAM

theorem forall₂_snoc {α β : Type} {R : α → β → Prop} {xs : List α} {ys : List β} {x : α} {y : β} :
    List.Forall₂ R (xs ++ [x]) (ys ++ [y]) ↔ List.Forall₂ R xs ys ∧ R x y := by
  rw [← List.forall₂_reverse_iff, List.reverse_append, List.reverse_append, List.reverse_singleton,
    List.reverse_singleton, List.singleton_append, List.singleton_append, List.forall₂_cons,
    List.forall₂_reverse_iff, and_comm]

/-- A record is empty, or it has a last entry and its turn. -/
theorem record_cases {s : Record S} (h : s.flow.flow_queue_.length = s.turns.length) :
    (s.flow.flow_queue_ = [] ∧ s.turns = []) ∨
      ∃ q back ts t, s.flow.flow_queue_ = q ++ [back] ∧ s.turns = ts ++ [t] := by
  rcases List.eq_nil_or_concat s.flow.flow_queue_ with hq | ⟨q, back, hq⟩
  · rw [hq, List.length_nil] at h
    exact Or.inl ⟨hq, List.eq_nil_of_length_eq_zero h.symm⟩
  · rcases List.eq_nil_or_concat s.turns with ht | ⟨ts, t, ht⟩
    · rw [hq, ht] at h
      simp at h
    · rw [List.concat_eq_append] at hq ht
      exact Or.inr ⟨q, back, ts, t, hq, ht⟩

theorem start_inv : Inv max_flow_size ({} : Record S) where
  law := ⟨List.IsChain.nil, rfl, List.Forall₂.nil⟩
  marks := List.Forall₂.nil
  stream := rfl

theorem new_entry_keeps {src : S} {data : List UInt8} (h : data.length ≤ max_flow_size) :
    Keeps max_flow_size { source_ := src, data_ := data } { source := src, given := data } where
  source := rfl
  starts := List.prefix_refl _
  whole := fun _ => rfl
  marked := fun h => absurd rfl h
  frozen := fun _ h => by cases h
  bounded := h

variable {max_flow_size}

/-- A chunk that starts an entry in a record without the last turn's side. -/
theorem new_turn_inv {s : Record S} (hs : Inv max_flow_size s) {src : S} {data : List UInt8}
    {changes : Nat} {exchanges : UInt32} (hne : ∀ e ∈ s.flow.flow_queue_.getLast?, e.source_ ≠ src)
    (hlen : data.length ≤ max_flow_size) (hcount : exchanges.toNat = changes) :
    Inv max_flow_size
      { flow := { s.flow.emplace_back src data with exchanges }
        turns := s.turns ++ [{ source := src, given := data }]
        changes } where
  law := {
    neighbours := by
      simp only [Flow.emplace_back, List.map_append, List.map_cons, List.map_nil]
      apply hs.law.neighbours.append (List.isChain_singleton _)
      intro x hx y hy
      rw [List.getLast?_map, Option.mem_map] at hx
      obtain ⟨e, he, rfl⟩ := hx
      simp only [List.head?_cons, Option.mem_some_iff] at hy
      exact hy ▸ hne e he
    exchanges := hcount
    entries := forall₂_snoc.mpr ⟨hs.law.entries, new_entry_keeps max_flow_size hlen⟩ }
  marks := forall₂_snoc.mpr ⟨hs.marks, fun h => by cases h⟩
  stream := hs.stream

/-- A chunk that changes the last entry and its turn. -/
theorem same_turn_inv {s : Record S} (hs : Inv max_flow_size s) {q : List (FlowEntry S)}
    {back back' : FlowEntry S} {ts : List (turn S)} {t t' : turn S}
    (hq : s.flow.flow_queue_ = q ++ [back]) (ht : s.turns = ts ++ [t])
    (hsource : back'.source_ = back.source_) (hkeeps : Keeps max_flow_size back' t')
    (hmark : back'.validity_ = .TRUNCATED → t'.cut ≠ none) :
    Inv max_flow_size { s with flow := s.flow.set_back back', turns := s.turns.dropLast ++ [t'] } := by
  have hentries := hs.law.entries
  have hmarks := hs.marks
  rw [hq, ht] at hentries hmarks
  have hq' : (s.flow.set_back back').flow_queue_ = q ++ [back'] := by
    simp [Flow.set_back, hq]
  have ht' : s.turns.dropLast = ts := by
    rw [ht, List.dropLast_concat]
  refine ⟨⟨?_, hs.law.exchanges, ?_⟩, ?_, hs.stream⟩
  · have hchain := hs.law.neighbours
    rw [hq, List.map_append] at hchain
    simp only [hq', List.map_append, List.map_cons, List.map_nil] at hchain ⊢
    rw [hsource]
    exact hchain
  · rw [hq', ht']
    exact forall₂_snoc.mpr ⟨(forall₂_snoc.mp hentries).1, hkeeps⟩
  · rw [hq', ht']
    exact forall₂_snoc.mpr ⟨(forall₂_snoc.mp hmarks).1, hmark⟩

/-- A chunk that does not fit is lost, and the entry is marked. -/
theorem lost_keeps {back : FlowEntry S} {t : turn S} (h : Keeps max_flow_size back t)
    {data : List UInt8} (hbig : back.data_.length + data.length > max_flow_size) :
    data ≠ [] ∧ Keeps max_flow_size { back with validity_ := .TRUNCATED }
      { t with given := t.given ++ data, cut := t.cut <|> some back.data_ } := by
  have hbounded := h.bounded
  refine ⟨?_, h.source, h.starts.trans (List.prefix_append _ _), ?_, fun _ => rfl, ?_, hbounded⟩
  · rintro rfl
    rw [List.length_nil] at hbig
    omega
  · intro hcut
    cases ht : t.cut <;> simp [ht] at hcut
  · intro d hcut
    cases ht : t.cut with
    | none =>
      simp only [ht] at hcut
      exact Option.some.inj hcut
    | some d' =>
      simp only [ht] at hcut
      exact (h.frozen d' ht).trans (Option.some.inj hcut)

/-- A chunk that fits is kept, in an entry that lost nothing. -/
theorem fits_keeps {back : FlowEntry S} {t : turn S} (h : Keeps max_flow_size back t)
    {data : List UInt8} (hfits : ¬ back.data_.length + data.length > max_flow_size)
    (hwhole : t.cut ≠ none → data = []) :
    Keeps max_flow_size (back.append data) { t with given := t.given ++ data } := by
  by_cases ht : t.cut = none
  · have hdata : back.data_ ++ data = t.given ++ data := by rw [h.whole ht]
    refine ⟨h.source, ?_, fun _ => hdata, fun hn => absurd ht hn, ?_, ?_⟩
    · simp only [FlowEntry.append, hdata]
      exact List.prefix_refl _
    · intro d hd
      simp only [ht] at hd
      cases hd
    · simp only [FlowEntry.append, List.length_append]
      omega
  · have hnil := hwhole ht
    subst hnil
    simp only [FlowEntry.append, List.append_nil]
    exact ⟨h.source, h.starts, h.whole, h.marked, h.frozen, h.bounded⟩

section
variable [DecidableEq S]

/-- What a chunk does: it starts the first entry, one of another side, is lost, or goes into the last
entry. -/
theorem step_cases {s s' : Record S} (hs : Inv max_flow_size s) {src : S} {data : List UInt8}
    (h : step max_flow_size s (src, data) = some s') :
    (s.flow.flow_queue_ = [] ∧ s' = {
        flow := s.flow.emplace_back src data
        turns := s.turns ++ [{ source := src, given := data }]
        changes := s.changes }) ∨
      ∃ q back ts t, s.flow.flow_queue_ = q ++ [back] ∧ s.turns = ts ++ [t] ∧
        Keeps max_flow_size back t ∧ (back.validity_ = .TRUNCATED → t.cut ≠ none) ∧
        (back.source_ ≠ src ∧ s' = {
            flow := { s.flow.emplace_back src data with exchanges := s.flow.exchanges + 1 }
            turns := s.turns ++ [{ source := src, given := data }]
            changes := s.changes + 1 } ∨
          back.source_ = src ∧ back.data_.length + data.length > max_flow_size ∧ s' = { s with
            flow := s.flow.set_back { back with validity_ := .TRUNCATED }
            turns := s.turns.dropLast ++
              [{ t with given := t.given ++ data, cut := t.cut <|> some back.data_ }] } ∨
          back.source_ = src ∧ back.data_.length + data.length ≤ max_flow_size ∧ s' = { s with
            flow := s.flow.set_back (back.append data)
            turns := s.turns.dropLast ++ [{ t with given := t.given ++ data }] }) := by
  rcases record_cases hs.law.entries.length_eq with ⟨hq, ht⟩ | ⟨q, back, ts, t, hq, ht⟩
  · left
    refine ⟨hq, ?_⟩
    simp only [step, Flow.append, hq, ht, List.getLast?_nil, Option.some.injEq] at h
    rw [← h, ht]
    rfl
  · right
    have hlast : s.flow.flow_queue_.getLast? = some back := by rw [hq, List.getLast?_concat]
    have hlast' : s.turns.getLast? = some t := by rw [ht, List.getLast?_concat]
    have hentries := hs.law.entries
    have hmarks := hs.marks
    rw [hq, ht] at hentries hmarks
    have hback : Keeps max_flow_size back t := (forall₂_snoc.mp hentries).2
    refine ⟨q, back, ts, t, hq, ht, hback, (forall₂_snoc.mp hmarks).2, ?_⟩
    simp only [step, Flow.append, hlast, hlast', hs.stream, if_true] at h
    by_cases hsrc : back.source_ = src
    · right
      have hsrc' : t.source = src := hback.source.symm.trans hsrc
      have hheld : held s.flow = back.data_ := by simp [held, hlast]
      have hheld' : ∀ e : FlowEntry S, held (s.flow.set_back e) = e.data_ := by
        simp [held, Flow.set_back]
      simp only [if_pos hsrc, if_pos hsrc', Option.some.injEq] at h
      by_cases hbig : back.data_.length + data.length > max_flow_size
      · have hlost : ¬ back.data_ = back.data_ ++ data := by
          simpa using (lost_keeps hback hbig).1
        simp only [if_pos hbig, hheld, hheld', if_neg hlost] at h
        exact Or.inl ⟨hsrc, hbig, h.symm⟩
      · have hkept : (back.append data).data_ = back.data_ ++ data := rfl
        have hcut : (t.cut <|> none) = t.cut := by cases t.cut <;> rfl
        simp only [if_neg hbig, hheld, hheld', hkept, if_true, hcut] at h
        exact Or.inr ⟨hsrc, Nat.not_lt.mp hbig, h.symm⟩
    · left
      have hsrc' : t.source ≠ src := fun h' => hsrc (hback.source.trans h')
      simp only [if_neg hsrc, if_neg hsrc', Option.some.injEq] at h
      exact ⟨hsrc, h.symm⟩

theorem step_inv {s s' : Record S} {chunk : S × List UInt8} (hs : Inv max_flow_size s)
    (hc : Orderly max_flow_size s chunk) (h : step max_flow_size s chunk = some s') :
    Inv max_flow_size s' := by
  obtain ⟨src, data⟩ := chunk
  rcases step_cases hs h with ⟨hq, rfl⟩ | ⟨q, back, ts, t, hq, ht, hback, hmark, hcases⟩
  · simp only [Orderly, hq, List.getLast?_nil] at hc
    exact new_turn_inv hs (by simp [hq]) hc hs.law.exchanges
  · have hlast : s.flow.flow_queue_.getLast? = some back := by rw [hq, List.getLast?_concat]
    simp only [Orderly, hlast] at hc
    rcases hcases with ⟨hsrc, rfl⟩ | ⟨hsrc, hbig, rfl⟩ | ⟨hsrc, hfits, rfl⟩
    · rw [if_neg hsrc] at hc
      apply new_turn_inv hs (by simpa [hlast] using hsrc) hc.1
      rw [UInt32.toNat_add, hs.law.exchanges]
      exact Nat.mod_eq_of_lt hc.2
    · refine same_turn_inv hs hq ht rfl (lost_keeps hback hbig).2 fun _ hcut => ?_
      cases hcut' : t.cut <;> simp [hcut'] at hcut
    · rw [if_pos hsrc] at hc
      have hbig : ¬ back.data_.length + data.length > max_flow_size := Nat.not_lt.mpr hfits
      have hkeeps := fits_keeps hback hbig fun hn => (hc (hback.marked hn)).resolve_right hbig
      exact same_turn_inv hs hq ht rfl hkeeps hmark

theorem step_breaks {s s' : Record S} {chunk : S × List UInt8} (hs : Inv max_flow_size s)
    (hc : ¬ Orderly max_flow_size s chunk) (h : step max_flow_size s chunk = some s') :
    ¬ Faithful max_flow_size s' := by
  obtain ⟨src, data⟩ := chunk
  intro hlaw
  have hentries' := hlaw.entries
  rcases step_cases hs h with ⟨hq, rfl⟩ | ⟨q, back, ts, t, hq, ht, hback, hmark, hcases⟩
  · -- a chunk that is too long starts an entry
    simp only [Orderly, hq, List.getLast?_nil] at hc
    exact hc (forall₂_snoc.mp hentries').2.bounded
  · have hlast : s.flow.flow_queue_.getLast? = some back := by rw [hq, List.getLast?_concat]
    simp only [Orderly, hlast] at hc
    rcases hcases with ⟨hsrc, rfl⟩ | ⟨hsrc, hbig, -⟩ | ⟨hsrc, hfits, rfl⟩
    · -- and so does one of another side, or the changes are too many
      rw [if_neg hsrc] at hc
      have hcount := hlaw.exchanges
      have hcount' := hs.law.exchanges
      have hlt := s.flow.exchanges.toNat_lt
      simp only [UInt32.toNat_add] at hcount
      have hone : (1 : UInt32).toNat = 1 := rfl
      refine hc ⟨(forall₂_snoc.mp hentries').2.bounded, ?_⟩
      omega
    · rw [if_pos hsrc] at hc
      exact hc fun _ => Or.inr hbig
    · -- an entry that is truncated grows
      rw [if_pos hsrc] at hc
      push Not at hc
      obtain ⟨htrunc, hne, -⟩ := hc
      obtain ⟨d, hd⟩ := Option.ne_none_iff_exists'.mp (hmark htrunc)
      simp only [Flow.set_back, hq, ht, List.dropLast_concat, hd] at hentries'
      have hfrozen := (forall₂_snoc.mp hentries').2.frozen d rfl
      rw [← hback.frozen d hd] at hfrozen
      exact hne (List.append_right_eq_self.mp hfrozen)

/-- In each state of a run the flow is what was appended, turn by turn, when, and only when, each
chunk that starts an entry is within the limit, no chunk that follows a lost one in its entry fits
into it, and the changes of side can be counted. -/
theorem flows_are_what_was_appended (max_flow_size : Nat) (chunks : List (S × List UInt8)) :
    Always (step max_flow_size) (Faithful max_flow_size) {} chunks ↔
      Meets (step max_flow_size) (Orderly max_flow_size) {} chunks :=
  always_iff_meets (fun _ h => h.law) (fun _ _ _ => step_inv) (fun _ _ _ => step_breaks)
    (start_inv max_flow_size) chunks

end

end

/-- With a limit of 3: two bytes are kept, two are lost, and the one behind them fits. -/
def past_the_limit : List (Char × List UInt8) :=
  [('r', [1, 2]), ('r', [3, 4]), ('r', [5])]

/-- The entry that lost two bytes grows by the byte behind them. -/
theorem a_truncated_entry_grows :
    ¬ ∀ (max_flow_size : Nat) (chunks : List (Char × List UInt8)),
      Always (step max_flow_size) (Faithful max_flow_size) {} chunks := by
  intro hall
  have hend : ∃ s, exec (step 3) ({} : Record Char) past_the_limit = some s ∧
      s.flow.flow_queue_.map FlowEntry.data_ = [[1, 2, 5]] ∧ s.turns.map turn.cut = [some [1, 2]] :=
    ⟨_, rfl, rfl, rfl⟩
  obtain ⟨s, hrun, hdata, hcut⟩ := hend
  obtain ⟨e, hq, he⟩ := List.map_eq_singleton_iff.mp hdata
  obtain ⟨t, ht, hc⟩ := List.map_eq_singleton_iff.mp hcut
  have hentries := (always_exec (hall 3 past_the_limit) hrun).entries
  rw [hq, ht, List.forall₂_cons] at hentries
  have hfrozen := hentries.1.frozen [1, 2] hc
  rw [he] at hfrozen
  exact absurd hfrozen (by decide)

end socle.flows
