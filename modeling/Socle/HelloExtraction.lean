-- Which names the parser records from a ClientHello. Its loop goes on behind
-- the extension block, to the end of the buffer, so the bytes that follow the
-- message can put other names on record.
import Socle.HelloFormat
import Socle.HelloSafety

namespace socle.hello

open lib.prog lib.bytes lib.loop

/-! ## One extension of the message -/

/-- What is on record after an extension. -/
def extension.record (e : extension) (r : recorded) : recorded :=
  match e with
  | .server_name host => { r with sslcom_sni_ := host }
  | .alpn protocols => { r with sslcom_peer_hello_alpn_ := extension.protocol_list protocols }
  | .other _ _ => r

theorem extension.encode_length (e : extension) : e.encode.length = 4 + e.data.length := by
  simp only [extension.encode, List.length_append, u16_length]
  omega

theorem extension.id_lt {e : extension} (h : e.Valid) : e.id < 65536 := by
  cases e with
  | server_name host => simp [extension.id]
  | alpn protocols => simp [extension.id]
  | other id data => exact h.1

/-- The parser reads an extension as it was written. -/
theorem extension_read {b : peek} {p : Nat} {e : extension} (hv : e.Valid)
    (hlen : e.data.length < 65532) (hb : Holds b.mem p e.encode)
    (hfit : p + e.encode.length ≤ b.size) :
    readable b p ∧ ext_length b p = e.data.length ∧ ∀ r, record b p r = e.record r := by
  rw [extension.encode_length] at hfit
  simp only [extension.encode, holds_append, u16_length] at hb
  obtain ⟨hid, hl, hd⟩ := hb
  have hid : ext_id b p = e.id := be16_of_holds (extension.id_lt hv) hid
  have hl : ext_length b p = e.data.length := be16_of_holds (by omega) hl
  cases e with
  | server_name host =>
    simp only [extension.data, holds_append, holds_cons, u16_length, List.length_append,
      List.length_cons] at hd hlen hfit
    obtain ⟨-, htype, hn, hh⟩ := hd
    have hhost : is_host b p := ⟨hid, htype⟩
    have hnot : ¬ is_alpn b p := by simp [is_alpn, hid, extension.id]
    have hn : host_length b p = host.length := be16_of_holds (by omega) hn
    refine ⟨⟨by omega, fun _ => by omega, fun _ => by omega, fun ha => absurd ha hnot⟩, hl, ?_⟩
    intro r
    rw [record, if_pos hhost, hn]
    exact congrArg (fun s => { r with sslcom_sni_ := s }) hh
  | alpn protocols =>
    simp only [extension.data, holds_append, u16_length, List.length_append] at hd hlen hfit
    obtain ⟨hn, hh⟩ := hd
    have hhost : ¬ is_host b p := fun h => by simp [is_host, hid, extension.id] at h
    have halpn : is_alpn b p := hid
    have hn : alpn_length b p = (extension.protocol_list protocols).length :=
      be16_of_holds (by omega) hn
    refine ⟨⟨by omega, fun h0 => ?_, fun h => absurd h hhost, fun _ => by omega⟩, hl, ?_⟩
    · rw [hid] at h0
      cases h0
    · intro r
      rw [record, if_neg hhost, if_pos halpn, hn]
      exact congrArg (fun s => { r with sslcom_peer_hello_alpn_ := s }) hh
  | other id data =>
    have hhost : ¬ is_host b p := fun h => hv.2.1 (hid.symm.trans h.1)
    have halpn : ¬ is_alpn b p := fun h => hv.2.2 (hid.symm.trans h)
    refine ⟨⟨by omega, fun h0 => absurd (hid.symm.trans h0) hv.2.1, fun h => absurd h hhost,
      fun h => absurd h halpn⟩, hl, ?_⟩
    intro r
    rw [record, if_neg hhost, if_neg halpn]
    rfl

/-! ## The extensions of the message -/

/-- The loop goes through the extensions of the message. It leaves out an empty extension at the
very end of the buffer, which says nothing. -/
theorem own_extensions {b : peek} {es : List extension} (hv : ∀ e ∈ es, e.Valid)
    (hlen : (ext_bytes es).length < 65536) {s : state}
    (hb : Holds b.mem s.curpos (ext_bytes es))
    (hfit : s.curpos + (ext_bytes es).length ≤ b.size) :
    ∃ s', Reach (ext_turn b) s s' ∧ s'.found = es.foldl (fun r e => e.record r) s.found ∧
      (s'.curpos = s.curpos + (ext_bytes es).length ∨
        (s'.curpos + 4 = b.size ∧ s.curpos + (ext_bytes es).length = b.size)) := by
  induction es generalizing s with
  | nil => exact ⟨s, Relation.ReflTransGen.refl, rfl, Or.inl rfl⟩
  | cons e es ih =>
    have hcons : ext_bytes (e :: es) = e.encode ++ ext_bytes es := List.flatMap_cons
    rw [hcons] at hb hlen hfit ⊢
    rw [holds_append] at hb
    rw [List.length_append] at hlen hfit ⊢
    have hel := e.encode_length
    have hve := hv e List.mem_cons_self
    by_cases hp : s.curpos + 4 < b.size
    · obtain ⟨hread, hl, hrec⟩ := extension_read hve (by omega) hb.1 (by omega)
      obtain ⟨t, hn, hc, hf, -⟩ := ext_turn_next hp hread
      have hc : t.curpos = s.curpos + e.encode.length := by
        rw [hc, hl]
        omega
      have hbt : Holds b.mem t.curpos (ext_bytes es) := by
        rw [hc]
        exact hb.2
      obtain ⟨s', hr, hf', hend⟩ := ih (fun e' he' => hv e' (List.mem_cons_of_mem _ he'))
        (by omega) hbt (by omega)
      refine ⟨s', Relation.ReflTransGen.head hn hr, ?_, by omega⟩
      rw [hf', hf, hrec, List.foldl_cons]
    · -- the buffer ends with this extension, which has no data
      have hdata : e.data.length = 0 := by omega
      have hes : es = [] := by
        cases es with
        | nil => rfl
        | cons e' es' =>
          have hpos := e'.encode_length
          simp only [ext_bytes, List.flatMap_cons, List.length_append] at hfit
          omega
      subst hes
      refine ⟨s, Relation.ReflTransGen.refl, ?_, Or.inr ⟨?_, ?_⟩⟩
      · cases e with
        | server_name host => simp [extension.data] at hdata
        | alpn protocols => simp [extension.data] at hdata
        | other id data => rfl
      · simp only [ext_bytes, List.flatMap_nil, List.length_nil] at hfit
        omega
      · simp only [ext_bytes, List.flatMap_nil, List.length_nil] at hfit ⊢
        omega

/-- A field of the record that at most one extension sets: it decides, and without it nothing
changes. -/
theorem foldl_field {T : Type} {field : recorded → T} {pick : extension → Option T}
    (hfield : ∀ e r, field (extension.record e r) = (pick e).getD (field r))
    (hid : ∀ e e', pick e ≠ none → pick e' ≠ none → e.id = e'.id) {es : List extension}
    (hn : (es.map extension.id).Nodup) (r : recorded) :
    field (es.foldl (fun r e => e.record r) r) = (es.findSome? pick).getD (field r) := by
  induction es generalizing r with
  | nil => rfl
  | cons e es ih =>
    rw [List.map_cons, List.nodup_cons] at hn
    rw [List.foldl_cons, ih hn.2, List.findSome?_cons, hfield]
    cases he : pick e with
    | none => rfl
    | some v =>
      have hnone : es.findSome? pick = none := by
        rw [List.findSome?_eq_none_iff]
        intro e' he'
        by_contra hsome
        have hsame := hid e e' (by simp [he]) hsome
        exact hn.1 (hsame ▸ List.mem_map_of_mem he')
      rw [hnone]
      rfl

theorem foldl_sni {es : List extension} (hn : (es.map extension.id).Nodup) (r : recorded) :
    (es.foldl (fun r e => e.record r) r).sslcom_sni_ =
      (es.findSome? extension.host_name).getD r.sslcom_sni_ := by
  apply foldl_field _ _ hn
  · intro e r
    cases e <;> rfl
  · intro e e' he he'
    cases e <;> cases e' <;> simp_all [extension.host_name, extension.id]

theorem foldl_alpn {es : List extension} (hn : (es.map extension.id).Nodup) (r : recorded) :
    (es.foldl (fun r e => e.record r) r).sslcom_peer_hello_alpn_ =
      (es.findSome? extension.protocols).getD r.sslcom_peer_hello_alpn_ := by
  apply foldl_field _ _ hn
  · intro e r
    cases e <;> rfl
  · intro e e' he he'
    cases e <;> cases e' <;> simp_all [extension.protocols, extension.id]

/-! ## The bytes behind the message -/

/-- The walk from `p` on comes to the headers `ps` and stops. -/
inductive Trail (b : peek) : Nat → List Nat → Prop
  | stop {p : Nat} (h : ¬ (p + 4 < b.size ∧ readable b p)) : Trail b p []
  | step {p : Nat} {ps : List Nat} (h : p + 4 < b.size ∧ readable b p)
      (rest : Trail b (p + (ext_length b p + 4) % 65536) ps) : Trail b p (p :: ps)

/-- What is on record after the headers `ps`. -/
def record_all (b : peek) (ps : List Nat) (r : recorded) : recorded :=
  ps.foldl (fun r p => record b p r) r

/-- The loop takes the trail to its end. -/
theorem loop_takes_trail {b : peek} {p : Nat} {ps : List Nat} (h : Trail b p ps) {s : state}
    (hs : s.curpos = p) :
    ∃ r t, Stops (ext_turn b) s (r, t) ∧ t.found = record_all b ps s.found := by
  induction h generalizing s with
  | @stop p h =>
    subst hs
    cases hn : ext_turn b s with
    | next t =>
      obtain ⟨hp, hread, -⟩ := ext_turn_cases hn
      exact absurd ⟨hp, hread⟩ h
    | done r =>
      obtain ⟨e, t⟩ := r
      exact ⟨e, t, (stops_done hn).mpr rfl, (ext_turn_done hn).1⟩
  | @step p ps h rest ih =>
    subst hs
    obtain ⟨t, hn, hc, hf, -⟩ := ext_turn_next h.1 h.2
    obtain ⟨r, u, hstop, hu⟩ := ih hc
    exact ⟨r, u, (stops_next hn).mpr hstop, by rw [hu, hf]; rfl⟩

/-- A loop that stops took a trail. -/
theorem trail_of_stops {b : peek} {s : state} {r : Except exn Unit × state}
    (h : Stops (ext_turn b) s r) : ∃ ps, Trail b s.curpos ps := by
  obtain ⟨t, hr, hd⟩ := stops_iff.mp h
  induction hr using Relation.ReflTransGen.head_induction_on with
  | refl =>
    refine ⟨[], .stop fun hgo => ?_⟩
    obtain ⟨u, hn, -⟩ := ext_turn_next hgo.1 hgo.2
    rw [hd] at hn
    cases hn
  | head hn _ ih =>
    obtain ⟨hp, hread, hc, -⟩ := ext_turn_cases hn
    obtain ⟨ps, hps⟩ := ih ((stops_next hn).mp h)
    rw [hc] at hps
    exact ⟨_, .step ⟨hp, hread⟩ hps⟩

/-- The host name that the extension at `p` gives. -/
def host_at (b : peek) (p : Nat) : List UInt8 :=
  slice b.mem (p + 9) (host_length b p)

/-- The ALPN list that the extension at `p` gives. -/
def alpn_at (b : peek) (p : Nat) : List UInt8 :=
  slice b.mem (p + 6) (alpn_length b p)

/-- The last of the headers that is a host name, and the last that is an ALPN list. -/
def last_host (b : peek) (ps : List Nat) : Option Nat :=
  (ps.filter fun p => is_host b p).getLast?

def last_alpn (b : peek) (ps : List Nat) : Option Nat :=
  (ps.filter fun p => is_alpn b p).getLast?

/-- A field of the record that some of the headers set: the last of them decides. -/
theorem record_all_field {b : peek} {T : Type} {field : recorded → T} {value : Nat → T}
    {sets : Nat → Bool} (hset : ∀ p r, sets p = true → field (record b p r) = value p)
    (hkeep : ∀ p r, sets p = false → field (record b p r) = field r) (ps : List Nat)
    (r : recorded) :
    field (record_all b ps r) = ((ps.filter sets).getLast?.map value).getD (field r) := by
  induction ps generalizing r with
  | nil => rfl
  | cons p ps ih =>
    have hcons : record_all b (p :: ps) r = record_all b ps (record b p r) := rfl
    rw [hcons, ih]
    cases hp : sets p with
    | true =>
      rw [hset p r hp, List.filter_cons, if_pos hp, List.getLast?_cons]
      cases (ps.filter sets).getLast? <;> rfl
    | false => rw [hkeep p r hp, List.filter_cons, if_neg (by simp [hp])]

theorem record_all_sni (b : peek) (ps : List Nat) (r : recorded) :
    (record_all b ps r).sslcom_sni_ = ((last_host b ps).map (host_at b)).getD r.sslcom_sni_ := by
  apply record_all_field
  · intro p r hp
    rw [record, if_pos (by simpa using hp)]
    rfl
  · intro p r hp
    rw [record, if_neg (by simpa using hp)]
    split <;> rfl

theorem record_all_alpn (b : peek) (ps : List Nat) (r : recorded) :
    (record_all b ps r).sslcom_peer_hello_alpn_ =
      ((last_alpn b ps).map (alpn_at b)).getD r.sslcom_peer_hello_alpn_ := by
  apply record_all_field
  · intro p r hp
    have ha : is_alpn b p := by simpa using hp
    have hh : ¬ is_host b p := by
      rintro ⟨h0, -⟩
      rw [is_alpn, h0] at ha
      cases ha
    rw [record, if_neg hh, if_pos ha]
    rfl
  · intro p r hp
    have ha : ¬ is_alpn b p := by simpa using hp
    rw [record, if_neg ha]
    split <;> rfl

/-! ## What the parser extracts -/

/-- The parser returns, and the names on record are `sni` and `alpn`. -/
def Extracts (b : peek) (elapsed : Int) (flag : err_flags) (sni alpn : List UInt8) : Prop :=
  ∃ fuel r s, parse_peer_hello b elapsed fuel {} flag = .inr (r, s) ∧
    s.found.sslcom_sni_ = sni ∧ s.found.sslcom_peer_hello_alpn_ = alpn

/-- The walk from `p` on stops, and the last names that it meets, if any, are `sni` and `alpn`. -/
def Harmless (b : peek) (p : Nat) (sni alpn : List UInt8) : Prop :=
  ∃ ps, Trail b p ps ∧ (∀ q, last_host b ps = some q → host_at b q = sni) ∧
    ∀ q, last_alpn b ps = some q → alpn_at b q = alpn

/-- Where the walk goes on behind the message: behind its extension block, or, when it has none,
behind the two bytes that are taken for the length of one. -/
def client_hello.behind (h : client_hello) : Nat :=
  match h.extensions with
  | some es => h.block_at + 2 + (ext_bytes es).length
  | none => h.block_at + 2

theorem map_getD_eq {α β : Type} {o : Option α} {f : α → β} {a : β} :
    (o.map f).getD a = a ↔ ∀ q, o = some q → f q = a := by
  cases o <;> simp

/-- The loop, from a state that has the right names on record. -/
theorem loop_keeps_names_iff {b : peek} {s : state} :
    (∃ r t, Stops (ext_turn b) s (r, t) ∧ t.found.sslcom_sni_ = s.found.sslcom_sni_ ∧
      t.found.sslcom_peer_hello_alpn_ = s.found.sslcom_peer_hello_alpn_) ↔
    Harmless b s.curpos s.found.sslcom_sni_ s.found.sslcom_peer_hello_alpn_ := by
  have hnames : ∀ ps, ((record_all b ps s.found).sslcom_sni_ = s.found.sslcom_sni_ ∧
      (record_all b ps s.found).sslcom_peer_hello_alpn_ = s.found.sslcom_peer_hello_alpn_) ↔
      (∀ q, last_host b ps = some q → host_at b q = s.found.sslcom_sni_) ∧
        ∀ q, last_alpn b ps = some q → alpn_at b q = s.found.sslcom_peer_hello_alpn_ := by
    intro ps
    rw [record_all_sni, record_all_alpn, map_getD_eq, map_getD_eq]
  constructor
  · rintro ⟨r, t, hstop, hsni, halpn⟩
    obtain ⟨ps, hps⟩ := trail_of_stops hstop
    obtain ⟨r', t', hstop', hfound⟩ := loop_takes_trail hps rfl
    cases stops_unique hstop hstop'
    rw [hfound] at hsni halpn
    exact ⟨ps, hps, (hnames ps).mp ⟨hsni, halpn⟩⟩
  · rintro ⟨ps, hps, hlast⟩
    obtain ⟨r, t, hstop, hfound⟩ := loop_takes_trail hps rfl
    obtain ⟨hsni, halpn⟩ := (hnames ps).mpr hlast
    exact ⟨r, t, hstop, by rw [hfound, hsni], by rw [hfound, halpn]⟩

theorem finish_found {r : Except exn Unit} {t : state} :
    ∃ r' t', finish (.inr (r, t)) = .inr (r', t') ∧ t'.found = t.found := by
  cases r with
  | ok u => exact ⟨_, _, rfl, rfl⟩
  | error e =>
    cases e with
    | out_of_range => exact ⟨_, _, rfl, rfl⟩
    | SSL_clienthello_malformed => exact ⟨_, _, rfl, rfl⟩

/-- The names on record are those behind the loop. -/
theorem extracts_iff {b : peek} {elapsed : Int} {flag : err_flags} {sni alpn : List UInt8}
    {s : state} (hparse : ∀ fuel, parse_peer_hello b elapsed fuel {} flag =
      finish (turns (ext_turn b) fuel s)) :
    Extracts b elapsed flag sni alpn ↔
      ∃ r t, Stops (ext_turn b) s (r, t) ∧ t.found.sslcom_sni_ = sni ∧
        t.found.sslcom_peer_hello_alpn_ = alpn := by
  unfold Extracts
  constructor
  · rintro ⟨fuel, r, u, hrun, hnames⟩
    rw [hparse] at hrun
    cases hturns : turns (ext_turn b) fuel s with
    | inl t =>
      rw [hturns] at hrun
      cases hrun
    | inr rt =>
      obtain ⟨r', t⟩ := rt
      obtain ⟨r'', t', hfin, hfound⟩ := finish_found (r := r') (t := t)
      rw [hturns, hfin] at hrun
      cases hrun
      rw [hfound] at hnames
      exact ⟨r', t, ⟨fuel, hturns⟩, hnames⟩
  · rintro ⟨r, t, ⟨fuel, hturns⟩, hnames⟩
    obtain ⟨r', t', hfin, hfound⟩ := finish_found (r := r) (t := t)
    refine ⟨fuel, r', t', ?_, by rw [hfound]; exact hnames⟩
    rw [hparse, hturns, hfin]

theorem no_names_steady (b : peek) : Steady b fun s =>
    s.found.sslcom_sni_ = [] ∧ s.found.sslcom_peer_hello_alpn_ = [] where
  note := fun _ _ _ _ h => h
  skip := fun _ _ h => h
  ret := fun _ _ h => h
  id := fun _ _ _ _ h => h

/-- A trail that ends at once meets no names. -/
theorem harmless_at_end {b : peek} {p : Nat} (hp : ¬ p + 4 < b.size) (sni alpn : List UInt8) :
    Harmless b p sni alpn :=
  ⟨[], .stop fun h => hp h.1, by simp [last_host], by simp [last_alpn]⟩

/-- The loop comes to the end of the message with the message's own names on record. -/
theorem loop_through_message {h : client_hello} {b : peek} {record_min : UInt8}
    {record_length : Nat} (hb : Holds b.mem 0 (h.framed record_min record_length))
    (hfit : (h.framed record_min record_length).length ≤ b.size) {s : state}
    (hs : s.curpos = h.block_at + 2)
    (hnames : s.found.sslcom_sni_ = [] ∧ s.found.sslcom_peer_hello_alpn_ = []) :
    ∃ t, Reach (ext_turn b) s t ∧ t.found.sslcom_sni_ = h.sni ∧
      t.found.sslcom_peer_hello_alpn_ = h.alpn ∧
      (t.curpos = h.behind ∨ (¬ t.curpos + 4 < b.size ∧ ¬ h.behind + 4 < b.size)) := by
  obtain ⟨-, -, hblock⟩ := h.layout hb
  rw [h.framed_length] at hfit
  cases hes : h.extensions with
  | none =>
    refine ⟨s, Relation.ReflTransGen.refl, ?_, ?_, Or.inl ?_⟩
    · simp [hnames.1, client_hello.sni, hes]
    · simp [hnames.2, client_hello.alpn, hes]
    · simp [hs, client_hello.behind, hes]
  | some es =>
    obtain ⟨hlen, hnodup, hvalid⟩ := h.extensions_valid es hes
    have hbytes : h.extension_block = u16 (ext_bytes es).length ++ ext_bytes es := by
      simp [client_hello.extension_block, hes]
    have hbehind : h.behind = s.curpos + (ext_bytes es).length := by
      simp [client_hello.behind, hes, hs]
    rw [hbytes, List.length_append, u16_length] at hfit
    rw [hbytes, holds_append, u16_length, ← hs] at hblock
    obtain ⟨t, hr, hf, hend⟩ := own_extensions hvalid hlen hblock.2 (by omega)
    refine ⟨t, hr, ?_, ?_, by omega⟩
    · rw [hf, foldl_sni hnodup, hnames.1]
      simp [client_hello.sni, hes]
    · rw [hf, foldl_alpn hnodup, hnames.2]
      simp [client_hello.alpn, hes]

/-- A message with an extension comes to the loop. -/
theorem no_own_extensions {h : client_hello} {b : peek} {record_min : UInt8}
    {record_length : Nat} (hb : Holds b.mem 0 (h.framed record_min record_length))
    (hfit : (h.framed record_min record_length).length ≤ b.size) (hext : ¬ has_extensions b) :
    h.extensions.getD [] = [] := by
  obtain ⟨⟨h0, h1, h5⟩, hat, hblock⟩ := h.layout hb
  rw [h.framed_length] at hfit
  cases hes : h.extensions with
  | none => rfl
  | some es =>
    cases es with
    | nil => rfl
    | cons e es =>
      obtain ⟨hlen, -, -⟩ := h.extensions_valid _ hes
      have hbytes : h.extension_block =
          u16 (ext_bytes (e :: es)).length ++ ext_bytes (e :: es) := by
        simp [client_hello.extension_block, hes]
      rw [hbytes, List.length_append, u16_length] at hfit
      rw [hbytes, holds_append] at hblock
      have hx : extensions_length b = (ext_bytes (e :: es)).length := by
        rw [extensions_length, hat]
        exact be16_of_holds hlen hblock.1
      have hpos : 4 ≤ (ext_bytes (e :: es)).length := by
        have hel := e.encode_length
        simp only [ext_bytes, List.flatMap_cons, List.length_append]
        omega
      refine absurd ⟨h0, h1, h5, ?_, ?_, ?_⟩ hext
      · omega
      · omega
      · omega

/-- The parser records the names of the message itself when, and only when, the loop is not
entered or what it meets behind the message is harmless. -/
theorem names_are_the_hellos_own (h : client_hello) (b : peek) (elapsed : Int) (flag : err_flags)
    (record_min : UInt8) (record_length : Nat)
    (hb : Holds b.mem 0 (h.framed record_min record_length))
    (hfit : (h.framed record_min record_length).length ≤ b.size) :
    Extracts b elapsed flag h.sni h.alpn ↔
      (has_extensions b → Harmless b h.behind h.sni h.alpn) := by
  obtain ⟨-, hat, -⟩ := h.layout hb
  by_cases hext : has_extensions b
  · obtain ⟨s, -, hc, -, hk, hparse⟩ := parse_with_extensions elapsed {} flag hext
    rw [hat] at hc
    have hnames := hk _ (no_names_steady b) ⟨rfl, rfl⟩
    obtain ⟨t, hr, hsni, halpn, hend⟩ := loop_through_message hb hfit hc hnames
    have hloop := loop_keeps_names_iff (b := b) (s := t)
    rw [hsni, halpn] at hloop
    rw [extracts_iff hparse]
    simp only [stops_of_reach hr, hext, forall_true_left]
    rw [hloop]
    rcases hend with hend | ⟨hend, hend'⟩
    · rw [hend]
    · exact ⟨fun _ => harmless_at_end hend' _ _, fun _ => harmless_at_end hend _ _⟩
  · have hnone := no_own_extensions hb hfit hext
    have hsni : h.sni = [] := by simp [client_hello.sni, hnone]
    have halpn : h.alpn = [] := by simp [client_hello.alpn, hnone]
    obtain ⟨⟨r, s⟩, hparse⟩ := parse_without_extensions elapsed {} flag hext
    have hkeep := parse_keeps_without_extensions elapsed {} flag (no_names_steady b) (fun _ _ hs => hs) ⟨rfl, rfl⟩ hext 0
    rw [hparse 0] at hkeep
    refine ⟨fun _ hno => absurd hno hext, fun _ => ⟨0, r, s, hparse 0, ?_, ?_⟩⟩
    · rw [hsni]
      exact hkeep.1
    · rw [halpn]
      exact hkeep.2

/-- Without further bytes, the parser records the host of the message. -/
theorem names_are_the_hellos_own_alone :
    Extracts (peek.of (hello_for_a.framed 1 57) (by decide)) 0 .ERROR_NONE [97] [] :=
  (names_are_the_hellos_own hello_for_a (peek.of (hello_for_a.framed 1 57) (by decide)) 0
    .ERROR_NONE 1 57 (by unfold Holds; decide) (by decide)).mpr
    fun _ => harmless_at_end (by decide) _ _

/-- A server name extension for the host `b`, behind the hello for `a`. -/
def followed_by_b : List UInt8 :=
  hello_for_a.framed 1 57 ++ (extension.server_name [98]).encode

/-- The parser records a host name from behind the message. -/
theorem a_host_name_from_behind_the_message :
    ¬ ∀ (h : client_hello) (b : peek) (elapsed : Int) (flag : err_flags) (record_min : UInt8)
      (record_length : Nat), Holds b.mem 0 (h.framed record_min record_length) →
      (h.framed record_min record_length).length ≤ b.size →
      Extracts b elapsed flag h.sni h.alpn := by
  intro hall
  obtain ⟨fuel, r, s, hrun, hsni, -⟩ := hall hello_for_a (peek.of followed_by_b (by decide)) 0
    .ERROR_NONE 1 57 (by unfold Holds; decide) (by decide)
  have hb : ∃ r' s', parse_peer_hello (peek.of followed_by_b (by decide)) 0 3 {} .ERROR_NONE =
      .inr (r', s') ∧ s'.found.sslcom_sni_ = [98] := by
    refine ⟨_, _, rfl, ?_⟩
    decide
  obtain ⟨r', s', hrun', hsni'⟩ := hb
  have hs := congrArg Prod.snd (parse_unique hrun hrun')
  simp only at hs
  rw [hs, hsni'] at hsni
  exact absurd hsni (by decide)

end socle.hello
