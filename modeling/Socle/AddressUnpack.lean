-- The family of a socket address (ss_address_unpack and ss_address_remap of
-- socketinfo.cpp): an IPv6 address is taken for a mapped one by how its text begins,
-- and other addresses have texts that begin so.
import Socle.Frames
import Socle.UdpIsolation

namespace socle.udp

open pcap.frames (inet_pton in6_addr)

/-! ## Data -/

/-- `ss_address_remap`: what it returns, and what it leaves in `mapped`. A text that is no address
leaves the one that was there. -/
def ss_address_remap (pton : inet_pton) (orig mapped : sockaddr_storage) : Nat × sockaddr_storage :=
  let (fa, ip_part, port_part) := ss_address_unpack orig
  if fa = AF_INET then
    (fa, { mapped with
      word := (pton.v4 ip_part).getD mapped.word, port := ntohs port_part, ss_family := fa })
  else if fa = AF_INET6 then
    (fa, { mapped with
      words := (pton.v6 ip_part).getD mapped.words, port := ntohs port_part, ss_family := fa })
  else (fa, mapped)

/-! ## The law -/

namespace address

/-- The family of an address. One that is mapped counts as IPv4. -/
def family : address → Nat
  | ip4 _ => AF_INET
  | ip6 _ => AF_INET6
  | other => 0

/-- Its text. -/
def text : address → udp.text
  | ip4 addr => inet_ntop4 (bytes_of addr)
  | ip6 addr => inet_ntop6 (addr.flatMap bytes_of)
  | other => []

/-- `inet_pton` reads the text of the address back. -/
def Reads (pton : inet_pton) : address → Prop
  | ip4 addr => pton.v4 (ip4 addr).text = some addr
  | ip6 addr => ∃ words, pton.v6 (ip6 addr).text = some words ∧
      [words.1, words.2.1, words.2.2.1, words.2.2.2] = addr
  | other => True

end address

/-- An address is unpacked to its family and text, and remapped to the same host and port in that
family. To remap that again changes nothing. -/
structure Unpacks (pton : inet_pton) (ptr : sockaddr_storage) : Prop where
  unpacked : ss_address_unpack ptr = (ptr.address.family, ptr.address.text, ntohs ptr.port)
  remapped : ∀ mapped, let r := ss_address_remap pton ptr mapped
    r.1 = ptr.address.family ∧ r.2.ss_family = r.1 ∧ r.2.address = ptr.address ∧ r.2.port = ptr.port
  again : ∀ mapped, let r := ss_address_remap pton ptr mapped
    ss_address_remap pton r.2 r.2 = r

/-! ## When it holds -/

/-- The longest run of zeros, when `run` of them stand in front. -/
def longest (run : Nat) : List Nat → Nat
  | [] => run
  | 0 :: rest => longest (run + 1) rest
  | _ :: rest => max run (longest 0 rest)

/-- An address starts with `n` words of 0, as its first longest run, and with 0xffff behind them. -/
def Starts (n : Nat) (words : List Nat) : Prop :=
  ∃ rest, words = List.replicate n 0 ++ 0xffff :: rest ∧ longest 0 rest ≤ n

/-- The text of an address begins like that of a mapped one. -/
def Confused (ptr : sockaddr_storage) : Prop :=
  ptr.ss_family = AF_INET6 ∧
    ∃ n, 2 ≤ n ∧ n ≤ 4 ∧ Starts n (words_of (ptr.sin6_addr.flatMap bytes_of))

/-! ## Digits -/

theorem digitChar_cases {n : Nat} (h : n < 16) :
    n.digitChar ≠ ':' ∧ (n.digitChar = 'f' → n = 15) := by
  have hall : ∀ m : Fin 16, m.val.digitChar ≠ ':' ∧ (m.val.digitChar = 'f' → m.val = 15) := by
    decide
  exact hall ⟨n, h⟩

theorem hex_colon (n : Nat) : ∀ c ∈ Nat.toDigits 16 n, c ≠ ':' := by
  induction n using Nat.strong_induction_on with
  | _ n ih =>
    intro c hc
    rw [Nat.toDigits_eq_if (by decide)] at hc
    split at hc
    next h =>
      obtain rfl := List.mem_singleton.mp hc
      exact (digitChar_cases h).1
    next h =>
      rcases List.mem_append.mp hc with hmem | hlast
      · exact ih (n / 16) (Nat.div_lt_self (by omega) (by decide)) c hmem
      · obtain rfl := List.mem_singleton.mp hlast
        exact (digitChar_cases (Nat.mod_lt n (by decide))).1

/-- A number whose digits end in "f". -/
theorem hex_concat {n : Nat} {l : List Char} (h : Nat.toDigits 16 n = l ++ ['f']) :
    n % 16 = 15 ∧ (l = [] ∧ n < 16 ∨ Nat.toDigits 16 (n / 16) = l) := by
  rw [Nat.toDigits_eq_if (by decide)] at h
  split at h
  next hlt =>
    have hsplit : [] ++ [n.digitChar] = l ++ ['f'] := h
    obtain ⟨hl, hf⟩ := List.append_inj' hsplit rfl
    have hdigit : n.digitChar = 'f' := by simpa using hf
    have hn := (digitChar_cases hlt).2 hdigit
    exact ⟨by omega, Or.inl ⟨hl.symm, hlt⟩⟩
  next hle =>
    obtain ⟨hl, hf⟩ := List.append_inj' h rfl
    have hdigit : (n % 16).digitChar = 'f' := by simpa using hf
    exact ⟨(digitChar_cases (Nat.mod_lt n (by decide))).2 hdigit, Or.inr hl⟩

theorem hex_ffff (n : Nat) : Nat.toDigits 16 n = ['f', 'f', 'f', 'f'] ↔ n = 0xffff := by
  constructor
  · intro h
    obtain ⟨h₁, hlow | h⟩ := @hex_concat n ['f', 'f', 'f'] h
    · exact absurd hlow.1 (by simp)
    obtain ⟨h₂, hlow | h⟩ := @hex_concat (n / 16) ['f', 'f'] h
    · exact absurd hlow.1 (by simp)
    obtain ⟨h₃, hlow | h⟩ := @hex_concat (n / 16 / 16) ['f'] h
    · exact absurd hlow.1 (by simp)
    obtain ⟨h₄, hlow | h⟩ := @hex_concat (n / 16 / 16 / 16) [] h
    · omega
    · exact absurd h Nat.toDigits_ne_nil
  · rintro rfl
    decide

/-! ## The run that is left out -/

variable {i n k : Nat} {cur best : Option (Nat × Nat)} {words : List Nat}

/-- A run does not start in front of the words. -/
def Late (r : Option (Nat × Nat)) : Prop :=
  ∀ b ∈ r, 0 < b.1

theorem late_none : Late none := by
  intro b hb
  cases hb

theorem late_some {b : Nat × Nat} (h : 0 < b.1) : Late (some b) := by
  intro b' hb
  obtain rfl := Option.some.inj hb
  exact h

theorem longer_late (hcur : Late cur) (hbest : Late best) : Late (zero_run.longer cur best) := by
  intro b hb
  cases cur with
  | none => exact hbest b hb
  | some c =>
    cases best with
    | none => exact hcur b hb
    | some b' =>
      obtain rfl := Option.some.inj hb
      split
      · exact hcur c rfl
      · exact hbest b' rfl

theorem zero_run_late (hi : 0 < i) (hcur : Late cur) (hbest : Late best) (words : List Nat) :
    Late (zero_run i cur best words) := by
  induction words generalizing i cur best with
  | nil => exact longer_late hcur hbest
  | cons w words ih =>
    cases w with
    | zero =>
      apply ih (Nat.succ_pos i) _ hbest
      apply late_some
      cases cur with
      | none => exact hi
      | some c => exact hcur c rfl
    | succ w => exact ih (Nat.succ_pos i) late_none (longer_late hcur hbest)

/-- The run of zeros in front. -/
theorem zero_run_replicate (start n : Nat) (words : List Nat) :
    zero_run i (some (start, k)) best (List.replicate n 0 ++ words) =
      zero_run (i + n) (some (start, k + n)) best words := by
  induction n generalizing i k with
  | zero => rfl
  | succ n ih =>
    have hstep : zero_run i (some (start, k)) best (0 :: (List.replicate n 0 ++ words)) =
        zero_run (i + 1) (some (start, k + 1)) best (List.replicate n 0 ++ words) := rfl
    rw [List.replicate_succ, List.cons_append, hstep, ih, Nat.add_right_comm i, Nat.add_right_comm k]
    rfl

theorem late_ne {r : Option (Nat × Nat)} (h : Late r) : r ≠ some (0, n) := by
  rintro rfl
  exact absurd (h _ rfl) (Nat.lt_irrefl 0)

theorem longer_first (c : Nat × Nat) :
    zero_run.longer (some c) (some (0, n)) = if c.2 > n then some c else some (0, n) := by
  show some (if c.2 > n then c else (0, n)) = _
  split <;> rfl

/-- The run in front stays the best when no later one is longer. One that is longer starts later,
and so does each that takes its place. -/
theorem zero_run_keeps (hi : 0 < i) (hcur : Late cur) (hrun : ∀ c ∈ cur, c.2 = k)
    (hnone : cur = none → k = 0) (words : List Nat) :
    zero_run i cur (some (0, n)) words = some (0, n) ↔ longest k words ≤ n := by
  induction words generalizing i cur k with
  | nil =>
    cases cur with
    | none =>
      rw [hnone rfl]
      exact iff_of_true rfl (Nat.zero_le n)
    | some c =>
      have hres : zero_run i (some c) (some (0, n)) [] = _ := longer_first c
      have hk : c.2 = k := hrun c rfl
      have hlongest : longest k [] = k := rfl
      rw [hres, hk, hlongest]
      split
      next hgt => exact iff_of_false (late_ne hcur) (by omega)
      next hle => exact iff_of_true rfl (by omega)
  | cons w words ih =>
    cases w with
    | zero =>
      cases cur with
      | none =>
        obtain rfl := hnone rfl
        apply @ih (i + 1) 1 (some (i, 1)) (Nat.succ_pos i)
        · apply late_some
          exact hi
        · rintro b hb
          obtain rfl := Option.some.inj hb
          rfl
        · exact fun h => nomatch h
      | some c =>
        apply @ih (i + 1) (k + 1) (some (c.1, c.2 + 1)) (Nat.succ_pos i)
        · apply late_some
          exact hcur c rfl
        · rintro b hb
          obtain rfl := Option.some.inj hb
          exact congrArg Nat.succ (hrun c rfl)
        · exact fun h => nomatch h
    | succ w =>
      have hrest := @ih (i + 1) 0 none (Nat.succ_pos i) late_none
        (by rintro c ⟨⟩) (fun _ => rfl)
      have hstep : zero_run i cur (some (0, n)) ((w + 1) :: words) =
          zero_run (i + 1) none (zero_run.longer cur (some (0, n))) words := rfl
      have hlongest : longest k ((w + 1) :: words) = max k (longest 0 words) := rfl
      rw [hstep, hlongest]
      cases cur with
      | none =>
        obtain rfl := hnone rfl
        rw [Nat.zero_max]
        exact hrest
      | some c =>
        rw [longer_first, hrun c rfl]
        by_cases hgt : k > n
        · rw [if_pos hgt]
          refine iff_of_false (late_ne ?_) (by omega)
          exact zero_run_late (Nat.succ_pos i) late_none hcur words
        · rw [if_neg hgt, hrest]
          omega

/-- The best run starts in front, just when there are zeros in front and no later run is longer. -/
theorem zero_run_first (w : Nat) (hw : w ≠ 0) (rest : List Nat) :
    zero_run 0 none none (List.replicate (n + 1) 0 ++ w :: rest) = some (0, n + 1) ↔
      longest 0 rest ≤ n + 1 := by
  obtain ⟨w, rfl⟩ := Nat.exists_eq_succ_of_ne_zero hw
  have hstart : zero_run 0 none none (List.replicate (n + 1) 0 ++ (w + 1) :: rest) =
      zero_run 1 (some (0, 1)) none (List.replicate n 0 ++ (w + 1) :: rest) := rfl
  have hend : zero_run (1 + n) (some (0, 1 + n)) none ((w + 1) :: rest) =
      zero_run (1 + n + 1) none (some (0, 1 + n)) rest := rfl
  rw [hstart, zero_run_replicate, hend, Nat.add_comm 1 n]
  exact zero_run_keeps (Nat.succ_pos _) late_none (by rintro c ⟨⟩) (fun _ => rfl) rest

theorem longer_or (hcur : Late cur) :
    zero_run.longer cur (some (0, n)) = some (0, n) ∨ Late (zero_run.longer cur (some (0, n))) := by
  cases cur with
  | none => exact Or.inl rfl
  | some c =>
    rw [longer_first]
    split
    · exact Or.inr hcur
    · exact Or.inl rfl

/-- A run that takes the place of the one in front starts later. -/
theorem zero_run_or (hi : 0 < i) (hcur : Late cur) (words : List Nat) :
    zero_run i cur (some (0, n)) words = some (0, n) ∨
      Late (zero_run i cur (some (0, n)) words) := by
  induction words generalizing i cur with
  | nil => exact longer_or hcur
  | cons w words ih =>
    cases w with
    | zero =>
      cases cur with
      | none =>
        have hlate : Late (some (i, 1)) := late_some hi
        exact ih (Nat.succ_pos i) hlate
      | some c =>
        have hlate : Late (some (c.1, c.2 + 1)) := late_some (hcur c rfl)
        exact ih (Nat.succ_pos i) hlate
    | succ w =>
      have hstep : zero_run i cur (some (0, n)) ((w + 1) :: words) =
          zero_run (i + 1) none (zero_run.longer cur (some (0, n))) words := rfl
      rw [hstep]
      rcases @longer_or n cur hcur with h | h
      · rw [h]
        exact ih (Nat.succ_pos i) late_none
      · exact Or.inr (zero_run_late (Nat.succ_pos i) late_none h words)

/-- The run in front is the best one, or the best one starts later. -/
theorem zero_run_other (w : Nat) (hw : w ≠ 0) (rest : List Nat) :
    zero_run 0 none none (List.replicate n 0 ++ w :: rest) = some (0, n) ∨
      Late (zero_run 0 none none (List.replicate n 0 ++ w :: rest)) := by
  obtain ⟨w, rfl⟩ := Nat.exists_eq_succ_of_ne_zero hw
  cases n with
  | zero =>
    have hstep : zero_run 0 none none ((w + 1) :: rest) = zero_run 1 none none rest := rfl
    rw [List.replicate_zero, List.nil_append, hstep]
    exact Or.inr (zero_run_late Nat.one_pos late_none late_none rest)
  | succ n =>
    have hstart : zero_run 0 none none (List.replicate (n + 1) 0 ++ (w + 1) :: rest) =
        zero_run 1 (some (0, 1)) none (List.replicate n 0 ++ (w + 1) :: rest) := rfl
    have hend : zero_run (1 + n) (some (0, 1 + n)) none ((w + 1) :: rest) =
        zero_run (1 + n + 1) none (some (0, 1 + n)) rest := rfl
    rw [hstart, zero_run_replicate, hend, Nat.add_comm 1 n]
    exact zero_run_or (Nat.succ_pos _) late_none rest

/-! ## How a text begins -/

variable {bytes : List Nat}

/-- The text for words of which a run is left out. -/
def ntop6 (bytes words : List Nat) (best : Option (Nat × Nat)) : text :=
  let inside := fun i => best.any fun b => b.1 ≤ i && i < b.1 + b.2
  let four := best == some (0, 6) || best == some (0, 5) && words.getD 5 0 == 0xffff
  let out := (List.range 8).flatMap fun i =>
    if inside i then (if best.any fun b => b.1 = i then [':'] else [])
    else
      let colon := if i = 0 then [] else [':']
      if four && i == 7 then []
      else if four && i == 6 then colon ++ inet_ntop4 (bytes.drop 12)
      else colon ++ Nat.toDigits 16 (words.getD i 0)
  if best.any fun b => b.1 + b.2 = 8 then out ++ [':'] else out

theorem inet_ntop6_eq (bytes : List Nat) :
    inet_ntop6 bytes = ntop6 bytes (words_of bytes)
      ((zero_run 0 none none (words_of bytes)).filter fun b => 2 ≤ b.2) := rfl

/-- A text begins with a digit when no run in front is left out. -/
theorem ntop6_late (h : Late best) :
    ∃ c l, ntop6 bytes words best = c :: l ∧ c ≠ ':' := by
  have hfour : (best == some (0, 6) || best == some (0, 5) && words.getD 5 0 == 0xffff) = false := by
    have h6 : (best == some (0, 6)) = false := beq_eq_false_iff_ne.mpr (late_ne h)
    have h5 : (best == some (0, 5)) = false := beq_eq_false_iff_ne.mpr (late_ne h)
    rw [h6, h5]
    rfl
  have hinside : (best.any fun b => b.1 ≤ 0 && 0 < b.1 + b.2) = false := by
    cases best with
    | none => rfl
    | some b =>
      have hb := h b rfl
      simp only [Option.any_some, Bool.and_eq_false_iff, decide_eq_false_iff_not]
      exact Or.inl (by omega)
  obtain ⟨c, l, hdigits⟩ := List.exists_cons_of_ne_nil (@Nat.toDigits_ne_nil (words.getD 0 0) 16)
  have hc : c ≠ ':' := hex_colon (words.getD 0 0) c (by rw [hdigits]; exact List.mem_cons_self)
  have hrange : List.range 8 = 0 :: [1, 2, 3, 4, 5, 6, 7] := rfl
  unfold ntop6
  dsimp only
  rw [hfour, hrange, List.flatMap_cons]
  simp only [hinside, Bool.false_eq_true, if_false, Bool.false_and, if_true, List.nil_append, hdigits,
    List.cons_append]
  split
  · exact ⟨c, _, rfl, hc⟩
  · exact ⟨c, _, rfl, hc⟩

theorem prefix_digits {d more : text} (hd : ∀ c ∈ d, c ≠ ':')
    (hmore : more = [] ∨ ∃ m, more = ':' :: m) :
    mapped_prefix <+: ':' :: ':' :: (d ++ more) ↔ d = ['f', 'f', 'f', 'f'] ∧ more ≠ [] := by
  have hstep : mapped_prefix <+: ':' :: ':' :: (d ++ more) ↔
      ['f', 'f', 'f', 'f', ':'] <+: d ++ more := by
    unfold mapped_prefix
    rw [List.cons_prefix_cons, List.cons_prefix_cons]
    simp
  rw [hstep]
  constructor
  · rintro ⟨rest, hrest⟩
    have hall : ∀ c ∈ d, decide (c ≠ ':') = true := fun c hc => decide_eq_true (hd c hc)
    have htake := congrArg (List.takeWhile fun c => decide (c ≠ ':')) hrest
    rw [List.takeWhile_append_of_pos hall] at htake
    have hnone : more.takeWhile (fun c => decide (c ≠ ':')) = [] := by
      rcases hmore with rfl | ⟨m, rfl⟩
      · rfl
      · exact List.takeWhile_cons_of_neg (by simp)
    rw [hnone, List.append_nil] at htake
    have hffff : d = ['f', 'f', 'f', 'f'] := htake.symm
    refine ⟨hffff, ?_⟩
    rintro rfl
    rw [hffff] at hrest
    exact absurd (congrArg List.length hrest) (by simp)
  · rintro ⟨rfl, hne⟩
    obtain ⟨m, rfl⟩ := hmore.resolve_left hne
    exact ⟨m, rfl⟩

/-- The characters of a dotted address. -/
theorem ntop4_chars (bytes : List Nat) : ∀ c ∈ inet_ntop4 bytes, c.isDigit ∨ c = '.' := by
  unfold inet_ntop4
  induction bytes with
  | nil =>
    intro c hc
    cases hc
  | cons b bytes ih =>
    intro c hc
    have hdigit : c ∈ Nat.toDigits 10 b → c.isDigit ∨ c = '.' := fun h =>
      Or.inl (Nat.isDigit_of_mem_toDigits (by decide) (by decide) h)
    cases bytes with
    | nil => exact hdigit (by simpa using hc)
    | cons b' bytes =>
      simp only [List.map_cons, List.intersperse_cons_cons, List.flatten_cons, List.mem_append,
        List.mem_singleton] at hc
      rcases hc with hmem | hdot | hrest
      · exact hdigit hmem
      · exact Or.inr hdot
      · exact ih c hrest

theorem ntop4_colon (bytes : List Nat) : ∀ c ∈ inet_ntop4 bytes, c ≠ ':' ∧ c ≠ 'f' := by
  intro c hc
  rcases ntop4_chars bytes c hc with hdigit | rfl
  · constructor
    · rintro rfl
      exact absurd hdigit (by decide)
    · rintro rfl
      exact absurd hdigit (by decide)
  · decide

/-- What stands behind "::", when a run in front is left out. -/
theorem ntop6_first (hn : 2 ≤ n) (hn' : n ≤ 7) :
    ∃ d more, ntop6 bytes words (some (0, n)) = ':' :: ':' :: (d ++ more) ∧
      (∀ c ∈ d, c ≠ ':') ∧ (more = [] ∨ ∃ m, more = ':' :: m) ∧
      (d = ['f', 'f', 'f', 'f'] ∧ more ≠ [] ↔ n ≤ 5 ∧ words.getD n 0 = 0xffff) := by
  -- a word of hexadecimal digits, and words behind it
  have hhex : ∀ m, n ≤ 5 → ntop6 bytes words (some (0, n)) =
        ':' :: ':' :: (Nat.toDigits 16 (words.getD n 0) ++ ':' :: m) →
      ∃ d more, ntop6 bytes words (some (0, n)) = ':' :: ':' :: (d ++ more) ∧
        (∀ c ∈ d, c ≠ ':') ∧ (more = [] ∨ ∃ m, more = ':' :: m) ∧
        (d = ['f', 'f', 'f', 'f'] ∧ more ≠ [] ↔ n ≤ 5 ∧ words.getD n 0 = 0xffff) := by
    intro m hle htext
    refine ⟨_, _, htext, hex_colon _, Or.inr ⟨m, rfl⟩, ?_⟩
    rw [hex_ffff]
    simp [hle]
  have hcases : n = 2 ∨ n = 3 ∨ n = 4 ∨ n = 5 ∨ n = 6 ∨ n = 7 := by omega
  rcases hcases with rfl | rfl | rfl | rfl | rfl | rfl
  · apply hhex _ (by decide)
    simp [ntop6, List.range, List.range.loop]
    rfl
  · apply hhex _ (by decide)
    simp [ntop6, List.range, List.range.loop]
    rfl
  · apply hhex _ (by decide)
    simp [ntop6, List.range, List.range.loop]
    rfl
  · by_cases hffff : words.getD 5 0 = 0xffff
    · apply hhex _ (by decide)
      simp only [List.getD_eq_getElem?_getD] at hffff
      simp [ntop6, List.range, List.range.loop, hffff]
      rfl
    · apply hhex _ (by decide)
      simp only [List.getD_eq_getElem?_getD] at hffff
      simp [ntop6, List.range, List.range.loop, hffff]
      rfl
  · -- the last four bytes are dotted
    refine ⟨inet_ntop4 (bytes.drop 12), [], ?_, fun c hc => (ntop4_colon _ c hc).1, Or.inl rfl, ?_⟩
    · simp [ntop6, List.range, List.range.loop]
    · simp
  · refine ⟨Nat.toDigits 16 (words.getD 7 0), [], ?_, hex_colon _, Or.inl rfl, ?_⟩
    · simp [ntop6, List.range, List.range.loop]
    · simp

/-- The words, from the zeros in front. -/
theorem zeros_front (words : List Nat) :
    words = List.replicate words.length 0 ∨
      ∃ n w rest, words = List.replicate n 0 ++ w :: rest ∧ w ≠ 0 := by
  induction words with
  | nil => exact Or.inl rfl
  | cons w words ih =>
    by_cases hw : w = 0
    · rcases ih with h | ⟨n, w', rest, rfl, hne⟩
      · left
        rw [hw, List.length_cons, List.replicate_succ, ← h]
      · right
        refine ⟨n + 1, w', rest, ?_, hne⟩
        rw [hw, List.replicate_succ]
        rfl
    · exact Or.inr ⟨0, w, words, rfl, hw⟩

theorem zeros_unique {m n w w' : Nat} {rest rest' : List Nat} (hw : w ≠ 0) (hw' : w' ≠ 0)
    (h : List.replicate m 0 ++ w :: rest = List.replicate n 0 ++ w' :: rest') :
    m = n ∧ w = w' ∧ rest = rest' := by
  induction m generalizing n with
  | zero =>
    cases n with
    | zero => exact ⟨rfl, List.cons.inj h⟩
    | succ n => exact absurd (List.cons.inj h).1 hw
  | succ m ih =>
    cases n with
    | zero => exact absurd (List.cons.inj h).1.symm hw'
    | succ n =>
      obtain ⟨hmn, hrest⟩ := ih (List.cons.inj h).2
      exact ⟨congrArg Nat.succ hmn, hrest⟩

/-- The texts that begin like that of a mapped address. -/
theorem prefix_iff (hlen : (words_of bytes).length = 8) :
    mapped_prefix <+: inet_ntop6 bytes ↔
      ∃ n, 2 ≤ n ∧ n ≤ 5 ∧ Starts n (words_of bytes) := by
  rw [inet_ntop6_eq]
  generalize words_of bytes = words at hlen ⊢
  have hlate : ∀ best, Late best → ¬ mapped_prefix <+: ntop6 bytes words best := by
    rintro best hbest ⟨rest, hrest⟩
    obtain ⟨c, l, htext, hc⟩ : ∃ c l, ntop6 bytes words best = c :: l ∧ c ≠ ':' := ntop6_late hbest
    rw [htext] at hrest
    exact hc (List.cons.inj hrest).1.symm
  rcases zeros_front words with hzeros | ⟨n, w, rest, rfl, hw⟩
  · rw [hlen] at hzeros
    subst hzeros
    refine iff_of_false (fun h => ?_) ?_
    · have htext : ntop6 bytes (List.replicate 8 0)
          ((zero_run 0 none none (List.replicate 8 0)).filter fun b => 2 ≤ b.2) = [':', ':'] := rfl
      rw [htext] at h
      exact absurd h.length_le (by decide)
    · rintro ⟨n, -, -, rest, hrest, -⟩
      have hmem : 0xffff ∈ List.replicate 8 0 := by
        rw [hrest]
        simp
      exact absurd (List.eq_of_mem_replicate hmem) (by decide)
  · have hstarts : ∀ m, Starts m (List.replicate n 0 ++ w :: rest) ↔
        m = n ∧ w = 0xffff ∧ longest 0 rest ≤ n := by
      intro m
      constructor
      · rintro ⟨rest', hsplit, hlongest⟩
        obtain ⟨rfl, rfl, rfl⟩ := zeros_unique hw (by decide) hsplit
        exact ⟨rfl, rfl, hlongest⟩
      · rintro ⟨rfl, rfl, hlongest⟩
        exact ⟨rest, rfl, hlongest⟩
    have hn : n ≤ 7 := by
      rw [List.length_append, List.length_replicate, List.length_cons] at hlen
      omega
    have hget : (List.replicate n 0 ++ w :: rest).getD n 0 = w := by
      simp
    by_cases hshort : n < 2
    · refine iff_of_false (hlate _ ?_) ?_
      · intro b hb
        obtain ⟨hrun, hb2⟩ := Option.filter_eq_some_iff.mp hb
        rcases zero_run_other w hw rest (n := n) with hfirst | hlater
        · rw [hfirst] at hrun
          obtain rfl := Option.some.inj hrun
          exact absurd (of_decide_eq_true hb2) (by omega)
        · exact hlater b hrun
      · rintro ⟨m, hm, -, hstart⟩
        obtain ⟨rfl, -⟩ := (hstarts m).mp hstart
        omega
    · obtain ⟨k, rfl⟩ : ∃ k, n = k + 1 := ⟨n - 1, by omega⟩
      have hfirst := zero_run_first (n := k) w hw rest
      by_cases hlongest : longest 0 rest ≤ k + 1
      · have hbest : (zero_run 0 none none (List.replicate (k + 1) 0 ++ w :: rest)).filter
            (fun b => 2 ≤ b.2) = some (0, k + 1) := by
          rw [hfirst.mpr hlongest]
          exact Option.filter_some_pos (decide_eq_true (by omega))
        obtain ⟨d, more, htext, hd, hmore, hffff⟩ :=
          @ntop6_first (k + 1) (List.replicate (k + 1) 0 ++ w :: rest) bytes (by omega) hn
        rw [hbest, htext, prefix_digits hd hmore, hffff, hget]
        constructor
        · rintro ⟨hle, rfl⟩
          exact ⟨k + 1, by omega, hle, (hstarts _).mpr ⟨rfl, rfl, hlongest⟩⟩
        · rintro ⟨m, -, hle, hstart⟩
          obtain ⟨rfl, hw', -⟩ := (hstarts m).mp hstart
          exact ⟨hle, hw'⟩
      · refine iff_of_false (hlate _ ?_) ?_
        · intro b hb
          obtain ⟨hrun, -⟩ := Option.filter_eq_some_iff.mp hb
          rcases zero_run_other (n := k + 1) w hw rest with hfront | hlater
          · exact absurd (hfirst.mp hfront) hlongest
          · exact hlater b hrun
        · rintro ⟨m, -, -, hstart⟩
          obtain ⟨rfl, -, hle⟩ := (hstarts m).mp hstart
          exact hlongest hle

/-! ## Unpacking -/

section

variable {ptr : sockaddr_storage} {pton : inet_pton}

/-- The bytes of a number whose first word is 0. -/
theorem pair_bytes {n a b : Nat} (hn : n < 4294967296) (ha : a < 256) (hb : b < 256) :
    n = a * 65536 + b * 16777216 ↔
      n % 256 * 256 + n / 256 % 256 = 0 ∧
        n / 65536 % 256 * 256 + n / 16777216 = a * 256 + b := by
  constructor
  · intro h
    omega
  · rintro ⟨hhigh, hlow⟩
    have h₀ : n % 256 = 0 := by omega
    have h₁ : n / 256 % 256 = 0 := by omega
    have h₂ : n / 65536 % 256 = a := by omega
    have h₃ : n / 16777216 = b := by omega
    omega

theorem word_iff (w : UInt32) {a b : Nat} (ha : a < 256) (hb : b < 256) :
    w.toNat = a * 65536 + b * 16777216 ↔ words_of (bytes_of w) = [0, a * 256 + b] := by
  rw [pair_bytes w.toNat_lt ha hb]
  simp only [bytes_of, words_of, List.cons.injEq, and_true]

theorem longest_le (run : Nat) (words : List Nat) : longest run words ≤ run + words.length := by
  induction words generalizing run with
  | nil => exact Nat.le_refl run
  | cons w words ih =>
    cases w with
    | zero =>
      have hstep : longest run (0 :: words) = longest (run + 1) words := rfl
      have hrest := ih (run + 1)
      rw [hstep, List.length_cons]
      omega
    | succ w =>
      have hstep : longest run ((w + 1) :: words) = max run (longest 0 words) := rfl
      have hrest := ih 0
      rw [hstep, List.length_cons]
      omega

/-- A mapped address starts with five words of 0. -/
theorem mapped_starts : ptr.mapped ↔ Starts 5 (words_of (ptr.sin6_addr.flatMap bytes_of)) := by
  unfold sockaddr_storage.mapped sockaddr_storage.sin6_addr
  obtain ⟨a, b, c, d⟩ := ptr.words
  have hwords : words_of ([a, b, c, d].flatMap bytes_of) =
      words_of (bytes_of a) ++ words_of (bytes_of b) ++ words_of (bytes_of c) ++
        words_of (bytes_of d) := rfl
  have hzero : ∀ w : UInt32, w = 0 ↔ words_of (bytes_of w) = [0, 0] := fun w =>
    UInt32.toNat_inj.symm.trans (@word_iff w 0 0 (by decide) (by decide))
  have hffff : c = 0xffff0000 ↔ words_of (bytes_of c) = [0, 0xffff] :=
    UInt32.toNat_inj.symm.trans (@word_iff c 0xff 0xff (by decide) (by decide))
  dsimp only
  rw [hwords, hzero a, hzero b, hffff]
  constructor
  · rintro ⟨ha, hb, hc⟩
    refine ⟨words_of (bytes_of d), ?_, (longest_le 0 _).trans (by decide : 2 ≤ 5)⟩
    rw [ha, hb, hc]
    rfl
  · rintro ⟨rest, hsplit, -⟩
    have hfront := congrArg (List.take 6) hsplit
    simp only [bytes_of, words_of, List.cons_append, List.nil_append, List.take_succ_cons,
      List.take_zero, List.replicate_succ, List.replicate_zero, List.cons.injEq, and_true] at hfront ⊢
    obtain ⟨h₀, h₁, h₂, h₃, h₄, h₅⟩ := hfront
    exact ⟨⟨h₀, h₁⟩, ⟨h₂, h₃⟩, h₄, h₅⟩

/-- The text of an address begins like that of a mapped one, when it is mapped or confused. -/
theorem prefix_address (hfamily : ptr.ss_family = AF_INET6) :
    mapped_prefix <+: inet_ntop6 (ptr.sin6_addr.flatMap bytes_of) ↔ ptr.mapped ∨ Confused ptr := by
  rw [@prefix_iff (ptr.sin6_addr.flatMap bytes_of) rfl, mapped_starts]
  constructor
  · rintro ⟨n, hn, hle, hstart⟩
    by_cases h5 : n = 5
    · subst h5
      exact Or.inl hstart
    · exact Or.inr ⟨hfamily, n, hn, by omega, hstart⟩
  · rintro (hstart | ⟨-, n, hn, hle, hstart⟩)
    · exact ⟨5, by decide, by decide, hstart⟩
    · exact ⟨n, hn, by omega, hstart⟩

/-- A confused address is not mapped. -/
theorem Confused.not_mapped (h : Confused ptr) : ¬ ptr.mapped := by
  obtain ⟨-, n, hn, hle, rest, hsplit, -⟩ := h
  rw [mapped_starts]
  rintro ⟨rest', hsplit', -⟩
  obtain ⟨rfl, -⟩ := zeros_unique (by decide) (by decide) (hsplit.symm.trans hsplit')
  omega

/-- A dotted address is no mapped one. -/
theorem unpack_ip4 (h : ptr.ss_family = AF_INET) :
    ss_address_unpack ptr = (AF_INET, inet_ntop4 (bytes_of ptr.sin_addr), ntohs ptr.port) := by
  have hprefix : ¬ mapped_prefix.isPrefixOf (inet_ntop4 (bytes_of ptr.sin_addr)) := by
    rw [List.isPrefixOf_iff_prefix]
    rintro ⟨rest, hrest⟩
    have hcolon : ':' ∈ inet_ntop4 (bytes_of ptr.sin_addr) := by
      rw [← hrest]
      exact List.mem_append_left rest (by decide)
    exact (ntop4_colon _ ':' hcolon).1 rfl
  have hne : ¬ AF_INET = AF_INET6 := by decide
  simp only [ss_address_unpack, h, hne, if_false, if_true, if_neg hprefix]

theorem mapped_ntop6 (x : UInt32) : inet_ntop6 ([0, 0, 0xffff0000, x].flatMap bytes_of) =
    mapped_prefix ++ inet_ntop4 (bytes_of x) := by
  obtain ⟨a, b, hwords⟩ : ∃ a b,
      words_of ([0, 0, 0xffff0000, x].flatMap bytes_of) = [0, 0, 0, 0, 0, 0xffff, a, b] :=
    ⟨_, _, rfl⟩
  have hrun : zero_run 0 none none [0, 0, 0, 0, 0, 0xffff, a, b] = some (0, 5) := by
    cases a <;> cases b <;> rfl
  have hdrop : ([0, 0, 0xffff0000, x].flatMap bytes_of).drop 12 = bytes_of x := rfl
  have hhex : Nat.toDigits 16 0xffff = ['f', 'f', 'f', 'f'] := by decide
  simp only [inet_ntop6, hwords, hrun, hdrop]
  simp [List.range, List.range.loop, mapped_prefix, Option.filter, hhex]

/-- A mapped address is unpacked as one of IPv4. -/
theorem unpack_mapped (h : ptr.ss_family = AF_INET6) (hm : ptr.mapped) :
    ss_address_unpack ptr = (AF_INET, inet_ntop4 (bytes_of ptr.words.2.2.2), ntohs ptr.port) := by
  have htext : inet_ntop6 (ptr.sin6_addr.flatMap bytes_of) =
      mapped_prefix ++ inet_ntop4 (bytes_of ptr.words.2.2.2) := by
    rw [← mapped_ntop6, sockaddr_storage.sin6_addr, hm.1, hm.2.1, hm.2.2]
  have hprefix : mapped_prefix.isPrefixOf ( mapped_prefix ++ inet_ntop4 (bytes_of ptr.words.2.2.2)) =
      true := List.isPrefixOf_iff_prefix.mpr (List.prefix_append _ _)
  have hdrop : ( mapped_prefix ++ inet_ntop4 (bytes_of ptr.words.2.2.2)).drop 7 =
      inet_ntop4 (bytes_of ptr.words.2.2.2) := rfl
  simp only [ss_address_unpack, h, if_true, htext, hprefix, hdrop]

theorem unpack_ip6 (h : ptr.ss_family = AF_INET6) (hm : ¬ ptr.mapped) (hc : ¬ Confused ptr) :
    ss_address_unpack ptr =
      (AF_INET6, inet_ntop6 (ptr.sin6_addr.flatMap bytes_of), ntohs ptr.port) := by
  have hprefix : ¬ mapped_prefix.isPrefixOf (inet_ntop6 (ptr.sin6_addr.flatMap bytes_of)) := by
    rw [List.isPrefixOf_iff_prefix, prefix_address h]
    simp [hm, hc]
  simp only [ss_address_unpack, h, if_true, if_neg hprefix]

/-- A confused address is reported as one of IPv4. -/
theorem unpack_confused (h : Confused ptr) : (ss_address_unpack ptr).1 = AF_INET := by
  have hprefix : mapped_prefix.isPrefixOf (inet_ntop6 (ptr.sin6_addr.flatMap bytes_of)) = true := by
    rw [List.isPrefixOf_iff_prefix, prefix_address h.1]
    exact Or.inr h
  simp only [ss_address_unpack, h.1, if_true, hprefix]

/-! ## Remapping -/

theorem remap_ip4 {w : UInt32}
    (hunpack : ss_address_unpack ptr = (AF_INET, inet_ntop4 (bytes_of w), ntohs ptr.port))
    (hreads : pton.v4 (inet_ntop4 (bytes_of w)) = some w) (mapped : sockaddr_storage) :
    ss_address_remap pton ptr mapped =
      (AF_INET, { mapped with word := w, port := ptr.port, ss_family := AF_INET }) := by
  simp only [ss_address_remap, hunpack, if_true, hreads, Option.getD_some, ntohs_ntohs]

theorem remap_ip6 (hunpack : ss_address_unpack ptr =
      (AF_INET6, inet_ntop6 (ptr.sin6_addr.flatMap bytes_of), ntohs ptr.port))
    (hreads : pton.v6 (inet_ntop6 (ptr.sin6_addr.flatMap bytes_of)) = some ptr.words)
    (mapped : sockaddr_storage) :
    ss_address_remap pton ptr mapped =
      (AF_INET6, { mapped with words := ptr.words, port := ptr.port, ss_family := AF_INET6 }) := by
  have hne : ¬ AF_INET6 = AF_INET := by decide
  simp only [ss_address_remap, hunpack, hne, if_false, if_true, hreads, Option.getD_some,
    ntohs_ntohs]

/-- What is unpacked as an address of IPv4, and is one. -/
theorem unpacks_ip4 {w : UInt32} (haddress : ptr.address = .ip4 w)
    (hunpack : ss_address_unpack ptr = (AF_INET, inet_ntop4 (bytes_of w), ntohs ptr.port))
    (hreads : pton.v4 (inet_ntop4 (bytes_of w)) = some w) : Unpacks pton ptr := by
  have hremap := remap_ip4 hunpack hreads
  refine ⟨?_, ?_, ?_⟩
  · rw [hunpack, haddress]
    rfl
  · intro mapped
    dsimp only
    rw [hremap, haddress]
    exact ⟨rfl, rfl, rfl, rfl⟩
  · intro mapped
    dsimp only
    rw [hremap]
    apply remap_ip4 _ hreads
    apply unpack_ip4
    rfl

/-- An address of IPv6 that is neither mapped nor confused. -/
theorem unpacks_ip6 (hfamily : ptr.ss_family = AF_INET6) (hm : ¬ ptr.mapped) (hc : ¬ Confused ptr)
    (hreads : ptr.address.Reads pton) : Unpacks pton ptr := by
  have haddress : ∀ s : sockaddr_storage, s.ss_family = AF_INET6 → s.words = ptr.words →
      s.address = .ip6 ptr.sin6_addr := by
    intro s hs hwords
    have hms : ¬ s.mapped := by
      unfold sockaddr_storage.mapped at hm ⊢
      rw [hwords]
      exact hm
    rw [sockaddr_storage.address, if_pos hs, if_neg hms, sockaddr_storage.sin6_addr, hwords]
    rfl
  have hv6 : pton.v6 (inet_ntop6 (ptr.sin6_addr.flatMap bytes_of)) = some ptr.words := by
    rw [haddress ptr hfamily rfl] at hreads
    obtain ⟨words, hread, hwords⟩ := hreads
    simp only [sockaddr_storage.sin6_addr, List.cons.injEq, and_true] at hwords
    obtain ⟨h₀, h₁, h₂, h₃⟩ := hwords
    have hsame : words = ptr.words := Prod.ext h₀ (Prod.ext h₁ (Prod.ext h₂ h₃))
    rw [← hsame]
    exact hread
  have hunpack := unpack_ip6 hfamily hm hc
  have hremap := remap_ip6 hunpack hv6
  refine ⟨?_, ?_, ?_⟩
  · rw [hunpack, haddress ptr hfamily rfl]
    rfl
  · intro mapped
    dsimp only
    rw [hremap, haddress ptr hfamily rfl]
    exact ⟨rfl, rfl, haddress _ rfl rfl, rfl⟩
  · intro mapped
    dsimp only
    rw [hremap]
    let s : sockaddr_storage :=
      { mapped with words := ptr.words, port := ptr.port, ss_family := AF_INET6 }
    have hcs : ¬ Confused s := by
      rintro ⟨-, hstarts⟩
      exact hc ⟨hfamily, hstarts⟩
    have hs : ss_address_unpack s = _ := unpack_ip6 rfl hm hcs
    exact remap_ip6 hs hv6 s

end

/-! ## Every address -/

/-- An address is unpacked and remapped, just when its text does not begin like that of a mapped one
by mistake. -/
theorem unpacks_iff (pton : inet_pton) (ptr : sockaddr_storage)
    (hfamily : ptr.ss_family = AF_INET ∨ ptr.ss_family = AF_INET6)
    (hreads : ptr.address.Reads pton) : Unpacks pton ptr ↔ ¬ Confused ptr := by
  have hne : ¬ AF_INET = AF_INET6 := by decide
  constructor
  · intro h hc
    have haddress : ptr.address = .ip6 ptr.sin6_addr := by
      rw [sockaddr_storage.address, if_pos hc.1, if_neg hc.not_mapped]
    have hreported := unpack_confused hc
    rw [h.unpacked, haddress] at hreported
    exact hne hreported.symm
  · intro hc
    rcases hfamily with h4 | h6
    · have haddress : ptr.address = .ip4 ptr.sin_addr := by
        rw [sockaddr_storage.address, if_neg (fun h6 => hne (h4.symm.trans h6)), if_pos h4]
      rw [haddress] at hreads
      exact unpacks_ip4 haddress (unpack_ip4 h4) hreads
    · by_cases hm : ptr.mapped
      · have haddress : ptr.address = .ip4 ptr.words.2.2.2 := by
          rw [sockaddr_storage.address, if_pos h6, if_pos hm]
        rw [haddress] at hreads
        exact unpacks_ip4 haddress (unpack_mapped h6 hm) hreads
      · exact unpacks_ip6 h6 hm hc hreads

/-- A C library that knows two addresses. -/
def two_addresses : inet_pton where
  v4 host := if host = ['1', '0', '.', '0', '.', '0', '.', '1'] then some 0x0100000a else none
  v6 host := if host = [':', ':', '1'] then some (0, 0, 0, 0x01000000) else none

/-- `::1` is unpacked and remapped. -/
theorem unpacks_iff_loopback :
    Unpacks two_addresses ⟨AF_INET6, 0x5000, 0, (0, 0, 0, 0x01000000)⟩ ↔
      ¬ Confused ⟨AF_INET6, 0x5000, 0, (0, 0, 0, 0x01000000)⟩ :=
  unpacks_iff two_addresses ⟨AF_INET6, 0x5000, 0, (0, 0, 0, 0x01000000)⟩ (Or.inr rfl)
    ⟨(0, 0, 0, 0x01000000), by decide, rfl⟩

/-- `::ffff:1:2:3` is reported as an address of IPv4. -/
theorem not_unpacked : ∃ (pton : inet_pton) (ptr : sockaddr_storage), ptr.ss_family = AF_INET6 ∧
    ptr.address.Reads pton ∧ ptr.address = .ip6 [0, 0, 0x0100ffff, 0x03000200] ∧
      ss_address_unpack ptr = (AF_INET, ['1', ':', '2', ':', '3'], 80) ∧ ¬ Unpacks pton ptr := by
  let knows : inet_pton :=
    { v4 := fun _ => none
      v6 := fun host =>
        if host = [':', ':', 'f', 'f', 'f', 'f', ':', '1', ':', '2', ':', '3'] then
          some (0, 0, 0x0100ffff, 0x03000200)
        else none }
  let ptr : sockaddr_storage := ⟨AF_INET6, 0x5000, 0, (0, 0, 0x0100ffff, 0x03000200)⟩
  have hunpack : ss_address_unpack ptr = (AF_INET, ['1', ':', '2', ':', '3'], 80) := by decide
  have haddress : ptr.address = .ip6 [0, 0, 0x0100ffff, 0x03000200] := by decide
  refine ⟨knows, ptr, rfl, ?_, haddress, hunpack, ?_⟩
  · rw [haddress]
    exact ⟨(0, 0, 0x0100ffff, 0x03000200), by decide, rfl⟩
  · intro h
    have hreported := h.unpacked
    rw [hunpack, haddress] at hreported
    exact absurd (congrArg Prod.fst hreported) (by decide)

end socle.udp
