-- Base64 texts (common/base64.hpp), with `char`s as bytes. The table of characters
-- has no end mark, so the search for odd characters goes on behind it.
import Mathlib.Data.List.Basic

namespace socle.libbase64

/-! ## Characters -/

def char64s : List UInt8 := [
  65, 66, 67, 68, 69, 70, 71, 72, 73, 74, 75, 76, 77, 78, 79, 80, 81, 82, 83, 84, 85, 86, 87, 88, 89, 90,
  97, 98, 99, 100, 101, 102, 103, 104, 105, 106, 107, 108, 109, 110, 111, 112, 113, 114, 115, 116, 117,
  118, 119, 120, 121, 122, 48, 49, 50, 51, 52, 53, 54, 55, 56, 57, 43, 47]

def binaryConvert : List UInt8 := [
  62, 48, 49, 50, 63, 52, 53, 54, 55, 56, 57, 58, 59, 60, 61, 249, 250, 251, 252, 253, 254, 255, 0, 1, 2,
  3, 4, 5, 6, 7, 8, 9, 10, 11, 12, 13, 14, 15, 16, 17, 18, 19, 20, 21, 22, 23, 24, 25, 20, 21, 22, 23,
  24, 25, 26, 27, 28, 29, 30, 31, 32, 33, 34, 35, 36, 37, 38, 39, 40, 41, 42, 43, 44, 45, 46, 47, 48, 49,
  50, 51]

/-- `'='`. -/
def pad : UInt8 := 61

/-- `getChar`, for six bits. -/
def getChar (bin : UInt8) : UInt8 :=
  char64s.getD bin.toNat 0

/-- `toBinary`, with `none` for a place outside of the table. -/
def toBinary (c : UInt8) : Option UInt8 :=
  if c < 43 then none else binaryConvert[c.toNat - 43]?

/-! ## Six bits and eight bits -/

def sextet1 (a : UInt8) : UInt8 := (a &&& 0xFC) >>> 2
def sextet2 (a b : UInt8) : UInt8 := ((a &&& 0x03) <<< 4) + ((b &&& 0xF0) >>> 4)
def sextet3 (b c : UInt8) : UInt8 := ((b &&& 0x0F) <<< 2) + ((c &&& 0xC0) >>> 6)
def sextet4 (c : UInt8) : UInt8 := c &&& 0x3F

def byte1 (first second : UInt8) : UInt8 := (first <<< 2) + ((second &&& 0x30) >>> 4)
def byte2 (second third : UInt8) : UInt8 := ((second &&& 0xF) <<< 4) + ((third &&& 0x3C) >>> 2)
def byte3 (third fourth : UInt8) : UInt8 := ((third &&& 0x3) <<< 6) + fourth

/-! ## Encoding and decoding -/

/-- `encode`. Three bytes give four characters. At the end, what is missing of the three is zero. -/
def encode : List UInt8 → List UInt8
  | a :: b :: c :: rest =>
    getChar (sextet1 a) :: getChar (sextet2 a b) :: getChar (sextet3 b c) :: getChar (sextet4 c) ::
      encode rest
  | [a, b] => [getChar (sextet1 a), getChar (sextet2 a b), getChar (sextet3 b 0), pad]
  | [a] => [getChar (sextet1 a), getChar (sextet2 a 0), pad, pad]
  | [] => []

/-- The checks of `decode` with `SAFETY`. `behind` are the bytes behind the table of characters, up to
the first zero. -/
def check (behind encoded : List UInt8) : Bool :=
  let length := encoded.length
  length % 4 == 0 && length != 0 &&
    -- check to be sure there aren't odd characters or characters in the wrong places
    match encoded.findIdx? fun c => c ∉ char64s ++ behind with
    | none => true
    | some pos =>
      encoded[pos]? == some pad &&
        (pos == length - 1 || pos == length - 2 && encoded[pos + 1]? == some pad)

/-- The characters that might have padding. `none` is a read outside of the text or of a table. -/
def decode_last : List UInt8 → Option (List UInt8)
  | c₁ :: c₂ :: rest => do
    let second ← toBinary c₂
    let first ← toBinary c₁
    match rest with
    | [] => some [byte1 first second]
    | c₃ :: rest =>
      if c₃ = pad then some [byte1 first second]
      else
        let third ← toBinary c₃
        match rest with
        | [] => some [byte1 first second, byte2 second third]
        | c₄ :: _ =>
          if c₄ = pad then some [byte1 first second, byte2 second third]
          else
            let fourth ← toBinary c₄
            some [byte1 first second, byte2 second third, byte3 third fourth]
  | _ => none

/-- The loop over the characters that can not have any padding. Its counter is an `unsigned int`. -/
def decode_from (aligned : UInt64) : UInt32 → List UInt8 → Option (List UInt8)
  | i, c₁ :: c₂ :: c₃ :: c₄ :: rest =>
    if i.toUInt64 < aligned then do
      let second ← toBinary c₂
      let third ← toBinary c₃
      let first ← toBinary c₁
      let fourth ← toBinary c₄
      let result ← decode_from aligned (i + 1) rest
      some (byte1 first second :: byte2 second third :: byte3 third fourth :: result)
    else decode_last (c₁ :: c₂ :: c₃ :: c₄ :: rest)
  | i, runner => if i.toUInt64 < aligned then none else decode_last runner

def decode (safety : Bool) (behind encoded : List UInt8) : Option (List UInt8) :=
  if safety && !check behind encoded then some []
  else decode_from (UInt64.ofNat (encoded.length / 4) - 1) 0 encoded

example : decode true [] (encode [72, 105, 33, 33]) = some [72, 105, 33, 33] := by decide

/-! ## The bits -/

/-- What the masks and shifts of the source take from a byte. -/
theorem masks (x : UInt8) :
    ((x &&& 0xFC) >>> 2).toNat = x.toNat / 4 ∧ ((x &&& 0x03) <<< 4).toNat = x.toNat % 4 * 16 ∧
    ((x &&& 0xF0) >>> 4).toNat = x.toNat / 16 ∧ ((x &&& 0x0F) <<< 2).toNat = x.toNat % 16 * 4 ∧
    ((x &&& 0xC0) >>> 6).toNat = x.toNat / 64 ∧ (x &&& 0x3F).toNat = x.toNat % 64 ∧
    (x <<< 2).toNat = x.toNat % 64 * 4 ∧ ((x &&& 0x30) >>> 4).toNat = x.toNat / 16 % 4 ∧
    ((x &&& 0xF) <<< 4).toNat = x.toNat % 16 * 16 ∧ ((x &&& 0x3C) >>> 2).toNat = x.toNat / 4 % 16 ∧
    ((x &&& 0x3) <<< 6).toNat = x.toNat % 4 * 64 ∧ (x &&& 0x30).toNat = x.toNat / 16 % 4 * 16 ∧
    (x &&& 0x3C).toNat = x.toNat / 4 % 16 * 4 := by
  have hall : ∀ n < 256, let x := UInt8.ofNat n
      ((x &&& 0xFC) >>> 2).toNat = n / 4 ∧ ((x &&& 0x03) <<< 4).toNat = n % 4 * 16 ∧
      ((x &&& 0xF0) >>> 4).toNat = n / 16 ∧ ((x &&& 0x0F) <<< 2).toNat = n % 16 * 4 ∧
      ((x &&& 0xC0) >>> 6).toNat = n / 64 ∧ (x &&& 0x3F).toNat = n % 64 ∧
      (x <<< 2).toNat = n % 64 * 4 ∧ ((x &&& 0x30) >>> 4).toNat = n / 16 % 4 ∧
      ((x &&& 0xF) <<< 4).toNat = n % 16 * 16 ∧ ((x &&& 0x3C) >>> 2).toNat = n / 4 % 16 ∧
      ((x &&& 0x3) <<< 6).toNat = n % 4 * 64 ∧ (x &&& 0x30).toNat = n / 16 % 4 * 16 ∧
      (x &&& 0x3C).toNat = n / 4 % 16 * 4 := by
    decide +kernel
  have hx := hall x.toNat x.toNat_lt
  rwa [UInt8.ofNat_toNat] at hx

section

variable (a b c : UInt8)

theorem sextet1_toNat : (sextet1 a).toNat = a.toNat / 4 := (masks a).1

theorem sextet2_toNat : (sextet2 a b).toNat = a.toNat % 4 * 16 + b.toNat / 16 := by
  have hb := b.toNat_lt
  rw [sextet2, UInt8.toNat_add, (masks a).2.1, (masks b).2.2.1]
  omega

theorem sextet3_toNat : (sextet3 b c).toNat = b.toNat % 16 * 4 + c.toNat / 64 := by
  have hc := c.toNat_lt
  obtain ⟨-, -, -, hlow, -⟩ := masks b
  obtain ⟨-, -, -, -, hhigh, -⟩ := masks c
  rw [sextet3, UInt8.toNat_add, hlow, hhigh]
  omega

theorem sextet4_toNat : (sextet4 c).toNat = c.toNat % 64 := by
  obtain ⟨-, -, -, -, -, hlow, -⟩ := masks c
  exact hlow

theorem byte1_toNat : (byte1 a b).toNat = a.toNat % 64 * 4 + b.toNat / 16 % 4 := by
  obtain ⟨-, -, -, -, -, -, hup, -⟩ := masks a
  obtain ⟨-, -, -, -, -, -, -, hdown, -⟩ := masks b
  rw [byte1, UInt8.toNat_add, hup, hdown]
  omega

theorem byte2_toNat : (byte2 b c).toNat = b.toNat % 16 * 16 + c.toNat / 4 % 16 := by
  obtain ⟨-, -, -, -, -, -, -, -, hup, -⟩ := masks b
  obtain ⟨-, -, -, -, -, -, -, -, -, hdown, -⟩ := masks c
  rw [byte2, UInt8.toNat_add, hup, hdown]
  omega

theorem byte3_toNat (hc : c < 64) : (byte3 b c).toNat = b.toNat % 4 * 64 + c.toNat := by
  have hlt : c.toNat < 64 := UInt8.lt_iff_toNat_lt.mp hc
  obtain ⟨-, -, -, -, -, -, -, -, -, -, hup, -⟩ := masks b
  rw [byte3, UInt8.toNat_add, hup]
  omega

theorem sextet1_lt : sextet1 a < 64 := by
  have ha := a.toNat_lt
  rw [UInt8.lt_iff_toNat_lt, sextet1_toNat]
  exact Nat.div_lt_of_lt_mul ha

theorem sextet2_lt : sextet2 a b < 64 := by
  have hb := b.toNat_lt
  have h64 : (64 : UInt8).toNat = 64 := rfl
  rw [UInt8.lt_iff_toNat_lt, sextet2_toNat, h64]
  omega

theorem sextet3_lt : sextet3 b c < 64 := by
  have hc := c.toNat_lt
  have h64 : (64 : UInt8).toNat = 64 := rfl
  rw [UInt8.lt_iff_toNat_lt, sextet3_toNat, h64]
  omega

theorem sextet4_lt : sextet4 c < 64 := by
  rw [UInt8.lt_iff_toNat_lt, sextet4_toNat]
  exact Nat.mod_lt _ (by decide)

theorem byte1_sextets : byte1 (sextet1 a) (sextet2 a b) = a := by
  have ha := a.toNat_lt
  have hb := b.toNat_lt
  apply UInt8.toNat_inj.mp
  rw [byte1_toNat, sextet1_toNat, sextet2_toNat]
  omega

theorem byte2_sextets : byte2 (sextet2 a b) (sextet3 b c) = b := by
  have hb := b.toNat_lt
  have hc := c.toNat_lt
  apply UInt8.toNat_inj.mp
  rw [byte2_toNat, sextet2_toNat, sextet3_toNat]
  omega

theorem byte3_sextets : byte3 (sextet3 b c) (sextet4 c) = c := by
  have hc := c.toNat_lt
  apply UInt8.toNat_inj.mp
  rw [byte3_toNat _ _ (sextet4_lt c), sextet3_toNat, sextet4_toNat]
  omega

end

/-- Four times six bits make three bytes, which give the six bits again. -/
theorem sextets_bytes {a b c d : UInt8} (ha : a < 64) (hb : b < 64) (hc : c < 64) (hd : d < 64) :
    sextet1 (byte1 a b) = a ∧ sextet2 (byte1 a b) (byte2 b c) = b ∧
      sextet3 (byte2 b c) (byte3 c d) = c ∧ sextet4 (byte3 c d) = d := by
  rw [UInt8.lt_iff_toNat_lt] at ha hb hc
  have hd' := UInt8.lt_iff_toNat_lt.mp hd
  have h64 : (64 : UInt8).toNat = 64 := rfl
  rw [h64] at ha hb hc hd'
  refine ⟨?_, ?_, ?_, ?_⟩ <;> apply UInt8.toNat_inj.mp
  · rw [sextet1_toNat, byte1_toNat]
    omega
  · rw [sextet2_toNat, byte1_toNat, byte2_toNat]
    omega
  · rw [sextet3_toNat, byte2_toNat, byte3_toNat _ _ hd]
    omega
  · rw [sextet4_toNat, byte3_toNat _ _ hd]
    omega

/-- What a last group loses: bits of its last character that no byte has. -/
theorem sextets_short (a b c : UInt8) :
    sextet2 (byte1 a b) 0 = b &&& 0x30 ∧ sextet3 (byte2 b c) 0 = c &&& 0x3C := by
  have h0 : (0 : UInt8).toNat = 0 := rfl
  obtain ⟨-, -, -, -, -, -, -, -, -, -, -, h30, -⟩ := masks b
  obtain ⟨-, -, -, -, -, -, -, -, -, -, -, -, h3C⟩ := masks c
  constructor <;> apply UInt8.toNat_inj.mp
  · rw [sextet2_toNat, byte1_toNat, h30]
    omega
  · rw [sextet3_toNat, byte2_toNat, h3C]
    omega

/-! ## The characters -/

/-- A character of the table. -/
def Coded (c : UInt8) : Prop := c ∈ char64s

/-- A character of the table is `getChar` of what `toBinary` gives for it. -/
theorem coded_binary {c : UInt8} (h : Coded c) :
    ∃ bin, toBinary c = some bin ∧ bin < 64 ∧ getChar bin = c ∧ c ≠ pad := by
  have hall : ∀ c ∈ char64s, ∃ n < 64, toBinary c = some (UInt8.ofNat n) ∧
      getChar (UInt8.ofNat n) = c ∧ c ≠ pad := by
    decide +kernel
  obtain ⟨n, hn, hbin, hchar, hpad⟩ := hall c h
  refine ⟨UInt8.ofNat n, hbin, ?_, hchar, hpad⟩
  rw [UInt8.lt_iff_toNat_lt, UInt8.toNat_ofNat']
  exact Nat.lt_of_le_of_lt (Nat.mod_le n _) hn

theorem getChar_coded {bin : UInt8} (h : bin < 64) :
    Coded (getChar bin) ∧ toBinary (getChar bin) = some bin := by
  have hall : ∀ n < 64, getChar (UInt8.ofNat n) ∈ char64s ∧
      toBinary (getChar (UInt8.ofNat n)) = some (UInt8.ofNat n) := by
    decide +kernel
  have hbin := hall bin.toNat (UInt8.lt_iff_toNat_lt.mp h)
  rwa [UInt8.ofNat_toNat] at hbin

section

variable (a b c : UInt8)

theorem binary1 : toBinary (getChar (sextet1 a)) = some (sextet1 a) :=
  (getChar_coded (sextet1_lt a)).2

theorem binary2 : toBinary (getChar (sextet2 a b)) = some (sextet2 a b) :=
  (getChar_coded (sextet2_lt a b)).2

theorem binary3 : toBinary (getChar (sextet3 b c)) = some (sextet3 b c) ∧
    getChar (sextet3 b c) ≠ pad := by
  obtain ⟨hcoded, hbin⟩ := getChar_coded (sextet3_lt b c)
  obtain ⟨-, -, -, -, hpad⟩ := coded_binary hcoded
  exact ⟨hbin, hpad⟩

theorem binary4 : toBinary (getChar (sextet4 c)) = some (sextet4 c) ∧ getChar (sextet4 c) ≠ pad := by
  obtain ⟨hcoded, hbin⟩ := getChar_coded (sextet4_lt c)
  obtain ⟨-, -, -, -, hpad⟩ := coded_binary hcoded
  exact ⟨hbin, hpad⟩

end

/-! ## Texts that pass -/

/-- Characters of the table, with up to two pads behind them that make four of each group. -/
structure Splits (encoded body pads : List UInt8) : Prop where
  parts : encoded = body ++ pads
  coded : ∀ c ∈ body, Coded c
  pads : pads = [] ∨ pads = [pad] ∨ pads = [pad, pad]
  ne_nil : encoded ≠ []
  groups : encoded.length % 4 = 0

def WellFormed (encoded : List UInt8) : Prop :=
  ∃ body pads, Splits encoded body pads

theorem check_of_wellFormed {encoded : List UInt8} (h : WellFormed encoded) (behind : List UInt8) :
    check behind encoded = true := by
  obtain ⟨body, pads, hs⟩ := h
  have hbody : body.findIdx? (fun c => c ∉ char64s ++ behind) = none := by
    rw [List.findIdx?_eq_none_iff]
    intro c hc
    have hin : c ∈ char64s := hs.coded c hc
    simp [hin]
  have hlen : encoded.length ≠ 0 := fun h0 => hs.ne_nil (List.length_eq_zero_iff.mp h0)
  have hfind : encoded.findIdx? (fun c => c ∉ char64s ++ behind) =
      (pads.findIdx? fun c => c ∉ char64s ++ behind).map (· + body.length) := by
    rw [hs.parts, List.findIdx?_append, hbody, Option.none_or]
  unfold check
  rw [hfind]
  simp only [hs.groups, beq_self_eq_true, Bool.true_and]
  have htable : pad ∉ char64s := by decide
  have hparts := hs.parts
  by_cases hin : pad ∈ behind
  · rcases hs.pads with rfl | rfl | rfl <;> simp [List.findIdx?_cons, hin, hlen]
  · rcases hs.pads with rfl | rfl | rfl
    · simp [hlen]
    · subst hparts
      simp [List.findIdx?_cons, hin, htable]
    · subst hparts
      simp [List.findIdx?_cons, hin, htable]

/-- With an end mark behind the table, nothing else passes. -/
theorem wellFormed_of_check {encoded : List UInt8} (h : check [] encoded = true) :
    WellFormed encoded := by
  unfold check at h
  simp only [List.append_nil, Bool.and_eq_true, beq_iff_eq, bne_iff_ne, ne_eq] at h
  obtain ⟨⟨hgroups, hlen⟩, h⟩ := h
  have hne : encoded ≠ [] := fun h0 => hlen (by rw [h0, List.length_nil])
  cases hfind : encoded.findIdx? (fun c => c ∉ char64s) with
  | none =>
    rw [List.findIdx?_eq_none_iff] at hfind
    refine ⟨encoded, [], by simp, fun c hc => ?_, Or.inl rfl, hne, hgroups⟩
    unfold Coded
    simpa using hfind c hc
  | some pos =>
    rw [hfind] at h
    simp only [Bool.and_eq_true, Bool.or_eq_true, beq_iff_eq] at h
    obtain ⟨hpad, hplace⟩ := h
    obtain ⟨hpos, -, hbefore⟩ := List.findIdx?_eq_some_iff_getElem.mp hfind
    refine ⟨encoded.take pos, encoded.drop pos, (List.take_append_drop pos encoded).symm, ?_, ?_, hne,
      hgroups⟩
    · intro c hc
      obtain ⟨i, hi, rfl⟩ := List.mem_take_iff_getElem.mp hc
      unfold Coded
      simpa using hbefore i (by omega)
    · right
      rw [List.drop_eq_getElem_cons hpos]
      rw [List.getElem?_eq_getElem hpos, Option.some_inj] at hpad
      rw [hpad]
      rcases hplace with hlast | ⟨hlast, hnext⟩
      · left
        rw [List.drop_eq_nil_of_le (by omega)]
      · right
        have hpos' : pos + 1 < encoded.length := by omega
        rw [List.getElem?_eq_getElem hpos', Option.some_inj] at hnext
        rw [List.drop_eq_getElem_cons hpos', hnext, List.drop_eq_nil_of_le (by omega)]

/-! ## The loop -/

/-- The counter is less than the number of groups. -/
theorem lt_aligned (aligned : UInt64) (i : UInt32) :
    i.toUInt64 < aligned ↔ i.toNat < aligned.toNat := by
  rw [UInt64.lt_iff_toNat_lt, UInt32.toNat_toUInt64]

/-- With more groups than an `unsigned int` counts, the loop runs out of the text. -/
theorem decode_from_none {aligned : UInt64} (h : 4294967296 ≤ aligned.toNat) (i : UInt32)
    (runner : List UInt8) : decode_from aligned i runner = none := by
  have hlt : ∀ i : UInt32, i.toUInt64 < aligned := by
    intro i
    rw [lt_aligned]
    exact Nat.lt_of_lt_of_le i.toNat_lt h
  fun_induction decode_from aligned i runner with
  | case1 i c₁ c₂ c₃ c₄ rest _ ih => simp [ih]
  | case2 i c₁ c₂ c₃ c₄ rest hge => exact absurd (hlt i) hge
  | case3 => rfl
  | case4 i runner _ hge => exact absurd (hlt i) hge

/-- The counter after one more group. -/
theorem succ_toNat {i : UInt32} {n : Nat} (h : i.toNat + n < 4294967296) (hn : 0 < n) :
    (i + 1).toNat = i.toNat + 1 := by
  have h1 : (1 : UInt32).toNat = 1 := rfl
  rw [UInt32.toNat_add, h1]
  omega

/-- The loop over an encoded text, from any place of it. -/
theorem decode_from_encode {x : List UInt8} (hx : x ≠ []) {aligned : UInt64} {i : UInt32}
    (hi : aligned.toNat = i.toNat + (x.length - 1) / 3) (h : aligned.toNat < 4294967296) :
    decode_from aligned i (encode x) = some x := by
  fun_induction encode x generalizing i with
  | case1 a b c rest ih =>
    rw [decode_from]
    by_cases hrest : rest = []
    · subst hrest
      have hge : ¬ i.toUInt64 < aligned := by
        rw [lt_aligned, hi]
        simp
      rw [if_neg hge]
      simp [decode_last, binary1, binary2, binary3, binary4, byte1_sextets, byte2_sextets,
        byte3_sextets]
    · have hlen : 0 < rest.length := List.length_pos_iff.mpr hrest
      have hgroups : ((a :: b :: c :: rest).length - 1) / 3 = (rest.length - 1) / 3 + 1 := by
        simp only [List.length_cons]
        omega
      rw [hgroups] at hi
      have hlt : i.toUInt64 < aligned := by
        rw [lt_aligned]
        omega
      have hnext := ih hrest (i := i + 1) (by rw [succ_toNat (n := 1) (by omega) (by omega)]; omega)
      rw [if_pos hlt, hnext]
      simp [binary1, binary2, binary3, binary4, byte1_sextets, byte2_sextets, byte3_sextets]
  | case2 a b =>
    have hge : ¬ i.toUInt64 < aligned := by
      rw [lt_aligned, hi]
      simp
    rw [decode_from, if_neg hge]
    simp [decode_last, binary1, binary2, binary3, byte1_sextets, byte2_sextets]
  | case3 a =>
    have hge : ¬ i.toUInt64 < aligned := by
      rw [lt_aligned, hi]
      simp
    rw [decode_from, if_neg hge]
    simp [decode_last, binary1, binary2, byte1_sextets]
  | case4 => exact absurd rfl hx

/-! ## There and back -/

theorem length_encode (x : List UInt8) : (encode x).length = 4 * ((x.length + 2) / 3) := by
  fun_induction encode x with
  | case1 a b c rest ih =>
    simp only [List.length_cons, ih]
    omega
  | case2 a b => simp
  | case3 a => simp
  | case4 => rfl

theorem wellFormed_encode {x : List UInt8} (hx : x ≠ []) : WellFormed (encode x) := by
  have hcoded1 : ∀ a, Coded (getChar (sextet1 a)) := fun a => (getChar_coded (sextet1_lt a)).1
  have hcoded2 : ∀ a b, Coded (getChar (sextet2 a b)) := fun a b => (getChar_coded (sextet2_lt a b)).1
  have hcoded3 : ∀ b c, Coded (getChar (sextet3 b c)) := fun b c => (getChar_coded (sextet3_lt b c)).1
  have hcoded4 : ∀ c, Coded (getChar (sextet4 c)) := fun c => (getChar_coded (sextet4_lt c)).1
  have hparts : ∃ body pads, encode x = body ++ pads ∧ (∀ c ∈ body, Coded c) ∧
      (pads = [] ∨ pads = [pad] ∨ pads = [pad, pad]) := by
    clear hx
    fun_induction encode x with
    | case1 a b c rest ih =>
      obtain ⟨body, pads, heq, hbody, hpads⟩ := ih
      refine ⟨getChar (sextet1 a) :: getChar (sextet2 a b) :: getChar (sextet3 b c) ::
        getChar (sextet4 c) :: body, pads, by simp [heq], ?_, hpads⟩
      simp only [List.forall_mem_cons]
      exact ⟨hcoded1 a, hcoded2 a b, hcoded3 b c, hcoded4 c, hbody⟩
    | case2 a b =>
      refine ⟨[getChar (sextet1 a), getChar (sextet2 a b), getChar (sextet3 b 0)], [pad], rfl, ?_,
        Or.inr (Or.inl rfl)⟩
      simp [hcoded1, hcoded2, hcoded3]
    | case3 a =>
      refine ⟨[getChar (sextet1 a), getChar (sextet2 a 0)], [pad, pad], rfl, ?_, Or.inr (Or.inr rfl)⟩
      simp [hcoded1, hcoded2]
    | case4 => exact ⟨[], [], rfl, by simp, Or.inl rfl⟩
  have hlen := List.length_pos_iff.mpr hx
  obtain ⟨body, pads, heq, hbody, hpads⟩ := hparts
  refine ⟨body, pads, heq, hbody, hpads, ?_, ?_⟩
  · apply List.ne_nil_of_length_pos
    rw [length_encode]
    omega
  · rw [length_encode]
    exact Nat.mul_mod_right 4 _

theorem aligned_toNat {n : Nat} (hn : 0 < n) (h : n < 18446744073709551616) :
    (UInt64.ofNat n - 1).toNat = n - 1 := by
  have h1 : (1 : UInt64).toNat = 1 := rfl
  rw [UInt64.toNat_sub, UInt64.toNat_ofNat', h1]
  omega

/-- What is encoded is decoded again, whatever stands behind the table of characters, up to 12 GiB.
More than that is never decoded. -/
theorem decode_encode (behind : List UInt8) {x : List UInt8}
    (h : (encode x).length < 18446744073709551616) :
    decode true behind (encode x) = some x ↔ x.length ≤ 12884901888 := by
  by_cases hx : x = []
  · subst hx
    simp [decode, encode, check]
  have hpos := List.length_pos_iff.mpr hx
  have hgroups : (encode x).length / 4 = (x.length + 2) / 3 := by
    rw [length_encode, Nat.mul_div_cancel_left _ (by decide)]
  have haligned : (UInt64.ofNat ((encode x).length / 4) - 1).toNat = (x.length - 1) / 3 := by
    rw [aligned_toNat (by omega) (by omega), hgroups]
    omega
  unfold decode
  rw [check_of_wellFormed (wellFormed_encode hx), Bool.not_true, Bool.and_false,
    if_neg Bool.false_ne_true]
  constructor
  · intro hdecoded
    by_contra hlong
    rw [decode_from_none (by omega)] at hdecoded
    cases hdecoded
  · intro hshort
    apply decode_from_encode hx
    · rw [haligned]
      simp
    · omega

theorem decode_encode_witness : decode true [1, 61] (encode [0, 255]) = some [0, 255] :=
  (decode_encode [1, 61] (x := [0, 255]) (by decide)).mpr (by decide)

/-! ## What passes, and what it means -/

/-- A character with some of its bits cleared. -/
def clear (kept c : UInt8) : UInt8 :=
  getChar ((toBinary c).getD 0 &&& kept)

/-- The text that has no bits which no byte needs. -/
def canonical : List UInt8 → List UInt8
  | [c₁, c₂, c₃, c₄] =>
    if c₃ = pad then [c₁, clear 0x30 c₂, c₃, c₄]
    else if c₄ = pad then [c₁, c₂, clear 0x3C c₃, c₄]
    else [c₁, c₂, c₃, c₄]
  | c₁ :: c₂ :: c₃ :: c₄ :: rest => c₁ :: c₂ :: c₃ :: c₄ :: canonical rest
  | encoded => encoded

/-- The last group: two characters of the table, and two more, or pads. -/
theorem last_group {c₁ c₂ c₃ c₄ : UInt8} (h : WellFormed [c₁, c₂, c₃, c₄]) :
    Coded c₁ ∧ Coded c₂ ∧ (c₃ = pad ∧ c₄ = pad ∨ Coded c₃ ∧ (c₄ = pad ∨ Coded c₄)) := by
  obtain ⟨body, pads, hs⟩ := h
  have hparts := hs.parts
  have hbody := hs.coded
  rcases hs.pads with rfl | rfl | rfl
  · rw [List.append_nil] at hparts
    subst hparts
    simp only [List.forall_mem_cons] at hbody
    obtain ⟨h1, h2, h3, h4, -⟩ := hbody
    exact ⟨h1, h2, Or.inr ⟨h3, Or.inr h4⟩⟩
  · have hbody3 : [c₁, c₂, c₃] = body ∧ [c₄] = [pad] := List.append_inj' hparts rfl
    obtain ⟨rfl, h4⟩ := hbody3
    simp only [List.forall_mem_cons] at hbody
    obtain ⟨h1, h2, h3, -⟩ := hbody
    exact ⟨h1, h2, Or.inr ⟨h3, Or.inl (List.cons.inj h4).1⟩⟩
  · have hbody2 : [c₁, c₂] = body ∧ [c₃, c₄] = [pad, pad] := List.append_inj' hparts rfl
    obtain ⟨rfl, h34⟩ := hbody2
    simp only [List.forall_mem_cons] at hbody
    obtain ⟨h1, h2, -⟩ := hbody
    simp only [List.cons.injEq, and_true] at h34
    exact ⟨h1, h2, Or.inl h34⟩

/-- The other groups have no pads. -/
theorem first_group {c₁ c₂ c₃ c₄ : UInt8} {rest : List UInt8} (hrest : rest ≠ [])
    (h : WellFormed (c₁ :: c₂ :: c₃ :: c₄ :: rest)) :
    (Coded c₁ ∧ Coded c₂ ∧ Coded c₃ ∧ Coded c₄) ∧ WellFormed rest := by
  obtain ⟨body, pads, hs⟩ := h
  have hgroups := hs.groups
  have hlen := List.length_pos_iff.mpr hrest
  simp only [List.length_cons] at hgroups
  have hpads : pads.length ≤ 2 := by
    rcases hs.pads with rfl | rfl | rfl <;> simp
  have hbody : 4 ≤ body.length := by
    have hall := congrArg List.length hs.parts
    simp only [List.length_cons, List.length_append] at hall
    omega
  obtain ⟨b₁, b₂, b₃, b₄, body, rfl⟩ : ∃ b₁ b₂ b₃ b₄ body', body = b₁ :: b₂ :: b₃ :: b₄ :: body' := by
    match body, hbody with
    | b₁ :: b₂ :: b₃ :: b₄ :: body', _ => exact ⟨b₁, b₂, b₃, b₄, body', rfl⟩
  have hparts := hs.parts
  simp only [List.cons_append, List.cons.injEq] at hparts
  obtain ⟨rfl, rfl, rfl, rfl, hparts⟩ := hparts
  have hcoded := hs.coded
  simp only [List.forall_mem_cons] at hcoded
  obtain ⟨h1, h2, h3, h4, hcoded⟩ := hcoded
  exact ⟨⟨h1, h2, h3, h4⟩, body, pads, hparts, hcoded, hs.pads, hrest, by omega⟩

theorem decode_from_wellFormed {s : List UInt8} (hs : WellFormed s) {aligned : UInt64} {i : UInt32}
    (hi : aligned.toNat = i.toNat + (s.length / 4 - 1)) (h : aligned.toNat < 4294967296) :
    ∃ d, decode_from aligned i s = some d ∧ d ≠ [] ∧ encode d = canonical s := by
  fun_induction canonical s generalizing i with
  | case1 c₁ c₂ c₄ =>
    obtain ⟨h1, h2, h3⟩ := last_group hs
    obtain ⟨b₁, hb₁, hlt₁, hchar₁, -⟩ := coded_binary h1
    obtain ⟨b₂, hb₂, hlt₂, hchar₂, -⟩ := coded_binary h2
    have hge : ¬ i.toUInt64 < aligned := by
      rw [lt_aligned, hi]
      simp
    refine ⟨[byte1 b₁ b₂], ?_, by simp, ?_⟩
    · rw [decode_from, if_neg hge]
      simp [decode_last, hb₁, hb₂]
    · have h4 : c₄ = pad := by
        rcases h3 with ⟨-, h4⟩ | ⟨h3, -⟩
        · exact h4
        · exact absurd h3 (show pad ∉ char64s by decide)
      rw [encode, (sextets_bytes hlt₁ hlt₂ hlt₂ hlt₂).1, (sextets_short b₁ b₂ b₂).1, clear, hb₂, hchar₁,
        h4]
      rfl
  | case2 c₁ c₂ c₃ hc₃ =>
    obtain ⟨h1, h2, h3⟩ := last_group hs
    obtain ⟨b₁, hb₁, hlt₁, hchar₁, -⟩ := coded_binary h1
    obtain ⟨b₂, hb₂, hlt₂, hchar₂, -⟩ := coded_binary h2
    obtain ⟨b₃, hb₃, hlt₃, hchar₃, -⟩ := coded_binary (h3.resolve_left fun hp => hc₃ hp.1).1
    have hge : ¬ i.toUInt64 < aligned := by
      rw [lt_aligned, hi]
      simp
    refine ⟨[byte1 b₁ b₂, byte2 b₂ b₃], ?_, by simp, ?_⟩
    · rw [decode_from, if_neg hge]
      simp [decode_last, hb₁, hb₂, hb₃, hc₃]
    · obtain ⟨hs₁, hs₂, -⟩ := sextets_bytes hlt₁ hlt₂ hlt₃ hlt₃
      rw [encode, hs₁, hs₂, (sextets_short b₁ b₂ b₃).2, clear, hb₃, hchar₁, hchar₂]
      rfl
  | case3 c₁ c₂ c₃ c₄ hc₃ hc₄ =>
    obtain ⟨h1, h2, h3⟩ := last_group hs
    obtain ⟨h3, h4⟩ := h3.resolve_left fun hp => hc₃ hp.1
    obtain ⟨b₁, hb₁, hlt₁, hchar₁, -⟩ := coded_binary h1
    obtain ⟨b₂, hb₂, hlt₂, hchar₂, -⟩ := coded_binary h2
    obtain ⟨b₃, hb₃, hlt₃, hchar₃, -⟩ := coded_binary h3
    obtain ⟨b₄, hb₄, hlt₄, hchar₄, -⟩ := coded_binary (h4.resolve_left hc₄)
    have hge : ¬ i.toUInt64 < aligned := by
      rw [lt_aligned, hi]
      simp
    refine ⟨[byte1 b₁ b₂, byte2 b₂ b₃, byte3 b₃ b₄], ?_, by simp, ?_⟩
    · rw [decode_from, if_neg hge]
      simp [decode_last, hb₁, hb₂, hb₃, hb₄, hc₃, hc₄]
    · obtain ⟨hs₁, hs₂, hs₃, hs₄⟩ := sextets_bytes hlt₁ hlt₂ hlt₃ hlt₄
      rw [encode, hs₁, hs₂, hs₃, hs₄, hchar₁, hchar₂, hchar₃, hchar₄]
      rfl
  | case4 c₁ c₂ c₃ c₄ rest hrest ih =>
    obtain ⟨⟨h1, h2, h3, h4⟩, htail⟩ := first_group hrest hs
    obtain ⟨b₁, hb₁, hlt₁, hchar₁, -⟩ := coded_binary h1
    obtain ⟨b₂, hb₂, hlt₂, hchar₂, -⟩ := coded_binary h2
    obtain ⟨b₃, hb₃, hlt₃, hchar₃, -⟩ := coded_binary h3
    obtain ⟨b₄, hb₄, hlt₄, hchar₄, -⟩ := coded_binary h4
    have hgroups : 4 ≤ rest.length := by
      obtain ⟨body, pads, hsplits⟩ := htail
      have hpos := List.length_pos_iff.mpr hrest
      have hmod := hsplits.groups
      omega
    simp only [List.length_cons] at hi
    have hlt : i.toUInt64 < aligned := by
      rw [lt_aligned]
      omega
    obtain ⟨d, hd, -, henc⟩ := ih htail (i := i + 1) (by
      rw [succ_toNat (n := 1) (by omega) (by omega)]
      omega)
    obtain ⟨hs₁, hs₂, hs₃, hs₄⟩ := sextets_bytes hlt₁ hlt₂ hlt₃ hlt₄
    refine ⟨byte1 b₁ b₂ :: byte2 b₂ b₃ :: byte3 b₃ b₄ :: d, ?_, by simp, ?_⟩
    · rw [decode_from, if_pos hlt, hb₁, hb₂, hb₃, hb₄, hd]
      rfl
    · rw [encode, hs₁, hs₂, hs₃, hs₄, hchar₁, hchar₂, hchar₃, hchar₄, henc]
  | case5 s _ hfew =>
    obtain ⟨body, pads, hsplits⟩ := hs
    match s, hsplits.ne_nil, hsplits.groups with
    | [], hne, _ => exact absurd rfl hne
    | [_], _, hmod => simp at hmod
    | [_, _], _, hmod => simp at hmod
    | [_, _, _], _, hmod => simp at hmod
    | c₁ :: c₂ :: c₃ :: c₄ :: rest, _, _ => exact absurd rfl (hfew c₁ c₂ c₃ c₄ rest)

/-- With an end mark behind the table, a text of up to 16 GiB is never read past, nor is a table. What
is not well formed gives nothing. What is well formed gives the bytes whose text it is, apart from
bits that no byte needs. -/
theorem decode_is_exact {s : List UInt8} (h : s.length ≤ 17179869184) :
    ∃ d, decode true [] s = some d ∧ (d = [] ↔ ¬ WellFormed s) ∧
      (WellFormed s → encode d = canonical s) := by
  by_cases hs : WellFormed s
  · obtain ⟨body, pads, hsplits⟩ := hs
    have hmod := hsplits.groups
    have hpos := List.length_pos_iff.mpr hsplits.ne_nil
    have haligned := aligned_toNat (n := s.length / 4) (by omega) (by omega)
    obtain ⟨d, hd, hne, henc⟩ := decode_from_wellFormed ⟨body, pads, hsplits⟩ (i := 0)
      (by rw [haligned]; simp) (by omega)
    refine ⟨d, ?_, ?_, fun _ => henc⟩
    · unfold decode
      rw [check_of_wellFormed ⟨body, pads, hsplits⟩, Bool.not_true, Bool.and_false,
        if_neg Bool.false_ne_true]
      exact hd
    · exact ⟨fun h0 => absurd h0 hne, fun hn => absurd ⟨body, pads, hsplits⟩ hn⟩
  · have hcheck : check [] s = false := by
      rw [← Bool.not_eq_true]
      exact fun hc => hs (wellFormed_of_check hc)
    refine ⟨[], ?_, by simp [hs], fun hw => absurd hw hs⟩
    simp [decode, hcheck]

theorem decode_is_exact_witness : ∃ d, decode true [] [65, 66, 61, 61] = some d ∧
    (d = [] ↔ ¬ WellFormed [65, 66, 61, 61]) ∧
      (WellFormed [65, 66, 61, 61] → encode d = [65, 65, 61, 61]) :=
  decode_is_exact (s := [65, 66, 61, 61]) (by decide)

end socle.libbase64
