import Codex.Text.Str

/-!
# UTF-8 and UTF-16

`str::as_bytes` and `encode_utf16`, and the decoders that put U+FFFD in the place
of what is ill-formed (`String::from_utf8_lossy`, `String::from_utf16_lossy`). Bytes
and code units are numbers. A text comes back from its bytes and from its units.
-/

namespace Codex.Text

def replacementChar : Char := Char.ofNat 0xFFFD

/-! ## UTF-16 -/

def utf16Units (c : Char) : List ℕ :=
  if c.toNat < 0x10000 then [c.toNat]
  else [0xD800 + (c.toNat - 0x10000) / 0x400, 0xDC00 + (c.toNat - 0x10000) % 0x400]

/-- `str::encode_utf16`. -/
def encodeUtf16 (s : Str) : List ℕ := s.flatMap utf16Units

def isHighSurrogate (unit : ℕ) : Bool := 0xD800 ≤ unit && unit ≤ 0xDBFF

def isLowSurrogate (unit : ℕ) : Bool := 0xDC00 ≤ unit && unit ≤ 0xDFFF

/-- `String::from_utf16_lossy`. -/
def fromUtf16Lossy : List ℕ → Str
  | [] => []
  | [unit] =>
    [if isHighSurrogate unit || isLowSurrogate unit then replacementChar else Char.ofNat unit]
  | unit :: next :: units =>
    if isHighSurrogate unit then
      if isLowSurrogate next then
        Char.ofNat (0x10000 + (unit - 0xD800) * 0x400 + (next - 0xDC00)) :: fromUtf16Lossy units
      else replacementChar :: fromUtf16Lossy (next :: units)
    else if isLowSurrogate unit then replacementChar :: fromUtf16Lossy (next :: units)
    else Char.ofNat unit :: fromUtf16Lossy (next :: units)

theorem toNat_valid (c : Char) : c.toNat < 0xD800 ∨ 0xDFFF < c.toNat ∧ c.toNat < 0x110000 := c.valid

theorem fromUtf16Lossy_cons (c : Char) (units : List ℕ) :
    fromUtf16Lossy (utf16Units c ++ units) = c :: fromUtf16Lossy units := by
  have hvalid := toNat_valid c
  unfold utf16Units
  split
  · next hsmall =>
    have hhigh : isHighSurrogate c.toNat = false := by
      simp only [isHighSurrogate, Bool.and_eq_false_iff, decide_eq_false_iff_not]
      omega
    have hlow : isLowSurrogate c.toNat = false := by
      simp only [isLowSurrogate, Bool.and_eq_false_iff, decide_eq_false_iff_not]
      omega
    cases units with
    | nil | cons next units => simp [fromUtf16Lossy, hhigh, hlow]
  · next hlarge =>
    have hhigh : isHighSurrogate (0xD800 + (c.toNat - 0x10000) / 0x400) = true := by
      simp only [isHighSurrogate, Bool.and_eq_true, decide_eq_true_eq]
      omega
    have hlow : isLowSurrogate (0xDC00 + (c.toNat - 0x10000) % 0x400) = true := by
      simp only [isLowSurrogate, Bool.and_eq_true, decide_eq_true_eq]
      omega
    have hpoint : 0x10000 + (0xD800 + (c.toNat - 0x10000) / 0x400 - 0xD800) * 0x400 +
        (0xDC00 + (c.toNat - 0x10000) % 0x400 - 0xDC00) = c.toNat := by omega
    simp only [List.cons_append, List.nil_append, fromUtf16Lossy, hhigh, hlow, if_true, hpoint,
      Char.ofNat_toNat]

/-- A text comes back from its units. -/
theorem fromUtf16Lossy_encodeUtf16 (s : Str) : fromUtf16Lossy (encodeUtf16 s) = s := by
  induction s with
  | nil => rfl
  | cons c s ih =>
    unfold encodeUtf16 at ih ⊢
    rw [List.flatMap_cons, fromUtf16Lossy_cons, ih]

/-! ## UTF-8 -/

def utf8Bytes (c : Char) : List ℕ :=
  let n := c.toNat
  if n < 0x80 then [n]
  else if n < 0x800 then [0xC0 + n / 0x40, 0x80 + n % 0x40]
  else if n < 0x10000 then [0xE0 + n / 0x1000, 0x80 + n / 0x40 % 0x40, 0x80 + n % 0x40]
  else
    [0xF0 + n / 0x40000, 0x80 + n / 0x1000 % 0x40, 0x80 + n / 0x40 % 0x40, 0x80 + n % 0x40]

/-- `str::as_bytes`. -/
def asBytes (s : Str) : List ℕ := s.flatMap utf8Bytes

theorem asBytes_cons (c : Char) (s : Str) : asBytes (c :: s) = utf8Bytes c ++ asBytes s :=
  List.flatMap_cons

theorem asBytes_append (s t : Str) : asBytes (s ++ t) = asBytes s ++ asBytes t :=
  List.flatMap_append

/-- A sequence of which `needed` more bytes are to come, the next one between `lower` and `upper`. -/
structure Utf8Sequence where
  needed : ℕ
  codePoint : ℕ
  lower : ℕ := 0x80
  upper : ℕ := 0xBF
  deriving DecidableEq

/-- What a byte at the start of a sequence gives: a character, or a sequence to go on with. -/
def utf8Lead (byte : ℕ) : Option Char × Option Utf8Sequence :=
  if byte < 0x80 then (some (Char.ofNat byte), none)
  else if 0xC2 ≤ byte && byte ≤ 0xDF then (none, some ⟨1, byte - 0xC0, 0x80, 0xBF⟩)
  else if byte = 0xE0 then (none, some ⟨2, 0, 0xA0, 0xBF⟩)
  else if byte = 0xED then (none, some ⟨2, 0xD, 0x80, 0x9F⟩)
  else if 0xE1 ≤ byte && byte ≤ 0xEF then (none, some ⟨2, byte - 0xE0, 0x80, 0xBF⟩)
  else if byte = 0xF0 then (none, some ⟨3, 0, 0x90, 0xBF⟩)
  else if byte = 0xF4 then (none, some ⟨3, 4, 0x80, 0x8F⟩)
  else if 0xF1 ≤ byte && byte ≤ 0xF3 then (none, some ⟨3, byte - 0xF0, 0x80, 0xBF⟩)
  else (some replacementChar, none)

/-- A sequence that breaks off is replaced as a whole, and the byte that broke it starts anew. -/
def utf8Decode : Option Utf8Sequence → List ℕ → Str
  | none, [] => []
  | some _, [] => [replacementChar]
  | none, byte :: bytes =>
    let (c, sequence) := utf8Lead byte
    c.toList ++ utf8Decode sequence bytes
  | some sequence, byte :: bytes =>
    if sequence.lower ≤ byte && byte ≤ sequence.upper then
      let codePoint := sequence.codePoint * 0x40 + (byte - 0x80)
      if sequence.needed ≤ 1 then Char.ofNat codePoint :: utf8Decode none bytes
      else utf8Decode (some ⟨sequence.needed - 1, codePoint, 0x80, 0xBF⟩) bytes
    else
      let (c, sequence) := utf8Lead byte
      replacementChar :: (c.toList ++ utf8Decode sequence bytes)

/-- `String::from_utf8_lossy`. -/
def fromUtf8Lossy (bytes : List ℕ) : Str := utf8Decode none bytes

/-- `Utf8Tail sequence bytes c`: the bytes end the sequence, as `c`. -/
inductive Utf8Tail : Utf8Sequence → List ℕ → Char → Prop
  | last {sequence : Utf8Sequence} {byte : ℕ} (hneeded : sequence.needed = 1)
      (hbyte : sequence.lower ≤ byte ∧ byte ≤ sequence.upper) :
      Utf8Tail sequence [byte] (Char.ofNat (sequence.codePoint * 0x40 + (byte - 0x80)))
  | more {sequence : Utf8Sequence} {byte : ℕ} {bytes : List ℕ} {c : Char}
      (hneeded : 1 < sequence.needed) (hbyte : sequence.lower ≤ byte ∧ byte ≤ sequence.upper)
      (tail : Utf8Tail ⟨sequence.needed - 1, sequence.codePoint * 0x40 + (byte - 0x80), 0x80, 0xBF⟩
        bytes c) :
      Utf8Tail sequence (byte :: bytes) c

theorem Utf8Tail.last_eq {sequence : Utf8Sequence} {byte : ℕ} {c : Char}
    (hneeded : sequence.needed = 1) (hbyte : sequence.lower ≤ byte ∧ byte ≤ sequence.upper)
    (hc : sequence.codePoint * 0x40 + (byte - 0x80) = c.toNat) : Utf8Tail sequence [byte] c := by
  have h := Utf8Tail.last hneeded hbyte
  rwa [hc, Char.ofNat_toNat] at h

/-- The bytes of a character: one, or a lead and what it asks for. -/
theorem utf8Bytes_cases (c : Char) :
    c.toNat < 0x80 ∧ utf8Bytes c = [c.toNat] ∨
    ∃ lead sequence bytes, utf8Bytes c = lead :: bytes ∧
      utf8Lead lead = (none, some sequence) ∧ Utf8Tail sequence bytes c := by
  have hvalid := toNat_valid c
  unfold utf8Bytes
  dsimp only
  split
  · next hone => exact Or.inl ⟨hone, rfl⟩
  split
  · next hone htwo =>
    have hlead : utf8Lead (0xC0 + c.toNat / 0x40) = (none, some ⟨1, c.toNat / 0x40, 0x80, 0xBF⟩) := by
      unfold utf8Lead
      rw [if_neg (by omega), if_pos (by simp; omega), Nat.add_sub_cancel_left]
    refine Or.inr ⟨_, _, _, rfl, hlead, Utf8Tail.last_eq rfl ⟨?_, ?_⟩ ?_⟩ <;> dsimp only <;> omega
  split
  · next hone htwo hthree =>
    obtain ⟨lower, upper, hlead, hnext⟩ : ∃ lower upper,
        utf8Lead (0xE0 + c.toNat / 0x1000) = (none, some ⟨2, c.toNat / 0x1000, lower, upper⟩) ∧
        lower ≤ 0x80 + c.toNat / 0x40 % 0x40 ∧ 0x80 + c.toNat / 0x40 % 0x40 ≤ upper := by
      unfold utf8Lead
      rw [if_neg (by omega), if_neg (by simp; omega)]
      by_cases hzero : 0xE0 + c.toNat / 0x1000 = 0xE0
      · rw [if_pos hzero]
        exact ⟨0xA0, 0xBF, by simp; omega, by omega, by omega⟩
      rw [if_neg hzero]
      by_cases hthirteen : 0xE0 + c.toNat / 0x1000 = 0xED
      · rw [if_pos hthirteen]
        exact ⟨0x80, 0x9F, by simp; omega, by omega, by omega⟩
      · refine ⟨0x80, 0xBF, ?_, by omega, by omega⟩
        rw [if_neg hthirteen, if_pos (by simp; omega), Nat.add_sub_cancel_left]
    refine Or.inr ⟨_, _, _, rfl, hlead, Utf8Tail.more (Nat.lt_succ_self 1) hnext ?_⟩
    refine Utf8Tail.last_eq rfl ⟨?_, ?_⟩ ?_ <;> dsimp only <;> omega
  · next hone htwo hthree =>
    obtain ⟨lower, upper, hlead, hnext⟩ : ∃ lower upper,
        utf8Lead (0xF0 + c.toNat / 0x40000) = (none, some ⟨3, c.toNat / 0x40000, lower, upper⟩) ∧
        lower ≤ 0x80 + c.toNat / 0x1000 % 0x40 ∧ 0x80 + c.toNat / 0x1000 % 0x40 ≤ upper := by
      unfold utf8Lead
      rw [if_neg (by omega), if_neg (by simp; omega), if_neg (by omega), if_neg (by omega),
        if_neg (by simp; omega)]
      by_cases hzero : 0xF0 + c.toNat / 0x40000 = 0xF0
      · rw [if_pos hzero]
        exact ⟨0x90, 0xBF, by simp; omega, by omega, by omega⟩
      rw [if_neg hzero]
      by_cases hfour : 0xF0 + c.toNat / 0x40000 = 0xF4
      · rw [if_pos hfour]
        exact ⟨0x80, 0x8F, by simp; omega, by omega, by omega⟩
      · refine ⟨0x80, 0xBF, ?_, by omega, by omega⟩
        rw [if_neg hfour, if_pos (by simp; omega), Nat.add_sub_cancel_left]
    refine Or.inr ⟨_, _, _, rfl, hlead, Utf8Tail.more (Nat.one_lt_succ_succ 1) hnext ?_⟩
    refine Utf8Tail.more (Nat.lt_succ_self 1) ⟨?_, ?_⟩ ?_
    · dsimp only
      omega
    · dsimp only
      omega
    refine Utf8Tail.last_eq rfl ⟨?_, ?_⟩ ?_ <;> dsimp only <;> omega

theorem utf8Decode_tail {sequence : Utf8Sequence} {tail : List ℕ} {c : Char}
    (h : Utf8Tail sequence tail c) (bytes : List ℕ) :
    utf8Decode (some sequence) (tail ++ bytes) = c :: utf8Decode none bytes := by
  induction h with
  | last hneeded hbyte =>
    simp only [List.cons_append, List.nil_append, utf8Decode, hbyte, decide_true, Bool.and_self,
      if_true, hneeded, le_refl]
  | more hneeded hbyte _ ih =>
    simp only [List.cons_append, utf8Decode, hbyte, decide_true, Bool.and_self, if_true,
      Nat.not_le.2 hneeded, if_false, ih]

theorem utf8Decode_cons (c : Char) (bytes : List ℕ) :
    utf8Decode none (utf8Bytes c ++ bytes) = c :: utf8Decode none bytes := by
  rcases utf8Bytes_cases c with ⟨hone, hbytes⟩ | ⟨lead, sequence, tail, hbytes, hlead, htail⟩
  · rw [hbytes]
    simp [utf8Decode, utf8Lead, hone]
  · rw [hbytes, List.cons_append, utf8Decode, hlead]
    exact utf8Decode_tail htail bytes

/-- A text comes back from its bytes. -/
theorem fromUtf8Lossy_asBytes (s : Str) : fromUtf8Lossy (asBytes s) = s := by
  induction s with
  | nil => rfl
  | cons c s ih =>
    unfold fromUtf8Lossy asBytes at ih ⊢
    rw [List.flatMap_cons, utf8Decode_cons, ih]

/-- What a lead of two, three or four bytes asks for. -/
theorem utf8Lead_cases {lead : ℕ} {sequence : Utf8Sequence}
    (h : (utf8Lead lead).2 = some sequence) :
    0x80 ≤ sequence.lower ∧ sequence.upper ≤ 0xBF ∧
    (sequence.needed = 1 ∧ 0xC2 ≤ lead ∧ lead ≤ 0xDF ∧ sequence.codePoint = lead - 0xC0 ∨
     sequence.needed = 2 ∧ 0xE0 ≤ lead ∧ lead ≤ 0xEF ∧ sequence.codePoint = lead - 0xE0 ∧
      (lead = 0xE0 → sequence.lower = 0xA0) ∧ (lead = 0xED → sequence.upper = 0x9F) ∨
     sequence.needed = 3 ∧ 0xF0 ≤ lead ∧ lead ≤ 0xF4 ∧ sequence.codePoint = lead - 0xF0 ∧
      (lead = 0xF0 → sequence.lower = 0x90) ∧ (lead = 0xF4 → sequence.upper = 0x8F)) := by
  have hbounds : ∀ {low high : ℕ}, (low ≤ lead && lead ≤ high) = true → low ≤ lead ∧ lead ≤ high :=
    fun hle => by simpa only [Bool.and_eq_true, decide_eq_true_eq] using hle
  unfold utf8Lead at h
  by_cases hone : lead < 0x80
  · rw [if_pos hone] at h
    cases h
  rw [if_neg hone] at h
  by_cases htwo : (0xC2 ≤ lead && lead ≤ 0xDF) = true
  · rw [if_pos htwo] at h
    have hle := hbounds htwo
    cases h
    dsimp only
    omega
  rw [if_neg htwo] at h
  by_cases hzero : lead = 0xE0
  · rw [if_pos hzero] at h
    cases h
    dsimp only
    omega
  rw [if_neg hzero] at h
  by_cases hsurrogate : lead = 0xED
  · rw [if_pos hsurrogate] at h
    cases h
    dsimp only
    omega
  rw [if_neg hsurrogate] at h
  by_cases hthree : (0xE1 ≤ lead && lead ≤ 0xEF) = true
  · rw [if_pos hthree] at h
    have hle := hbounds hthree
    cases h
    dsimp only
    omega
  rw [if_neg hthree] at h
  by_cases hfirst : lead = 0xF0
  · rw [if_pos hfirst] at h
    cases h
    dsimp only
    omega
  rw [if_neg hfirst] at h
  by_cases hlast : lead = 0xF4
  · rw [if_pos hlast] at h
    cases h
    dsimp only
    omega
  rw [if_neg hlast] at h
  by_cases hfour : (0xF1 ≤ lead && lead ≤ 0xF3) = true
  · rw [if_pos hfour] at h
    have hle := hbounds hfour
    cases h
    dsimp only
    omega
  · rw [if_neg hfour] at h
    cases h

/-- A zero byte is a character of its own wherever it stands, well-formed or not. -/
theorem nul_mem_utf8Decode {bytes : List ℕ} (h : 0 ∈ bytes) (sequence : Option Utf8Sequence)
    (hlower : ∀ s ∈ sequence, 0 < s.lower) : Char.ofNat 0 ∈ utf8Decode sequence bytes := by
  induction bytes generalizing sequence with
  | nil => cases h
  | cons byte bytes ih =>
    have hlead : ∀ s ∈ (utf8Lead byte).2, 0 < s.lower := fun s hs => by
      have hbound := (utf8Lead_cases hs).1
      omega
    have hstart : Char.ofNat 0 ∈ (utf8Lead byte).1.toList ++ utf8Decode (utf8Lead byte).2 bytes := by
      rcases List.mem_cons.1 h with rfl | h
      · exact List.mem_append_left _ (List.mem_singleton_self _)
      · exact List.mem_append_right _ (ih h _ hlead)
    cases sequence with
    | none => exact hstart
    | some sequence =>
      simp only [utf8Decode]
      split
      · next hbyte =>
        have hpos := hlower _ rfl
        simp only [Bool.and_eq_true, decide_eq_true_eq] at hbyte
        have h := (List.mem_cons.1 h).resolve_left (by omega)
        split
        · exact List.mem_cons_of_mem _ (ih h _ nofun)
        · exact ih h _ (by simp)
      · exact List.mem_cons_of_mem _ hstart

/-! ## Lengths -/

/-- `str::len`. -/
def utf8Len (s : Str) : ℕ := (s.map Char.utf8Size).sum

theorem utf8Len_append (s t : Str) : utf8Len (s ++ t) = utf8Len s + utf8Len t := by
  simp [utf8Len]

theorem utf8Len_of_ascii {s : Str} (h : ∀ c ∈ s, c.utf8Size = 1) : utf8Len s = s.length := by
  induction s with
  | nil => rfl
  | cons c s ih =>
    rw [List.forall_mem_cons] at h
    have hrest := ih h.2
    unfold utf8Len at hrest ⊢
    rw [List.map_cons, List.sum_cons, hrest, h.1, List.length_cons, Nat.add_comm]

end Codex.Text
