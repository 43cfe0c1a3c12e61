import Codex.Text.Utf

/-!
# Percent-encoding

`utf8_percent_encode` over a set of ASCII bytes, and `urlencoding::decode_binary`,
which lets every `%` through that two hexadecimal digits do not follow. A text
comes back from its encoding when `%` itself is in the set.
-/

namespace Codex.Text

open List

def percent : ℕ := 0x25

def fromHexDigit (byte : ℕ) : Option ℕ :=
  if 0x30 ≤ byte && byte ≤ 0x39 then some (byte - 0x30)
  else if 0x41 ≤ byte && byte ≤ 0x46 then some (byte - 0x41 + 10)
  else if 0x61 ≤ byte && byte ≤ 0x66 then some (byte - 0x61 + 10)
  else none

/-- The byte that `%` and two digits stand for. -/
def unescape (byte first second : ℕ) : Option ℕ :=
  if byte = percent then
    match fromHexDigit first, fromHexDigit second with
    | some high, some low => some (high * 16 + low)
    | _, _ => none
  else none

/-- `urlencoding::decode_binary`. -/
def decodeBinary : List ℕ → List ℕ
  | [] => []
  | [byte] => [byte]
  | [byte, next] => [byte, next]
  | byte :: first :: second :: rest =>
    match unescape byte first second with
    | some value => value :: decodeBinary rest
    | none => byte :: decodeBinary (first :: second :: rest)

def upperHexDigit (value : ℕ) : Char := Char.ofNat (if value < 10 then 0x30 + value else 0x41 + (value - 10))

def percentEncodeByte (inSet : ℕ → Bool) (byte : ℕ) : Str :=
  if 0x80 ≤ byte || inSet byte then ['%', upperHexDigit (byte / 16), upperHexDigit (byte % 16)]
  else [Char.ofNat byte]

/-- `utf8_percent_encode`. -/
def utf8PercentEncode (inSet : ℕ → Bool) (s : Str) : Str :=
  (asBytes s).flatMap (percentEncodeByte inSet)

/-! ## Decoding -/

theorem unescape_ne {byte : ℕ} (h : byte ≠ percent) (first second : ℕ) :
    unescape byte first second = none := if_neg h

theorem unescape_first {first : ℕ} (h : fromHexDigit first = none) (byte second : ℕ) :
    unescape byte first second = none := by
  unfold unescape
  rw [h, ite_self]

theorem unescape_second {second : ℕ} (h : fromHexDigit second = none) (byte first : ℕ) :
    unescape byte first second = none := by
  unfold unescape
  rw [h]
  cases fromHexDigit first <;> simp

/-- A byte that starts no escape is let through. -/
theorem decodeBinary_cons {byte : ℕ} {rest : List ℕ}
    (h : ∀ first second tail, rest = first :: second :: tail → unescape byte first second = none) :
    decodeBinary (byte :: rest) = byte :: decodeBinary rest := by
  match rest with
  | [] => rfl
  | [_] => rfl
  | first :: second :: tail => simp only [decodeBinary, h first second tail rfl]

/-- A byte that is neither `%` nor a digit cuts the text into two that are decoded apart. -/
theorem decodeBinary_append_cons {sep : ℕ} (hsep : sep ≠ percent) (hdigit : fromHexDigit sep = none)
    (before after : List ℕ) :
    decodeBinary (before ++ sep :: after) = decodeBinary before ++ sep :: decodeBinary after := by
  have hafter : decodeBinary (sep :: after) = sep :: decodeBinary after :=
    decodeBinary_cons fun first second _ _ => unescape_ne hsep first second
  have hlast : ∀ byte, decodeBinary (byte :: sep :: after) = byte :: sep :: decodeBinary after := by
    intro byte
    rw [decodeBinary_cons, hafter]
    rintro _ second _ ⟨⟩
    exact unescape_first hdigit byte second
  induction before using decodeBinary.induct with
  | case1 => exact hafter
  | case2 byte => exact hlast byte
  | case3 byte next =>
    refine (decodeBinary_cons ?_).trans (congrArg _ (hlast next))
    rintro _ _ _ ⟨⟩
    exact unescape_second hdigit byte next
  | case4 byte first second rest value hvalue ih =>
    simp only [cons_append, decodeBinary, hvalue, ih]
  | case5 byte first second rest hnone ih =>
    simp only [cons_append] at ih
    simp only [cons_append, decodeBinary, hnone, ih]

/-! ## Decoding what was encoded -/

theorem fromHexDigit_upperHexDigit {value : ℕ} (h : value < 16) :
    fromHexDigit (upperHexDigit value).toNat = some value := by
  revert value
  decide

theorem asBytes_ascii {c : Char} (h : c.toNat < 0x80) (s : Str) :
    asBytes (c :: s) = c.toNat :: asBytes s := by
  rw [asBytes, flatMap_cons, utf8Bytes, if_pos h]
  rfl

theorem decodeBinary_percentEncodeByte {inSet : ℕ → Bool} (hset : inSet percent = true) {byte : ℕ}
    (hbyte : byte < 256) (s : Str) :
    decodeBinary (asBytes (percentEncodeByte inSet byte ++ s)) = byte :: decodeBinary (asBytes s) := by
  unfold percentEncodeByte
  split
  · have hhigh : byte / 16 < 16 := by omega
    have hlow : byte % 16 < 16 := by omega
    have hascii : ∀ value < 16, (upperHexDigit value).toNat < 0x80 := by decide
    have hvalue : byte / 16 * 16 + byte % 16 = byte := by omega
    simp only [cons_append, nil_append]
    rw [asBytes_ascii (by decide), asBytes_ascii (hascii _ hhigh), asBytes_ascii (hascii _ hlow),
      decodeBinary]
    have hescape : unescape '%'.toNat (upperHexDigit (byte / 16)).toNat (upperHexDigit (byte % 16)).toNat =
        some byte := by
      unfold unescape
      rw [if_pos (by decide), fromHexDigit_upperHexDigit hhigh, fromHexDigit_upperHexDigit hlow]
      exact congrArg some hvalue
    rw [hescape]
  · next hout =>
    simp only [Bool.or_eq_true, decide_eq_true_eq, not_or] at hout
    have hne : byte ≠ percent := fun h => hout.2 (h ▸ hset)
    have hnat : (Char.ofNat byte).toNat = byte := by
      rw [Char.ofNat, dif_pos (show byte.isValidChar from Or.inl (by omega))]
      rfl
    rw [singleton_append, asBytes_ascii (by omega), hnat]
    exact decodeBinary_cons fun first second _ _ => unescape_ne hne first second

theorem utf8Bytes_lt (c : Char) : ∀ byte ∈ utf8Bytes c, byte < 256 := by
  have hvalid := toNat_valid c
  unfold utf8Bytes
  dsimp only
  intro byte hbyte
  split_ifs at hbyte <;> simp only [mem_cons, not_mem_nil, or_false] at hbyte <;> omega

theorem asBytes_lt (s : Str) : ∀ byte ∈ asBytes s, byte < 256 := by
  intro byte hbyte
  obtain ⟨c, -, hc⟩ := mem_flatMap.1 hbyte
  exact utf8Bytes_lt c byte hc

/-- **A text comes back from its percent-encoding.** -/
theorem decodeBinary_utf8PercentEncode {inSet : ℕ → Bool} (hset : inSet percent = true) (s : Str) :
    fromUtf8Lossy (decodeBinary (asBytes (utf8PercentEncode inSet s))) = s := by
  have hbytes : ∀ bytes : List ℕ, (∀ byte ∈ bytes, byte < 256) →
      decodeBinary (asBytes (bytes.flatMap (percentEncodeByte inSet))) = bytes := by
    intro bytes hlt
    induction bytes with
    | nil => rfl
    | cons byte bytes ih =>
      rw [flatMap_cons, decodeBinary_percentEncodeByte hset (hlt byte mem_cons_self),
        ih fun b hb => hlt b (mem_cons_of_mem _ hb)]
  rw [utf8PercentEncode, hbytes _ (asBytes_lt s), fromUtf8Lossy_asBytes]

end Codex.Text
