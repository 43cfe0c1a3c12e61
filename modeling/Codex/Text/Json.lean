import Codex.Text.Str

/-!
# JSON strings

`serde_json::to_string` of a string: quotes and backslashes are escaped, and so
is every control character below U+0020. A serialised string has no line ending.
-/

namespace Codex.Text

open List

def backslash : Char := Char.ofNat 0x5C
def doubleQuote : Char := Char.ofNat 0x22

/-- The characters `0`–`9`, `a`–`f`. -/
def hexDigit (n : Nat) : Char := if n < 10 then Char.ofNat (0x30 + n) else Char.ofNat (0x57 + n)

def escapeChar (c : Char) : Str :=
  if c = doubleQuote then [backslash, doubleQuote]
  else if c = backslash then [backslash, backslash]
  else if c.toNat = 0x08 then [backslash, 'b']
  else if c.toNat = 0x0C then [backslash, 'f']
  else if c.toNat = 0x0A then [backslash, 'n']
  else if c.toNat = 0x0D then [backslash, 'r']
  else if c.toNat = 0x09 then [backslash, 't']
  else if c.toNat < 0x20 then
    [backslash, 'u', '0', '0', hexDigit (c.toNat / 16), hexDigit (c.toNat % 16)]
  else [c]

def jsonString (s : Str) : Str := doubleQuote :: s.flatMap escapeChar ++ [doubleQuote]

theorem newline_not_mem_escapeChar (c : Char) : '\n' ∉ escapeChar c := by
  have hhex : ∀ n < 16, hexDigit n ≠ '\n' := by decide
  rw [escapeChar]
  by_cases hq : c = doubleQuote
  · rw [if_pos hq]
    decide
  rw [if_neg hq]
  by_cases hb : c = backslash
  · rw [if_pos hb]
    decide
  rw [if_neg hb]
  by_cases h08 : c.toNat = 0x08
  · rw [if_pos h08]
    decide
  rw [if_neg h08]
  by_cases h0C : c.toNat = 0x0C
  · rw [if_pos h0C]
    decide
  rw [if_neg h0C]
  by_cases h0A : c.toNat = 0x0A
  · rw [if_pos h0A]
    decide
  rw [if_neg h0A]
  by_cases h0D : c.toNat = 0x0D
  · rw [if_pos h0D]
    decide
  rw [if_neg h0D]
  by_cases h09 : c.toNat = 0x09
  · rw [if_pos h09]
    decide
  rw [if_neg h09]
  by_cases hlt : c.toNat < 0x20
  · have h1 := hhex (c.toNat / 16) (by omega)
    have h2 := hhex (c.toNat % 16) (by omega)
    rw [if_pos hlt]
    simp only [mem_cons, not_mem_nil, or_false, not_or]
    exact ⟨by decide, by decide, by decide, by decide, h1.symm, h2.symm⟩
  · intro h
    rw [if_neg hlt, mem_singleton] at h
    subst h
    exact h0A rfl

theorem newline_not_mem_jsonString (s : Str) : '\n' ∉ jsonString s := by
  have hq : '\n' ≠ doubleQuote := by decide
  simp only [jsonString, mem_append, mem_cons, mem_flatMap, not_or, not_exists,
    not_and, not_mem_nil, not_false_eq_true, and_true]
  exact ⟨⟨hq, fun c _ => newline_not_mem_escapeChar c⟩, hq⟩

end Codex.Text
