import Codex.Text.Str

/-!
# Base64

The URL-safe alphabet without padding (`URL_SAFE_NO_PAD`): three bytes are four
characters, and a rest of one or two bytes is two or three characters whose unused
bits are zero. Bytes are numbers below 256 and come back from their encoding.
-/

namespace Codex.Text

open List

def base64Char (sextet : ℕ) : Char :=
  if sextet < 26 then Char.ofNat (0x41 + sextet)
  else if sextet < 52 then Char.ofNat (0x61 + (sextet - 26))
  else if sextet < 62 then Char.ofNat (0x30 + (sextet - 52))
  else if sextet = 62 then '-'
  else '_'

def base64Value (c : Char) : Option ℕ :=
  if 'A' ≤ c && c ≤ 'Z' then some (c.toNat - 0x41)
  else if 'a' ≤ c && c ≤ 'z' then some (c.toNat - 0x61 + 26)
  else if '0' ≤ c && c ≤ '9' then some (c.toNat - 0x30 + 52)
  else if c = '-' then some 62
  else if c = '_' then some 63
  else none

def toSextets : List ℕ → List ℕ
  | [] => []
  | [a] => [a / 4, a % 4 * 16]
  | [a, b] => [a / 4, a % 4 * 16 + b / 16, b % 16 * 4]
  | a :: b :: c :: rest =>
    a / 4 :: (a % 4 * 16 + b / 16) :: (b % 16 * 4 + c / 64) :: c % 64 :: toSextets rest

/-- A single sextet left over, and bits that no byte uses, are errors. -/
def fromSextets : List ℕ → Option (List ℕ)
  | [] => some []
  | [_] => none
  | [a, b] => if b % 16 = 0 then some [a * 4 + b / 16] else none
  | [a, b, c] => if c % 4 = 0 then some [a * 4 + b / 16, b % 16 * 16 + c / 4] else none
  | a :: b :: c :: d :: rest =>
    (fromSextets rest).map fun bytes =>
      (a * 4 + b / 16) :: (b % 16 * 16 + c / 4) :: (c % 4 * 64 + d) :: bytes

/-- `URL_SAFE_NO_PAD.encode`. -/
def encodeBase64 (bytes : List ℕ) : Str := (toSextets bytes).map base64Char

/-- `URL_SAFE_NO_PAD.decode`. -/
def decodeBase64 (s : Str) : Option (List ℕ) := (s.mapM base64Value).bind fromSextets

theorem base64Value_base64Char : ∀ sextet < 64, base64Value (base64Char sextet) = some sextet := by
  decide

theorem toSextets_lt {bytes : List ℕ} (h : ∀ byte ∈ bytes, byte < 256) :
    ∀ sextet ∈ toSextets bytes, sextet < 64 := by
  induction bytes using toSextets.induct with
  | case1 => exact nofun
  | case2 a =>
    simp only [forall_mem_cons] at h
    simp only [toSextets, forall_mem_cons]
    exact ⟨by omega, by omega, nofun⟩
  | case3 a b =>
    simp only [forall_mem_cons] at h
    simp only [toSextets, forall_mem_cons]
    exact ⟨by omega, by omega, by omega, nofun⟩
  | case4 a b c rest ih =>
    simp only [forall_mem_cons] at h
    have hrest := ih h.2.2.2
    simp only [toSextets, forall_mem_cons]
    exact ⟨by omega, by omega, by omega, by omega, hrest⟩

theorem fromSextets_toSextets {bytes : List ℕ} (h : ∀ byte ∈ bytes, byte < 256) :
    fromSextets (toSextets bytes) = some bytes := by
  induction bytes using toSextets.induct with
  | case1 => rfl
  | case2 a =>
    simp only [forall_mem_cons] at h
    rw [toSextets, fromSextets, if_pos (by omega), show a / 4 * 4 + a % 4 * 16 / 16 = a by omega]
  | case3 a b =>
    simp only [forall_mem_cons] at h
    rw [toSextets, fromSextets, if_pos (by omega),
      show a / 4 * 4 + (a % 4 * 16 + b / 16) / 16 = a by omega,
      show (a % 4 * 16 + b / 16) % 16 * 16 + b % 16 * 4 / 4 = b by omega]
  | case4 a b c rest ih =>
    simp only [forall_mem_cons] at h
    rw [toSextets, fromSextets, ih h.2.2.2, Option.map_some,
      show a / 4 * 4 + (a % 4 * 16 + b / 16) / 16 = a by omega,
      show (a % 4 * 16 + b / 16) % 16 * 16 + (b % 16 * 4 + c / 64) / 4 = b by omega,
      show (b % 16 * 4 + c / 64) % 4 * 64 + c % 64 = c by omega]

/-- Bytes come back from their encoding. -/
theorem decodeBase64_encodeBase64 {bytes : List ℕ} (h : ∀ byte ∈ bytes, byte < 256) :
    decodeBase64 (encodeBase64 bytes) = some bytes := by
  have hvalues : ((toSextets bytes).map base64Char).mapM base64Value = some (toSextets bytes) := by
    have hlt := toSextets_lt h
    generalize toSextets bytes = sextets at hlt
    induction sextets with
    | nil => rfl
    | cons sextet rest ih =>
      simp only [forall_mem_cons] at hlt
      simp [base64Value_base64Char sextet hlt.1, ih hlt.2]
  rw [decodeBase64, encodeBase64, hvalues, Option.bind_some, fromSextets_toSextets h]

theorem encodeBase64_ne_nil {bytes : List ℕ} (h : bytes ≠ []) : encodeBase64 bytes ≠ [] := by
  match bytes with
  | [_] => exact nofun
  | [_, _] => exact nofun
  | _ :: _ :: _ :: _ => exact nofun

/-- No character of an encoding is a path separator. -/
theorem slash_notMem_encodeBase64 (bytes : List ℕ) : '/' ∉ encodeBase64 bytes := by
  have hchar : ∀ sextet, base64Char sextet ≠ '/' := by
    intro sextet h
    by_cases hlt : sextet < 64
    · have hvalue := base64Value_base64Char sextet hlt
      rw [h] at hvalue
      cases hvalue
    · unfold base64Char at h
      rw [if_neg (by omega), if_neg (by omega), if_neg (by omega), if_neg (by omega)] at h
      exact absurd h (by decide)
  intro hmem
  obtain ⟨sextet, -, h⟩ := mem_map.1 hmem
  exact hchar sextet h

end Codex.Text
