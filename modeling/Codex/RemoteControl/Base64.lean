import Codex.RemoteControl.Protocol

/-!
# The standard alphabet

Base64 with padding, as `general_purpose::STANDARD` encodes and decodes it.
-/

namespace Codex.RemoteControl.Base64

open Codex.Text

def alphabet : Str := "ABCDEFGHIJKLMNOPQRSTUVWXYZabcdefghijklmnopqrstuvwxyz0123456789+/".toList

def encodeSextet (n : ℕ) : Char := alphabet.getD n '='

def decodeSextet (c : Char) : Option ℕ := alphabet.idxOf? c

def encodeBytes : Bytes → Str
  | [] => []
  | [a] => [encodeSextet (a.toNat / 4), encodeSextet (a.toNat % 4 * 16), '=', '=']
  | [a, b] =>
    [encodeSextet (a.toNat / 4), encodeSextet (a.toNat % 4 * 16 + b.toNat / 16),
      encodeSextet (b.toNat % 16 * 4), '=']
  | a :: b :: c :: rest =>
    encodeSextet (a.toNat / 4) :: encodeSextet (a.toNat % 4 * 16 + b.toNat / 16) ::
      encodeSextet (b.toNat % 16 * 4 + c.toNat / 64) :: encodeSextet (c.toNat % 64) ::
      encodeBytes rest

/-- Four characters at a time. Only the last ones may be padding, and the bits
that padding leaves over are zero. -/
def decodeBytes : Str → Option Bytes
  | [] => some []
  | w :: x :: y :: z :: rest => do
    let w ← decodeSextet w
    let x ← decodeSextet x
    if z = '=' then
      if rest ≠ [] then none
      else if y = '=' then
        if x % 16 = 0 then some [UInt8.ofNat (w * 4 + x / 16)] else none
      else
        let y ← decodeSextet y
        if y % 4 = 0 then some [UInt8.ofNat (w * 4 + x / 16), UInt8.ofNat (x % 16 * 16 + y / 4)]
        else none
    else
      let y ← decodeSextet y
      let z ← decodeSextet z
      let bytes ← decodeBytes rest
      return UInt8.ofNat (w * 4 + x / 16) :: UInt8.ofNat (x % 16 * 16 + y / 4) ::
        UInt8.ofNat (y % 4 * 64 + z) :: bytes
  | _ => none

def standard : Base64 where
  encode := encodeBytes
  decodeSlice text length :=
    match decodeBytes text with
    | some bytes => if bytes.length ≤ length then .ok bytes else .outputSliceTooSmall
    | none => .invalid
  decodedLenEstimate length := (length / 4 + if length % 4 = 0 then 0 else 1) * 3

theorem decodeSextet_encodeSextet : ∀ n < 64, decodeSextet (encodeSextet n) = some n := by
  decide +kernel

theorem encodeSextet_ne_padding : ∀ n < 64, encodeSextet n ≠ '=' := by
  decide +kernel

theorem ofNat_eq_of_toNat {a : UInt8} {n : ℕ} (h : n = a.toNat) : UInt8.ofNat n = a := by
  rw [h, UInt8.ofNat_toNat]

theorem decodeBytes_encodeBytes (bytes : Bytes) : decodeBytes (encodeBytes bytes) = some bytes := by
  induction bytes using encodeBytes.induct with
  | case1 => rfl
  | case2 a =>
    have ha := a.toNat_lt
    have hzero : a.toNat % 4 * 16 % 16 = 0 := by omega
    have hfirst : UInt8.ofNat (a.toNat / 4 * 4 + a.toNat % 4 * 16 / 16) = a :=
      ofNat_eq_of_toNat (by omega)
    simp only [encodeBytes, decodeBytes, decodeSextet_encodeSextet (a.toNat / 4) (by omega),
      decodeSextet_encodeSextet (a.toNat % 4 * 16) (by omega), Option.bind_eq_bind,
      Option.bind_some, ↓reduceIte, ne_eq, not_true_eq_false, hzero, hfirst]
  | case3 a b =>
    have ha := a.toNat_lt
    have hb := b.toNat_lt
    have hpadding := encodeSextet_ne_padding (b.toNat % 16 * 4) (by omega)
    have hzero : b.toNat % 16 * 4 % 4 = 0 := by omega
    have hfirst : UInt8.ofNat (a.toNat / 4 * 4 + (a.toNat % 4 * 16 + b.toNat / 16) / 16) = a :=
      ofNat_eq_of_toNat (by omega)
    have hsecond : UInt8.ofNat ((a.toNat % 4 * 16 + b.toNat / 16) % 16 * 16 +
        b.toNat % 16 * 4 / 4) = b := ofNat_eq_of_toNat (by omega)
    simp only [encodeBytes, decodeBytes, decodeSextet_encodeSextet (a.toNat / 4) (by omega),
      decodeSextet_encodeSextet (a.toNat % 4 * 16 + b.toNat / 16) (by omega),
      decodeSextet_encodeSextet (b.toNat % 16 * 4) (by omega), Option.bind_eq_bind,
      Option.bind_some, ↓reduceIte, ne_eq, not_true_eq_false, hpadding, hzero, hfirst, hsecond]
  | case4 a b c rest ih =>
    have ha := a.toNat_lt
    have hb := b.toNat_lt
    have hc := c.toNat_lt
    have hpadding := encodeSextet_ne_padding (c.toNat % 64) (by omega)
    have hfirst : UInt8.ofNat (a.toNat / 4 * 4 + (a.toNat % 4 * 16 + b.toNat / 16) / 16) = a :=
      ofNat_eq_of_toNat (by omega)
    have hsecond : UInt8.ofNat ((a.toNat % 4 * 16 + b.toNat / 16) % 16 * 16 +
        (b.toNat % 16 * 4 + c.toNat / 64) / 4) = b := ofNat_eq_of_toNat (by omega)
    have hthird : UInt8.ofNat ((b.toNat % 16 * 4 + c.toNat / 64) % 4 * 64 + c.toNat % 64) = c :=
      ofNat_eq_of_toNat (by omega)
    simp only [encodeBytes, decodeBytes, decodeSextet_encodeSextet (a.toNat / 4) (by omega),
      decodeSextet_encodeSextet (a.toNat % 4 * 16 + b.toNat / 16) (by omega),
      decodeSextet_encodeSextet (b.toNat % 16 * 4 + c.toNat / 64) (by omega),
      decodeSextet_encodeSextet (c.toNat % 64) (by omega), Option.bind_eq_bind, Option.bind_some,
      ↓reduceIte, hpadding, hfirst, hsecond, hthird, ih]
    rfl

theorem length_encodeBytes (bytes : Bytes) :
    ∃ quads, (encodeBytes bytes).length = 4 * quads ∧ bytes.length ≤ quads * 3 := by
  induction bytes using encodeBytes.induct with
  | case1 => exact ⟨0, rfl, le_rfl⟩
  | case2 a => exact ⟨1, rfl, show 1 ≤ 1 * 3 by omega⟩
  | case3 a b => exact ⟨1, rfl, show 2 ≤ 1 * 3 by omega⟩
  | case4 a b c rest ih =>
    obtain ⟨quads, hlength, hle⟩ := ih
    refine ⟨quads + 1, ?_, ?_⟩
    · show (encodeBytes rest).length + 4 = _
      omega
    · show rest.length + 3 ≤ _
      omega

theorem standard_lawful : standard.Lawful where
  decode_encode bytes length hle := by
    show (match decodeBytes (encodeBytes bytes) with | some bytes => _ | none => _) = _
    rw [decodeBytes_encodeBytes]
    exact if_pos hle
  le_estimate bytes := by
    obtain ⟨quads, hlength, hle⟩ := length_encodeBytes bytes
    show bytes.length ≤ ((encodeBytes bytes).length / 4 +
      if (encodeBytes bytes).length % 4 = 0 then 0 else 1) * 3
    rw [hlength, if_pos (by omega)]
    omega

end Codex.RemoteControl.Base64
