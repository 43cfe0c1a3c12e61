import Mathlib.Algebra.GroupWithZero.Nat
import Mathlib.Data.Char
import Mathlib.Data.List.DropRight
import Mathlib.Data.List.Infix
import Mathlib.Data.List.Lex

/-!
# Strings as the Rust standard library reads them

A `str` is a list of `char`s. The operations here follow the documented
behaviour of `str` and `char`: `trim` and `trim_end` drop Unicode white space,
`strip_prefix` removes a literal prefix, and `strip_suffix('\r')` removes one
carriage return.
-/

namespace Codex.Text

open List

abbrev Str := List Char

instance : LawfulBEq Str := inferInstance

/-- `char::is_whitespace`: the Unicode `White_Space` property. -/
def isWhitespace (c : Char) : Bool :=
  let n := c.toNat
  (9 ≤ n && n ≤ 13) || n == 0x20 || n == 0x85 || n == 0xA0 || n == 0x1680 ||
    (0x2000 ≤ n && n ≤ 0x200A) || n == 0x2028 || n == 0x2029 || n == 0x202F ||
    n == 0x205F || n == 0x3000

def trimStart (s : Str) : Str := s.dropWhile isWhitespace

def trimEnd (s : Str) : Str := s.rdropWhile isWhitespace

def trim (s : Str) : Str := trimStart (trimEnd s)

/-- `s.strip_prefix(p)`. -/
def stripPrefix : Str → Str → Option Str
  | s, [] => some s
  | [], _ :: _ => none
  | c :: s, d :: p => if c = d then stripPrefix s p else none

/-- `line.strip_suffix('\r')`, or the line itself. -/
def stripCr (s : Str) : Str := if s.getLast? = some '\r' then s.dropLast else s

/-- `s.split_once(c)`: the parts before and after the first `c`. -/
def splitOnce (c : Char) : Str → Option (Str × Str)
  | [] => none
  | d :: s => if d = c then some ([], s) else (splitOnce c s).map fun (a, b) => (d :: a, b)

/-- `s.split_once(d)` for a text `d`. -/
def splitOnceStr (d : Str) : Str → Option (Str × Str)
  | [] => (stripPrefix [] d).map fun r => ([], r)
  | c :: s =>
    match stripPrefix (c :: s) d with
    | some r => some ([], r)
    | none => (splitOnceStr d s).map fun (a, b) => (c :: a, b)

/-- `s.rsplit_once(c)`: the parts before and after the last `c`. -/
def rsplitOnce (c : Char) (s : Str) : Option (Str × Str) :=
  (splitOnce c s.reverse).map fun (a, b) => (b.reverse, a.reverse)

def isAsciiDigit (c : Char) : Bool := '0' ≤ c && c ≤ '9'

/-- `char::to_ascii_lowercase`. -/
def asciiLower (c : Char) : Char :=
  if 'A' ≤ c && c ≤ 'Z' then Char.ofNat (c.toNat + 32) else c

/-- `str::to_ascii_lowercase`. -/
def toAsciiLowercase (s : Str) : Str := s.map asciiLower

/-- `trim_end_matches('.')`. -/
def trimEndDots (s : Str) : Str := s.rdropWhile (· == '.')

/-! ## Prefixes -/

variable {s t : Str}

theorem stripPrefix_eq_some {p r : Str} : stripPrefix s p = some r ↔ s = p ++ r := by
  induction p generalizing s with
  | nil => simp [stripPrefix]
  | cons d p ih =>
    cases s with
    | nil => simp [stripPrefix]
    | cons c s =>
      simp only [stripPrefix, cons_append, List.cons.injEq]
      split
      · next h => simp [h, ih]
      · next h => simp [h]

@[simp] theorem stripPrefix_append (p r : Str) : stripPrefix (p ++ r) p = some r :=
  stripPrefix_eq_some.2 rfl

theorem stripPrefix_eq_none {p : Str} : stripPrefix s p = none ↔ ¬ p <+: s := by
  constructor
  · rintro h ⟨r, rfl⟩
    simp at h
  · intro h
    cases hs : stripPrefix s p with
    | none => rfl
    | some r => exact absurd ⟨r, (stripPrefix_eq_some.1 hs).symm⟩ h

theorem splitOnce_eq {d : Char} {a b : Str} (h : splitOnce d s = some (a, b)) :
    s = a ++ d :: b := by
  induction s generalizing a with
  | nil => cases h
  | cons c s ih =>
    simp only [splitOnce] at h
    split at h
    · next hc =>
      cases h
      rw [hc, nil_append]
    · obtain ⟨⟨a', b'⟩, hs, heq⟩ := Option.map_eq_some_iff.1 h
      cases heq
      rw [ih hs, cons_append]

theorem splitOnceStr_eq {d a b : Str} (h : splitOnceStr d s = some (a, b)) : s = a ++ d ++ b := by
  induction s generalizing a with
  | nil =>
    obtain ⟨r, hr, heq⟩ := Option.map_eq_some_iff.1 h
    cases heq
    simpa using stripPrefix_eq_some.1 hr
  | cons c s ih =>
    simp only [splitOnceStr] at h
    split at h
    · next r hr =>
      cases h
      simpa using stripPrefix_eq_some.1 hr
    · obtain ⟨⟨a', b'⟩, hs, heq⟩ := Option.map_eq_some_iff.1 h
      cases heq
      rw [ih hs, cons_append, cons_append]

/-! ## White space -/

/-- Every character is white space. -/
def Blank (s : Str) : Prop := ∀ c ∈ s, isWhitespace c = true

instance (s : Str) : Decidable (Blank s) :=
  List.decidableBAll (fun c => isWhitespace c = true) s

theorem trimEnd_eq_nil : trimEnd s = [] ↔ Blank s := by
  simp [trimEnd, Blank]

theorem trimStart_eq_nil : trimStart s = [] ↔ Blank s := by
  simp [trimStart, Blank]

theorem blank_append : Blank (s ++ t) ↔ Blank s ∧ Blank t := by
  simp only [Blank, mem_append]
  exact ⟨fun h => ⟨fun c hc => h c (.inl hc), fun c hc => h c (.inr hc)⟩,
    fun h c hc => hc.elim (h.1 c) (h.2 c)⟩

theorem trimEnd_append_blank (ht : Blank t) : trimEnd (s ++ t) = trimEnd s := by
  induction t using List.reverseRecOn with
  | nil => simp
  | append_singleton t c ih =>
    have hc : isWhitespace c = true := ht c (by simp)
    rw [← List.append_assoc, trimEnd, rdropWhile_concat_pos _ _ _ hc]
    exact ih (blank_append.1 ht).1

theorem trimEnd_append_of_not_blank (ht : ¬ Blank t) : trimEnd (s ++ t) = s ++ trimEnd t := by
  induction t using List.reverseRecOn with
  | nil => exact absurd (fun c hc => by cases hc) ht
  | append_singleton t c ih =>
    rw [← List.append_assoc]
    by_cases hc : isWhitespace c = true
    · have ht' : ¬ Blank t := fun h => ht (blank_append.2 ⟨h, by simpa [Blank] using hc⟩)
      simp only [trimEnd] at ih ⊢
      rw [rdropWhile_concat_pos _ _ _ hc, rdropWhile_concat_pos _ _ _ hc, ih ht']
    · simp only [trimEnd]
      rw [rdropWhile_concat_neg _ _ _ hc, rdropWhile_concat_neg _ _ _ hc,
        List.append_assoc]

theorem trimStart_append_of_not_blank (hs : ¬ Blank s) : trimStart (s ++ t) = trimStart s ++ t := by
  induction s with
  | nil => exact absurd (fun c hc => by cases hc) hs
  | cons c s ih =>
    by_cases hc : isWhitespace c = true
    · have hs' : ¬ Blank s := fun h => hs (fun d hd => by
        rcases mem_cons.1 hd with rfl | hd
        · exact hc
        · exact h d hd)
      simpa [trimStart, hc] using ih hs'
    · simp [trimStart, hc]

theorem trimEnd_blank (h : Blank s) : trimEnd s = [] := trimEnd_eq_nil.2 h

theorem trim_eq_nil : trim s = [] ↔ Blank s := by
  constructor
  · intro h
    rw [trim, trimStart_eq_nil] at h
    have hs : s = trimEnd s ++ s.rtakeWhile isWhitespace :=
      rdropWhile_append_rtakeWhile.symm
    rw [hs]
    exact blank_append.2 ⟨h, fun c hc => mem_rtakeWhile_imp hc⟩
  · intro h
    rw [trim, trimEnd_blank h]
    rfl

theorem trim_trimEnd (s : Str) : trim (trimEnd s) = trim s := by
  rw [trim, trim]
  exact congrArg trimStart (rdropWhile_idempotent isWhitespace s)

theorem trim_trimStart (s : Str) : trim (trimStart s) = trim s := by
  by_cases hs : Blank s
  · rw [trimStart_eq_nil.2 hs, trim_eq_nil.2 hs]
    rfl
  · have hsplit : s = s.takeWhile isWhitespace ++ trimStart s := takeWhile_append_dropWhile.symm
    have hw : Blank (s.takeWhile isWhitespace) := fun c hc => mem_takeWhile_imp hc
    have hrest : ¬ Blank (trimStart s) := fun h => hs (by rw [hsplit]; exact blank_append.2 ⟨hw, h⟩)
    conv_rhs => rw [trim, hsplit, trimEnd_append_of_not_blank hrest]
    exact (dropWhile_append_of_pos hw).symm

theorem trim_subset (s : Str) : trim s ⊆ s := fun _ hc =>
  (List.rdropWhile_prefix _ _).subset ((dropWhile_suffix _).subset hc)

theorem trim_of_ends (hstart : ∀ c ∈ s.head?, isWhitespace c = false)
    (hend : ∀ c ∈ s.getLast?, isWhitespace c = false) : trim s = s := by
  have htrimEnd : trimEnd s = s := by
    refine rdropWhile_eq_self_iff.2 fun hne => ?_
    rw [hend _ (getLast?_eq_some_getLast hne)]
    decide
  rw [trim, htrimEnd]
  cases s with
  | nil => rfl
  | cons c s => exact dropWhile_cons_of_neg (by rw [hstart c rfl]; decide)

theorem getLast?_trim {c : Char} (h : (trim s).getLast? = some c) : isWhitespace c = false := by
  have hne : trim s ≠ [] := by
    rintro hnil
    rw [hnil] at h
    cases h
  obtain ⟨blank, hsplit⟩ : trim s <:+ trimEnd s := dropWhile_suffix _
  have hlast : (trimEnd s).getLast? = some c := by
    rw [← hsplit, getLast?_append, h]
    rfl
  have hne' : trimEnd s ≠ [] := by
    intro hnil
    rw [hnil] at hlast
    cases hlast
  rw [getLast?_eq_some_getLast hne', Option.some.injEq] at hlast
  exact Bool.eq_false_iff.2 (hlast ▸ rdropWhile_last_not isWhitespace s hne')

/-! ## Case -/

theorem asciiLower_cases (c : Char) :
    (asciiLower c = c ∧ ¬ (65 ≤ c.toNat ∧ c.toNat ≤ 90)) ∨
      (65 ≤ c.toNat ∧ c.toNat ≤ 90 ∧ (asciiLower c).toNat = c.toNat + 32) := by
  have hA : ('A' ≤ c) ↔ 65 ≤ c.toNat := Char.le_def
  have hZ : (c ≤ 'Z') ↔ c.toNat ≤ 90 := Char.le_def
  unfold asciiLower
  by_cases h : 65 ≤ c.toNat ∧ c.toNat ≤ 90
  · right
    have hvalid : (c.toNat + 32).isValidChar := Or.inl (by omega)
    refine ⟨h.1, h.2, ?_⟩
    rw [if_pos (by simp [hA, hZ, h.1, h.2]), Char.ofNat, dif_pos hvalid]
    rfl
  · left
    refine ⟨if_neg ?_, h⟩
    simpa [hA, hZ] using h

theorem asciiLower_asciiLower (c : Char) : asciiLower (asciiLower c) = asciiLower c := by
  rcases asciiLower_cases c with ⟨h, -⟩ | ⟨_, _, h⟩
  · rw [h, h]
  · rcases asciiLower_cases (asciiLower c) with ⟨h', -⟩ | ⟨_, _, _⟩
    · exact h'
    · omega

/-- Neither an upper case nor a lower case ASCII letter. -/
def NoLetter (c : Char) : Prop := c.toNat < 65 ∨ 90 < c.toNat ∧ c.toNat < 97

instance (c : Char) : Decidable (NoLetter c) := inferInstanceAs (Decidable (_ ∨ _))

theorem asciiLower_eq_iff {c d : Char} (hd : NoLetter d) : asciiLower c = d ↔ c = d := by
  unfold NoLetter at hd
  rcases asciiLower_cases c with ⟨h, -⟩ | ⟨_, _, h⟩
  · rw [h]
  · constructor
    · rintro rfl
      omega
    · rintro rfl
      omega

theorem isWhitespace_asciiLower (c : Char) : isWhitespace (asciiLower c) = isWhitespace c := by
  rcases asciiLower_cases c with ⟨h, -⟩ | ⟨h1, h2, h⟩
  · rw [h]
  · have hn : isWhitespace c = false := by simp [isWhitespace]; omega
    have hl : isWhitespace (asciiLower c) = false := by simp [isWhitespace, h]; omega
    rw [hn, hl]

/-- No character is an upper case ASCII letter. -/
def Lowered (s : Str) : Prop := ∀ c ∈ s, asciiLower c = c

instance (s : Str) : Decidable (Lowered s) :=
  List.decidableBAll (fun c => asciiLower c = c) s

theorem lowered_toAsciiLowercase (s : Str) : Lowered (toAsciiLowercase s) := by
  intro c hc
  obtain ⟨d, -, rfl⟩ := mem_map.1 hc
  exact asciiLower_asciiLower d

theorem Lowered.eq (h : Lowered s) : toAsciiLowercase s = s := by
  rw [toAsciiLowercase, map_congr_left h, map_id']

theorem Lowered.of_subset (hs : Lowered s) (h : t ⊆ s) : Lowered t :=
  fun c hc => hs c (h hc)

theorem Lowered.append (hs : Lowered s) (ht : Lowered t) : Lowered (s ++ t) :=
  fun c hc => (mem_append.1 hc).elim (hs c) (ht c)

theorem trimStart_toAsciiLowercase (s : Str) :
    trimStart (toAsciiLowercase s) = toAsciiLowercase (trimStart s) := by
  simp only [trimStart, toAsciiLowercase, dropWhile_map]
  congr 2
  funext c
  exact isWhitespace_asciiLower c

theorem trimEnd_toAsciiLowercase (s : Str) :
    trimEnd (toAsciiLowercase s) = toAsciiLowercase (trimEnd s) := by
  have h := trimStart_toAsciiLowercase s.reverse
  simp only [trimStart, toAsciiLowercase] at h
  simp only [trimEnd, toAsciiLowercase, List.rdropWhile, ← map_reverse, h]

theorem trim_toAsciiLowercase (s : Str) :
    trim (toAsciiLowercase s) = toAsciiLowercase (trim s) := by
  rw [trim, trimEnd_toAsciiLowercase, trimStart_toAsciiLowercase, trim]

end Codex.Text
