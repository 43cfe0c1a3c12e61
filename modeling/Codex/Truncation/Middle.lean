import Codex.Text.Offsets

/-!
# Texts without their middle

`truncate_middle_chars` and the cut under a budget of tokens
(`utils/string/src/truncate.rs`) keep the two ends of a long text, cut between
characters, and put a marker in place of the rest. Indices are those of bytes; a slice
that would begin or end inside a character is `none`. No count of characters reaches
2^64, so the saturating operations are those of `ℕ`.
-/

namespace Codex.Truncation

open List Codex.Text

def approxBytesPerToken : ℕ := 4

/-- `&s[..index]`. -/
def sliceTo (s : Str) (index : ℕ) : Option Str := (splitAtByte s index).map (·.1)

/-- `&s[index..]`. -/
def sliceFrom (s : Str) (index : ℕ) : Option Str := (splitAtByte s index).map (·.2)

/-- `str::char_indices`, counted from an index. -/
def charIndices (index : ℕ) : Str → List (ℕ × Char)
  | [] => []
  | c :: s => (index, c) :: charIndices (index + c.utf8Size) s

structure SplitScan where
  prefixEnd : ℕ := 0
  suffixStart : ℕ
  removedChars : ℕ := 0
  suffixStarted : Bool := false
  deriving DecidableEq

/-- The body of the loop of `split_string`. -/
def SplitScan.step (beginningBytes tailStartTarget : ℕ) (scan : SplitScan) :
    ℕ × Char → SplitScan
  | (index, c) =>
    let charEnd := index + c.utf8Size
    if charEnd ≤ beginningBytes then { scan with prefixEnd := charEnd }
    else if tailStartTarget ≤ index then
      if scan.suffixStarted then scan
      else { scan with suffixStart := index, suffixStarted := true }
    else { scan with removedChars := scan.removedChars + 1 }

def splitString (s : Str) (beginningBytes endBytes : ℕ) : Option (ℕ × Str × Str) :=
  if s.isEmpty then some (0, [], [])
  else do
    let length := utf8Len s
    let tailStartTarget := length - endBytes
    let scan := (charIndices 0 s).foldl (SplitScan.step beginningBytes tailStartTarget)
      { suffixStart := length }
    let suffixStart :=
      if scan.suffixStart < scan.prefixEnd then scan.prefixEnd else scan.suffixStart
    let before ← sliceTo s scan.prefixEnd
    let after ← sliceFrom s suffixStart
    return (scan.removedChars, before, after)

def splitBudget (budget : ℕ) : ℕ × ℕ :=
  let left := budget / 2
  (left, budget - left)

def formatTruncationMarker (useTokens : Bool) (removedCount : ℕ) : Str :=
  if useTokens then '…' :: Nat.toDigits 10 removedCount ++ " tokens truncated…".toList
  else '…' :: Nat.toDigits 10 removedCount ++ " chars truncated…".toList

def approxTokensFromByteCount (bytes : ℕ) : ℕ :=
  (bytes + (approxBytesPerToken - 1)) / approxBytesPerToken

def removedUnits (useTokens : Bool) (removedBytes removedChars : ℕ) : ℕ :=
  if useTokens then approxTokensFromByteCount removedBytes else removedChars

def assembleTruncatedOutput (before after marker : Str) : Str := before ++ marker ++ after

def truncateWithByteEstimate (s : Str) (maxBytes : ℕ) (useTokens : Bool) : Option Str :=
  if s.isEmpty then some []
  else
    let totalChars := s.length
    if maxBytes = 0 then
      some (formatTruncationMarker useTokens (removedUnits useTokens (utf8Len s) totalChars))
    else if utf8Len s ≤ maxBytes then some s
    else do
      let totalBytes := utf8Len s
      let (leftBudget, rightBudget) := splitBudget maxBytes
      let (removedChars, left, right) ← splitString s leftBudget rightBudget
      let marker := formatTruncationMarker useTokens
        (removedUnits useTokens (totalBytes - maxBytes) removedChars)
      return assembleTruncatedOutput left right marker

def truncateMiddleChars (s : Str) (maxBytes : ℕ) : Option Str :=
  truncateWithByteEstimate s maxBytes false

/-! ## Slices -/

variable {s t before after middle : Str} {c : Char} {index left target : ℕ} {scan : SplitScan}

theorem charIndices_append (index : ℕ) (s t : Str) :
    charIndices index (s ++ t) = charIndices index s ++ charIndices (index + utf8Len s) t := by
  induction s generalizing index with
  | nil => rfl
  | cons c s ih =>
    rw [cons_append, charIndices, charIndices, ih, utf8Len_cons, Nat.add_assoc]
    rfl

/-! ## The three parts of a text -/

/-- `before` is the longest part of the text from its start that fits `left` bytes. -/
structure LongestPrefix (left : ℕ) (before rest : Str) : Prop where
  fits : utf8Len before ≤ left
  next : ∀ c ∈ rest.head?, left < utf8Len before + c.utf8Size

/-- A text is cut where its next character would not fit. -/
theorem exists_longestPrefix (left : ℕ) (s : Str) :
    ∃ before rest, s = before ++ rest ∧ LongestPrefix left before rest := by
  induction s generalizing left with
  | nil => exact ⟨[], [], rfl, Nat.zero_le _, nofun⟩
  | cons c s ih =>
    by_cases hfits : c.utf8Size ≤ left
    · obtain ⟨before, rest, rfl, hbefore⟩ := ih (left - c.utf8Size)
      refine ⟨c :: before, rest, rfl, ?_, fun d hd => ?_⟩
      · have hle := hbefore.fits
        rw [utf8Len_cons]
        omega
      · have hlt := hbefore.next d hd
        rw [utf8Len_cons]
        omega
    · refine ⟨[], c :: s, rfl, Nat.zero_le _, fun d hd => ?_⟩
      cases hd
      show left < 0 + c.utf8Size
      omega

/-- The characters of the beginning move only its end. -/
theorem foldl_before (before : Str) (scan : SplitScan) (hfits : index + utf8Len before ≤ left) :
    (charIndices index before).foldl (SplitScan.step left target) scan =
      if before = [] then scan else { scan with prefixEnd := index + utf8Len before } := by
  induction before generalizing index scan with
  | nil => rfl
  | cons c before ih =>
    rw [utf8Len_cons] at hfits
    have hstep : scan.step left target (index, c) =
        { scan with prefixEnd := index + c.utf8Size } := if_pos (by omega)
    rw [charIndices, foldl_cons, hstep, ih _ (by omega), if_neg (cons_ne_nil c before),
      utf8Len_cons, ← Nat.add_assoc]
    split
    · next hnil =>
      rw [hnil]
      rfl
    · rfl

/-- Once the end has started, nothing moves any more. -/
theorem foldl_after (hstarted : scan.suffixStarted = true) (htarget : target ≤ index)
    (hbehind : ∀ d ∈ after.head?, left < index + d.utf8Size) :
    (charIndices index after).foldl (SplitScan.step left target) scan = scan := by
  induction after generalizing index with
  | nil => rfl
  | cons c after ih =>
    have hc := hbehind c rfl
    have hstep : scan.step left target (index, c) = scan := by
      unfold SplitScan.step
      dsimp only
      rw [if_neg (by omega), if_pos htarget, if_pos hstarted]
    rw [charIndices, foldl_cons, hstep]
    exact ih (by omega) fun d _ => by
      have hpos := d.utf8Size_pos
      omega

/-- Behind the beginning, the characters in front of the target are counted, and the first one that
is not starts the end. -/
theorem exists_foldl_rest (target : ℕ) {rest : Str}
    (hbehind : ∀ d ∈ rest.head?, left < index + d.utf8Size) :
    ∃ middle after, rest = middle ++ after ∧
      (∀ scan : SplitScan, scan.suffixStarted = false →
        scan.suffixStart = index + utf8Len rest →
        (charIndices index rest).foldl (SplitScan.step left target) scan =
          { prefixEnd := scan.prefixEnd
            suffixStart := index + utf8Len middle
            removedChars := scan.removedChars + middle.length
            suffixStarted := !after.isEmpty }) ∧
      (after ≠ [] → target ≤ index + utf8Len middle) ∧
      ∀ m d, middle = m ++ [d] → index + utf8Len m < target := by
  induction rest generalizing index with
  | nil =>
    refine ⟨[], [], rfl, fun scan hstarted hstart => ?_, fun h => absurd rfl h, ?_⟩
    · obtain ⟨prefixEnd, suffixStart, removedChars, suffixStarted⟩ := scan
      cases hstarted
      cases hstart
      rfl
    · exact fun m d h => absurd h.symm (append_ne_nil_of_right_ne_nil m (cons_ne_nil d []))
  | cons c rest ih =>
    have hc := hbehind c rfl
    have hnext : ∀ d ∈ rest.head?, left < index + c.utf8Size + d.utf8Size := fun d _ => by omega
    by_cases htarget : target ≤ index
    · refine ⟨[], c :: rest, rfl, fun scan hstarted _ => ?_, fun _ => htarget, ?_⟩
      · have hstep : scan.step left target (index, c) =
            { scan with suffixStart := index, suffixStarted := true } := by
          unfold SplitScan.step
          dsimp only
          rw [if_neg (by omega), if_pos htarget, hstarted, if_neg Bool.false_ne_true]
        rw [charIndices, foldl_cons, hstep, foldl_after rfl (by omega) hnext]
        rfl
      · exact fun m d h =>
          absurd h.symm (append_ne_nil_of_right_ne_nil m (cons_ne_nil d []))
    · obtain ⟨middle, after, rfl, hfold, hafter, hmiddle⟩ := ih hnext
      refine ⟨c :: middle, after, rfl, fun scan hstarted hstart => ?_, ?_, ?_⟩
      · have hstep : scan.step left target (index, c) =
            { scan with removedChars := scan.removedChars + 1 } := by
          unfold SplitScan.step
          dsimp only
          rw [if_neg (by omega), if_neg htarget]
        rw [utf8Len_cons] at hstart
        have hrest := hfold { scan with removedChars := scan.removedChars + 1 } hstarted
          (hstart.trans (Nat.add_assoc _ _ _).symm)
        rw [charIndices, foldl_cons, hstep, hrest]
        simp only [utf8Len_cons, length_cons, SplitScan.mk.injEq, true_and, and_true]
        omega
      · intro hne
        have hle := hafter hne
        rw [utf8Len_cons]
        omega
      · intro m d h
        rcases cons_eq_append_iff.1 h with ⟨rfl, -⟩ | ⟨m', rfl, hm'⟩
        · show index + 0 < target
          omega
        · have hlt := hmiddle m' d hm'
          rw [utf8Len_cons]
          omega

/-- No longer part of the text from its start fits. -/
theorem LongestPrefix.prefix_of_fits {rest : Str} (h : LongestPrefix left before rest)
    (ht : t <+: before ++ rest) (hfits : utf8Len t ≤ left) : t <+: before := by
  rcases prefix_or_prefix_of_prefix ht (prefix_append before rest) with hle | ⟨u, rfl⟩
  · exact hle
  cases u with
  | nil => rw [append_nil]
  | cons c u =>
    obtain ⟨rest', hrest⟩ := (prefix_append_right_inj before).1 ht
    have hlt := h.next c (by rw [← hrest]; rfl)
    rw [utf8Len_append, utf8Len_cons] at hfits
    omega

/-- No longer part of the text to its end fits, where the character in front does not. -/
theorem suffix_of_fits {m : Str} {bound : ℕ} (hc : bound < c.utf8Size + utf8Len after)
    (ht : t <:+ m ++ c :: after) (hfits : utf8Len t ≤ bound) : t <:+ after := by
  have hafter : after <:+ m ++ c :: after :=
    (suffix_cons c after).trans (suffix_append m (c :: after))
  rcases suffix_or_suffix_of_suffix ht hafter with hle | ⟨u, rfl⟩
  · exact hle
  rcases eq_nil_or_concat u with rfl | ⟨u, d, rfl⟩
  · exact suffix_refl after
  · obtain ⟨m', hm⟩ := ht
    have heq : m' ++ u ++ d :: after = m ++ c :: after := by
      rw [← hm]
      simp only [concat_eq_append, List.append_assoc, cons_append, nil_append]
    have hlen := append_inj_right' heq rfl
    cases hlen
    rw [concat_eq_append, utf8Len_append, utf8Len_append, utf8Len_cons] at hfits
    omega

/-- **The two ends of a text that does not fit and what is between them.** -/
theorem exists_splitString {beginningBytes endBytes : ℕ}
    (hlong : beginningBytes + endBytes < utf8Len s) :
    ∃ before middle after, s = before ++ middle ++ after ∧
      splitString s beginningBytes endBytes = some (middle.length, before, after) ∧
      LongestPrefix beginningBytes before (middle ++ after) ∧
      utf8Len after ≤ endBytes ∧
      ∃ m c, middle = m ++ [c] ∧ endBytes < c.utf8Size + utf8Len after := by
  obtain ⟨before, rest, rfl, hbefore⟩ := exists_longestPrefix beginningBytes s
  have hle := hbefore.fits
  rw [utf8Len_append] at hlong
  obtain ⟨middle, after, rfl, hfold, hafter, hmiddle⟩ :=
    exists_foldl_rest (utf8Len (before ++ rest) - endBytes) hbefore.next
  rw [utf8Len_append] at hlong
  rw [utf8Len_append, utf8Len_append] at hafter hmiddle
  have hfits : utf8Len after ≤ endBytes := by
    by_cases hnil : after = []
    · rw [hnil]
      exact Nat.zero_le endBytes
    · have htarget := hafter hnil
      omega
  have hne : (before ++ (middle ++ after)).isEmpty = false := by
    refine isEmpty_eq_false_iff.2 fun h => ?_
    rw [← utf8Len_append, ← utf8Len_append, h] at hlong
    exact absurd hlong (Nat.not_lt_zero _)
  refine ⟨before, middle, after, (List.append_assoc before middle after).symm, ?_, hbefore, hfits,
    ?_⟩
  · have hscan : (charIndices 0 (before ++ (middle ++ after))).foldl
        (SplitScan.step beginningBytes (utf8Len (before ++ (middle ++ after)) - endBytes))
        { suffixStart := utf8Len (before ++ (middle ++ after)) } =
        { prefixEnd := utf8Len before
          suffixStart := utf8Len before + utf8Len middle
          removedChars := middle.length
          suffixStarted := !after.isEmpty } := by
      rw [charIndices_append, foldl_append, foldl_before before _ (by omega), Nat.zero_add]
      split
      · next hnil =>
        rw [hfold _ rfl (utf8Len_append _ _), hnil, Nat.zero_add]
        rfl
      · rw [hfold _ rfl (utf8Len_append _ _), Nat.zero_add]
    have hto : sliceTo (before ++ (middle ++ after)) (utf8Len before) = some before := by
      rw [sliceTo, splitAtByte_eq_some.2 ⟨rfl, rfl⟩]
      rfl
    have hfrom : sliceFrom (before ++ (middle ++ after)) (utf8Len before + utf8Len middle) =
        some after := by
      rw [sliceFrom, ← List.append_assoc, ← utf8Len_append, splitAtByte_eq_some.2 ⟨rfl, rfl⟩]
      rfl
    unfold splitString
    rw [hne, if_neg Bool.false_ne_true]
    dsimp only
    rw [hscan, if_neg (Nat.not_lt.2 (Nat.le_add_right _ _)), hto, hfrom]
    rfl
  · rcases eq_nil_or_concat middle with rfl | ⟨m, c, rfl⟩
    · have hzero : utf8Len [] = 0 := rfl
      omega
    · rw [concat_eq_append] at hlong hmiddle ⊢
      have hlt := hmiddle m c rfl
      refine ⟨m, c, rfl, ?_⟩
      rw [utf8Len_append, utf8Len_cons, show utf8Len [] = 0 from rfl] at hlong hlt
      omega

/-! ## What is kept and what is counted -/

/-- **A text over its budget keeps its longest ends that fit, and the marker counts the characters
between them.** -/
theorem truncateWithByteEstimate_eq {maxBytes : ℕ} (hpos : 0 < maxBytes)
    (hlong : maxBytes < utf8Len s) :
    ∃ before middle after, s = before ++ middle ++ after ∧
      (∀ useTokens, truncateWithByteEstimate s maxBytes useTokens =
        some (before ++ formatTruncationMarker useTokens
          (removedUnits useTokens (utf8Len s - maxBytes) middle.length) ++ after)) ∧
      truncateMiddleChars s maxBytes =
        some (before ++ ('…' :: Nat.toDigits 10 middle.length ++ " chars truncated…".toList) ++
          after) ∧
      (utf8Len before ≤ maxBytes / 2 ∧
        ∀ t, t <+: s → utf8Len t ≤ maxBytes / 2 → t <+: before) ∧
      utf8Len after ≤ maxBytes - maxBytes / 2 ∧
      ∀ t, t <:+ s → utf8Len t ≤ maxBytes - maxBytes / 2 → t <:+ after := by
  obtain ⟨before, middle, after, hs, hsplit, hbefore, hafter, m, c, hmiddle, hc⟩ :=
    exists_splitString (s := s) (show maxBytes / 2 + (maxBytes - maxBytes / 2) < utf8Len s by omega)
  have hestimate : ∀ useTokens, truncateWithByteEstimate s maxBytes useTokens =
      some (before ++ formatTruncationMarker useTokens
        (removedUnits useTokens (utf8Len s - maxBytes) middle.length) ++ after) := by
    intro useTokens
    have hne : s.isEmpty = false := by
      refine isEmpty_eq_false_iff.2 fun h => ?_
      rw [h] at hlong
      exact absurd hlong (Nat.not_lt_zero _)
    unfold truncateWithByteEstimate
    rw [hne, if_neg Bool.false_ne_true]
    dsimp only
    rw [if_neg (by omega), if_neg (by omega), splitBudget]
    dsimp only
    rw [hsplit]
    rfl
  refine ⟨before, middle, after, hs, hestimate, hestimate false, ⟨hbefore.fits, ?_⟩, hafter, ?_⟩
  · intro t ht hfits
    rw [hs, List.append_assoc] at ht
    exact hbefore.prefix_of_fits ht hfits
  · intro t ht hfits
    rw [hs, hmiddle, ← List.append_assoc, List.append_assoc] at ht
    exact suffix_of_fits hc ht hfits

/-- Wide characters at both edges of the budget. -/
theorem truncateWithByteEstimate_eq_emoji :
    ∃ before middle after, "a😀😀é😀".toList = before ++ middle ++ after ∧
      truncateMiddleChars "a😀😀é😀".toList 7 =
        some (before ++ ('…' :: Nat.toDigits 10 middle.length ++ " chars truncated…".toList) ++
          after) ∧
      truncateMiddleChars "a😀😀é😀".toList 7 = some "a…3 chars truncated…😀".toList := by
  obtain ⟨before, middle, after, hs, -, hchars, -⟩ :=
    truncateWithByteEstimate_eq (show 0 < 7 by decide)
      (show 7 < utf8Len "a😀😀é😀".toList by decide)
  exact ⟨before, middle, after, hs, hchars, by decide +kernel⟩

end Codex.Truncation
