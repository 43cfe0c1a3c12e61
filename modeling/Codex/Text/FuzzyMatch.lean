import Codex.Text.Str
import Mathlib.Data.List.Chain
import Mathlib.Data.List.Destutter
import Mathlib.Data.List.Enum
import Mathlib.Data.List.Flatten
import Mathlib.Data.List.Sort

/-!
# Fuzzy matching

`fuzzy_match` (`utils/fuzzy-match`) looks for the needle as a subsequence of the
haystack, both in lower case. The haystack is lowercased character by character, the
needle as a string, and these differ at a capital sigma that ends a word. The search
itself is complete (`isSome_scanNeedle`), so a needle taken from the haystack is
missed exactly when such a sigma has no final sigma to meet (`fuzzyMatch_iff`).
-/

namespace Codex.Text

open List

/-! ## Lower case -/

/-- What the standard library knows of characters. -/
structure CaseTables where
  toLowercase : Char → List Char
  isCased : Char → Bool
  isCaseIgnorable : Char → Bool
  toLowercase_sigma : toLowercase 'Σ' = ['σ']
  toLowercase_finalSigma : toLowercase 'ς' = ['ς']

namespace CaseTables

variable (tables : CaseTables)

def caseIgnorableThenCased (s : Str) : Bool :=
  (s.dropWhile tables.isCaseIgnorable).head?.any tables.isCased

/-- The condition `Final_Sigma`, on the reversed text before the sigma and the text behind it. -/
def isWordFinal (before after : Str) : Bool :=
  tables.caseIgnorableThenCased before && !tables.caseIgnorableThenCased after

def mapUppercaseSigma (before after : Str) : Char := if tables.isWordFinal before after then 'ς' else 'σ'

def lowercaseFrom (before : Str) : Str → Str
  | [] => []
  | c :: after =>
    (if c = 'Σ' then [tables.mapUppercaseSigma before after] else tables.toLowercase c) ++
      lowercaseFrom (c :: before) after

/-- `str::to_lowercase`. -/
def strToLowercase (s : Str) : Str := tables.lowercaseFrom [] s

/-- `chars().flat_map(char::to_lowercase)`. -/
def charsToLowercase (s : Str) : Str := s.flatMap tables.toLowercase

end CaseTables

/-! ## Model -/

/-- `lowered_chars` beside `lowered_to_orig_char_idx`. -/
def loweredChars (tables : CaseTables) (haystack : Str) : List (Char × ℕ) :=
  haystack.zipIdx.flatMap fun (ch, origIdx) => (tables.toLowercase ch).map fun lc => (lc, origIdx)

/-- The scan from position `cur`, where `rest` is what is left there: for each character of the
needle the position of its hit and the index in the haystack. -/
def scanNeedle : List Char → ℕ → List (Char × ℕ) → Option (List (ℕ × ℕ))
  | [], _, _ => some []
  | _ :: _, _, [] => none
  | nc :: needle, cur, (lc, origIdx) :: rest =>
    if lc = nc then (scanNeedle needle (cur + 1) rest).map ((cur, origIdx) :: ·)
    else scanNeedle (nc :: needle) (cur + 1) rest

/-- Positions are cast to `i32`, and the arithmetic wraps. -/
def matchScore (firstLowerPos lastLowerPos needleLen : ℕ) : Int32 :=
  let window := (Int32.ofNat lastLowerPos - Int32.ofNat firstLowerPos + 1) - Int32.ofNat needleLen
  let score := if window < 0 then 0 else window
  if firstLowerPos = 0 then score - 100 else score

def fuzzyMatch (tables : CaseTables) (haystack needle : Str) : Option (List ℕ × Int32) :=
  if needle = [] then some ([], Int32.maxValue)
  else
    let lowered := loweredChars tables haystack
    let loweredNeedle := tables.strToLowercase needle
    (scanNeedle loweredNeedle 0 lowered).map fun hits =>
      let resultOrigIndices := hits.map Prod.snd
      let firstLowerPos := match resultOrigIndices.head? with
        | some targetOrig => ((lowered.map Prod.snd).findIdx? (· = targetOrig)).getD 0
        | none => 0
      let lastLowerPos := (hits.getLast?.map Prod.fst).getD firstLowerPos
      ((resultOrigIndices.insertionSort (· ≤ ·)).destutter (· ≠ ·),
        matchScore firstLowerPos lastLowerPos loweredNeedle.length)

/-! ## Sigmas -/

section
variable (tables : CaseTables)

/-- A text with the word-final ones among its capital sigmas made final sigmas. -/
def finalSigmasFrom (before : Str) : Str → Str
  | [] => []
  | c :: after =>
    (if c = 'Σ' ∧ tables.isWordFinal before after = true then 'ς' else c) ::
      finalSigmasFrom (c :: before) after

def finalSigmas (s : Str) : Str := finalSigmasFrom tables [] s

/-- A subsequence up to case, character by character. -/
def SubsequenceUpToCase (needle haystack : Str) : Prop :=
  (tables.charsToLowercase needle).Sublist (tables.charsToLowercase haystack)

instance (needle haystack : Str) : Decidable (SubsequenceUpToCase tables needle haystack) :=
  inferInstanceAs (Decidable (List.Sublist _ _))

theorem lowercaseFrom_eq (before s : Str) :
    tables.lowercaseFrom before s = tables.charsToLowercase (finalSigmasFrom tables before s) := by
  induction s generalizing before with
  | nil => rfl
  | cons c after ih =>
    rw [CaseTables.lowercaseFrom, ih, finalSigmasFrom, CaseTables.charsToLowercase,
      CaseTables.charsToLowercase, flatMap_cons]
    congr 1
    by_cases hsigma : c = 'Σ'
    · subst hsigma
      unfold CaseTables.mapUppercaseSigma
      by_cases hfinal : tables.isWordFinal before after = true
      · rw [if_pos rfl, if_pos hfinal, if_pos ⟨rfl, hfinal⟩, tables.toLowercase_finalSigma]
      · rw [if_pos rfl, if_neg hfinal, if_neg fun h => hfinal h.2, tables.toLowercase_sigma]
    · rw [if_neg hsigma, if_neg fun h => hsigma h.1]

/-- The two ways of lowercasing differ by the final sigmas only. -/
theorem strToLowercase_eq (s : Str) :
    tables.strToLowercase s = tables.charsToLowercase (finalSigmas tables s) :=
  lowercaseFrom_eq tables [] s

end

/-! ## The search -/

variable {tables : CaseTables} {haystack needle : Str}

/-- The greedy scan finds every subsequence. -/
theorem isSome_scanNeedle (needle : List Char) (cur : ℕ) (rest : List (Char × ℕ)) :
    (scanNeedle needle cur rest).isSome ↔ needle.Sublist (rest.map Prod.fst) := by
  induction rest generalizing needle cur with
  | nil =>
    cases needle with
    | nil => simp [scanNeedle]
    | cons nc needle => simp [scanNeedle]
  | cons entry rest ih =>
    obtain ⟨lc, origIdx⟩ := entry
    cases needle with
    | nil => simp [scanNeedle]
    | cons nc needle =>
      unfold scanNeedle
      split
      · next h =>
        rw [Option.isSome_map, ih, map_cons, h, cons_sublist_cons]
      · next h =>
        rw [ih, map_cons]
        refine ⟨fun hrest => hrest.cons _, fun hsub => ?_⟩
        cases hsub with
        | cons _ hrest => exact hrest
        | cons_cons => exact absurd rfl h

theorem mem_of_scanNeedle {needle : List Char} {cur : ℕ} {rest : List (Char × ℕ)}
    {hits : List (ℕ × ℕ)} (h : scanNeedle needle cur rest = some hits) {origIdx : ℕ}
    (hmem : origIdx ∈ hits.map Prod.snd) : origIdx ∈ rest.map Prod.snd := by
  induction rest generalizing needle cur hits with
  | nil =>
    cases needle with
    | nil =>
      cases h
      exact hmem
    | cons nc needle => cases h
  | cons entry rest ih =>
    obtain ⟨lc, orig⟩ := entry
    cases needle with
    | nil =>
      cases h
      cases hmem
    | cons nc needle =>
      unfold scanNeedle at h
      split at h
      · obtain ⟨more, hmore, rfl⟩ := Option.map_eq_some_iff.1 h
        rcases mem_cons.1 hmem with rfl | hmem
        · exact mem_cons_self
        · exact mem_cons_of_mem _ (ih hmore hmem)
      · exact mem_cons_of_mem _ (ih h hmem)

theorem loweredChars_fst : (loweredChars tables haystack).map Prod.fst =
    tables.charsToLowercase haystack := by
  unfold loweredChars CaseTables.charsToLowercase
  rw [map_flatMap]
  simp only [map_map, Function.comp_def, map_id']
  rw [← flatMap_map Prod.fst, zipIdx_map_fst]

theorem loweredChars_snd_lt {origIdx : ℕ}
    (h : origIdx ∈ (loweredChars tables haystack).map Prod.snd) : origIdx < haystack.length := by
  obtain ⟨entry, hentry, rfl⟩ := mem_map.1 h
  obtain ⟨⟨ch, index⟩, hch, hmem⟩ := mem_flatMap.1 hentry
  obtain ⟨lc, -, rfl⟩ := mem_map.1 hmem
  exact snd_lt_of_mem_zipIdx hch

theorem isSome_fuzzyMatch (h : needle ≠ []) :
    (fuzzyMatch tables haystack needle).isSome ↔
      SubsequenceUpToCase tables (finalSigmas tables needle) haystack := by
  unfold fuzzyMatch
  rw [if_neg h, Option.isSome_map, isSome_scanNeedle, loweredChars_fst, strToLowercase_eq]
  rfl

/-- Sorting and dropping repetitions gives an increasing list. -/
theorem pairwise_destutter_sort (indices : List ℕ) :
    ((indices.insertionSort (· ≤ ·)).destutter (· ≠ ·)).Pairwise (· < ·) := by
  have hsorted : (indices.insertionSort (· ≤ ·)).Pairwise (· ≤ ·) :=
    pairwise_insertionSort _ _
  have hle := hsorted.sublist (destutter_sublist (· ≠ ·) _)
  have hne := isChain_destutter (· ≠ ·) (indices.insertionSort (· ≤ ·))
  rw [← isChain_iff_pairwise, isChain_iff_getElem] at hle
  rw [isChain_iff_getElem] at hne
  rw [← isChain_iff_pairwise, isChain_iff_getElem]
  exact fun i hi => Nat.lt_of_le_of_ne (hle i hi) (hne i hi)

theorem indices_of_fuzzyMatch {indices : List ℕ} {score : Int32}
    (h : fuzzyMatch tables haystack needle = some (indices, score)) :
    indices.Pairwise (· < ·) ∧ ∀ index ∈ indices, index < haystack.length := by
  unfold fuzzyMatch at h
  split at h
  · cases h
    exact ⟨List.Pairwise.nil, nofun⟩
  · obtain ⟨hits, hhits, heq⟩ := Option.map_eq_some_iff.1 h
    cases heq
    refine ⟨pairwise_destutter_sort _, fun index hindex => ?_⟩
    have hmem := (destutter_sublist (· ≠ ·) _).subset hindex
    rw [mem_insertionSort] at hmem
    exact loweredChars_snd_lt (mem_of_scanNeedle hhits hmem)

/-- **When a needle taken from the haystack is found**: no capital sigma ends a word in it, or the
haystack has final sigmas to meet those. The indices of any match are increasing and within the
haystack. -/
theorem fuzzyMatch_iff (tables : CaseTables) (haystack needle : Str) :
    (needle.Sublist haystack →
      ((fuzzyMatch tables haystack needle).isSome ↔
        finalSigmas tables needle = needle ∨
          SubsequenceUpToCase tables (finalSigmas tables needle) haystack)) ∧
    ∀ indices score, fuzzyMatch tables haystack needle = some (indices, score) →
      indices.Pairwise (· < ·) ∧ ∀ index ∈ indices, index < haystack.length := by
  refine ⟨fun hsub => ?_, fun _ _ => indices_of_fuzzyMatch⟩
  have hcase : SubsequenceUpToCase tables needle haystack := hsub.flatMap _
  by_cases hnil : needle = []
  · subst hnil
    exact ⟨fun _ => .inl rfl, fun _ => rfl⟩
  · rw [isSome_fuzzyMatch hnil]
    refine ⟨.inr, ?_⟩
    rintro (hsame | hfinal)
    · rwa [hsame]
    · exact hfinal

/-- The characters of a few Greek and Latin letters. -/
def greekTables : CaseTables where
  toLowercase c :=
    if c = 'Α' then ['α'] else if c = 'Σ' then ['σ'] else [c.toLower]
  isCased c := c.isAlpha || c ∈ ['Α', 'Σ', 'α', 'σ', 'ς']
  isCaseIgnorable c := c = '.' || c = ':'
  toLowercase_sigma := by decide
  toLowercase_finalSigma := by decide

/-- A capital sigma that ends the needle meets a final one of the haystack. -/
theorem fuzzyMatch_iff_finalSigma :
    (fuzzyMatch greekTables "ΑΣ ΑΣς".toList "ΑΣ".toList).isSome := by
  have hsub : "ΑΣ".toList.Sublist "ΑΣ ΑΣς".toList := by decide
  exact ((fuzzyMatch_iff greekTables _ _).1 hsub).2 (.inr (by decide +kernel))

/-- A word in capitals that ends in a sigma does not match itself. -/
theorem not_fuzzyMatch_self : ¬ ∀ haystack needle : Str, needle.Sublist haystack →
    (fuzzyMatch greekTables haystack needle).isSome := by
  intro h
  have hmatch := h "ΑΣ".toList "ΑΣ".toList (List.Sublist.refl _)
  exact absurd hmatch (by decide +kernel)

end Codex.Text
