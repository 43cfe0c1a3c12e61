import Codex.ApplyPatch.Replace
import Mathlib.Order.Bounds.Defs

/-!
# What `seek_sequence` promises

The documentation: four comparisons, of decreasing strictness, and strictness before
position; for the end of the file the last window first, and then the search from
`start`. The second search is missing: with `eof` the four passes look at the last
window only (`seekSequence_documented_iff`).
-/

namespace Codex.ApplyPatch

open List Codex.Text

variable {lines pattern : List Str} {start i : ℕ} {eof : Bool} {f : Str → Str}

/-! ## Windows that match -/

/-- How lines are read for a comparison, the strictest first. -/
def comparisons : List (Str → Str) := [id, trimEnd, trim, normalise]

/-- The window at `i` is in the file, and its lines are those of the pattern when both are read
through `f`. -/
def Matches (f : Str → Str) (lines pattern : List Str) (i : ℕ) : Prop :=
  i + pattern.length ≤ lines.length ∧
    ∀ k < pattern.length, (lines[i + k]?).map f = (pattern[k]?).map f

/-- One of the comparisons accepts the window at `i`. -/
def MatchesSome (lines pattern : List Str) (i : ℕ) : Prop :=
  ∃ f ∈ comparisons, Matches f lines pattern i

/-- Where the pattern would end with the file. -/
def lastWindow (lines pattern : List Str) : ℕ := lines.length - pattern.length

/-- The search from `start`: the first match of the strictest comparison that has one. -/
def Sought (lines pattern : List Str) (start : ℕ) : Option ℕ → Prop
  | none => ∀ f ∈ comparisons, ∀ j, start ≤ j → ¬Matches f lines pattern j
  | some i => ∃ stricter f laxer, comparisons = stricter ++ f :: laxer ∧
      IsLeast {j | start ≤ j ∧ Matches f lines pattern j} i ∧
      ∀ g ∈ stricter, ∀ j, start ≤ j → ¬Matches g lines pattern j

/-- What the documentation says of a result. -/
structure Documented (lines pattern : List Str) (start : ℕ) (eof : Bool) (result : Option ℕ) :
    Prop where
  window : ∀ i, result = some i → MatchesSome lines pattern i
  fromStart : eof = false → Sought lines pattern start result
  atEnd : eof = true → MatchesSome lines pattern (lastWindow lines pattern) →
    result = some (lastWindow lines pattern)
  fallsBack : eof = true → ¬MatchesSome lines pattern (lastWindow lines pattern) →
    Sought lines pattern start result

theorem matchesAt_iff (hne : pattern ≠ []) :
    matchesAt f lines pattern i = true ↔ Matches f lines pattern i := by
  have hpos := length_pos_iff.2 hne
  unfold matchesAt Matches
  rw [beq_iff_eq]
  constructor
  · intro heq
    have hlen := congrArg List.length heq
    simp only [length_map, length_take, length_drop] at hlen
    refine ⟨by omega, fun k hk => ?_⟩
    have hline := congrArg (·[k]?) heq
    simp only [getElem?_map, getElem?_take_of_lt hk, getElem?_drop] at hline
    exact hline
  · rintro ⟨hlen, hall⟩
    refine ext_getElem? fun k => ?_
    rw [getElem?_map, getElem?_map]
    rcases Nat.lt_or_ge k pattern.length with hk | hk
    · rw [getElem?_take_of_lt hk, getElem?_drop, hall k hk]
    · rw [getElem?_take_eq_none hk, getElem?_eq_none hk]

/-! ## One pass -/

theorem firstMatch_eq_some_iff (hne : pattern ≠ []) :
    firstMatch f lines pattern start = some i ↔
      IsLeast {j | start ≤ j ∧ Matches f lines pattern j} i := by
  unfold firstMatch
  rw [find?_range'_eq_some, matchesAt_iff hne, mem_range'_1]
  constructor
  · rintro ⟨hmatch, ⟨hle, -⟩, hbefore⟩
    refine ⟨⟨hle, hmatch⟩, fun j hj => ?_⟩
    by_contra hlt
    have hfalse := hbefore j hj.1 (Nat.not_le.1 hlt)
    rw [(matchesAt_iff hne).2 hj.2] at hfalse
    cases hfalse
  · rintro ⟨⟨hle, hmatch⟩, hleast⟩
    have hend := hmatch.1
    refine ⟨hmatch, ⟨hle, by omega⟩, fun j hj hlt => ?_⟩
    rw [Bool.not_eq_true']
    by_contra htrue
    rw [Bool.not_eq_false, matchesAt_iff hne] at htrue
    exact Nat.not_lt.2 (hleast ⟨hj, htrue⟩) hlt

theorem firstMatch_eq_none_iff (hne : pattern ≠ []) :
    firstMatch f lines pattern start = none ↔ ∀ j, start ≤ j → ¬Matches f lines pattern j := by
  constructor
  · intro hnone j hj hmatch
    unfold firstMatch at hnone
    have hend := hmatch.1
    have hfalse := find?_range'_eq_none.1 hnone j hj (by omega)
    rw [(matchesAt_iff hne).2 hmatch] at hfalse
    cases hfalse
  · intro hall
    rw [Option.eq_none_iff_forall_ne_some]
    intro i hsome
    obtain ⟨⟨hle, hmatch⟩, -⟩ := (firstMatch_eq_some_iff hne).1 hsome
    exact hall i hle hmatch

/-! ## The four passes -/

/-- The passes over the windows from `start` on. -/
def seekFrom (lines pattern : List Str) (start : ℕ) : Option ℕ :=
  comparisons.findSome? fun f => firstMatch f lines pattern start

theorem sought_seekFrom (lines : List Str) (hne : pattern ≠ []) (start : ℕ) :
    Sought lines pattern start (seekFrom lines pattern start) := by
  generalize hresult : seekFrom lines pattern start = result
  cases result with
  | none =>
    intro f hf
    exact (firstMatch_eq_none_iff hne).1 (findSome?_eq_none_iff.1 hresult f hf)
  | some i =>
    obtain ⟨stricter, f, laxer, hsplit, hfound, hbefore⟩ := findSome?_eq_some_iff.1 hresult
    refine ⟨stricter, f, laxer, hsplit, (firstMatch_eq_some_iff hne).1 hfound, fun g hg => ?_⟩
    exact (firstMatch_eq_none_iff hne).1 (hbefore g hg)

theorem matchesSome_of_sought (h : Sought lines pattern start (some i)) :
    start ≤ i ∧ MatchesSome lines pattern i := by
  obtain ⟨stricter, f, laxer, hsplit, hleast, -⟩ := h
  have hmem : f ∈ comparisons := by
    rw [hsplit]
    exact mem_append_right _ mem_cons_self
  exact ⟨hleast.1.1, f, hmem, hleast.1.2⟩

theorem le_lastWindow (h : MatchesSome lines pattern i) : i ≤ lastWindow lines pattern := by
  obtain ⟨f, -, hend, -⟩ := h
  unfold lastWindow
  omega

/-- The last window is the only one from there on. -/
theorem seekFrom_lastWindow (hne : pattern ≠ []) :
    seekFrom lines pattern (lastWindow lines pattern) = some (lastWindow lines pattern) ↔
      MatchesSome lines pattern (lastWindow lines pattern) := by
  have hsought := sought_seekFrom lines hne (lastWindow lines pattern)
  constructor
  · intro hfound
    rw [hfound] at hsought
    exact (matchesSome_of_sought hsought).2
  · rintro ⟨f, hf, hmatch⟩
    cases hfound : seekFrom lines pattern (lastWindow lines pattern) with
    | none =>
      rw [hfound] at hsought
      exact absurd hmatch (hsought f hf _ le_rfl)
    | some i =>
      rw [hfound] at hsought
      obtain ⟨hle, hsome⟩ := matchesSome_of_sought hsought
      rw [Nat.le_antisymm (le_lastWindow hsome) hle]

theorem seekFrom_lastWindow_of_not (hne : pattern ≠ [])
    (hnot : ¬MatchesSome lines pattern (lastWindow lines pattern)) :
    seekFrom lines pattern (lastWindow lines pattern) = none := by
  have hsought := sought_seekFrom lines hne (lastWindow lines pattern)
  rw [Option.eq_none_iff_forall_ne_some]
  intro i hfound
  rw [hfound] at hsought
  obtain ⟨hle, hsome⟩ := matchesSome_of_sought hsought
  exact hnot (Nat.le_antisymm (le_lastWindow hsome) hle ▸ hsome)

theorem findSome?_cons_orElse {α β : Type} (g : α → Option β) (a : α) (l : List α) :
    (a :: l).findSome? g = (g a <|> l.findSome? g) := by
  rw [findSome?_cons]
  cases g a <;> rfl

/-- With `eof` the passes start at the last window. -/
theorem seekSequence_eq (hne : pattern ≠ []) (start : ℕ) (eof : Bool) :
    seekSequence lines pattern start eof =
      seekFrom lines pattern (if eof then lastWindow lines pattern else start) := by
  unfold seekSequence
  rw [if_neg (by rwa [List.isEmpty_iff])]
  split
  · next hlong =>
    refine (findSome?_eq_none_iff.2 fun f _ => ?_).symm
    refine (firstMatch_eq_none_iff hne).2 fun j _ hmatch => ?_
    have hend := hmatch.1
    omega
  · next hfits =>
    rw [decide_eq_true (Nat.not_lt.1 hfits), Bool.and_true]
    unfold seekFrom comparisons
    rw [findSome?_cons_orElse, findSome?_cons_orElse, findSome?_cons_orElse, findSome?_singleton]
    rfl

/-! ## Parts of the file -/

theorem matches_take {m : ℕ} :
    Matches f (lines.take m) pattern i ↔ Matches f lines pattern i ∧ i + pattern.length ≤ m := by
  have hline : i + pattern.length ≤ m → ∀ k < pattern.length, (lines.take m)[i + k]? = lines[i + k]? :=
    fun hle k hk => getElem?_take_of_lt (by omega)
  unfold Matches
  rw [length_take]
  constructor
  · rintro ⟨hend, hall⟩
    have hle : i + pattern.length ≤ m := by omega
    refine ⟨⟨by omega, fun k hk => ?_⟩, hle⟩
    rw [← hline hle k hk]
    exact hall k hk
  · rintro ⟨⟨hend, hall⟩, hle⟩
    refine ⟨by omega, fun k hk => ?_⟩
    rw [hline hle k hk]
    exact hall k hk

theorem matches_drop (hne : pattern ≠ []) {m : ℕ} :
    Matches f (lines.drop m) pattern i ↔ Matches f lines pattern (m + i) := by
  have hpos := length_pos_iff.2 hne
  unfold Matches
  simp only [length_drop, getElem?_drop, Nat.add_assoc]
  refine and_congr_left' ?_
  omega

/-- A match in a file is found in the lines up to `m` exactly when it ends there. -/
theorem seekFrom_take_iff (hne : pattern ≠ []) {m : ℕ} (h : seekFrom lines pattern start = some i) :
    seekFrom (lines.take m) pattern start = some i ↔ i + pattern.length ≤ m := by
  constructor
  · intro hfound
    have hsought := sought_seekFrom (lines.take m) hne start
    rw [hfound] at hsought
    obtain ⟨-, g, -, hmatch⟩ := matchesSome_of_sought hsought
    exact (matches_take.1 hmatch).2
  · intro hle
    obtain ⟨stricter, g, laxer, hsplit, hfound, hbefore⟩ := findSome?_eq_some_iff.1 h
    obtain ⟨⟨hstart, hmatch⟩, hleast⟩ := (firstMatch_eq_some_iff hne).1 hfound
    refine findSome?_eq_some_iff.2 ⟨stricter, g, laxer, hsplit, ?_, fun g' hg' => ?_⟩
    · refine (firstMatch_eq_some_iff hne).2 ⟨⟨hstart, matches_take.2 ⟨hmatch, hle⟩⟩, fun j hj => ?_⟩
      exact hleast ⟨hj.1, (matches_take.1 hj.2).1⟩
    · refine (firstMatch_eq_none_iff hne).2 fun j hj hmatch' => ?_
      exact (firstMatch_eq_none_iff hne).1 (hbefore g' hg') j hj (matches_take.1 hmatch').1

/-- Lines that stand at the end of a file stand at the end of the lines from `m` on exactly when
these are enough. -/
theorem seekSequence_drop_isSome_iff (hne : pattern ≠ []) {m : ℕ}
    (h : seekSequence lines pattern start true = some i) :
    (seekSequence (lines.drop m) pattern 0 true).isSome = true ↔
      m + pattern.length ≤ lines.length := by
  have hpos := length_pos_iff.2 hne
  have hend : MatchesSome lines pattern (lastWindow lines pattern) := by
    by_contra hnot
    rw [seekSequence_eq hne, if_pos rfl, seekFrom_lastWindow_of_not hne hnot] at h
    cases h
  have hpart : (seekSequence (lines.drop m) pattern 0 true).isSome = true ↔
      MatchesSome (lines.drop m) pattern (lastWindow (lines.drop m) pattern) := by
    rw [seekSequence_eq hne, if_pos rfl]
    constructor
    · intro hsome
      by_contra hnot
      rw [seekFrom_lastWindow_of_not hne hnot] at hsome
      cases hsome
    · intro hmatch
      rw [(seekFrom_lastWindow hne).2 hmatch]
      rfl
  rw [hpart]
  constructor
  · rintro ⟨g, -, hfits, -⟩
    rw [length_drop] at hfits
    omega
  · intro hle
    obtain ⟨g, hg, hmatch⟩ := hend
    refine ⟨g, hg, (matches_drop hne).2 ?_⟩
    have hplace : m + lastWindow (lines.drop m) pattern = lastWindow lines pattern := by
      unfold lastWindow
      rw [length_drop]
      omega
    rw [hplace]
    exact hmatch

/-! ## The documentation -/

/-- **The documentation is met** unless the pattern is sought at the end of the file, is not there,
and is elsewhere from `start` on. -/
theorem seekSequence_documented_iff (hne : pattern ≠ []) :
    Documented lines pattern start eof (seekSequence lines pattern start eof) ↔
      ¬(eof = true ∧ ¬MatchesSome lines pattern (lastWindow lines pattern) ∧
        ∃ j, start ≤ j ∧ MatchesSome lines pattern j) := by
  rw [seekSequence_eq hne]
  constructor
  · rintro hdoc ⟨heof, hnot, j, hj, f, hf, hmatch⟩
    have hsought := hdoc.fallsBack heof hnot
    rw [if_pos heof, seekFrom_lastWindow_of_not hne hnot] at hsought
    exact hsought f hf j hj hmatch
  · intro hcond
    have hsought := sought_seekFrom lines hne
      (if eof = true then lastWindow lines pattern else start)
    refine ⟨fun i hfound => ?_, fun heof => ?_, fun heof hmatch => ?_, fun heof hnot => ?_⟩
    · rw [hfound] at hsought
      exact (matchesSome_of_sought hsought).2
    · rw [heof, if_neg Bool.false_ne_true] at hsought ⊢
      exact hsought
    · rw [if_pos heof]
      exact (seekFrom_lastWindow hne).2 hmatch
    · rw [if_pos heof, seekFrom_lastWindow_of_not hne hnot]
      intro f hf j hj hmatch
      exact hcond ⟨heof, hnot, j, hj, f, hf, hmatch⟩

/-- The last line is preferred to the first, although only its trailing blank makes it differ. -/
theorem seekSequence_documented_last :
    Documented ["b".toList, "a".toList, "b ".toList] ["b".toList] 0 true (some 2) ∧
      seekSequence ["b".toList, "a".toList, "b ".toList] ["b".toList] 0 true = some 2 := by
  have hresult : seekSequence ["b".toList, "a".toList, "b ".toList] ["b".toList] 0 true = some 2 := by
    decide +kernel
  refine ⟨hresult ▸ (seekSequence_documented_iff (cons_ne_nil _ _)).2 fun hmisses => ?_, hresult⟩
  have hmatch : matchesAt trimEnd ["b".toList, "a".toList, "b ".toList] ["b".toList] 2 = true := by
    decide +kernel
  exact hmisses.2.1 ⟨trimEnd, by simp [comparisons], (matchesAt_iff (cons_ne_nil _ _)).1 hmatch⟩

/-- The first of two lines, sought for the end of the file, is not found. -/
theorem seek_for_eof_misses :
    ¬∀ (lines pattern : List Str) (start : ℕ) (eof : Bool), pattern ≠ [] →
      Documented lines pattern start eof (seekSequence lines pattern start eof) := by
  intro hall
  have hdoc := hall ["a".toList, "b".toList] ["a".toList] 0 true (cons_ne_nil _ _)
  have hnone : seekSequence ["a".toList, "b".toList] ["a".toList] 0 true = none := by decide +kernel
  rw [hnone] at hdoc
  have hlast : ¬MatchesSome ["a".toList, "b".toList] ["a".toList]
      (lastWindow ["a".toList, "b".toList] ["a".toList]) := by
    intro hmatch
    cases hdoc.atEnd rfl hmatch
  have hfirst : matchesAt id ["a".toList, "b".toList] ["a".toList] 0 = true := by decide +kernel
  exact hdoc.fallsBack rfl hlast id mem_cons_self 0 le_rfl
    ((matchesAt_iff (cons_ne_nil _ _)).1 hfirst)

end Codex.ApplyPatch
