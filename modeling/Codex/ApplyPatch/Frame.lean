import Codex.ApplyPatch.Windows

/-!
# What an update leaves alone

The replacements are applied from the last to the first. Where their windows are disjoint, the
result is the file with each window replaced (`applyReplacements_eq_splice`), and all other lines
are kept. The text that is written is that result, except that a blank last line is taken for the
newline that ends the file, and is lost (`update_frame_iff`).
-/

namespace Codex.ApplyPatch

open Codex.Text

variable {lines : List Str} {r : Replacement} {replacements : List Replacement} {pos : ℕ}

/-! ## The file with its windows replaced -/

/-- The lines from line `pos` on, with the windows replaced. -/
def splice : ℕ → List Str → List Replacement → List Str
  | _, lines, [] => lines
  | pos, lines, r :: replacements =>
    lines.take (r.startIndex - pos) ++ r.newLines ++
      splice r.stop (lines.drop (r.stop - pos)) replacements

theorem splice_cons (pos : ℕ) (lines : List Str) (r : Replacement)
    (replacements : List Replacement) :
    splice pos lines (r :: replacements) = lines.take (r.startIndex - pos) ++ r.newLines ++
      splice r.stop (lines.drop (r.stop - pos)) replacements := rfl

/-- The lines from line `pos` on that are in no window. -/
def outside : ℕ → List Str → List Replacement → List Str
  | _, lines, [] => lines
  | pos, lines, r :: replacements =>
    lines.take (r.startIndex - pos) ++ outside r.stop (lines.drop (r.stop - pos)) replacements

/-- The lines outside the windows are kept in their order. -/
theorem outside_sublist_splice (pos : ℕ) (lines : List Str) (replacements : List Replacement) :
    (outside pos lines replacements).Sublist (splice pos lines replacements) := by
  induction replacements generalizing pos lines with
  | nil => exact List.Sublist.refl lines
  | cons r replacements ih =>
    have hkept := (List.sublist_append_left (lines.take (r.startIndex - pos)) r.newLines)
    exact hkept.append (ih r.stop (lines.drop (r.stop - pos)))

/-- Lines before the first window are as they were. -/
theorem splice_eq_take_append {k : ℕ} (hpos : pos ≤ k)
    (hstart : ∀ r ∈ replacements, k ≤ r.startIndex) :
    splice pos lines replacements =
      lines.take (k - pos) ++ splice k (lines.drop (k - pos)) replacements := by
  cases replacements with
  | nil => exact (List.take_append_drop _ _).symm
  | cons r replacements =>
    have hle := hstart r List.mem_cons_self
    have hstop : r.startIndex ≤ r.stop := Nat.le_add_right _ _
    have htake : lines.take (r.startIndex - pos) =
        lines.take (k - pos) ++ (lines.drop (k - pos)).take (r.startIndex - k) := by
      rw [← List.take_add]
      congr 1
      omega
    have hdrop : lines.drop (r.stop - pos) = (lines.drop (k - pos)).drop (r.stop - k) := by
      rw [List.drop_drop]
      congr 1
      omega
    rw [splice_cons, splice_cons, htake, hdrop, List.append_assoc, List.append_assoc,
      List.append_assoc]

/-! ## Applying the replacements -/

theorem removeLines_append (before window after : List Str) :
    removeLines (before ++ (window ++ after)) before.length window.length = before ++ after := by
  induction window with
  | nil => rfl
  | cons line window ih =>
    rw [List.length_cons, removeLines, List.eraseIdx_append_of_length_le le_rfl, Nat.sub_self]
    exact ih

theorem insertIdx_append_length (before after : List Str) (line : Str) :
    (before ++ after).insertIdx before.length line = before ++ line :: after := by
  induction before with
  | nil => rfl
  | cons first before ih => rw [List.cons_append, List.length_cons, List.insertIdx_succ_cons, ih,
      List.cons_append]

theorem insertLines_append (before newLines after : List Str) :
    insertLines (before ++ after) before.length newLines = .ok (before ++ (newLines ++ after)) := by
  induction newLines generalizing before with
  | nil => rfl
  | cons line newLines ih =>
    have hle : before.length ≤ (before ++ after).length := by
      rw [List.length_append]
      omega
    have hinsert : (before ++ after).insertIdx before.length line = (before ++ [line]) ++ after := by
      rw [insertIdx_append_length, List.append_assoc]
      rfl
    rw [insertLines, if_pos hle, hinsert]
    have hlen : before.length + 1 = (before ++ [line]).length := by simp
    rw [hlen, ih (before ++ [line]), List.append_assoc]
    rfl

/-- One replacement, in lines of which those behind the window do not matter. -/
theorem applyReplacement_append (tail : List Str) (h : r.stop ≤ lines.length) :
    applyReplacement (lines.take r.stop ++ tail) r =
      .ok (lines.take r.startIndex ++ (r.newLines ++ tail)) := by
  have hstart : r.startIndex ≤ lines.length := (Nat.le_add_right _ _).trans h
  have hwindow : lines.take r.stop =
      lines.take r.startIndex ++ (lines.drop r.startIndex).take r.oldLen := List.take_add
  have hbefore : (lines.take r.startIndex).length = r.startIndex := by
    rw [List.length_take]
    omega
  have hlen : ((lines.drop r.startIndex).take r.oldLen).length = r.oldLen := by
    unfold Replacement.stop at h
    rw [List.length_take, List.length_drop]
    omega
  have hremove := removeLines_append (lines.take r.startIndex)
    ((lines.drop r.startIndex).take r.oldLen) tail
  have hinsert := insertLines_append (lines.take r.startIndex) r.newLines tail
  rw [hbefore, hlen] at hremove
  rw [hbefore] at hinsert
  unfold applyReplacement
  rw [hwindow, List.append_assoc, hremove, hinsert]

/-- **Disjoint replacements** give the file with its windows replaced. -/
theorem applyReplacements_eq_splice (hdisjoint : replacements.Pairwise Replacement.Before)
    (hstop : ∀ r ∈ replacements, r.stop ≤ lines.length) :
    applyReplacements lines replacements = .ok (splice 0 lines replacements) := by
  induction replacements with
  | nil => rfl
  | cons r replacements ih =>
    obtain ⟨hbefore, hdisjoint⟩ := List.pairwise_cons.1 hdisjoint
    obtain ⟨hr, hstop⟩ := List.forall_mem_cons.1 hstop
    have hlater : applyReplacements lines (r :: replacements) =
        applyReplacements lines replacements >>= fun lines => applyReplacement lines r := by
      unfold applyReplacements
      rw [List.reverse_cons, List.foldlM_append]
      cases replacements.reverse.foldlM applyReplacement lines with
      | error e => rfl
      | ok lines =>
        show applyReplacement lines r >>= pure = applyReplacement lines r
        exact bind_pure _
    rw [hlater, ih hdisjoint hstop, ok_bind,
      splice_eq_take_append (Nat.zero_le r.stop) hbefore, Nat.sub_zero,
      applyReplacement_append _ hr]
    rw [splice_cons, Nat.sub_zero, Nat.sub_zero, List.append_assoc]

/-! ## The segments between the windows -/

/-- The lines of the window. -/
def Replacement.window (lines : List Str) (r : Replacement) : List Str :=
  (lines.drop r.startIndex).take r.oldLen

/-- The untouched lines before each window, from the end of the window before on. -/
def segments (pos : ℕ) (lines : List Str) (replacements : List Replacement) : List (List Str) :=
  List.zipWith (fun pos r => (lines.take r.startIndex).drop pos)
    (pos :: replacements.map Replacement.stop) replacements

/-- The untouched segments from line `pos` on, with the text of each replacement between them. -/
def withTexts (text : Replacement → List Str) (pos : ℕ) (lines : List Str)
    (replacements : List Replacement) : List Str :=
  (List.zipWith (· ++ ·) (segments pos lines replacements) (replacements.map text)).flatten ++
    lines.drop ((replacements.map Replacement.stop).getLastD pos)

theorem withTexts_cons (text : Replacement → List Str) (pos : ℕ) (lines : List Str)
    (r : Replacement) (replacements : List Replacement) :
    withTexts text pos lines (r :: replacements) =
      (lines.take r.startIndex).drop pos ++ text r ++
        withTexts text r.stop lines replacements := by
  rw [withTexts, segments, List.map_cons, List.map_cons, List.zipWith_cons_cons,
    List.zipWith_cons_cons, List.flatten_cons, List.getLastD_cons, List.append_assoc]
  rfl

/-- With the windows themselves between the segments, these are the lines. -/
theorem withTexts_window (hdisjoint : replacements.Pairwise Replacement.Before)
    (hstart : ∀ r ∈ replacements, pos ≤ r.startIndex) :
    withTexts (Replacement.window lines) pos lines replacements = lines.drop pos := by
  induction replacements generalizing pos with
  | nil => rfl
  | cons r replacements ih =>
    obtain ⟨hbefore, hdisjoint⟩ := List.pairwise_cons.1 hdisjoint
    have hle := hstart r List.mem_cons_self
    have hwindow : r.window lines ++ lines.drop r.stop = lines.drop r.startIndex := by
      unfold Replacement.window Replacement.stop
      rw [← List.drop_drop, List.take_append_drop]
    have hsegment : (lines.take r.startIndex).drop pos ++ lines.drop r.startIndex =
        lines.drop pos := by
      have hsplit : lines.drop r.startIndex = (lines.drop pos).drop (r.startIndex - pos) := by
        rw [List.drop_drop]
        congr 1
        omega
      rw [List.drop_take, hsplit, List.take_append_drop]
    rw [withTexts_cons, ih hdisjoint hbefore, List.append_assoc, hwindow, hsegment]

/-- With the new lines between the segments, these are the lines with their windows replaced. -/
theorem withTexts_newLines (hdisjoint : replacements.Pairwise Replacement.Before)
    (hstart : ∀ r ∈ replacements, pos ≤ r.startIndex) :
    withTexts Replacement.newLines pos lines replacements =
      splice pos (lines.drop pos) replacements := by
  induction replacements generalizing pos with
  | nil => rfl
  | cons r replacements ih =>
    obtain ⟨hbefore, hdisjoint⟩ := List.pairwise_cons.1 hdisjoint
    have hle := hstart r List.mem_cons_self
    have hstop : r.startIndex ≤ r.stop := Nat.le_add_right _ _
    have hdrop : (lines.drop pos).drop (r.stop - pos) = lines.drop r.stop := by
      rw [List.drop_drop]
      congr 1
      omega
    rw [withTexts_cons, ih hdisjoint hbefore, splice_cons, hdrop, List.drop_take]

/-! ## Insertions at one line -/

/-- A list of replacements can be spliced in two parts, at a line between their windows. -/
theorem splice_append {k : ℕ} {before after : List Replacement} (hpos : pos ≤ k)
    (hdisjoint : (before ++ after).Pairwise Replacement.Before)
    (hbefore : ∀ r ∈ before, pos ≤ r.startIndex ∧ r.stop ≤ k)
    (hafter : ∀ r ∈ after, k ≤ r.startIndex) :
    splice pos lines (before ++ after) =
      splice pos (lines.take (k - pos)) before ++ splice k (lines.drop (k - pos)) after := by
  induction before generalizing pos lines with
  | nil => exact splice_eq_take_append hpos hafter
  | cons r before ih =>
    rw [List.cons_append, List.pairwise_cons] at hdisjoint
    obtain ⟨hr, hdisjoint⟩ := hdisjoint
    obtain ⟨⟨hstart, hstop⟩, hbefore⟩ := List.forall_mem_cons.1 hbefore
    have hle : r.startIndex ≤ r.stop := Nat.le_add_right _ _
    have hrest : ∀ r' ∈ before, r.stop ≤ r'.startIndex ∧ r'.stop ≤ k := fun r' hr' =>
      ⟨hr r' (List.mem_append_left _ hr'), (hbefore r' hr').2⟩
    have htake : (lines.take (k - pos)).take (r.startIndex - pos) =
        lines.take (r.startIndex - pos) := by
      rw [List.take_take]
      congr 1
      omega
    have hmid : (lines.drop (r.stop - pos)).take (k - r.stop) =
        (lines.take (k - pos)).drop (r.stop - pos) := by
      rw [List.drop_take]
      congr 1
      omega
    have hdrop : (lines.drop (r.stop - pos)).drop (k - r.stop) = lines.drop (k - pos) := by
      rw [List.drop_drop]
      congr 1
      omega
    rw [List.cons_append, splice_cons, splice_cons, ih hstop hdisjoint hrest, htake, hmid, hdrop]
    rw [List.append_assoc _ (splice _ _ _) _]

/-- Replacements that only insert, all at one line. -/
theorem splice_insertions {k : ℕ} {same after : List Replacement}
    (hsame : ∀ r ∈ same, r.startIndex = k ∧ r.oldLen = 0) :
    splice k lines (same ++ after) =
      same.flatMap Replacement.newLines ++ splice k lines after := by
  induction same with
  | nil => rfl
  | cons r same ih =>
    obtain ⟨⟨hstart, hlen⟩, hsame⟩ := List.forall_mem_cons.1 hsame
    have hstop : r.stop = k := by
      unfold Replacement.stop
      omega
    rw [List.cons_append, splice_cons, hstop, hstart, Nat.sub_self, List.take_zero, List.nil_append,
      List.drop_zero, ih hsame, List.flatMap_cons, List.append_assoc]

/-- **Replacements are applied at once.** For replacements in the order of their windows, none of
which overlap, applying them from the last to the first never leaves the lines: the lines are the
untouched segments with the windows between them, and the result is the same segments with the new
lines in place of each window. Insertions at one line stand there in the order of the list. -/
theorem applyReplacements_segments (hsorted : replacements.IsChain Replacement.Before)
    (hbounds : ∀ r ∈ replacements, r.stop ≤ lines.length) :
    withTexts (Replacement.window lines) 0 lines replacements = lines ∧
    applyReplacements lines replacements =
      .ok (withTexts Replacement.newLines 0 lines replacements) ∧
    ∀ (before same after : List Replacement) (k : ℕ), replacements = before ++ same ++ after →
      same ≠ [] → (∀ r ∈ same, r.startIndex = k ∧ r.oldLen = 0) →
      ∃ front back, applyReplacements (lines.take k) before = .ok front ∧
        applyReplacements lines (before ++ after) = .ok (front ++ back) ∧
        applyReplacements lines replacements =
          .ok (front ++ same.flatMap Replacement.newLines ++ back) := by
  have hdisjoint := List.isChain_iff_pairwise.1 hsorted
  have hstart : ∀ r ∈ replacements, 0 ≤ r.startIndex := fun r _ => Nat.zero_le _
  have happly := applyReplacements_eq_splice hdisjoint hbounds
  refine ⟨withTexts_window hdisjoint hstart, ?_, ?_⟩
  · rw [happly, withTexts_newLines hdisjoint hstart, List.drop_zero]
  intro before same after k hsplit hne hsame
  subst hsplit
  obtain ⟨r, hr⟩ := List.exists_mem_of_ne_nil same hne
  obtain ⟨hstartk, hlen⟩ := hsame r hr
  have hstop : r.stop = k := by
    unfold Replacement.stop
    omega
  rw [List.append_assoc] at hdisjoint hbounds happly
  obtain ⟨hfront, hback, hcross⟩ := List.pairwise_append.1 hdisjoint
  obtain ⟨-, hafter, hsplit⟩ := List.pairwise_append.1 hback
  -- the windows before the insertions end by line `k`, and those after them begin there or later
  have hbeforek : ∀ r' ∈ before, 0 ≤ r'.startIndex ∧ r'.stop ≤ k := by
    intro r' hr'
    have hle : r'.stop ≤ r.startIndex := hcross r' hr' r (List.mem_append_left _ hr)
    omega
  have hafterk : ∀ r' ∈ after, k ≤ r'.startIndex := by
    intro r' hr'
    have hle : r.stop ≤ r'.startIndex := hsplit r hr r' hr'
    omega
  have hinsertk : ∀ r' ∈ same ++ after, k ≤ r'.startIndex := by
    intro r' hr'
    rcases List.mem_append.1 hr' with hr' | hr'
    · exact (hsame r' hr').1.ge
    · exact hafterk r' hr'
  have hk : k ≤ lines.length := by
    have hle := hbounds r (List.mem_append_right _ (List.mem_append_left _ hr))
    omega
  have hrest : (before ++ after).Pairwise Replacement.Before :=
    List.pairwise_append.2 ⟨hfront, hafter, fun a ha b hb =>
      hcross a ha b (List.mem_append_right _ hb)⟩
  refine ⟨splice 0 (lines.take k) before, splice k (lines.drop k) after, ?_, ?_, ?_⟩
  · apply applyReplacements_eq_splice hfront
    intro r' hr'
    have hle := (hbeforek r' hr').2
    rw [List.length_take]
    omega
  · rw [applyReplacements_eq_splice hrest fun r' hr' => hbounds r' ?_,
      splice_append (Nat.zero_le k) hrest hbeforek hafterk, Nat.sub_zero]
    rcases List.mem_append.1 hr' with hr' | hr'
    · exact List.mem_append_left _ hr'
    · exact List.mem_append_right _ (List.mem_append_right _ hr')
  · rw [List.append_assoc before, happly,
      splice_append (Nat.zero_le k) hdisjoint hbeforek hinsertk, splice_insertions hsame,
      Nat.sub_zero, List.append_assoc]

/-- A line is replaced, and two insertions stand before the last line. -/
theorem applyReplacements_segments_three :
    applyReplacements [['a'], ['b'], ['c']] [⟨0, 1, [['x']]⟩, ⟨2, 0, [['y']]⟩, ⟨2, 0, [['z']]⟩] =
      .ok [['x'], ['b'], ['y'], ['z'], ['c']] :=
  (applyReplacements_segments (by simp [Replacement.Before, Replacement.stop])
    (by simp [Replacement.stop])).2.1

/-! ## The text -/

/-- A text that ends in a newline has no unterminated rest. -/
theorem splitNl_of_getLast? {text : Str} (h : text.getLast? = some '\n') :
    (splitNl text).2 = [] ∧ (splitNl text).1 ≠ [] := by
  refine ⟨?_, (mem_newline_iff text).1 (List.mem_of_getLast? h)⟩
  by_contra hrest
  have htext := unlines_splitNl text
  rw [show (splitNl text).2 = [] ++ (splitNl text).2 from rfl, unlines_append_right] at htext
  obtain ⟨c, hc⟩ := Option.ne_none_iff_exists'.1 (mt List.getLast?_eq_none_iff.1 hrest)
  rw [← htext, List.getLast?_append, hc] at h
  cases h
  exact (not_mem_splitNl text).2 (List.mem_of_getLast? hc)

/-- The last line is that of the original, if it is in no window. -/
theorem getLast?_splice (hpos : pos < lines.length)
    (hroom : ∀ r ∈ replacements, r.stop < lines.length)
    (hdisjoint : replacements.Pairwise Replacement.Before)
    (hstart : ∀ r ∈ replacements, pos ≤ r.startIndex) :
    (splice pos (lines.drop pos) replacements).getLast? = lines.getLast? := by
  induction replacements generalizing pos with
  | nil =>
    rw [splice, List.getLast?_drop, if_neg (not_le.2 hpos)]
  | cons r replacements ih =>
    obtain ⟨hbefore, hdisjoint⟩ := List.pairwise_cons.1 hdisjoint
    obtain ⟨hr, hroom⟩ := List.forall_mem_cons.1 hroom
    have hle := hstart r List.mem_cons_self
    have hstop : r.startIndex ≤ r.stop := Nat.le_add_right _ _
    have hrest := ih hr hroom hdisjoint hbefore
    have hdrop : (lines.drop pos).drop (r.stop - pos) = lines.drop r.stop := by
      rw [List.drop_drop]
      congr 1
      omega
    have hsome : lines.getLast?.isSome = true := by
      rw [List.getLast?_isSome]
      exact List.ne_nil_of_length_pos (by omega)
    obtain ⟨line, hline⟩ := Option.isSome_iff_exists.1 hsome
    rw [splice_cons, List.getLast?_append, hdrop, hrest, hline, Option.some_or]

theorem lastIsEmpty_iff (lines : List Str) :
    lastIsEmpty lines = true ↔ lines.getLast? = some [] := by
  unfold lastIsEmpty
  cases lines.getLast? with
  | none => exact iff_of_false Bool.false_ne_true nofun
  | some line =>
    rw [Option.any_some, List.isEmpty_iff, Option.some_inj]

section Contents

variable {text : Str} {chunks : List UpdateFileChunk}

theorem newContents_eq {newLines : List Str} (hnewline : text.getLast? = some '\n')
    (hreplacements : computeReplacements (splitNl text).1 chunks = .ok replacements)
    (hnew : applyReplacements (splitNl text).1 replacements = .ok newLines) :
    newContents text chunks =
      .ok (joinNl (if lastIsEmpty newLines then newLines else newLines ++ [[]])) := by
  obtain ⟨hrest, -⟩ := splitNl_of_getLast? hnewline
  have hsplit : splitLines text = (splitNl text).1 ++ [[]] := by rw [splitLines, hrest]
  have hblank : lastIsEmpty ((splitNl text).1 ++ [[]]) = true := by
    rw [lastIsEmpty_iff, List.getLast?_concat]
  unfold newContents
  simp only [hsplit, hblank, if_true, List.dropLast_concat]
  rw [hreplacements, ok_bind, hnew, ok_bind]
  rfl

/-- The lines are terminated when they are joined, unless the last one is blank. -/
theorem joinNl_eq_unlines_iff (newLines : List Str) :
    joinNl (if lastIsEmpty newLines then newLines else newLines ++ [[]]) = unlines newLines [] ↔
      newLines.getLast? ≠ some [] := by
  rw [ne_eq, ← lastIsEmpty_iff]
  by_cases hblank : lastIsEmpty newLines = true
  · obtain ⟨init, rfl⟩ := List.getLast?_eq_some_iff.1 ((lastIsEmpty_iff newLines).1 hblank)
    refine iff_of_false (fun h => ?_) (not_not.2 hblank)
    rw [if_pos hblank, joinNl_concat, unlines_append] at h
    have hone : unlines [([] : Str)] [] = [] ++ ['\n'] := rfl
    rw [hone, unlines_append_right] at h
    have hlen := congrArg List.length h
    rw [List.length_append, List.length_singleton] at hlen
    omega
  · refine iff_of_true ?_ hblank
    rw [if_neg hblank, joinNl_concat]

/-- **What an update leaves alone.** For a text that ends in a newline, replacements with disjoint
windows, and a line behind the last of them: the new text is the file with its windows replaced and
all other lines kept, exactly when the last line is not blank. -/
theorem update_frame_iff (hnewline : text.getLast? = some '\n')
    (hreplacements : computeReplacements (splitNl text).1 chunks = .ok replacements)
    (hdisjoint : replacements.Pairwise Replacement.Before)
    (hroom : ∀ r ∈ replacements, r.stop < (splitNl text).1.length) :
    (newContents text chunks = .ok (unlines (splice 0 (splitNl text).1 replacements) []) ∧
      (outside 0 (splitNl text).1 replacements).Sublist
        (splice 0 (splitNl text).1 replacements)) ↔
    (splitNl text).1.getLast? ≠ some [] := by
  have hne := (splitNl_of_getLast? hnewline).2
  have hnew := applyReplacements_eq_splice hdisjoint fun r hr => (hroom r hr).le
  have hlast : (splice 0 (splitNl text).1 replacements).getLast? = (splitNl text).1.getLast? :=
    getLast?_splice (List.length_pos_iff.2 hne) hroom hdisjoint fun r _ => Nat.zero_le _
  rw [and_iff_left (outside_sublist_splice _ _ _), newContents_eq hnewline hreplacements hnew,
    Except.ok.injEq, joinNl_eq_unlines_iff, hlast]

end Contents

/-- One of two lines is replaced. -/
theorem update_frame_two_lines :
    newContents "a\nb\n".toList [replaceLine ['a'] ['x'] false] = .ok "x\nb\n".toList := by
  have hreplacements : computeReplacements (splitNl "a\nb\n".toList).1
      [replaceLine ['a'] ['x'] false] = .ok [⟨0, 1, [['x']]⟩] := rfl
  exact ((update_frame_iff rfl hreplacements (List.pairwise_singleton _ _) (by decide)).2
    (by decide)).1

/-- The blank line at the end is lost. -/
theorem blank_last_line_lost :
    ¬ ∀ (text : Str) (chunks : List UpdateFileChunk) (replacements : List Replacement),
      text.getLast? = some '\n' →
      computeReplacements (splitNl text).1 chunks = .ok replacements →
      replacements.Pairwise Replacement.Before →
      (∀ r ∈ replacements, r.stop < (splitNl text).1.length) →
      newContents text chunks = .ok (unlines (splice 0 (splitNl text).1 replacements) []) := by
  intro h
  have hcontents := h "a\n\n".toList [replaceLine ['a'] ['x'] false] [⟨0, 1, [['x']]⟩] rfl rfl
    (List.pairwise_singleton _ _) (by decide)
  have hactual : newContents "a\n\n".toList [replaceLine ['a'] ['x'] false] = .ok "x\n".toList :=
    rfl
  rw [hactual] at hcontents
  exact absurd (Except.ok.inj hcontents) (by decide)

end Codex.ApplyPatch
