import Codex.BottomPane.Editing
import Mathlib.Data.List.SplitBy

/-!
# What edits of the text area keep

`Good` is what an edit may rely on: the cursor is on a boundary outside the elements, and
these are in their places. Moves and the edits that insert, replace, kill or yank text go
through from a good state and leave one (`Keeps`).
-/

namespace Codex.BottomPane

open Codex.Text TextArea

/-- The cursor on a boundary outside the elements, and these in their places. -/
structure Good (t : TextArea) : Prop where
  cursor_le : t.cursorPos ≤ utf8Len t.text
  cursor_boundary : IsBoundary t.text t.cursorPos
  placed : WellPlaced t.text t.elements
  inside : ∀ e ∈ t.elements, e.range.stop ≤ utf8Len t.text
  outside : Outside t.elements t.cursorPos

variable {u : UnicodeSegmentation} {t t' : TextArea} {s text before middle after new : Str}
  {elements : List TextElement} {range : ByteRange} {pos removed inserted start stop : ℕ}
  {e : TextElement}

theorem good_of (hcursor : IsBoundary t.text t.cursorPos) (hplaced : WellPlaced t.text t.elements)
    (houtside : Outside t.elements t.cursorPos) : Good t :=
  ⟨hcursor.le, hcursor, hplaced, fun e he => (hplaced.stop_boundary e he).le, houtside⟩

theorem good_new : Good {} := good_of (isBoundary_zero []) ⟨.nil, .nil, nofun, nofun, nofun⟩ nofun

/-- The edit goes through and leaves a good state. -/
def Keeps (edited : Option TextArea) : Prop := ∃ t, edited = some t ∧ Good t

theorem keeps_some (h : Good t) : Keeps (some t) := ⟨t, rfl, h⟩

/-! ## The cursor -/

theorem good_clamped (h : WellPlaced t.text t.elements) (pos : ℕ) :
    Good { t with cursorPos := t.clampPosToNearestBoundary pos } := by
  obtain ⟨hboundary, houtside⟩ := clampPosToNearestBoundary_spec h pos
  exact good_of hboundary h houtside

theorem good_setCursor (h : WellPlaced t.text t.elements) (pos : ℕ) : Good (t.setCursor pos) :=
  good_clamped h _

theorem Good.clamp_cursor (h : Good t) : t.clampPosToNearestBoundary t.cursorPos = t.cursorPos :=
  clampPosToNearestBoundary_of_outside h.cursor_boundary h.outside

theorem good_storeKillBuffer (h : Good t) (text : Str) (kind : KillBufferKind) :
    Good (t.storeKillBuffer text kind) := good_of h.cursor_boundary h.placed h.outside

/-- A position that an element holds is moved to one of its ends. -/
theorem adjustPosOutOfElements_spec (h : WellPlaced t.text t.elements)
    (hpos : IsBoundary t.text pos) (preferStart : Bool) :
    IsBoundary t.text (t.adjustPosOutOfElements pos preferStart) ∧
      Outside t.elements (t.adjustPosOutOfElements pos preferStart) ∧
      (preferStart = true → t.adjustPosOutOfElements pos preferStart ≤ pos) ∧
      (preferStart = false → pos ≤ t.adjustPosOutOfElements pos preferStart) := by
  unfold adjustPosOutOfElements
  split
  · next e hfind =>
    obtain ⟨he, hcontains⟩ := findElementContaining_eq_some hfind
    unfold ByteRange.Contains at hcontains
    obtain ⟨hstart, hstop⟩ := h.outside he
    cases preferStart with
    | true => exact ⟨h.start_boundary e he, hstart, fun _ => hcontains.1.le, nofun⟩
    | false => exact ⟨h.stop_boundary e he, hstop, nofun, fun _ => hcontains.2.le⟩
  · next hfind =>
    exact ⟨hpos, outside_of_findElementContaining hfind, fun _ => le_refl pos, fun _ => le_refl pos⟩

theorem outside_zero (elements : List TextElement) : Outside elements 0 :=
  fun e _ hcontains => Nat.not_lt_zero e.range.start hcontains.1

theorem WellPlaced.outside_len (h : WellPlaced s elements) : Outside elements (utf8Len s) := by
  intro e he hcontains
  have hle := (h.stop_boundary e he).le
  unfold ByteRange.Contains at hcontains
  omega

theorem prevAtomicBoundary_spec (u : UnicodeSegmentation) (h : WellPlaced t.text t.elements)
    (hpos : IsBoundary t.text pos) :
    IsBoundary t.text (t.prevAtomicBoundary u pos) ∧
      Outside t.elements (t.prevAtomicBoundary u pos) ∧ t.prevAtomicBoundary u pos ≤ pos := by
  unfold prevAtomicBoundary
  split
  · exact ⟨isBoundary_zero _, outside_zero _, Nat.zero_le pos⟩
  · split
    · next e hfind =>
      have he := List.mem_of_find?_eq_some hfind
      have hin := List.find?_some hfind
      rw [decide_eq_true_eq] at hin
      exact ⟨h.start_boundary e he, (h.outside he).1, hin.1.le⟩
    · obtain ⟨found, hfound, hlaw⟩ := u.prev_boundary t.text pos hpos
      rw [hfound]
      cases found with
      | none => exact ⟨isBoundary_zero _, outside_zero _, Nat.zero_le pos⟩
      | some b =>
        obtain ⟨hb, hlt⟩ := hlaw b rfl
        obtain ⟨hboundary, houtside, hle, -⟩ := adjustPosOutOfElements_spec h hb true
        exact ⟨hboundary, houtside, (hle rfl).trans hlt.le⟩

theorem nextAtomicBoundary_spec (u : UnicodeSegmentation) (h : WellPlaced t.text t.elements)
    (hpos : IsBoundary t.text pos) :
    IsBoundary t.text (t.nextAtomicBoundary u pos) ∧
      Outside t.elements (t.nextAtomicBoundary u pos) ∧ pos ≤ t.nextAtomicBoundary u pos := by
  unfold nextAtomicBoundary
  split
  · exact ⟨isBoundary_len _, h.outside_len, hpos.le⟩
  · split
    · next e hfind =>
      have he := List.mem_of_find?_eq_some hfind
      have hin := List.find?_some hfind
      rw [decide_eq_true_eq] at hin
      exact ⟨h.stop_boundary e he, (h.outside he).2, hin.2.le⟩
    · obtain ⟨found, hfound, hlaw⟩ := u.next_boundary t.text pos hpos
      rw [hfound]
      cases found with
      | none => exact ⟨isBoundary_len _, h.outside_len, hpos.le⟩
      | some b =>
        obtain ⟨hb, hlt⟩ := hlaw b rfl
        obtain ⟨hboundary, houtside, -, hle⟩ := adjustPosOutOfElements_spec h hb false
        exact ⟨hboundary, houtside, hlt.le.trans (hle rfl)⟩

theorem backward_spec (u : UnicodeSegmentation) (h : WellPlaced t.text t.elements)
    (hpos : IsBoundary t.text pos) (n : ℕ) :
    IsBoundary t.text (t.backward u n pos) ∧ t.backward u n pos ≤ pos := by
  induction n generalizing pos with
  | zero => exact ⟨hpos, le_refl pos⟩
  | succ n ih =>
    obtain ⟨hboundary, -, hle⟩ := prevAtomicBoundary_spec u h hpos
    unfold backward
    dsimp only
    split
    · exact ⟨hboundary, hle⟩
    · obtain ⟨hlast, hlast'⟩ := ih hboundary
      exact ⟨hlast, hlast'.trans hle⟩

theorem forward_spec (u : UnicodeSegmentation) (h : WellPlaced t.text t.elements)
    (hpos : IsBoundary t.text pos) (n : ℕ) :
    IsBoundary t.text (t.forward u n pos) ∧ pos ≤ t.forward u n pos := by
  induction n generalizing pos with
  | zero => exact ⟨hpos, le_refl pos⟩
  | succ n ih =>
    obtain ⟨hboundary, -, hle⟩ := nextAtomicBoundary_spec u h hpos
    unfold forward
    dsimp only
    split
    · exact ⟨hboundary, hle⟩
    · obtain ⟨hlast, hlast'⟩ := ih hboundary
      exact ⟨hlast, hle.trans hlast'⟩

/-! ## Inserting, replacing and killing -/

theorem whole_empty (h : Outside elements pos) : Whole elements ⟨pos, pos⟩ :=
  fun e he hmeets => absurd hmeets (h e he)

/-- What is inserted outside the elements pushes a position outside them along. -/
theorem outside_insert (h : WellPlaced s elements) (hpos : Outside elements pos) {cursor : ℕ}
    (hcursor : Outside elements cursor) :
    Outside (shiftElements elements pos 0 inserted)
      (if pos ≤ cursor then cursor + inserted else cursor) := by
  intro e he hcontains
  unfold ByteRange.Contains at hcontains
  obtain ⟨d, hd, ⟨hbefore, hrange⟩ | ⟨hafter, hrange⟩⟩ :=
    mem_shiftElements (whole_empty hpos) h.nonempty he
  · have hout := hcursor d hd
    unfold ByteRange.Contains at hout
    rw [hrange] at hcontains
    split at hcontains <;> omega
  · have hout := hcursor d hd
    unfold ByteRange.Contains at hout
    rw [hrange] at hcontains
    dsimp only [ByteRange.shift] at hcontains
    split at hcontains <;> omega

theorem Inserted.good (hinserted : Inserted t t' before after new) (h : Good t)
    (htext : t.text = before ++ after) (hpos : Outside t.elements (utf8Len before)) : Good t' := by
  obtain ⟨hcursor', hplaced⟩ := And.intro h.cursor_boundary h.placed
  rw [htext, ← List.append_nil before] at hcursor' hplaced
  apply good_of
  · rw [hinserted.text, hinserted.cursor]
    split
    · next hle => exact hcursor'.after_edit hle new
    · next hlt => exact hcursor'.before_edit (not_le.1 hlt).le new
  · rw [hinserted.text, hinserted.elements]
    exact wellPlaced_edit hplaced (whole_empty hpos) new
  · rw [hinserted.elements, hinserted.cursor]
    exact outside_insert h.placed hpos h.outside

theorem keeps_insertStrAt (h : Good t) (pos : ℕ) (new : Str) : Keeps (t.insertStrAt pos new) := by
  obtain ⟨t', before, after, hinsert, htext, hlen, hinserted⟩ := insertStrAt_spec h.placed pos new
  refine ⟨t', hinsert, hinserted.good h htext ?_⟩
  rw [hlen]
  exact (clampPosToNearestBoundary_spec h.placed pos).2

theorem Replaced.good (hreplaced : Replaced t t' before middle after new) (h : Good t)
    (htext : t.text = before ++ middle ++ after)
    (hwhole : Whole t.elements ⟨utf8Len before, utf8Len before + utf8Len middle⟩) : Good t' := by
  rcases hreplaced.cursor with rfl | hclamped
  · exact h
  · have hplaced : WellPlaced t'.text t'.elements := by
      have hplaced := h.placed
      rw [htext] at hplaced
      rw [hreplaced.text, hreplaced.elements]
      exact wellPlaced_edit hplaced hwhole new
    obtain ⟨hboundary, houtside⟩ := clampPosToNearestBoundary_spec hplaced
      (min (cursorAfter t.cursorPos (utf8Len before) (utf8Len before + utf8Len middle)
        (utf8Len new)) (utf8Len t'.text))
    rw [← hclamped] at hboundary houtside
    exact good_of hboundary hplaced houtside

theorem keeps_replaceRange (h : Good t) (hle : range.start ≤ range.stop)
    (hstart : IsBoundary t.text range.start) (hstop : IsBoundary t.text range.stop) (new : Str) :
    Keeps (t.replaceRange range new) := by
  obtain ⟨before, middle, after, htext, hgrown⟩ := exists_grown_parts h.placed hle hstart hstop
  have hwhole := (smallest_expandRange t.elements range).whole
  rw [hgrown] at hwhole
  obtain ⟨t', hraw, hreplaced⟩ := replaceRangeRaw_spec h.placed htext hwhole new
  refine ⟨t', ?_, hreplaced.good h htext hwhole⟩
  unfold replaceRange
  rw [hgrown, hraw]

theorem keeps_killRangeWithKind (h : Good t) (hle : range.start ≤ range.stop)
    (hstart : IsBoundary t.text range.start) (hstop : IsBoundary t.text range.stop)
    (kind : KillBufferKind) : Keeps (t.killRangeWithKind range kind) := by
  obtain ⟨before, middle, after, htext, hgrown⟩ := exists_grown_parts h.placed hle hstart hstop
  have hwhole := (smallest_expandRange t.elements range).whole
  rw [hgrown] at hwhole
  obtain ⟨-, hkill⟩ | ⟨t', hkill, hreplaced⟩ :=
    killRangeWithKind_spec h.placed htext hgrown kind
  · exact ⟨t, hkill, h⟩
  · exact ⟨t', hkill, hreplaced.good (good_storeKillBuffer h middle kind) htext hwhole⟩

theorem keeps_yankRangeWithKind (h : Good t) (hle : range.start ≤ range.stop)
    (hstart : IsBoundary t.text range.start) (hstop : IsBoundary t.text range.stop)
    (kind : KillBufferKind) : Keeps (t.yankRangeWithKind range kind) := by
  obtain ⟨before, middle, after, htext, hgrown⟩ := exists_grown_parts h.placed hle hstart hstop
  have hslice := slice_eq_some.2 ⟨before, after, htext, rfl, rfl⟩
  unfold yankRangeWithKind
  dsimp only
  rw [hgrown]
  dsimp only
  rw [hslice]
  split
  · exact keeps_some h
  · dsimp only [Option.map_some]
    split
    · exact keeps_some h
    · exact keeps_some (good_storeKillBuffer h middle kind)

/-! ## Lines and words -/

theorem isBoundary_of_parts (h : s = before ++ after) : IsBoundary s (utf8Len before) :=
  ⟨before, after, h, rfl⟩

theorem beginningOfLine_spec (h : IsBoundary s pos) :
    ∃ bol, beginningOfLine s pos = some bol ∧ IsBoundary s bol ∧ bol ≤ pos ∧
      (0 < bol → IsBoundary s (bol - 1)) := by
  obtain ⟨before, after, htext, rfl⟩ := h
  obtain ⟨line, hline⟩ := List.rdropWhile_prefix (fun c => c ≠ '\n') before
  have hbefore := congrArg utf8Len hline
  rw [utf8Len_append] at hbefore
  refine ⟨utf8Len (before.rdropWhile (· ≠ '\n')), ?_, ?_, by omega, fun hpos => ?_⟩
  · unfold beginningOfLine
    rw [splitAtByte_eq_some.2 ⟨htext, rfl⟩]
    rfl
  · rw [← hline, List.append_assoc] at htext
    exact isBoundary_of_parts htext
  · have hne : before.rdropWhile (· ≠ '\n') ≠ [] := by
      intro hnil
      rw [hnil] at hpos
      exact absurd hpos (Nat.lt_irrefl 0)
    have hlast := List.rdropWhile_last_not (fun c => c ≠ '\n') before hne
    have hnewline : (before.rdropWhile (· ≠ '\n')).getLast hne = '\n' := by
      by_contra hother
      exact hlast (decide_eq_true hother)
    have hsplit := List.dropLast_append_getLast hne
    rw [hnewline] at hsplit
    rw [← hline, ← hsplit, List.append_assoc, List.append_assoc] at htext
    have hlen := congrArg utf8Len hsplit
    rw [utf8Len_append] at hlen
    have hone : utf8Len ['\n'] = 1 := rfl
    have hboundary := isBoundary_of_parts htext
    rwa [show utf8Len (before.rdropWhile (· ≠ '\n')).dropLast =
      utf8Len (before.rdropWhile (· ≠ '\n')) - 1 by omega] at hboundary

theorem endOfLine_spec (h : IsBoundary s pos) :
    ∃ eol, endOfLine s pos = some eol ∧ IsBoundary s eol ∧ pos ≤ eol ∧
      (eol < utf8Len s → IsBoundary s (eol + 1)) := by
  obtain ⟨before, after, htext, rfl⟩ := h
  have hafter := List.takeWhile_append_dropWhile (p := (· ≠ '\n')) (l := after)
  refine ⟨utf8Len before + utf8Len (after.takeWhile (· ≠ '\n')), ?_, ?_, by omega, fun hlt => ?_⟩
  · unfold endOfLine
    rw [splitAtByte_eq_some.2 ⟨htext, rfl⟩]
    rfl
  · rw [← hafter, ← List.append_assoc] at htext
    rw [← utf8Len_append]
    exact isBoundary_of_parts htext
  · cases hrest : after.dropWhile (· ≠ '\n') with
    | nil =>
      rw [hrest, List.append_nil] at hafter
      rw [hafter, htext, utf8Len_append] at hlt
      exact absurd hlt (Nat.lt_irrefl _)
    | cons c rest =>
      have hc := List.head?_dropWhile_not (· ≠ '\n') after
      rw [hrest] at hc
      have hnewline : c = '\n' := of_not_not (of_decide_eq_false hc)
      rw [hrest, hnewline] at hafter
      refine ⟨before ++ after.takeWhile (· ≠ '\n') ++ ['\n'], rest, ?_, ?_⟩
      · rw [htext, List.append_assoc before, List.append_assoc before, List.append_assoc]
        exact congrArg (before ++ ·) hafter.symm
      · rw [utf8Len_append, utf8Len_append]
        rfl

theorem mem_withOffsets {offset k : ℕ} {piece : Str} {pieces : List Str}
    (h : (offset, piece) ∈ withOffsets k pieces) :
    ∃ front back, pieces.flatten = front ++ piece ++ back ∧ offset = k + utf8Len front := by
  induction pieces generalizing k with
  | nil => exact absurd h List.not_mem_nil
  | cons first pieces ih =>
    rw [List.flatten_cons]
    rcases List.mem_cons.1 h with heq | hrest
    · cases heq
      exact ⟨[], pieces.flatten, rfl, rfl⟩
    · obtain ⟨front, back, hflatten, hoffset⟩ := ih hrest
      refine ⟨first ++ front, back, ?_, ?_⟩
      · rw [hflatten]
        simp only [List.append_assoc]
      · rw [hoffset, utf8Len_append, Nat.add_assoc]

/-- A piece of a word lies in it at its offset. -/
theorem mem_splitWordPieces {offset : ℕ} {piece word : Str}
    (h : (offset, piece) ∈ splitWordPieces u word) :
    ∃ front back, word = front ++ piece ++ back ∧ offset = utf8Len front := by
  obtain ⟨front, back, hflatten, hoffset⟩ := mem_withOffsets h
  refine ⟨front, back, ?_, by rw [hoffset, Nat.zero_add]⟩
  rw [← hflatten, List.flatMap_def, List.flatten_flatten, List.map_map]
  have hid : (List.flatten ∘ fun segment : Str =>
      segment.splitBy fun a b => isWordSeparator a == isWordSeparator b) = id :=
    funext fun segment => List.flatten_splitBy _ segment
  rw [hid, List.map_id, u.split_word_bounds]

theorem separatorsStart_eq (start : ℕ) (pieces : List (ℕ × Str)) :
    separatorsStart start pieces = start ∨
      ∃ piece, (separatorsStart start pieces, piece) ∈ pieces := by
  induction pieces generalizing start with
  | nil => exact .inl rfl
  | cons first pieces ih =>
    obtain ⟨offset, piece⟩ := first
    unfold separatorsStart
    split
    · rcases ih offset with heq | ⟨piece', hmem⟩
      · rw [heq]
        exact .inr ⟨piece, List.mem_cons_self⟩
      · exact .inr ⟨piece', List.mem_cons_of_mem _ hmem⟩
    · exact .inl rfl

theorem separatorsEnd_eq (stop : ℕ) (pieces : List (ℕ × Str)) :
    separatorsEnd stop pieces = stop ∨
      ∃ offset piece, (offset, piece) ∈ pieces ∧
        separatorsEnd stop pieces = offset + utf8Len piece := by
  induction pieces generalizing stop with
  | nil => exact .inl rfl
  | cons first pieces ih =>
    obtain ⟨offset, piece⟩ := first
    unfold separatorsEnd
    split
    · rcases ih (offset + utf8Len piece) with heq | ⟨offset', piece', hmem, heq⟩
      · rw [heq]
        exact .inr ⟨offset, piece, List.mem_cons_self, rfl⟩
      · exact .inr ⟨offset', piece', List.mem_cons_of_mem _ hmem, heq⟩
    · exact .inl rfl

theorem beginningOfPreviousWord_spec (u : UnicodeSegmentation) (h : Good t) :
    ∃ start, t.beginningOfPreviousWord u = some start ∧ IsBoundary t.text start ∧
      start ≤ t.cursorPos := by
  obtain ⟨before, after, htext, hcursor⟩ := h.cursor_boundary
  unfold beginningOfPreviousWord
  rw [splitAtByte_eq_some.2 ⟨htext, hcursor⟩]
  refine ⟨_, rfl, ?_⟩
  dsimp only
  obtain ⟨blank, hblank⟩ := List.rdropWhile_prefix isWhitespace before
  generalize before.rdropWhile isWhitespace = trimmed at hblank ⊢
  split
  · exact ⟨isBoundary_zero _, Nat.zero_le _⟩
  · have hword := @List.rdropWhile_append_rtakeWhile _ (fun c => !isWhitespace c) trimmed
    generalize trimmed.rdropWhile (fun c => !isWhitespace c) = lead at hword ⊢
    generalize trimmed.rtakeWhile (fun c => !isWhitespace c) = word at hword ⊢
    rw [← hword] at hblank
    have hlen := congrArg utf8Len hblank
    simp only [utf8Len_append] at hlen
    split
    · refine ⟨?_, by omega⟩
      rw [← hblank, List.append_assoc, List.append_assoc] at htext
      exact isBoundary_of_parts htext
    · next pieceStart piece pieces hpieces =>
      -- the start is the offset of one of the pieces
      have hoffset : ∃ piece', ((if piece.all isWordSeparator then separatorsStart pieceStart pieces
          else pieceStart), piece') ∈ splitWordPieces u word := by
        have hmem : ∀ p, p ∈ (pieceStart, piece) :: pieces → p ∈ splitWordPieces u word := by
          intro p hp
          rw [← hpieces] at hp
          exact List.mem_reverse.1 hp
        split
        · rcases separatorsStart_eq pieceStart pieces with heq | ⟨piece', hin⟩
          · rw [heq]
            exact ⟨piece, hmem _ List.mem_cons_self⟩
          · exact ⟨piece', hmem _ (List.mem_cons_of_mem _ hin)⟩
        · exact ⟨piece, hmem _ List.mem_cons_self⟩
      obtain ⟨piece', hpiece'⟩ := hoffset
      obtain ⟨front, back, hparts, hfront⟩ := mem_splitWordPieces hpiece'
      rw [hfront, ← utf8Len_append]
      rw [hparts] at hblank hlen
      simp only [utf8Len_append] at hlen
      have hboundary : IsBoundary t.text (utf8Len (lead ++ front)) := by
        refine ⟨lead ++ front, piece' ++ back ++ blank ++ after, ?_, rfl⟩
        rw [htext, ← hblank]
        simp only [List.append_assoc]
      obtain ⟨hadjusted, -, hle, -⟩ := adjustPosOutOfElements_spec h.placed hboundary true
      refine ⟨hadjusted, (hle rfl).trans ?_⟩
      rw [utf8Len_append]
      omega

theorem endOfNextWord_spec (u : UnicodeSegmentation) (h : Good t) :
    ∃ stop, t.endOfNextWord u = some stop ∧ IsBoundary t.text stop := by
  obtain ⟨before, after, htext, hcursor⟩ := h.cursor_boundary
  unfold endOfNextWord endOfNextWordFrom
  rw [splitAtByte_eq_some.2 ⟨htext, hcursor⟩]
  refine ⟨_, rfl, ?_⟩
  dsimp only
  have hblank := List.takeWhile_append_dropWhile (p := isWhitespace) (l := after)
  generalize after.takeWhile isWhitespace = blank at hblank ⊢
  generalize after.dropWhile isWhitespace = rest at hblank ⊢
  have hword := List.takeWhile_append_dropWhile (p := fun c => !isWhitespace c) (l := rest)
  generalize rest.takeWhile (fun c => !isWhitespace c) = word at hword ⊢
  split
  · exact isBoundary_len _
  · rw [← hcursor, ← utf8Len_append]
    split
    · refine ⟨before ++ blank, rest, ?_, rfl⟩
      rw [htext, ← hblank, List.append_assoc]
    · next start piece pieces hpieces =>
      -- the end is that of one of the pieces
      have hoffset : ∃ offset piece', (offset, piece') ∈ splitWordPieces u word ∧
          (if piece.all isWordSeparator then separatorsEnd (start + utf8Len piece) pieces
            else start + utf8Len piece) = offset + utf8Len piece' := by
        rw [hpieces]
        split
        · rcases separatorsEnd_eq (start + utf8Len piece) pieces with heq | ⟨offset, piece', hin, heq⟩
          · exact ⟨start, piece, List.mem_cons_self, heq⟩
          · exact ⟨offset, piece', List.mem_cons_of_mem _ hin, heq⟩
        · exact ⟨start, piece, List.mem_cons_self, rfl⟩
      obtain ⟨offset, piece', hpiece', hstop⟩ := hoffset
      obtain ⟨front, back, hparts, hfront⟩ := mem_splitWordPieces hpiece'
      rw [hstop, hfront, ← utf8Len_append, ← utf8Len_append]
      refine (adjustPosOutOfElements_spec h.placed ?_ false).1
      refine ⟨before ++ blank ++ (front ++ piece'), back ++ rest.dropWhile (fun c => !isWhitespace c),
        ?_, rfl⟩
      rw [htext, ← hblank]
      conv_lhs => rw [← hword, hparts]
      simp only [List.append_assoc]

/-! ## Deleting, killing and pasting -/

theorem keeps_deleteBackward (u : UnicodeSegmentation) (h : Good t) (n : ℕ) :
    Keeps (t.deleteBackward u n) := by
  unfold deleteBackward
  split
  · exact keeps_some h
  · obtain ⟨hboundary, hle⟩ := backward_spec u h.placed h.cursor_boundary n
    exact keeps_replaceRange h hle hboundary h.cursor_boundary []

theorem keeps_deleteForward (u : UnicodeSegmentation) (h : Good t) (n : ℕ) :
    Keeps (t.deleteForward u n) := by
  unfold deleteForward
  split
  · exact keeps_some h
  · obtain ⟨hboundary, hle⟩ := forward_spec u h.placed h.cursor_boundary n
    exact keeps_replaceRange h hle h.cursor_boundary hboundary []

theorem keeps_deleteForwardKill (u : UnicodeSegmentation) (h : Good t) (n : ℕ) :
    Keeps (t.deleteForwardKill u n) := by
  unfold deleteForwardKill
  split
  · exact keeps_some h
  · obtain ⟨hboundary, hle⟩ := forward_spec u h.placed h.cursor_boundary n
    exact keeps_killRangeWithKind h hle h.cursor_boundary hboundary .characterwise

theorem keeps_deleteBackwardWord (u : UnicodeSegmentation) (h : Good t) :
    Keeps (t.deleteBackwardWord u) := by
  obtain ⟨start, hword, hboundary, hle⟩ := beginningOfPreviousWord_spec u h
  unfold deleteBackwardWord
  rw [hword]
  exact keeps_killRangeWithKind h hle hboundary h.cursor_boundary .characterwise

theorem keeps_deleteForwardWord (u : UnicodeSegmentation) (h : Good t) :
    Keeps (t.deleteForwardWord u) := by
  obtain ⟨stop, hword, hboundary⟩ := endOfNextWord_spec u h
  unfold deleteForwardWord
  rw [hword, Option.bind_some]
  split
  · next hlt => exact keeps_killRangeWithKind h hlt.le h.cursor_boundary hboundary .characterwise
  · exact keeps_some h

theorem keeps_killToEndOfLine (h : Good t) : Keeps t.killToEndOfLine := by
  obtain ⟨eol, heol, hboundary, hle, hnext⟩ := endOfLine_spec h.cursor_boundary
  unfold killToEndOfLine endOfCurrentLine
  rw [heol, Option.bind_some]
  split
  · next hcursor =>
    split
    · next hlt =>
      refine keeps_killRangeWithKind h ?_ h.cursor_boundary (hnext hlt) .characterwise
      dsimp only
      omega
    · exact keeps_some h
  · exact keeps_killRangeWithKind h hle h.cursor_boundary hboundary .characterwise

theorem keeps_vimKillToEndOfLine (h : Good t) : Keeps t.vimKillToEndOfLine := by
  obtain ⟨eol, heol, hboundary, hle, -⟩ := endOfLine_spec h.cursor_boundary
  unfold vimKillToEndOfLine endOfCurrentLine
  rw [heol, Option.bind_some]
  split
  · exact keeps_killRangeWithKind h hle h.cursor_boundary hboundary .characterwise
  · exact keeps_some h

theorem keeps_killToBeginningOfLine (h : Good t) : Keeps t.killToBeginningOfLine := by
  obtain ⟨bol, hbol, hboundary, hle, hprev⟩ := beginningOfLine_spec h.cursor_boundary
  unfold killToBeginningOfLine beginningOfCurrentLine
  rw [hbol, Option.bind_some]
  split
  · split
    · next hpos => exact keeps_killRangeWithKind h (Nat.sub_le bol 1) (hprev hpos) hboundary .characterwise
    · exact keeps_some h
  · exact keeps_killRangeWithKind h hle hboundary h.cursor_boundary .characterwise

theorem currentLineRangeWithNewline_spec (h : Good t) :
    ∃ range, t.currentLineRangeWithNewline = some range ∧ range.start ≤ range.stop ∧
      IsBoundary t.text range.start ∧ IsBoundary t.text range.stop := by
  obtain ⟨bol, hbol, hstart, hle, -⟩ := beginningOfLine_spec h.cursor_boundary
  obtain ⟨eol, heol, hstop, hge, hnext⟩ := endOfLine_spec h.cursor_boundary
  unfold currentLineRangeWithNewline beginningOfCurrentLine
    endOfCurrentLine
  rw [hbol, heol]
  refine ⟨_, rfl, ?_, hstart, ?_⟩
  · dsimp only
    split <;> omega
  · dsimp only
    split
    · next hlt => exact hnext hlt
    · exact hstop

theorem keeps_killCurrentLine (h : Good t) : Keeps t.killCurrentLine := by
  obtain ⟨range, hrange, hle, hstart, hstop⟩ := currentLineRangeWithNewline_spec h
  unfold killCurrentLine
  rw [hrange]
  exact keeps_killRangeWithKind h hle hstart hstop .linewise

theorem keeps_yankCurrentLine (h : Good t) : Keeps t.yankCurrentLine := by
  obtain ⟨range, hrange, hle, hstart, hstop⟩ := currentLineRangeWithNewline_spec h
  unfold yankCurrentLine
  rw [hrange]
  exact keeps_yankRangeWithKind h hle hstart hstop .linewise

theorem keeps_yank (h : Good t) : Keeps t.yank := by
  unfold yank
  split
  · exact keeps_some h
  · exact keeps_insertStrAt h _ _

theorem keeps_pasteLineAfterCurrentLine (h : Good t) : Keeps t.pasteLineAfterCurrentLine := by
  obtain ⟨eol, heol, -⟩ := endOfLine_spec h.cursor_boundary
  unfold pasteLineAfterCurrentLine endOfCurrentLine
  rw [heol, Option.bind_some]
  have hpaste : ∀ place text, Keeps ((t.insertStrAt place text).map fun t =>
      t.setCursor (min (eol + 1) (utf8Len t.text))) := by
    intro place text
    obtain ⟨t', hinsert, hgood⟩ := keeps_insertStrAt h place text
    rw [hinsert]
    exact keeps_some (good_setCursor hgood.placed _)
  split
  · exact hpaste _ _
  · exact hpaste _ _

theorem keeps_pasteAfterCursor (u : UnicodeSegmentation) (h : Good t) :
    Keeps (t.pasteAfterCursor u) := by
  unfold pasteAfterCursor
  split
  · exact keeps_some h
  · split
    · exact keeps_pasteLineAfterCurrentLine h
    · exact keeps_insertStrAt (good_setCursor h.placed _) _ _

theorem good_moveCursorLeft (u : UnicodeSegmentation) (h : Good t) : Good (t.moveCursorLeft u) := by
  obtain ⟨hboundary, houtside, -⟩ := prevAtomicBoundary_spec u h.placed h.cursor_boundary
  exact good_of hboundary h.placed houtside

theorem good_moveCursorRight (u : UnicodeSegmentation) (h : Good t) :
    Good (t.moveCursorRight u) := by
  obtain ⟨hboundary, houtside, -⟩ := nextAtomicBoundary_spec u h.placed h.cursor_boundary
  exact good_of hboundary h.placed houtside

end Codex.BottomPane
