import Codex.BottomPane.TextArea
import Mathlib.Data.List.Forall2
import Mathlib.Data.List.Pairwise

/-!
# Replacing ranges of the text area

`replace_range` first grows the range to the smallest one that takes every element it
meets as a whole. What is disjoint from that range keeps its payload (`replaceRange_spec`).
A kill is undone by a yank if the cursor was in the range: yank inserts at the cursor.
-/

namespace Codex.BottomPane

open Codex.Text

/-! ## Ranges and elements -/

/-- One range lies before the other. -/
def ByteRange.Disjoint (a b : ByteRange) : Prop := a.stop ≤ b.start ∨ b.stop ≤ a.start

instance (a b : ByteRange) : Decidable (a.Disjoint b) := inferInstanceAs (Decidable (_ ∨ _))

def ByteRange.Within (a b : ByteRange) : Prop := b.start ≤ a.start ∧ a.stop ≤ b.stop

instance (a b : ByteRange) : Decidable (a.Within b) := inferInstanceAs (Decidable (_ ∧ _))

def ByteRange.Intersects (a b : ByteRange) : Prop := a.start < b.stop ∧ b.start < a.stop

/-- Elements sorted and disjoint, none empty, all on boundaries of the text. -/
structure WellPlaced (text : Str) (elements : List TextElement) : Prop where
  sorted : elements.Pairwise fun a b => a.range.start ≤ b.range.start
  disjoint : elements.Pairwise fun a b => a.range.Disjoint b.range
  nonempty : ∀ e ∈ elements, e.range.start < e.range.stop
  start_boundary : ∀ e ∈ elements, IsBoundary text e.range.start
  stop_boundary : ∀ e ∈ elements, IsBoundary text e.range.stop

/-- A range that takes elements as a whole or not at all. -/
def Whole (elements : List TextElement) (range : ByteRange) : Prop :=
  ∀ e ∈ elements, e.range.Intersects range → e.range.Within range

/-- The smallest such range around another. -/
structure Smallest (elements : List TextElement) (range grown : ByteRange) : Prop where
  within : range.Within grown
  whole : Whole elements grown
  least : ∀ other, range.Within other → Whole elements other → grown.Within other

variable {elements : List TextElement} {range grown other : ByteRange} {e : TextElement}

/-! ## Growing a range -/

theorem within_growToElements (elements : List TextElement) (range : ByteRange) :
    range.Within (growToElements elements range) := by
  obtain ⟨hstart, hstop, -⟩ := growToElements_le elements range
  exact ⟨hstart, hstop⟩

theorem growToElement_within (hwithin : range.Within other)
    (hwhole : e.range.Intersects other → e.range.Within other) :
    (growToElement range e).Within other := by
  unfold growToElement
  split
  · next hmeet =>
    have hinside := hwhole ⟨by unfold ByteRange.Within at hwithin; omega,
      by unfold ByteRange.Within at hwithin; omega⟩
    unfold ByteRange.Within at hwithin hinside ⊢
    dsimp only
    omega
  · exact hwithin

theorem growToElements_within (hwithin : range.Within other) (hwhole : Whole elements other) :
    (growToElements elements range).Within other := by
  induction elements generalizing range with
  | nil => exact hwithin
  | cons e elements ih =>
    refine ih (growToElement_within hwithin (hwhole e List.mem_cons_self)) ?_
    exact fun d hd => hwhole d (List.mem_cons_of_mem e hd)

theorem growToElement_self (h : growToElement range e = range) (hmeet : e.range.Intersects range) :
    e.range.Within range := by
  unfold growToElement at h
  rw [if_pos ⟨hmeet.1, hmeet.2⟩] at h
  have hstart := congrArg ByteRange.start h
  have hstop := congrArg ByteRange.stop h
  dsimp only at hstart hstop
  unfold ByteRange.Within
  omega

/-- A range that no element makes larger takes the elements as a whole. -/
theorem whole_of_fixed (h : growToElements elements range = range) : Whole elements range := by
  induction elements with
  | nil => exact nofun
  | cons e elements ih =>
    have hgrow : growToElements elements (growToElement range e) = range := h
    have hfirst : growToElement range e = range := by
      obtain ⟨hstart, hstop, -⟩ := growToElement_le range e
      obtain ⟨hstart', hstop', -⟩ := growToElements_le elements (growToElement range e)
      rw [hgrow] at hstart' hstop'
      cases hgrown : growToElement range e
      cases range
      rw [hgrown] at hstart hstop hstart' hstop'
      dsimp only at hstart hstop hstart' hstop'
      congr 1 <;> omega
    rw [hfirst] at hgrow
    intro d hd
    rcases List.mem_cons.1 hd with rfl | hd
    · exact growToElement_self hfirst
    · exact ih hgrow d hd

theorem expandRange_of_fixed (h : growToElements elements range = range) :
    expandRangeToElementBoundaries elements range = range := by
  rw [expandRangeToElementBoundaries, if_pos h]

/-- **What the loop grows a range to.** -/
theorem smallest_expandRange (elements : List TextElement) (range : ByteRange) :
    Smallest elements range (expandRangeToElementBoundaries elements range) := by
  induction range using expandRangeToElementBoundaries.induct elements with
  | case1 range hfixed =>
    rw [expandRange_of_fixed hfixed]
    exact ⟨⟨le_refl _, le_refl _⟩, whole_of_fixed hfixed, fun other hwithin _ => hwithin⟩
  | case2 range hgrows ih =>
    rw [expandRangeToElementBoundaries, if_neg hgrows]
    obtain ⟨hstart, hstop⟩ := within_growToElements elements range
    refine ⟨⟨ih.within.1.trans hstart, hstop.trans ih.within.2⟩, ih.whole,
      fun other hwithin hwhole => ?_⟩
    exact ih.least other (growToElements_within hwithin hwhole) hwhole

theorem Smallest.unique (h : Smallest elements range grown) (h' : Smallest elements range other) :
    grown = other := by
  have hle := h.least other h'.within h'.whole
  have hge := h'.least grown h.within h.whole
  cases grown
  cases other
  unfold ByteRange.Within at hle hge
  dsimp only at hle hge
  congr 1 <;> omega

/-- What holds of the ends of the range and of the elements holds of the ends of the grown range. -/
theorem ends_growToElements {P Q : ℕ → Prop} (hstart : P range.start) (hstop : Q range.stop)
    (helements : ∀ e ∈ elements, P e.range.start ∧ Q e.range.stop) :
    P (growToElements elements range).start ∧ Q (growToElements elements range).stop := by
  induction elements generalizing range with
  | nil => exact ⟨hstart, hstop⟩
  | cons e elements ih =>
    obtain ⟨he, hrest⟩ := List.forall_mem_cons.1 helements
    refine ih ?_ ?_ hrest
    · unfold growToElement
      split
      · exact min_rec' P hstart he.1
      · exact hstart
    · unfold growToElement
      split
      · exact max_rec' Q hstop he.2
      · exact hstop

theorem ends_expandRange {P Q : ℕ → Prop} (hstart : P range.start) (hstop : Q range.stop)
    (helements : ∀ e ∈ elements, P e.range.start ∧ Q e.range.stop) :
    P (expandRangeToElementBoundaries elements range).start ∧
      Q (expandRangeToElementBoundaries elements range).stop := by
  induction range using expandRangeToElementBoundaries.induct elements with
  | case1 range hfixed =>
    rw [expandRange_of_fixed hfixed]
    exact ⟨hstart, hstop⟩
  | case2 range hgrows ih =>
    rw [expandRangeToElementBoundaries, if_neg hgrows]
    obtain ⟨hgrown, hgrown'⟩ := ends_growToElements hstart hstop helements
    exact ih hgrown hgrown'

/-! ## Moving elements along -/

section Shift

variable {pos removed inserted : ℕ} {before middle after new : Str}

theorem id_shiftElement (pos removed inserted : ℕ) (e : TextElement) :
    (shiftElement pos removed inserted e).id = e.id := by
  unfold shiftElement
  split
  · rfl
  · split <;> rfl

/-- An element that is disjoint from an edit stays or moves along. -/
theorem range_shiftElement (inserted : ℕ) (hne : e.range.start < e.range.stop)
    (h : e.range.Disjoint ⟨pos, pos + removed⟩) :
    (e.range.stop ≤ pos ∧ (shiftElement pos removed inserted e).range = e.range) ∨
      (pos + removed ≤ e.range.start ∧
        (shiftElement pos removed inserted e).range = e.range.shift removed inserted) := by
  unfold shiftElement
  rcases h with h | h
  · exact .inl ⟨h, by rw [if_pos h]⟩
  · dsimp only at h
    refine .inr ⟨h, ?_⟩
    rw [if_neg (by omega), if_pos h]

/-- The elements that are left after an edit are those disjoint from it. -/
theorem shiftElements_eq (hwhole : Whole elements ⟨pos, pos + removed⟩)
    (hnonempty : ∀ e ∈ elements, e.range.start < e.range.stop) :
    shiftElements elements pos removed inserted =
      (elements.filter fun e => e.range.Disjoint ⟨pos, pos + removed⟩).map
        (shiftElement pos removed inserted) := by
  unfold shiftElements
  refine congrArg _ (List.filter_congr fun e he => decide_eq_decide.2 ?_)
  have hne := hnonempty e he
  have hwithin := hwhole e he
  unfold ByteRange.Intersects ByteRange.Within at hwithin
  unfold ByteRange.Disjoint
  dsimp only at hwithin ⊢
  by_cases hmeet : e.range.start < pos + removed ∧ pos < e.range.stop
  · have hinside := hwithin hmeet
    omega
  · omega

theorem mem_shiftElements (hwhole : Whole elements ⟨pos, pos + removed⟩)
    (hnonempty : ∀ e ∈ elements, e.range.start < e.range.stop)
    (h : e ∈ shiftElements elements pos removed inserted) :
    ∃ d ∈ elements, (d.range.stop ≤ pos ∧ e.range = d.range) ∨
      (pos + removed ≤ d.range.start ∧ e.range = d.range.shift removed inserted) := by
  rw [shiftElements_eq hwhole hnonempty] at h
  obtain ⟨d, hd, rfl⟩ := List.mem_map.1 h
  obtain ⟨hd, hdisjoint⟩ := List.mem_filter.1 hd
  rw [decide_eq_true_eq] at hdisjoint
  exact ⟨d, hd, range_shiftElement inserted (hnonempty d hd) hdisjoint⟩

/-- What holds of any two elements in their order holds after an edit, if moving along keeps it. -/
theorem pairwise_shiftElements {R : ByteRange → ByteRange → Prop}
    (hwhole : Whole elements ⟨pos, pos + removed⟩)
    (hnonempty : ∀ e ∈ elements, e.range.start < e.range.stop)
    (h : elements.Pairwise fun a b => R a.range b.range)
    (hmove : ∀ a b : ByteRange, a.start < a.stop → b.start < b.stop → R a b →
      (a.stop ≤ pos → pos + removed ≤ b.start → R a (b.shift removed inserted)) ∧
      (pos + removed ≤ a.start → b.stop ≤ pos → R (a.shift removed inserted) b) ∧
      (pos + removed ≤ a.start → pos + removed ≤ b.start →
        R (a.shift removed inserted) (b.shift removed inserted))) :
    (shiftElements elements pos removed inserted).Pairwise fun a b => R a.range b.range := by
  rw [shiftElements_eq hwhole hnonempty, List.pairwise_map]
  refine (h.filter _).imp_of_mem fun {a b} ha hb hR => ?_
  obtain ⟨ha, hdisjoint⟩ := List.mem_filter.1 ha
  obtain ⟨hb, hdisjoint'⟩ := List.mem_filter.1 hb
  rw [decide_eq_true_eq] at hdisjoint hdisjoint'
  obtain ⟨hright, hleft, hboth⟩ := hmove a.range b.range (hnonempty a ha) (hnonempty b hb) hR
  rcases range_shiftElement inserted (hnonempty a ha) hdisjoint with ⟨hapos, ha'⟩ | ⟨hapos, ha'⟩
  · rcases range_shiftElement inserted (hnonempty b hb) hdisjoint' with ⟨-, hb'⟩ | ⟨hbpos, hb'⟩
    · rwa [ha', hb']
    · rw [ha', hb']
      exact hright hapos hbpos
  · rcases range_shiftElement inserted (hnonempty b hb) hdisjoint' with ⟨hbpos, hb'⟩ | ⟨hbpos, hb'⟩
    · rw [ha', hb']
      exact hleft hapos hbpos
    · rw [ha', hb']
      exact hboth hapos hbpos

/-- **Elements stay well placed** when a range is replaced that takes them as a whole. -/
theorem wellPlaced_edit (h : WellPlaced (before ++ middle ++ after) elements)
    (hwhole : Whole elements ⟨utf8Len before, utf8Len before + utf8Len middle⟩) (new : Str) :
    WellPlaced (before ++ new ++ after)
      (shiftElements elements (utf8Len before) (utf8Len middle) (utf8Len new)) := by
  refine ⟨?_, ?_, fun e he => ?_, fun e he => ?_, fun e he => ?_⟩
  · refine pairwise_shiftElements (R := fun a b => a.start ≤ b.start) hwhole h.nonempty h.sorted
      fun a b ha hb hle => ?_
    dsimp only [ByteRange.shift]
    omega
  · refine pairwise_shiftElements (R := ByteRange.Disjoint) hwhole h.nonempty h.disjoint
      fun a b ha hb hle => ?_
    unfold ByteRange.Disjoint at hle ⊢
    dsimp only [ByteRange.shift]
    omega
  · obtain ⟨d, hd, ⟨-, hrange⟩ | ⟨hpos, hrange⟩⟩ := mem_shiftElements hwhole h.nonempty he
    · rw [hrange]
      exact h.nonempty d hd
    · have hne := h.nonempty d hd
      rw [hrange]
      dsimp only [ByteRange.shift]
      omega
  · obtain ⟨d, hd, ⟨hpos, hrange⟩ | ⟨hpos, hrange⟩⟩ := mem_shiftElements hwhole h.nonempty he
    · have hne := h.nonempty d hd
      rw [hrange]
      exact (h.start_boundary d hd).before_edit (by omega) new
    · rw [hrange]
      exact (h.start_boundary d hd).after_edit hpos new
  · obtain ⟨d, hd, ⟨hpos, hrange⟩ | ⟨hpos, hrange⟩⟩ := mem_shiftElements hwhole h.nonempty he
    · rw [hrange]
      exact (h.stop_boundary d hd).before_edit hpos new
    · have hne := h.nonempty d hd
      rw [hrange]
      exact (h.stop_boundary d hd).after_edit (by omega) new

end Shift

/-! ## Clamping -/

section Clamp

variable {s : Str} {pos : ℕ} {t : TextArea}

theorem isBoundary_prevCharBoundary (s : Str) (pos : ℕ) : IsBoundary s (prevCharBoundary s pos) := by
  induction pos with
  | zero => exact isBoundary_zero s
  | succ pos ih =>
    unfold prevCharBoundary
    split
    · next h => exact isCharBoundary_iff.1 h
    · exact ih

theorem isBoundary_nextCharBoundary {left : ℕ} (h : pos + left = utf8Len s) :
    IsBoundary s (nextCharBoundary s left pos) := by
  induction left generalizing pos with
  | zero =>
    rw [nextCharBoundary, show pos = utf8Len s by omega]
    exact isBoundary_len s
  | succ left ih =>
    unfold nextCharBoundary
    split
    · next h => exact isCharBoundary_iff.1 h
    · apply ih
      omega

theorem prevCharBoundary_le (s : Str) (pos : ℕ) : prevCharBoundary s pos ≤ pos := by
  induction pos with
  | zero => exact le_refl 0
  | succ pos ih =>
    unfold prevCharBoundary
    split
    · exact le_refl _
    · exact ih.trans (Nat.le_succ pos)

theorem le_nextCharBoundary (s : Str) (left pos : ℕ) : pos ≤ nextCharBoundary s left pos := by
  induction left generalizing pos with
  | zero => exact le_refl pos
  | succ left ih =>
    unfold nextCharBoundary
    split
    · exact le_refl pos
    · exact (Nat.le_succ pos).trans (ih (pos + 1))

theorem isBoundary_clamp (s : Str) (pos : ℕ) : IsBoundary s (clampPosToCharBoundary s pos) := by
  unfold clampPosToCharBoundary
  dsimp only
  split
  · next h => exact isCharBoundary_iff.1 h
  · split
    · exact isBoundary_prevCharBoundary s _
    · apply isBoundary_nextCharBoundary
      omega

theorem clamp_of_boundary (h : IsBoundary s pos) : clampPosToCharBoundary s pos = pos := by
  unfold clampPosToCharBoundary
  dsimp only
  rw [min_eq_left h.le, if_pos (isCharBoundary_iff.2 h)]

/-- No element holds a position strictly inside. -/
def Outside (elements : List TextElement) (pos : ℕ) : Prop :=
  ∀ e ∈ elements, ¬ e.range.Contains pos

/-- The ends of the elements are outside all of them. -/
theorem WellPlaced.outside (h : WellPlaced s elements) (he : e ∈ elements) :
    Outside elements e.range.start ∧ Outside elements e.range.stop := by
  have hdisjoint : ∀ d ∈ elements, d ≠ e → d.range.Disjoint e.range := by
    have hsymm : Std.Symm fun a b : TextElement => a.range.Disjoint b.range := ⟨fun a b => Or.symm⟩
    exact fun d hd hne => h.disjoint.forall hd he hne
  have hall : ∀ d ∈ elements, ¬ d.range.Contains e.range.start ∧ ¬ d.range.Contains e.range.stop := by
    intro d hd
    have hne := h.nonempty d hd
    have hne' := h.nonempty e he
    unfold ByteRange.Contains
    by_cases heq : d = e
    · rw [heq]
      omega
    · have hapart := hdisjoint d hd heq
      unfold ByteRange.Disjoint at hapart
      omega
  exact ⟨fun d hd => (hall d hd).1, fun d hd => (hall d hd).2⟩

theorem findElementContaining_eq_some (h : t.findElementContaining pos = some e) :
    e ∈ t.elements ∧ e.range.Contains pos := by
  refine ⟨List.mem_of_find?_eq_some h, ?_⟩
  have hcontains := List.find?_some h
  rwa [decide_eq_true_eq] at hcontains

theorem outside_of_findElementContaining (h : t.findElementContaining pos = none) :
    Outside t.elements pos := by
  intro e he hcontains
  have hno := List.find?_eq_none.1 h e he
  rw [decide_eq_true_eq] at hno
  exact hno hcontains

/-- **A clamped position** is a boundary outside the elements. -/
theorem clampPosToNearestBoundary_spec (h : WellPlaced t.text t.elements) (pos : ℕ) :
    IsBoundary t.text (t.clampPosToNearestBoundary pos) ∧
      Outside t.elements (t.clampPosToNearestBoundary pos) := by
  unfold TextArea.clampPosToNearestBoundary
  dsimp only
  split
  · next e hfind =>
    have he := (findElementContaining_eq_some hfind).1
    obtain ⟨hstart, hstop⟩ := h.outside he
    split
    · rw [clamp_of_boundary (h.start_boundary e he)]
      exact ⟨h.start_boundary e he, hstart⟩
    · rw [clamp_of_boundary (h.stop_boundary e he)]
      exact ⟨h.stop_boundary e he, hstop⟩
  · next hfind => exact ⟨isBoundary_clamp t.text pos, outside_of_findElementContaining hfind⟩

theorem clampPosToNearestBoundary_of_outside (hpos : IsBoundary t.text pos)
    (h : Outside t.elements pos) : t.clampPosToNearestBoundary pos = pos := by
  unfold TextArea.clampPosToNearestBoundary
  dsimp only
  rw [clamp_of_boundary hpos]
  split
  · next e hfind =>
    obtain ⟨he, hcontains⟩ := findElementContaining_eq_some hfind
    exact absurd hcontains (h e he)
  · rfl

end Clamp

/-! ## Replacing a range -/

section Replace

variable {t : TextArea} {pos removed inserted : ℕ} {before middle after new : Str}

theorem shiftElements_zero (hwhole : Whole elements ⟨pos, pos⟩)
    (hnonempty : ∀ e ∈ elements, e.range.start < e.range.stop) :
    shiftElements elements pos 0 0 = elements := by
  have hstay : ∀ e ∈ elements, e.range.Disjoint ⟨pos, pos + 0⟩ := by
    intro e he
    have hne := hnonempty e he
    have hwithin := hwhole e he
    unfold ByteRange.Intersects ByteRange.Within at hwithin
    unfold ByteRange.Disjoint
    dsimp only at hwithin ⊢
    omega
  rw [shiftElements_eq hwhole hnonempty,
    List.filter_eq_self.2 fun e he => decide_eq_true (hstay e he)]
  have hid : ∀ e ∈ elements, shiftElement pos 0 0 e = id e := by
    intro e he
    unfold shiftElement ByteRange.shift
    rcases hstay e he with hpos | hpos
    · exact if_pos hpos
    · have hne := hnonempty e he
      dsimp only at hpos
      rw [if_neg (by omega), if_pos hpos]
      rfl
  rw [List.map_congr_left hid, List.map_id]

/-- No element is around what is inserted. -/
theorem outside_shiftElements (hwhole : Whole elements ⟨pos, pos + removed⟩)
    (hnonempty : ∀ e ∈ elements, e.range.start < e.range.stop) {cursor : ℕ} (hge : pos ≤ cursor)
    (hle : cursor ≤ pos + inserted) :
    Outside (shiftElements elements pos removed inserted) cursor := by
  intro e he hcontains
  unfold ByteRange.Contains at hcontains
  obtain ⟨d, hd, ⟨hpos, hrange⟩ | ⟨hpos, hrange⟩⟩ := mem_shiftElements hwhole hnonempty he
  · rw [hrange] at hcontains
    omega
  · rw [hrange] at hcontains
    dsimp only [ByteRange.shift] at hcontains
    omega

theorem slice_shiftElement (h : WellPlaced (before ++ middle ++ after) elements) (he : e ∈ elements)
    (hdisjoint : e.range.Disjoint ⟨utf8Len before, utf8Len before + utf8Len middle⟩) (new : Str) :
    ∃ payload, slice (before ++ middle ++ after) e.range.start e.range.stop = some payload ∧
      slice (before ++ new ++ after)
        (shiftElement (utf8Len before) (utf8Len middle) (utf8Len new) e).range.start
        (shiftElement (utf8Len before) (utf8Len middle) (utf8Len new) e).range.stop =
          some payload := by
  have hne := h.nonempty e he
  obtain ⟨left, payload, right, heq, hleft, hright⟩ :=
    exists_parts (h.start_boundary e he) (h.stop_boundary e he) hne.le
  have hpayload := slice_eq_some.2 ⟨left, right, heq, hleft, hright⟩
  refine ⟨payload, hpayload, ?_⟩
  rcases range_shiftElement (utf8Len new) hne hdisjoint with ⟨hpos, hrange⟩ | ⟨hpos, hrange⟩
  · rw [hrange]
    exact slice_before_edit hpayload hpos new
  · rw [hrange]
    exact slice_after_edit hpayload hpos new

/-- What replacing a part of the text does. -/
structure Replaced (t t' : TextArea) (before middle after new : Str) : Prop where
  text : t'.text = before ++ new ++ after
  elements : t'.elements =
    shiftElements t.elements (utf8Len before) (utf8Len middle) (utf8Len new)
  cursor : t' = t ∨ t'.cursorPos = t'.clampPosToNearestBoundary (min (TextArea.cursorAfter t.cursorPos
    (utf8Len before) (utf8Len before + utf8Len middle) (utf8Len new)) (utf8Len t'.text))
  killBuffer : t'.killBuffer = t.killBuffer

theorem replaceRangeRaw_spec (h : WellPlaced t.text t.elements)
    (htext : t.text = before ++ middle ++ after)
    (hwhole : Whole t.elements ⟨utf8Len before, utf8Len before + utf8Len middle⟩) (new : Str) :
    ∃ t', t.replaceRangeRaw ⟨utf8Len before, utf8Len before + utf8Len middle⟩ new = some t' ∧
      Replaced t t' before middle after new := by
  have hlen : utf8Len t.text = utf8Len before + utf8Len middle + utf8Len after := by
    rw [htext, utf8Len_append, utf8Len_append]
  have hstart : min (utf8Len before) (utf8Len t.text) = utf8Len before := by omega
  have hstop : min (utf8Len before + utf8Len middle) (utf8Len t.text) =
      utf8Len before + utf8Len middle := by omega
  have hmiddle : utf8Len before + utf8Len middle - utf8Len before = utf8Len middle := by omega
  unfold TextArea.replaceRangeRaw
  dsimp only
  rw [if_neg (by omega), hstart, hstop, hmiddle]
  by_cases hnone : utf8Len middle = 0 ∧ utf8Len new = 0
  · rw [if_pos hnone]
    have hempty : middle = [] ∧ new = [] := ⟨utf8Len_eq_zero.1 hnone.1, utf8Len_eq_zero.1 hnone.2⟩
    rw [hnone.1, Nat.add_zero] at hwhole
    refine ⟨t, rfl, ?_, ?_, .inl rfl, rfl⟩
    · rw [htext, hempty.1, hempty.2]
    · rw [hnone.1, hnone.2, shiftElements_zero hwhole h.nonempty]
  · rw [if_neg hnone]
    have hreplace : replaceBytes t.text (utf8Len before) (utf8Len before + utf8Len middle) new =
        some (before ++ new ++ after) :=
      replaceBytes_eq_some.2 ⟨before, middle, after, htext, rfl, rfl, rfl⟩
    rw [hreplace]
    exact ⟨_, rfl, rfl, rfl, .inr rfl, rfl⟩

/-- The range that is replaced, with the parts of the text around it. -/
theorem exists_grown_parts (h : WellPlaced t.text t.elements) {range : ByteRange}
    (hle : range.start ≤ range.stop) (hstart : IsBoundary t.text range.start)
    (hstop : IsBoundary t.text range.stop) :
    ∃ before middle after, t.text = before ++ middle ++ after ∧
      expandRangeToElementBoundaries t.elements range =
        ⟨utf8Len before, utf8Len before + utf8Len middle⟩ := by
  have hends : ∀ e ∈ t.elements,
      IsBoundary t.text e.range.start ∧ IsBoundary t.text e.range.stop :=
    fun e he => ⟨h.start_boundary e he, h.stop_boundary e he⟩
  obtain ⟨hgrown, hgrown'⟩ := ends_expandRange hstart hstop hends
  have hwithin := (smallest_expandRange t.elements range).within
  unfold ByteRange.Within at hwithin
  obtain ⟨before, middle, after, htext, hbefore, hmiddle⟩ :=
    exists_parts hgrown hgrown' (by omega)
  refine ⟨before, middle, after, htext, ?_⟩
  rw [hmiddle, hbefore]

/-- An element that is left, at its place or moved along, with its payload. -/
structure Kept (text text' : Str) (replaced : ByteRange) (inserted : ℕ) (e e' : TextElement) :
    Prop where
  id : e'.id = e.id
  range : e'.range = if e.range.stop ≤ replaced.start then e.range
    else e.range.shift (replaced.stop - replaced.start) inserted
  payload : ∃ payload, slice text e.range.start e.range.stop = some payload ∧
    slice text' e'.range.start e'.range.stop = some payload

theorem Replaced.kept {t' : TextArea} (hreplaced : Replaced t t' before middle after new)
    (h : WellPlaced t.text t.elements) (htext : t.text = before ++ middle ++ after)
    (hwhole : Whole t.elements ⟨utf8Len before, utf8Len before + utf8Len middle⟩) :
    List.Forall₂
      (Kept t.text t'.text ⟨utf8Len before, utf8Len before + utf8Len middle⟩ (utf8Len new))
      (t.elements.filter fun e =>
        e.range.Disjoint ⟨utf8Len before, utf8Len before + utf8Len middle⟩) t'.elements := by
  rw [hreplaced.elements, shiftElements_eq hwhole h.nonempty, List.forall₂_map_right_iff,
    List.forall₂_same]
  intro e he
  obtain ⟨he, hdisjoint⟩ := List.mem_filter.1 he
  rw [decide_eq_true_eq] at hdisjoint
  have hne := h.nonempty e he
  refine ⟨id_shiftElement _ _ _ e, ?_, ?_⟩
  · dsimp only
    rw [Nat.add_sub_cancel_left]
    rcases range_shiftElement (utf8Len new) hne hdisjoint with ⟨hpos, hrange⟩ | ⟨hpos, hrange⟩
    · rw [hrange, if_pos hpos]
    · rw [hrange, if_neg (by omega)]
  · rw [htext] at h ⊢
    rw [hreplaced.text]
    exact slice_shiftElement h he hdisjoint new

/-- What inserting at a place does. -/
structure Inserted (t t' : TextArea) (before after new : Str) : Prop where
  text : t'.text = before ++ new ++ after
  elements : t'.elements = shiftElements t.elements (utf8Len before) 0 (utf8Len new)
  cursor : t'.cursorPos =
    if utf8Len before ≤ t.cursorPos then t.cursorPos + utf8Len new else t.cursorPos

theorem insertStrAt_spec (h : WellPlaced t.text t.elements) (pos : ℕ) (new : Str) :
    ∃ t' before after, t.insertStrAt pos new = some t' ∧ t.text = before ++ after ∧
      utf8Len before = t.clampPosToNearestBoundary pos ∧ Inserted t t' before after new := by
  obtain ⟨before, after, htext, hlen⟩ := (clampPosToNearestBoundary_spec h pos).1
  have hinsert : insertBytes t.text (utf8Len before) new = some (before ++ new ++ after) :=
    insertBytes_eq_some.2 ⟨before, after, htext, rfl, rfl⟩
  unfold TextArea.insertStrAt TextArea.clampPosForInsertion
  dsimp only
  rw [← hlen, hinsert]
  exact ⟨_, before, after, rfl, htext, rfl, rfl, rfl, rfl⟩

/-- What a kill does: the text goes to the kill buffer. -/
theorem killRangeWithKind_spec (h : WellPlaced t.text t.elements) {range : ByteRange}
    (htext : t.text = before ++ middle ++ after)
    (hgrown : expandRangeToElementBoundaries t.elements range =
      ⟨utf8Len before, utf8Len before + utf8Len middle⟩) (kind : KillBufferKind) :
    (middle = [] ∧ t.killRangeWithKind range kind = some t) ∨
      ∃ t', t.killRangeWithKind range kind = some t' ∧
        Replaced (t.storeKillBuffer middle kind) t' before middle after [] := by
  unfold TextArea.killRangeWithKind
  dsimp only
  rw [hgrown]
  dsimp only
  by_cases hempty : middle = []
  · refine .inl ⟨hempty, if_pos ?_⟩
    rw [hempty, utf8Len_nil, Nat.add_zero]
  · have hpos : utf8Len middle ≠ 0 := fun hzero => hempty (utf8Len_eq_zero.1 hzero)
    have hslice := slice_eq_some.2 ⟨before, after, htext, rfl, rfl⟩
    have hwhole := (smallest_expandRange t.elements range).whole
    rw [hgrown] at hwhole
    rw [if_neg (by omega), hslice]
    dsimp only [Option.bind_some]
    rw [if_neg hempty]
    have hkept : WellPlaced (t.storeKillBuffer middle kind).text
      (t.storeKillBuffer middle kind).elements := h
    exact .inr (replaceRangeRaw_spec hkept htext hwhole [])

/-- A cursor in the range goes to the end of the new text. -/
theorem Replaced.cursorPos_eq {t' : TextArea} (hreplaced : Replaced t t' before middle after new)
    (hne : t'.text ≠ t.text) (hle : utf8Len before ≤ t.cursorPos)
    (hge : t.cursorPos ≤ utf8Len before + utf8Len middle) :
    t'.cursorPos = t'.clampPosToNearestBoundary (utf8Len before + utf8Len new) := by
  rcases hreplaced.cursor with rfl | hclamped
  · exact absurd rfl hne
  · have hafter : TextArea.cursorAfter t.cursorPos (utf8Len before)
        (utf8Len before + utf8Len middle) (utf8Len new) = utf8Len before + utf8Len new := by
      unfold TextArea.cursorAfter
      rw [if_neg (by omega), if_pos hge]
    have hinside : utf8Len before + utf8Len new ≤ utf8Len t'.text := by
      rw [hreplaced.text, utf8Len_append, utf8Len_append]
      omega
    rw [hclamped, hafter, min_eq_left hinside]

/-- **A yank undoes a kill** around the cursor. -/
theorem yank_killRangeWithKind (h : WellPlaced t.text t.elements) {range : ByteRange}
    (htext : t.text = before ++ middle ++ after)
    (hgrown : expandRangeToElementBoundaries t.elements range =
      ⟨utf8Len before, utf8Len before + utf8Len middle⟩) (hmiddle : middle ≠ [])
    (hle : utf8Len before ≤ t.cursorPos) (hge : t.cursorPos ≤ utf8Len before + utf8Len middle)
    (kind : KillBufferKind) :
    ∃ t' t'', t.killRangeWithKind range kind = some t' ∧ t'.yank = some t'' ∧ t''.text = t.text := by
  obtain ⟨hempty, -⟩ | ⟨t', hkill, hreplaced⟩ := killRangeWithKind_spec h htext hgrown kind
  · exact absurd hempty hmiddle
  have hwhole := (smallest_expandRange t.elements range).whole
  rw [hgrown] at hwhole
  have hbuffer : t'.killBuffer = middle := hreplaced.killBuffer
  have hplaced : WellPlaced t'.text t'.elements := by
    rw [hreplaced.text, hreplaced.elements]
    rw [htext] at h
    exact wellPlaced_edit h hwhole []
  have htext' : t'.text = before ++ after := by rw [hreplaced.text, List.append_nil]
  -- the cursor is where the text was, and no element is around it
  have hcursor : t'.clampPosToNearestBoundary (utf8Len before) = utf8Len before := by
    apply clampPosToNearestBoundary_of_outside
    · exact ⟨before, after, htext', rfl⟩
    · rw [hreplaced.elements]
      exact outside_shiftElements hwhole h.nonempty (le_refl _) (Nat.le_add_right _ _)
  have hne : t'.text ≠ t.text := by
    intro heq
    rw [htext', htext] at heq
    have hlen := congrArg utf8Len heq
    simp only [utf8Len_append] at hlen
    exact hmiddle (utf8Len_eq_zero.1 (by omega))
  have hat : t'.cursorPos = utf8Len before := (hreplaced.cursorPos_eq hne hle hge).trans hcursor
  obtain ⟨t'', left, right, hyank, hleft, hlen, hinserted⟩ :=
    insertStrAt_spec hplaced t'.cursorPos t'.killBuffer
  refine ⟨t', t'', hkill, ?_, ?_⟩
  · unfold TextArea.yank TextArea.insertStr
    rw [if_neg (by rwa [hbuffer])]
    exact hyank
  · rw [hat, hcursor] at hlen
    obtain ⟨rest, hrest, hright⟩ := append_split (hleft.symm.trans htext') hlen.le
    have hnil : rest = [] := by
      rw [hrest, utf8Len_append] at hlen
      apply utf8Len_eq_zero.1
      omega
    rw [hnil, List.append_nil] at hrest
    rw [hnil, List.nil_append] at hright
    rw [hinserted.text, hbuffer, htext, ← hrest, hright]

end Replace

/-- **What replacing a range does**, and when a yank undoes a kill. -/
theorem replaceRange_spec {t : TextArea} {range : ByteRange} (h : WellPlaced t.text t.elements)
    (hle : range.start ≤ range.stop) (hstart : IsBoundary t.text range.start)
    (hstop : IsBoundary t.text range.stop) :
    ∃ before middle after grown, t.text = before ++ middle ++ after ∧
      grown = ⟨utf8Len before, utf8Len before + utf8Len middle⟩ ∧
      expandRangeToElementBoundaries t.elements range = grown ∧
      (∀ other, Smallest t.elements range other ↔ other = grown) ∧
      (∀ new, ∃ t', t.replaceRange range new = some t' ∧ t'.text = before ++ new ++ after ∧
        List.Forall₂ (Kept t.text t'.text grown (utf8Len new))
          (t.elements.filter fun e => e.range.Disjoint grown) t'.elements) ∧
      ∀ kind, range.start < range.stop → grown.start ≤ t.cursorPos → t.cursorPos ≤ grown.stop →
        ∃ t' t'', t.killRangeWithKind range kind = some t' ∧ t'.yank = some t'' ∧
          t''.text = t.text := by
  obtain ⟨before, middle, after, htext, hgrown⟩ := exists_grown_parts h hle hstart hstop
  have hsmallest := smallest_expandRange t.elements range
  rw [hgrown] at hsmallest
  refine ⟨before, middle, after, _, htext, rfl, hgrown, fun other => ?_, fun new => ?_,
    fun kind hlt hge hle' => ?_⟩
  · constructor
    · exact fun hother => hother.unique hsmallest
    · rintro rfl
      exact hsmallest
  · obtain ⟨t', hraw, hreplaced⟩ := replaceRangeRaw_spec h htext hsmallest.whole new
    refine ⟨t', ?_, hreplaced.text, hreplaced.kept h htext hsmallest.whole⟩
    unfold TextArea.replaceRange
    rw [hgrown, hraw]
  · have hmiddle : middle ≠ [] := by
      rintro rfl
      have hwithin := hsmallest.within
      unfold ByteRange.Within at hwithin
      rw [utf8Len_nil] at hwithin
      dsimp only at hwithin
      omega
    exact yank_killRangeWithKind h htext hgrown hmiddle hge hle' kind

/-- A placeholder that is met by a kill from the left. -/
theorem replaceRange_spec_placeholder :
    ∃ t' t'', ({ text := "a[i]b".toList, cursorPos := 1, elements := [⟨1, ⟨1, 4⟩⟩] } :
        TextArea).killRangeWithKind ⟨0, 2⟩ .characterwise = some t' ∧ t'.yank = some t'' ∧
      t''.text = "a[i]b".toList := by
  have hplaced : WellPlaced "a[i]b".toList [⟨1, ⟨1, 4⟩⟩] :=
    ⟨by decide, by decide, by decide, by decide, by decide⟩
  have hle : (⟨0, 2⟩ : ByteRange).start ≤ (⟨0, 2⟩ : ByteRange).stop := by decide
  obtain ⟨before, middle, after, grown, -, -, -, hsmallest, -, hkill⟩ :=
    replaceRange_spec (t := { text := "a[i]b".toList, cursorPos := 1, elements := [⟨1, ⟨1, 4⟩⟩] })
      hplaced hle (by decide) (by decide)
  obtain ⟨hstart, hstop⟩ := ((hsmallest grown).2 rfl).within
  dsimp only at hstart hstop hkill
  exact hkill .characterwise (by decide) (by omega) (by omega)

/-- With the cursor before the killed range a yank puts the text elsewhere, and an element that
splits a character makes an edit panic. -/
theorem kill_elsewhere :
    (∃ t t' t'' : TextArea, WellPlaced t.text t.elements ∧
      IsBoundary t.text 1 ∧ IsBoundary t.text 4 ∧
      t.killRangeWithKind ⟨1, 4⟩ .characterwise = some t' ∧ t'.yank = some t'' ∧
      t''.text ≠ t.text) ∧
    ∃ t : TextArea, t.elements = [⟨1, ⟨1, 3⟩⟩] ∧ utf8Len t.text = 3 ∧
      IsBoundary t.text 2 ∧ IsBoundary t.text 3 ∧ t.replaceRange ⟨2, 3⟩ [] = none := by
  refine ⟨⟨{ text := "(abc)".toList }, { text := "()".toList, killBuffer := "abc".toList },
    { text := "abc()".toList, cursorPos := 3, killBuffer := "abc".toList }, ?_, by decide,
    by decide, ?_, by decide, by decide⟩, ?_⟩
  · exact ⟨by decide, by decide, by decide, by decide, by decide⟩
  · have hgrown : expandRangeToElementBoundaries [] ⟨1, 4⟩ = ⟨1, 4⟩ := expandRange_of_fixed rfl
    unfold TextArea.killRangeWithKind
    dsimp only
    rw [hgrown]
    decide
  · refine ⟨{ text := "éx".toList, elements := [⟨1, ⟨1, 3⟩⟩] }, rfl, by decide, by decide,
      by decide, ?_⟩
    have hgrown : expandRangeToElementBoundaries [⟨1, ⟨1, 3⟩⟩] ⟨2, 3⟩ = ⟨1, 3⟩ := by
      rw [expandRangeToElementBoundaries, if_neg (by decide)]
      exact expandRange_of_fixed rfl
    unfold TextArea.replaceRange
    dsimp only
    rw [hgrown]
    decide

end Codex.BottomPane
