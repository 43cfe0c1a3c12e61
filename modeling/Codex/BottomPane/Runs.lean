import Codex.Base.Forall
import Codex.Base.Machine
import Codex.BottomPane.Invariant

/-!
# Runs of the text area

Every edit keeps the state good but two: `set_text_with_elements` does not look for
overlaps, and `add_element_range` leaves the cursor where it is. A run is good in all its
states exactly if it uses neither of the two in that way (`edits_good_iff`).
-/

namespace Codex.BottomPane

open Codex.Text Codex.Machine

variable {u : UnicodeSegmentation} {t : TextArea} {s before middle after new : Str}
  {elements : List TextElement} {range : ByteRange} {start removed inserted : ℕ}
  {e : TextElement}

/-! ## Elements -/

theorem disjoint_symm {a b : ByteRange} (h : a.Disjoint b) : b.Disjoint a := h.symm

theorem pairwise_sortElements :
    ((sortElements elements).Pairwise fun a b => a.range.Disjoint b.range) ↔
      elements.Pairwise fun a b => a.range.Disjoint b.range :=
  List.Perm.pairwise_iff disjoint_symm (sortByKey_perm _ elements)

theorem mem_sortElements : e ∈ sortElements elements ↔ e ∈ elements :=
  (sortByKey_perm _ elements).mem_iff

/-- Elements are well placed in their order if they are disjoint. -/
theorem wellPlaced_sortElements
    (hdisjoint : elements.Pairwise fun a b => a.range.Disjoint b.range)
    (hnonempty : ∀ e ∈ elements, e.range.start < e.range.stop)
    (hstart : ∀ e ∈ elements, IsBoundary s e.range.start)
    (hstop : ∀ e ∈ elements, IsBoundary s e.range.stop) :
    WellPlaced s (sortElements elements) :=
  ⟨sortByKey_sorted _ elements, pairwise_sortElements.2 hdisjoint,
    fun e he => hnonempty e (mem_sortElements.1 he), fun e he => hstart e (mem_sortElements.1 he),
    fun e he => hstop e (mem_sortElements.1 he)⟩

theorem wellPlaced_addElement (h : WellPlaced t.text t.elements)
    (hnonempty : range.start < range.stop) (hstart : IsBoundary t.text range.start)
    (hstop : IsBoundary t.text range.stop)
    (hdisjoint : ∀ e ∈ t.elements, e.range.Disjoint range) :
    WellPlaced (t.addElement range).1.text (t.addElement range).1.elements := by
  apply wellPlaced_sortElements
  · refine List.pairwise_append.2 ⟨h.disjoint, List.pairwise_singleton _ _, fun e he d hd => ?_⟩
    rw [List.mem_singleton.1 hd]
    exact hdisjoint e he
  · exact List.forall_mem_append.2 ⟨h.nonempty, List.forall_mem_singleton.2 hnonempty⟩
  · exact List.forall_mem_append.2 ⟨h.start_boundary, List.forall_mem_singleton.2 hstart⟩
  · exact List.forall_mem_append.2 ⟨h.stop_boundary, List.forall_mem_singleton.2 hstop⟩

theorem keeps_insertElement (h : Good t) (hnew : new ≠ []) :
    Keeps ((t.insertElement new).map Prod.fst) := by
  have hpos : utf8Len new ≠ 0 := fun hzero => hnew (utf8Len_eq_zero.1 hzero)
  obtain ⟨t', before, after, hinsert, htext, hlen, hinserted⟩ :=
    insertStrAt_spec h.placed t.cursorPos new
  have hout : Outside t.elements (utf8Len before) := by
    rw [hlen]
    exact (clampPosToNearestBoundary_spec h.placed _).2
  have hgood := hinserted.good h htext hout
  unfold TextArea.insertElement TextArea.clampPosForInsertion
  rw [h.clamp_cursor] at hlen ⊢
  dsimp only
  rw [hinsert]
  refine keeps_some (good_setCursor (wellPlaced_addElement hgood.placed ?_ ?_ ?_ ?_) _)
  · dsimp only
    omega
  · rw [hinserted.text, List.append_assoc, ← hlen]
    exact isBoundary_of_parts rfl
  · rw [hinserted.text, ← hlen, ← utf8Len_append]
    exact isBoundary_of_parts rfl
  · intro e he
    rw [hinserted.elements] at he
    obtain ⟨d, hd, ⟨hbefore, hrange⟩ | ⟨hafter, hrange⟩⟩ :=
      mem_shiftElements (whole_empty hout) h.placed.nonempty he
    · rw [hrange]
      unfold ByteRange.Disjoint
      dsimp only
      omega
    · rw [hrange]
      unfold ByteRange.Disjoint
      dsimp only [ByteRange.shift]
      omega

theorem isBoundary_clampRange (s : Str) (range : ByteRange) :
    IsBoundary s (clampRange s range).start ∧ IsBoundary s (clampRange s range).stop :=
  ⟨isBoundary_clamp s _, isBoundary_clamp s _⟩

/-- An element is added to the range. -/
def Added (t : TextArea) (range : ByteRange) : Prop :=
  (clampRange t.text range).start < (clampRange t.text range).stop ∧
    ∀ e ∈ t.elements, ¬ e.range.Intersects (clampRange t.text range)

theorem addElementRange_cases (h : WellPlaced t.text t.elements) (range : ByteRange) :
    (¬ Added t range ∧ (t.addElementRange range).1 = t) ∨
      (Added t range ∧
        (t.addElementRange range).1 = (t.addElement (clampRange t.text range)).1) := by
  unfold TextArea.addElementRange Added
  dsimp only
  split
  · next hempty => exact .inl ⟨fun hadded => absurd hadded.1 (not_lt.2 hempty), rfl⟩
  · next hnonempty =>
    split
    · next hsame =>
      obtain ⟨e, he, heq⟩ := List.any_eq_true.1 hsame
      refine .inl ⟨fun hadded => hadded.2 e he ?_, rfl⟩
      have hne := h.nonempty e he
      rw [← of_decide_eq_true heq]
      exact ⟨hne, hne⟩
    · split
      · next hmeets =>
        obtain ⟨e, he, hmeet⟩ := List.any_eq_true.1 hmeets
        obtain ⟨hstart, hstop⟩ := of_decide_eq_true hmeet
        exact .inl ⟨fun hadded => hadded.2 e he ⟨hstop, hstart⟩, rfl⟩
      · next hapart =>
        refine .inr ⟨⟨not_le.1 hnonempty, fun e he hmeet => hapart ?_⟩, rfl⟩
        exact List.any_eq_true.2 ⟨e, he, decide_eq_true ⟨hmeet.2, hmeet.1⟩⟩

theorem good_addElementRange (h : Good t) (range : ByteRange) :
    Good (t.addElementRange range).1 ↔
      (Added t range → ¬ (clampRange t.text range).Contains t.cursorPos) := by
  rcases addElementRange_cases h.placed range with ⟨hadded, heq⟩ | ⟨hadded, heq⟩
  · rw [heq]
    exact iff_of_true h fun hadded' => absurd hadded' hadded
  · rw [heq]
    have hmem : ∀ e, e ∈ (t.addElement (clampRange t.text range)).1.elements ↔
        e ∈ t.elements ∨ e = ⟨t.nextElementId, clampRange t.text range⟩ := by
      intro e
      have hsort : e ∈ (t.addElement (clampRange t.text range)).1.elements ↔
        e ∈ t.elements ++ [⟨t.nextElementId, clampRange t.text range⟩] := mem_sortElements
      rw [hsort, List.mem_append, List.mem_singleton]
    constructor
    · exact fun hgood _ => hgood.outside _ ((hmem _).2 (.inr rfl))
    · intro hcursor
      obtain ⟨hstart, hstop⟩ := isBoundary_clampRange t.text range
      refine good_of h.cursor_boundary (wellPlaced_addElement h.placed hadded.1 hstart hstop ?_) ?_
      · intro e he
        have hapart := hadded.2 e he
        unfold ByteRange.Intersects at hapart
        unfold ByteRange.Disjoint
        omega
      · intro e he
        rcases (hmem e).1 he with hold | rfl
        · exact h.outside e hold
        · exact hcursor hadded

theorem wellPlaced_filter (h : WellPlaced s elements) (keep : TextElement → Bool) :
    WellPlaced s (elements.filter keep) :=
  ⟨h.sorted.filter _, h.disjoint.filter _, fun e he => h.nonempty e (List.mem_of_mem_filter he),
    fun e he => h.start_boundary e (List.mem_of_mem_filter he),
    fun e he => h.stop_boundary e (List.mem_of_mem_filter he)⟩

theorem good_removeElementRange (h : Good t) (range : ByteRange) :
    Good (t.removeElementRange range).1 := by
  unfold TextArea.removeElementRange
  dsimp only
  split
  · exact h
  · exact good_of h.cursor_boundary (wellPlaced_filter h.placed _)
      fun e he => h.outside e (List.mem_of_mem_filter he)

/-! ## The payload of an element -/

/-- What becomes of an element when the payload of the one at a place is replaced. -/
def Follows (start removed inserted : ℕ) (e e' : TextElement) : Prop :=
  (e.range = ⟨start, start + removed⟩ ∧ e'.range = ⟨start, start + inserted⟩) ∨
    (e.range.stop ≤ start ∧ e'.range = e.range) ∨
    (start + removed ≤ e.range.start ∧ e'.range = e.range.shift removed inserted)

theorem Follows.ends {e' : TextElement} (h : Follows start removed inserted e e') :
    (e.range.start = start ∧ e.range.stop = start + removed ∧
      e'.range.start = start ∧ e'.range.stop = start + inserted) ∨
    (e.range.stop ≤ start ∧ e'.range.start = e.range.start ∧ e'.range.stop = e.range.stop) ∨
    (start + removed ≤ e.range.start ∧ e'.range.start = e.range.start + inserted - removed ∧
      e'.range.stop = e.range.stop + inserted - removed) := by
  rcases h with ⟨hold, hnew⟩ | ⟨hbefore, hsame⟩ | ⟨hafter, hshift⟩
  · rw [hold, hnew]
    exact .inl ⟨rfl, rfl, rfl, rfl⟩
  · rw [hsame]
    exact .inr (.inl ⟨hbefore, rfl, rfl⟩)
  · rw [hshift]
    exact .inr (.inr ⟨hafter, rfl, rfl⟩)

theorem wellPlaced_follows {elements' : List TextElement}
    (h : WellPlaced (before ++ middle ++ after) elements) (hmiddle : middle ≠ []) (hnew : new ≠ [])
    (hfollows : List.Forall₂ (Follows (utf8Len before) (utf8Len middle) (utf8Len new))
      elements elements') : WellPlaced (before ++ new ++ after) elements' := by
  have hpos : utf8Len middle ≠ 0 := fun hzero => hmiddle (utf8Len_eq_zero.1 hzero)
  have hpos' : utf8Len new ≠ 0 := fun hzero => hnew (utf8Len_eq_zero.1 hzero)
  have hmem := fun e' (he' : e' ∈ elements') => forall₂_mem_right hfollows he'
  have hpair : elements'.Pairwise fun a b =>
      a.range.start ≤ b.range.start ∧ a.range.Disjoint b.range := by
    have hold := List.Pairwise.and_mem.1 (h.sorted.and h.disjoint)
    refine pairwise_of_forall₂ hfollows hold fun a b a' b' ha hb hab => ?_
    obtain ⟨hamem, hbmem, hle, hdisjoint⟩ := hab
    have hne := h.nonempty a hamem
    have hne' := h.nonempty b hbmem
    unfold ByteRange.Disjoint at hdisjoint ⊢
    have hends := ha.ends
    have hends' := hb.ends
    omega
  refine ⟨hpair.imp And.left, hpair.imp And.right, fun e' he' => ?_, fun e' he' => ?_,
    fun e' he' => ?_⟩
  · obtain ⟨e, he, ⟨hold, hnew'⟩ | ⟨hbefore, hsame⟩ | ⟨hafter, hshift⟩⟩ := hmem e' he'
    · rw [hnew']
      dsimp only
      omega
    · rw [hsame]
      exact h.nonempty e he
    · have hne := h.nonempty e he
      rw [hshift]
      dsimp only [ByteRange.shift]
      omega
  · obtain ⟨e, he, ⟨hold, hnew'⟩ | ⟨hbefore, hsame⟩ | ⟨hafter, hshift⟩⟩ := hmem e' he'
    · rw [hnew', List.append_assoc]
      exact isBoundary_of_parts rfl
    · have hne := h.nonempty e he
      rw [hsame]
      exact (h.start_boundary e he).before_edit (by omega) new
    · rw [hshift]
      exact (h.start_boundary e he).after_edit hafter new
  · obtain ⟨e, he, ⟨hold, hnew'⟩ | ⟨hbefore, hsame⟩ | ⟨hafter, hshift⟩⟩ := hmem e' he'
    · rw [hnew', ← utf8Len_append]
      exact isBoundary_of_parts rfl
    · rw [hsame]
      exact (h.stop_boundary e he).before_edit hbefore new
    · have hne := h.nonempty e he
      rw [hshift]
      exact (h.stop_boundary e he).after_edit (by omega) new

/-- The other elements are disjoint from the one whose payload is replaced. -/
theorem follows_shiftAround (h : WellPlaced s elements) {i j : ℕ} (hi : i < elements.length)
    (hj : j < elements.length) (hne : i ≠ j) (hrange : elements[j].range = ⟨start, start + removed⟩) :
    Follows start removed inserted elements[i]
      (if inserted = start + removed - start then elements[i]
        else TextArea.shiftAround start (start + removed) inserted elements[i]) := by
  have hpair := List.pairwise_iff_getElem.1 h.disjoint
  have hdisjoint : elements[i].range.Disjoint ⟨start, start + removed⟩ := by
    rw [← hrange]
    rcases Nat.lt_or_gt_of_ne hne with hlt | hgt
    · exact hpair i j hi hj hlt
    · exact disjoint_symm (hpair j i hj hi hgt)
  have hnonempty := h.nonempty elements[i] (List.getElem_mem hi)
  unfold ByteRange.Disjoint at hdisjoint
  unfold Follows TextArea.shiftAround
  rw [Nat.add_sub_cancel_left]
  by_cases hbefore : elements[i].range.stop ≤ start
  · refine .inr (.inl ⟨hbefore, ?_⟩)
    rw [if_pos hbefore, ite_self]
  · have hafter : start + removed ≤ elements[i].range.start := by
      dsimp only at hdisjoint
      omega
    refine .inr (.inr ⟨hafter, ?_⟩)
    rw [if_neg hbefore, if_pos hafter]
    split
    · next hsame =>
      unfold ByteRange.shift
      rw [hsame, Nat.add_sub_cancel, Nat.add_sub_cancel]
    · rfl

/-- What replacing the payload of an element does. -/
theorem replaceElementPayload_cases (h : WellPlaced t.text t.elements) (old new : Str) :
    t.replaceElementPayload old new = some (t, false) ∨
      ∃ before middle after elements' pos, t.text = before ++ middle ++ after ∧ middle ≠ [] ∧
        List.Forall₂ (Follows (utf8Len before) (utf8Len middle) (utf8Len new)) t.elements
          elements' ∧
        let moved := { t with text := before ++ new ++ after, elements := elements', cursorPos := pos }
        t.replaceElementPayload old new = some ({ moved with
          cursorPos := moved.clampPosToNearestBoundary pos
          elements := sortElements elements' }, true) := by
  unfold TextArea.replaceElementPayload
  split
  · exact .inl rfl
  · next idx hfind =>
    obtain ⟨hidx, -, -⟩ := List.findIdx?_eq_some_iff_getElem.1 hfind
    have he := List.getElem_mem hidx
    have hne := h.nonempty _ he
    obtain ⟨before, middle, after, htext, hstart, hstop⟩ :=
      exists_parts (h.start_boundary _ he) (h.stop_boundary _ he) hne.le
    have hmiddle : middle ≠ [] := by
      rintro rfl
      rw [utf8Len_nil] at hstop
      omega
    have hrange : t.elements[idx].range = ⟨utf8Len before, utf8Len before + utf8Len middle⟩ := by
      rw [hstop, hstart]
    have hlen : utf8Len t.text = utf8Len before + utf8Len middle + utf8Len after := by
      rw [htext, utf8Len_append, utf8Len_append]
    have hreplace : replaceBytes t.text (utf8Len before) (utf8Len before + utf8Len middle) new =
        some (before ++ new ++ after) :=
      replaceBytes_eq_some.2 ⟨before, middle, after, htext, rfl, rfl, rfl⟩
    rw [List.getElem?_eq_getElem hidx]
    cases hel : t.elements[idx] with
    | mk id range =>
      rw [hel] at hrange
      dsimp only at hrange
      subst hrange
      dsimp only
      rw [if_neg (by omega), hreplace]
      refine .inr ⟨before, middle, after, _, _, htext, hmiddle, ?_, rfl⟩
      refine List.forall₂_iff_get.2 ⟨List.length_mapIdx.symm, fun j hj hj' => ?_⟩
      rw [List.get_eq_getElem, List.get_eq_getElem, List.getElem_mapIdx]
      by_cases heq : j = idx
      · subst heq
        rw [if_pos rfl, hel]
        exact .inl ⟨rfl, rfl⟩
      · rw [if_neg heq]
        exact follows_shiftAround h hj hidx heq (by rw [hel])

theorem good_sorted (h : Good t) : Good { t with elements := sortElements t.elements } := by
  refine good_of h.cursor_boundary ?_ fun e he => h.outside e (mem_sortElements.1 he)
  exact wellPlaced_sortElements h.placed.disjoint h.placed.nonempty h.placed.start_boundary
    h.placed.stop_boundary

theorem keeps_replaceElementPayload (h : Good t) (old : Str) (hnew : new ≠ []) :
    Keeps ((t.replaceElementPayload old new).map Prod.fst) := by
  rcases replaceElementPayload_cases h.placed old new with
    heq | ⟨before, middle, after, elements', pos, htext, hmiddle, hfollows, heq⟩
  · rw [heq]
    exact keeps_some h
  · have hold := h.placed
    rw [htext] at hold
    have hplaced := wellPlaced_follows hold hmiddle hnew hfollows
    have hgood := good_sorted (good_clamped (t := { t with
      text := before ++ new ++ after, elements := elements', cursorPos := pos }) hplaced pos)
    rw [heq]
    exact keeps_some hgood

/-! ## Setting the text -/

theorem ranges_rebuildElements (s : Str) (id : ℕ) (ranges : List ByteRange) :
    (rebuildElements s id ranges).1.map (fun e => e.range) =
      (ranges.map (clampRange s)).filter fun range => range.start < range.stop := by
  induction ranges generalizing id with
  | nil => rfl
  | cons range ranges ih =>
    unfold rebuildElements
    dsimp only
    rw [List.map_cons]
    split
    · next hempty =>
      rw [List.filter_cons_of_neg (by rwa [decide_eq_true_eq, not_lt]), ih]
    · next hnonempty =>
      rw [List.filter_cons_of_pos (by rwa [decide_eq_true_eq, ← not_le]), ← ih (saturatingSucc id)]
      rfl

/-- The ranges that become elements do not overlap. -/
def Apart (text : Str) (ranges : List ByteRange) : Prop :=
  ((ranges.map (clampRange text)).filter fun range => range.start < range.stop).Pairwise
    ByteRange.Disjoint

theorem good_setTextInner (t : TextArea) (text : Str) (ranges : Option (List ByteRange)) :
    Good (t.setTextInner text ranges) ↔ Apart text (ranges.getD []) := by
  have hranges := ranges_rebuildElements text t.nextElementId (ranges.getD [])
  unfold Apart
  rw [← hranges, List.pairwise_map]
  have hmem : ∀ e ∈ (rebuildElements text t.nextElementId (ranges.getD [])).1,
      e.range.start < e.range.stop ∧ IsBoundary text e.range.start ∧ IsBoundary text e.range.stop := by
    intro e he
    have hin := List.mem_map_of_mem (f := fun e : TextElement => e.range) he
    rw [hranges] at hin
    obtain ⟨hin, hnonempty⟩ := List.mem_filter.1 hin
    obtain ⟨range, -, hclamped⟩ := List.mem_map.1 hin
    obtain ⟨hstart, hstop⟩ := isBoundary_clampRange text range
    rw [hclamped] at hstart hstop
    exact ⟨of_decide_eq_true hnonempty, hstart, hstop⟩
  constructor
  · exact fun hgood => pairwise_sortElements.1 hgood.placed.disjoint
  · intro hapart
    have hplaced := wellPlaced_sortElements hapart (fun e he => (hmem e he).1)
      (fun e he => (hmem e he).2.1) (fun e he => (hmem e he).2.2)
    exact good_clamped (t := { t with
      text
      elements := sortElements (rebuildElements text t.nextElementId (ranges.getD [])).1
      nextElementId := (rebuildElements text t.nextElementId (ranges.getD [])).2 }) hplaced _

/-! ## Runs -/

inductive Edit where
  | setTextClearingElements (text : Str)
  | setTextWithElements (text : Str) (ranges : List ByteRange)
  | insertStr (text : Str)
  | insertStrAt (pos : ℕ) (text : Str)
  | insertElement (text : Str)
  | replaceElementPayload (old new : Str)
  | replaceRange (range : ByteRange) (text : Str)
  | addElementRange (range : ByteRange)
  | removeElementRange (range : ByteRange)
  | setCursor (pos : ℕ)
  | deleteBackward (n : ℕ)
  | deleteForward (n : ℕ)
  | deleteForwardKill (n : ℕ)
  | deleteBackwardWord
  | deleteForwardWord
  | killToEndOfLine
  | vimKillToEndOfLine
  | killToBeginningOfLine
  | killCurrentLine
  | killRange (range : ByteRange) (kind : KillBufferKind)
  | yankRange (range : ByteRange) (kind : KillBufferKind)
  | yankCurrentLine
  | yank
  | pasteAfterCursor
  | moveCursorLeft
  | moveCursorRight

def step (u : UnicodeSegmentation) (t : TextArea) : Edit → Option TextArea
  | .setTextClearingElements text => some (t.setTextClearingElements text)
  | .setTextWithElements text ranges => some (t.setTextWithElements text ranges)
  | .insertStr text => t.insertStr text
  | .insertStrAt pos text => t.insertStrAt pos text
  | .insertElement text => (t.insertElement text).map Prod.fst
  | .replaceElementPayload old new => (t.replaceElementPayload old new).map Prod.fst
  | .replaceRange range text => t.replaceRange range text
  | .addElementRange range => some (t.addElementRange range).1
  | .removeElementRange range => some (t.removeElementRange range).1
  | .setCursor pos => some (t.setCursor pos)
  | .deleteBackward n => t.deleteBackward u n
  | .deleteForward n => t.deleteForward u n
  | .deleteForwardKill n => t.deleteForwardKill u n
  | .deleteBackwardWord => t.deleteBackwardWord u
  | .deleteForwardWord => t.deleteForwardWord u
  | .killToEndOfLine => t.killToEndOfLine
  | .vimKillToEndOfLine => t.vimKillToEndOfLine
  | .killToBeginningOfLine => t.killToBeginningOfLine
  | .killCurrentLine => t.killCurrentLine
  | .killRange range kind => t.killRangeWithKind range kind
  | .yankRange range kind => t.yankRangeWithKind range kind
  | .yankCurrentLine => t.yankCurrentLine
  | .yank => t.yank
  | .pasteAfterCursor => t.pasteAfterCursor u
  | .moveCursorLeft => some (t.moveCursorLeft u)
  | .moveCursorRight => some (t.moveCursorRight u)

/-- A range on boundaries inside the text. -/
def OnBoundaries (text : Str) (range : ByteRange) : Prop :=
  range.start ≤ range.stop ∧ IsBoundary text range.start ∧ IsBoundary text range.stop

/-- What callers keep to. -/
def Admissible (t : TextArea) : Edit → Prop
  | .insertElement text => text ≠ []
  | .replaceElementPayload _ new => new ≠ []
  | .replaceRange range _ => OnBoundaries t.text range
  | .killRange range _ => OnBoundaries t.text range
  | .yankRange range _ => OnBoundaries t.text range
  | _ => True

/-- The two edits that do not check enough are used with care. -/
def Careful (t : TextArea) : Edit → Prop
  | .setTextWithElements text ranges => Apart text ranges
  | .addElementRange range => Added t range → ¬ (clampRange t.text range).Contains t.cursorPos
  | _ => True

theorem Keeps.exact {edited : Option TextArea} (h : Keeps edited) :
    ∃ t', edited = some t' ∧ (Good t' ↔ True) := by
  obtain ⟨t', heq, hgood⟩ := h
  exact ⟨t', heq, iff_true_intro hgood⟩

theorem step_spec {op : Edit} (h : Good t) (hadmissible : Admissible t op) :
    ∃ t', step u t op = some t' ∧ (Good t' ↔ Careful t op) := by
  cases op with
  | setTextClearingElements text =>
    have hapart : Apart text [] := .nil
    exact Keeps.exact (keeps_some ((good_setTextInner t text none).2 hapart))
  | setTextWithElements text ranges => exact ⟨_, rfl, good_setTextInner t text (some ranges)⟩
  | insertStr text => exact (keeps_insertStrAt h _ text).exact
  | insertStrAt pos text => exact (keeps_insertStrAt h pos text).exact
  | insertElement text => exact (keeps_insertElement h hadmissible).exact
  | replaceElementPayload old new => exact (keeps_replaceElementPayload h old hadmissible).exact
  | replaceRange range text =>
    obtain ⟨hle, hstart, hstop⟩ := hadmissible
    exact (keeps_replaceRange h hle hstart hstop text).exact
  | addElementRange range => exact ⟨_, rfl, good_addElementRange h range⟩
  | removeElementRange range => exact (keeps_some (good_removeElementRange h range)).exact
  | setCursor pos => exact (keeps_some (good_setCursor h.placed pos)).exact
  | deleteBackward n => exact (keeps_deleteBackward u h n).exact
  | deleteForward n => exact (keeps_deleteForward u h n).exact
  | deleteForwardKill n => exact (keeps_deleteForwardKill u h n).exact
  | deleteBackwardWord => exact (keeps_deleteBackwardWord u h).exact
  | deleteForwardWord => exact (keeps_deleteForwardWord u h).exact
  | killToEndOfLine => exact (keeps_killToEndOfLine h).exact
  | vimKillToEndOfLine => exact (keeps_vimKillToEndOfLine h).exact
  | killToBeginningOfLine => exact (keeps_killToBeginningOfLine h).exact
  | killCurrentLine => exact (keeps_killCurrentLine h).exact
  | killRange range kind =>
    obtain ⟨hle, hstart, hstop⟩ := hadmissible
    exact (keeps_killRangeWithKind h hle hstart hstop kind).exact
  | yankRange range kind =>
    obtain ⟨hle, hstart, hstop⟩ := hadmissible
    exact (keeps_yankRangeWithKind h hle hstart hstop kind).exact
  | yankCurrentLine => exact (keeps_yankCurrentLine h).exact
  | yank => exact (keeps_yank h).exact
  | pasteAfterCursor => exact (keeps_pasteAfterCursor u h).exact
  | moveCursorLeft => exact (keeps_some (good_moveCursorLeft u h)).exact
  | moveCursorRight => exact (keeps_some (good_moveCursorRight u h)).exact

/-- **When a run goes through with good states only.** -/
theorem edits_good_iff (u : UnicodeSegmentation) {ops : List Edit}
    (hadmissible : AllMeet (step u) Admissible {} ops) :
    ((∃ t, run (step u) {} ops = some t) ∧
      ∀ before after t, ops = before ++ after → run (step u) {} before = some t → Good t) ↔
      AllMeet (step u) Careful {} ops :=
  completes_good_iff (fun _ _ => step_spec) good_new hadmissible

/-- Every character is a cluster, every text a word. -/
def charSegmentation : UnicodeSegmentation where
  prevBoundary s pos := .ok (if pos = 0 then none else some (prevCharBoundary s (pos - 1)))
  nextBoundary s pos := .ok (if utf8Len s ≤ pos then none
    else some (nextCharBoundary s (utf8Len s - (pos + 1)) (pos + 1)))
  splitWordBounds s := [s]
  prev_boundary s pos _ := by
    refine ⟨_, rfl, fun b hb => ?_⟩
    split at hb
    · cases hb
    · cases hb
      have hle := prevCharBoundary_le s (pos - 1)
      exact ⟨isBoundary_prevCharBoundary s _, by omega⟩
  next_boundary s pos _ := by
    refine ⟨_, rfl, fun b hb => ?_⟩
    split at hb
    · cases hb
    · cases hb
      have hle := le_nextCharBoundary s (utf8Len s - (pos + 1)) (pos + 1)
      exact ⟨isBoundary_nextCharBoundary (by omega), by omega⟩
  split_word_bounds s := List.flatten_singleton

/-- A placeholder that is typed around, jumped and killed. -/
theorem edits_good_iff_placeholder :
    ∃ t, run (step charSegmentation) {} [.insertStr "ab".toList, .insertElement "[i]".toList,
      .moveCursorLeft, .killToEndOfLine] = some t ∧ Good t := by
  have hadmissible : AllMeet (step charSegmentation) Admissible {} [.insertStr "ab".toList,
      .insertElement "[i]".toList, .moveCursorLeft, .killToEndOfLine] := by
    have hpayload : "[i]".toList ≠ [] := by decide
    refine allMeet_cons.2 ⟨trivial, fun _ _ => allMeet_cons.2 ⟨hpayload, fun _ _ => ?_⟩⟩
    exact allMeet_cons.2 ⟨trivial, fun _ _ => allMeet_cons.2 ⟨trivial, fun _ _ => allMeet_nil⟩⟩
  have hcareful : AllMeet (step charSegmentation) Careful {} [.insertStr "ab".toList,
      .insertElement "[i]".toList, .moveCursorLeft, .killToEndOfLine] := by
    refine allMeet_cons.2 ⟨trivial, fun _ _ => allMeet_cons.2 ⟨trivial, fun _ _ => ?_⟩⟩
    exact allMeet_cons.2 ⟨trivial, fun _ _ => allMeet_cons.2 ⟨trivial, fun _ _ => allMeet_nil⟩⟩
  obtain ⟨⟨t, hrun⟩, hgood⟩ := (edits_good_iff charSegmentation hadmissible).2 hcareful
  exact ⟨t, hrun, hgood _ [] t (List.append_nil _).symm hrun⟩

/-- Elements that overlap, and a cursor inside an element. -/
theorem not_good_run :
    (∃ t, AllMeet (step charSegmentation) Admissible {}
        [.setTextWithElements "abcd".toList [⟨0, 3⟩, ⟨1, 4⟩]] ∧
      run (step charSegmentation) {}
        [.setTextWithElements "abcd".toList [⟨0, 3⟩, ⟨1, 4⟩]] = some t ∧ ¬ Good t) ∧
    ∃ t, AllMeet (step charSegmentation) Admissible {}
        [.insertStr "abc".toList, .setCursor 1, .addElementRange ⟨0, 3⟩] ∧
      run (step charSegmentation) {}
        [.insertStr "abc".toList, .setCursor 1, .addElementRange ⟨0, 3⟩] = some t ∧ ¬ Good t := by
  constructor
  · refine ⟨{ text := "abcd".toList, elements := [⟨1, ⟨0, 3⟩⟩, ⟨2, ⟨1, 4⟩⟩], nextElementId := 3 },
      allMeet_cons.2 ⟨trivial, fun _ _ => allMeet_nil⟩, by decide, fun hgood => ?_⟩
    exact absurd hgood.placed.disjoint (by decide)
  · refine ⟨{ text := "abc".toList, cursorPos := 1, elements := [⟨1, ⟨0, 3⟩⟩], nextElementId := 2 },
      ?_, by decide, fun hgood => hgood.outside ⟨1, ⟨0, 3⟩⟩ List.mem_cons_self (by decide)⟩
    refine allMeet_cons.2 ⟨trivial, fun _ _ => allMeet_cons.2 ⟨trivial, fun _ _ => ?_⟩⟩
    exact allMeet_cons.2 ⟨trivial, fun _ _ => allMeet_nil⟩

end Codex.BottomPane
