import Codex.Base.StableSort
import Codex.Text.Offsets
import Mathlib.Order.Lattice

/-!
# The text area

`TextArea` (`tui/src/bottom_pane/textarea.rs`) holds the text of the composer, the cursor,
a buffer of killed text, and elements: ranges of the text, such as placeholders of images,
that are edited as a whole. Offsets are in bytes. An operation that would panic gives `none`.
-/

namespace Codex.BottomPane

open Codex.Text

/-! ## State -/

structure ByteRange where
  start : ℕ
  stop : ℕ
  deriving DecidableEq

structure TextElement where
  id : ℕ
  range : ByteRange
  deriving DecidableEq

inductive KillBufferKind where
  | characterwise
  | linewise
  deriving DecidableEq

/-- `TextArea::new` is the state with the defaults. -/
structure TextArea where
  text : Str := []
  cursorPos : ℕ := 0
  elements : List TextElement := []
  nextElementId : ℕ := 1
  killBuffer : Str := []
  killBufferKind : KillBufferKind := .characterwise
  deriving DecidableEq

/-- What is used of `unicode_segmentation`, with what its documentation says of it. -/
structure UnicodeSegmentation where
  /-- `GraphemeCursor::prev_boundary` on a whole text. -/
  prevBoundary : Str → ℕ → Except Unit (Option ℕ)
  /-- `GraphemeCursor::next_boundary` on a whole text. -/
  nextBoundary : Str → ℕ → Except Unit (Option ℕ)
  /-- The segments of `split_word_bound_indices`. -/
  splitWordBounds : Str → List Str
  prev_boundary : ∀ s pos, IsBoundary s pos → ∃ found, prevBoundary s pos = .ok found ∧
    ∀ b, found = some b → IsBoundary s b ∧ b < pos
  next_boundary : ∀ s pos, IsBoundary s pos → ∃ found, nextBoundary s pos = .ok found ∧
    ∀ b, found = some b → IsBoundary s b ∧ pos < b
  split_word_bounds : ∀ s, (splitWordBounds s).flatten = s

/-! ## Positions -/

/-- `while prev > 0 && !is_char_boundary(prev)`. -/
def prevCharBoundary (s : Str) : ℕ → ℕ
  | 0 => 0
  | pos + 1 => if isCharBoundary s (pos + 1) then pos + 1 else prevCharBoundary s pos

/-- `while next < len && !is_char_boundary(next)`, with what is left up to the end. -/
def nextCharBoundary (s : Str) : ℕ → ℕ → ℕ
  | 0, pos => pos
  | left + 1, pos => if isCharBoundary s pos then pos else nextCharBoundary s left (pos + 1)

def clampPosToCharBoundary (s : Str) (pos : ℕ) : ℕ :=
  let pos := min pos (utf8Len s)
  if isCharBoundary s pos then pos
  else
    let prev := prevCharBoundary s pos
    let next := nextCharBoundary s (utf8Len s - pos) pos
    if pos - prev ≤ next - pos then prev else next

def ByteRange.Contains (range : ByteRange) (pos : ℕ) : Prop := range.start < pos ∧ pos < range.stop

instance (range : ByteRange) (pos : ℕ) : Decidable (range.Contains pos) :=
  inferInstanceAs (Decidable (_ ∧ _))

namespace TextArea

variable (t : TextArea)

def findElementContaining (pos : ℕ) : Option TextElement :=
  t.elements.find? fun e => e.range.Contains pos

def clampPosToNearestBoundary (pos : ℕ) : ℕ :=
  let pos := clampPosToCharBoundary t.text pos
  match t.findElementContaining pos with
  | some e =>
    if pos - e.range.start ≤ e.range.stop - pos then clampPosToCharBoundary t.text e.range.start
    else clampPosToCharBoundary t.text e.range.stop
  | none => pos

/-- The body is that of `clamp_pos_to_nearest_boundary`. -/
def clampPosForInsertion (pos : ℕ) : ℕ := t.clampPosToNearestBoundary pos

def adjustPosOutOfElements (pos : ℕ) (preferStart : Bool) : ℕ :=
  match t.findElementContaining pos with
  | some e => if preferStart then e.range.start else e.range.stop
  | none => pos

def setCursor (pos : ℕ) : TextArea :=
  { t with cursorPos := t.clampPosToNearestBoundary (min pos (utf8Len t.text)) }

end TextArea

/-! ## Ranges -/

/-- A step of the loop over the elements. -/
def growToElement (range : ByteRange) (e : TextElement) : ByteRange :=
  if e.range.start < range.stop ∧ range.start < e.range.stop then
    ⟨min range.start e.range.start, max range.stop e.range.stop⟩
  else range

def growToElements (elements : List TextElement) (range : ByteRange) : ByteRange :=
  elements.foldl growToElement range

/-- No element ends behind this. -/
def lastStop (elements : List TextElement) : ℕ := (elements.map fun e => e.range.stop).foldr max 0

theorem growToElement_le (range : ByteRange) (e : TextElement) :
    (growToElement range e).start ≤ range.start ∧ range.stop ≤ (growToElement range e).stop ∧
      (growToElement range e).stop ≤ max range.stop e.range.stop := by
  unfold growToElement
  split
  · exact ⟨min_le_left _ _, le_max_left _ _, le_refl _⟩
  · exact ⟨le_refl _, le_refl _, le_max_left _ _⟩

theorem growToElements_le (elements : List TextElement) (range : ByteRange) :
    (growToElements elements range).start ≤ range.start ∧
      range.stop ≤ (growToElements elements range).stop ∧
      (growToElements elements range).stop ≤ max range.stop (lastStop elements) := by
  induction elements generalizing range with
  | nil => exact ⟨le_refl _, le_refl _, le_max_left _ _⟩
  | cons e elements ih =>
    obtain ⟨hstart, hstop, hlast⟩ := ih (growToElement range e)
    obtain ⟨hstart', hstop', hlast'⟩ := growToElement_le range e
    have hcons : lastStop (e :: elements) = max e.range.stop (lastStop elements) := rfl
    have hgrow : growToElements (e :: elements) range =
      growToElements elements (growToElement range e) := rfl
    rw [hgrow, hcons]
    omega

/-- The loop goes on while the range grows. -/
def expandRangeToElementBoundaries (elements : List TextElement) (range : ByteRange) : ByteRange :=
  if growToElements elements range = range then range
  else expandRangeToElementBoundaries elements (growToElements elements range)
termination_by range.start + (lastStop elements - range.stop)
decreasing_by
  next hne =>
    obtain ⟨hstart, hstop, hlast⟩ := growToElements_le elements range
    have hdiff : (growToElements elements range).start ≠ range.start ∨
        (growToElements elements range).stop ≠ range.stop := by
      by_contra hsame
      rw [not_or, not_not, not_not] at hsame
      apply hne
      cases hgrown : growToElements elements range
      cases range
      rw [hgrown] at hsame
      exact congrArg₂ ByteRange.mk hsame.1 hsame.2
    omega

/-! ## Edits of the element list -/

/-- A range behind an edit moves along. -/
def ByteRange.shift (range : ByteRange) (removed inserted : ℕ) : ByteRange :=
  ⟨range.start + inserted - removed, range.stop + inserted - removed⟩

def shiftElement (pos removed inserted : ℕ) (e : TextElement) : TextElement :=
  if e.range.stop ≤ pos then e
  else if pos + removed ≤ e.range.start then { e with range := e.range.shift removed inserted }
  else
    { e with range :=
        ⟨min pos e.range.start, pos + max inserted (e.range.stop - (pos + removed))⟩ }

def shiftElements (elements : List TextElement) (pos removed inserted : ℕ) : List TextElement :=
  (elements.filter fun e => ¬ (pos ≤ e.range.start ∧ e.range.stop ≤ pos + removed)).map
    (shiftElement pos removed inserted)

def sortElements (elements : List TextElement) : List TextElement :=
  sortByKey (fun e => e.range.start) elements

/-- `u64::saturating_add(1)`. -/
def saturatingSucc (id : ℕ) : ℕ := min (id + 1) (2 ^ 64 - 1)

/-- Both ends of a range on boundaries of the text. -/
def clampRange (s : Str) (range : ByteRange) : ByteRange :=
  ⟨clampPosToCharBoundary s (min range.start (utf8Len s)),
    clampPosToCharBoundary s (min range.stop (utf8Len s))⟩

/-- The elements of `set_text_inner`, with the next id. -/
def rebuildElements (s : Str) : ℕ → List ByteRange → List TextElement × ℕ
  | id, [] => ([], id)
  | id, range :: ranges =>
    let clamped := clampRange s range
    if clamped.stop ≤ clamped.start then rebuildElements s id ranges
    else
      let (elements, next) := rebuildElements s (saturatingSucc id) ranges
      (⟨id, clamped⟩ :: elements, next)

namespace TextArea

variable (t : TextArea)

def setTextInner (text : Str) (elements : Option (List ByteRange)) : TextArea :=
  let cursorPos := min t.cursorPos (utf8Len text)
  let (rebuilt, nextElementId) := rebuildElements text t.nextElementId (elements.getD [])
  let t := { t with text, elements := sortElements rebuilt, nextElementId }
  { t with cursorPos := t.clampPosToNearestBoundary cursorPos }

def setTextClearingElements (text : Str) : TextArea := t.setTextInner text none

def setTextWithElements (text : Str) (elements : List ByteRange) : TextArea :=
  t.setTextInner text (some elements)

def insertStrAt (pos : ℕ) (new : Str) : Option TextArea :=
  let pos := t.clampPosForInsertion pos
  (insertBytes t.text pos new).map fun text =>
    { t with
      text
      cursorPos := if pos ≤ t.cursorPos then t.cursorPos + utf8Len new else t.cursorPos
      elements := shiftElements t.elements pos 0 (utf8Len new) }

def insertStr (new : Str) : Option TextArea := t.insertStrAt t.cursorPos new

/-- The cursor after a range is replaced. -/
def cursorAfter (cursorPos start stop inserted : ℕ) : ℕ :=
  if cursorPos < start then cursorPos
  else if cursorPos ≤ stop then start + inserted
  else cursorPos + inserted - (stop - start)

def replaceRangeRaw (range : ByteRange) (new : Str) : Option TextArea :=
  if range.stop < range.start then none
  else
    let start := min range.start (utf8Len t.text)
    let stop := min range.stop (utf8Len t.text)
    if stop - start = 0 ∧ utf8Len new = 0 then some t
    else (replaceBytes t.text range.start range.stop new).map fun text =>
      let t := { t with
        text
        elements := shiftElements t.elements start (stop - start) (utf8Len new)
        cursorPos := min (cursorAfter t.cursorPos start stop (utf8Len new)) (utf8Len text) }
      { t with cursorPos := t.clampPosToNearestBoundary t.cursorPos }

def replaceRange (range : ByteRange) (new : Str) : Option TextArea :=
  t.replaceRangeRaw (expandRangeToElementBoundaries t.elements range) new

/-! ### Elements -/

/-- What becomes of another element when the payload of one is replaced. -/
def shiftAround (start stop inserted : ℕ) (e : TextElement) : TextElement :=
  if e.range.stop ≤ start then e
  else if stop ≤ e.range.start then { e with range := e.range.shift (stop - start) inserted }
  else
    { e with range :=
        ⟨min start e.range.start, max (start + inserted) (e.range.stop + inserted - (stop - start))⟩ }

def replaceElementPayload (old new : Str) : Option (TextArea × Bool) :=
  match t.elements.findIdx? fun e => slice t.text e.range.start e.range.stop = some old with
  | none => some (t, false)
  | some idx =>
    match t.elements[idx]? with
    | none => none
    | some element =>
      let ⟨start, stop⟩ := element.range
      if stop < start ∨ utf8Len t.text < stop then some (t, false)
      else
        let inserted := utf8Len new
        (replaceBytes t.text start stop new).map fun text =>
          let elements := t.elements.mapIdx fun j e =>
            if j = idx then { e with range := ⟨start, start + inserted⟩ }
            else if inserted = stop - start then e
            else shiftAround start stop inserted e
          let t := { t with
            text
            elements
            cursorPos := cursorAfter t.cursorPos start stop inserted }
          let t := { t with cursorPos := t.clampPosToNearestBoundary t.cursorPos }
          ({ t with elements := sortElements t.elements }, true)

def addElement (range : ByteRange) : TextArea × ℕ :=
  let id := t.nextElementId
  ({ t with
    elements := sortElements (t.elements ++ [⟨id, range⟩])
    nextElementId := saturatingSucc id }, id)

def insertElement (text : Str) : Option (TextArea × ℕ) :=
  let start := t.clampPosForInsertion t.cursorPos
  (t.insertStrAt start text).map fun t =>
    let stop := start + utf8Len text
    let (t, id) := t.addElement ⟨start, stop⟩
    (t.setCursor stop, id)

def addElementRange (range : ByteRange) : TextArea × Option ℕ :=
  let clamped := clampRange t.text range
  if clamped.stop ≤ clamped.start then (t, none)
  else if t.elements.any fun e => e.range = clamped then (t, none)
  else if t.elements.any fun e =>
      clamped.start < e.range.stop ∧ e.range.start < clamped.stop then (t, none)
  else
    let (t, id) := t.addElement clamped
    (t, some id)

def removeElementRange (range : ByteRange) : TextArea × Bool :=
  let clamped := clampRange t.text range
  if clamped.stop ≤ clamped.start then (t, false)
  else
    let elements := t.elements.filter fun e => e.range ≠ clamped
    ({ t with elements }, t.elements.length ≠ elements.length)

end TextArea

/-! ## Words and lines -/

def isWordSeparator (c : Char) : Bool :=
  c ∈ ['`', '~', '!', '@', '#', '$', '%', '^', '&', '*', '(', ')', '-', '=', '+', '[', '{', ']', '}',
    '\\', '|', ';', ':', Char.ofNat 0x27, Char.ofNat 0x22, ',', '.', '<', '>', '/', '?']

/-- Pieces with their offsets. -/
def withOffsets : ℕ → List Str → List (ℕ × Str)
  | _, [] => []
  | offset, piece :: pieces => (offset, piece) :: withOffsets (offset + utf8Len piece) pieces

/-- The segments, cut where separators and other characters meet. -/
def splitWordPieces (u : UnicodeSegmentation) (run : Str) : List (ℕ × Str) :=
  withOffsets 0 ((u.splitWordBounds run).flatMap fun segment =>
    segment.splitBy fun a b => isWordSeparator a == isWordSeparator b)

/-- The offset of the last of the pieces up to the first that is not all separators. -/
def separatorsStart (start : ℕ) : List (ℕ × Str) → ℕ
  | [] => start
  | (offset, piece) :: pieces =>
    if piece.all isWordSeparator then separatorsStart offset pieces else start

/-- The end of the last of the pieces up to the first that is not all separators. -/
def separatorsEnd (stop : ℕ) : List (ℕ × Str) → ℕ
  | [] => stop
  | (offset, piece) :: pieces =>
    if piece.all isWordSeparator then separatorsEnd (offset + utf8Len piece) pieces else stop

def beginningOfLine (s : Str) (pos : ℕ) : Option ℕ :=
  (splitAtByte s pos).map fun (before, _) => utf8Len (before.rdropWhile (· ≠ '\n'))

def endOfLine (s : Str) (pos : ℕ) : Option ℕ :=
  (splitAtByte s pos).map fun (_, after) => pos + utf8Len (after.takeWhile (· ≠ '\n'))

namespace TextArea

variable (u : UnicodeSegmentation) (t : TextArea)

def prevAtomicBoundary (pos : ℕ) : ℕ :=
  if pos = 0 then 0
  else match t.elements.find? fun e => e.range.start < pos ∧ pos ≤ e.range.stop with
    | some e => e.range.start
    | none =>
      match u.prevBoundary t.text pos with
      | .ok (some b) => t.adjustPosOutOfElements b true
      | .ok none => 0
      | .error _ => pos - 1

def nextAtomicBoundary (pos : ℕ) : ℕ :=
  if utf8Len t.text ≤ pos then utf8Len t.text
  else match t.elements.find? fun e => e.range.start ≤ pos ∧ pos < e.range.stop with
    | some e => e.range.stop
    | none =>
      match u.nextBoundary t.text pos with
      | .ok (some b) => t.adjustPosOutOfElements b false
      | .ok none => utf8Len t.text
      | .error _ => pos + 1

def beginningOfPreviousWord : Option ℕ :=
  (splitAtByte t.text t.cursorPos).map fun (before, _) =>
    -- up to the last character that is not white space
    let trimmed := before.rdropWhile isWhitespace
    if trimmed = [] then 0
    else
      let runStart := utf8Len (trimmed.rdropWhile fun c => !isWhitespace c)
      let run := trimmed.rtakeWhile fun c => !isWhitespace c
      match (splitWordPieces u run).reverse with
      | [] => runStart
      | (pieceStart, piece) :: pieces =>
        let start := if piece.all isWordSeparator then separatorsStart pieceStart pieces else pieceStart
        t.adjustPosOutOfElements (runStart + start) true

def endOfNextWordFrom (cursorPos : ℕ) : Option ℕ :=
  (splitAtByte t.text cursorPos).map fun (_, suffix) =>
    let rest := suffix.dropWhile isWhitespace
    if rest = [] then utf8Len t.text
    else
      let runStart := cursorPos + utf8Len (suffix.takeWhile isWhitespace)
      match splitWordPieces u (rest.takeWhile fun c => !isWhitespace c) with
      | [] => runStart
      | (start, piece) :: pieces =>
        let stop := start + utf8Len piece
        let stop := if piece.all isWordSeparator then separatorsEnd stop pieces else stop
        t.adjustPosOutOfElements (runStart + stop) false

def endOfNextWord : Option ℕ := t.endOfNextWordFrom u t.cursorPos

def beginningOfCurrentLine : Option ℕ := beginningOfLine t.text t.cursorPos

def endOfCurrentLine : Option ℕ := endOfLine t.text t.cursorPos

def currentLineRangeWithNewline : Option ByteRange := do
  let bol ← t.beginningOfCurrentLine
  let eol ← t.endOfCurrentLine
  some ⟨bol, if eol < utf8Len t.text then eol + 1 else eol⟩

/-! ## Deleting, killing and pasting -/

/-- `for _ in 0..n`, until the start of the text. -/
def backward : ℕ → ℕ → ℕ
  | 0, target => target
  | n + 1, target =>
    let target := t.prevAtomicBoundary u target
    if target = 0 then target else backward n target

/-- `for _ in 0..n`, until the end of the text. -/
def forward : ℕ → ℕ → ℕ
  | 0, target => target
  | n + 1, target =>
    let target := t.nextAtomicBoundary u target
    if utf8Len t.text ≤ target then target else forward n target

def deleteBackward (n : ℕ) : Option TextArea :=
  if n = 0 ∨ t.cursorPos = 0 then some t
  else t.replaceRange ⟨t.backward u n t.cursorPos, t.cursorPos⟩ []

def deleteForward (n : ℕ) : Option TextArea :=
  if n = 0 ∨ utf8Len t.text ≤ t.cursorPos then some t
  else t.replaceRange ⟨t.cursorPos, t.forward u n t.cursorPos⟩ []

def storeKillBuffer (text : Str) (kind : KillBufferKind) : TextArea :=
  { t with killBuffer := text, killBufferKind := kind }

def killRangeWithKind (range : ByteRange) (kind : KillBufferKind) : Option TextArea :=
  let range := expandRangeToElementBoundaries t.elements range
  if range.stop ≤ range.start then some t
  else (slice t.text range.start range.stop).bind fun removed =>
    if removed = [] then some t else (t.storeKillBuffer removed kind).replaceRangeRaw range []

def killRange (range : ByteRange) : Option TextArea := t.killRangeWithKind range .characterwise

def killLineRange (range : ByteRange) : Option TextArea := t.killRangeWithKind range .linewise

def yankRangeWithKind (range : ByteRange) (kind : KillBufferKind) : Option TextArea :=
  let range := expandRangeToElementBoundaries t.elements range
  if range.stop ≤ range.start then some t
  else (slice t.text range.start range.stop).map fun removed =>
    if removed = [] then t else t.storeKillBuffer removed kind

def deleteForwardKill (n : ℕ) : Option TextArea :=
  if n = 0 ∨ utf8Len t.text ≤ t.cursorPos then some t
  else t.killRange ⟨t.cursorPos, t.forward u n t.cursorPos⟩

def deleteBackwardWord : Option TextArea :=
  (t.beginningOfPreviousWord u).bind fun start => t.killRange ⟨start, t.cursorPos⟩

def deleteForwardWord : Option TextArea :=
  (t.endOfNextWord u).bind fun stop =>
    if t.cursorPos < stop then t.killRange ⟨t.cursorPos, stop⟩ else some t

def killToEndOfLine : Option TextArea :=
  t.endOfCurrentLine.bind fun eol =>
    if t.cursorPos = eol then
      if eol < utf8Len t.text then t.killRange ⟨t.cursorPos, eol + 1⟩ else some t
    else t.killRange ⟨t.cursorPos, eol⟩

def vimKillToEndOfLine : Option TextArea :=
  t.endOfCurrentLine.bind fun eol =>
    if t.cursorPos < eol then t.killRange ⟨t.cursorPos, eol⟩ else some t

def killToBeginningOfLine : Option TextArea :=
  t.beginningOfCurrentLine.bind fun bol =>
    if t.cursorPos = bol then if 0 < bol then t.killRange ⟨bol - 1, bol⟩ else some t
    else t.killRange ⟨bol, t.cursorPos⟩

def killCurrentLine : Option TextArea :=
  t.currentLineRangeWithNewline.bind fun range => t.killLineRange range

def yankCurrentLine : Option TextArea :=
  t.currentLineRangeWithNewline.bind fun range => t.yankRangeWithKind range .linewise

def yank : Option TextArea := if t.killBuffer = [] then some t else t.insertStr t.killBuffer

def pasteLineAfterCurrentLine : Option TextArea :=
  t.endOfCurrentLine.bind fun eol =>
    if eol < utf8Len t.text then
      let text := if t.killBuffer.getLast? = some '\n' then t.killBuffer else t.killBuffer ++ ['\n']
      (t.insertStrAt (eol + 1) text).map fun t => t.setCursor (min (eol + 1) (utf8Len t.text))
    else
      let text := '\n' :: t.killBuffer.rdropWhile (· = '\n')
      (t.insertStrAt eol text).map fun t => t.setCursor (min (eol + 1) (utf8Len t.text))

def pasteAfterCursor : Option TextArea :=
  if t.killBuffer = [] then some t
  else if t.killBufferKind = .linewise then t.pasteLineAfterCurrentLine
  else (t.setCursor (t.nextAtomicBoundary u t.cursorPos)).insertStr t.killBuffer

def moveCursorLeft : TextArea := { t with cursorPos := t.prevAtomicBoundary u t.cursorPos }

def moveCursorRight : TextArea := { t with cursorPos := t.nextAtomicBoundary u t.cursorPos }

end TextArea

end Codex.BottomPane
