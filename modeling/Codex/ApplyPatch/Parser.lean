import Codex.ApplyPatch.StreamingParser
import Codex.Base.Except

/-!
# Parsing a whole patch

`parse_patch` of `apply-patch/src/parser.rs`: trim the text, cut it into lines,
check the begin and end markers (leniently: a here-document wrapper around the
patch is dropped), join the lines again and run the streaming parser on the
result. The lemmas after the definitions turn a run of the parser over
characters into a run over lines (`pushLines`).
-/

namespace Codex.ApplyPatch

open Codex.Text

inductive ParseMode where
  | strict
  | lenient
  deriving DecidableEq

def parseInStrictMode : Bool := false

def checkStartAndEndLinesStrict (firstLine lastLine : Option Str) : Except ParseError Unit :=
  match firstLine.map trim, lastLine.map trim with
  | some first, some last =>
    if first = beginPatchMarker ∧ last = endPatchMarker then .ok ()
    else if first ≠ beginPatchMarker then .error (.invalidPatchError firstLineMessage)
    else .error (.invalidPatchError lastLineMessage)
  | some first, none =>
    if first ≠ beginPatchMarker then .error (.invalidPatchError firstLineMessage)
    else .error (.invalidPatchError lastLineMessage)
  | none, _ => .error (.invalidPatchError lastLineMessage)

def checkPatchBoundariesStrict (lines : List Str) : Except ParseError (List Str) :=
  (checkStartAndEndLinesStrict lines.head? lines.getLast?).map fun _ => lines

/-- The three spellings of the opening line of a here-document. -/
def heredocMarkers : List Str := ["<<EOF".toList, "<<'EOF'".toList, "<<\"EOF\"".toList]

def checkPatchBoundariesLenient (originalLines : List Str) : Except ParseError (List Str) :=
  match checkPatchBoundariesStrict originalLines with
  | .ok lines => .ok lines
  | .error originalParseError =>
    match originalLines.head?, originalLines.getLast? with
    | some first, some last =>
      if first ∈ heredocMarkers ∧ "EOF".toList <:+ last ∧ 4 ≤ originalLines.length then
        checkPatchBoundariesStrict originalLines.tail.dropLast
      else .error originalParseError
    | _, _ => .error originalParseError

def parsePatchText (patch : Str) (mode : ParseMode) : Except ParseError ApplyPatchArgs := do
  let patchLines ← match mode with
    | .strict => checkPatchBoundariesStrict (lines (trim patch))
    | .lenient => checkPatchBoundariesLenient (lines (trim patch))
  let patch := joinNl patchLines
  let parser ← StreamingPatchParser.pushDelta {} patch
  let parser ← parser.finish
  return { patch, hunks := parser.state.hunks, workdir := none,
           environmentId := parser.state.environmentId }

def parsePatch (patch : Str) : Except ParseError ApplyPatchArgs :=
  parsePatchText patch (if parseInStrictMode then .strict else .lenient)

theorem checkPatchBoundariesLenient_of_strict {originalLines patchLines : List Str}
    (h : checkPatchBoundariesStrict originalLines = .ok patchLines) :
    checkPatchBoundariesLenient originalLines = .ok patchLines := by
  rw [checkPatchBoundariesLenient, h]

/-- What strict mode accepts is read the same way by `parse_patch`, whose mode is the lenient one. -/
theorem parsePatch_of_strict {patch : Str} {args : ApplyPatchArgs}
    (h : parsePatchText patch .strict = .ok args) : parsePatch patch = .ok args := by
  unfold parsePatchText at h
  obtain ⟨patchLines, hlines, h⟩ := bind_eq_ok.1 h
  simp only [parsePatch, parseInStrictMode, parsePatchText, Bool.false_eq_true, if_false,
    checkPatchBoundariesLenient_of_strict hlines]
  exact h

end Codex.ApplyPatch
