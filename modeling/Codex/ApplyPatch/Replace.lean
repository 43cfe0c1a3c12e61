import Mathlib.Data.List.Sort
import Codex.ApplyPatch.Hunk

/-!
# New contents of an updated file

`seek_sequence.rs` and the pure part of `derive_new_contents_from_chunks`:
locate the old lines of each chunk in the file, collect the replacements in
file order and apply them from the last to the first.
-/

namespace Codex.ApplyPatch

open Codex.Text

/-! ## Seeking a sequence of lines -/

/-- Typographic dashes, quotes and spaces as their ASCII counterparts. -/
def normaliseChar (c : Char) : Char :=
  let n := c.toNat
  if (0x2010 ≤ n ∧ n ≤ 0x2015) ∨ n = 0x2212 then '-'
  else if 0x2018 ≤ n ∧ n ≤ 0x201B then Char.ofNat 0x27
  else if 0x201C ≤ n ∧ n ≤ 0x201F then Char.ofNat 0x22
  else if n = 0x00A0 ∨ (0x2002 ≤ n ∧ n ≤ 0x200A) ∨ n = 0x202F ∨ n = 0x205F ∨ n = 0x3000 then ' '
  else c

def normalise (s : Str) : Str := (trim s).map normaliseChar

/-- The lines from `i` on are those of the pattern when both are read through `f`. -/
def matchesAt (f : Str → Str) (lines pattern : List Str) (i : Nat) : Bool :=
  ((lines.drop i).take pattern.length).map f == pattern.map f

/-- The first match at `searchStart..=lines.len() - pattern.len()`. -/
def firstMatch (f : Str → Str) (lines pattern : List Str) (searchStart : Nat) : Option Nat :=
  (List.range' searchStart (lines.length - pattern.length + 1 - searchStart)).find?
    (matchesAt f lines pattern)

def seekSequence (lines pattern : List Str) (start : Nat) (eof : Bool) : Option Nat :=
  if pattern.isEmpty then some start
  else if pattern.length > lines.length then none
  else
    let searchStart :=
      if eof && decide (pattern.length ≤ lines.length) then lines.length - pattern.length else start
    firstMatch id lines pattern searchStart <|> firstMatch trimEnd lines pattern searchStart <|>
      firstMatch trim lines pattern searchStart <|> firstMatch normalise lines pattern searchStart

/-! ## Replacements -/

/-- `(start_index, old_len, new_lines)`. -/
structure Replacement where
  startIndex : Nat
  oldLen : Nat
  newLines : List Str
  deriving DecidableEq

/-- Why the new contents could not be derived. -/
inductive ReplaceError where
  | contextNotFound (context : Str)
  | linesNotFound (oldLines : List Str)
  /-- `Vec::insert` beyond the end of the vector aborts the process. -/
  | panicked
  deriving DecidableEq

/-- `slice.last().is_some_and(String::is_empty)`. -/
def lastIsEmpty (lines : List Str) : Bool := lines.getLast?.any List.isEmpty

/-- The place of a chunk: the line index after its context line, its replacement, and the line
index from which the next chunk is sought. -/
def locateChunk (originalLines : List Str) (lineIndex : Nat) (chunk : UpdateFileChunk) :
    Except ReplaceError (Replacement × Nat) := do
  let lineIndex ← match chunk.changeContext with
    | none => .ok lineIndex
    | some context =>
      match seekSequence originalLines [context] lineIndex false with
      | some idx => .ok (idx + 1)
      | none => .error (.contextNotFound context)
  if chunk.oldLines.isEmpty then
    let insertionIdx :=
      if lastIsEmpty originalLines then originalLines.length - 1 else originalLines.length
    return (⟨insertionIdx, 0, chunk.newLines⟩, lineIndex)
  else
    let found := seekSequence originalLines chunk.oldLines lineIndex chunk.isEndOfFile
    let (pattern, newSlice, found) :=
      if found.isNone && lastIsEmpty chunk.oldLines then
        let pattern := chunk.oldLines.dropLast
        let newSlice := if lastIsEmpty chunk.newLines then chunk.newLines.dropLast else chunk.newLines
        (pattern, newSlice, seekSequence originalLines pattern lineIndex chunk.isEndOfFile)
      else (chunk.oldLines, chunk.newLines, found)
    match found with
    | some startIdx => return (⟨startIdx, pattern.length, newSlice⟩, startIdx + pattern.length)
    | none => .error (.linesNotFound chunk.oldLines)

/-- The loop of `compute_replacements`. -/
def locateChunks (originalLines : List Str) :
    Nat → List UpdateFileChunk → Except ReplaceError (List Replacement)
  | _, [] => .ok []
  | lineIndex, chunk :: chunks => do
    let (replacement, lineIndex) ← locateChunk originalLines lineIndex chunk
    return replacement :: (← locateChunks originalLines lineIndex chunks)

/-- The replacements, sorted by their start (stably, as `sort_by_key` does). -/
def computeReplacements (originalLines : List Str) (chunks : List UpdateFileChunk) :
    Except ReplaceError (List Replacement) := do
  let replacements ← locateChunks originalLines 0 chunks
  return replacements.insertionSort fun a b => a.startIndex ≤ b.startIndex

/-- `for _ in 0..old_len { if start_idx < lines.len() { lines.remove(start_idx) } }`. -/
def removeLines : List Str → Nat → Nat → List Str
  | lines, _, 0 => lines
  | lines, start, n + 1 => removeLines (lines.eraseIdx start) start n

/-- `lines.insert(start_idx + offset, new_line)` for each new line. -/
def insertLines : List Str → Nat → List Str → Except ReplaceError (List Str)
  | lines, _, [] => .ok lines
  | lines, i, l :: ls =>
    if i ≤ lines.length then insertLines (lines.insertIdx i l) (i + 1) ls else .error .panicked

def applyReplacement (lines : List Str) (r : Replacement) : Except ReplaceError (List Str) :=
  insertLines (removeLines lines r.startIndex r.oldLen) r.startIndex r.newLines

def applyReplacements (lines : List Str) (replacements : List Replacement) :
    Except ReplaceError (List Str) :=
  replacements.reverse.foldlM applyReplacement lines

/-! ## Contents -/

/-- `contents.split('\n')`. -/
def splitLines (contents : Str) : List Str := (splitNl contents).1 ++ [(splitNl contents).2]

/-- The new contents of a file with the given original contents. -/
def newContents (originalContents : Str) (chunks : List UpdateFileChunk) :
    Except ReplaceError Str := do
  let originalLines := splitLines originalContents
  let originalLines := if lastIsEmpty originalLines then originalLines.dropLast else originalLines
  let replacements ← computeReplacements originalLines chunks
  let newLines ← applyReplacements originalLines replacements
  let newLines := if lastIsEmpty newLines then newLines else newLines ++ [[]]
  return joinNl newLines

end Codex.ApplyPatch
