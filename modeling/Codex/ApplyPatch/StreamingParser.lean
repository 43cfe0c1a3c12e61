import Codex.ApplyPatch.Hunk

/-!
# The streaming patch parser

`apply-patch/src/streaming_parser.rs`. The parser buffers characters up to a
newline, strips one carriage return and hands the line to `processLine`, which
classifies it by the current mode. `finish` handles an unterminated last line.
A mutating method that returns `Result` is a function into `Except` that
returns the new parser.
-/

namespace Codex.ApplyPatch

open Codex.Text

inductive StreamingParserMode where
  | notStarted
  | startedPatch
  | addFile
  | deleteFile
  | updateFile (hunkLineNumber : Nat)
  | endedPatch
  deriving DecidableEq

structure StreamingParserState where
  mode : StreamingParserMode := .notStarted
  hunks : List Hunk := []
  environmentId : Option Str := none
  deriving DecidableEq

structure StreamingPatchParser where
  lineBuffer : Str := []
  state : StreamingParserState := {}
  lineNumber : Nat := 0
  deriving DecidableEq

/-- `last_mut` followed by an assignment. -/
def modifyLast {α : Type} (f : α → α) : List α → List α
  | [] => []
  | [a] => [f a]
  | a :: b :: l => a :: modifyLast f (b :: l)

@[simp] theorem modifyLast_concat {α : Type} (f : α → α) (l : List α) (a : α) :
    modifyLast f (l ++ [a]) = l ++ [f a] := by
  induction l with
  | nil => rfl
  | cons b l ih =>
    cases l with
    | nil => rfl
    | cons c l => exact congrArg (b :: ·) ih

/-! ## Error texts -/

def emptyUpdateHunkMessage (path : Str) : Str :=
  "Update file hunk for path '".toList ++ path ++ "' is empty".toList

def noLinesMessage : Str := "Update hunk does not contain any lines".toList

def unexpectedLineMessage (line : Str) : Str :=
  "Unexpected line found in update hunk: '".toList ++ line ++
    "'. Every line should start with ' ' (context line), '+' (added line), or '-' (removed line)".toList

def expectedContextMessage (line : Str) : Str :=
  "Expected update hunk to start with a @@ context marker, got: '".toList ++ line ++ "'".toList

def invalidHeaderMessage (trimmed : Str) : Str :=
  "'".toList ++ trimmed ++
    "' is not a valid hunk header. Valid hunk headers: '*** Add File: \x7bpath\x7d', '*** Delete File: \x7bpath\x7d', '*** Update File: \x7bpath\x7d'".toList

def firstLineMessage : Str := "The first line of the patch must be '*** Begin Patch'".toList

def lastLineMessage : Str := "The last line of the patch must be '*** End Patch'".toList

/-! ## Chunks -/

/-- The chunk a context marker opens. -/
def UpdateFileChunk.opened (changeContext : Option Str) : UpdateFileChunk :=
  { changeContext, oldLines := [], newLines := [], isEndOfFile := false }

def UpdateFileChunk.hasNoLines (chunk : UpdateFileChunk) : Bool :=
  chunk.oldLines.isEmpty && chunk.newLines.isEmpty

/-- The last chunk exists and has neither old nor new lines. -/
def lastHasNoLines (chunks : List UpdateFileChunk) : Bool :=
  chunks.getLast?.any UpdateFileChunk.hasNoLines

/-- The last chunk was closed by an end-of-file marker. -/
def lastIsEndOfFile (chunks : List UpdateFileChunk) : Bool :=
  chunks.getLast?.any (·.isEndOfFile)

/-- Records a line in the last chunk, opening a chunk without context first if there is none. -/
def recordLine (record : UpdateFileChunk → UpdateFileChunk) (chunks : List UpdateFileChunk) :
    List UpdateFileChunk :=
  modifyLast record (if chunks.isEmpty then [.opened none] else chunks)

def UpdateFileChunk.context (line : Str) (chunk : UpdateFileChunk) : UpdateFileChunk :=
  { chunk with oldLines := chunk.oldLines ++ [line], newLines := chunk.newLines ++ [line] }

def UpdateFileChunk.added (line : Str) (chunk : UpdateFileChunk) : UpdateFileChunk :=
  { chunk with newLines := chunk.newLines ++ [line] }

def UpdateFileChunk.removed (line : Str) (chunk : UpdateFileChunk) : UpdateFileChunk :=
  { chunk with oldLines := chunk.oldLines ++ [line] }

def UpdateFileChunk.closed (chunk : UpdateFileChunk) : UpdateFileChunk :=
  { chunk with isEndOfFile := true }

/-- `update_line == "@@" || update_line.starts_with("@@ ")`. -/
def isContextMarker (updateLine : Str) : Bool :=
  updateLine == emptyChangeContextMarker || changeContextMarker.isPrefixOf updateLine

namespace StreamingPatchParser

def setMode (p : StreamingPatchParser) (mode : StreamingParserMode) : StreamingPatchParser :=
  { p with state := { p.state with mode } }

/-- Opens a hunk and switches to its mode. -/
def openHunk (p : StreamingPatchParser) (hunk : Hunk) (mode : StreamingParserMode) :
    StreamingPatchParser :=
  { p with state := { p.state with mode, hunks := p.state.hunks ++ [hunk] } }

/-- Overwrites the hunk being parsed. -/
def setLastHunk (p : StreamingPatchParser) (hunk : Hunk) : StreamingPatchParser :=
  { p with state := { p.state with hunks := modifyLast (fun _ => hunk) p.state.hunks } }

def setEnvironmentId (p : StreamingPatchParser) (environmentId : Str) : StreamingPatchParser :=
  { p with state := { p.state with environmentId := some environmentId } }

def ensureUpdateHunkIsNotEmpty (p : StreamingPatchParser) (line : Str) : Except ParseError Unit :=
  match p.state.hunks.getLast?, p.state.mode with
  | some (.updateFile path _ []), .updateFile hunkLineNumber =>
    .error (.invalidHunkError (emptyUpdateHunkMessage path) hunkLineNumber)
  | some (.updateFile _ _ chunks), _ =>
    if lastHasNoLines chunks then
      if line = endPatchMarker then .error (.invalidHunkError noLinesMessage p.lineNumber)
      else .error (.invalidHunkError (unexpectedLineMessage line) p.lineNumber)
    else .ok ()
  | _, _ => .ok ()

/-- The environment id a line of the preamble declares; only read before the first hunk. -/
def environmentIdOf (p : StreamingPatchParser) (trimmed : Str) : Option Str :=
  if p.state.mode = .startedPatch then stripPrefix trimmed environmentIdMarker else none

/-- `Ok(true)` is `some` of the new parser; `Ok(false)`, which leaves the parser alone, is `none`. -/
def handleHunkHeadersAndEndPatch (p : StreamingPatchParser) (trimmed : Str) :
    Except ParseError (Option StreamingPatchParser) :=
  match p.environmentIdOf trimmed with
  | some environmentId =>
    if p.state.environmentId.isSome then
      .error (.invalidPatchError "apply_patch environment_id cannot be specified more than once".toList)
    else if (trim environmentId).isEmpty then
      .error (.invalidPatchError "apply_patch environment_id cannot be empty".toList)
    else .ok (some (p.setEnvironmentId (trim environmentId)))
  | none =>
    if trimmed = endPatchMarker then
      (p.ensureUpdateHunkIsNotEmpty trimmed).map fun _ => some (p.setMode .endedPatch)
    else match stripPrefix trimmed addFileMarker with
    | some path =>
      (p.ensureUpdateHunkIsNotEmpty trimmed).map fun _ =>
        some (p.openHunk (.addFile path []) .addFile)
    | none => match stripPrefix trimmed deleteFileMarker with
    | some path =>
      (p.ensureUpdateHunkIsNotEmpty trimmed).map fun _ =>
        some (p.openHunk (.deleteFile path) .deleteFile)
    | none => match stripPrefix trimmed updateFileMarker with
    | some path =>
      (p.ensureUpdateHunkIsNotEmpty trimmed).map fun _ =>
        some (p.openHunk (.updateFile path none []) (.updateFile p.lineNumber))
    | none => .ok none

/-- A line of an update hunk that is not a hunk header. The source reassigns the current mode in
every accepting branch, which changes nothing. -/
def processUpdateLine (p : StreamingPatchParser) (path : Str) (movePath : Option Str)
    (chunks : List UpdateFileChunk) (line : Str) : Except ParseError StreamingPatchParser :=
  let updateLine := trimEnd line
  let update (movePath : Option Str) (chunks : List UpdateFileChunk) :=
    p.setLastHunk (.updateFile path movePath chunks)
  if lastIsEndOfFile chunks && updateLine.isEmpty then .ok p
  else if lastIsEndOfFile chunks && !isContextMarker updateLine then
    .error (.invalidHunkError (expectedContextMessage line) p.lineNumber)
  else match (if chunks.isEmpty && movePath.isNone then stripPrefix updateLine moveToMarker else none) with
  | some moveToPath => .ok (update (some moveToPath) chunks)
  | none =>
  if isContextMarker updateLine && lastHasNoLines chunks then
    .error (.invalidHunkError (unexpectedLineMessage line) p.lineNumber)
  else if updateLine = emptyChangeContextMarker then
    .ok (update movePath (chunks ++ [.opened none]))
  else match stripPrefix updateLine changeContextMarker with
  | some changeContext => .ok (update movePath (chunks ++ [.opened (some changeContext)]))
  | none =>
  if updateLine = eofMarker then
    if lastHasNoLines chunks then .error (.invalidHunkError noLinesMessage p.lineNumber)
    else .ok (update movePath (modifyLast UpdateFileChunk.closed chunks))
  else match line with
  | [] => .ok (update movePath (recordLine (.context []) chunks))
  | ' ' :: lineToAdd => .ok (update movePath (recordLine (.context lineToAdd) chunks))
  | '+' :: lineToAdd => .ok (update movePath (recordLine (.added lineToAdd) chunks))
  | '-' :: lineToRemove => .ok (update movePath (recordLine (.removed lineToRemove) chunks))
  | _ =>
    if chunks.getLast?.any (!·.hasNoLines) then
      .error (.invalidHunkError (expectedContextMessage line) p.lineNumber)
    else .error (.invalidHunkError (unexpectedLineMessage line) p.lineNumber)

def processLine (p : StreamingPatchParser) (line : Str) : Except ParseError StreamingPatchParser :=
  match p.state.mode with
  | .notStarted =>
    if trim line = beginPatchMarker then .ok (p.setMode .startedPatch)
    else .error (.invalidPatchError firstLineMessage)
  | .startedPatch | .deleteFile => do
    match ← p.handleHunkHeadersAndEndPatch (trim line) with
    | some p => .ok p
    | none => .error (.invalidHunkError (invalidHeaderMessage (trim line)) p.lineNumber)
  | .addFile => do
    match ← p.handleHunkHeadersAndEndPatch (trim line) with
    | some p => .ok p
    | none =>
      match line, p.state.hunks.getLast? with
      | '+' :: lineToAdd, some (.addFile path contents) =>
        .ok (p.setLastHunk (.addFile path (contents ++ lineToAdd ++ ['\n'])))
      | _, _ => .error (.invalidHunkError (invalidHeaderMessage (trim line)) p.lineNumber)
  | .updateFile _ => do
    match ← p.handleHunkHeadersAndEndPatch (trimEnd line) with
    | some p => .ok p
    | none =>
      match p.state.hunks.getLast? with
      | some (.updateFile path movePath chunks) => p.processUpdateLine path movePath chunks line
      | _ => .error (.invalidHunkError (unexpectedLineMessage line) p.lineNumber)
  | .endedPatch =>
    if (trim line).isEmpty then .ok p else .error (.invalidPatchError lastLineMessage)

/-- The body of the loop of `push_delta`. -/
def pushChar (p : StreamingPatchParser) (ch : Char) : Except ParseError StreamingPatchParser :=
  if ch = '\n' then
    { p with lineBuffer := [], lineNumber := p.lineNumber + 1 }.processLine (stripCr p.lineBuffer)
  else .ok { p with lineBuffer := p.lineBuffer ++ [ch] }

def pushDelta (p : StreamingPatchParser) (delta : Str) : Except ParseError StreamingPatchParser :=
  delta.foldlM pushChar p

def finishLine (p : StreamingPatchParser) : Except ParseError StreamingPatchParser :=
  if p.lineBuffer.isEmpty then .ok p
  else
    let q := { p with lineBuffer := [], lineNumber := p.lineNumber + 1 }
    if trim p.lineBuffer = endPatchMarker then
      (q.ensureUpdateHunkIsNotEmpty (trim p.lineBuffer)).map fun _ => q.setMode .endedPatch
    else q.processLine p.lineBuffer

def finish (p : StreamingPatchParser) : Except ParseError StreamingPatchParser := do
  let p ← p.finishLine
  if p.state.mode = .endedPatch then .ok p else .error (.invalidPatchError lastLineMessage)

end StreamingPatchParser

/-- A whole preview: the deltas in order, then `finish`; the hunks and the environment id. -/
def streamPatch (deltas : List Str) : Except ParseError (List Hunk × Option Str) := do
  let p ← deltas.foldlM StreamingPatchParser.pushDelta {}
  let p ← p.finish
  return (p.state.hunks, p.state.environmentId)

end Codex.ApplyPatch
