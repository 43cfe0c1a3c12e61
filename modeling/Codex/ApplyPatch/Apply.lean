import Codex.ApplyPatch.FileSystem

/-!
# Applying hunks

`apply_hunks_to_files` of `apply-patch/src/lib.rs`: the hunks are applied one
after the other to the evolving file system, with a retry of writes whose parent
directory is missing. The delta of committed changes is part of the state, so
that it survives a failure.
-/

namespace Codex.ApplyPatch

open Codex.Text

inductive AppliedPatchFileChange where
  | add (content : Str) (overwrittenContent : Option Str)
  | delete (content : Str)
  | update (movePath : Option Str) (oldContent : Str) (overwrittenMoveContent : Option Str)
      (newContent : Str)
  deriving DecidableEq

structure AppliedPatchChange where
  path : Str
  change : AppliedPatchFileChange
  deriving DecidableEq

structure AppliedPatchDelta where
  changes : List AppliedPatchChange := []
  exact : Bool := true
  deriving DecidableEq

/-- Patch spellings of the affected paths. -/
structure AffectedPaths where
  added : List Str := []
  modified : List Str := []
  deleted : List Str := []
  deriving DecidableEq

/-- The errors of `apply_hunks_to_files`, an `anyhow::Error` in the source. -/
inductive ApplyError where
  | noFilesModified
  | pathUri (error : PathUriParseError)
  | patch (error : ApplyPatchError)
  | io (context : Str) (source : IoError)
  deriving DecidableEq

structure ApplyState (σ : Type) where
  fs : σ
  delta : AppliedPatchDelta := {}

abbrev ApplyM (σ : Type) := EStateM ApplyError (ApplyState σ)

variable {Path σ α : Type}

/-! ## Steps on the state -/

/-- A file operation leaves the delta alone; its result is returned, not raised. -/
def fileOp (op : σ → α × σ) : ApplyM σ α := fun st =>
  let (a, s) := op st.fs
  .ok a { st with fs := s }

/-- A computation on the file system alone, its error wrapped. -/
def liftFs {ε : Type} (wrap : ε → ApplyError) (x : EStateM ε σ α) : ApplyM σ α := fun st =>
  match x st.fs with
  | .ok a s => .ok a { st with fs := s }
  | .error e s => .error (wrap e) { st with fs := s }

/-- `*exact &= ok`. -/
def andExact (ok : Bool) : ApplyM σ Unit :=
  modify fun st => { st with delta.exact := st.delta.exact && ok }

def pushChange (change : AppliedPatchChange) : ApplyM σ Unit :=
  modify fun st => { st with delta.changes := st.delta.changes ++ [change] }

/-- `delta.changes[index] = change`. -/
def setChange (index : Nat) (change : AppliedPatchChange) : ApplyM σ Unit :=
  modify fun st => { st with delta.changes := st.delta.changes.set index change }

/-- The context of an error, in front of the native path. -/
def withContext (fs : ExecutorFileSystem Path σ) (context : String) (path : Path) (error : IoError) :
    ApplyError :=
  .io (context.toList ++ fs.nativePath path) error

namespace ExecutorFileSystem

variable (fs : ExecutorFileSystem Path σ)

/-! ## Helpers of the loop -/

def ensureNotDirectory (path : Path) : ApplyM σ (Except IoError Unit) := do
  match ← fileOp (fs.getMetadata path) with
  | .error e => return .error e
  | .ok metadata =>
    if metadata.isDirectory then
      return .error { kind := .invalidInput, message := "path is a directory".toList }
    else return .ok ()

def removeFailureWasSideEffectFree (path : Path) (expectedContent : Option Str) :
    ApplyM σ Bool := do
  match expectedContent with
  | some expectedContent =>
    match ← fileOp (fs.readFileText path) with
    | .ok content => return content == expectedContent
    | .error _ => return false
  | none => return false

def noteExistingPathDeltaSupport (path : Path) : ApplyM σ Unit := do
  match ← fileOp (fs.getMetadata path) with
  | .ok metadata => andExact (metadata.isFile && !metadata.isSymlink)
  | .error source => andExact (source.kind == .notFound)

def readOptionalFileTextForDelta (path : Path) : ApplyM σ (Option Str) := do
  fs.noteExistingPathDeltaSupport path
  match ← fileOp (fs.readFileText path) with
  | .ok content => return some content
  | .error source =>
    andExact (source.kind == .notFound)
    return none

/-- Creates the parent directories, if there is a parent. -/
def createParent (path : Path) : ApplyM σ (Except IoError Unit) :=
  match fs.parent path with
  | some parent => fileOp (fs.createDirectory parent)
  | none => pure (.ok ())

def writeFileWithMissingParentRetry (path : Path) (contents : Str) :
    ApplyM σ (Except ApplyError Unit) := do
  match ← fileOp (fs.writeFile path contents) with
  | .ok () => return .ok ()
  | .error err =>
    if err.kind = .notFound then
      match ← fs.createParent path with
      | .error err =>
        return .error (withContext fs "Failed to create parent directories for " path err)
      | .ok () =>
        match ← fileOp (fs.writeFile path contents) with
        | .error err => return .error (withContext fs "Failed to write file " path err)
        | .ok () => return .ok ()
    else return .error (withContext fs "Failed to write file " path err)

/-- `try_write!`: a failed write makes the delta inexact. -/
def tryWrite (result : Except ApplyError α) : ApplyM σ α :=
  match result with
  | .ok value => pure value
  | .error error => do
    andExact false
    throw error

/-- Removes a file that is no directory; after a failed removal the delta stays exact only if the
file still has the expected content. -/
def removeFile (path : Path) (context : String) (expectedContent : Option Str) : ApplyM σ Unit := do
  match ← fs.ensureNotDirectory path with
  | .error e => throw (withContext fs context path e)
  | .ok () =>
    match ← fileOp (fs.remove path) with
    | .ok () => return ()
    | .error e =>
      andExact (← fs.removeFailureWasSideEffectFree path expectedContent)
      throw (withContext fs context path e)

/-! ## Hunks -/

def applyAdd (path : Path) (contents : Str) : ApplyM σ Unit := do
  let overwrittenContent ← fs.readOptionalFileTextForDelta path
  tryWrite (← fs.writeFileWithMissingParentRetry path contents)
  pushChange ⟨fs.nativePath path, .add contents overwrittenContent⟩

def applyDelete (path : Path) : ApplyM σ Unit := do
  fs.noteExistingPathDeltaSupport path
  let deletedContent := (← fileOp (fs.readFileText path)).toOption
  andExact deletedContent.isSome
  fs.removeFile path "Failed to delete file " deletedContent
  match deletedContent with
  | some content => pushChange ⟨fs.nativePath path, .delete content⟩
  | none => return ()

/-- A rename: the destination is written, then the source is removed. -/
def applyMove (path dest : Path) (patch : AppliedPatch) : ApplyM σ Unit := do
  let overwrittenMoveContent ← fs.readOptionalFileTextForDelta dest
  tryWrite (← fs.writeFileWithMissingParentRetry dest patch.newContents)
  let destWriteChangeIndex := (← get).delta.changes.length
  pushChange ⟨fs.nativePath dest, .add patch.newContents overwrittenMoveContent⟩
  fs.removeFile path "Failed to remove original " (some patch.originalContents)
  setChange destWriteChangeIndex ⟨fs.nativePath path, .update (some (fs.nativePath dest))
    patch.originalContents overwrittenMoveContent patch.newContents⟩

def applyRewrite (path : Path) (patch : AppliedPatch) : ApplyM σ Unit := do
  match ← fileOp (fs.writeFile path patch.newContents) with
  | .ok () =>
    pushChange ⟨fs.nativePath path, .update none patch.originalContents none patch.newContents⟩
  | .error e => tryWrite (.error (withContext fs "Failed to write file " path e))

def applyUpdate (cwd path : Path) (movePath : Option Str) (chunks : List UpdateFileChunk) :
    ApplyM σ Unit := do
  fs.noteExistingPathDeltaSupport path
  let patch ← liftFs .patch (fs.deriveNewContentsFromChunks path chunks)
  match movePath with
  | some dest =>
    let destUri ← liftFs .pathUri (ofExcept (fs.join cwd dest))
    fs.applyMove path destUri patch
  | none => fs.applyRewrite path patch

/-- The body of the loop. -/
def applyHunk (cwd : Path) (hunk : Hunk) (affected : AffectedPaths) : ApplyM σ AffectedPaths := do
  let path ← liftFs .pathUri (ofExcept (fs.resolvePath cwd hunk))
  match hunk with
  | .addFile _ contents =>
    fs.applyAdd path contents
    return { affected with added := affected.added ++ [hunk.path] }
  | .deleteFile _ =>
    fs.applyDelete path
    return { affected with deleted := affected.deleted ++ [hunk.path] }
  | .updateFile _ movePath chunks =>
    fs.applyUpdate cwd path movePath chunks
    return { affected with modified := affected.modified ++ [hunk.path] }

/-- The loop over the hunks. -/
def applyEach (cwd : Path) : List Hunk → AffectedPaths → ApplyM σ AffectedPaths
  | [], affected => pure affected
  | hunk :: hunks, affected => do
    let affected ← fs.applyHunk cwd hunk affected
    applyEach cwd hunks affected

def applyHunksToFiles (hunks : List Hunk) (cwd : Path) : ApplyM σ AffectedPaths :=
  if hunks.isEmpty then throw .noFilesModified else fs.applyEach cwd hunks {}

end ExecutorFileSystem

end Codex.ApplyPatch
