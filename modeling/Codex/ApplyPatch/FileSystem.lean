import Codex.Base.EState
import Codex.ApplyPatch.Replace

/-!
# File systems

`ExecutorFileSystem` as `apply-patch` uses it, together with the operations of
`PathUri` it needs. An operation is a function of the file system's state that
may fail; a failing operation may still change the state. The model is generic
in the paths and in the state.
-/

namespace Codex.ApplyPatch

open Codex.Text

/-- The error kinds the code tells apart. -/
inductive ErrorKind where
  | notFound
  | invalidInput
  | other
  deriving DecidableEq

/-- `std::io::Error`. -/
structure IoError where
  kind : ErrorKind
  message : Str
  deriving DecidableEq

structure PathUriParseError where
  path : Str
  deriving DecidableEq

structure FileMetadata where
  isDirectory : Bool
  isFile : Bool
  isSymlink : Bool
  deriving DecidableEq

/-- Path syntax and file operations, over paths `Path` and file system states `σ`. -/
structure ExecutorFileSystem (Path σ : Type) where
  /-- `PathUri::join`. -/
  join : Path → Str → Except PathUriParseError Path
  /-- `PathUri::parent`. -/
  parent : Path → Option Path
  /-- `PathUri::inferred_native_path_string`. -/
  nativePath : Path → Str
  readFileText : Path → σ → Except IoError Str × σ
  getMetadata : Path → σ → Except IoError FileMetadata × σ
  writeFile : Path → Str → σ → Except IoError Unit × σ
  /-- `remove` with `recursive: false, force: false`. -/
  remove : Path → σ → Except IoError Unit × σ
  /-- `create_directory` with `recursive: true`. -/
  createDirectory : Path → σ → Except IoError Unit × σ

inductive ApplyPatchError where
  | ioError (context : Str) (source : IoError)
  | computeReplacements (message : Str)
  | pathUri (error : PathUriParseError)
  | panicked
  deriving DecidableEq

structure AppliedPatch where
  originalContents : Str
  newContents : Str
  deriving DecidableEq

/-- The error a failed derivation reports for the file at `path`. -/
def ReplaceError.report (path : Str) : ReplaceError → ApplyPatchError
  | .contextNotFound context => .computeReplacements
      ("Failed to find context '".toList ++ context ++ "' in ".toList ++ path)
  | .linesNotFound oldLines => .computeReplacements
      ("Failed to find expected lines in ".toList ++ path ++ ":\n".toList ++ joinNl oldLines)
  | .panicked => .panicked

variable {Path σ : Type}

namespace ExecutorFileSystem

def resolvePath (fs : ExecutorFileSystem Path σ) (cwd : Path) (hunk : Hunk) :
    Except PathUriParseError Path :=
  fs.join cwd hunk.sourcePath

/-- A file operation as a computation that cannot fail itself: its result is returned. -/
def run {ε α : Type} (op : σ → α × σ) : EStateM ε σ α := fun s =>
  let (a, s) := op s
  .ok a s

/-- What the chunks make of the contents that were read. -/
def derive (fs : ExecutorFileSystem Path σ) (path : Path) (chunks : List UpdateFileChunk)
    (originalContents : Str) : Except ApplyPatchError AppliedPatch :=
  match newContents originalContents chunks with
  | .ok newContents => .ok { originalContents, newContents }
  | .error error => .error (error.report (fs.nativePath path))

def deriveNewContentsFromChunks (fs : ExecutorFileSystem Path σ) (path : Path)
    (chunks : List UpdateFileChunk) : EStateM ApplyPatchError σ AppliedPatch := do
  match ← run (fs.readFileText path) with
  | .error source =>
    throw (.ioError ("Failed to read file to update ".toList ++ fs.nativePath path) source)
  | .ok originalContents => ofExcept (fs.derive path chunks originalContents)

end ExecutorFileSystem

theorem returns_run {ε α : Type} {op : σ → α × σ} {s s' : σ} {a : α} :
    Returns (ExecutorFileSystem.run op : EStateM ε σ α) s a s' ↔ op s = (a, s') := by
  show EStateM.Result.ok (op s).1 (op s).2 = EStateM.Result.ok a s' ↔ _
  simp [Prod.ext_iff]

theorem returns_derive {fs : ExecutorFileSystem Path σ} {path : Path}
    {chunks : List UpdateFileChunk} {s s' : σ} {a : AppliedPatch} :
    Returns (fs.deriveNewContentsFromChunks path chunks) s a s' ↔
      fs.readFileText path s = (.ok a.originalContents, s') ∧
        newContents a.originalContents chunks = .ok a.newContents := by
  unfold ExecutorFileSystem.deriveNewContentsFromChunks
  rw [returns_bind]
  constructor
  · rintro ⟨r, s₁, hr, h⟩
    rw [returns_run] at hr
    cases r with
    | error e => exact (returns_throw.1 h).elim
    | ok c =>
      obtain ⟨hd, rfl⟩ := returns_ofExcept.1 h
      unfold ExecutorFileSystem.derive at hd
      split at hd
      · next hc =>
        cases hd
        exact ⟨hr, hc⟩
      · cases hd
  · rintro ⟨hr, hc⟩
    refine ⟨_, _, returns_run.2 hr, returns_ofExcept.2 ⟨?_, rfl⟩⟩
    rw [ExecutorFileSystem.derive, hc]

end Codex.ApplyPatch
