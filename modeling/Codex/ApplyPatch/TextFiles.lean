import Codex.ApplyPatch.Verify
import Mathlib.Logic.Function.Basic

/-!
# File systems of regular text files

`TextFiles` says that a file system's state is a map from paths to contents and
that the operations act on it as on regular files: a read sees the contents, a
write replaces them, a removal drops them, and a write whose parent directory is
missing changes nothing. `memoryFs` is such a file system.
-/

namespace Codex.ApplyPatch

open Function Codex.Text

variable {Path σ : Type} [DecidableEq Path]

structure TextFiles (fs : ExecutorFileSystem Path σ) where
  files : σ → Path → Option Str
  readFileText : ∀ {path s r s'}, fs.readFileText path s = (r, s') → files s' = files s
  readFileText_ok : ∀ {path s c s'}, fs.readFileText path s = (.ok c, s') →
    files s path = some c
  getMetadata : ∀ {path s r s'}, fs.getMetadata path s = (r, s') → files s' = files s
  createDirectory : ∀ {path s r s'}, fs.createDirectory path s = (r, s') → files s' = files s
  writeFile : ∀ {path c s s'}, fs.writeFile path c s = (.ok (), s') →
    files s' = update (files s) path (some c)
  writeFile_notFound : ∀ {path c s e s'}, fs.writeFile path c s = (.error e, s') →
    e.kind = .notFound → files s' = files s
  remove : ∀ {path s s'}, fs.remove path s = (.ok (), s') →
    files s' = update (files s) path none

/-- The view of the files. -/
def TextFiles.abstraction {fs : ExecutorFileSystem Path σ} (T : TextFiles fs) :
    Abstraction fs (Path → Option Str) where
  view := T.files
  Reads files path c := files path = some c
  write files path c := update files path (some c)
  failedWrite files _ _ := files
  remove files path := update files path none
  readFileText_view := T.readFileText
  readFileText_reads := T.readFileText_ok
  getMetadata_view := T.getMetadata
  createDirectory_view := T.createDirectory
  writeFile_view := T.writeFile
  writeFile_notFound := T.writeFile_notFound
  remove_view := T.remove

/-- A written file is as it was written, in the first attempt or in the second. -/
theorem TextFiles.written_eq {fs : ExecutorFileSystem Path σ} (T : TextFiles fs)
    {before after : Path → Option Str} {path : Path} {c : Str}
    (h : T.abstraction.Written before path c after) :
    after = update before path (some c) := by
  rcases h with h | h
  · exact h
  · exact h

/-! ## Files in memory -/

def notFoundError : IoError := { kind := .notFound, message := "entity not found".toList }

def lookupFile (files : List (Str × Str)) (path : Str) : Option Str :=
  (files.find? (·.1 == path)).map (·.2)

def eraseFile (files : List (Str × Str)) (path : Str) : List (Str × Str) :=
  files.filter (·.1 != path)

/-- Regular files under one root, with paths as texts and every directory present. -/
def memoryFs : ExecutorFileSystem Str (List (Str × Str)) where
  join cwd path := .ok (cwd ++ '/' :: path)
  parent _ := none
  nativePath path := path
  readFileText path files :=
    (match lookupFile files path with
      | some content => .ok content
      | none => .error notFoundError, files)
  getMetadata path files :=
    (match lookupFile files path with
      | some _ => .ok { isDirectory := false, isFile := true, isSymlink := false }
      | none => .error notFoundError, files)
  writeFile path content files := (.ok (), (path, content) :: eraseFile files path)
  remove path files :=
    match lookupFile files path with
    | some _ => (.ok (), eraseFile files path)
    | none => (.error notFoundError, files)
  createDirectory _ files := (.ok (), files)

theorem lookupFile_erase (files : List (Str × Str)) (path : Str) :
    lookupFile (eraseFile files path) = update (lookupFile files) path none := by
  funext p
  unfold lookupFile eraseFile
  rw [List.find?_filter]
  by_cases hp : p = path
  · subst hp
    rw [update_self]
    simp only [Option.map_eq_none_iff, List.find?_eq_none]
    intro f hf
    by_cases h : f.1 = p <;> simp [h]
  · rw [update_of_ne hp]
    congr 2
    funext f
    by_cases h : f.1 = p
    · simp [h, hp]
    · simp [h]

theorem lookupFile_write (files : List (Str × Str)) (path content : Str) :
    lookupFile ((path, content) :: eraseFile files path) =
      update (lookupFile files) path (some content) := by
  funext p
  by_cases hp : p = path
  · subst hp
    simp [lookupFile]
  · have hne : (path == p) = false := by simpa using Ne.symm hp
    have h := congrFun (lookupFile_erase files path) p
    rw [update_of_ne hp] at h ⊢
    rw [← h]
    simp [lookupFile, hne]

def memoryTextFiles : TextFiles memoryFs where
  files := lookupFile
  readFileText h := by cases h; rfl
  readFileText_ok := by
    intro path s c s' h
    simp only [memoryFs, Prod.mk.injEq] at h
    obtain ⟨h, rfl⟩ := h
    split at h
    · next hc =>
      cases h
      exact hc
    · cases h
  getMetadata h := by cases h; rfl
  createDirectory h := by cases h; rfl
  writeFile := by
    intro path c s s' h
    cases h
    exact lookupFile_write s path c
  writeFile_notFound h _ := by cases h
  remove := by
    intro path s s' h
    simp only [memoryFs] at h
    split at h
    · cases h
      exact lookupFile_erase s path
    · cases h

end Codex.ApplyPatch
