import Codex.Text.Str
import Codex.Base.PrefixMatch

/-!
# Paths and the host

`std::path::Path` as its `components()` read it, `AbsolutePathBuf`
(`utils/absolute-path`), and the questions that the permission code asks the
host: the environment, and what is found in the file system. Paths are those of
Unix.
-/

namespace Codex.Permissions

open List Codex.Text

inductive Component where
  | curDir
  | parentDir
  | normal (name : Str)
  deriving DecidableEq

/-- A path: whether it starts at the root, and the components that follow. -/
structure Path where
  hasRoot : Bool
  components : List Component
  deriving DecidableEq

/-- An absolute path without dots: the names below the root. -/
abbrev AbsolutePathBuf := List Str

def Component.parse (segment : Str) : Component :=
  if segment = "..".toList then .parentDir else .normal segment

/-- `Path::components`: empty segments and dots are skipped, except for a dot in front. -/
def Path.parse (s : Str) : Path :=
  let segments := s.splitOn '/'
  let names := segments.filter fun segment => segment ≠ [] ∧ segment ≠ ".".toList
  let front := if segments.head? = some ".".toList then [Component.curDir] else []
  ⟨s.head? = some '/', front ++ names.map Component.parse⟩

/-- `Path::parent`: none for the root and for the empty path. -/
def Path.parent (path : Path) : Option Path :=
  if path.components = [] then none else some ⟨path.hasRoot, path.components.dropLast⟩

/-- `Path::strip_prefix` by an absolute path: the components that follow it. -/
def Path.stripPrefix (path : Path) (base : AbsolutePathBuf) : Option (List Component) :=
  if path.hasRoot && base.map Component.normal <+: path.components then
    some (path.components.drop base.length)
  else none

def Path.startsWith (path : Path) (base : AbsolutePathBuf) : Bool := (path.stripPrefix base).isSome

namespace AbsolutePathBuf

def asPath (p : AbsolutePathBuf) : Path := ⟨true, p.map Component.normal⟩

def toStringLossy (p : AbsolutePathBuf) : Str :=
  '/' :: List.intercalate ['/'] p

/-- `Path::parent`. -/
def parent : AbsolutePathBuf → Option AbsolutePathBuf
  | [] => none
  | p => some p.dropLast

/-- The path itself, its parent, and so on up to the root. -/
def ancestors (p : AbsolutePathBuf) : List AbsolutePathBuf := p.inits.reverse

/-- `components().count()`: the root is a component too. -/
def componentCount (p : AbsolutePathBuf) : ℕ := p.length + 1

end AbsolutePathBuf

/-! ## The host -/

/-- What the host answers: environment variables, the home directory, and the file system. -/
structure Host where
  home : Option Path
  tmpdirVar : Option Str
  currentDir : Option AbsolutePathBuf
  /-- `symlink_metadata`: whether the path is a symbolic link, if there is something. -/
  symlinkMetadata : AbsolutePathBuf → Option Bool
  canonicalize : AbsolutePathBuf → Option AbsolutePathBuf
  pathExists : AbsolutePathBuf → Bool
  isDir : AbsolutePathBuf → Bool
  isFile : AbsolutePathBuf → Bool
  readToString : AbsolutePathBuf → Option Str

/-- A host without a home directory and with an empty file system. -/
def emptyHost : Host where
  home := none
  tmpdirVar := none
  currentDir := none
  symlinkMetadata := fun _ => none
  canonicalize := fun _ => none
  pathExists := fun _ => false
  isDir := fun _ => false
  isFile := fun _ => false
  readToString := fun _ => none

variable (host : Host)

/-! ## Absolute paths -/

/-- `normalize_path`, from the names that are already there. -/
def normalizePath (base : AbsolutePathBuf) (components : List Component) : AbsolutePathBuf :=
  components.foldl (fun names component =>
    match component with
    | .curDir => names
    | .parentDir => names.dropLast
    | .normal name => names ++ [name]) base

def maybeExpandHomeDirectory (path : Path) : Path :=
  match path, host.home with
  | ⟨false, .normal name :: rest⟩, some home =>
    if name = "~".toList then ⟨home.hasRoot, home.components ++ rest⟩ else path
  | _, _ => path

def resolvePathAgainstBase (path : Path) (base : AbsolutePathBuf) : AbsolutePathBuf :=
  let expanded := maybeExpandHomeDirectory host path
  normalizePath (if expanded.hasRoot then [] else base) expanded.components

def fromAbsolutePath (path : Path) : Option AbsolutePathBuf :=
  let expanded := maybeExpandHomeDirectory host path
  if expanded.hasRoot then some (normalizePath [] expanded.components)
  else host.currentDir.map fun dir => normalizePath dir expanded.components

def resolveCandidatePath (path : Path) (cwd : AbsolutePathBuf) : Option AbsolutePathBuf :=
  if path.hasRoot then fromAbsolutePath host path
  else some (resolvePathAgainstBase host path cwd)

@[simp] theorem normalizePath_normal (base p : AbsolutePathBuf) :
    normalizePath base (p.map Component.normal) = base ++ p := by
  induction p generalizing base with
  | nil => simp [normalizePath]
  | cons n p ih =>
    have hcons : normalizePath base ((n :: p).map Component.normal) =
        normalizePath (base ++ [n]) (p.map Component.normal) := rfl
    rw [hcons, ih]
    simp

theorem resolveCandidatePath_of_hasRoot {path : Path} (h : path.hasRoot = true)
    (cwd : AbsolutePathBuf) :
    resolveCandidatePath host path cwd = some (normalizePath [] path.components) := by
  obtain ⟨hasRoot, components⟩ := path
  obtain rfl : hasRoot = true := h
  rfl

@[simp] theorem resolveCandidatePath_asPath (p cwd : AbsolutePathBuf) :
    resolveCandidatePath host p.asPath cwd = some p := by
  rw [resolveCandidatePath_of_hasRoot host rfl]
  show some (normalizePath [] (p.map Component.normal)) = some p
  rw [normalizePath_normal, nil_append]

/-! ## Effective paths -/

def shouldPreserveLogicalPath (logical : AbsolutePathBuf) : Bool :=
  logical.ancestors.any fun ancestor =>
    match host.symlinkMetadata ancestor with
    | none => false
    | some isSymlink => isSymlink && (ancestor.parent.bind AbsolutePathBuf.parent).isSome

def canonicalizePreservingSymlinks (logical : AbsolutePathBuf) : AbsolutePathBuf :=
  match host.canonicalize logical with
  | some canonical =>
    if shouldPreserveLogicalPath host logical && canonical ≠ logical then logical else canonical
  | none => logical

/-- The nearest ancestor that exists is made canonical; what follows it is kept. -/
def normalizeEffectiveAbsolutePath (path : AbsolutePathBuf) : AbsolutePathBuf :=
  match path.ancestors.find? fun ancestor => (host.symlinkMetadata ancestor).isSome with
  | some ancestor => canonicalizePreservingSymlinks host ancestor ++ path.drop ancestor.length
  | none => path

/-- No path leads through a symbolic link: what can be made canonical already is. -/
def SymlinkFree : Prop :=
  ∀ path canonical, host.canonicalize path = some canonical → canonical = path

variable {host}

theorem SymlinkFree.canonicalizePreservingSymlinks_eq (h : SymlinkFree host)
    (path : AbsolutePathBuf) : canonicalizePreservingSymlinks host path = path := by
  rw [canonicalizePreservingSymlinks]
  cases hc : host.canonicalize path with
  | none => rfl
  | some canonical => simp [h path canonical hc]

theorem SymlinkFree.normalizeEffectiveAbsolutePath_eq (h : SymlinkFree host)
    (path : AbsolutePathBuf) : normalizeEffectiveAbsolutePath host path = path := by
  rw [normalizeEffectiveAbsolutePath]
  split
  next ancestor hfind =>
    have hmem := mem_of_find?_eq_some hfind
    rw [AbsolutePathBuf.ancestors, mem_reverse, mem_inits] at hmem
    obtain ⟨rest, rfl⟩ := hmem
    rw [h.canonicalizePreservingSymlinks_eq, drop_left]
  next => rfl

end Codex.Permissions
