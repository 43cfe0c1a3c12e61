import Codex.Permissions.Policy
import Codex.Base.InsertAll

/-!
# Writable roots

`get_writable_roots_with_cwd` turns a policy into the roots that the platform
sandboxes are built from, each with the subpaths and the metadata names that
stay read-only below it (`protocol/src/permissions.rs`), and `is_path_writable`
reads one of them (`protocol/src/protocol.rs`).
-/

namespace Codex.Permissions

open Codex.Text

structure WritableRoot where
  root : AbsolutePathBuf
  readOnlySubpaths : List AbsolutePathBuf
  protectedMetadataNames : List Str
  deriving DecidableEq

namespace WritableRoot

def pathContainsProtectedMetadataName (root : WritableRoot) (path : Path) : Bool :=
  match path.stripPrefix root.root with
  | none => false
  | some relative =>
    match relative with
    | [] => false
    | first :: _ => root.protectedMetadataNames.any fun name => first = .normal name

def isPathWritable (root : WritableRoot) (path : Path) : Bool :=
  if !path.startsWith root.root then false
  else if root.readOnlySubpaths.any fun subpath => path.startsWith subpath then false
  else if root.pathContainsProtectedMetadataName path then false
  else true

end WritableRoot

variable (host : Host)

/-! ## Default carve-outs -/

def gitdirKey : Str := "gitdir".toList

/-- The directory that a `.git` file points to. -/
def resolveGitdirFromFile (dotGit : AbsolutePathBuf) : Option AbsolutePathBuf := do
  let contents ← host.readToString dotGit
  let (key, gitdirRaw) ← splitOnce ':' (trim contents)
  if trim key ≠ gitdirKey then none
  else
    let gitdirRaw := trim gitdirRaw
    if gitdirRaw = [] then none
    else
      let base ← dotGit.parent
      let gitdirPath := resolvePathAgainstBase host (Path.parse gitdirRaw) base
      if host.pathExists gitdirPath then some gitdirPath else none

def dedupAbsolutePaths (paths : List AbsolutePathBuf) (normalizeEffectivePaths : Bool) :
    List AbsolutePathBuf :=
  pushUnique [] (paths.map fun path =>
    if normalizeEffectivePaths then normalizeEffectiveAbsolutePath host path else path)

def defaultReadOnlySubpathsForWritableRoot (writableRoot : AbsolutePathBuf)
    (protectMissingDotCodex : Bool) : List AbsolutePathBuf :=
  let topLevelGit := writableRoot ++ [gitName]
  let topLevelAgents := writableRoot ++ [agentsName]
  let topLevelCodex := writableRoot ++ [codexName]
  let gitdir :=
    if host.isFile topLevelGit then (resolveGitdirFromFile host topLevelGit).toList else []
  let git := if host.isDir topLevelGit || host.isFile topLevelGit then gitdir ++ [topLevelGit] else []
  let agents := if host.isDir topLevelAgents then [topLevelAgents] else []
  let codex := if protectMissingDotCodex || host.isDir topLevelCodex then [topLevelCodex] else []
  dedupAbsolutePaths host (git ++ agents ++ codex) false

/-! ## Roots -/

def protectedMetadataNamesForWritableRoot (policy : FileSystemSandboxPolicy)
    (root : AbsolutePathBuf) (rawWritableRoots : List AbsolutePathBuf) (cwd : AbsolutePathBuf) :
    List Str :=
  protectedMetadataPathNames.filter fun name =>
    let metadataPaths := (root :: rawWritableRoots).map (· ++ [name])
    metadataPaths.all fun path : AbsolutePathBuf =>
      !policy.canWritePathWithCwd host path.asPath cwd

def hasExplicitResolvedPathEntry (entries : List ResolvedFileSystemEntry)
    (path : AbsolutePathBuf) : Bool :=
  entries.any fun entry => entry.path = path

/-- The spelling under which an entry is carved out of a root: the literal one where it lies under
the root or under a spelling of it, else the effective one. -/
def carveoutPath (root : AbsolutePathBuf) (rawWritableRoots : List AbsolutePathBuf)
    (path : AbsolutePathBuf) : Option AbsolutePathBuf :=
  let rawCarveoutPath :=
    if root.parent.isSome then
      if path = root then none
      else if root <+: path then some path
      else rawWritableRoots.findSome? fun rawRoot =>
        if rawRoot <+: path then
          let rest := path.drop rawRoot.length
          if rest = [] then none
          else some (resolvePathAgainstBase host ⟨false, rest.map .normal⟩ root)
        else none
    else none
  match rawCarveoutPath with
  | some carveout => some carveout
  | none =>
    let effectivePath := normalizeEffectiveAbsolutePath host path
    if effectivePath = root || !(root <+: effectivePath) then none else some effectivePath

namespace FileSystemSandboxPolicy

def writableEntries (policy : FileSystemSandboxPolicy) (cwd : AbsolutePathBuf) :
    List AbsolutePathBuf :=
  ((policy.resolvedEntriesWithCwd host cwd).filter fun entry =>
    entry.access.canWrite && policy.canWritePathWithCwd host entry.path.asPath cwd).map
      ResolvedFileSystemEntry.path

/-- The root at a path, with what stays read-only below it. -/
def writableRootAt (policy : FileSystemSandboxPolicy) (cwd root : AbsolutePathBuf) :
    WritableRoot :=
  let resolvedEntries := policy.resolvedEntriesWithCwd host cwd
  let rawWritableRoots := (policy.writableEntries host cwd).filter fun path =>
    normalizeEffectiveAbsolutePath host path = root
  let protectMissingDotCodex := decide (normalizeEffectiveAbsolutePath host cwd = root)
  let defaults := (defaultReadOnlySubpathsForWritableRoot host root protectMissingDotCodex).filter
    fun path => !hasExplicitResolvedPathEntry resolvedEntries path
  let carveouts := (resolvedEntries.filter fun entry =>
    !entry.access.canWrite && !policy.canWritePathWithCwd host entry.path.asPath cwd).filterMap
      fun entry => carveoutPath host root rawWritableRoots entry.path
  { root := root
    readOnlySubpaths := dedupAbsolutePaths host (defaults ++ carveouts) false
    protectedMetadataNames :=
      protectedMetadataNamesForWritableRoot host policy root rawWritableRoots cwd }

def getWritableRootsWithCwd (policy : FileSystemSandboxPolicy) (cwd : AbsolutePathBuf) :
    List WritableRoot :=
  if policy.hasFullDiskWriteAccess then []
  else (dedupAbsolutePaths host (policy.writableEntries host cwd) true).map
    (policy.writableRootAt host cwd)

end FileSystemSandboxPolicy

end Codex.Permissions
