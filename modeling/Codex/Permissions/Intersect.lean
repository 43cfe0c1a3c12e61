import Codex.Permissions.WritableRoots
import Mathlib.Data.PNat.Notation
import Mathlib.Data.PNat.Defs
import Mathlib.Data.List.Dedup
import Mathlib.Data.List.Sort

/-!
# Intersecting permission profiles

An approval answers a request for additional permissions with a grant, and
`intersect_permission_profiles` (`sandboxing/src/policy_transforms.rs`) keeps
what was both asked for and granted. Granted entries are accepted whole, by the
access that the request gives to their own path; denials of both sides that
touch an accepted entry are copied over.
-/

namespace Codex.Permissions

open Codex.Text

structure NetworkPermissions where
  enabled : Option Bool
  deriving DecidableEq

structure FileSystemPermissions where
  entries : List FileSystemSandboxEntry
  globScanMaxDepth : Option ℕ+

structure AdditionalPermissionProfile where
  network : Option NetworkPermissions
  fileSystem : Option FileSystemPermissions

variable (host : Host) (buildGlobMatcher : Str → Option (AbsolutePathBuf → Bool))

/-! ## Denied reads -/

namespace FileSystemSandboxPolicy

def getUnreadableRootsWithCwd (policy : FileSystemSandboxPolicy) (cwd : AbsolutePathBuf) :
    List AbsolutePathBuf :=
  if policy.kind = .restricted then
    let denied := (policy.resolvedEntriesWithCwd host cwd).filter fun entry =>
      entry.access = .deny && !policy.canReadPathWithCwd host entry.path.asPath cwd &&
        absoluteRootPathForCwd cwd ≠ entry.path
    dedupAbsolutePaths host (denied.map ResolvedFileSystemEntry.path) true
  else []

/-- The resolved pattern of an entry that denies a glob. -/
def deniedGlob (entry : FileSystemSandboxEntry) (cwd : AbsolutePathBuf) : Option Str :=
  match entry.access, entry.path with
  | .deny, .globPattern pattern =>
    some (resolvePathAgainstBase host (Path.parse pattern) cwd).toStringLossy
  | _, _ => none

def getUnreadableGlobsWithCwd (policy : FileSystemSandboxPolicy) (cwd : AbsolutePathBuf) :
    List Str :=
  if policy.kind = .restricted then
    let patterns := policy.entries.filterMap (deniedGlob host · cwd)
    (patterns.insertionSort fun left right => left ≤ right).dedup
  else []

end FileSystemSandboxPolicy

structure ReadDenyMatcher where
  deniedCandidates : List (List AbsolutePathBuf)
  denyReadMatchers : List (AbsolutePathBuf → Bool)
  invalidPattern : Bool

/-- The path and, where it can be made canonical, its canonical form. -/
def normalizedAndCanonicalCandidates (path : AbsolutePathBuf) : List AbsolutePathBuf :=
  pushUnique [path] (host.canonicalize path).toList

namespace ReadDenyMatcher

def new (policy : FileSystemSandboxPolicy) (cwd : AbsolutePathBuf) : Option ReadDenyMatcher :=
  if policy.hasDeniedReadRestrictions then
    let matchers := (policy.getUnreadableGlobsWithCwd host cwd).map buildGlobMatcher
    some
      { deniedCandidates :=
          (policy.getUnreadableRootsWithCwd host cwd).map (normalizedAndCanonicalCandidates host)
        denyReadMatchers := matchers.filterMap id
        invalidPattern := matchers.any Option.isNone }
  else none

def isReadDenied (matcher : ReadDenyMatcher) (path : AbsolutePathBuf) : Bool :=
  let pathCandidates := normalizedAndCanonicalCandidates host path
  matcher.invalidPattern ||
    (matcher.deniedCandidates.any fun deniedCandidates =>
      pathCandidates.any fun candidate =>
        deniedCandidates.any fun denied => candidate = denied || denied <+: candidate) ||
    matcher.denyReadMatchers.any fun isMatch => pathCandidates.any isMatch

end ReadDenyMatcher

/-! ## Accepting a granted entry -/

def resolvePermissionPath (path : FileSystemPath) (cwd : AbsolutePathBuf) :
    Option AbsolutePathBuf :=
  match path with
  | .path path => some path
  | .globPattern _ => none
  | .special .root => some []
  | .special (.projectRoots (some subpath)) => some (resolvePathAgainstBase host subpath cwd)
  | .special (.projectRoots none) => some cwd
  | .special .tmpdir =>
    match host.tmpdirVar with
    | none => none
    | some tmpdir => if tmpdir = [] then none else fromAbsolutePath host (Path.parse tmpdir)
  | .special .slashTmp => if host.isDir slashTmpPath then some slashTmpPath else none
  | .special .minimal | .special (.unknown _ _) => none

def accessCovers (requested granted : FileSystemAccessMode) : Bool :=
  match granted with
  | .read => requested.canRead
  | .write => requested.canWrite
  | .deny => false

def grantedFileSystemEntryWithinRequest (requested : FileSystemPermissions)
    (requestedPolicy : FileSystemSandboxPolicy) (matcher : Option ReadDenyMatcher)
    (granted : FileSystemSandboxEntry) (cwd : AbsolutePathBuf) : Bool :=
  if !granted.access.canRead then false
  else
    match resolvePermissionPath host granted.path cwd with
    | some path =>
      if matcher.any fun matcher => matcher.isReadDenied host path then false
      else accessCovers (requestedPolicy.resolveAccessWithCwd host path.asPath cwd) granted.access
    | none =>
      requested.entries.any fun entry =>
        accessCovers entry.access granted.access && entry.path = granted.path

def materializeCwdDependentEntry (entry : FileSystemSandboxEntry) (cwd : AbsolutePathBuf) :
    FileSystemSandboxEntry :=
  match entry.path with
  | .special (.projectRoots _) =>
    match resolvePermissionPath host entry.path cwd with
    | some path => ⟨.path path, entry.access⟩
    | none => entry
  | .globPattern pattern =>
    ⟨.globPattern (resolvePathAgainstBase host (Path.parse pattern) cwd).toStringLossy,
      entry.access⟩
  | .path _ | .special _ => entry

/-! ## Keeping denials -/

def pathsOverlap (left right : AbsolutePathBuf) : Bool := right <+: left || left <+: right

def isGlobMeta (c : Char) : Bool := c = '*' || c = '?' || c = '[' || c = ']'

/-- The directory that a glob pattern stays in. -/
def globStaticPrefixPath (pattern : Str) (cwd : AbsolutePathBuf) : Option AbsolutePathBuf :=
  let resolved := (resolvePathAgainstBase host (Path.parse pattern) cwd).toStringLossy
  match resolved.findIdx? isGlobMeta with
  | some 0 => none
  | some index =>
    let head := resolved.take index
    if head.getLast? = some '/' || head.getLast? = some '\\' then
      fromAbsolutePath host (Path.parse head)
    else (Path.parse head).parent.bind (fromAbsolutePath host)
  | none => fromAbsolutePath host (Path.parse resolved)

def denyEntryConstrainsAcceptedGrant (deny : FileSystemSandboxEntry)
    (accepted : List FileSystemSandboxEntry) (cwd : AbsolutePathBuf) : Bool :=
  accepted.any fun entry =>
    entry.access.canRead &&
      match resolvePermissionPath host entry.path cwd with
      | none => false
      | some grantPath =>
        match deny.path with
        | .globPattern pattern =>
          (globStaticPrefixPath host pattern cwd).any fun dir => pathsOverlap dir grantPath
        | .path _ | .special _ =>
          (resolvePermissionPath host deny.path cwd).any fun denyPath =>
            pathsOverlap denyPath grantPath

/-- The denials of one side that touch an accepted entry. -/
def retainConstrainingDenyEntries (source accepted : List FileSystemSandboxEntry)
    (cwd : AbsolutePathBuf) : List FileSystemSandboxEntry :=
  (source.filter fun entry =>
    entry.access = .deny && denyEntryConstrainsAcceptedGrant host entry accepted cwd).map
      (materializeCwdDependentEntry host · cwd)

/-! ## The depth of glob scans -/

inductive GlobScanDepth where
  | bounded (depth : ℕ)
  | unbounded

def effectiveGlobScanDepth (entries : List FileSystemSandboxEntry) (depth : Option ℕ) :
    Option GlobScanDepth :=
  let hasDenyGlob := entries.any fun entry =>
    match entry.access, entry.path with
    | .deny, .globPattern _ => true
    | _, _ => false
  if hasDenyGlob then
    match depth with
    | some depth => some (.bounded depth)
    | none => some .unbounded
  else none

def mergeGlobScanMaxDepth (leftEntries : List FileSystemSandboxEntry) (leftDepth : Option ℕ)
    (rightEntries : List FileSystemSandboxEntry) (rightDepth : Option ℕ) : Option ℕ :=
  match effectiveGlobScanDepth leftEntries leftDepth,
    effectiveGlobScanDepth rightEntries rightDepth with
  | some .unbounded, _ | _, some .unbounded => none
  | some (.bounded left), some (.bounded right) => some (max left right)
  | some (.bounded depth), none | none, some (.bounded depth) => some depth
  | none, none => none

/-- `NonZeroUsize::new`. -/
def nonZero (n : ℕ) : Option ℕ+ := if h : 0 < n then some ⟨n, h⟩ else none

/-! ## The intersection -/

def intersectFileSystemPermissions (requested granted : FileSystemPermissions)
    (cwd : AbsolutePathBuf) : FileSystemPermissions :=
  let requestedPolicy := FileSystemSandboxPolicy.restricted requested.entries
  let matcher := ReadDenyMatcher.new host buildGlobMatcher requestedPolicy cwd
  let accepted := pushUnique [] ((granted.entries.filter fun entry =>
    grantedFileSystemEntryWithinRequest host requested requestedPolicy matcher entry cwd).map
      (materializeCwdDependentEntry host · cwd))
  let requestedDenied := retainConstrainingDenyEntries host requested.entries accepted cwd
  let grantedDenied := retainConstrainingDenyEntries host granted.entries accepted cwd
  { entries := pushUnique (pushUnique accepted requestedDenied) grantedDenied
    globScanMaxDepth :=
      (mergeGlobScanMaxDepth requestedDenied (requested.globScanMaxDepth.map PNat.val)
        grantedDenied (granted.globScanMaxDepth.map PNat.val)).bind nonZero }

def intersectPermissionProfiles (requested granted : AdditionalPermissionProfile)
    (cwd : AbsolutePathBuf) : AdditionalPermissionProfile :=
  let fileSystem := requested.fileSystem.map fun requestedFileSystem =>
    intersectFileSystemPermissions host buildGlobMatcher requestedFileSystem
      (granted.fileSystem.getD ⟨[], none⟩) cwd
  { network :=
      match requested.network, granted.network with
      | some ⟨some true⟩, some ⟨some true⟩ => some ⟨some true⟩
      | _, _ => none
    fileSystem := fileSystem.filter fun permissions => !permissions.entries.isEmpty }

end Codex.Permissions
