import Codex.ApplyPatch.Apply
import Codex.Permissions.Path
import Mathlib.Data.List.AList
import Mathlib.Data.List.Destutter

/-!
# The turn diff tracker

`core/src/turn_diff_tracker.rs`: the net diff of a turn, kept from the deltas of
applied patches alone. Paths are compared by their components. SHA-1 and the
line diff are parameters, and so is the order in which a hash map is listed.
-/

namespace Codex.TurnDiff

open Codex.Text Codex.ApplyPatch Codex.Permissions

abbrev HashMap (α β : Type) := AList fun _ : α => β

/-- `Iterator::collect`: of two values under one key, the later one stays. -/
def collect {α β : Type} [DecidableEq α] (pairs : List (α × β)) : HashMap α β :=
  pairs.foldl (fun map pair => map.insert pair.1 pair.2) ∅

def zeroOid : Str := "0000000000000000000000000000000000000000".toList

def devNull : Str := "/dev/null".toList

def regularFileMode : Str := "100644".toList

structure TrackedContent where
  content : Str
  revision : ℕ
  deriving DecidableEq

structure TrackedPath where
  environmentId : Str
  path : Path
  deriving DecidableEq

structure DiffCacheKey where
  leftPath : TrackedPath
  leftRevision : Option ℕ
  rightPath : TrackedPath
  rightRevision : Option ℕ
  deriving DecidableEq

structure TurnDiffTracker where
  valid : Bool := true
  displayRootsByEnvironment : HashMap Str Path := ∅
  baselineByPath : HashMap TrackedPath TrackedContent := ∅
  currentByPath : HashMap TrackedPath TrackedContent := ∅
  originByCurrentPath : HashMap TrackedPath TrackedPath := ∅
  nextRevision : ℕ := 0
  renderedDiffs : HashMap DiffCacheKey (Option Str) := ∅
  unifiedDiff : Option Str := none

/-- The orders in which the hash maps are listed in one refresh. -/
structure IterationOrder where
  baselineKeys : List TrackedPath → List TrackedPath
  currentKeys : List TrackedPath → List TrackedPath
  origins : List (Σ _ : TrackedPath, TrackedPath) → List (Σ _ : TrackedPath, TrackedPath)
  baselineKeys_perm : ∀ keys, (baselineKeys keys).Perm keys
  currentKeys_perm : ∀ keys, (currentKeys keys).Perm keys
  origins_perm : ∀ entries, (origins entries).Perm entries

/-- SHA-1 in hexadecimal, and the unified diff of two texts under two headers. -/
structure DiffTools where
  sha1 : Str → Str
  unifiedDiff : Str → Str → Str → Str → Str

namespace TurnDiffTracker

/-! ## Paths as they are shown -/

def displayComponent : Component → Str
  | .curDir => ".".toList
  | .parentDir => "..".toList
  | .normal name => name

/-- `Path::display`. -/
def displayOf (path : Path) : Str :=
  (if path.hasRoot then ['/'] else []) ++
    List.intercalate ['/'] (path.components.map displayComponent)

/-- `Path::strip_prefix`; the empty path is a prefix of every path. -/
def stripRoot (path root : Path) : Option Path :=
  if root.hasRoot = false ∧ root.components = [] then some path
  else if root.hasRoot = path.hasRoot ∧ root.components <+: path.components then
    some ⟨false, path.components.drop root.components.length⟩
  else none

def displayPath (tracker : TurnDiffTracker) (path : TrackedPath) : Str :=
  let display :=
    ((tracker.displayRootsByEnvironment.lookup path.environmentId).bind
      (stripRoot path.path)).getD path.path
  let display := (displayOf display).map fun c => if c = '\\' then '/' else c
  if 1 < tracker.displayRootsByEnvironment.keys.length ∧ path.environmentId ≠ [] then
    path.environmentId ++ '/' :: display
  else display

/-! ## Changes -/

/-- A content under a new revision. -/
def trackedContent (tracker : TurnDiffTracker) (content : Str) :
    TrackedContent × TurnDiffTracker :=
  (⟨content, tracker.nextRevision⟩, { tracker with nextRevision := tracker.nextRevision + 1 })

def insertBaseline (tracker : TurnDiffTracker) (path : TrackedPath) (content : Str) :
    TurnDiffTracker :=
  let (content, tracker) := tracker.trackedContent content
  { tracker with baselineByPath := tracker.baselineByPath.insert path content }

def insertCurrent (tracker : TurnDiffTracker) (path : TrackedPath) (content : Str) :
    TurnDiffTracker :=
  let (content, tracker) := tracker.trackedContent content
  { tracker with currentByPath := tracker.currentByPath.insert path content }

/-- Keeps the content of a path that is not tracked yet, if there was one. -/
def captureBaseline (tracker : TurnDiffTracker) (path : TrackedPath) (content : Option Str) :
    TurnDiffTracker :=
  match content with
  | some content =>
    if path ∉ tracker.currentByPath ∧ path ∉ tracker.baselineByPath then
      tracker.insertBaseline path content
    else tracker
  | none => tracker

def applyAdd (tracker : TurnDiffTracker) (path : TrackedPath) (content : Str)
    (overwrittenContent : Option Str) : TurnDiffTracker :=
  let tracker :=
    { tracker with originByCurrentPath := tracker.originByCurrentPath.erase path }
  (tracker.captureBaseline path overwrittenContent).insertCurrent path content

def applyDelete (tracker : TurnDiffTracker) (path : TrackedPath) (content : Str) :
    TurnDiffTracker :=
  let removed := tracker.currentByPath.lookup path
  let tracker := { tracker with currentByPath := tracker.currentByPath.erase path }
  let tracker :=
    if removed.isNone ∧ path ∉ tracker.baselineByPath then tracker.insertBaseline path content
    else tracker
  { tracker with originByCurrentPath := tracker.originByCurrentPath.erase path }

def applyUpdate (tracker : TurnDiffTracker) (sourcePath : TrackedPath)
    (movePath : Option TrackedPath) (oldContent : Str) (overwrittenMoveContent : Option Str)
    (newContent : Str) : TurnDiffTracker :=
  let tracker := tracker.captureBaseline sourcePath (some oldContent)
  match movePath with
  | some destPath =>
    let tracker := tracker.captureBaseline destPath overwrittenMoveContent
    let origin := (tracker.originByCurrentPath.lookup sourcePath).getD sourcePath
    let tracker :=
      { tracker with
        originByCurrentPath := tracker.originByCurrentPath.erase sourcePath
        currentByPath := tracker.currentByPath.erase sourcePath }
    let tracker := tracker.insertCurrent destPath newContent
    let origins := tracker.originByCurrentPath.erase destPath
    { tracker with
      originByCurrentPath := if destPath ≠ origin then origins.insert destPath origin else origins }
  | none => tracker.insertCurrent sourcePath newContent

def applyChange (environmentId : Str) (tracker : TurnDiffTracker) (change : AppliedPatchChange) :
    TurnDiffTracker :=
  let sourcePath := ⟨environmentId, Path.parse change.path⟩
  match change.change with
  | .add content overwrittenContent => tracker.applyAdd sourcePath content overwrittenContent
  | .delete content => tracker.applyDelete sourcePath content
  | .update movePath oldContent overwrittenMoveContent newContent =>
    let movePath := movePath.map fun path => ⟨environmentId, Path.parse path⟩
    tracker.applyUpdate sourcePath movePath oldContent overwrittenMoveContent newContent

/-! ## The listing -/

/-- The origin and the destination of a move that is shown as one file. -/
def renamePair (tracker : TurnDiffTracker) (entry : Σ _ : TrackedPath, TrackedPath) :
    Option (TrackedPath × TrackedPath) :=
  let destPath := entry.1
  let originPath := entry.2
  if destPath = originPath ∨ originPath ∈ tracker.currentByPath ∨
      destPath ∉ tracker.currentByPath ∨ originPath ∉ tracker.baselineByPath ∨
      destPath ∈ tracker.baselineByPath then none
  else some (originPath, destPath)

def renamePairs (order : IterationOrder) (tracker : TurnDiffTracker) :
    HashMap TrackedPath TrackedPath :=
  collect ((order.origins tracker.originByCurrentPath.entries).filterMap tracker.renamePair)

/-- The loop of `refresh_unified_diff` over the sorted paths, as far as it
decides which pairs are visited. -/
def visit (renamePairs : HashMap TrackedPath TrackedPath) (handled : List TrackedPath) :
    List TrackedPath → List (TrackedPath × TrackedPath)
  | [] => []
  | path :: paths =>
    if path ∈ handled then visit renamePairs handled paths
    else if path ∈ renamePairs.entries.map (·.2) then visit renamePairs (path :: handled) paths
    else
      match renamePairs.lookup path with
      | some dest => (path, dest) :: visit renamePairs (dest :: path :: handled) paths
      | none => (path, path) :: visit renamePairs (path :: handled) paths

/-- The paths in the order of the diff. -/
def sortedPaths (order : IterationOrder) (tracker : TurnDiffTracker) : List TrackedPath :=
  ((order.baselineKeys tracker.baselineByPath.keys ++
    order.currentKeys tracker.currentByPath.keys).mergeSort fun left right =>
      decide (tracker.displayPath left ≤ tracker.displayPath right)).destutter (· ≠ ·)

def visitedPairs (order : IterationOrder) (tracker : TurnDiffTracker) :
    List (TrackedPath × TrackedPath) :=
  visit (tracker.renamePairs order) [] (tracker.sortedPaths order)

/-! ## Rendering -/

def gitBlobOid (tools : DiffTools) (content : Str) : Str :=
  tools.sha1 ("blob ".toList ++ (Nat.repr (content.map Char.utf8Size).sum).toList ++
    Char.ofNat 0 :: content)

def renderDiff (tools : DiffTools) (tracker : TurnDiffTracker) (leftPath : TrackedPath)
    (leftContent : Option Str) (rightPath : TrackedPath) (rightContent : Option Str) :
    Option Str :=
  if leftContent = rightContent then none
  else
    let leftDisplay := tracker.displayPath leftPath
    let rightDisplay := tracker.displayPath rightPath
    let leftOid := (leftContent.map (gitBlobOid tools)).getD zeroOid
    let rightOid := (rightContent.map (gitBlobOid tools)).getD zeroOid
    let mode :=
      match leftContent, rightContent with
      | none, some _ => "new file mode ".toList ++ regularFileMode ++ ['\n']
      | some _, none => "deleted file mode ".toList ++ regularFileMode ++ ['\n']
      | _, _ => []
    let oldHeader := if leftContent.isSome then "a/".toList ++ leftDisplay else devNull
    let newHeader := if rightContent.isSome then "b/".toList ++ rightDisplay else devNull
    some ("diff --git a/".toList ++ leftDisplay ++ " b/".toList ++ rightDisplay ++ ['\n'] ++ mode ++
      "index ".toList ++ leftOid ++ "..".toList ++ rightOid ++ ['\n'] ++
      tools.unifiedDiff (leftContent.getD []) (rightContent.getD []) oldHeader newHeader)

/-- What the loop carries: the cache of the last refresh, the new one, and the
text so far. -/
structure Rendering where
  previousDiffs : HashMap DiffCacheKey (Option Str)
  renderedDiffs : HashMap DiffCacheKey (Option Str)
  aggregated : Str

def renderPair (tools : DiffTools) (tracker : TurnDiffTracker) (rendering : Rendering)
    (pair : TrackedPath × TrackedPath) : Rendering :=
  let leftContent := tracker.baselineByPath.lookup pair.1
  let rightContent := tracker.currentByPath.lookup pair.2
  let key : DiffCacheKey :=
    ⟨pair.1, leftContent.map (·.revision), pair.2, rightContent.map (·.revision)⟩
  let rendered := (rendering.previousDiffs.lookup key).getD
    (renderDiff tools tracker pair.1 (leftContent.map (·.content)) pair.2
      (rightContent.map (·.content)))
  let aggregated :=
    match rendered with
    | some diff =>
      let aggregated := rendering.aggregated ++ diff
      if aggregated.getLast? = some '\n' then aggregated else aggregated ++ ['\n']
    | none => rendering.aggregated
  { previousDiffs := rendering.previousDiffs.erase key
    renderedDiffs := rendering.renderedDiffs.insert key rendered
    aggregated := aggregated }

def refreshUnifiedDiff (tools : DiffTools) (order : IterationOrder) (tracker : TurnDiffTracker) :
    TurnDiffTracker :=
  let rendering :=
    (tracker.visitedPairs order).foldl (renderPair tools tracker) ⟨tracker.renderedDiffs, ∅, []⟩
  { tracker with
    renderedDiffs := rendering.renderedDiffs
    unifiedDiff := if rendering.aggregated = [] then none else some rendering.aggregated }

def invalidate (tracker : TurnDiffTracker) : TurnDiffTracker :=
  { tracker with valid := false, renderedDiffs := ∅, unifiedDiff := none }

def trackDelta (tools : DiffTools) (order : IterationOrder) (environmentId : Str)
    (tracker : TurnDiffTracker) (delta : AppliedPatchDelta) : TurnDiffTracker :=
  if tracker.valid = false then tracker
  else if delta.exact = false then tracker.invalidate
  else (delta.changes.foldl (applyChange environmentId) tracker).refreshUnifiedDiff tools order

end TurnDiffTracker

end Codex.TurnDiff
