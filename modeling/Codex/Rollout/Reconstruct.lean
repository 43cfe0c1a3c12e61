import Codex.Rollout.History

/-!
# Reconstructing a thread from its rollout

`reconstruct_history_from_rollout` (`core/src/session/rollout_reconstruction.rs`)
reads a rollout from its newest item back. Items are gathered into turn segments
that end at the `TurnStarted` of their turn; rollbacks skip the newest segments
that count as user turns. The newest surviving replacement history becomes the
base, and the items after it are replayed forward.
-/

namespace Codex.Rollout

open Codex.Text

structure PreviousTurnSettings where
  model : Str
  compHash : Option Str
  realtimeActive : Option Bool
  deriving DecidableEq

structure ReconstructedWindow where
  number : ℕ
  firstId : Option Str
  previousId : Option Str
  id : Option Str
  deriving DecidableEq

inductive TurnReferenceContextItem where
  | neverSet
  | cleared
  | latest (item : TurnContextItem)
  deriving DecidableEq

structure ActiveReplaySegment where
  turnId : Option Str := none
  countsAsUserTurn : Bool := false
  previousTurnSettings : Option PreviousTurnSettings := none
  referenceContextItem : TurnReferenceContextItem := .neverSet
  /-- The world-state records of the segment, newest first. -/
  worldStateReplay : List RolloutItem := []
  baseReplacementHistory : Option (List ResponseItem) := none
  window : Option ReconstructedWindow := none
  deriving DecidableEq

def turnIdsAreCompatible (active item : Option Str) : Bool :=
  match active, item with
  | some active, some item => item = active
  | _, _ => true

variable (rules : TextRules)

/-! ## Gathering a segment -/

def compactedWindow (compacted : CompactedItem) : Option ReconstructedWindow :=
  compacted.windowNumber.map fun number =>
    { number := number
      firstId := compacted.firstWindowId.bind rules.parseUuidV7
      previousId := compacted.previousWindowId.bind rules.parseUuidV7
      id := compacted.windowId.bind rules.parseUuidV7 }

namespace ActiveReplaySegment

def addCompacted (segment : ActiveReplaySegment) (compacted : CompactedItem) :
    ActiveReplaySegment :=
  { segment with
    worldStateReplay := segment.worldStateReplay ++ [.compacted compacted]
    window := segment.window.or (compactedWindow rules compacted)
    referenceContextItem :=
      match segment.referenceContextItem with
      | .neverSet => .cleared
      | item => item
    baseReplacementHistory := segment.baseReplacementHistory.or compacted.replacementHistory }

def addTurnContext (segment : ActiveReplaySegment) (ctx : TurnContextItem) :
    ActiveReplaySegment :=
  let segment := { segment with turnId := segment.turnId.or ctx.turnId }
  if turnIdsAreCompatible segment.turnId ctx.turnId then
    { segment with
      previousTurnSettings := some ⟨ctx.model, ctx.compHash, ctx.realtimeActive⟩
      referenceContextItem :=
        match segment.referenceContextItem with
        | .neverSet => .latest ctx
        | item => item }
  else segment

end ActiveReplaySegment

/-- What an item that is neither a rollback nor the start of a turn adds to the segment. -/
def addToSegment (active : Option ActiveReplaySegment) (item : RolloutItem) :
    Option ActiveReplaySegment :=
  match item with
  | .compacted compacted => some ((active.getD {}).addCompacted rules compacted)
  | .eventMsg (.turnComplete turnId) =>
    let segment := active.getD {}
    some { segment with turnId := segment.turnId.or (some turnId) }
  | .eventMsg (.turnAborted turnId) =>
    match active, turnId with
    | some segment, turnId => some { segment with turnId := segment.turnId.or turnId }
    | none, some turnId => some { turnId := some turnId }
    | none, none => none
  | .eventMsg (.userMessage _) | .interAgentCommunication _ =>
    some { active.getD {} with countsAsUserTurn := true }
  | .turnContext ctx => some ((active.getD {}).addTurnContext ctx)
  | .worldState state =>
    let segment := active.getD {}
    some { segment with worldStateReplay := segment.worldStateReplay ++ [.worldState state] }
  | .responseItem response =>
    let segment := active.getD {}
    some { segment with
      countsAsUserTurn := segment.countsAsUserTurn || isUserTurnBoundary rules response }
  | .eventMsg _ | .sessionMeta .. | .interAgentCommunicationMetadata _ => active

/-! ## The reverse scan -/

structure Scan where
  baseReplacementHistory : Option (List ResponseItem) := none
  previousTurnSettings : Option PreviousTurnSettings := none
  referenceContextItem : TurnReferenceContextItem := .neverSet
  worldStateReplay : List RolloutItem := []
  window : Option ReconstructedWindow := none
  pendingRollbackTurns : ℕ := 0
  rolloutSuffix : List RolloutItem
  activeSegment : Option ActiveReplaySegment := none

def usizeMax : ℕ := 2 ^ 64 - 1

/-- `finalize_active_segment`: a pending rollback skips the segment. -/
def Scan.finalize (scan : Scan) (segment : ActiveReplaySegment) : Scan :=
  if 0 < scan.pendingRollbackTurns then
    { scan with
      pendingRollbackTurns :=
        if segment.countsAsUserTurn then scan.pendingRollbackTurns - 1
        else scan.pendingRollbackTurns }
  else
    { scan with
      worldStateReplay := scan.worldStateReplay ++ segment.worldStateReplay
      baseReplacementHistory := scan.baseReplacementHistory.or segment.baseReplacementHistory
      window := scan.window.or segment.window
      previousTurnSettings :=
        if scan.previousTurnSettings.isNone && segment.countsAsUserTurn then
          segment.previousTurnSettings
        else scan.previousTurnSettings
      referenceContextItem :=
        if scan.referenceContextItem = .neverSet &&
            (segment.countsAsUserTurn || segment.referenceContextItem = .cleared) then
          segment.referenceContextItem
        else scan.referenceContextItem }

/-- An item with the items that are newer than it. -/
def Scan.step (scan : Scan) (item : RolloutItem) (newer : List RolloutItem) : Scan :=
  match item with
  | .eventMsg (.threadRolledBack numTurns) =>
    { scan with pendingRollbackTurns := min (scan.pendingRollbackTurns + numTurns) usizeMax }
  | .eventMsg (.turnStarted turnId) =>
    match scan.activeSegment with
    | some segment =>
      if turnIdsAreCompatible segment.turnId (some turnId) then
        { scan with activeSegment := none }.finalize segment
      else scan
    | none => scan
  | .compacted compacted =>
    let moves := (scan.activeSegment.bind (·.baseReplacementHistory)).isNone &&
      compacted.replacementHistory.isSome
    { scan with
      activeSegment := addToSegment rules scan.activeSegment item
      rolloutSuffix := if moves then newer else scan.rolloutSuffix }
  | item => { scan with activeSegment := addToSegment rules scan.activeSegment item }

/-- The base and the metadata that a resume needs are all known. -/
def Scan.done (scan : Scan) : Bool :=
  scan.baseReplacementHistory.isSome && scan.previousTurnSettings.isSome &&
    scan.referenceContextItem ≠ .neverSet

/-- The scan over the items, newest first; `newer` are those already read, oldest first. -/
def Scan.run (scan : Scan) : List RolloutItem → List RolloutItem → Scan
  | [], _ => scan
  | item :: older, newer =>
    let scan := scan.step rules item newer
    if scan.done then scan else scan.run older (item :: newer)

/-- The segment that is still open when the scan ends is finalised too. -/
def Scan.finish (scan : Scan) : Scan :=
  match scan.activeSegment with
  | some segment => { scan with activeSegment := none }.finalize segment
  | none => scan

/-! ## The reconstruction -/

structure RolloutReconstruction where
  history : List ResponseItem
  previousTurnSettings : Option PreviousTurnSettings
  referenceContextItem : Option TurnContextItem
  /-- The surviving world-state records, oldest first. -/
  worldStateReplay : List RolloutItem
  window : ReconstructedWindow

def RolloutItem.isCompacted : RolloutItem → Bool
  | .compacted _ => true
  | _ => false

/-- A compaction without a replacement history among the replayed items. -/
def RolloutItem.isLegacyCompaction : RolloutItem → Bool
  | .compacted item => item.replacementHistory.isNone
  | _ => false

def RolloutItem.isUnnumberedCompaction : RolloutItem → Bool
  | .compacted item => item.windowNumber.isNone
  | _ => false

/-- The window that the session started with, unless some compaction has no window number. -/
def initialWindow (rolloutItems : List RolloutItem) : Option ReconstructedWindow :=
  if rolloutItems.any RolloutItem.isUnnumberedCompaction then none
  else rolloutItems.findSome? fun
    | .sessionMeta (some windowId) _ =>
      (rules.parseUuidV7 windowId).map fun id => ⟨0, some id, none, some id⟩
    | _ => none

def reconstructHistoryFromRollout (rolloutItems : List RolloutItem) : RolloutReconstruction :=
  let start : Scan := { rolloutSuffix := rolloutItems }
  let scan := (start.run rules rolloutItems.reverse []).finish
  let base : ContextManager :=
    match scan.baseReplacementHistory with
    | some base => ContextManager.replace {} base
    | none => {}
  { history := (base.replay rules scan.rolloutSuffix).items
    previousTurnSettings := scan.previousTurnSettings
    referenceContextItem :=
      if scan.rolloutSuffix.any RolloutItem.isLegacyCompaction then none
      else match scan.referenceContextItem with
        | .latest item => some item
        | .neverSet | .cleared => none
    worldStateReplay := scan.worldStateReplay.reverse
    window := (scan.window.or (initialWindow rules rolloutItems)).getD
      ⟨min (rolloutItems.countP RolloutItem.isCompacted) u64Max, none, none, none⟩ }

end Codex.Rollout
