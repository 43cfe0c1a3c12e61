import Codex.Base.Keyed
import Codex.Rollout.Item

/-!
# The thread history builder

`ThreadHistoryBuilder` (`app-server-protocol/src/protocol/thread_history.rs`)
turns rollout items into turns. Finished turns are kept in order, one turn may
be open, and while a change set is active every mutation is recorded in it.

The handlers that put one item made from the event into a turn form three
families, by how they choose the turn; the events of a family are listed with
it. The body of such an item is carried along, and so is what the other items
show. `parseHookPrompt` stands for `parse_hook_prompt_message`, which reads XML
and draws a new id for a prompt that has none. So every item comes with its own
reading (`ReadItem`): two readings of one item may differ in the id they draw.
-/

namespace Codex.ThreadHistory

open Codex.Text Codex.Rollout

/-! ## Turns and items -/

/-- Items that an event brings complete, by the kind of `ThreadItem`. -/
inductive CallKind where
  | webSearch
  | commandExecution
  | fileChange
  | dynamicToolCall
  | mcpToolCall
  | imageView
  | imageGeneration
  | collabAgentToolCall
  | subAgentActivity
  | plan
  | sleep
  | extension
  deriving DecidableEq

inductive ThreadItem where
  | userMessage (id : Str) (content : Carried)
  | hookPrompt (id : Str) (fragments : Carried)
  | agentMessage (id text : Str) (rest : Carried)
  | reasoning (id : Str) (summary content : List Str)
  | contextCompaction (id : Str)
  | enteredReviewMode (id review : Str)
  | exitedReviewMode (id review : Str)
  | call (kind : CallKind) (id : Str) (body : Carried)
  deriving DecidableEq

def ThreadItem.id : ThreadItem → Str
  | .userMessage id _ | .hookPrompt id _ | .agentMessage id _ _ | .reasoning id _ _
  | .contextCompaction id | .enteredReviewMode id _ | .exitedReviewMode id _ | .call _ id _ => id

inductive TurnStatus where
  | completed
  | interrupted
  | failed
  | inProgress
  deriving DecidableEq

/-- `ThreadHistoryTurnChange`: a turn without its items. -/
structure TurnMeta where
  id : Str
  status : TurnStatus := .completed
  error : Option Carried := none
  startedAt : Option Int := none
  completedAt : Option Int := none
  durationMs : Option Int := none
  deriving DecidableEq

structure Turn where
  info : TurnMeta
  items : List ThreadItem := []
  deriving DecidableEq

def Turn.id (turn : Turn) : Str := turn.info.id

/-- `upsert_turn_item`: replace the item with the same id, or push the item. -/
def upsertTurnItem (items : List ThreadItem) (item : ThreadItem) : List ThreadItem :=
  Keyed.upsert ThreadItem.id item.id item (fun _ => item) items

def Turn.upsertItem (item : ThreadItem) (turn : Turn) : Turn :=
  { turn with items := upsertTurnItem turn.items item }

def Turn.changeInfo (change : TurnMeta → TurnMeta) (turn : Turn) : Turn :=
  { turn with info := change turn.info }

/-- `PendingTurn`: the turn that it becomes, and what decides whether it is kept. -/
structure PendingTurn where
  turn : Turn
  openedExplicitly : Bool := false
  sawCompaction : Bool := false
  rolloutStartIndex : Nat
  deriving DecidableEq

/-! ## Rollout items -/

/-- `upsert_item_in_current_turn`: the events whose item goes to the turn that is open. -/
inductive CurrentTurnEvent where
  | webSearchBegin
  | webSearchEnd
  | mcpToolCallBegin
  | mcpToolCallEnd
  | viewImageToolCall
  | imageGenerationBegin
  | imageGenerationEnd
  | collabAgentSpawnBegin
  | collabAgentSpawnEnd
  | collabAgentInteractionBegin
  | collabAgentInteractionEnd
  | subAgentActivity
  | collabWaitingBegin
  | collabWaitingEnd
  | collabCloseBegin
  | collabCloseEnd
  | collabResumeBegin
  | collabResumeEnd
  deriving DecidableEq

def CurrentTurnEvent.kind : CurrentTurnEvent → CallKind
  | webSearchBegin | webSearchEnd => .webSearch
  | mcpToolCallBegin | mcpToolCallEnd => .mcpToolCall
  | viewImageToolCall => .imageView
  | imageGenerationBegin | imageGenerationEnd => .imageGeneration
  | subAgentActivity => .subAgentActivity
  | _ => .collabAgentToolCall

/-- `upsert_item_in_turn_id`: the item goes to the turn that the event names. -/
inductive NamedTurnEvent where
  | execCommandBegin
  | execCommandEnd
  deriving DecidableEq

/-- The item goes to the turn that the event names, or to the open turn if the name is empty. -/
inductive OptionalTurnEvent where
  | guardianAssessment (kind : CallKind)
  | applyPatchApprovalRequest
  | patchApplyBegin
  | patchApplyEnd
  | dynamicToolCallRequest
  | dynamicToolCallResponse
  deriving DecidableEq

def OptionalTurnEvent.kind : OptionalTurnEvent → CallKind
  | guardianAssessment kind => kind
  | applyPatchApprovalRequest | patchApplyBegin | patchApplyEnd => .fileChange
  | dynamicToolCallRequest | dynamicToolCallResponse => .dynamicToolCall

/-- `TurnItem`, as far as the lifecycle handler looks at it. -/
inductive TurnItem where
  | plan (id text : Str)
  /-- Sleeps, command executions, tool calls and the like, which are always shown. -/
  | shown (kind : CallKind) (id : Str) (body : Carried)
  | hookPrompt (id : Str) (fragments : Carried)
  | enteredReviewMode (id review : Str)
  | exitedReviewMode (id review : Str)
  /-- Items that other events bring: messages, reasoning, searches, images, file changes, MCP
  calls and compactions. -/
  | shownElsewhere
  deriving DecidableEq

inductive EventMsg where
  | userMessage (content : Carried)
  | agentMessage (text : Str) (rest : Carried)
  | agentReasoning (text : Str)
  | agentReasoningRawContent (text : Str)
  | inCurrentTurn (event : CurrentTurnEvent) (id : Str) (body : Carried)
  | inNamedTurn (event : NamedTurnEvent) (turnId id : Str) (body : Carried)
  /-- A guardian assessment that approves, or shows nothing, has no `shown` item. -/
  | inOptionalTurn (event : OptionalTurnEvent) (turnId : Str) (shown : Option (Str × Carried))
  | contextCompacted
  | enteredReviewMode (turnId itemId userFacingHint : Option Str)
  | exitedReviewMode (turnId itemId : Option Str) (review : Str)
  /-- `ItemStarted` and `ItemCompleted`. -/
  | itemLifecycle (turnId : Str) (item : TurnItem)
  | error (affectsTurnStatus : Bool) (error : Carried)
  | threadRolledBack (numTurns : Nat)
  | turnAborted (turnId : Option Str) (completedAt durationMs : Option Int)
  | turnStarted (turnId : Str) (startedAt : Option Int)
  | turnComplete (turnId : Str) (completedAt durationMs : Option Int)
  /-- Hooks, token counts and all that has no handler. -/
  | other (event : Carried)
  deriving DecidableEq

inductive RolloutItem where
  | eventMsg (event : EventMsg)
  | compacted (item : CompactedItem)
  | responseItem (item : ResponseItem)
  | interAgentCommunication (communication : InterAgentCommunication)
  | interAgentCommunicationMetadata (triggerTurn : Bool)
  | turnContext (item : TurnContextItem)
  | worldState (item : WorldStateItem)
  | sessionMeta (windowId : Option Str) (rest : Carried)
  deriving DecidableEq

/-- A rollout item, and how its hook prompt is read: a prompt without an id gets a new one at every
reading. -/
structure ReadItem where
  parseHookPrompt : Option Str → List ContentItem → Option (Str × Carried)
  item : RolloutItem

def TurnItem.ids : TurnItem → List Str
  | .plan id _ | .shown _ id _ | .hookPrompt id _ | .enteredReviewMode id _
  | .exitedReviewMode id _ => [id]
  | .shownElsewhere => []

def EventMsg.ids : EventMsg → List Str
  | .inCurrentTurn _ id _ | .inNamedTurn _ _ id _ => [id]
  | .inOptionalTurn _ _ shown => (shown.map Prod.fst).toList
  | .enteredReviewMode _ itemId _ | .exitedReviewMode _ itemId _ => itemId.toList
  | .itemLifecycle _ item => item.ids
  | _ => []

/-- The hook prompt that the item shows. -/
def ReadItem.hookPrompt? (entry : ReadItem) : Option (Str × Carried) :=
  match entry.item with
  | .responseItem (.message id role content _ _) =>
    if role = "user".toList then entry.parseHookPrompt id content else none
  | _ => none

def ReadItem.hookPromptId? (entry : ReadItem) : Option Str := entry.hookPrompt?.map Prod.fst

/-- The call ids and item ids that the item brings. -/
def ReadItem.ids (entry : ReadItem) : List Str :=
  match entry.item with
  | .eventMsg event => event.ids
  | _ => entry.hookPromptId?.toList

/-! ## Changes -/

structure ItemChange where
  turnId : Str
  item : ThreadItem
  deriving DecidableEq

structure ChangeSet where
  changedItems : List ItemChange := []
  changedTurns : List TurnMeta := []
  removedTurnIds : List Str := []
  deriving DecidableEq

def itemIdStart : Str := "item-".toList

def itemId (index : Nat) : Str := itemIdStart ++ (toString index).toList

structure Builder where
  turns : List Turn := []
  currentTurn : Option PendingTurn := none
  nextItemIndex : Nat := 1
  currentRolloutIndex : Nat := 0
  nextRolloutIndex : Nat := 0
  activeChangeSet : Option ChangeSet := none

namespace Builder

def recordChangedItem (b : Builder) (turnId : Str) (item : ThreadItem) : Builder :=
  { b with
    activeChangeSet := b.activeChangeSet.map fun changes =>
      { changes with changedItems := changes.changedItems ++ [⟨turnId, item⟩] } }

def recordChangedTurn (b : Builder) (turn : TurnMeta) : Builder :=
  { b with
    activeChangeSet := b.activeChangeSet.map fun changes =>
      { changes with changedTurns := changes.changedTurns ++ [turn] } }

def recordRemovedTurnIds (b : Builder) (removedTurnIds : List Str) : Builder :=
  { b with
    activeChangeSet := b.activeChangeSet.map fun changes =>
      { changes with removedTurnIds := changes.removedTurnIds ++ removedTurnIds } }

/-! ## Turn lifecycle -/

def finishCurrentTurn (b : Builder) : Builder :=
  match b.currentTurn with
  | some pending =>
    if pending.turn.items = [] && !pending.openedExplicitly && !pending.sawCompaction then
      { b with currentTurn := none }
    else { b with currentTurn := none, turns := b.turns ++ [pending.turn] }
  | none => b

def rolloutTurnId (index : Nat) : Str := "rollout-".toList ++ (toString index).toList

/-- `new_turn`, in a replay: a turn without an id is named after the rollout item that opens it. -/
def newTurn (b : Builder) (id : Option Str) : PendingTurn where
  turn := { info := { id := id.getD (rolloutTurnId b.currentRolloutIndex) } }
  rolloutStartIndex := b.currentRolloutIndex

/-- `record_changed_pending_turn` and the assignment that follows it. -/
def openTurn (b : Builder) (pending : PendingTurn) : Builder :=
  { b.recordChangedTurn pending.turn.info with currentTurn := some pending }

/-- `ensure_turn`: the builder with an open turn, and that turn. -/
def ensureTurn (b : Builder) : Builder × PendingTurn :=
  match b.currentTurn with
  | some pending => (b, pending)
  | none => (b.openTurn (b.newTurn none), b.newTurn none)

def setTurn (pending : PendingTurn) (turn : Turn) : PendingTurn := { pending with turn := turn }

def pushItem (item : ThreadItem) (turn : Turn) : Turn := { turn with items := turn.items ++ [item] }

def pushItemInCurrentTurn (b : Builder) (item : ThreadItem) : Builder :=
  let (b, pending) := b.ensureTurn
  { b.recordChangedItem pending.turn.id item with
    currentTurn := some (setTurn pending (pushItem item pending.turn)) }

def upsertItemInCurrentTurn (b : Builder) (item : ThreadItem) : Builder :=
  let (b, pending) := b.ensureTurn
  { b.recordChangedItem pending.turn.id item with
    currentTurn := some (setTurn pending (pending.turn.upsertItem item)) }

/-- The finished turn `turnId` with its items or its data changed. -/
def modifyTurn (b : Builder) (turnId : Str) (f : Turn → Turn) : Builder :=
  { b with turns := Keyed.modify Turn.id turnId f b.turns }

/-- The turn that is open, if it is `turnId`. -/
def currentWithId (b : Builder) (turnId : Str) : Option PendingTurn :=
  b.currentTurn.filter fun pending => pending.turn.id = turnId

def upsertItemInTurnId (b : Builder) (turnId : Str) (item : ThreadItem) : Builder :=
  match b.currentWithId turnId with
  | some pending =>
    { b.recordChangedItem turnId item with
      currentTurn := some (setTurn pending (pending.turn.upsertItem item)) }
  | none =>
    if turnId ∈ b.turns.map Turn.id then
      (b.modifyTurn turnId (Turn.upsertItem item)).recordChangedItem turnId item
    else b

def nextItemId (b : Builder) : Str := itemId b.nextItemIndex

def takeItemId (b : Builder) : Builder := { b with nextItemIndex := b.nextItemIndex + 1 }

/-! ## Handlers -/

def handleUserMessage (b : Builder) (content : Carried) : Builder :=
  let b :=
    match b.currentTurn with
    | some pending =>
      if !pending.openedExplicitly && !(pending.sawCompaction && pending.turn.items = []) then
        b.finishCurrentTurn
      else b
    | none => b
  b.takeItemId.pushItemInCurrentTurn (.userMessage b.nextItemId content)

def handleAgentMessage (b : Builder) (text : Str) (rest : Carried) : Builder :=
  if text = [] then b
  else b.takeItemId.pushItemInCurrentTurn (.agentMessage b.nextItemId text rest)

/-- Both reasoning handlers: text goes to the last item if that is a reasoning item (`extend`), or
makes a new one (`fresh`). -/
def appendReasoning (b : Builder) (text : Str)
    (extend : List Str → List Str → List Str × List Str) : Builder :=
  if text = [] then b
  else
    let (b, pending) := b.ensureTurn
    match pending.turn.items.getLast? with
    | some (.reasoning id summary content) =>
      let item := ThreadItem.reasoning id (extend summary content).1 (extend summary content).2
      { b.recordChangedItem pending.turn.id item with
        currentTurn := some (setTurn pending
          { pending.turn with items := pending.turn.items.dropLast ++ [item] }) }
    | _ =>
      b.takeItemId.pushItemInCurrentTurn
        (.reasoning b.nextItemId (extend [] []).1 (extend [] []).2)

def handleAgentReasoning (b : Builder) (text : Str) : Builder :=
  b.appendReasoning text fun summary content => (summary ++ [text], content)

def handleAgentReasoningRawContent (b : Builder) (text : Str) : Builder :=
  b.appendReasoning text fun summary content => (summary, content ++ [text])

def upsertItemInOptionalTurn (b : Builder) (turnId : Str) (item : ThreadItem) : Builder :=
  if turnId = [] then b.upsertItemInCurrentTurn item else b.upsertItemInTurnId turnId item

def upsertReviewModeItem (b : Builder) (turnId : Option Str) (item : ThreadItem) : Builder :=
  match turnId with
  | none => b.upsertItemInCurrentTurn item
  | some turnId =>
    let b :=
      if b.currentWithId turnId = none && !(turnId ∈ b.turns.map Turn.id) then
        b.finishCurrentTurn.openTurn (b.finishCurrentTurn.newTurn (some turnId))
      else b
    b.upsertItemInTurnId turnId item

def reviewRequested : Str := "Review requested.".toList

def handleEnteredReviewMode (b : Builder) (turnId itemId userFacingHint : Option Str) : Builder :=
  let review := userFacingHint.getD reviewRequested
  match itemId with
  | some id => b.upsertReviewModeItem turnId (.enteredReviewMode id review)
  | none => b.takeItemId.upsertReviewModeItem turnId (.enteredReviewMode b.nextItemId review)

def handleExitedReviewMode (b : Builder) (turnId itemId : Option Str) (review : Str) : Builder :=
  match itemId with
  | some id => b.upsertReviewModeItem turnId (.exitedReviewMode id review)
  | none => b.takeItemId.upsertReviewModeItem turnId (.exitedReviewMode b.nextItemId review)

def handleMaterializedItemLifecycle (b : Builder) (turnId : Str) (item : TurnItem) : Builder :=
  match item with
  | .plan id text => if text = [] then b else b.upsertItemInTurnId turnId (.call .plan id text)
  | .shown kind id body => b.upsertItemInTurnId turnId (.call kind id body)
  | .hookPrompt id fragments => b.upsertItemInTurnId turnId (.hookPrompt id fragments)
  | .enteredReviewMode id review =>
    b.upsertReviewModeItem (some turnId) (.enteredReviewMode id review)
  | .exitedReviewMode id review =>
    b.upsertReviewModeItem (some turnId) (.exitedReviewMode id review)
  | .shownElsewhere => b

/-- The open turn with other data, recorded as changed. -/
def changeCurrentTurn (b : Builder) (pending : PendingTurn) (change : TurnMeta → TurnMeta) :
    Builder :=
  { b.recordChangedTurn (change pending.turn.info) with
    currentTurn := some (setTurn pending (pending.turn.changeInfo change)) }

/-- The finished turn `turnId` with other data, recorded as changed. -/
def changeFinishedTurn (b : Builder) (turnId : Str) (change : TurnMeta → TurnMeta) : Builder :=
  match b.turns.find? fun turn => turn.id = turnId with
  | some turn =>
    (b.modifyTurn turnId (Turn.changeInfo change)).recordChangedTurn (change turn.info)
  | none => b

def handleError (b : Builder) (affectsTurnStatus : Bool) (error : Carried) : Builder :=
  if affectsTurnStatus then
    match b.currentTurn with
    | some pending =>
      b.changeCurrentTurn pending fun info => { info with status := .failed, error := some error }
    | none => b
  else b

def handleTurnAborted (b : Builder) (turnId : Option Str) (completedAt durationMs : Option Int) :
    Builder :=
  let abort := fun (info : TurnMeta) =>
    { info with status := .interrupted, completedAt := completedAt, durationMs := durationMs }
  let fallback :=
    match b.currentTurn with
    | some pending => b.changeCurrentTurn pending abort
    | none => b
  match turnId with
  | some turnId =>
    match b.currentWithId turnId with
    | some pending => b.changeCurrentTurn pending abort
    | none =>
      if turnId ∈ b.turns.map Turn.id then b.changeFinishedTurn turnId abort else fallback
  | none => fallback

def handleTurnStarted (b : Builder) (turnId : Str) (startedAt : Option Int) : Builder :=
  let b := b.finishCurrentTurn
  let pending := b.newTurn (some turnId)
  let turn := pending.turn.changeInfo fun info =>
    { info with status := .inProgress, startedAt := startedAt }
  b.openTurn { setTurn pending turn with openedExplicitly := true }

def handleTurnComplete (b : Builder) (turnId : Str) (completedAt durationMs : Option Int) :
    Builder :=
  let markCompleted := fun (info : TurnMeta) =>
    { info with
      status :=
        if info.status = .completed || info.status = .inProgress then .completed else info.status
      completedAt := completedAt
      durationMs := durationMs }
  match b.currentWithId turnId with
  | some pending => (b.changeCurrentTurn pending markCompleted).finishCurrentTurn
  | none =>
    if turnId ∈ b.turns.map Turn.id then b.changeFinishedTurn turnId markCompleted
    else
      match b.currentTurn with
      | some pending => (b.changeCurrentTurn pending markCompleted).finishCurrentTurn
      | none => b

def handleCompacted (b : Builder) : Builder :=
  let (b, pending) := b.ensureTurn
  { b with currentTurn := some { pending with sawCompaction := true } }

def handleThreadRollback (b : Builder) (numTurns : Nat) : Builder :=
  let b := b.finishCurrentTurn
  let kept := b.turns.take (b.turns.length - numTurns)
  { b.recordRemovedTurnIds ((b.turns.drop (b.turns.length - numTurns)).map Turn.id) with
    turns := kept
    nextItemIndex := (kept.map (·.items.length)).sum + 1 }

def handleEvent (b : Builder) : EventMsg → Builder
  | .userMessage content => b.handleUserMessage content
  | .agentMessage text rest => b.handleAgentMessage text rest
  | .agentReasoning text => b.handleAgentReasoning text
  | .agentReasoningRawContent text => b.handleAgentReasoningRawContent text
  | .inCurrentTurn event id body => b.upsertItemInCurrentTurn (.call event.kind id body)
  | .inNamedTurn _ turnId id body => b.upsertItemInTurnId turnId (.call .commandExecution id body)
  | .inOptionalTurn event turnId (some (id, body)) =>
    b.upsertItemInOptionalTurn turnId (.call event.kind id body)
  | .inOptionalTurn _ _ none => b
  | .contextCompacted => b.takeItemId.pushItemInCurrentTurn (.contextCompaction b.nextItemId)
  | .enteredReviewMode turnId itemId hint => b.handleEnteredReviewMode turnId itemId hint
  | .exitedReviewMode turnId itemId review => b.handleExitedReviewMode turnId itemId review
  | .itemLifecycle turnId item => b.handleMaterializedItemLifecycle turnId item
  | .error affectsTurnStatus error => b.handleError affectsTurnStatus error
  | .threadRolledBack numTurns => b.handleThreadRollback numTurns
  | .turnAborted turnId completedAt durationMs => b.handleTurnAborted turnId completedAt durationMs
  | .turnStarted turnId startedAt => b.handleTurnStarted turnId startedAt
  | .turnComplete turnId completedAt durationMs =>
    b.handleTurnComplete turnId completedAt durationMs
  | .other _ => b

variable (parseHookPrompt : Option Str → List ContentItem → Option (Str × Carried))

def handleResponseItem (b : Builder) : ResponseItem → Builder
  | .message id role content _ _ =>
    if role = "user".toList then
      match parseHookPrompt id content with
      | some (id, fragments) => b.pushItemInCurrentTurn (.hookPrompt id fragments)
      | none => b
    else b
  | _ => b

def handleRolloutItem (b : Builder) (item : RolloutItem) : Builder :=
  let b :=
    { b with
      currentRolloutIndex := b.nextRolloutIndex
      nextRolloutIndex := b.nextRolloutIndex + 1 }
  match item with
  | .eventMsg event => b.handleEvent event
  | .compacted _ => b.handleCompacted
  | .responseItem item => b.handleResponseItem parseHookPrompt item
  | _ => b

/-- `handle_rollout_item` at one reading of the item. -/
def readItem (b : Builder) (entry : ReadItem) : Builder :=
  b.handleRolloutItem entry.parseHookPrompt entry.item

/-- The builder after a list of items. -/
def readItems (b : Builder) (entries : List ReadItem) : Builder := entries.foldl readItem b

theorem readItems_append (b : Builder) (entries more : List ReadItem) :
    b.readItems (entries ++ more) = (b.readItems entries).readItems more := List.foldl_append

/-- `finish`. -/
def finish (b : Builder) : List Turn := b.finishCurrentTurn.turns

/-- The finished turns, followed by the turn that is open. -/
def view (b : Builder) : List Turn := b.turns ++ (b.currentTurn.map (·.turn)).toList

end Builder

/-- `build_turns_from_rollout_items`. -/
def buildTurnsFromRolloutItems (entries : List ReadItem) : List Turn :=
  (Builder.readItems {} entries).finish

end Codex.ThreadHistory
