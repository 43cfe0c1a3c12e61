import Codex.Rollout.Item

/-!
# The history of a thread

`ContextManager` (`core/src/context_manager/history.rs`): items are recorded at
the end, a compaction replaces them, and a rollback drops the newest user turns
together with the context updates in front of them. A compaction without a
replacement history rebuilds one from the user messages (`core/src/compact.rs`).
-/

namespace Codex.Rollout

open Codex.Text

/-- How texts are recognised and shortened. The recognisers read JSON, XML and lists of markers,
and the truncation has a floating-point budget; everything below holds for any such rules. -/
structure TextRules where
  /-- `parse_hook_prompt_fragment` finds a hook prompt. -/
  isHookPrompt : Str → Bool
  isStandardContextualUserText : Str → Bool
  /-- The text starts with one of `CONTEXTUAL_DEVELOPER_PREFIXES`. -/
  isContextualDevText : Str → Bool
  /-- The text is a JSON `InterAgentCommunication`. -/
  isInterAgentText : Str → Bool
  isSummaryMessage : Str → Bool
  approxTokenCount : Str → ℕ
  /-- `truncate_text` to a number of tokens. -/
  truncateToTokens : Str → ℕ → Str
  /-- `truncate_function_output_payload` with the budget of the turn's policy. -/
  truncateFunctionOutputPayload : FunctionCallOutputPayload → FunctionCallOutputPayload
  parseUuidV7 : Str → Option Str

/-- Texts are taken as they are. -/
def plainRules : TextRules where
  isHookPrompt := fun _ => false
  isStandardContextualUserText := fun _ => false
  isContextualDevText := fun _ => false
  isInterAgentText := fun _ => false
  isSummaryMessage := fun _ => false
  approxTokenCount := fun text => (text.length + 3) / 4
  truncateToTokens := fun text _ => text
  truncateFunctionOutputPayload := fun output => output
  parseUuidV7 := fun _ => none

variable (rules : TextRules)

def systemRole : Str := "system".toList
def userRole : Str := "user".toList
def assistantRole : Str := "assistant".toList
def developerRole : Str := "developer".toList

/-! ## Turn boundaries -/

def isContextualUserFragment : ContentItem → Bool
  | .inputText text => rules.isHookPrompt text || rules.isStandardContextualUserText text
  | _ => false

def isContextualUserMessageContent (content : List ContentItem) : Bool :=
  content.any (isContextualUserFragment rules)

def isContextualDevFragment : ContentItem → Bool
  | .inputText text => rules.isContextualDevText text
  | _ => false

def isContextualDevMessageContent (content : List ContentItem) : Bool :=
  content.any (isContextualDevFragment rules)

def hasNonContextualDevMessageContent (content : List ContentItem) : Bool :=
  content.any fun item => !isContextualDevFragment rules item

def isInterAgentInstructionContent : List ContentItem → Bool
  | [.inputText text] | [.outputText text] => rules.isInterAgentText text
  | _ => false

def isUserTurnBoundary : ResponseItem → Bool
  | .agentMessage .. => true
  | .message _ role content _ _ =>
    role = userRole && !isContextualUserMessageContent rules content ||
      role = assistantRole && isInterAgentInstructionContent rules content
  | _ => false

/-! ## Recording and dropping -/

/-- The items, and what a rollback may clear. -/
structure ContextManager where
  items : List ResponseItem := []
  historyVersion : ℕ := 0
  referenceContextItem : Option TurnContextItem := none
  deriving DecidableEq

def u64Max : ℕ := 2 ^ 64 - 1

def isApiMessage : ResponseItem → Bool
  | .message _ role _ _ _ => role ≠ systemRole
  | .compactionTrigger | .other => false
  | _ => true

def processItem : ResponseItem → ResponseItem
  | .functionCallOutput id callId output metadata =>
    .functionCallOutput id callId (rules.truncateFunctionOutputPayload output) metadata
  | .customToolCallOutput id callId name output metadata =>
    .customToolCallOutput id callId name (rules.truncateFunctionOutputPayload output) metadata
  | item => item

namespace ContextManager

def recordItem (history : ContextManager) (item : ResponseItem) : ContextManager :=
  if isApiMessage item then { history with items := history.items ++ [processItem rules item] }
  else history

def replace (history : ContextManager) (items : List ResponseItem) : ContextManager :=
  { history with items := items, historyVersion := min (history.historyVersion + 1) u64Max }

end ContextManager

def userMessagePositions (items : List ResponseItem) : List ℕ :=
  items.findIdxs (isUserTurnBoundary rules)

/-- What a rollback trims in front of the turns it drops: context updates, down to `first`. The
flag says whether a trimmed message also held persistent text. -/
def trimPreTurnContextUpdates (snapshot : List ResponseItem) (first : ℕ) : ℕ → ℕ × Bool
  | 0 => (0, false)
  | cut + 1 =>
    if first < cut + 1 then
      match snapshot[cut]? with
      | some (.message _ role content _ _) =>
        if role = developerRole && isContextualDevMessageContent rules content then
          let (cut, mixed) := trimPreTurnContextUpdates snapshot first cut
          (cut, mixed || hasNonContextualDevMessageContent rules content)
        else if role = userRole && isContextualUserMessageContent rules content then
          trimPreTurnContextUpdates snapshot first cut
        else (cut + 1, false)
      | _ => (cut + 1, false)
    else (cut + 1, false)

def ContextManager.dropLastNUserTurns (history : ContextManager) (numTurns : ℕ) :
    ContextManager :=
  if numTurns = 0 then history
  else
    let snapshot := history.items
    let userPositions := userMessagePositions rules snapshot
    match userPositions with
    | [] => history.replace snapshot
    | first :: _ =>
      let cut :=
        if userPositions.length ≤ numTurns then first
        else userPositions.getD (userPositions.length - numTurns) 0
      let (cut, mixed) := trimPreTurnContextUpdates rules snapshot first cut
      let history :=
        if mixed then { history with referenceContextItem := none } else history
      history.replace (snapshot.take cut)

/-! ## Rebuilding a history -/

def imageOpenTag : Str := "<image>".toList
def imageCloseTag : Str := "</image>".toList
def localImageOpenTagPrefix : Str := "<image name=".toList

def isLocalImageOpenTagText (text : Str) : Bool :=
  match Text.stripPrefix text localImageOpenTagPrefix with
  | some rest => rest.getLast? = some '>'
  | none => false

def ContentItem.isInputImage : ContentItem → Bool
  | .inputImage .. => true
  | _ => false

/-- The texts of a message, without the tags around images. `before` is the item in front. -/
def userMessageTexts (before : Option ContentItem) : List ContentItem → List Str
  | [] => []
  | .inputText text :: rest =>
    if (isLocalImageOpenTagText text || text = imageOpenTag) &&
          rest.head?.any ContentItem.isInputImage ||
        text = imageCloseTag && before.any ContentItem.isInputImage then
      userMessageTexts (some (.inputText text)) rest
    else text :: userMessageTexts (some (.inputText text)) rest
  | item :: rest => userMessageTexts (some item) rest

/-- `parse_user_message(..).message()`. -/
def parseUserMessage (content : List ContentItem) : Option Str :=
  if isContextualUserMessageContent rules content then none
  else some (userMessageTexts none content).flatten

/-- `parse_visible_hook_prompt_message` finds a prompt: every item is one or is context, and at
least one is. -/
def isVisibleHookPromptMessage (content : List ContentItem) : Bool :=
  content.all (isContextualUserFragment rules) &&
    content.any fun
      | .inputText text => rules.isHookPrompt text
      | _ => false

structure CompactedUserMessage where
  message : Str
  metadata : Option Carried
  deriving DecidableEq

def collectUserMessages (items : List ResponseItem) : List CompactedUserMessage :=
  items.filterMap fun
    | .message _ role content _ metadata =>
      if role = userRole && !isVisibleHookPromptMessage rules content then
        match parseUserMessage rules content with
        | some message =>
          if rules.isSummaryMessage message then none else some ⟨message, metadata⟩
        | none => none
      else none
    | _ => none

def compactUserMessageMaxTokens : ℕ := 20000

/-- The newest messages, newest first, as far as the budget reaches. -/
def selectMessages : ℕ → List CompactedUserMessage → List CompactedUserMessage
  | _, [] => []
  | remaining, message :: older =>
    if remaining = 0 then []
    else
      let tokens := rules.approxTokenCount message.message
      if tokens ≤ remaining then message :: selectMessages (remaining - tokens) older
      else [{ message with message := rules.truncateToTokens message.message remaining }]

def userMessage (text : Str) (metadata : Option Carried) : ResponseItem :=
  .message none userRole [.inputText text] none metadata

def noSummaryText : Str := "(no summary available)".toList

def buildCompactedHistory (initialContext : List ResponseItem)
    (userMessages : List CompactedUserMessage) (summaryText : Str) : List ResponseItem :=
  let selected := (selectMessages rules compactUserMessageMaxTokens userMessages.reverse).reverse
  initialContext ++ (selected.map fun message => userMessage message.message message.metadata) ++
    [userMessage (if summaryText = [] then noSummaryText else summaryText) none]

/-! ## Replaying a rollout -/

/-- A compaction brings its replacement history, or the history is rebuilt. -/
def ContextManager.replayCompacted (history : ContextManager) (compacted : CompactedItem) :
    ContextManager :=
  match compacted.replacementHistory with
  | some replacement => history.replace replacement
  | none =>
    history.replace (buildCompactedHistory rules []
      (collectUserMessages rules history.items) compacted.message)

/-- One step of the forward replay. -/
def ContextManager.replayItem (history : ContextManager) : RolloutItem → ContextManager
  | .responseItem item => history.recordItem rules item
  | .interAgentCommunication communication =>
    history.recordItem rules communication.toModelInputItem
  | .compacted compacted => history.replayCompacted rules compacted
  | .eventMsg (.threadRolledBack numTurns) => history.dropLastNUserTurns rules numTurns
  | _ => history

def ContextManager.replay (history : ContextManager) (items : List RolloutItem) :
    ContextManager :=
  items.foldl (ContextManager.replayItem rules) history

end Codex.Rollout
