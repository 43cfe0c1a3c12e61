import Codex.Text.Str

/-!
# Response items and rollout items

The items of a thread's history (`protocol/src/models.rs`) and the lines of its
rollout (`protocol/src/protocol.rs`). Values that are only carried along (JSON
payloads, enumerations of the API, metadata) are kept as their serialised text.
-/

namespace Codex.Rollout

open Codex.Text

/-- A value that is stored and compared but never looked into. -/
abbrev Carried := Str

inductive ContentItem where
  | inputText (text : Str)
  | inputImage (imageUrl : Str) (detail : Option Carried)
  | outputText (text : Str)
  deriving DecidableEq

inductive AgentMessageInputContent where
  | inputText (text : Str)
  | encryptedContent (encryptedContent : Str)
  deriving DecidableEq

inductive FunctionCallOutputContentItem where
  | inputText (text : Str)
  | inputImage (imageUrl : Str) (detail : Option Carried)
  | encryptedContent (encryptedContent : Str)
  deriving DecidableEq

inductive FunctionCallOutputBody where
  | text (text : Str)
  | contentItems (items : List FunctionCallOutputContentItem)
  deriving DecidableEq

structure FunctionCallOutputPayload where
  body : FunctionCallOutputBody
  success : Option Bool
  deriving DecidableEq

inductive ResponseItem where
  | additionalTools (id : Option Str) (role : Str) (tools : List Carried)
  | message (id : Option Str) (role : Str) (content : List ContentItem) (phase : Option Carried)
      (metadata : Option Carried)
  | agentMessage (id : Option Str) (author recipient : Str)
      (content : List AgentMessageInputContent) (metadata : Option Carried)
  | reasoning (id : Option Str) (summary : List Carried) (content : Option (List Carried))
      (encryptedContent : Option Str) (metadata : Option Carried)
  | localShellCall (id callId : Option Str) (status action : Carried) (metadata : Option Carried)
  | functionCall (id : Option Str) (name : Str) (namespace' : Option Str) (arguments callId : Str)
      (metadata : Option Carried)
  | toolSearchCall (id callId status : Option Str) (execution : Str) (arguments : Carried)
      (metadata : Option Carried)
  | functionCallOutput (id : Option Str) (callId : Str) (output : FunctionCallOutputPayload)
      (metadata : Option Carried)
  | customToolCall (id status : Option Str) (callId name : Str) (namespace' : Option Str)
      (input : Str) (metadata : Option Carried)
  | customToolCallOutput (id : Option Str) (callId : Str) (name : Option Str)
      (output : FunctionCallOutputPayload) (metadata : Option Carried)
  | toolSearchOutput (id callId : Option Str) (status execution : Str) (tools : List Carried)
      (metadata : Option Carried)
  | webSearchCall (id status : Option Str) (action metadata : Option Carried)
  | imageGenerationCall (id : Option Str) (status : Str) (revisedPrompt : Option Str)
      (result : Str) (metadata : Option Carried)
  | compaction (id : Option Str) (encryptedContent : Str) (metadata : Option Carried)
  | compactionTrigger
  | contextCompaction (id encryptedContent : Option Str) (metadata : Option Carried)
  | other
  deriving DecidableEq

/-! ## Rollout items -/

structure InterAgentCommunication where
  id : Option Str
  author : Str
  recipient : Str
  content : Str
  encryptedContent : Option Str
  metadata : Option Carried
  triggerTurn : Bool
  deriving DecidableEq

structure CompactedItem where
  message : Str
  replacementHistory : Option (List ResponseItem)
  windowNumber : Option ℕ
  firstWindowId : Option Str
  previousWindowId : Option Str
  windowId : Option Str
  deriving DecidableEq

structure TurnContextItem where
  turnId : Option Str
  model : Str
  compHash : Option Str
  realtimeActive : Option Bool
  rest : Carried
  deriving DecidableEq

structure WorldStateItem where
  full : Bool
  state : Carried
  deriving DecidableEq

/-- The events that a replay looks at. -/
inductive EventMsg where
  | threadRolledBack (numTurns : ℕ)
  | turnStarted (turnId : Str)
  | turnComplete (turnId : Str)
  | turnAborted (turnId : Option Str)
  | userMessage (event : Carried)
  | other (event : Carried)
  deriving DecidableEq

inductive RolloutItem where
  | sessionMeta (windowId : Option Str) (rest : Carried)
  | responseItem (item : ResponseItem)
  | interAgentCommunication (communication : InterAgentCommunication)
  | interAgentCommunicationMetadata (triggerTurn : Bool)
  | compacted (item : CompactedItem)
  | turnContext (item : TurnContextItem)
  | worldState (item : WorldStateItem)
  | eventMsg (event : EventMsg)
  deriving DecidableEq

def newTaskType : Str := "NEW_TASK".toList
def messageType : Str := "MESSAGE".toList

/-- The header of an encrypted message, up to its payload. -/
def payloadHeader (messageType recipient author : Str) : Str :=
  "Message Type: ".toList ++ messageType ++ "\nTask name: ".toList ++ recipient ++
    "\nSender: ".toList ++ author ++ "\nPayload:\n".toList

def InterAgentCommunication.toModelInputItem (communication : InterAgentCommunication) :
    ResponseItem :=
  let content :=
    match communication.encryptedContent with
    | some encrypted =>
      [.inputText (payloadHeader (if communication.triggerTurn then newTaskType else messageType)
        communication.recipient communication.author), .encryptedContent encrypted]
    | none => [.inputText communication.content]
  .agentMessage communication.id communication.author communication.recipient content
    communication.metadata

end Codex.Rollout
