import Codex.Base.Table
import Codex.CodeMode.CellState
import Mathlib.Algebra.Group.Int.Defs

/-!
# The state of a connection driver

The driver of a connection to the code-mode host
(`code-mode/src/remote_session/connection/driver`) keeps the requests it has sent, the
waits it holds back, its sessions with their live cells, and the calls that the host has
made to a session's delegate. Around it stand the callers of its commands, which may
cancel or go away at any moment, and the writer's queue.
-/

namespace Codex.HostConnection

open Codex.Text
open Codex.CodeMode (OutputItem)

/-! ## Messages (`code-mode-protocol/src/host`) -/

abbrev SessionId := Str
abbrev WireCellId := Str
abbrev CellId := Str
abbrev RequestId := ℤ
abbrev DelegateRequestId := ℤ

def i64Max : ℤ := 2 ^ 63 - 1
def i32Max : ℕ := 2 ^ 31 - 1

structure RemoteSession where
  id : SessionId
  generation : ℕ
  deriving DecidableEq

structure ExecuteRequest where
  toolCallId : Str
  source : Str
  yieldTimeMs : Option ℕ
  maxOutputTokens : Option ℕ
  deriving DecidableEq

def outOfRange : Str := "out of range integral type conversion attempted".toList

/-- `WireExecuteRequest::try_from`: the token limit must be an `i32`. -/
def wireExecuteRequest (request : ExecuteRequest) : Except Str ExecuteRequest :=
  if request.maxOutputTokens.any (i32Max < ·) then .error outOfRange else .ok request

/-- `WaitRequest` with the public cell, `WireWaitRequest` with the host's. -/
structure WaitRequest where
  cellId : Str
  yieldTimeMs : ℕ
  deriving DecidableEq

inductive RuntimeResponse where
  | yielded (cellId : Str) (contentItems : List OutputItem)
  | terminated (cellId : Str) (contentItems : List OutputItem)
  | result (cellId : Str) (contentItems : List OutputItem) (errorText : Option Str)
  deriving DecidableEq

inductive WaitOutcome where
  | liveCell (response : RuntimeResponse)
  | missingCell (response : RuntimeResponse)
  deriving DecidableEq

inductive HostRequest where
  | openSession (sessionId : SessionId)
  | execute (sessionId : SessionId) (request : ExecuteRequest)
  | wait (sessionId : SessionId) (request : WaitRequest)
  | terminate (sessionId : SessionId) (cellId : WireCellId)
  | shutdownSession (sessionId : SessionId)
  deriving DecidableEq

inductive HostResponse where
  | sessionReady (sessionId : SessionId)
  | executionStarted (cellId : WireCellId)
  | waitCompleted (outcome : WaitOutcome)
  | sessionClosed (sessionId : SessionId)
  deriving DecidableEq

inductive DelegateRequest where
  | invokeTool (cellId : WireCellId)
  | notify (callId : Str) (cellId : WireCellId) (text : Str)
  deriving DecidableEq

def DelegateRequest.cellId : DelegateRequest → WireCellId
  | .invokeTool cellId => cellId
  | .notify _ cellId _ => cellId

/-- A tool's result is a JSON text. -/
inductive DelegateResponse where
  | toolResult (result : Str)
  | notificationDelivered
  deriving DecidableEq

inductive HostToClient where
  | hostHello
  | handshakeRejected
  | response (id : RequestId) (result : Except Str HostResponse)
  | initialResponse (id : RequestId) (result : Except Str RuntimeResponse)
  | delegateRequest (id : DelegateRequestId) (sessionId : SessionId) (request : DelegateRequest)
  | cancelDelegateRequest (id : DelegateRequestId)
  | cellClosed (sessionId : SessionId) (cellId : WireCellId)
  deriving DecidableEq

inductive ClientToHost where
  | request (id : RequestId) (request : HostRequest)
  | cancelRequest (id : RequestId)
  | delegateResponse (id : DelegateRequestId) (result : Except Str DelegateResponse)
  deriving DecidableEq

/-! ## Cell identifiers (`cell_ids.rs`) -/

def publicCellId (generation : ℕ) (cellId : WireCellId) : CellId :=
  if generation = 1 then cellId
  else "g".toList ++ (toString generation).toList ++ ":".toList ++ cellId

def staleCell (cellId : CellId) : Str :=
  "cell ".toList ++ cellId ++ " belongs to a stale code-mode host generation".toList

def remoteCellId (session : RemoteSession) (cellId : CellId) : Except Str WireCellId :=
  if session.generation = 1 then
    if cellId.head? = some 'g' ∧ ':' ∈ cellId then .error (staleCell cellId) else .ok cellId
  else
    match stripPrefix ("g".toList ++ (toString session.generation).toList ++ ":".toList) cellId with
    | some remoteId => .ok remoteId
    | none => .error (staleCell cellId)

def remoteWaitRequest (session : RemoteSession) (request : WaitRequest) : Except Str WaitRequest :=
  (remoteCellId session request.cellId).map fun cellId => { request with cellId }

namespace RuntimeResponse

def cellId : RuntimeResponse → Str
  | .yielded cellId _ | .terminated cellId _ | .result cellId _ _ => cellId

/-- `public_runtime_response`. -/
def toPublic (generation : ℕ) : RuntimeResponse → RuntimeResponse
  | .yielded cellId contentItems => .yielded (publicCellId generation cellId) contentItems
  | .terminated cellId contentItems => .terminated (publicCellId generation cellId) contentItems
  | .result cellId contentItems errorText =>
    .result (publicCellId generation cellId) contentItems errorText

end RuntimeResponse

namespace WaitOutcome

def cellId : WaitOutcome → Str
  | .liveCell response | .missingCell response => response.cellId

/-- `public_wait_outcome`. -/
def toPublic (generation : ℕ) : WaitOutcome → WaitOutcome
  | .liveCell response => .liveCell (response.toPublic generation)
  | .missingCell response => .missingCell (response.toPublic generation)

end WaitOutcome

/-! ## Requests (`types.rs`, `request_tracker.rs`) -/

/-- One call of the connection. It owns the receiver of its command's `response_tx` and, if the
command can be cancelled, the token `caller_cancellation`. -/
abbrev Caller := ℕ

/-- An `Arc<dyn CodeModeSessionDelegate>`. -/
abbrev Delegate := ℕ

/-- The `SessionCleanup` of a session. -/
abbrev SessionCleanup := ℕ

inductive DriverCommand where
  | openSession (session : RemoteSession) (delegate : Delegate) (cleanup : SessionCleanup)
    (caller : Caller)
  | execute (session : RemoteSession) (request : ExecuteRequest) (caller : Caller)
  | wait (session : RemoteSession) (request : WaitRequest) (caller : Caller)
  | terminate (session : RemoteSession) (cellId : CellId) (caller : Caller)
  | shutdownSession (session : RemoteSession) (caller : Caller)
  deriving DecidableEq

def DriverCommand.caller : DriverCommand → Caller
  | .openSession _ _ _ caller | .execute _ _ caller | .wait _ _ caller | .terminate _ _ caller
  | .shutdownSession _ caller => caller

/-- A request with the sender of its answer, and, where it can be cancelled, whether its
cancellation has been reported to the host. -/
inductive PendingRequest where
  | openSession (session : RemoteSession) (delegate : Delegate) (cleanup : SessionCleanup)
    (reported : Bool) (responseTx : Caller)
  | execute (session : RemoteSession) (reported : Bool) (responseTx : Caller)
  | wait (session : RemoteSession) (cellId : WireCellId) (reported : Bool) (responseTx : Caller)
  | terminate (session : RemoteSession) (cellId : WireCellId) (responseTx : Caller)
  | shutdownSession (session : RemoteSession) (responseTx : Caller)
  deriving DecidableEq

namespace PendingRequest

def responseTx : PendingRequest → Caller
  | .openSession _ _ _ _ responseTx | .execute _ _ responseTx | .wait _ _ _ responseTx
  | .terminate _ _ responseTx | .shutdownSession _ responseTx => responseTx

/-- `cancellation_mut`: the caller whose token the request watches, and whether it was reported. -/
def cancellation : PendingRequest → Option (Caller × Bool)
  | .openSession _ _ _ reported caller | .execute _ reported caller
  | .wait _ _ reported caller => some (caller, reported)
  | .terminate _ _ _ | .shutdownSession _ _ => none

def markReported : PendingRequest → PendingRequest
  | .openSession session delegate cleanup _ caller =>
    .openSession session delegate cleanup true caller
  | .execute session _ caller => .execute session true caller
  | .wait session cellId _ caller => .wait session cellId true caller
  | pending => pending

/-- The session that the request opens. -/
def opens : PendingRequest → Option SessionId
  | .openSession session _ _ _ _ => some session.id
  | _ => none

end PendingRequest

structure UnclaimedExecute where
  session : RemoteSession
  cellId : WireCellId
  caller : Caller
  reported : Bool
  deriving DecidableEq

structure InitialResponse where
  generation : ℕ
  cellId : WireCellId
  deriving DecidableEq

structure DeferredWait where
  session : RemoteSession
  request : WaitRequest
  responseTx : Caller
  deriving DecidableEq

inductive CancellationAction where
  | send (id : RequestId)
  | terminate (requestId : RequestId) (execute : UnclaimedExecute)
  deriving DecidableEq

structure RequestTracker where
  pending : List (RequestId × PendingRequest) := []
  unclaimedExecutes : List (RequestId × UnclaimedExecute) := []
  initialResponses : List (RequestId × InitialResponse) := []
  deferredWaits : List DeferredWait := []
  nextRequestId : RequestId := 1
  deriving DecidableEq

namespace RequestTracker

def containsPendingOpen (requests : RequestTracker) (session : RemoteSession) : Bool :=
  requests.pending.any fun (_, pending) => pending.opens == some session.id

def allocateId (requests : RequestTracker) : Except Str (RequestId × RequestTracker) :=
  if requests.nextRequestId = i64Max then
    .error "code-mode host request ID space exhausted".toList
  else
    .ok (requests.nextRequestId, { requests with nextRequestId := requests.nextRequestId + 1 })

/-- `mark_cancelled`: the request or the execute is reported once. -/
def markCancelled (requests : RequestTracker) (id : RequestId) :
    Option CancellationAction × RequestTracker :=
  match (Entries.get? id requests.pending).bind fun pending =>
    pending.cancellation.map fun cancellation => (pending, cancellation.2) with
  | some (pending, reported) =>
    if reported then (none, requests)
    else
      (some (.send id),
        { requests with pending := Entries.insert id pending.markReported requests.pending })
  | none =>
    match Entries.get? id requests.unclaimedExecutes with
    | none => (none, requests)
    | some execute =>
      if execute.reported then (none, requests)
      else
        (some (.terminate id { execute with reported := true }),
          { requests with
            unclaimedExecutes := Entries.remove id requests.unclaimedExecutes })

def removeUnclaimedForSession (requests : RequestTracker) (sessionId : SessionId) :
    RequestTracker :=
  { requests with
    unclaimedExecutes :=
      requests.unclaimedExecutes.filter fun (_, execute) => execute.session.id ≠ sessionId }

end RequestTracker

/-! ## Sessions (`session_registry.rs`) -/

inductive SessionPhase where
  | ready
  | closing
  deriving DecidableEq

structure SessionRecord where
  remote : RemoteSession
  delegate : Delegate
  cleanup : SessionCleanup
  phase : SessionPhase := .ready
  cells : List (WireCellId × CellId) := []
  deriving DecidableEq

structure CellOwner where
  sessionId : SessionId
  cellId : CellId
  delegate : Delegate
  deriving DecidableEq

abbrev SessionRegistry := List (SessionId × SessionRecord)

def SessionRecord.owners (sessionId : SessionId) (record : SessionRecord) : List CellOwner :=
  record.cells.map fun (_, cellId) => ⟨sessionId, cellId, record.delegate⟩

inductive CellAdmissionError where
  | missingSession
  | duplicateCell
  deriving DecidableEq

namespace SessionRegistry

def unknownSession (session : RemoteSession) : Str :=
  "unknown code-mode session ".toList ++ session.id

def requireReady (sessions : SessionRegistry) (session : RemoteSession) : Except Str Unit :=
  match Entries.get? session.id sessions with
  | none => .error (unknownSession session)
  | some record =>
    if record.remote ≠ session then .error "stale code-mode session generation".toList
    else if record.phase ≠ .ready then .error "code-mode session is shutting down".toList
    else .ok ()

def setClosing (sessions : SessionRegistry) (sessionId : SessionId) (record : SessionRecord) :
    SessionRegistry :=
  Entries.insert sessionId { record with phase := .closing } sessions

def beginShutdown (sessions : SessionRegistry) (session : RemoteSession) :
    Except Str SessionRegistry :=
  match Entries.get? session.id sessions with
  | none => .error (unknownSession session)
  | some record =>
    if record.remote ≠ session then .error "stale code-mode session generation".toList
    else if record.phase = .closing then .error "code-mode session is already closing".toList
    else .ok (sessions.setClosing session.id record)

/-- Whether the shutdown must be sent, and the sessions after that. -/
def beginAbandonedShutdown (sessions : SessionRegistry) (sessionId : SessionId) :
    Option (Bool × SessionRegistry) :=
  (Entries.get? sessionId sessions).map fun record =>
    if record.phase = .closing then (false, sessions)
    else (true, sessions.setClosing sessionId record)

def isClosing (sessions : SessionRegistry) (sessionId : SessionId) : Option Bool :=
  (Entries.get? sessionId sessions).map fun record => record.phase = .closing

/-- The owner of the new cell, and the sessions with it. -/
def admitCell (sessions : SessionRegistry) (session : RemoteSession) (cellId : WireCellId) :
    Except CellAdmissionError (CellOwner × SessionRegistry) :=
  match Entries.get? session.id sessions with
  | none => .error .missingSession
  | some record =>
    if (Entries.get? cellId record.cells).isSome then .error .duplicateCell
    else
      let publicId := publicCellId session.generation cellId
      .ok (⟨session.id, publicId, record.delegate⟩,
        Entries.insert session.id
          { record with cells := Entries.insert cellId publicId record.cells } sessions)

def delegateTarget (sessions : SessionRegistry) (sessionId : SessionId) (cellId : WireCellId) :
    Except Str CellOwner :=
  match Entries.get? sessionId sessions with
  | none => .error ("code-mode host delegated for unknown session ".toList ++ sessionId)
  | some record =>
    match Entries.get? cellId record.cells with
    | none =>
      .error ("code-mode host delegated for unknown cell ".toList ++ cellId ++
        " in session ".toList ++ sessionId)
    | some publicId => .ok ⟨sessionId, publicId, record.delegate⟩

def removeCell (sessions : SessionRegistry) (sessionId : SessionId) (cellId : WireCellId) :
    Except Str (CellOwner × SessionRegistry) :=
  match Entries.get? sessionId sessions with
  | none =>
    .error ("code-mode host closed cell ".toList ++ cellId ++ " in unknown session ".toList ++
      sessionId)
  | some record =>
    match Entries.get? cellId record.cells with
    | none => .error ("code-mode host closed unknown cell in session ".toList ++ sessionId)
    | some publicId =>
      .ok (⟨sessionId, publicId, record.delegate⟩,
        Entries.insert sessionId { record with cells := Entries.remove cellId record.cells }
          sessions)

def removeSession (sessions : SessionRegistry) (sessionId : SessionId) :
    List CellOwner × SessionRegistry :=
  match Entries.get? sessionId sessions with
  | none => ([], sessions)
  | some record => (record.owners sessionId, Entries.remove sessionId sessions)

end SessionRegistry

/-! ## Delegate calls (`delegate_runtime.rs`) -/

def maxRecentDelegateRequestIds : ℕ := 4096

structure CellKey where
  sessionId : SessionId
  cellId : CellId
  deriving DecidableEq

def CellOwner.key (owner : CellOwner) : CellKey := ⟨owner.sessionId, owner.cellId⟩

/-- The calls are the cells they are made for; a call that is revoked is removed. -/
structure DelegateRuntime where
  calls : List (DelegateRequestId × CellKey) := []
  seenRequests : List DelegateRequestId := []
  requestOrder : List DelegateRequestId := []
  deriving DecidableEq

namespace DelegateRuntime

/-- The loop that forgets the oldest requests. -/
def expire (seen : List DelegateRequestId) :
    List DelegateRequestId → List DelegateRequestId × List DelegateRequestId
  | [] => (seen, [])
  | expired :: order =>
    if maxRecentDelegateRequestIds < order.length + 1 then
      expire (seen.filter (· ≠ expired)) order
    else (seen, expired :: order)

def rememberRequest (delegates : DelegateRuntime) (id : DelegateRequestId) : DelegateRuntime :=
  let remembered := expire (delegates.seenRequests ++ [id]) (delegates.requestOrder ++ [id])
  { delegates with seenRequests := remembered.1, requestOrder := remembered.2 }

def start (delegates : DelegateRuntime) (id : DelegateRequestId) (target : CellOwner) :
    Except Str DelegateRuntime :=
  if (Entries.get? id delegates.calls).isSome ∨ id ∈ delegates.seenRequests then
    .error ("duplicate code-mode delegate request ID DelegateRequestId(".toList ++
      (toString id).toList ++ ")".toList)
  else
    let remembered := delegates.rememberRequest id
    .ok { remembered with calls := Entries.insert id target.key remembered.calls }

def remove (delegates : DelegateRuntime) (id : DelegateRequestId) : DelegateRuntime :=
  { delegates with calls := Entries.remove id delegates.calls }

/-- `close_cell` revokes the calls of the cell. -/
def closeCell (delegates : DelegateRuntime) (owner : CellOwner) : DelegateRuntime :=
  { delegates with calls := delegates.calls.filter fun (_, cell) => cell ≠ owner.key }

end DelegateRuntime

/-! ## The driver and what is around it -/

inductive Answer where
  | opened
  | executed (requestId : RequestId) (cellId : CellId)
  | waited (outcome : WaitOutcome)
  | shutDown
  | failed (message : Str)
  deriving DecidableEq

/-- What the driver does that others can see. A sender that goes away without having sent is
`unanswered`; `unhandled` is the sender of a command that the driver took and did not handle. -/
inductive Effect where
  | answered (caller : Caller) (answer : Answer)
  | unanswered (caller : Caller)
  | unhandled (caller : Caller)
  | initialAnswered (id : RequestId) (response : Except Str RuntimeResponse)
  | sent (message : ClientToHost)
  | admitted (owner : CellOwner)
  | cellClosed (owner : CellOwner)
  | delegateStarted (id : DelegateRequestId) (cell : CellKey)
  | delegateCancelled (id : DelegateRequestId)
  | cleanedUp (cleanup : SessionCleanup)
  deriving DecidableEq

/-- `markDead` is the `mark_connection_dead` of the connection and of its supervisor. -/
inductive CallerMove where
  | cancel (caller : Caller)
  | dropReceiver (caller : Caller)
  | markDead (reason : Str)
  deriving DecidableEq

inductive QueueError where
  | full
  | closed
  deriving DecidableEq

/-- What happens around the driver while it handles one event: the moves of the callers before each
of its looks at them, what encoding each of its frames fails with, and what refuses each of the
frames it queues. Where a list has run out nothing happens. -/
structure World where
  moves : List (List CallerMove) := []
  encodings : List (Option Str) := []
  queue : List (Option QueueError) := []
  deriving DecidableEq

/-- The driver, with the callers of the commands it has taken and all that it has done. -/
structure ConnectionDriver where
  requests : RequestTracker := {}
  sessions : SessionRegistry := []
  delegates : DelegateRuntime := {}
  failure : Option Str := none
  failed : Bool := false
  nextCaller : Caller := 0
  taken : List Caller := []
  cancelled : List Caller := []
  dropped : List Caller := []
  world : World := {}
  effects : List Effect := []
  deriving DecidableEq

end Codex.HostConnection
