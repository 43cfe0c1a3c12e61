import Codex.Base.EState
import Codex.HostConnection.DriverState

/-!
# The driver of a connection

`ConnectionDriver` (`driver.rs`, `commands.rs`, `responses.rs`, `delegate_runtime.rs`)
handles one event at a time: a command, a message of the host, the completion of a
delegate call, a cancellation, a claim. A handler that the source has return `false` is a
computation that stops here; the driver is then dropped, and its drop fails whatever is
left.
-/

namespace Codex.HostConnection

open Codex.Text SessionRegistry

/-- A computation of the driver. It stops where the source returns `false`. -/
abbrev DriverM := EStateM Unit ConnectionDriver

def stop {α : Type} : DriverM α := throw ()

/-- After a stop of `x`, `cleanup` runs before the stop goes on. -/
def onStop (x cleanup : DriverM Unit) : DriverM Unit := fun s =>
  match x s with
  | .ok u s' => .ok u s'
  | .error _ s' => (cleanup >>= fun _ => stop) s'

/-! ## The surroundings -/

def ConnectionDriver.log (s : ConnectionDriver) (effect : Effect) : ConnectionDriver :=
  { s with effects := s.effects ++ [effect] }

def emit (effect : Effect) : DriverM Unit := modify (·.log effect)

def ConnectionDriver.move (s : ConnectionDriver) : CallerMove → ConnectionDriver
  | .cancel caller => { s with cancelled := caller :: s.cancelled }
  | .dropReceiver caller => { s with dropped := caller :: s.dropped }
  | .markDead reason => { s with failure := some (s.failure.getD reason) }

/-- The callers move before each look at them. -/
def ConnectionDriver.look (s : ConnectionDriver) : ConnectionDriver :=
  { s.world.moves.head?.getD [] |>.foldl ConnectionDriver.move s with
    world := { s.world with moves := s.world.moves.tail } }

def isCancelled (caller : Caller) : DriverM Bool := do
  modify ConnectionDriver.look
  return decide (caller ∈ (← get).cancelled)

def isClosed (caller : Caller) : DriverM Bool := do
  modify ConnectionDriver.look
  return decide (caller ∈ (← get).dropped)

/-- `response_tx.send`: whether the answer has a receiver. -/
def send (caller : Caller) (answer : Answer) : DriverM Bool := do
  if ← isClosed caller then
    emit (.unanswered caller)
    return false
  else
    emit (.answered caller answer)
    return true

/-- `let _ = response_tx.send(..)`. -/
def respond (caller : Caller) (answer : Answer) : DriverM Unit := do
  let _ ← send caller answer
  return ()

/-- `EncodedFrame::encode`: what it fails with. -/
def encode (_message : ClientToHost) : DriverM (Option Str) := do
  let world := (← get).world
  modify fun s => { s with world := { world with encodings := world.encodings.tail } }
  return world.encodings.head?.getD none

/-- `outgoing_tx.try_send`. -/
def trySend (message : ClientToHost) : DriverM (Option QueueError) := do
  let world := (← get).world
  modify fun s => { s with world := { world with queue := world.queue.tail } }
  match world.queue.head?.getD none with
  | none => do
    emit (.sent message)
    return none
  | some err => return some err

/-- `oneshot::channel()` whose receiver is dropped at once. -/
def abandonedChannel : DriverM Caller := do
  let caller := (← get).nextCaller
  modify fun s => { s with nextCaller := caller + 1, dropped := caller :: s.dropped }
  return caller

/-! ## Failing -/

def setRequests (requests : RequestTracker) : DriverM Unit := modify fun s => { s with requests }

def setSessions (sessions : SessionRegistry) : DriverM Unit := modify fun s => { s with sessions }

def setDelegates (delegates : DelegateRuntime) : DriverM Unit :=
  modify fun s => { s with delegates }

def failPending (reason : Str) : List (RequestId × PendingRequest) → DriverM Unit
  | [] => return ()
  | (_, pending) :: rest => do
    respond pending.responseTx (.failed reason)
    failPending reason rest

def failInitial (reason : Str) : List (RequestId × InitialResponse) → DriverM Unit
  | [] => return ()
  | (id, _) :: rest => do
    emit (.initialAnswered id (.error reason))
    failInitial reason rest

def failDeferred (reason : Str) : List DeferredWait → DriverM Unit
  | [] => return ()
  | wait :: rest => do
    respond wait.responseTx (.failed reason)
    failDeferred reason rest

/-- `RequestTracker::fail_all`. -/
def failRequests (reason : Str) : DriverM Unit := do
  let requests := (← get).requests
  setRequests { nextRequestId := requests.nextRequestId }
  failPending reason requests.pending
  failInitial reason requests.initialResponses
  failDeferred reason requests.deferredWaits

def notifyCellsClosed : List CellOwner → DriverM Unit
  | [] => return ()
  | owner :: rest => do
    emit (.cellClosed owner)
    notifyCellsClosed rest

/-- `SessionCleanup::fail` for each of the sessions. -/
def failSessions : SessionRegistry → DriverM Unit
  | [] => return ()
  | (sessionId, record) :: rest => do
    notifyCellsClosed (record.owners sessionId)
    emit (.cleanedUp record.cleanup)
    failSessions rest

def fail (reason : Str) : DriverM Unit := do
  let s ← get
  if s.failed then return ()
  else do
    modify fun s => { s with failed := true, failure := some (s.failure.getD reason) }
    failRequests (s.failure.getD reason)
    modify fun s => { s with sessions := [], delegates := { s.delegates with calls := [] } }
    failSessions s.sessions

/-- The driver fails, and the handler returns `false`. -/
def failWith {α : Type} (reason : Str) : DriverM α := do
  fail reason
  stop

def queueFrame (message : ClientToHost) : DriverM Unit := do
  match ← trySend message with
  | none => return ()
  | some .full => failWith "code-mode host outgoing queue is full".toList
  | some .closed => failWith "code-mode host writer closed".toList

/-! ## Requests -/

def allocateId : DriverM (Except Str RequestId) := do
  match (← get).requests.allocateId with
  | .error err => return .error err
  | .ok (id, requests) => do
    setRequests requests
    return .ok id

def insertPending (id : RequestId) (pending : PendingRequest) : DriverM Unit :=
  modify fun s =>
    { s with requests := { s.requests with pending := Entries.insert id pending s.requests.pending } }

/-- A frame that is encoded goes into the queue and its request into the tracker. `refused` is the
text in front of the encoder's. -/
def submit (refused : Str) (id : RequestId) (request : HostRequest) (pending : PendingRequest) :
    DriverM Unit := do
  match ← encode (.request id request) with
  | some err => respond pending.responseTx (.failed (refused ++ err))
  | none => do
    insertPending id pending
    queueFrame (.request id request)

def sendRequestAs (refused : Str) (request : HostRequest) (pending : PendingRequest) :
    DriverM Unit := do
  match ← allocateId with
  | .error err => do
    respond pending.responseTx (.failed err)
    stop
  | .ok id => submit refused id request pending

def sendRequest (request : HostRequest) (pending : PendingRequest) : DriverM Unit :=
  sendRequestAs "code-mode request exceeds the IPC frame limit: ".toList request pending

/-- `has_cancelled_wait`, over the pending requests. -/
def anyCancelledWait (session : RemoteSession) (cellId : WireCellId) :
    List (RequestId × PendingRequest) → DriverM Bool
  | [] => return false
  | (_, .wait pendingSession pendingCellId _ caller) :: rest => do
    if pendingSession = session ∧ pendingCellId = cellId then do
      if ← isCancelled caller then return true
      else anyCancelledWait session cellId rest
    else anyCancelledWait session cellId rest
  | _ :: rest => anyCancelledWait session cellId rest

def hasCancelledWait (session : RemoteSession) (cellId : WireCellId) : DriverM Bool := do
  anyCancelledWait session cellId (← get).requests.pending

def pushDeferredWait (wait : DeferredWait) : DriverM Unit :=
  modify fun s =>
    { s with requests := { s.requests with deferredWaits := s.requests.deferredWaits ++ [wait] } }

/-! ## Commands -/

def openSession (session : RemoteSession) (delegate : Delegate) (cleanup : SessionCleanup)
    (caller : Caller) : DriverM Unit := do
  let s ← get
  if (Entries.get? session.id s.sessions).isSome || s.requests.containsPendingOpen session then
    respond caller (.failed ("code-mode session ".toList ++ session.id ++
      " is already open".toList))
  else
    sendRequestAs "failed to encode code-mode open-session request: ".toList
      (.openSession session.id) (.openSession session delegate cleanup false caller)

def execute (session : RemoteSession) (request : ExecuteRequest) (caller : Caller) :
    DriverM Unit := do
  match requireReady (← get).sessions session with
  | .error err => respond caller (.failed err)
  | .ok () =>
    match wireExecuteRequest request with
    | .error err =>
      respond caller (.failed ("failed to encode code-mode execute request: ".toList ++ err))
    | .ok request =>
      sendRequestAs "code-mode execute request exceeds the IPC frame limit: ".toList
        (.execute session.id request) (.execute session false caller)

def startWait (session : RemoteSession) (request : WaitRequest) (caller : Caller) : DriverM Unit :=
  sendRequest (.wait session.id request) (.wait session request.cellId false caller)

/-- A wait of a ready session, held back while the cell has a wait that was cancelled. -/
def deferOrStartWait (session : RemoteSession) (request : WaitRequest) (caller : Caller) :
    DriverM Unit := do
  if ← hasCancelledWait session request.cellId then pushDeferredWait ⟨session, request, caller⟩
  else startWait session request caller

def wait (session : RemoteSession) (request : WaitRequest) (caller : Caller) : DriverM Unit := do
  match requireReady (← get).sessions session with
  | .error err => respond caller (.failed err)
  | .ok () =>
    match remoteWaitRequest session request with
    | .error err => respond caller (.failed err)
    | .ok request => deferOrStartWait session request caller

def terminate (session : RemoteSession) (cellId : CellId) (caller : Caller) : DriverM Unit := do
  match requireReady (← get).sessions session with
  | .error err => respond caller (.failed err)
  | .ok () =>
    match remoteCellId session cellId with
    | .error err => respond caller (.failed err)
    | .ok cellId => sendRequest (.terminate session.id cellId) (.terminate session cellId caller)

def shutdownSession (session : RemoteSession) (caller : Caller) : DriverM Unit := do
  match beginShutdown (← get).sessions session with
  | .error err => respond caller (.failed err)
  | .ok sessions => do
    setSessions sessions
    sendRequest (.shutdownSession session.id) (.shutdownSession session caller)

def handleCommand : DriverCommand → DriverM Unit
  | .openSession session delegate cleanup caller => openSession session delegate cleanup caller
  | .execute session request caller => execute session request caller
  | .wait session request caller => wait session request caller
  | .terminate session cellId caller => terminate session cellId caller
  | .shutdownSession session caller => shutdownSession session caller

/-! ## Delegate calls -/

def startDelegate (id : DelegateRequestId) (sessionId : SessionId) (request : DelegateRequest) :
    DriverM Unit := do
  let s ← get
  match delegateTarget s.sessions sessionId request.cellId with
  | .error err => failWith err
  | .ok target =>
    match s.delegates.start id target with
    | .error err => failWith err
    | .ok delegates => do
      setDelegates delegates
      emit (.delegateStarted id target.key)

def cancelDelegate (id : DelegateRequestId) : DriverM Unit := do
  setDelegates ((← get).delegates.remove id)
  emit (.delegateCancelled id)

/-- The frame of a delegate's answer, or of the error that stands for one that is too long. -/
def sendDelegateResponse (id : DelegateRequestId) (result : Except Str DelegateResponse) :
    DriverM Unit := do
  match ← encode (.delegateResponse id result) with
  | none => queueFrame (.delegateResponse id result)
  | some err => do
    let fallback : ClientToHost := .delegateResponse id (.error
      ("code-mode delegate response exceeds the IPC frame limit: ".toList ++ err))
    match ← encode fallback with
    | none => queueFrame fallback
    | some fallbackErr =>
      failWith ("failed to encode code-mode delegate error response: ".toList ++ fallbackErr)

def completeDelegate (id : DelegateRequestId) (result : Except Str DelegateResponse) :
    DriverM Unit := do
  let s ← get
  if (Entries.get? id s.delegates.calls).isSome then do
    setDelegates (s.delegates.remove id)
    sendDelegateResponse id result
  else return ()

def closeCell (sessionId : SessionId) (cellId : WireCellId) : DriverM Unit := do
  let s ← get
  match removeCell s.sessions sessionId cellId with
  | .error err => failWith err
  | .ok (owner, sessions) => do
    setSessions sessions
    setDelegates (s.delegates.closeCell owner)
    notifyCellsClosed [owner]

/-- `close_session_locally`, and the effects of it. -/
def closeSessionLocally (sessionId : SessionId) : DriverM Unit := do
  let s ← get
  setRequests (s.requests.removeUnclaimedForSession sessionId)
  let removed := removeSession s.sessions sessionId
  setSessions removed.2
  setDelegates (removed.1.foldl DelegateRuntime.closeCell s.delegates)
  notifyCellsClosed removed.1

/-! ## Responses of the host -/

def shutdownAbandonedSession (session : RemoteSession) : DriverM Unit := do
  match beginAbandonedShutdown (← get).sessions session.id with
  | none =>
    failWith ("code-mode host committed abandoned session ".toList ++ session.id ++
      " without local state".toList)
  | some (shouldShutdown, sessions) => do
    setSessions sessions
    if shouldShutdown then do
      let responseTx ← abandonedChannel
      sendRequest (.shutdownSession session.id) (.shutdownSession session responseTx)
    else return ()

def terminateAbandonedCell (session : RemoteSession) (cellId : WireCellId) : DriverM Unit := do
  match isClosing (← get).sessions session.id with
  | none =>
    failWith ("code-mode host admitted an abandoned cell in unknown session ".toList ++ session.id)
  | some true => return ()
  | some false => do
    let responseTx ← abandonedChannel
    sendRequest (.terminate session.id cellId) (.terminate session cellId responseTx)

/-- The caller is told the reason, and the connection fails. -/
def rejectWith (caller : Caller) (reason : Str) : DriverM Unit := do
  respond caller (.failed reason)
  failWith reason

/-- `cancellation.is_cancelled() || response_tx.is_closed()`. -/
def isAbandoned (caller : Caller) : DriverM Bool := do
  if ← isCancelled caller then return true else isClosed caller

/-- The answer, unless the caller is found to have abandoned its command. -/
def answerUnless (abandoned : Bool) (caller : Caller) (answer : Answer) : DriverM Bool := do
  if abandoned then do
    emit (.unanswered caller)
    return false
  else send caller answer

def completeOpen (session : RemoteSession) (delegate : Delegate) (cleanup : SessionCleanup)
    (caller : Caller) : Except Str HostResponse → DriverM Unit
  | .ok (.sessionReady sessionId) =>
    if sessionId = session.id then do
      let abandoned ← isAbandoned caller
      setSessions (Entries.insert session.id { remote := session, delegate, cleanup }
        (← get).sessions)
      if ← answerUnless abandoned caller .opened then return ()
      else shutdownAbandonedSession session
    else rejectWith caller "code-mode host returned an invalid open-session response".toList
  | .ok _ => rejectWith caller "code-mode host returned an invalid open-session response".toList
  | .error err => respond caller (.failed err)

/-- The cell is admitted; its start is delivered to the caller. -/
def deliverExecute (id : RequestId) (session : RemoteSession) (cellId : WireCellId)
    (owner : CellOwner) (reported : Bool) (caller : Caller) : DriverM Unit := do
  let requests := (← get).requests
  setRequests { requests with
    initialResponses := Entries.insert id ⟨session.generation, cellId⟩ requests.initialResponses }
  let abandoned ← isAbandoned caller
  if ← answerUnless abandoned caller (.executed id owner.cellId) then do
    let requests := (← get).requests
    setRequests { requests with
      unclaimedExecutes :=
        Entries.insert id ⟨session, cellId, caller, reported⟩ requests.unclaimedExecutes }
  else terminateAbandonedCell session cellId

def completeExecute (id : RequestId) (session : RemoteSession) (reported : Bool) (caller : Caller) :
    Except Str HostResponse → DriverM Unit
  | .ok (.executionStarted cellId) => do
    match admitCell (← get).sessions session cellId with
    | .error .missingSession =>
      respond caller (.failed "code-mode session closed during execute".toList)
    | .error .duplicateCell =>
      rejectWith caller ("code-mode host reused live cell ".toList ++ cellId ++
        " in session ".toList ++ session.id)
    | .ok (owner, sessions) => do
      setSessions sessions
      emit (.admitted owner)
      deliverExecute id session cellId owner reported caller
  | .ok _ => rejectWith caller "code-mode host returned an invalid execute response".toList
  | .error err => respond caller (.failed err)

/-- A response to a wait or to a termination, which are answered alike. -/
def completeWait (session : RemoteSession) (cellId : WireCellId) (caller : Caller) :
    Except Str HostResponse → DriverM Unit
  | .ok (.waitCompleted outcome) =>
    if outcome.cellId ≠ cellId then
      rejectWith caller ("code-mode host returned cell ".toList ++ outcome.cellId ++
        " for request targeting ".toList ++ cellId)
    else respond caller (.waited (outcome.toPublic session.generation))
  | .ok _ => rejectWith caller "code-mode host returned an invalid cell response".toList
  | .error err => respond caller (.failed err)

def completeShutdown (session : RemoteSession) (caller : Caller) :
    Except Str HostResponse → DriverM Unit
  | .ok (.sessionClosed sessionId) =>
    if sessionId = session.id then do
      closeSessionLocally session.id
      respond caller .shutDown
    else rejectWith caller "code-mode host returned an invalid shutdown response".toList
  | .ok _ => rejectWith caller "code-mode host returned an invalid shutdown response".toList
  | .error err => rejectWith caller err

def completePending (id : RequestId) (result : Except Str HostResponse) :
    PendingRequest → DriverM Unit
  | .openSession session delegate cleanup _ caller =>
    completeOpen session delegate cleanup caller result
  | .execute session reported caller => completeExecute id session reported caller result
  | .wait session cellId _ caller => completeWait session cellId caller result
  | .terminate session cellId caller => completeWait session cellId caller result
  | .shutdownSession session caller => completeShutdown session caller result

def unknownId (text : Str) (id : RequestId) : Str :=
  text ++ "RequestId(".toList ++ (toString id).toList ++ ")".toList

def completeRequest (id : RequestId) (result : Except Str HostResponse) : DriverM Unit := do
  let requests := (← get).requests
  match Entries.get? id requests.pending with
  | none => failWith (unknownId "code-mode host returned unknown request ID ".toList id)
  | some pending => do
    setRequests { requests with pending := Entries.remove id requests.pending }
    completePending id result pending

def completeInitialResponse (id : RequestId) (result : Except Str RuntimeResponse) :
    DriverM Unit := do
  let requests := (← get).requests
  match Entries.get? id requests.initialResponses with
  | none =>
    failWith (unknownId "code-mode host returned initial response for unknown request ID ".toList id)
  | some initial => do
    setRequests { requests with
      initialResponses := Entries.remove id requests.initialResponses }
    match result with
    | .error err => emit (.initialAnswered id (.error err))
    | .ok response =>
      if response.cellId = initial.cellId then
        emit (.initialAnswered id (.ok (response.toPublic initial.generation)))
      else do
        let reason := "code-mode host returned initial response for cell ".toList ++
          response.cellId ++ " instead of ".toList ++ initial.cellId
        emit (.initialAnswered id (.error reason))
        failWith reason

def handleHostMessage : HostToClient → DriverM Unit
  | .response id result => completeRequest id result
  | .initialResponse id result => completeInitialResponse id result
  | .delegateRequest id sessionId request => startDelegate id sessionId request
  | .cancelDelegateRequest id => cancelDelegate id
  | .cellClosed sessionId cellId => closeCell sessionId cellId
  | .hostHello | .handshakeRejected =>
    failWith "code-mode host sent a second handshake response".toList

/-! ## Cancellations -/

/-- The pending requests that `collect_cancellations` reports, and the requests after that. -/
def collectPending : List (RequestId × PendingRequest) →
    DriverM (List CancellationAction × List (RequestId × PendingRequest))
  | [] => return ([], [])
  | (id, pending) :: rest =>
    match pending.cancellation with
    | none => do
      let collected ← collectPending rest
      return (collected.1, (id, pending) :: collected.2)
    | some (caller, reported) => do
      let cancelled ← isCancelled caller
      let collected ← collectPending rest
      return if cancelled && !reported then
          (.send id :: collected.1, (id, pending.markReported) :: collected.2)
        else (collected.1, (id, pending) :: collected.2)

/-- The executes that `collect_cancellations` takes out, and the ones it leaves. -/
def collectUnclaimed : List (RequestId × UnclaimedExecute) →
    DriverM (List CancellationAction × List (RequestId × UnclaimedExecute))
  | [] => return ([], [])
  | (id, execute) :: rest => do
    let cancelled ← isCancelled execute.caller
    let collected ← collectUnclaimed rest
    return if cancelled && !execute.reported then
        (.terminate id { execute with reported := true } :: collected.1, collected.2)
      else (collected.1, (id, execute) :: collected.2)

def collectCancellations : DriverM (List CancellationAction) := do
  let (sends, pending) ← collectPending (← get).requests.pending
  let (terminations, unclaimedExecutes) ← collectUnclaimed (← get).requests.unclaimedExecutes
  modify fun s => { s with requests := { s.requests with pending, unclaimedExecutes } }
  return sends ++ terminations

def sendCancelRequest (id : RequestId) : DriverM Unit := do
  match ← encode (.cancelRequest id) with
  | none => queueFrame (.cancelRequest id)
  | some err => failWith ("failed to encode code-mode cancellation request: ".toList ++ err)

def applyCancellation : CancellationAction → DriverM Unit
  | .send id => sendCancelRequest id
  | .terminate requestId execute => do
    sendCancelRequest requestId
    terminateAbandonedCell execute.session execute.cellId

def applyCancellations : List CancellationAction → DriverM Unit
  | [] => return ()
  | action :: rest => do
    applyCancellation action
    applyCancellations rest

def cancelDroppedCallers : DriverM Unit := do
  applyCancellations (← collectCancellations)

def cancelRequest (id : RequestId) : DriverM Unit := do
  let (action, requests) := (← get).requests.markCancelled id
  setRequests requests
  match action with
  | none => return ()
  | some action => applyCancellation action

/-- The loop of `flush_deferred_waits`. -/
def flushWaits : List DeferredWait → DriverM Unit
  | [] => return ()
  | wait :: deferred => do
    if ← isCancelled wait.responseTx then do
      respond wait.responseTx (.failed "code-mode request cancelled".toList)
      flushWaits deferred
    else if ← hasCancelledWait wait.session wait.request.cellId then do
      pushDeferredWait wait
      flushWaits deferred
    else do
      onStop (startWait wait.session wait.request wait.responseTx)
        (failDeferred "code-mode host connection closed".toList deferred)
      flushWaits deferred

def flushDeferredWaits : DriverM Unit := do
  let requests := (← get).requests
  setRequests { requests with deferredWaits := [] }
  flushWaits requests.deferredWaits

/-! ## Runs -/

inductive DriverEvent where
  | hostMessage (message : HostToClient)
  | delegateCompleted (id : DelegateRequestId) (result : Except Str DelegateResponse)
  | requestCancelled (id : RequestId)
  | failed (reason : Str)

def dispatch : DriverEvent → DriverM Unit
  | .hostMessage message => handleHostMessage message
  | .delegateCompleted id result => completeDelegate id result
  | .requestCancelled id => cancelRequest id
  | .failed reason => failWith reason

def handleEvent (event : DriverEvent) : DriverM Unit := do
  dispatch event
  flushDeferredWaits

def claimExecute (id : RequestId) : DriverM Unit := do
  let requests := (← get).requests
  setRequests { requests with
    unclaimedExecutes := Entries.remove id requests.unclaimedExecutes }

/-- A command that is taken after its turn's cancellations fail the connection is not handled: it
is dropped with its sender. -/
def takeCommand (command : DriverCommand) : DriverM Unit := do
  onStop cancelDroppedCallers (emit (.unhandled command.caller))
  handleCommand command

inductive DriverAction where
  | event (event : DriverEvent)
  | claim (id : RequestId)
  | command (command : DriverCommand)
  /-- The connection is cancelled, one of the channels has closed, or the task is aborted. -/
  | close (reason : Str)
  | callers (moves : List CallerMove)

/-- One turn of `run`. Each command comes on a response channel of its own. -/
def turn : DriverAction → DriverM Unit
  | .event event => do
    cancelDroppedCallers
    handleEvent event
  | .claim id => claimExecute id
  | .command command => do
    modify fun s =>
      { s with nextCaller := s.nextCaller + 1, taken := s.taken ++ [command.caller] }
    takeCommand command
  | .close reason => failWith reason
  | .callers moves => modify fun s => moves.foldl ConnectionDriver.move s

def ConnectionDriver.drop (s : ConnectionDriver) : ConnectionDriver :=
  leaves (fail "code-mode connection driver stopped unexpectedly".toList) s

/-- The task of a driver. It is `stopped` once `run` has returned and the driver is dropped. -/
structure DriverTask where
  driver : ConnectionDriver := {}
  stopped : Bool := false
  deriving DecidableEq

/-- A command is taken from a caller that is new. -/
def DriverAction.enabled (s : ConnectionDriver) : DriverAction → Bool
  | .command taken => decide (taken.caller = s.nextCaller)
  | _ => true

def step (task : DriverTask) (action : DriverAction × World) : Option DriverTask :=
  if task.stopped || !action.1.enabled task.driver then none
  else
    match turn action.1 { task.driver with world := action.2 } with
    | .ok _ s => some ⟨s, false⟩
    | .error _ s => some ⟨s.drop, true⟩

end Codex.HostConnection
