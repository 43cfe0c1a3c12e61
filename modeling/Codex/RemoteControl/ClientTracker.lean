import Codex.Base.EState
import Codex.Base.Machine
import Codex.RemoteControl.ConnectionEvents

/-!
# The client tracker

`remote_control/client_tracker.rs`: the connections of remote clients, one for
each stream of a client, and the transport events that handling an envelope, the
end of an outbound task and a sweep of idle clients send. Other tasks run
wherever the tracker awaits a send.
-/

namespace Codex.RemoteControl

open Codex.Text

variable {π : Type}

abbrev Instant := ℕ

/-- In milliseconds. -/
def remoteControlClientIdleTimeout : ℕ := 10 * 60 * 1000

inductive Stopped where
  | stopped
  deriving DecidableEq

structure ClientState where
  connectionId : ConnectionId
  lastActivityAt : Instant
  lastInboundSeqId : Option ℕ
  deriving DecidableEq

def remoteControlClientIsAlive (client : ClientState) (now : Instant) : Bool :=
  now - client.lastActivityAt < remoteControlClientIdleTimeout

/-- `join_set` holds the keys that the outbound tasks return when they end. -/
structure ClientTracker where
  clients : HashMap ClientKey ClientState := ∅
  legacyStreamIds : HashMap ClientId StreamId := ∅
  joinSet : List ClientKey := []

/-- The tracker with what it shares with other tasks: the counter of connection
ids, the tasks that still have to send a close and are not waited for, all such tasks
that were started, and the two queues, as the logs of what they were given. -/
structure Transport (π : Type) extends ClientTracker where
  nextConnectionId : ConnectionId
  closing : List (ConnectionId × ClientKey) := []
  spawned : List (ConnectionId × ClientKey) := []
  receiverDropped : Bool := false
  emitted : List (Emitted π) := []
  pongs : List (ClientKey × PongStatus) := []

abbrev M (π : Type) := EStateM Stopped (Transport π)

/-! ## Sends -/

/-- What another task does: a connection of another transport takes an id, a
close that is not waited for is sent, the app server stops receiving. -/
inductive Background where
  | connectionOpensElsewhere
  | closeForwarded (connectionId : ConnectionId) (clientKey : ClientKey)
  | receiverDrops
  deriving DecidableEq

def Background.apply (background : Background) (s : Transport π) : Transport π :=
  match background with
  | .connectionOpensElsewhere => { s with nextConnectionId := s.nextConnectionId + 1 }
  | .closeForwarded connectionId clientKey =>
    if (connectionId, clientKey) ∈ s.closing then
      { s with
        closing := s.closing.erase (connectionId, clientKey)
        emitted := if s.receiverDropped then s.emitted else
          s.emitted ++ [⟨.connectionClosed connectionId, clientKey, none⟩] }
    else s
  | .receiverDrops => { s with receiverDropped := true }

/-- A send that is awaited: what other tasks do until it is over, and whether
it takes too long. -/
structure Wait where
  meanwhile : List Background := []
  timedOut : Bool := false

def await (wait : Wait) : M π Unit :=
  modify fun s => wait.meanwhile.foldl (fun s background => background.apply s) s

def emit (entry : Emitted π) : M π Unit :=
  modify fun s => { s with emitted := s.emitted ++ [entry] }

/-- The task that `spawn_connection_closed` starts, awaited: it has no timeout. -/
def sendConnectionClosed (wait : Wait) (connectionId : ConnectionId) (clientKey : ClientKey) :
    M π Unit := do
  await wait
  let s ← get
  if s.receiverDropped then throw .stopped
  else emit ⟨.connectionClosed connectionId, clientKey, none⟩

def sendTransportEvent (wait : Wait) (entry : Emitted π) : M π Unit :=
  match entry.event with
  | .connectionClosed connectionId => sendConnectionClosed wait connectionId entry.clientKey
  | _ => do
    await wait
    let s ← get
    if s.receiverDropped || wait.timedOut then throw .stopped
    else emit entry

/-- The task, left to itself. -/
def spawnConnectionClosed (connectionId : ConnectionId) (clientKey : ClientKey) : M π Unit :=
  modify fun s => { s with
    closing := s.closing ++ [(connectionId, clientKey)]
    spawned := s.spawned ++ [(connectionId, clientKey)] }

def nextConnectionId : M π ConnectionId := do
  let s ← get
  modify fun s => { s with nextConnectionId := s.nextConnectionId + 1 }
  return s.nextConnectionId

/-! ## Clients -/

def removeClient (clientKey : ClientKey) : M π (Option ClientState) := do
  let s ← get
  match s.clients.lookup clientKey with
  | none => return none
  | some client =>
    modify fun s => { s with
      clients := s.clients.erase clientKey
      legacyStreamIds :=
        if s.legacyStreamIds.lookup clientKey.1 = some clientKey.2
        then s.legacyStreamIds.erase clientKey.1 else s.legacyStreamIds }
    return some client

def closeClient (wait : Wait) (clientKey : ClientKey) : M π Unit := do
  match ← removeClient clientKey with
  | none => return ()
  | some client =>
    sendTransportEvent wait ⟨.connectionClosed client.connectionId, clientKey, none⟩

def updateClient (clientKey : ClientKey) (change : ClientState → ClientState) : M π Unit :=
  modify fun s => match s.clients.lookup clientKey with
    | none => s
    | some client => { s with clients := s.clients.insert clientKey (change client) }

/-- Timed forwarding can fail, so only what the app server has received counts. -/
def recordInboundMessageDelivery (clientKey : ClientKey) (seqId : Option ℕ) : M π Unit :=
  match seqId with
  | none => return ()
  | some seqId => updateClient clientKey fun client => { client with lastInboundSeqId := some seqId }

/-! ## Envelopes -/

/-- What `handle_message` finds: the time, a random stream id, and how its
sends go. -/
structure Circumstances where
  now : Instant
  newRandom : StreamId
  forClosed : Wait := {}
  forOpened : Wait := {}
  forMessage : Wait := {}

def isInitialize : ClientEvent (JSONRPCMessage π) → Bool
  | .clientMessage message => remoteControlMessageStartsConnection message
  | _ => false

def resolveStreamId (newRandom : StreamId) (envelope : ClientEnvelope (JSONRPCMessage π)) :
    M π StreamId := do
  let s ← get
  match envelope.streamId with
  | some streamId => return streamId
  | none =>
    let legacy := s.legacyStreamIds.lookup envelope.clientId
    if isInitialize envelope.event then
      modify fun s => { s with legacyStreamIds := s.legacyStreamIds.erase envelope.clientId }
      return legacy.getD newRandom
    else
      return legacy.getD (match envelope.event with
        | .ping => newRandom
        | _ => [])

def alreadyDelivered (s : Transport π) (clientKey : ClientKey) (seqId : Option ℕ) : Bool :=
  seqId.any fun seqId => (s.clients.lookup clientKey).any fun client =>
    client.lastInboundSeqId.any fun lastSeqId => seqId ≤ lastSeqId

def openConnection (circumstances : Circumstances) (clientKey : ClientKey)
    (isLegacyStreamId : Bool) (seqId : Option ℕ) (message : JSONRPCMessage π) : M π Unit := do
  let connectionId ← nextConnectionId
  sendTransportEvent circumstances.forOpened ⟨.connectionOpened connectionId, clientKey, none⟩
  modify fun s => { s with
    joinSet := s.joinSet ++ [clientKey]
    clients := s.clients.insert clientKey ⟨connectionId, circumstances.now, none⟩
    legacyStreamIds := if isLegacyStreamId then s.legacyStreamIds.insert clientKey.1 clientKey.2
      else s.legacyStreamIds }
  tryCatch
    (sendTransportEvent circumstances.forMessage
      ⟨.incomingMessage connectionId message, clientKey, seqId⟩)
    fun err => do
      match ← removeClient clientKey with
      | some client => spawnConnectionClosed client.connectionId clientKey
      | none => pure ()
      throw err
  if isLegacyStreamId then return () else recordInboundMessageDelivery clientKey seqId

/-- A message that is not a duplicate goes to the connection of its stream, or
opens one. -/
def forwardClientMessage (circumstances : Circumstances) (clientKey : ClientKey)
    (isLegacyStreamId : Bool) (seqId : Option ℕ) (message : JSONRPCMessage π) : M π Unit := do
  let s ← get
  match s.clients.lookup clientKey with
  | some client =>
    updateClient clientKey fun client => { client with lastActivityAt := circumstances.now }
    sendTransportEvent circumstances.forMessage
      ⟨.incomingMessage client.connectionId message, clientKey, seqId⟩
    recordInboundMessageDelivery clientKey seqId
  | none =>
    if !remoteControlMessageStartsConnection message then return ()
    else openConnection circumstances clientKey isLegacyStreamId seqId message

def handleClientMessage (circumstances : Circumstances) (clientKey : ClientKey)
    (isLegacyStreamId : Bool) (seqId : Option ℕ) (message : JSONRPCMessage π) : M π Unit := do
  let starts := remoteControlMessageStartsConnection message
  let s ← get
  if alreadyDelivered s clientKey seqId && !starts then return ()
  else if starts && (s.clients.lookup clientKey).isSome then
    closeClient circumstances.forClosed clientKey
    forwardClientMessage circumstances clientKey isLegacyStreamId seqId message
  else forwardClientMessage circumstances clientKey isLegacyStreamId seqId message

def handlePing (now : Instant) (clientKey : ClientKey) : M π Unit := do
  let s ← get
  match s.clients.lookup clientKey with
  | some _ =>
    updateClient clientKey fun client => { client with lastActivityAt := now }
    modify fun s => { s with pongs := s.pongs ++ [(clientKey, .active)] }
  | none => modify fun s => { s with pongs := s.pongs ++ [(clientKey, .unknown)] }

def handleMessage (circumstances : Circumstances) (envelope : ClientEnvelope (JSONRPCMessage π)) :
    M π Unit := do
  let streamId ← resolveStreamId circumstances.newRandom envelope
  if streamId = [] then return ()
  else
    let clientKey := (envelope.clientId, streamId)
    match envelope.event with
    | .clientMessage message =>
      handleClientMessage circumstances clientKey envelope.streamId.isNone envelope.seqId message
    | .clientMessageChunk .. | .ack _ => return ()
    | .ping => handlePing circumstances.now clientKey
    | .clientClosed => closeClient circumstances.forClosed clientKey

/-! ## Idle clients and ended tasks -/

def expiredClients (s : Transport π) (now : Instant) : List ClientKey :=
  (s.clients.entries.filter fun entry => !remoteControlClientIsAlive entry.2 now).map (·.1)

def closeExpiredClients (waits : ClientKey → Wait) (expired : List ClientKey) :
    M π (List ClientKey) := do
  expired.forM fun clientKey => closeClient (waits clientKey) clientKey
  return expired

/-- `bookkeep_join_set` has returned `clientKey`. -/
def closeEndedClient (wait : Wait) (clientKey : ClientKey) : M π Unit := do
  modify fun s => { s with joinSet := s.joinSet.erase clientKey }
  closeClient wait clientKey

/-- The expired clients are closed in the order in which the map yields them. -/
inductive TrackerAction (π : Type) where
  | handleMessage (circumstances : Circumstances) (envelope : ClientEnvelope (JSONRPCMessage π))
  | outboundEnds (wait : Wait) (clientKey : ClientKey)
  | closeExpiredClients (now : Instant) (waits : ClientKey → Wait) (expired : List ClientKey)
  | background (background : Background)

def trackerStep (s : Transport π) : TrackerAction π → Option (Transport π)
  | .handleMessage circumstances envelope => some (leaves (handleMessage circumstances envelope) s)
  | .outboundEnds wait clientKey =>
    if clientKey ∈ s.joinSet then some (leaves (closeEndedClient wait clientKey) s) else none
  | .closeExpiredClients now waits expired =>
    if expired.Perm (expiredClients s now) then
      some (leaves (closeExpiredClients waits expired) s)
    else none
  | .background background => some (background.apply s)

end Codex.RemoteControl
