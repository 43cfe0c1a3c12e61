import Codex.RemoteControl.Segment

/-!
# The state of the websocket

`transport/remote_control/websocket.rs`: the envelopes that are not acknowledged
yet, and what is known of the messages of the clients. The count of buffered
envelopes is an integer, so that an underflow would show.
-/

namespace Codex.RemoteControl

open Codex.Text

variable {μ ω : Type}

/-! ## The outbound buffer -/

structure BoundedOutboundBuffer (ω : Type) where
  bufferByStream : HashMap (ClientId × StreamId) (List (ServerEnvelope ω)) := ∅
  used : ℤ := 0

/-- Whether an envelope is acknowledged by a cursor. Without a segment, a cursor
covers all segments of its number. -/
def isAcked (ackedSeqId : ℕ) (ackedSegmentId : Option ℕ) (envelope : ServerEnvelope ω) : Bool :=
  decide (envelope.seqId < ackedSeqId) ||
    decide (envelope.seqId = ackedSeqId) &&
      ackedSegmentId.all (envelope.event.segmentId.getD 0 ≤ ·)

namespace BoundedOutboundBuffer

def insert (buffer : BoundedOutboundBuffer ω) (serverEnvelope : ServerEnvelope ω) :
    BoundedOutboundBuffer ω :=
  let key := (serverEnvelope.clientId, serverEnvelope.streamId)
  let queue := (buffer.bufferByStream.lookup key).getD []
  { bufferByStream := buffer.bufferByStream.insert key (queue ++ [serverEnvelope])
    used := buffer.used + 1 }

def ack (buffer : BoundedOutboundBuffer ω) (clientId : ClientId) (streamId : StreamId)
    (ackedSeqId : ℕ) (ackedSegmentId : Option ℕ) : BoundedOutboundBuffer ω :=
  let key := (clientId, streamId)
  match buffer.bufferByStream.lookup key with
  | none => buffer
  | some queue =>
    let acked := queue.filter (isAcked ackedSeqId ackedSegmentId)
    let kept := queue.filter fun envelope => !isAcked ackedSeqId ackedSegmentId envelope
    { bufferByStream :=
        if kept = [] then buffer.bufferByStream.erase key
        else buffer.bufferByStream.insert key kept
      used := buffer.used - acked.length }

/-- `server_envelopes`, in the order in which the map is listed. -/
def serverEnvelopes (buffer : BoundedOutboundBuffer ω) : List (ServerEnvelope ω) :=
  buffer.bufferByStream.entries.flatMap (·.2)

end BoundedOutboundBuffer

/-! ## Messages of the clients -/

structure WebsocketState (ω : Type) where
  outboundBuffer : BoundedOutboundBuffer ω := {}
  subscribeCursor : Option Str := none
  nextSeqIdByStream : HashMap (ClientId × StreamId) ℕ := ∅
  lastCompletedClientChunkSeqIdByStream : HashMap (ClientId × Option StreamId) ℕ := ∅
  clientSegmentReassembler : ClientSegmentReassembler := {}

namespace WebsocketState

def clientMessageKey (clientEnvelope : ClientEnvelope μ) :
    Option ((ClientId × Option StreamId) × ℕ) :=
  match clientEnvelope.event, clientEnvelope.seqId with
  | .clientMessageChunk _ _ _ _, some seqId =>
    some ((clientEnvelope.clientId, clientEnvelope.streamId), seqId)
  | _, _ => none

/-- The message of the chunk is complete already. -/
def isCompleted (state : WebsocketState ω) (clientEnvelope : ClientEnvelope μ) : Bool :=
  (clientMessageKey clientEnvelope).any fun (key, seqId) =>
    (state.lastCompletedClientChunkSeqIdByStream.lookup key).any (seqId ≤ ·)

/-- The chunk is part of its client's assembly already, or is behind it. -/
def isAssembled (state : WebsocketState ω) (clientEnvelope : ClientEnvelope μ) : Bool :=
  match clientMessageKey clientEnvelope, clientEnvelope.streamId, clientEnvelope.event with
  | some (_, seqId), some streamId, .clientMessageChunk segmentId _ _ _ =>
    state.clientSegmentReassembler.shouldIgnoreChunk clientEnvelope.clientId streamId seqId segmentId
  | _, _, _ => false

def observeClientMessage (base64 : Base64) (fromSlice : Bytes → Option μ) (now : ℕ)
    (state : WebsocketState ω) (clientEnvelope : ClientEnvelope μ) (wireSizeBytes : ℕ) :
    WebsocketState ω × ClientSegmentObservation μ :=
  if state.isCompleted clientEnvelope then (state, .dropped)
  else if state.isAssembled clientEnvelope then (state, .dropped)
  else if (clientMessageKey clientEnvelope).isSome ∧ segmentMaxBytes < wireSizeBytes then
    -- An oversized chunk takes the assembly of its stream with it.
    let reassembler :=
      match clientEnvelope.streamId with
      | some streamId =>
        state.clientSegmentReassembler.removeAssembly clientEnvelope.clientId streamId
      | none => state.clientSegmentReassembler
    ({ state with clientSegmentReassembler := reassembler }, .dropped)
  else
    let (reassembler, observation) :=
      state.clientSegmentReassembler.observe base64 fromSlice now clientEnvelope
    ({ state with clientSegmentReassembler := reassembler }, observation)

def recordClientMessageDelivery (state : WebsocketState ω) (clientEnvelope : ClientEnvelope μ)
    (clientMessageKey : Option ((ClientId × Option StreamId) × ℕ)) : WebsocketState ω :=
  let state := { state with
    subscribeCursor := clientEnvelope.cursor.orElse fun _ => state.subscribeCursor }
  let state :=
    match clientMessageKey with
    | some (key, seqId) =>
      { state with
        lastCompletedClientChunkSeqIdByStream :=
          state.lastCompletedClientChunkSeqIdByStream.insert key seqId }
    | none => state
  match clientEnvelope.event, clientEnvelope.seqId, clientEnvelope.streamId with
  | .ack segmentId, some ackedSeqId, some streamId =>
    { state with
      outboundBuffer :=
        state.outboundBuffer.ack clientEnvelope.clientId streamId ackedSeqId segmentId }
  | _, _, _ => state

/-- One turn of the reader for an envelope of a client: what it hands to the
client tracker is recorded as delivered. -/
def receive (base64 : Base64) (fromSlice : Bytes → Option μ) (now : ℕ) (state : WebsocketState ω)
    (clientEnvelope : ClientEnvelope μ) (wireSizeBytes : ℕ) :
    WebsocketState ω × Option (ClientEnvelope μ) :=
  match state.observeClientMessage base64 fromSlice now clientEnvelope wireSizeBytes with
  | (state, .forward forwarded) =>
    (state.recordClientMessageDelivery forwarded (clientMessageKey clientEnvelope), some forwarded)
  | (state, .pending) | (state, .dropped) => (state, none)

end WebsocketState

end Codex.RemoteControl
