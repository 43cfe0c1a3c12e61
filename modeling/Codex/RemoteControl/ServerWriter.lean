import Codex.RemoteControl.WebsocketState
import Mathlib.Algebra.Order.Floor.Div

/-!
# The writer of server events

`split_server_envelope_for_transport` and `run_server_writer_inner`: an event
gets the next number of its stream, is split when it is too long, buffered, and
written. `serde_json` is a parameter; its errors are only logged.
-/

namespace Codex.RemoteControl

open Codex.Text

variable {ω : Type}

/-- What `serde_json` makes of messages and of envelopes, where it does not fail. -/
structure Serializer (ω : Type) where
  toVec : ω → Option Bytes
  toString : ServerEnvelope ω → Option Str
  serializedLen : ServerEnvelope ω → Option ℕ

/-! ## Segments of the server -/

def buildChunkEnvelope (base64 : Base64) (envelope : ServerEnvelope ω)
    (segmentId segmentCount messageSizeBytes : ℕ) (chunk : Bytes) : Option (ServerEnvelope ω) :=
  if segmentCountMax < segmentCount then none
  else some { envelope with
    event := .serverMessageChunk segmentId segmentCount messageSizeBytes (base64.encode chunk) }

def serializedChunkLen (base64 : Base64) (serializer : Serializer ω) (envelope : ServerEnvelope ω)
    (segmentId segmentCount messageSizeBytes : ℕ) (chunk : Bytes) : Option ℕ :=
  (buildChunkEnvelope base64 envelope segmentId segmentCount messageSizeBytes chunk).bind
    serializer.serializedLen

def chunkSizeFor (messageSizeBytes segmentCount : ℕ) : ℕ := max 1 (messageSizeBytes ⌈/⌉ segmentCount)

theorem chunkSizeFor_size (size : ℕ) : chunkSizeFor size size = 1 := by
  unfold chunkSizeFor
  refine max_eq_left ?_
  rcases Nat.eq_zero_or_pos size with rfl | hpos
  · rw [zero_ceilDiv]
    exact Nat.zero_le 1
  · rw [ceilDiv_le_iff_le_mul hpos, mul_one]

/-- With one segment more the chunks are not longer. -/
theorem chunkSizeFor_succ_le {size chunkSize : ℕ} (hchunk : 0 < chunkSize) :
    chunkSizeFor size (size ⌈/⌉ chunkSize + 1) ≤ chunkSize := by
  unfold chunkSizeFor
  refine max_le hchunk ?_
  rw [ceilDiv_le_iff_le_mul (Nat.succ_pos _)]
  calc size ≤ chunkSize * (size ⌈/⌉ chunkSize) := (ceilDiv_le_iff_le_mul hchunk).1 le_rfl
    _ = (size ⌈/⌉ chunkSize) * chunkSize := mul_comm _ _
    _ ≤ (size ⌈/⌉ chunkSize + 1) * chunkSize := Nat.mul_le_mul_right _ (Nat.le_succ _)

/-- The loop of `split_server_envelope_for_transport`. The chunks get shorter
each time. -/
def splitInto (base64 : Base64) (serializer : Serializer ω) (envelope : ServerEnvelope ω)
    (raw : Bytes) (segmentCount : ℕ) : Option (List (ServerEnvelope ω)) :=
  let messageSizeBytes := raw.length
  let chunkSize := chunkSizeFor messageSizeBytes segmentCount
  let fullSegmentCount := messageSizeBytes ⌈/⌉ chunkSize
  let segments := (raw.toChunks chunkSize).zipIdx
  let segmentsFit := segments.all fun (chunk, segmentId) =>
    (serializedChunkLen base64 serializer envelope segmentId fullSegmentCount messageSizeBytes
      chunk).any (· ≤ segmentMaxBytes)
  if segmentsFit then
    segments.mapM fun (chunk, segmentId) =>
      buildChunkEnvelope base64 envelope segmentId fullSegmentCount messageSizeBytes chunk
  else if chunkSize = 1 then some []
  else
    let nextSegmentCount := fullSegmentCount + 1
    let nextChunkSize := chunkSizeFor messageSizeBytes nextSegmentCount
    splitInto base64 serializer envelope raw
      (if nextChunkSize = chunkSize then messageSizeBytes else nextSegmentCount)
  termination_by chunkSizeFor raw.length segmentCount
  decreasing_by
    next hone =>
    have hpos : 0 < chunkSizeFor raw.length segmentCount := lt_max_of_lt_left Nat.one_pos
    split
    · rw [chunkSizeFor_size]
      exact lt_of_le_of_ne hpos (Ne.symm hone)
    · next hne => exact lt_of_le_of_ne (chunkSizeFor_succ_le hpos) hne

def splitServerEnvelopeForTransport (base64 : Base64) (serializer : Serializer ω)
    (envelope : ServerEnvelope ω) : Option (List (ServerEnvelope ω)) :=
  match envelope.event with
  | .serverMessage message => do
    let envelopeSizeBytes ← serializer.serializedLen envelope
    if envelopeSizeBytes ≤ segmentMaxBytes then return [envelope]
    let raw ← serializer.toVec message
    if reassembledMaxBytes < raw.length then return []
    let minimalSegmentCount := min (max raw.length 1) segmentCountMax
    let minimalLen ← serializedChunkLen base64 serializer envelope 0 minimalSegmentCount raw.length
      (raw.take 1)
    if segmentMaxBytes < minimalLen then return []
    splitInto base64 serializer envelope raw (max 2 (raw.length ⌈/⌉ segmentTargetBytes))
  | _ => some [envelope]

/-! ## The writer -/

structure QueuedServerEnvelope (ω : Type) where
  event : ServerEvent ω
  clientId : ClientId
  streamId : StreamId
  deriving DecidableEq

abbrev StreamKey := ClientId × StreamId

def ServerEnvelope.key (envelope : ServerEnvelope ω) : StreamKey :=
  (envelope.clientId, envelope.streamId)

/-- `u64::saturating_add(1)`. -/
def saturatingSucc (n : ℕ) : ℕ := min (n + 1) (2 ^ 64 - 1)

/-- What the writer does with a queued event under the lock: the new state, the
envelopes to be written, and whether the event took a number. -/
def WebsocketState.bufferEvent (base64 : Base64) (serializer : Serializer ω)
    (state : WebsocketState ω) (queued : QueuedServerEnvelope ω) :
    WebsocketState ω × List (ServerEnvelope ω) × Bool :=
  let key := (queued.clientId, queued.streamId)
  let seqId := (state.nextSeqIdByStream.lookup key).getD 1
  let state := { state with nextSeqIdByStream := state.nextSeqIdByStream.insert key seqId }
  match splitServerEnvelopeForTransport base64 serializer
      ⟨queued.event, queued.clientId, queued.streamId, seqId⟩ with
  | none => (state, [], false)
  | some serverEnvelopes =>
    let buffered := serverEnvelopes.filter fun envelope => (serializer.toString envelope).isSome
    ({ state with
      outboundBuffer := buffered.foldl BoundedOutboundBuffer.insert state.outboundBuffer
      nextSeqIdByStream := state.nextSeqIdByStream.insert key (saturatingSucc seqId) },
      buffered, true)

/-- A connection: what is still to be sent again, what is to be written, and
what has been written. -/
structure Connection (ω : Type) where
  resend : List (ServerEnvelope ω) := []
  payloads : List (ServerEnvelope ω) := []
  written : List (ServerEnvelope ω) := []

structure AckCursor where
  clientId : ClientId
  streamId : StreamId
  seqId : ℕ
  segmentId : Option ℕ
  deriving DecidableEq

def AckCursor.key (ack : AckCursor) : StreamKey := (ack.clientId, ack.streamId)

/-- The server and its clients. The last five fields are the history: the
envelopes that were produced, written and received, the acknowledgements that
clients have sent, and how many events of a stream took a number. -/
structure Outbound (ω : Type) where
  state : WebsocketState ω := {}
  queue : List (QueuedServerEnvelope ω) := []
  connection : Option (Connection ω) := none
  produced : List (ServerEnvelope ω) := []
  sent : List (ServerEnvelope ω) := []
  received : List (ServerEnvelope ω) := []
  acks : List AckCursor := []
  numbered : StreamKey → ℕ := fun _ => 0

inductive OutboundAction (μ ω : Type) where
  | enqueue (queued : QueuedServerEnvelope ω)
  /-- A new connection, whose writer lists the buffer in some order. -/
  | connect (order : List (Σ _ : StreamKey, List (ServerEnvelope ω)))
  | write
  | buffer
  | lose
  | deliver (envelope : ServerEnvelope ω)
  | sendAck (ack : AckCursor)
  /-- The reader takes an envelope of a client. -/
  | inbound (clientEnvelope : ClientEnvelope μ) (wireSizeBytes now : ℕ)

def ackOf {μ : Type} (clientEnvelope : ClientEnvelope μ) : Option AckCursor :=
  match clientEnvelope.event, clientEnvelope.seqId, clientEnvelope.streamId with
  | .ack segmentId, some seqId, some streamId =>
    some ⟨clientEnvelope.clientId, streamId, seqId, segmentId⟩
  | _, _, _ => none

/-- The client has received every envelope of the stream up to the cursor. -/
def Outbound.MayAck (outbound : Outbound ω) (ack : AckCursor) : Prop :=
  ack.seqId ≤ outbound.numbered ack.key ∧
    ∀ envelope ∈ outbound.produced, envelope.key = ack.key →
      isAcked ack.seqId ack.segmentId envelope = true → envelope ∈ outbound.received

instance [DecidableEq ω] (outbound : Outbound ω) (ack : AckCursor) :
    Decidable (outbound.MayAck ack) := inferInstanceAs (Decidable (_ ∧ _))

/-- The writer sends the next envelope of the connection. What does not
serialize is not sent again. -/
def Connection.write (serializer : Serializer ω) (connection : Connection ω) :
    Option (Connection ω × List (ServerEnvelope ω)) :=
  match connection.resend, connection.payloads with
  | envelope :: resend, _ =>
    if (serializer.toString envelope).isSome then
      some ({ connection with resend := resend, written := connection.written ++ [envelope] },
        [envelope])
    else some ({ connection with resend := resend }, [])
  | [], envelope :: payloads =>
    some ({ connection with payloads := payloads, written := connection.written ++ [envelope] },
      [envelope])
  | [], [] => none

def Outbound.step {μ : Type} [DecidableEq ω] (base64 : Base64) (fromSlice : Bytes → Option μ)
    (serializer : Serializer ω) (outbound : Outbound ω) :
    OutboundAction μ ω → Option (Outbound ω)
  | .enqueue queued => some { outbound with queue := outbound.queue ++ [queued] }
  | .connect order =>
    if outbound.connection.isNone ∧
        order.Perm outbound.state.outboundBuffer.bufferByStream.entries then
      some { outbound with connection := some { resend := order.flatMap (·.2) } }
    else none
  | .write => do
    let connection ← outbound.connection
    let (connection, written) ← connection.write serializer
    return { outbound with connection := some connection, sent := outbound.sent ++ written }
  | .buffer =>
    match outbound.connection, outbound.queue with
    | some ⟨[], [], written⟩, queued :: queue =>
      if outbound.state.outboundBuffer.used < channelCapacity then
        let (state, buffered, isNumbered) := outbound.state.bufferEvent base64 serializer queued
        let key := (queued.clientId, queued.streamId)
        some { outbound with
          state := state
          queue := queue
          connection := some ⟨[], buffered, written⟩
          produced := outbound.produced ++ buffered
          numbered := if isNumbered then
              Function.update outbound.numbered key (outbound.numbered key + 1)
            else outbound.numbered }
      else none
    | _, _ => none
  | .lose =>
    if outbound.connection.isSome then some { outbound with connection := none } else none
  | .deliver envelope =>
    if envelope ∈ outbound.sent then
      some { outbound with received := outbound.received ++ [envelope] }
    else none
  | .sendAck ack =>
    if outbound.MayAck ack then some { outbound with acks := outbound.acks ++ [ack] } else none
  | .inbound clientEnvelope wireSizeBytes now =>
    if ∀ ack ∈ ackOf clientEnvelope, ack ∈ outbound.acks then
      some { outbound with
        state := (outbound.state.receive base64 fromSlice now clientEnvelope wireSizeBytes).1 }
    else none

end Codex.RemoteControl
