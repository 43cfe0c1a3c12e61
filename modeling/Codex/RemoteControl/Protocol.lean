import Codex.Text.Str
import Mathlib.Data.List.AList

/-!
# The remote control protocol

`transport/remote_control/protocol.rs`: the envelopes that a client and the
server exchange. `μ` is the type of the messages of clients, `ω` that of the
messages of the server.
-/

namespace Codex.RemoteControl

open Codex.Text

abbrev HashMap (α β : Type) := AList fun _ : α => β

abbrev Bytes := List UInt8

abbrev ClientId := Str

abbrev StreamId := Str

inductive ClientEvent (μ : Type) where
  | clientMessage (message : μ)
  | clientMessageChunk (segmentId segmentCount messageSizeBytes : ℕ) (messageChunkBase64 : Str)
  | ack (segmentId : Option ℕ)
  | ping
  | clientClosed
  deriving DecidableEq

structure ClientEnvelope (μ : Type) where
  event : ClientEvent μ
  clientId : ClientId
  streamId : Option StreamId
  seqId : Option ℕ
  cursor : Option Str := none
  deriving DecidableEq

inductive PongStatus where
  | active
  | unknown
  deriving DecidableEq

inductive ServerEvent (ω : Type) where
  | serverMessage (message : ω)
  | serverMessageChunk (segmentId segmentCount messageSizeBytes : ℕ) (messageChunkBase64 : Str)
  | ack
  | pong (status : PongStatus)
  deriving DecidableEq

def ServerEvent.segmentId {ω : Type} : ServerEvent ω → Option ℕ
  | .serverMessageChunk segmentId _ _ _ => some segmentId
  | .serverMessage _ | .ack | .pong _ => none

structure ServerEnvelope (ω : Type) where
  event : ServerEvent ω
  clientId : ClientId
  streamId : StreamId
  seqId : ℕ
  deriving DecidableEq

/-! ## Limits -/

def channelCapacity : ℕ := 128

def segmentTargetBytes : ℕ := 100 * 1024

def segmentMaxBytes : ℕ := 150 * 1024

def reassembledMaxBytes : ℕ := 100 * 1024 * 1024

def segmentCountMax : ℕ := 1024

def segmentAssemblyMaxCount : ℕ := 128

/-! ## Libraries -/

inductive DecodeSlice where
  | ok (bytes : Bytes)
  | outputSliceTooSmall
  | invalid
  deriving DecidableEq

/-- The `base64` crate. `decodeSlice` is given the length of the output slice. -/
structure Base64 where
  encode : Bytes → Str
  decodeSlice : Str → ℕ → DecodeSlice
  decodedLenEstimate : ℕ → ℕ

/-- What is encoded is decoded again, into any slice that can hold it, and the
estimate is no underestimate. -/
structure Base64.Lawful (base64 : Base64) : Prop where
  decode_encode : ∀ bytes length, bytes.length ≤ length →
    base64.decodeSlice (base64.encode bytes) length = .ok bytes
  le_estimate : ∀ bytes, bytes.length ≤ base64.decodedLenEstimate (base64.encode bytes).length

end Codex.RemoteControl
