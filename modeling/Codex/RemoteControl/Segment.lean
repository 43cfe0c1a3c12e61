import Codex.RemoteControl.Protocol

/-!
# Segments

`transport/remote_control/segment.rs`: the chunks of a client's message are put
together again, one assembly for each client. `serde_json::from_slice` is a
parameter, and an instant is a number.
-/

namespace Codex.RemoteControl

open Codex.Text

variable {μ : Type}

structure ClientSegmentMetadata where
  seqId : ℕ
  segmentCount : ℕ
  messageSizeBytes : ℕ
  deriving DecidableEq

structure ClientSegmentAssembly where
  streamId : StreamId
  metadata : ClientSegmentMetadata
  raw : Bytes
  nextSegmentId : ℕ
  lastChunkSeenAt : ℕ
  deriving DecidableEq

structure ClientSegmentReassembler where
  assemblies : HashMap ClientId ClientSegmentAssembly := ∅

inductive ClientSegmentObservation (μ : Type) where
  | forward (envelope : ClientEnvelope μ)
  | pending
  | dropped
  deriving DecidableEq

inductive AssemblyUpdate (μ : Type) where
  | pending
  | ignore
  | drop
  | complete (message : μ)
  deriving DecidableEq

/-- The body of `observe` for the assembly of the client: what becomes of the
assembly, and of the chunk. After an error the assembly is dropped. -/
def ClientSegmentAssembly.update (base64 : Base64) (fromSlice : Bytes → Option μ) (now : ℕ)
    (assembly : ClientSegmentAssembly) (metadata : ClientSegmentMetadata) (segmentId : ℕ)
    (messageChunkBase64 : Str) : ClientSegmentAssembly × AssemblyUpdate μ :=
  if metadata.seqId < assembly.metadata.seqId then (assembly, .ignore)
  else if assembly.metadata ≠ metadata then (assembly, .drop)
  else if segmentId < assembly.nextSegmentId then (assembly, .pending)
  else if segmentId ≠ assembly.nextSegmentId then (assembly, .drop)
  else
    let chunkStart := assembly.raw.length
    let chunkEnd := min metadata.messageSizeBytes
      (chunkStart + base64.decodedLenEstimate messageChunkBase64.length)
    match base64.decodeSlice messageChunkBase64 (chunkEnd - chunkStart) with
    | .ok decoded =>
      let assembly := { assembly with
        lastChunkSeenAt := now
        raw := assembly.raw ++ decoded
        nextSegmentId := assembly.nextSegmentId + 1 }
      if assembly.nextSegmentId < metadata.segmentCount then (assembly, .pending)
      else if assembly.raw.length ≠ metadata.messageSizeBytes then (assembly, .drop)
      else
        match fromSlice assembly.raw with
        | some message => (assembly, .complete message)
        | none => (assembly, .drop)
    | .outputSliceTooSmall | .invalid => (assembly, .drop)

namespace ClientSegmentReassembler

def shouldIgnoreChunk (reassembler : ClientSegmentReassembler) (clientId : ClientId)
    (streamId : StreamId) (seqId segmentId : ℕ) : Bool :=
  (reassembler.assemblies.lookup clientId).any fun assembly =>
    assembly.streamId = streamId ∧
      (seqId < assembly.metadata.seqId ∨
        seqId = assembly.metadata.seqId ∧ segmentId < assembly.nextSegmentId)

def removeAssembly (reassembler : ClientSegmentReassembler) (clientId : ClientId)
    (streamId : StreamId) : ClientSegmentReassembler :=
  if (reassembler.assemblies.lookup clientId).any (·.streamId = streamId) then
    { assemblies := reassembler.assemblies.erase clientId }
  else reassembler

/-- The client whose last chunk was seen first. -/
def oldest (assemblies : HashMap ClientId ClientSegmentAssembly) : Option ClientId :=
  (assemblies.entries.minOn? fun entry => entry.2.lastChunkSeenAt).map (·.1)

/-- The loop of `evict_assemblies_if_full`, which removes an assembly each time. -/
def evictAssemblies : ℕ → HashMap ClientId ClientSegmentAssembly →
    HashMap ClientId ClientSegmentAssembly
  | 0, assemblies => assemblies
  | n + 1, assemblies =>
    if segmentAssemblyMaxCount ≤ assemblies.keys.length then
      match oldest assemblies with
      | some clientId => evictAssemblies n (assemblies.erase clientId)
      | none => assemblies
    else assemblies

def evictAssembliesIfFull (reassembler : ClientSegmentReassembler) : ClientSegmentReassembler :=
  { assemblies := evictAssemblies reassembler.assemblies.keys.length reassembler.assemblies }

def insertAssembly (reassembler : ClientSegmentReassembler) (clientId : ClientId)
    (assembly : ClientSegmentAssembly) : ClientSegmentReassembler :=
  { assemblies := reassembler.assemblies.insert clientId assembly }

/-- A new assembly for a client that has none, or has one for another stream. -/
def startAssembly (reassembler : ClientSegmentReassembler) (now : ℕ) (clientId : ClientId)
    (streamId : StreamId) (metadata : ClientSegmentMetadata) : ClientSegmentReassembler :=
  let started : ClientSegmentAssembly := ⟨streamId, metadata, [], 0, now⟩
  match reassembler.assemblies.lookup clientId with
  | some assembly =>
    if assembly.streamId ≠ streamId then reassembler.insertAssembly clientId started
    else reassembler
  | none => reassembler.evictAssembliesIfFull.insertAssembly clientId started

/-- The end of `observe`: the chunk goes to the assembly of its client. -/
def updateAssembly (base64 : Base64) (fromSlice : Bytes → Option μ) (now : ℕ)
    (reassembler : ClientSegmentReassembler) (envelope : ClientEnvelope μ) (streamId : StreamId)
    (metadata : ClientSegmentMetadata) (segmentId : ℕ) (messageChunkBase64 : Str) :
    ClientSegmentReassembler × ClientSegmentObservation μ :=
  match reassembler.assemblies.lookup envelope.clientId with
  | none => (reassembler, .dropped)
  | some assembly =>
    let (assembly, update) :=
      assembly.update base64 fromSlice now metadata segmentId messageChunkBase64
    let reassembler := reassembler.insertAssembly envelope.clientId assembly
    match update with
    | .pending => (reassembler, .pending)
    | .ignore => (reassembler, .dropped)
    | .drop => (reassembler.removeAssembly envelope.clientId streamId, .dropped)
    | .complete message =>
      (reassembler.removeAssembly envelope.clientId streamId,
        .forward { envelope with event := .clientMessage message })

def observe (base64 : Base64) (fromSlice : Bytes → Option μ) (now : ℕ)
    (reassembler : ClientSegmentReassembler) (envelope : ClientEnvelope μ) :
    ClientSegmentReassembler × ClientSegmentObservation μ :=
  match envelope.event with
  | .clientMessageChunk segmentId segmentCount messageSizeBytes messageChunkBase64 =>
    match envelope.seqId, envelope.streamId with
    | some seqId, some streamId =>
      let metadata : ClientSegmentMetadata := ⟨seqId, segmentCount, messageSizeBytes⟩
      if reassembler.shouldIgnoreChunk envelope.clientId streamId seqId segmentId then
        (reassembler, .dropped)
      else if segmentCount = 0 ∨ segmentCountMax < segmentCount ∨ segmentCount ≤ segmentId ∨
          messageSizeBytes = 0 ∨ reassembledMaxBytes < messageSizeBytes ∨
          messageChunkBase64 = [] then
        (reassembler.removeAssembly envelope.clientId streamId, .dropped)
      else
        updateAssembly base64 fromSlice now
          (reassembler.startAssembly now envelope.clientId streamId metadata) envelope streamId
          metadata segmentId messageChunkBase64
    -- Without a sequence number or without a stream the envelope is dropped.
    | _, _ => (reassembler, .dropped)
  | _ => (reassembler, .forward envelope)

end ClientSegmentReassembler

end Codex.RemoteControl
