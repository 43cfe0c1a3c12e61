import Codex.Base.Machine
import Codex.RemoteControl.Base64
import Codex.RemoteControl.WebsocketState
import Mathlib.Data.Finset.Card

/-!
# Chunked messages are delivered once

Clients send the chunks of their messages in order, and may at any time go back
and send from an earlier chunk on. What the server knows of a client is what the
chunks up to the furthest one leave behind, so every message is forwarded when
its last chunk is first sent, and never again.
-/

namespace Codex.RemoteControl

open Function Codex.Text ClientSegmentReassembler

variable {μ ω : Type}

/-! ## What clients send -/

/-- A message that its client sends in chunks within the limits. -/
structure ChunkedMessage (base64 : Base64) (fromSlice : Bytes → Option μ) where
  seqId : ℕ
  chunks : List Bytes
  message : μ
  chunks_ne_nil : chunks ≠ []
  count_le : chunks.length ≤ segmentCountMax
  chunk_ne_nil : ∀ chunk ∈ chunks, base64.encode chunk ≠ []
  size_pos : 0 < chunks.flatten.length
  size_le : chunks.flatten.length ≤ reassembledMaxBytes
  fromSlice_flatten : fromSlice chunks.flatten = some message

/-- What one client sends: one stream, with growing numbers. -/
structure Script (base64 : Base64) (fromSlice : Bytes → Option μ) where
  streamId : StreamId
  messages : List (ChunkedMessage base64 fromSlice)
  increasing : messages.Pairwise fun first second => first.seqId < second.seqId

/-- A place in a script: a message and one of its chunks. -/
structure Position where
  message : ℕ := 0
  segment : ℕ := 0
  deriving DecidableEq

def Position.Before (position other : Position) : Prop :=
  position.message < other.message ∨
    position.message = other.message ∧ position.segment < other.segment

def Position.UpTo (position other : Position) : Prop :=
  position.message < other.message ∨
    position.message = other.message ∧ position.segment ≤ other.segment

instance (position other : Position) : Decidable (position.UpTo other) :=
  inferInstanceAs (Decidable (_ ∨ _))

variable {base64 : Base64} {fromSlice : Bytes → Option μ}

def ChunkedMessage.metadata (message : ChunkedMessage base64 fromSlice) : ClientSegmentMetadata :=
  ⟨message.seqId, message.chunks.length, message.chunks.flatten.length⟩

/-- The envelope of a chunk. -/
def ChunkedMessage.envelope (message : ChunkedMessage base64 fromSlice) (clientId : ClientId)
    (streamId : StreamId) (cursor : Option Str) (segmentId : ℕ) (chunk : Bytes) :
    ClientEnvelope μ where
  event := .clientMessageChunk segmentId message.chunks.length message.chunks.flatten.length
    (base64.encode chunk)
  clientId := clientId
  streamId := some streamId
  seqId := some message.seqId
  cursor := cursor

/-- The place of the chunk after this one. -/
def ChunkedMessage.after (message : ChunkedMessage base64 fromSlice) (position : Position) :
    Position :=
  if position.segment + 1 < message.chunks.length then ⟨position.message, position.segment + 1⟩
  else ⟨position.message + 1, 0⟩

/-- The place is one of the script. -/
def Script.Has (script : Script base64 fromSlice) (position : Position) : Prop :=
  ∃ message, script.messages[position.message]? = some message ∧
    position.segment < message.chunks.length

/-- The server, what each client sends next, what it has sent, and what was
forwarded. -/
structure System (μ ω : Type) where
  server : WebsocketState ω := {}
  next : ClientId → Position := fun _ => {}
  sent : ClientId → List Position := fun _ => []
  forwarded : List (ClientEnvelope μ) := []

inductive Action where
  /-- The next chunk, under some cursor. -/
  | send (clientId : ClientId) (cursor : Option Str) (wireSizeBytes now : ℕ)
  /-- The client goes on from an earlier place. -/
  | replay (clientId : ClientId) (position : Position)

def System.step (scripts : ClientId → Script base64 fromSlice) (clients : Finset ClientId)
    (system : System μ ω) : Action → Option (System μ ω)
  | .send clientId cursor wireSizeBytes now => do
    let script := scripts clientId
    let position := system.next clientId
    let message ← script.messages[position.message]?
    let chunk ← message.chunks[position.segment]?
    guard (clientId ∈ clients ∧ wireSizeBytes ≤ segmentMaxBytes)
    let envelope :=
      message.envelope clientId script.streamId cursor position.segment chunk
    let (server, forwarded) := system.server.receive base64 fromSlice now envelope wireSizeBytes
    return {
      server := server
      next := update system.next clientId (message.after position)
      sent := update system.sent clientId (position :: system.sent clientId)
      forwarded := system.forwarded ++ forwarded.toList }
  | .replay clientId position =>
    if position.UpTo (system.next clientId) then
      some { system with next := update system.next clientId position }
    else none

/-! ## What the server knows of a client -/

/-- What the chunks before a place leave behind. -/
structure Knows (server : WebsocketState ω) (clientId : ClientId)
    (script : Script base64 fromSlice) (reached : Position) : Prop where
  le_length : reached.message ≤ script.messages.length
  completed : server.lastCompletedClientChunkSeqIdByStream.lookup (clientId, some script.streamId) =
    (script.messages.take reached.message).getLast?.map (·.seqId)
  idle : reached.segment = 0 →
    server.clientSegmentReassembler.assemblies.lookup clientId = none
  assembling : reached.segment ≠ 0 → ∃ message seenAt,
    script.messages[reached.message]? = some message ∧ reached.segment < message.chunks.length ∧
    server.clientSegmentReassembler.assemblies.lookup clientId =
      some ⟨script.streamId, message.metadata, (message.chunks.take reached.segment).flatten,
        reached.segment, seenAt⟩

section Script

variable {script : Script base64 fromSlice} {message last : ChunkedMessage base64 fromSlice} {n i : ℕ}

/-- The last of the first messages has the greatest number of them. -/
theorem Script.seqId_le_last (hmessage : script.messages[i]? = some message) (hi : i < n) :
    ∃ last, (script.messages.take n).getLast? = some last ∧ message.seqId ≤ last.seqId := by
  have hmem : message ∈ script.messages.take n := by
    rw [List.mem_iff_getElem?]
    exact ⟨i, by rw [List.getElem?_take_of_lt hi, hmessage]⟩
  obtain ⟨last, hlast⟩ := Option.isSome_iff_exists.1
    (List.getLast?_isSome.2 (List.ne_nil_of_mem hmem))
  obtain ⟨before, hsplit⟩ := List.getLast?_eq_some_iff.1 hlast
  have hincreasing := script.increasing.sublist (List.take_sublist n _)
  rw [hsplit] at hincreasing hmem
  refine ⟨last, hlast, ?_⟩
  rcases List.mem_append.1 hmem with hbefore | hself
  · exact ((List.pairwise_append.1 hincreasing).2.2 message hbefore last
      (List.mem_singleton_self last)).le
  · rw [List.mem_singleton.1 hself]

theorem Script.last_lt_seqId (hmessage : script.messages[n]? = some message)
    (hlast : (script.messages.take n).getLast? = some last) : last.seqId < message.seqId := by
  have hincreasing := script.increasing
  rw [← List.take_append_drop n script.messages] at hincreasing
  refine (List.pairwise_append.1 hincreasing).2.2 last (List.mem_of_getLast? hlast) message ?_
  rw [List.mem_iff_getElem?]
  exact ⟨0, by rw [List.getElem?_drop, Nat.add_zero, hmessage]⟩

end Script

/-! ## One chunk -/

section Receive

variable {server : WebsocketState ω} {clientId : ClientId} {script : Script base64 fromSlice}
  {message : ChunkedMessage base64 fromSlice} {reached position : Position} {cursor : Option Str}
  {chunk : Bytes} {wireSizeBytes now : ℕ}

theorem isCompleted_envelope (segmentId : ℕ) :
    server.isCompleted (message.envelope clientId script.streamId cursor segmentId chunk) =
      (server.lastCompletedClientChunkSeqIdByStream.lookup (clientId, some script.streamId)).any
        (message.seqId ≤ ·) := rfl

theorem isAssembled_envelope (segmentId : ℕ) :
    server.isAssembled (message.envelope clientId script.streamId cursor segmentId chunk) =
      server.clientSegmentReassembler.shouldIgnoreChunk clientId script.streamId message.seqId
        segmentId := rfl

theorem receive_of_pending {server' : WebsocketState ω} {envelope : ClientEnvelope μ}
    (h : server.observeClientMessage base64 fromSlice now envelope wireSizeBytes =
      (server', .pending)) :
    server.receive base64 fromSlice now envelope wireSizeBytes = (server', none) := by
  unfold WebsocketState.receive
  rw [h]

theorem receive_of_forward {server' : WebsocketState ω} {envelope forwarded : ClientEnvelope μ}
    (h : server.observeClientMessage base64 fromSlice now envelope wireSizeBytes =
      (server', .forward forwarded)) :
    server.receive base64 fromSlice now envelope wireSizeBytes =
      (server'.recordClientMessageDelivery forwarded (WebsocketState.clientMessageKey envelope),
        some forwarded) := by
  unfold WebsocketState.receive
  rw [h]

/-- **A replayed chunk changes nothing.** -/
theorem receive_replayed (h : Knows server clientId script reached)
    (hmessage : script.messages[position.message]? = some message) (hbefore : position.Before reached) :
    server.receive base64 fromSlice now
      (message.envelope clientId script.streamId cursor position.segment chunk) wireSizeBytes =
        (server, none) := by
  have hdropped : server.isCompleted
        (message.envelope clientId script.streamId cursor position.segment chunk) = true ∨
      server.isAssembled
        (message.envelope clientId script.streamId cursor position.segment chunk) = true := by
    rcases hbefore with hearlier | ⟨hsame, hsegment⟩
    · obtain ⟨last, hlast, hle⟩ := Script.seqId_le_last hmessage hearlier
      refine .inl ?_
      rw [isCompleted_envelope, h.completed, hlast]
      exact decide_eq_true hle
    · obtain ⟨current, seenAt, hcurrent, -, hassembly⟩ := h.assembling (by omega)
      rw [← hsame, hmessage] at hcurrent
      cases hcurrent
      refine .inr ?_
      rw [isAssembled_envelope, shouldIgnoreChunk, hassembly]
      exact decide_eq_true ⟨rfl, .inr ⟨rfl, hsegment⟩⟩
  have hobserve : server.observeClientMessage base64 fromSlice now
      (message.envelope clientId script.streamId cursor position.segment chunk) wireSizeBytes =
        (server, .dropped) := by
    unfold WebsocketState.observeClientMessage
    split
    · rfl
    · next hnot => rw [if_pos (hdropped.resolve_left hnot)]
  unfold WebsocketState.receive
  rw [hobserve]

/-- The assembly of a message with its first chunks. -/
def ChunkedMessage.assembly (message : ChunkedMessage base64 fromSlice) (streamId : StreamId)
    (count seenAt : ℕ) : ClientSegmentAssembly :=
  ⟨streamId, message.metadata, (message.chunks.take count).flatten, count, seenAt⟩

theorem flatten_take_succ {chunks : List Bytes} {n : ℕ} (h : chunks[n]? = some chunk) :
    (chunks.take (n + 1)).flatten = (chunks.take n).flatten ++ chunk := by
  rw [List.take_add_one, h, List.flatten_append, Option.toList_some, List.flatten_singleton]

theorem length_flatten_take_le (chunks : List Bytes) (n : ℕ) :
    (chunks.take n).flatten.length ≤ chunks.flatten.length := by
  have hsplit := congrArg (fun chunks => chunks.flatten.length) (List.take_append_drop n chunks)
  simp only [List.flatten_append, List.length_append] at hsplit
  omega

/-- The next chunk goes to the end of the assembly, and the last one completes it. -/
theorem update_assembly (hlaw : base64.Lawful) {segmentId seenAt : ℕ} {streamId : StreamId}
    (hchunk : message.chunks[segmentId]? = some chunk) :
    (message.assembly streamId segmentId seenAt).update base64 fromSlice now message.metadata
      segmentId (base64.encode chunk) =
        (message.assembly streamId (segmentId + 1) now,
          if segmentId + 1 < message.chunks.length then .pending else .complete message.message) := by
  have hraw := flatten_take_succ hchunk
  have hfits : chunk.length ≤ min message.metadata.messageSizeBytes
      ((message.chunks.take segmentId).flatten.length +
        base64.decodedLenEstimate (base64.encode chunk).length) -
      (message.chunks.take segmentId).flatten.length := by
    have hestimate := hlaw.le_estimate chunk
    have hsize := length_flatten_take_le message.chunks (segmentId + 1)
    rw [hraw, List.length_append] at hsize
    show _ ≤ min message.chunks.flatten.length _ - _
    omega
  simp only [ClientSegmentAssembly.update, ChunkedMessage.assembly, lt_irrefl, ↓reduceIte, ne_eq,
    not_true_eq_false, hlaw.decode_encode chunk _ hfits, ← hraw]
  by_cases hlast : segmentId + 1 < message.chunks.length
  · rw [if_pos (show segmentId + 1 < message.metadata.segmentCount from hlast), if_pos hlast]
  · have hall : message.chunks.take (segmentId + 1) = message.chunks :=
      List.take_of_length_le (by omega)
    rw [if_neg (show ¬segmentId + 1 < message.metadata.segmentCount from hlast), if_neg hlast, hall,
      message.fromSlice_flatten]
    exact if_neg (not_not.2 rfl)

theorem evictAssembliesIfFull_of_lt {reassembler : ClientSegmentReassembler}
    (h : reassembler.assemblies.keys.length < segmentAssemblyMaxCount) :
    reassembler.evictAssembliesIfFull = reassembler := by
  obtain ⟨assemblies⟩ := reassembler
  unfold evictAssembliesIfFull
  congr 1
  cases hn : assemblies.keys.length with
  | zero => rfl
  | succ n => exact if_neg (not_le.2 h)

/-- The chunk at the place that is reached finds the assembly of its message. -/
theorem startAssembly_reached (now : ℕ) (h : Knows server clientId script reached)
    (hroom : server.clientSegmentReassembler.assemblies.keys.length < segmentAssemblyMaxCount)
    (hmessage : script.messages[reached.message]? = some message) :
    let started := server.clientSegmentReassembler.startAssembly now clientId script.streamId
      message.metadata
    (∃ seenAt, started.assemblies.lookup clientId =
      some (message.assembly script.streamId reached.segment seenAt)) ∧
    ∀ other, other ≠ clientId → started.assemblies.lookup other =
      server.clientSegmentReassembler.assemblies.lookup other := by
  unfold startAssembly
  by_cases hfirst : reached.segment = 0
  · rw [h.idle hfirst, evictAssembliesIfFull_of_lt hroom]
    refine ⟨⟨now, ?_⟩, fun other hother => AList.lookup_insert_ne hother⟩
    rw [hfirst]
    exact AList.lookup_insert _
  · obtain ⟨current, seenAt, hcurrent, -, hassembly⟩ := h.assembling hfirst
    rw [hmessage] at hcurrent
    cases hcurrent
    simp only [hassembly, ne_eq, not_true_eq_false, ↓reduceIte]
    exact ⟨⟨seenAt, rfl⟩, fun _ _ => trivial⟩

/-- What is forwarded when the last chunk of a message is there. -/
def ChunkedMessage.completed (message : ChunkedMessage base64 fromSlice) (clientId : ClientId)
    (streamId : StreamId) (cursor : Option Str) : ClientEnvelope μ :=
  ⟨.clientMessage message.message, clientId, some streamId, some message.seqId, cursor⟩

theorem removeAssembly_insertAssembly (reassembler : ClientSegmentReassembler)
    (clientId : ClientId) (assembly : ClientSegmentAssembly) :
    (reassembler.insertAssembly clientId assembly).removeAssembly clientId assembly.streamId =
      ⟨(reassembler.assemblies.insert clientId assembly).erase clientId⟩ := by
  have hlookup : (reassembler.insertAssembly clientId assembly).assemblies.lookup clientId =
      some assembly := AList.lookup_insert _
  unfold removeAssembly
  rw [hlookup]
  exact if_pos (decide_eq_true rfl)

theorem updateAssembly_reached (hlaw : base64.Lawful) {reassembler : ClientSegmentReassembler}
    {streamId : StreamId} {segmentId seenAt : ℕ}
    (hassembly : reassembler.assemblies.lookup clientId =
      some (message.assembly streamId segmentId seenAt))
    (hchunk : message.chunks[segmentId]? = some chunk) :
    reassembler.updateAssembly base64 fromSlice now
      (message.envelope clientId streamId cursor segmentId chunk) streamId message.metadata
      segmentId (base64.encode chunk) =
    let assembly := message.assembly streamId (segmentId + 1) now
    if segmentId + 1 < message.chunks.length then
      (reassembler.insertAssembly clientId assembly, .pending)
    else
      (⟨(reassembler.assemblies.insert clientId assembly).erase clientId⟩,
        .forward (message.completed clientId streamId cursor)) := by
  have hclient : (message.envelope clientId streamId cursor segmentId chunk).clientId = clientId :=
    rfl
  have hremove := removeAssembly_insertAssembly reassembler clientId
    (message.assembly streamId (segmentId + 1) now)
  unfold updateAssembly
  rw [hclient, hassembly]
  by_cases hlast : segmentId + 1 < message.chunks.length
  · simp only [update_assembly hlaw hchunk, if_pos hlast]
  · simp only [update_assembly hlaw hchunk, if_neg hlast, ← hremove]
    rfl

/-- The server after the chunk at the place that is reached: it knows what the
chunk leaves behind, and of other clients what it knew. -/
structure Advances (server server' : WebsocketState ω) (clientId : ClientId)
    (script : Script base64 fromSlice) (reached : Position) : Prop where
  knows : Knows server' clientId script reached
  assemblies : ∀ other, other ≠ clientId →
    server'.clientSegmentReassembler.assemblies.lookup other =
      server.clientSegmentReassembler.assemblies.lookup other
  completed : ∀ other streamId, other ≠ clientId →
    server'.lastCompletedClientChunkSeqIdByStream.lookup (other, streamId) =
      server.lastCompletedClientChunkSeqIdByStream.lookup (other, streamId)

theorem shouldIgnoreChunk_reached (h : Knows server clientId script reached)
    (hmessage : script.messages[reached.message]? = some message) :
    server.clientSegmentReassembler.shouldIgnoreChunk clientId script.streamId message.seqId
      reached.segment = false := by
  unfold shouldIgnoreChunk
  by_cases hfirst : reached.segment = 0
  · rw [h.idle hfirst]
    rfl
  · obtain ⟨current, seenAt, hcurrent, -, hassembly⟩ := h.assembling hfirst
    rw [hmessage] at hcurrent
    cases hcurrent
    rw [hassembly, Option.any_some, decide_eq_false_iff_not]
    rintro ⟨-, hless | ⟨-, hless⟩⟩
    · exact lt_irrefl _ hless
    · exact lt_irrefl _ hless

theorem isCompleted_reached (h : Knows server clientId script reached)
    (hmessage : script.messages[reached.message]? = some message) :
    server.isCompleted (message.envelope clientId script.streamId cursor reached.segment chunk) =
      false := by
  rw [isCompleted_envelope, h.completed]
  cases hlast : (script.messages.take reached.message).getLast? with
  | none => rfl
  | some last =>
    have hless := Script.last_lt_seqId hmessage hlast
    exact decide_eq_false (not_le.2 hless)

theorem observe_reached (cursor : Option Str) (now : ℕ)
    (h : Knows server clientId script reached)
    (hmessage : script.messages[reached.message]? = some message)
    (hchunk : message.chunks[reached.segment]? = some chunk)
    (hwire : wireSizeBytes ≤ segmentMaxBytes) :
    server.observeClientMessage base64 fromSlice now
      (message.envelope clientId script.streamId cursor reached.segment chunk) wireSizeBytes =
    let result := (server.clientSegmentReassembler.startAssembly now clientId script.streamId
      message.metadata).updateAssembly base64 fromSlice now
        (message.envelope clientId script.streamId cursor reached.segment chunk) script.streamId
        message.metadata reached.segment (base64.encode chunk)
    ({ server with clientSegmentReassembler := result.1 }, result.2) := by
  have hignore := shouldIgnoreChunk_reached h hmessage
  have hlt : reached.segment < message.chunks.length := (List.getElem?_eq_some_iff.1 hchunk).1
  have hmem : chunk ∈ message.chunks := List.mem_of_getElem? hchunk
  have hlimits : ¬(message.chunks.length = 0 ∨ segmentCountMax < message.chunks.length ∨
      message.chunks.length ≤ reached.segment ∨ message.chunks.flatten.length = 0 ∨
      reassembledMaxBytes < message.chunks.flatten.length ∨ base64.encode chunk = []) := by
    have hcount := message.count_le
    have hpos := message.size_pos
    have hsize := message.size_le
    have hne := message.chunk_ne_nil chunk hmem
    rintro (hbad | hbad | hbad | hbad | hbad | hbad)
    · omega
    · omega
    · omega
    · omega
    · omega
    · exact hne hbad
  unfold WebsocketState.observeClientMessage
  rw [if_neg (by rw [isCompleted_reached h hmessage]; exact Bool.false_ne_true),
    if_neg (by rw [isAssembled_envelope, hignore]; exact Bool.false_ne_true),
    if_neg (fun hbig => not_lt.2 hwire hbig.2)]
  have hobserve : server.clientSegmentReassembler.observe base64 fromSlice now
      (message.envelope clientId script.streamId cursor reached.segment chunk) =
      (server.clientSegmentReassembler.startAssembly now clientId script.streamId
        message.metadata).updateAssembly base64 fromSlice now
          (message.envelope clientId script.streamId cursor reached.segment chunk) script.streamId
          message.metadata reached.segment (base64.encode chunk) := by
    show (if _ then _ else if _ then _ else _) = _
    rw [if_neg (by rw [Bool.not_eq_true]; exact hignore), if_neg hlimits]
    rfl
  rw [hobserve]

/-- **A new chunk** is taken in, and the last one of a message forwards it. -/
theorem receive_reached (hlaw : base64.Lawful) (cursor : Option Str) (now : ℕ)
    (h : Knows server clientId script reached)
    (hroom : server.clientSegmentReassembler.assemblies.keys.length < segmentAssemblyMaxCount)
    (hmessage : script.messages[reached.message]? = some message)
    (hchunk : message.chunks[reached.segment]? = some chunk)
    (hwire : wireSizeBytes ≤ segmentMaxBytes) :
    let result := server.receive base64 fromSlice now
      (message.envelope clientId script.streamId cursor reached.segment chunk) wireSizeBytes
    result.2 = (if reached.segment + 1 < message.chunks.length then none
      else some (message.completed clientId script.streamId cursor)) ∧
    Advances server result.1 clientId script (message.after reached) := by
  intro result
  obtain ⟨⟨seenAt, hassembly⟩, hothers⟩ := startAssembly_reached now h hroom hmessage
  have hobserve := observe_reached cursor now h hmessage hchunk hwire
  rw [updateAssembly_reached hlaw hassembly hchunk] at hobserve
  by_cases hlast : reached.segment + 1 < message.chunks.length
  · simp only [if_pos hlast] at hobserve
    have hresult : result = _ := receive_of_pending hobserve
    rw [hresult, if_pos hlast]
    have hafter : message.after reached = ⟨reached.message, reached.segment + 1⟩ := if_pos hlast
    rw [hafter]
    refine ⟨rfl, ⟨h.le_length, h.completed, nofun, fun _ => ?_⟩, fun other hother => ?_,
      fun _ _ _ => rfl⟩
    · exact ⟨message, now, hmessage, hlast, AList.lookup_insert _⟩
    · exact (AList.lookup_insert_ne hother).trans (hothers other hother)
  · simp only [if_neg hlast] at hobserve
    have hresult : result = _ := receive_of_forward hobserve
    rw [hresult, if_neg hlast]
    have hafter : message.after reached = ⟨reached.message + 1, 0⟩ := if_neg hlast
    rw [hafter]
    have hlt : reached.message < script.messages.length := (List.getElem?_eq_some_iff.1 hmessage).1
    refine ⟨rfl, ⟨hlt, ?_, fun _ => AList.lookup_erase _ _, fun hne => absurd rfl hne⟩,
      fun other hother => ?_, fun other streamId hother => ?_⟩
    · show (server.lastCompletedClientChunkSeqIdByStream.insert (clientId, some script.streamId)
        message.seqId).lookup (clientId, some script.streamId) = _
      rw [AList.lookup_insert, List.take_add_one, hmessage, Option.toList_some,
        List.getLast?_concat]
      rfl
    · refine (AList.lookup_erase_ne hother).trans ?_
      exact (AList.lookup_insert_ne hother).trans (hothers other hother)
    · exact AList.lookup_insert_ne fun heq => hother (congrArg Prod.fst heq)

end Receive

/-! ## Runs -/

section Run

variable {scripts : ClientId → Script base64 fromSlice} {clients : Finset ClientId}
  {system system' : System μ ω} {clientId other : ClientId} {reached position : Position}
  {message : ChunkedMessage base64 fromSlice}

/-- What an envelope carries beside its cursor. -/
def payload (envelope : ClientEnvelope μ) : Option StreamId × Option ℕ × ClientEvent μ :=
  (envelope.streamId, envelope.seqId, envelope.event)

/-- What is to be forwarded for a message. -/
def Script.payload (script : Script base64 fromSlice) (message : ChunkedMessage base64 fromSlice) :
    Option StreamId × Option ℕ × ClientEvent μ :=
  (some script.streamId, some message.seqId, .clientMessage message.message)

/-- What was forwarded for a client. -/
def System.forwardedFor (system : System μ ω) (clientId : ClientId) :
    List (Option StreamId × Option ℕ × ClientEvent μ) :=
  (system.forwarded.filter (·.clientId = clientId)).map RemoteControl.payload

/-- A client has sent the chunks before a place, and the system knows them. -/
structure Follows (scripts : ClientId → Script base64 fromSlice) (system : System μ ω)
    (clientId : ClientId) (reached : Position) : Prop where
  knows : Knows system.server clientId (scripts clientId) reached
  next_upTo : (system.next clientId).UpTo reached
  mem_sent : ∀ position, position ∈ system.sent clientId ↔
    (scripts clientId).Has position ∧ position.Before reached
  forwarded : system.forwardedFor clientId =
    ((scripts clientId).messages.take reached.message).map (scripts clientId).payload

theorem Position.before_or_eq (h : position.UpTo reached) :
    position.Before reached ∨ position = reached := by
  rcases h with hless | ⟨hsame, hle⟩
  · exact .inl (.inl hless)
  · rcases hle.lt_or_eq with hlt | heq
    · exact .inl (.inr ⟨hsame, hlt⟩)
    · obtain ⟨m, s⟩ := position
      obtain ⟨m', s'⟩ := reached
      cases hsame
      cases heq
      exact .inr rfl

/-- After a replayed chunk the client is still behind what it has sent. -/
theorem after_upTo (h : Knows system.server clientId (scripts clientId) reached)
    (hmessage : (scripts clientId).messages[position.message]? = some message)
    (hbefore : position.Before reached) : (message.after position).UpTo reached := by
  unfold ChunkedMessage.after
  rcases hbefore with hless | ⟨hsame, hsegment⟩
  · split
    · exact .inl hless
    · rcases (Nat.succ_le_of_lt hless).lt_or_eq with hlt | heq
      · exact .inl hlt
      · exact .inr ⟨heq, Nat.zero_le _⟩
  · obtain ⟨current, -, hcurrent, hlt, -⟩ := h.assembling (by omega)
    rw [← hsame, hmessage] at hcurrent
    cases hcurrent
    rw [if_pos (by omega)]
    exact .inr ⟨hsame, hsegment⟩

/-- The places before the next one are those before this one, and this one. -/
theorem before_after_iff {script : Script base64 fromSlice} (hhas : script.Has position)
    (hmessage : script.messages[reached.message]? = some message)
    (hsegment : reached.segment < message.chunks.length) :
    position.Before (message.after reached) ↔ position = reached ∨ position.Before reached := by
  obtain ⟨own, hown, hlt⟩ := hhas
  have hsame : position.message = reached.message → position.segment < message.chunks.length := by
    intro heq
    rw [heq, hmessage] at hown
    cases hown
    exact hlt
  have heq : position = reached ↔
      position.message = reached.message ∧ position.segment = reached.segment := by
    obtain ⟨m, s⟩ := position
    obtain ⟨m', s'⟩ := reached
    exact Position.mk.injEq m s m' s' ▸ Iff.rfl
  rw [heq]
  unfold ChunkedMessage.after Position.Before
  split
  · show _ < reached.message ∨ _ = reached.message ∧ _ < reached.segment + 1 ↔ _
    omega
  · show _ < reached.message + 1 ∨ _ = reached.message + 1 ∧ _ < 0 ↔ _
    have hlast := hsame
    by_cases hm : position.message = reached.message
    · have := hlast hm
      omega
    · omega

/-- What a chunk does to the system, given what the server makes of it. -/
def System.afterSend (system : System μ ω) (clientId : ClientId)
    (message : ChunkedMessage base64 fromSlice)
    (result : WebsocketState ω × Option (ClientEnvelope μ)) : System μ ω where
  server := result.1
  next := update system.next clientId (message.after (system.next clientId))
  sent := update system.sent clientId (system.next clientId :: system.sent clientId)
  forwarded := system.forwarded ++ result.2.toList

theorem step_send {cursor : Option Str} {wireSizeBytes now : ℕ}
    (h : system.step scripts clients (.send clientId cursor wireSizeBytes now) = some system') :
    ∃ message chunk, (scripts clientId).messages[(system.next clientId).message]? = some message ∧
      message.chunks[(system.next clientId).segment]? = some chunk ∧ clientId ∈ clients ∧
      wireSizeBytes ≤ segmentMaxBytes ∧
      system' = system.afterSend clientId message (system.server.receive base64 fromSlice now
        (message.envelope clientId (scripts clientId).streamId cursor
          (system.next clientId).segment chunk) wireSizeBytes) := by
  obtain ⟨message, hmessage, h⟩ := Option.bind_eq_some_iff.1 h
  obtain ⟨chunk, hchunk, h⟩ := Option.bind_eq_some_iff.1 h
  obtain ⟨⟨⟩, hguard, h⟩ := Option.bind_eq_some_iff.1 h
  obtain ⟨hclient, hwire⟩ := (Option.guard_eq_some' _).1 hguard
  exact ⟨message, chunk, hmessage, hchunk, hclient, hwire, (Option.some.inj h).symm⟩

theorem Knows.congr {server server' : WebsocketState ω} {script : Script base64 fromSlice}
    (h : Knows server clientId script reached)
    (hassemblies : server'.clientSegmentReassembler.assemblies.lookup clientId =
      server.clientSegmentReassembler.assemblies.lookup clientId)
    (hcompleted : ∀ streamId, server'.lastCompletedClientChunkSeqIdByStream.lookup
      (clientId, streamId) = server.lastCompletedClientChunkSeqIdByStream.lookup
        (clientId, streamId)) : Knows server' clientId script reached := by
  refine ⟨h.le_length, (hcompleted _).trans h.completed, fun hfirst => ?_, fun hfirst => ?_⟩
  · exact hassemblies.trans (h.idle hfirst)
  · rw [hassemblies]
    exact h.assembling hfirst

/-- What another client sends is nothing to this one. -/
theorem Follows.undisturbed {result : WebsocketState ω × Option (ClientEnvelope μ)}
    (h : Follows scripts system other reached) (hother : other ≠ clientId)
    (hassemblies : result.1.clientSegmentReassembler.assemblies.lookup other =
      system.server.clientSegmentReassembler.assemblies.lookup other)
    (hcompleted : ∀ streamId, result.1.lastCompletedClientChunkSeqIdByStream.lookup
      (other, streamId) = system.server.lastCompletedClientChunkSeqIdByStream.lookup
        (other, streamId))
    (hforwarded : ∀ envelope ∈ result.2, envelope.clientId = clientId) :
    Follows scripts (system.afterSend clientId message result) other reached := by
  refine ⟨h.knows.congr hassemblies hcompleted, ?_, fun position => ?_, ?_⟩
  · show (update system.next clientId _ other).UpTo reached
    rw [update_of_ne hother]
    exact h.next_upTo
  · show position ∈ update system.sent clientId _ other ↔ _
    rw [update_of_ne hother]
    exact h.mem_sent position
  · have hnone : (result.2.toList.filter fun envelope => envelope.clientId = other) = [] := by
      rw [List.filter_eq_nil_iff]
      intro envelope henvelope
      rw [hforwarded envelope (Option.mem_toList.1 henvelope), decide_eq_true_eq]
      exact hother.symm
    show ((system.forwarded ++ result.2.toList).filter _).map _ = _
    rw [List.filter_append, hnone, List.append_nil]
    exact h.forwarded

/-- A replayed chunk leaves the client where it was. -/
theorem Follows.replayed (h : Follows scripts system clientId reached)
    (hmessage : (scripts clientId).messages[(system.next clientId).message]? = some message)
    (hsegment : (system.next clientId).segment < message.chunks.length)
    (hbefore : (system.next clientId).Before reached) :
    Follows scripts (system.afterSend clientId message (system.server, none)) clientId reached := by
  refine ⟨h.knows, ?_, fun position => ?_, ?_⟩
  · show (update system.next clientId _ clientId).UpTo reached
    rw [update_self]
    exact after_upTo h.knows hmessage hbefore
  · show position ∈ update system.sent clientId _ clientId ↔ _
    rw [update_self, List.mem_cons, h.mem_sent]
    refine ⟨?_, .inr⟩
    rintro (rfl | hold)
    · exact ⟨⟨message, hmessage, hsegment⟩, hbefore⟩
    · exact hold
  · show ((system.forwarded ++ []).filter _).map _ = _
    rw [List.append_nil]
    exact h.forwarded

/-- A new chunk takes the client on. -/
theorem Follows.advanced {server : WebsocketState ω} (cursor : Option Str)
    (h : Follows scripts system clientId (system.next clientId))
    (hmessage : (scripts clientId).messages[(system.next clientId).message]? = some message)
    (hsegment : (system.next clientId).segment < message.chunks.length)
    (hadvances : Advances system.server server clientId (scripts clientId)
      (message.after (system.next clientId))) :
    Follows scripts (system.afterSend clientId message (server,
      if (system.next clientId).segment + 1 < message.chunks.length then none
      else some (message.completed clientId (scripts clientId).streamId cursor))) clientId
        (message.after (system.next clientId)) := by
  refine ⟨hadvances.knows, ?_, fun position => ?_, ?_⟩
  · show (update system.next clientId _ clientId).UpTo _
    rw [update_self]
    exact .inr ⟨rfl, le_rfl⟩
  · show position ∈ update system.sent clientId _ clientId ↔ _
    rw [update_self, List.mem_cons, h.mem_sent]
    constructor
    · rintro (rfl | ⟨hhas, hbefore⟩)
      · have hhas : (scripts clientId).Has (system.next clientId) := ⟨message, hmessage, hsegment⟩
        exact ⟨hhas, (before_after_iff hhas hmessage hsegment).2 (.inl rfl)⟩
      · exact ⟨hhas, (before_after_iff hhas hmessage hsegment).2 (.inr hbefore)⟩
    · rintro ⟨hhas, hbefore⟩
      exact ((before_after_iff hhas hmessage hsegment).1 hbefore).imp id fun hold => ⟨hhas, hold⟩
  · have hforwarded := h.forwarded
    unfold System.forwardedFor at hforwarded ⊢
    unfold ChunkedMessage.after
    split
    · next hmore =>
      show ((system.forwarded ++ []).filter _).map _ = _
      rw [List.append_nil]
      exact hforwarded
    · next hlast =>
      show ((system.forwarded ++ [_]).filter _).map _ =
        ((scripts clientId).messages.take ((system.next clientId).message + 1)).map _
      rw [List.filter_append, List.map_append, hforwarded, List.take_add_one, hmessage,
        List.map_append]
      have hown : ([message.completed clientId (scripts clientId).streamId cursor].filter
          fun envelope => envelope.clientId = clientId) =
          [message.completed clientId (scripts clientId).streamId cursor] :=
        List.filter_cons_of_pos (decide_eq_true rfl)
      rw [hown]
      rfl

/-- Every client is followed, and only clients have assemblies. -/
structure Invariant (scripts : ClientId → Script base64 fromSlice) (clients : Finset ClientId)
    (system : System μ ω) : Prop where
  follows : ∀ clientId, ∃ reached, Follows scripts system clientId reached
  assembling : ∀ clientId ∈ system.server.clientSegmentReassembler.assemblies, clientId ∈ clients

theorem invariant_start (scripts : ClientId → Script base64 fromSlice) (clients : Finset ClientId) :
    Invariant scripts clients ({} : System μ ω) := by
  refine ⟨fun clientId => ⟨{}, ⟨Nat.zero_le _, rfl, fun _ => rfl, fun h => absurd rfl h⟩,
    .inr ⟨rfl, le_rfl⟩, fun position => ?_, rfl⟩, fun clientId hmem => ?_⟩
  · refine ⟨fun hmem => absurd hmem List.not_mem_nil, ?_⟩
    rintro ⟨-, hless | ⟨-, hless⟩⟩
    · exact absurd hless (Nat.not_lt_zero _)
    · exact absurd hless (Nat.not_lt_zero _)
  · exact absurd hmem (AList.notMem_empty clientId)

theorem Invariant.room (h : Invariant scripts clients system)
    (hfew : clients.card < segmentAssemblyMaxCount) :
    system.server.clientSegmentReassembler.assemblies.keys.length < segmentAssemblyMaxCount := by
  refine lt_of_le_of_lt ?_ hfew
  rw [← List.toFinset_card_of_nodup (AList.keys_nodup _)]
  refine Finset.card_le_card fun clientId hmem => ?_
  exact h.assembling clientId (List.mem_toFinset.1 hmem)

theorem Invariant.step (hlaw : base64.Lawful) (hfew : clients.card < segmentAssemblyMaxCount)
    {action : Action} (h : Invariant scripts clients system)
    (hstep : system.step scripts clients action = some system') :
    Invariant scripts clients system' := by
  cases action with
  | replay clientId position =>
    obtain ⟨hupTo, heq⟩ := Option.ite_none_right_eq_some.1 hstep
    cases heq
    refine ⟨fun other => ?_, h.assembling⟩
    obtain ⟨reached, hfollows⟩ := h.follows other
    refine ⟨reached, hfollows.knows, ?_, hfollows.mem_sent, hfollows.forwarded⟩
    show (update system.next clientId position other).UpTo reached
    by_cases hother : other = clientId
    · subst hother
      rw [update_self]
      have hnext := hfollows.next_upTo
      unfold Position.UpTo at hupTo hnext ⊢
      omega
    · rw [update_of_ne hother]
      exact hfollows.next_upTo
  | send clientId cursor wireSizeBytes now =>
    obtain ⟨message, chunk, hmessage, hchunk, hclient, hwire, rfl⟩ := step_send hstep
    have hsegment := (List.getElem?_eq_some_iff.1 hchunk).1
    obtain ⟨reached, hfollows⟩ := h.follows clientId
    rcases Position.before_or_eq hfollows.next_upTo with hbefore | rfl
    · rw [receive_replayed hfollows.knows hmessage hbefore]
      refine ⟨fun other => ?_, h.assembling⟩
      by_cases hother : other = clientId
      · subst hother
        exact ⟨reached, hfollows.replayed hmessage hsegment hbefore⟩
      · obtain ⟨reached', hfollows'⟩ := h.follows other
        exact ⟨reached', hfollows'.undisturbed hother rfl (fun _ => rfl) nofun⟩
    · obtain ⟨hforwarded, hadvances⟩ :=
        receive_reached hlaw cursor now hfollows.knows (h.room hfew) hmessage hchunk hwire
      refine ⟨fun other => ?_, fun other hmem => ?_⟩
      · by_cases hother : other = clientId
        · subst hother
          have hadvanced := hfollows.advanced cursor hmessage hsegment hadvances
          rw [← hforwarded] at hadvanced
          exact ⟨_, hadvanced⟩
        · obtain ⟨reached', hfollows'⟩ := h.follows other
          refine ⟨reached', hfollows'.undisturbed hother (hadvances.assemblies other hother)
            (fun streamId => hadvances.completed other streamId hother) ?_⟩
          rw [hforwarded]
          intro envelope henvelope
          split at henvelope
          · cases henvelope
          · cases henvelope
            rfl
      · by_cases hother : other = clientId
        · rw [hother]
          exact hclient
        · refine h.assembling other ?_
          rw [← AList.lookup_isSome, ← hadvances.assemblies other hother, AList.lookup_isSome]
          exact hmem

/-- **Every chunked message is forwarded once.** However the chunks of fewer than
128 clients interleave and however often a client goes back, what is forwarded
for a client are its first messages, each once and in order: those whose chunks
were all sent. -/
theorem chunked_messages_forwarded_once (hlaw : base64.Lawful)
    (scripts : ClientId → Script base64 fromSlice) {clients : Finset ClientId}
    (hfew : clients.card < segmentAssemblyMaxCount) {actions : List Action} {system : System μ ω}
    (hrun : Machine.run (System.step scripts clients) {} actions = some system)
    (clientId : ClientId) :
    ∃ count,
      (∀ i message, (scripts clientId).messages[i]? = some message →
        (i < count ↔ ∀ segment < message.chunks.length, ⟨i, segment⟩ ∈ system.sent clientId)) ∧
      system.forwardedFor clientId =
        ((scripts clientId).messages.take count).map (scripts clientId).payload := by
  have hinvariant : Invariant scripts clients system :=
    Machine.run_invariant (fun _ _ _ h hstep => h.step hlaw hfew hstep)
      (invariant_start scripts clients) hrun
  obtain ⟨reached, hfollows⟩ := hinvariant.follows clientId
  refine ⟨reached.message, fun i message hmessage => ?_, hfollows.forwarded⟩
  constructor
  · intro hi segment hsegment
    exact (hfollows.mem_sent _).2 ⟨⟨message, hmessage, hsegment⟩, .inl hi⟩
  · intro hall
    have hpos : 0 < message.chunks.length := List.length_pos_iff.2 message.chunks_ne_nil
    obtain ⟨-, hbefore⟩ := (hfollows.mem_sent _).1 (hall (message.chunks.length - 1) (by omega))
    rcases hbefore with hless | ⟨hsame, hsegment⟩
    · exact hless
    · -- The message that is being assembled lacks its last chunk.
      change i = reached.message at hsame
      change message.chunks.length - 1 < reached.segment at hsegment
      obtain ⟨current, -, hcurrent, hlt, -⟩ := hfollows.knows.assembling (by omega)
      rw [← hsame, hmessage] at hcurrent
      cases hcurrent
      omega

end Run

/-! ## A message in two chunks -/

def bytesOf (text : Str) : Bytes := text.map fun c => UInt8.ofNat c.toNat

/-- A notification of the method `a`. -/
def notification : Str := "\x7b\"method\":\"a\"\x7d".toList

/-- The method of the one notification that it reads. -/
def readNotification (bytes : Bytes) : Option Str :=
  if bytes = bytesOf notification then some "a".toList else none

def twoChunks : ChunkedMessage Base64.standard readNotification where
  seqId := 1
  chunks := [bytesOf (notification.take 8), bytesOf (notification.drop 8)]
  message := "a".toList
  chunks_ne_nil := List.cons_ne_nil _ _
  count_le := by decide +kernel
  chunk_ne_nil := by decide +kernel
  size_pos := by decide +kernel
  size_le := by decide +kernel
  fromSlice_flatten := by decide +kernel

/-- One client sends the message, and the others nothing. -/
def oneMessage (clientId : ClientId) : Script Base64.standard readNotification :=
  if clientId = "c".toList then ⟨"s".toList, [twoChunks], List.pairwise_singleton _ _⟩
  else ⟨"s".toList, [], .nil⟩

/-- The first chunk is sent again. -/
def firstChunkAgain : List Action :=
  [.send "c".toList none 100 0, .replay "c".toList {}, .send "c".toList none 100 1,
    .send "c".toList none 100 2]

theorem chunked_messages_forwarded_once_replayed :
    ∃ system : System Str Unit,
      Machine.run (System.step oneMessage {"c".toList}) {} firstChunkAgain = some system ∧
      ∃ count, system.forwardedFor "c".toList =
        ((oneMessage "c".toList).messages.take count).map (oneMessage "c".toList).payload := by
  obtain ⟨system, hrun⟩ : ∃ system : System Str Unit,
      Machine.run (System.step oneMessage {"c".toList}) {} firstChunkAgain = some system :=
    Option.isSome_iff_exists.1 (by decide +kernel)
  obtain ⟨count, -, hforwarded⟩ := chunked_messages_forwarded_once Base64.standard_lawful oneMessage
    (by decide) hrun "c".toList
  exact ⟨system, hrun, count, hforwarded⟩

end Codex.RemoteControl
