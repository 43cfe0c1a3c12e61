import Codex.Base.Machine
import Codex.RemoteControl.Base64
import Codex.RemoteControl.ServerWriter

/-!
# No envelope is lost

Over every order of events, writes, lost connections, deliveries and
acknowledgements: what was produced is received or still buffered, a connection
is written in the order of the numbers of each stream, and the count of the
buffer is right.
-/

namespace Codex.RemoteControl

open Function Codex.Text

variable {μ ω : Type}

/-- The order of the cursors of one stream. -/
def CursorLt (first second : ServerEnvelope ω) : Prop :=
  first.seqId < second.seqId ∨
    first.seqId = second.seqId ∧ first.event.segmentId.getD 0 < second.event.segmentId.getD 0

/-! ## Segments of one event -/

/-- The parts of an envelope: its stream and number, in the order of the segments. -/
structure PartsOf (envelope : ServerEnvelope ω) (parts : List (ServerEnvelope ω)) : Prop where
  same : ∀ part ∈ parts, part.key = envelope.key ∧ part.seqId = envelope.seqId
  increasing : parts.Pairwise CursorLt

theorem partsOf_nil (envelope : ServerEnvelope ω) : PartsOf envelope [] :=
  ⟨nofun, .nil⟩

theorem partsOf_self (envelope : ServerEnvelope ω) : PartsOf envelope [envelope] := by
  refine ⟨fun part hpart => ?_, List.pairwise_singleton _ _⟩
  rw [List.mem_singleton.1 hpart]
  exact ⟨rfl, rfl⟩

theorem PartsOf.filter {envelope : ServerEnvelope ω} {parts : List (ServerEnvelope ω)}
    (h : PartsOf envelope parts) (keep : ServerEnvelope ω → Bool) :
    PartsOf envelope (parts.filter keep) :=
  ⟨fun part hpart => h.same part (List.mem_of_mem_filter hpart), h.increasing.filter _⟩

section Split

variable {base64 : Base64} {serializer : Serializer ω} {envelope : ServerEnvelope ω}
  {parts : List (ServerEnvelope ω)}

/-- The envelope of a chunk and its segment. -/
def partOf (base64 : Base64) (envelope : ServerEnvelope ω) (segmentCount size : ℕ)
    (segment : Bytes × ℕ) : ServerEnvelope ω :=
  { envelope with
    event := .serverMessageChunk segment.2 segmentCount size (base64.encode segment.1) }

theorem partsOf_build {segments : List Bytes} {segmentCount size : ℕ}
    (h : (segments.zipIdx.mapM fun (chunk, segmentId) =>
      buildChunkEnvelope base64 envelope segmentId segmentCount size chunk) = some parts) :
    PartsOf envelope parts := by
  unfold buildChunkEnvelope at h
  by_cases hcount : segmentCountMax < segmentCount
  · cases segments with
    | nil =>
      cases h
      exact partsOf_nil envelope
    | cons chunk segments =>
      simp only [if_pos hcount, List.zipIdx_cons, List.mapM_cons] at h
      cases h
  · simp only [if_neg hcount] at h
    have hpure := List.mapM_pure (m := Option) (l := segments.zipIdx)
      (f := partOf base64 envelope segmentCount size)
    cases hpure.symm.trans h
    refine ⟨fun part hpart => ?_, ?_⟩
    · obtain ⟨segment, -, rfl⟩ := List.mem_map.1 hpart
      exact ⟨rfl, rfl⟩
    · rw [List.pairwise_map]
      have hids : (segments.zipIdx.map Prod.snd).Pairwise (· < ·) := by
        rw [List.zipIdx_map_snd]
        exact List.pairwise_lt_range'
      exact (List.pairwise_map.1 hids).imp fun hlt => .inr ⟨rfl, hlt⟩

theorem partsOf_splitInto {raw : Bytes} {segmentCount : ℕ} :
    splitInto base64 serializer envelope raw segmentCount = some parts →
      PartsOf envelope parts := by
  fun_induction splitInto base64 serializer envelope raw segmentCount with
  | case1 => exact partsOf_build
  | case2 =>
    intro h
    cases h
    exact partsOf_nil envelope
  | case3 _ _ _ _ _ _ _ _ _ _ ih => exact ih

theorem partsOf_split
    (h : splitServerEnvelopeForTransport base64 serializer envelope = some parts) :
    PartsOf envelope parts := by
  unfold splitServerEnvelopeForTransport at h
  split at h
  · next message _ =>
    obtain ⟨size, -, h⟩ := Option.bind_eq_some_iff.1 h
    split at h
    · cases h
      exact partsOf_self envelope
    obtain ⟨raw, -, h⟩ := Option.bind_eq_some_iff.1 h
    split at h
    · cases h
      exact partsOf_nil envelope
    obtain ⟨minimalLen, -, h⟩ := Option.bind_eq_some_iff.1 h
    split at h
    · cases h
      exact partsOf_nil envelope
    · exact partsOf_splitInto h
  · cases h
    exact partsOf_self envelope

end Split

/-! ## The buffer -/

namespace BoundedOutboundBuffer

variable {buffer : BoundedOutboundBuffer ω} {key : StreamKey}

/-- What is buffered for a stream. -/
def queue (buffer : BoundedOutboundBuffer ω) (key : StreamKey) : List (ServerEnvelope ω) :=
  (buffer.bufferByStream.lookup key).getD []

/-- The count is the number of buffered envelopes. -/
def Counted (buffer : BoundedOutboundBuffer ω) : Prop :=
  buffer.used = buffer.serverEnvelopes.length

theorem mem_serverEnvelopes {envelope : ServerEnvelope ω} (h : envelope ∈ buffer.queue key) :
    envelope ∈ buffer.serverEnvelopes := by
  unfold queue at h
  cases hlookup : buffer.bufferByStream.lookup key with
  | none =>
    rw [hlookup] at h
    exact absurd h List.not_mem_nil
  | some envelopes =>
    rw [hlookup] at h
    exact List.mem_flatMap.2 ⟨⟨key, envelopes⟩, AList.mem_lookup_iff.1 hlookup, h⟩

/-- How many envelopes a map of queues holds. -/
def total (map : HashMap StreamKey (List (ServerEnvelope ω))) : ℕ :=
  (map.entries.flatMap (·.2)).length

theorem counted_iff : buffer.Counted ↔ buffer.used = total buffer.bufferByStream := Iff.rfl

/-- Without the queue of a stream there are that many envelopes less. -/
theorem total_erase (map : HashMap StreamKey (List (ServerEnvelope ω))) (key : StreamKey) :
    total (map.erase key) + ((map.lookup key).getD []).length = total map := by
  unfold total
  by_cases hmem : key ∈ map
  · obtain ⟨envelopes, before, after, -, hentries, herase⟩ := List.exists_of_kerase hmem
    have hlookup : map.lookup key = some envelopes := by
      refine AList.mem_lookup_iff.2 ?_
      rw [hentries]
      exact List.mem_append_right _ List.mem_cons_self
    show ((map.entries.kerase key).flatMap (·.2)).length + _ = _
    rw [hlookup, herase, hentries]
    simp only [List.flatMap_append, List.flatMap_cons, List.length_append, Option.getD_some]
    omega
  · have hlookup : map.lookup key = none := AList.lookup_eq_none.2 hmem
    show ((map.entries.kerase key).flatMap (·.2)).length + _ = _
    rw [hlookup, List.kerase_of_notMem_keys hmem]
    rfl

theorem total_insert (map : HashMap StreamKey (List (ServerEnvelope ω))) (key : StreamKey)
    (envelopes : List (ServerEnvelope ω)) :
    total (map.insert key envelopes) = envelopes.length + total (map.erase key) := by
  show ((⟨key, envelopes⟩ :: map.entries.kerase key).flatMap (·.2)).length = _
  rw [List.flatMap_cons, List.length_append]
  rfl

theorem queue_insert (buffer : BoundedOutboundBuffer ω) (envelope : ServerEnvelope ω)
    (key : StreamKey) :
    (buffer.insert envelope).queue key =
      buffer.queue key ++ if key = envelope.key then [envelope] else [] := by
  unfold queue insert
  split
  · next h =>
    rw [h]
    show ((buffer.bufferByStream.insert envelope.key _).lookup envelope.key).getD [] = _
    rw [AList.lookup_insert]
    rfl
  · next h =>
    rw [List.append_nil]
    show ((buffer.bufferByStream.insert envelope.key _).lookup key).getD [] = _
    rw [AList.lookup_insert_ne h]

theorem Counted.insert (h : buffer.Counted) (envelope : ServerEnvelope ω) :
    (buffer.insert envelope).Counted := by
  have herase := total_erase buffer.bufferByStream envelope.key
  rw [counted_iff] at h ⊢
  show buffer.used + 1 = (total (buffer.bufferByStream.insert envelope.key
    (buffer.queue envelope.key ++ [envelope])) : ℤ)
  rw [total_insert, List.length_append, List.length_singleton, h, ← herase]
  unfold queue
  push_cast
  omega

/-- The envelopes of one event go to the end of the queue of their stream. -/
theorem foldl_insert {envelopes : List (ServerEnvelope ω)} :
    ∀ {buffer : BoundedOutboundBuffer ω}, buffer.Counted →
      (∀ envelope ∈ envelopes, envelope.key = key) →
      let filled := envelopes.foldl insert buffer
      filled.Counted ∧ ∀ other, filled.queue other =
        buffer.queue other ++ if other = key then envelopes else [] := by
  induction envelopes with
  | nil =>
    intro buffer hcounted _
    refine ⟨hcounted, fun other => ?_⟩
    rw [ite_self, List.append_nil]
    rfl
  | cons envelope envelopes ih =>
    intro buffer hcounted hkey
    obtain ⟨hfilled, hqueue⟩ := ih (hcounted.insert envelope) fun e he =>
      hkey e (List.mem_cons_of_mem _ he)
    refine ⟨hfilled, fun other => (hqueue other).trans ?_⟩
    rw [queue_insert, hkey envelope List.mem_cons_self]
    split
    · rw [List.append_assoc, List.singleton_append]
    · rw [List.append_nil, List.append_nil]

section Ack

variable {clientId : ClientId} {streamId : StreamId} {seqId : ℕ} {segmentId : Option ℕ}

theorem ack_of_none (h : buffer.bufferByStream.lookup (clientId, streamId) = none) :
    buffer.ack clientId streamId seqId segmentId = buffer := by
  simp only [ack, h]

theorem ack_of_some {envelopes : List (ServerEnvelope ω)}
    (h : buffer.bufferByStream.lookup (clientId, streamId) = some envelopes) :
    let kept := envelopes.filter fun envelope => !isAcked seqId segmentId envelope
    buffer.ack clientId streamId seqId segmentId =
      { bufferByStream :=
          if kept = [] then buffer.bufferByStream.erase (clientId, streamId)
          else buffer.bufferByStream.insert (clientId, streamId) kept
        used := buffer.used - (envelopes.filter (isAcked seqId segmentId)).length } := by
  simp only [ack, h]

/-- An acknowledgement takes what it covers out of the queue of its stream, and
nothing out of another. -/
theorem queue_ack (buffer : BoundedOutboundBuffer ω) (clientId : ClientId) (streamId : StreamId)
    (seqId : ℕ) (segmentId : Option ℕ) (key : StreamKey) :
    (buffer.ack clientId streamId seqId segmentId).queue key =
      if key = (clientId, streamId) then
        (buffer.queue key).filter fun envelope => !isAcked seqId segmentId envelope
      else buffer.queue key := by
  cases hlookup : buffer.bufferByStream.lookup (clientId, streamId) with
  | none =>
    rw [ack_of_none hlookup]
    split
    · next h =>
      unfold queue
      rw [h, hlookup]
      rfl
    · rfl
  | some envelopes =>
    rw [ack_of_some hlookup]
    unfold queue
    by_cases hkey : key = (clientId, streamId)
    · rw [if_pos hkey, hkey, hlookup]
      dsimp only
      split
      · next hnone =>
        rw [AList.lookup_erase]
        exact hnone.symm
      · rw [AList.lookup_insert]
        rfl
    · rw [if_neg hkey]
      dsimp only
      split
      · rw [AList.lookup_erase_ne hkey]
      · rw [AList.lookup_insert_ne hkey]

theorem Counted.ack (h : buffer.Counted) (clientId : ClientId) (streamId : StreamId) (seqId : ℕ)
    (segmentId : Option ℕ) : (buffer.ack clientId streamId seqId segmentId).Counted := by
  cases hlookup : buffer.bufferByStream.lookup (clientId, streamId) with
  | none =>
    rw [ack_of_none hlookup]
    exact h
  | some envelopes =>
    have herase := total_erase buffer.bufferByStream (clientId, streamId)
    rw [hlookup, Option.getD_some] at herase
    have hparts := List.length_eq_length_filter_add (l := envelopes) (isAcked seqId segmentId)
    rw [ack_of_some hlookup, counted_iff]
    rw [counted_iff] at h
    dsimp only
    rw [h, ← herase]
    split
    · next hnone =>
      rw [hnone, List.length_nil] at hparts
      push_cast
      omega
    · rw [total_insert]
      push_cast
      omega

end Ack

end BoundedOutboundBuffer

/-! ## The reader -/

section Reader

variable {base64 : Base64} {fromSlice : Bytes → Option μ} {envelope forwarded : ClientEnvelope μ}
  {now : ℕ}

/-- The acknowledgement of an envelope, if it is one. -/
def BoundedOutboundBuffer.acknowledge (buffer : BoundedOutboundBuffer ω) (ack : Option AckCursor) :
    BoundedOutboundBuffer ω :=
  match ack with
  | some ack => buffer.ack ack.clientId ack.streamId ack.seqId ack.segmentId
  | none => buffer

variable {reassembler : ClientSegmentReassembler}

theorem ackOf_updateAssembly {streamId : StreamId}
    {metadata : ClientSegmentMetadata} {segmentId : ℕ} {chunk : Str}
    (h : (reassembler.updateAssembly base64 fromSlice now envelope streamId metadata segmentId
      chunk).2 = .forward forwarded) : ackOf forwarded = none := by
  unfold ClientSegmentReassembler.updateAssembly at h
  split at h
  · cases h
  · dsimp only at h
    split at h
    · cases h
    · cases h
    · cases h
    · cases h
      rfl

/-- A chunk is forwarded as a message, and everything else as it is. -/
theorem ackOf_forwarded
    (h : (reassembler.observe base64 fromSlice now envelope).2 = .forward forwarded) :
    ackOf forwarded = ackOf envelope := by
  unfold ClientSegmentReassembler.observe at h
  split at h
  · next segmentId segmentCount size chunk hevent =>
    have hnone : ackOf envelope = none := by
      unfold ackOf
      rw [hevent]
    rw [hnone]
    split at h
    · dsimp only at h
      split at h
      · cases h
      split at h
      · cases h
      · exact ackOf_updateAssembly h
    · cases h
  · cases h
    rfl

theorem observeClientMessage_keeps (base64 : Base64) (fromSlice : Bytes → Option μ) (now : ℕ)
    (state : WebsocketState ω) (envelope : ClientEnvelope μ) (wireSizeBytes : ℕ) :
    let observed := state.observeClientMessage base64 fromSlice now envelope wireSizeBytes
    observed.1.outboundBuffer = state.outboundBuffer ∧
      observed.1.nextSeqIdByStream = state.nextSeqIdByStream ∧
      ∀ forwarded, observed.2 = .forward forwarded → ackOf forwarded = ackOf envelope := by
  unfold WebsocketState.observeClientMessage
  split
  · exact ⟨rfl, rfl, nofun⟩
  split
  · exact ⟨rfl, rfl, nofun⟩
  split
  · exact ⟨rfl, rfl, nofun⟩
  · exact ⟨rfl, rfl, fun _ => ackOf_forwarded⟩

theorem recordClientMessageDelivery_keeps (state : WebsocketState ω)
    (forwarded : ClientEnvelope μ) (key : Option ((ClientId × Option StreamId) × ℕ)) :
    let recorded := state.recordClientMessageDelivery forwarded key
    recorded.outboundBuffer = state.outboundBuffer.acknowledge (ackOf forwarded) ∧
      recorded.nextSeqIdByStream = state.nextSeqIdByStream := by
  obtain ⟨event, clientId, streamId, seqId, cursor⟩ := forwarded
  cases key <;> cases event <;> cases seqId <;> cases streamId <;> exact ⟨rfl, rfl⟩

/-- **The reader** takes out of the buffer what an acknowledgement covers, and
does nothing else to it. -/
theorem receive_keeps (base64 : Base64) (fromSlice : Bytes → Option μ) (now : ℕ)
    (state : WebsocketState ω) (envelope : ClientEnvelope μ) (wireSizeBytes : ℕ) :
    let next := (state.receive base64 fromSlice now envelope wireSizeBytes).1
    (next.outboundBuffer = state.outboundBuffer ∨
      next.outboundBuffer = state.outboundBuffer.acknowledge (ackOf envelope)) ∧
      next.nextSeqIdByStream = state.nextSeqIdByStream := by
  obtain ⟨hbuffer, hnext, hforward⟩ :=
    observeClientMessage_keeps base64 fromSlice now state envelope wireSizeBytes
  unfold WebsocketState.receive
  split
  · next observed forwarded heq =>
    rw [heq] at hbuffer hnext hforward
    obtain ⟨hrecorded, hrecordedNext⟩ :=
      recordClientMessageDelivery_keeps observed forwarded (WebsocketState.clientMessageKey envelope)
    refine ⟨.inr ?_, hrecordedNext.trans hnext⟩
    rw [hrecorded, hforward forwarded rfl, hbuffer]
  · next observed heq =>
    rw [heq] at hbuffer hnext
    exact ⟨.inl hbuffer, hnext⟩
  · next observed heq =>
    rw [heq] at hbuffer hnext
    exact ⟨.inl hbuffer, hnext⟩

end Reader

/-! ## The writer -/

section Writer

variable {base64 : Base64} {serializer : Serializer ω} {state : WebsocketState ω}

def WebsocketState.nextSeqId (state : WebsocketState ω) (key : StreamKey) : ℕ :=
  (state.nextSeqIdByStream.lookup key).getD 1

/-- An event that takes a number is buffered under it, and the next event of its
stream has the next one. -/
structure Buffers (state : WebsocketState ω) (queued : QueuedServerEnvelope ω)
    (result : WebsocketState ω × List (ServerEnvelope ω) × Bool) : Prop where
  parts : PartsOf ⟨queued.event, queued.clientId, queued.streamId,
    state.nextSeqId (queued.clientId, queued.streamId)⟩ result.2.1
  buffer : result.1.outboundBuffer =
    result.2.1.foldl BoundedOutboundBuffer.insert state.outboundBuffer
  nothing : result.2.2 = false → result.2.1 = []
  next : ∀ key, result.1.nextSeqId key =
    if result.2.2 = true ∧ key = (queued.clientId, queued.streamId) then
      saturatingSucc (state.nextSeqId key)
    else state.nextSeqId key

theorem buffers_bufferEvent (base64 : Base64) (serializer : Serializer ω)
    (state : WebsocketState ω) (queued : QueuedServerEnvelope ω) :
    Buffers state queued (state.bufferEvent base64 serializer queued) := by
  have hsame : ∀ (seqId : ℕ) (key : StreamKey), key ≠ (queued.clientId, queued.streamId) →
      ((state.nextSeqIdByStream.insert (queued.clientId, queued.streamId) seqId).lookup key).getD 1 =
        state.nextSeqId key := by
    intro seqId key hkey
    rw [AList.lookup_insert_ne hkey]
    rfl
  unfold WebsocketState.bufferEvent
  dsimp only
  split
  · refine ⟨partsOf_nil _, rfl, fun _ => rfl, fun key => ?_⟩
    rw [if_neg (fun h => Bool.false_ne_true h.1)]
    by_cases hkey : key = (queued.clientId, queued.streamId)
    · rw [hkey]
      show ((state.nextSeqIdByStream.insert _ _).lookup _).getD 1 = _
      rw [AList.lookup_insert]
      rfl
    · exact hsame _ key hkey
  · next parts hsplit =>
    refine ⟨(partsOf_split hsplit).filter _, rfl, nofun, fun key => ?_⟩
    by_cases hkey : key = (queued.clientId, queued.streamId)
    · rw [if_pos ⟨rfl, hkey⟩, hkey]
      show (((state.nextSeqIdByStream.insert _ _).insert _ _).lookup _).getD 1 = _
      rw [AList.lookup_insert]
      rfl
    · rw [if_neg (fun h => hkey h.2)]
      show (((state.nextSeqIdByStream.insert _ _).insert _ _).lookup key).getD 1 = _
      rw [AList.lookup_insert_ne hkey]
      exact hsame _ key hkey

/-- The envelopes of a connection: written, and still to be written. -/
def Connection.all (connection : Connection ω) : List (ServerEnvelope ω) :=
  connection.written ++ connection.resend ++ connection.payloads

/-- The envelopes of each stream are in the order of their cursors. -/
def InOrder (envelopes : List (ServerEnvelope ω)) : Prop :=
  envelopes.Pairwise fun first second => first.key = second.key → CursorLt first second

theorem Connection.write_sublist {connection next : Connection ω}
    {written : List (ServerEnvelope ω)} (h : connection.write serializer = some (next, written)) :
    next.all.Sublist connection.all := by
  obtain ⟨resend, payloads, before⟩ := connection
  unfold write at h
  unfold all
  split at h
  · next envelope rest hresend =>
    cases hresend
    split at h
    · cases h
      simp only [List.append_assoc, List.cons_append]
      exact List.Sublist.refl _
    · cases h
      simp only [List.append_assoc, List.cons_append]
      exact List.Sublist.append_left (List.sublist_cons_self _ _) _
  · next envelope rest hresend hpayloads =>
    cases hresend
    cases hpayloads
    cases h
    simp only [List.append_assoc, List.nil_append, List.singleton_append]
    exact List.Sublist.refl _
  · cases h

end Writer

/-! ## Runs -/

section Run

variable {base64 : Base64} {fromSlice : Bytes → Option μ} {serializer : Serializer ω}
  {outbound next : Outbound ω}

/-- What holds of the server and its clients. -/
structure Kept (outbound : Outbound ω) : Prop where
  nextSeqId : ∀ key, outbound.state.nextSeqId key = saturatingSucc (outbound.numbered key)
  numbered : ∀ envelope ∈ outbound.produced, envelope.seqId ≤ outbound.numbered envelope.key
  queued : ∀ key, ∀ envelope ∈ outbound.state.outboundBuffer.queue key,
    envelope.key = key ∧ envelope ∈ outbound.produced
  ordered : ∀ key, (outbound.state.outboundBuffer.queue key).Pairwise CursorLt
  safe : ∀ envelope ∈ outbound.produced, envelope ∈ outbound.received ∨
    envelope ∈ outbound.state.outboundBuffer.queue envelope.key
  counted : outbound.state.outboundBuffer.Counted
  connected : ∀ connection ∈ outbound.connection,
    InOrder connection.all ∧ ∀ envelope ∈ connection.all, envelope ∈ outbound.produced
  acked : ∀ ack ∈ outbound.acks, outbound.MayAck ack

theorem kept_start : Kept ({} : Outbound ω) where
  nextSeqId _ := rfl
  numbered := nofun
  queued _ _ h := absurd h List.not_mem_nil
  ordered _ := .nil
  safe := nofun
  counted := rfl
  connected := nofun
  acked := nofun

/-- What is to be sent again on a new connection is in order: each stream as it
is buffered. -/
theorem Kept.connect (h : Kept outbound) {order : List (Σ _ : StreamKey, List (ServerEnvelope ω))}
    (hperm : order.Perm outbound.state.outboundBuffer.bufferByStream.entries) :
    Kept { outbound with connection := some { resend := order.flatMap (·.2) } } := by
  have hqueue : ∀ entry ∈ order,
      outbound.state.outboundBuffer.queue entry.1 = entry.2 := by
    intro entry hentry
    have hlookup : outbound.state.outboundBuffer.bufferByStream.lookup entry.1 = some entry.2 :=
      AList.mem_lookup_iff.2 (hperm.mem_iff.1 hentry)
    unfold BoundedOutboundBuffer.queue
    rw [hlookup]
    rfl
  have hkeys : order.Pairwise fun first second => first.1 ≠ second.1 := by
    have hnodup := outbound.state.outboundBuffer.bufferByStream.nodupKeys
    exact List.nodupKeys_iff_pairwise.1 ((List.perm_nodupKeys hperm).2 hnodup)
  refine { h with connected := ?_ }
  rintro connection ⟨⟩
  have hall : Connection.all ({ resend := order.flatMap (·.2) } : Connection ω) =
      order.flatMap (·.2) := List.append_nil _
  rw [hall]
  refine ⟨List.pairwise_flatMap.2 ⟨fun entry hentry => ?_, ?_⟩, fun envelope henvelope => ?_⟩
  · rw [← hqueue entry hentry]
    refine (h.ordered entry.1).imp ?_
    exact fun hlt _ => hlt
  · refine hkeys.imp_of_mem fun {first second} hfirst hsecond hne x hx y hy hxy => ?_
    rw [← hqueue first hfirst] at hx
    rw [← hqueue second hsecond] at hy
    exact absurd ((h.queued _ x hx).1.symm.trans (hxy.trans (h.queued _ y hy).1)) hne
  · obtain ⟨entry, hentry, hmem⟩ := List.mem_flatMap.1 henvelope
    rw [← hqueue entry hentry] at hmem
    exact (h.queued _ envelope hmem).2

variable {written : List (ServerEnvelope ω)}

theorem Kept.write (h : Kept outbound) {connection connection' : Connection ω}
    (hconnection : outbound.connection = some connection)
    (hwrite : connection.write serializer = some (connection', written)) :
    Kept { outbound with connection := some connection', sent := outbound.sent ++ written } := by
  refine { h with connected := ?_ }
  rintro _ ⟨⟩
  obtain ⟨hordered, hproduced⟩ := h.connected connection hconnection
  have hsublist := Connection.write_sublist hwrite
  exact ⟨hordered.sublist hsublist, fun envelope hmem => hproduced envelope (hsublist.subset hmem)⟩

theorem not_isAcked_of_lt {envelope : ServerEnvelope ω} {seqId : ℕ} {segmentId : Option ℕ}
    (h : seqId < envelope.seqId) : isAcked seqId segmentId envelope = false := by
  unfold isAcked
  rw [decide_eq_false (by omega), decide_eq_false (by omega)]
  rfl

/-- The envelopes of an event come behind all others of their stream. -/
theorem Kept.buffer (h : Kept outbound) {queued : QueuedServerEnvelope ω}
    {queue : List (QueuedServerEnvelope ω)}
    {result : WebsocketState ω × List (ServerEnvelope ω) × Bool}
    (hconnection : outbound.connection = some ⟨[], [], written⟩)
    (hbuffers : Buffers outbound.state queued result) (hnumbered : result.2.2 = true)
    (hfew : outbound.numbered (queued.clientId, queued.streamId) + 1 < 2 ^ 64) :
    Kept { outbound with
      state := result.1
      queue := queue
      connection := some ⟨[], result.2.1, written⟩
      produced := outbound.produced ++ result.2.1
      numbered := update outbound.numbered (queued.clientId, queued.streamId)
        (outbound.numbered (queued.clientId, queued.streamId) + 1) } := by
  obtain ⟨state', parts, isNumbered⟩ := result
  obtain ⟨⟨hsame, hincreasing⟩, hbuffer, -, hnext⟩ := hbuffers
  dsimp only at hsame hincreasing hbuffer hnext hnumbered ⊢
  generalize hkey : (queued.clientId, queued.streamId) = key at *
  have hseq : ∀ part ∈ parts, part.key = key ∧ part.seqId = outbound.numbered key + 1 := by
    intro part hpart
    obtain ⟨hpartKey, hpartSeq⟩ := hsame part hpart
    refine ⟨hpartKey.trans hkey, hpartSeq.trans ?_⟩
    rw [h.nextSeqId]
    exact min_eq_left (by omega)
  have hgrows : ∀ other, outbound.numbered other ≤
      update outbound.numbered key (outbound.numbered key + 1) other := by
    intro other
    by_cases hother : other = key
    · rw [hother, update_self]
      omega
    · rw [update_of_ne hother]
  obtain ⟨hcounted, hqueue⟩ :=
    BoundedOutboundBuffer.foldl_insert h.counted fun part hpart => (hseq part hpart).1
  rw [← hbuffer] at hcounted hqueue
  -- What was produced before has a smaller number than the parts.
  have hbehind : ∀ envelope ∈ outbound.produced, ∀ part ∈ parts, envelope.key = part.key →
      CursorLt envelope part := by
    intro envelope henvelope part hpart hsameKey
    have hle := h.numbered envelope henvelope
    rw [hsameKey, (hseq part hpart).1] at hle
    exact .inl (by rw [(hseq part hpart).2]; omega)
  refine ⟨fun other => ?_, fun envelope hmem => ?_, fun other envelope hmem => ?_, fun other => ?_,
    fun envelope hmem => ?_, hcounted, ?_, fun ack hack => ?_⟩
  · show state'.nextSeqId other = saturatingSucc (update outbound.numbered key _ other)
    rw [hnext other, h.nextSeqId]
    by_cases hother : other = key
    · rw [if_pos ⟨hnumbered, hother⟩, hother, update_self]
      congr 1
      exact min_eq_left (by omega)
    · rw [if_neg (fun hboth => hother hboth.2), update_of_ne hother]
  · show envelope.seqId ≤ update outbound.numbered key _ envelope.key
    rcases List.mem_append.1 hmem with hold | hpart
    · exact (h.numbered envelope hold).trans (hgrows envelope.key)
    · rw [(hseq envelope hpart).1, (hseq envelope hpart).2, update_self]
  · change envelope ∈ state'.outboundBuffer.queue other at hmem
    rw [hqueue, List.mem_append] at hmem
    rcases hmem with hold | hnew
    · obtain ⟨hown, hproduced⟩ := h.queued other envelope hold
      exact ⟨hown, List.mem_append_left _ hproduced⟩
    · split at hnew
      · next hother =>
        exact ⟨(hseq envelope hnew).1.trans hother.symm, List.mem_append_right _ hnew⟩
      · exact absurd hnew List.not_mem_nil
  · show (state'.outboundBuffer.queue other).Pairwise CursorLt
    rw [hqueue]
    refine List.pairwise_append.2 ⟨h.ordered other, ?_, fun envelope henvelope part hpart => ?_⟩
    · split
      · exact hincreasing
      · exact .nil
    · split at hpart
      · next hother =>
        obtain ⟨hown, hproduced⟩ := h.queued other envelope henvelope
        exact hbehind envelope hproduced part hpart
          (hown.trans (hother.trans (hseq part hpart).1.symm))
      · exact absurd hpart List.not_mem_nil
  · show envelope ∈ outbound.received ∨ envelope ∈ state'.outboundBuffer.queue envelope.key
    rw [hqueue, List.mem_append]
    rcases List.mem_append.1 hmem with hold | hpart
    · exact (h.safe envelope hold).imp id .inl
    · rw [if_pos (hseq envelope hpart).1]
      exact .inr (.inr hpart)
  · rintro connection ⟨⟩
    obtain ⟨hordered, hproduced⟩ := h.connected _ hconnection
    have hwritten : Connection.all (⟨[], [], written⟩ : Connection ω) = written := by
      unfold Connection.all
      rw [List.append_nil, List.append_nil]
    have hall : Connection.all (⟨[], parts, written⟩ : Connection ω) = written ++ parts := by
      unfold Connection.all
      rw [List.append_nil]
    rw [hwritten] at hordered hproduced
    rw [hall]
    refine ⟨List.pairwise_append.2 ⟨hordered, ?_, fun envelope henvelope part hpart => ?_⟩,
      fun envelope hmem => ?_⟩
    · refine hincreasing.imp ?_
      exact fun hlt _ => hlt
    · exact hbehind envelope (hproduced envelope henvelope) part hpart
    · rcases List.mem_append.1 hmem with hold | hpart
      · exact List.mem_append_left _ (hproduced envelope hold)
      · exact List.mem_append_right _ hpart
  · obtain ⟨hnumber, hreceived⟩ := h.acked ack hack
    refine ⟨hnumber.trans (hgrows ack.key), fun envelope hmem hown hacked => ?_⟩
    rcases List.mem_append.1 hmem with hold | hpart
    · exact hreceived envelope hold hown hacked
    · -- The new number is behind every cursor that a client has.
      have hlt : ack.seqId < envelope.seqId := by
        rw [(hseq envelope hpart).2, ← (hseq envelope hpart).1, hown]
        omega
      rw [not_isAcked_of_lt hlt] at hacked
      cases hacked

theorem Kept.withState (h : Kept outbound) {state : WebsocketState ω}
    (hbuffer : state.outboundBuffer = outbound.state.outboundBuffer)
    (hnext : ∀ key, state.nextSeqId key = outbound.state.nextSeqId key) :
    Kept { outbound with state := state } := by
  obtain ⟨hnextSeqId, hnumbered, hqueued, hordered, hsafe, hcounted, hconnected, hacked⟩ := h
  rw [← hbuffer] at hqueued hordered hsafe hcounted
  exact ⟨fun key => (hnext key).trans (hnextSeqId key), hnumbered, hqueued, hordered, hsafe,
    hcounted, hconnected, hacked⟩

/-- What an acknowledgement takes out of the buffer was received. -/
theorem Kept.acknowledge (h : Kept outbound) {ack : AckCursor} (hack : ack ∈ outbound.acks)
    {state : WebsocketState ω}
    (hbuffer : state.outboundBuffer = outbound.state.outboundBuffer.acknowledge (some ack))
    (hnext : ∀ key, state.nextSeqId key = outbound.state.nextSeqId key) :
    Kept { outbound with state := state } := by
  have hqueue : ∀ key, state.outboundBuffer.queue key = if key = ack.key then
      (outbound.state.outboundBuffer.queue key).filter fun envelope =>
        !isAcked ack.seqId ack.segmentId envelope
      else outbound.state.outboundBuffer.queue key := by
    intro key
    rw [hbuffer]
    exact BoundedOutboundBuffer.queue_ack _ ack.clientId ack.streamId ack.seqId ack.segmentId key
  have hsublist : ∀ key, (state.outboundBuffer.queue key).Sublist
      (outbound.state.outboundBuffer.queue key) := by
    intro key
    rw [hqueue]
    split
    · exact List.filter_sublist
    · exact List.Sublist.refl _
  refine { h with
    nextSeqId := fun key => ?_
    queued := fun key envelope hmem => h.queued key envelope ((hsublist key).subset hmem)
    ordered := fun key => (h.ordered key).sublist (hsublist key)
    safe := fun envelope hmem => ?_
    counted := ?_ }
  · exact (hnext key).trans (h.nextSeqId key)
  · show envelope ∈ outbound.received ∨ envelope ∈ state.outboundBuffer.queue envelope.key
    rcases h.safe envelope hmem with hreceived | hqueued
    · exact .inl hreceived
    rw [hqueue]
    split
    · next hown =>
      cases hacked : isAcked ack.seqId ack.segmentId envelope with
      | true => exact .inl ((h.acked ack hack).2 envelope hmem hown hacked)
      | false =>
        refine .inr (List.mem_filter.2 ⟨hqueued, ?_⟩)
        rw [hacked]
        rfl
    · exact .inr hqueued
  · show state.outboundBuffer.Counted
    rw [hbuffer]
    exact h.counted.ack ack.clientId ack.streamId ack.seqId ack.segmentId

variable [DecidableEq ω]

/-- One step, as long as the numbers of the streams do not run out. -/
theorem Kept.step {action : OutboundAction μ ω} (h : Kept outbound)
    (hstep : outbound.step base64 fromSlice serializer action = some next)
    (hfew : ∀ key, next.numbered key < 2 ^ 64) : Kept next := by
  cases action with
  | enqueue queued =>
    cases hstep
    exact { h with }
  | connect order =>
    obtain ⟨⟨-, hperm⟩, heq⟩ := Option.ite_none_right_eq_some.1 hstep
    cases heq
    exact h.connect hperm
  | write =>
    obtain ⟨connection, hconnection, hstep⟩ := Option.bind_eq_some_iff.1 hstep
    obtain ⟨⟨connection', written⟩, hwrite, heq⟩ := Option.bind_eq_some_iff.1 hstep
    cases heq
    exact h.write hconnection hwrite
  | buffer =>
    simp only [Outbound.step] at hstep
    split at hstep
    · next written queued queue hconnection hqueue =>
      obtain ⟨-, heq⟩ := Option.ite_none_right_eq_some.1 hstep
      have hbuffers := buffers_bufferEvent base64 serializer outbound.state queued
      generalize outbound.state.bufferEvent base64 serializer queued = result at heq hbuffers
      cases heq
      cases hnumbered : result.2.2 with
      | true =>
        have hlt := hfew (queued.clientId, queued.streamId)
        rw [hnumbered] at hlt
        change update outbound.numbered (queued.clientId, queued.streamId) _
          (queued.clientId, queued.streamId) < 2 ^ 64 at hlt
        rw [update_self] at hlt
        exact h.buffer hconnection hbuffers hnumbered hlt
      | false =>
        -- The event is dropped, and its stream keeps its number.
        have hnothing := hbuffers.nothing hnumbered
        have hbuffer := hbuffers.buffer
        rw [hnothing] at hbuffer
        have hnext : ∀ key, result.1.nextSeqId key = outbound.state.nextSeqId key := by
          intro key
          rw [hbuffers.next key, hnumbered, if_neg (fun hboth => Bool.false_ne_true hboth.1)]
        rw [hnothing, List.append_nil]
        refine { h.withState hbuffer hnext with connected := ?_ }
        rintro connection ⟨⟩
        exact h.connected _ hconnection
    · cases hstep
  | lose =>
    obtain ⟨-, heq⟩ := Option.ite_none_right_eq_some.1 hstep
    cases heq
    exact { h with connected := nofun }
  | deliver envelope =>
    obtain ⟨-, heq⟩ := Option.ite_none_right_eq_some.1 hstep
    cases heq
    refine { h with safe := fun e hmem => ?_, acked := fun ack hack => ?_ }
    · exact (h.safe e hmem).imp (fun hreceived => List.mem_append_left _ hreceived) id
    · obtain ⟨hnumber, hreceived⟩ := h.acked ack hack
      exact ⟨hnumber, fun e hmem hown hacked =>
        List.mem_append_left _ (hreceived e hmem hown hacked)⟩
  | sendAck ack =>
    obtain ⟨hmay, heq⟩ := Option.ite_none_right_eq_some.1 hstep
    cases heq
    refine { h with acked := fun other hother => ?_ }
    rcases List.mem_append.1 hother with hold | hnew
    · exact h.acked other hold
    · rw [List.mem_singleton.1 hnew]
      exact hmay
  | inbound clientEnvelope wireSizeBytes now =>
    obtain ⟨hacks, heq⟩ := Option.ite_none_right_eq_some.1 hstep
    cases heq
    obtain ⟨hbuffer, hnext⟩ :=
      receive_keeps base64 fromSlice now outbound.state clientEnvelope wireSizeBytes
    have hnumbers : ∀ key, (outbound.state.receive base64 fromSlice now clientEnvelope
        wireSizeBytes).1.nextSeqId key = outbound.state.nextSeqId key := by
      intro key
      unfold WebsocketState.nextSeqId
      rw [hnext]
    cases hack : ackOf clientEnvelope with
    | none =>
      rw [hack] at hbuffer
      exact h.withState (hbuffer.elim id id) hnumbers
    | some ack =>
      rw [hack] at hbuffer
      rcases hbuffer with hsame | hacknowledged
      · exact h.withState hsame hnumbers
      · exact h.acknowledge (hacks ack hack) hacknowledged hnumbers

theorem numbered_le_of_step {action : OutboundAction μ ω}
    (hstep : outbound.step base64 fromSlice serializer action = some next) (key : StreamKey) :
    outbound.numbered key ≤ next.numbered key := by
  cases action with
  | enqueue queued =>
    cases hstep
    exact le_rfl
  | connect order | lose | deliver envelope | sendAck ack
  | inbound clientEnvelope wireSizeBytes now =>
    cases (Option.ite_none_right_eq_some.1 hstep).2
    exact le_rfl
  | write =>
    obtain ⟨connection, -, hstep⟩ := Option.bind_eq_some_iff.1 hstep
    obtain ⟨⟨connection', written⟩, -, heq⟩ := Option.bind_eq_some_iff.1 hstep
    cases heq
    exact le_rfl
  | buffer =>
    simp only [Outbound.step] at hstep
    split at hstep
    · next written queued queue _ _ =>
      cases (Option.ite_none_right_eq_some.1 hstep).2
      dsimp only
      split
      · by_cases hkey : key = (queued.clientId, queued.streamId)
        · rw [hkey, update_self]
          omega
        · rw [update_of_ne hkey]
      · exact le_rfl
    · cases hstep

/-- **No envelope is lost.** In every run with fewer than 2^64 events for a
stream: an envelope that was produced is received or buffered, the envelopes that
were written on the connection are in the order of their cursors for each stream,
the count is the number of the buffered envelopes, and an acknowledgement leaves
the queues of all other streams alone. -/
theorem envelopes_received_or_buffered (base64 : Base64) (fromSlice : Bytes → Option μ)
    (serializer : Serializer ω) (actions : List (OutboundAction μ ω)) {outbound : Outbound ω}
    (hrun : Machine.run (Outbound.step base64 fromSlice serializer) {} actions = some outbound)
    (hfew : ∀ key, outbound.numbered key < 2 ^ 64) :
    let buffer := outbound.state.outboundBuffer
    (∀ envelope ∈ outbound.produced,
      envelope ∈ outbound.received ∨ envelope ∈ buffer.serverEnvelopes) ∧
    (∀ connection ∈ outbound.connection, InOrder connection.written) ∧
    buffer.used = buffer.serverEnvelopes.length ∧
    ∀ clientId streamId seqId segmentId key, key ≠ (clientId, streamId) →
      (buffer.ack clientId streamId seqId segmentId).queue key = buffer.queue key := by
  -- The numbers only grow, so they do not run out before the end either.
  have hkeeps : ∀ (before : Outbound ω) (action : OutboundAction μ ω) (after : Outbound ω),
      ((∀ key, before.numbered key < 2 ^ 64) → Kept before) →
      before.step base64 fromSlice serializer action = some after →
      (∀ key, after.numbered key < 2 ^ 64) → Kept after := by
    intro before action after hbefore hstep hafter
    refine (hbefore fun key => ?_).step hstep hafter
    exact lt_of_le_of_lt (numbered_le_of_step hstep key) (hafter key)
  obtain ⟨-, -, -, -, hsafe, hcounted, hconnected, -⟩ :=
    Machine.run_invariant hkeeps (fun _ => kept_start) hrun hfew
  refine ⟨fun envelope hmem => ?_, fun connection hconnection => ?_, hcounted,
    fun clientId streamId seqId segmentId key hkey => ?_⟩
  · exact (hsafe envelope hmem).imp id BoundedOutboundBuffer.mem_serverEnvelopes
  · have hsublist : connection.written.Sublist connection.all := by
      unfold Connection.all
      rw [List.append_assoc]
      exact List.sublist_append_left _ _
    exact (hconnected connection hconnection).1.sublist hsublist
  · rw [BoundedOutboundBuffer.queue_ack, if_neg hkey]

end Run

/-! ## A connection that is lost -/

/-- Texts are their own bytes. -/
def plainSerializer : Serializer Str where
  toVec message := some (message.map fun c => UInt8.ofNat c.toNat)
  toString envelope := some (Nat.repr envelope.seqId).toList
  serializedLen _ := some 100

def hello : ServerEnvelope Str := ⟨.serverMessage "hello".toList, "c".toList, "s".toList, 1⟩

/-- The connection is lost before the envelope is written. It is sent again, and
acknowledged. -/
def sentAgain : List (OutboundAction Str Str) :=
  [.enqueue ⟨.serverMessage "hello".toList, "c".toList, "s".toList⟩, .connect [], .buffer, .lose,
    .connect [⟨("c".toList, "s".toList), [hello]⟩], .write, .deliver hello,
    .sendAck ⟨"c".toList, "s".toList, 1, none⟩,
    .inbound ⟨.ack none, "c".toList, some "s".toList, some 1, none⟩ 50 0]

theorem envelopes_received_or_buffered_again :
    ∃ outbound, Machine.run (Outbound.step Base64.standard (fun _ => none) plainSerializer) {}
        sentAgain = some outbound ∧
      ∀ envelope ∈ outbound.produced, envelope ∈ outbound.received ∨
        envelope ∈ outbound.state.outboundBuffer.serverEnvelopes := by
  refine ⟨_, rfl, (envelopes_received_or_buffered Base64.standard (fun _ => none) plainSerializer
    sentAgain rfl fun key => ?_).1⟩
  show update (fun _ => 0) ("c".toList, "s".toList) 1 key < 2 ^ 64
  by_cases hkey : key = ("c".toList, "s".toList)
  · rw [hkey, update_self]
    decide
  · rw [update_of_ne hkey]
    decide

end Codex.RemoteControl
