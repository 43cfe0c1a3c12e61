import Codex.Base.EState
import Codex.NoiseRelay.MessageFraming

/-!
# A relay stream

`exec-server/src/noise_relay/executor_stream.rs`: the writer frames each
message, cuts it into records, numbers and encrypts them; the reader reorders,
decrypts and decodes. The Noise cipher is a parameter: what is opened with the
nonce it was sealed with is read back. The queues around a stream are unbounded
here.
-/

namespace Codex.NoiseRelay

open List

/-- `AesGcm::tag_len`. -/
def tagLen : ℕ := 16

/-- `clatter::constants::MAX_MESSAGE_LEN`. -/
def maxMessageLen : ℕ := 65535

/-- A Noise cipher under one key, by nonce. -/
structure Cipher where
  sendVec : ℕ → Bytes → Bytes
  receiveVec : ℕ → Bytes → Option Bytes
  length_sendVec : ∀ nonce plaintext, (sendVec nonce plaintext).length = plaintext.length + tagLen
  receiveVec_sendVec : ∀ nonce plaintext, receiveVec nonce (sendVec nonce plaintext) = some plaintext

/-- `RelayData`: a record with its sequence number. -/
structure RelayData where
  seq : ℕ
  payload : Bytes
  deriving DecidableEq

section Writer

/-- The sending half: the next sequence number, the implicit send nonce, and the
records that went out. -/
structure Writer where
  nextSeq : ℕ := 0
  sendNonce : ℕ := 0
  sent : List RelayData := []
  deriving DecidableEq

def takeNextSequence : EStateM RelayError Writer ℕ := do
  let writer ← get
  if writer.nextSeq < u32Max then
    set { writer with nextSeq := writer.nextSeq + 1 }
    pure writer.nextSeq
  else throw .sequenceNumberExhausted

variable (cipher : Cipher)

/-- `NoiseTransport::encrypt`. -/
def encrypt (plaintext : Bytes) : EStateM RelayError Writer Bytes := do
  if maxMessageLen < plaintext.length + tagLen then throw .invalidTransportMessage
  else
    let writer ← get
    set { writer with sendNonce := writer.sendNonce + 1 }
    pure (cipher.sendVec writer.sendNonce plaintext)

def sendRecord (plaintextRecord : Bytes) : EStateM RelayError Writer Unit := do
  let seq ← takeNextSequence
  let ciphertext ← encrypt cipher plaintextRecord
  modify fun writer => { writer with sent := writer.sent ++ [⟨seq, ciphertext⟩] }

def sendRecords : List Bytes → EStateM RelayError Writer Unit
  | [] => pure ()
  | record :: records => do
    sendRecord cipher record
    sendRecords records

variable {μ : Type} (codec : SerdeJson μ)

def sendMessage (message : μ) : EStateM RelayError Writer Unit := do
  let framed ← ofExcept (frameJsonrpcMessage codec message)
  sendRecords cipher (chunks noiseRecordPlaintextLen framed)

/-- The writer task: it stops at the first failure. -/
def writeMessages : List μ → EStateM RelayError Writer Unit
  | [] => pure ()
  | message :: messages => do
    sendMessage cipher codec message
    writeMessages messages

end Writer

section Reader

variable {μ : Type} (codec : SerdeJson μ) (cipher : Cipher)

/-- `NoiseVirtualStream`, with the messages it has queued. -/
structure VirtualStream (μ : Type) where
  inboundCiphertexts : OrderedCiphertextFrames := {}
  receiveNonce : ℕ := 0
  inboundDecoder : Bytes := []
  incoming : List μ := []

/-- `NoiseTransport::decrypt`. -/
def decrypt (nonce : ℕ) (ciphertext : Bytes) : Except RelayError Bytes :=
  if ciphertext.length < tagLen ∨ maxMessageLen < ciphertext.length then
    .error .invalidTransportMessage
  else
    match cipher.receiveVec nonce ciphertext with
    | none => .error .invalidTransportMessage
    | some plaintext => .ok plaintext

/-- The body of the loop of `receive_data`. -/
def receiveCiphertext (stream : VirtualStream μ) (ciphertext : Bytes) :
    Except RelayError (VirtualStream μ) := do
  let plaintext ← decrypt cipher stream.receiveNonce ciphertext
  let (messages, buffered) ← decoderPush codec stream.inboundDecoder plaintext
  .ok { stream with
    receiveNonce := stream.receiveNonce + 1
    inboundDecoder := buffered
    incoming := stream.incoming ++ messages }

def receiveData (stream : VirtualStream μ) (data : RelayData) :
    Except RelayError (VirtualStream μ) := do
  let (frames, ready) ← stream.inboundCiphertexts.push data.seq data.payload
  ready.foldlM (receiveCiphertext codec cipher) { stream with inboundCiphertexts := frames }

def receiveAll (stream : VirtualStream μ) (deliveries : List RelayData) :
    Except RelayError (VirtualStream μ) :=
  deliveries.foldlM (receiveData codec cipher) stream

end Reader

/-! ## What is sent -/

section Sent

variable {cipher : Cipher} {past records more : List Bytes} {writer : Writer}

/-- The records as they go out: numbered from zero, each sealed with its number
as nonce. -/
def sealed (cipher : Cipher) (records : List Bytes) : List RelayData :=
  records.mapIdx fun i record => ⟨i, cipher.sendVec i record⟩

/-- The writer has sent `records`. -/
structure Sent (cipher : Cipher) (records : List Bytes) (writer : Writer) : Prop where
  nextSeq_eq : writer.nextSeq = records.length
  sendNonce_eq : writer.sendNonce = records.length
  sent_eq : writer.sent = sealed cipher records
  length_le : records.length ≤ u32Max

theorem sent_default (cipher : Cipher) : Sent cipher [] {} := ⟨rfl, rfl, rfl, Nat.zero_le _⟩

/-- The computation sends `records`, or a prefix of them when the sequence
numbers run out. -/
def Emits (cipher : Cipher) (x : EStateM RelayError Writer Unit) (records : List Bytes) : Prop :=
  ∀ past writer, Sent cipher past writer →
    (∃ writer', Returns x writer () writer' ∧ Sent cipher (past ++ records) writer') ∨
    (u32Max < past.length + records.length ∧ ∃ error writer' before,
      x writer = .error error writer' ∧ before <+: records ∧ Sent cipher (past ++ before) writer')

theorem emits_nil (cipher : Cipher) : Emits cipher (pure ()) [] := by
  intro past writer h
  refine .inl ⟨writer, returns_pure.2 ⟨rfl, rfl⟩, ?_⟩
  rwa [append_nil]

theorem Emits.seq {x y : EStateM RelayError Writer Unit} (hx : Emits cipher x records)
    (hy : Emits cipher y more) : Emits cipher (x >>= fun _ => y) (records ++ more) := by
  intro past writer h
  rcases hx past writer h with ⟨writer', hret, hsent⟩ | ⟨hover, error, writer', before, herr, hpre, hsent⟩
  · rcases hy _ writer' hsent with
      ⟨writer'', hret', hsent'⟩ | ⟨hover, error, writer'', before, herr, hpre, hsent'⟩
    · refine .inl ⟨writer'', returns_bind.2 ⟨_, _, hret, hret'⟩, ?_⟩
      rwa [← List.append_assoc]
    · refine .inr ⟨?_, error, writer'', records ++ before, ?_, ?_, ?_⟩
      · rw [length_append] at hover ⊢
        omega
      · show EStateM.bind x _ writer = _
        unfold EStateM.bind
        rw [hret]
        exact herr
      · exact (prefix_append_right_inj records).2 hpre
      · rwa [← List.append_assoc]
  · refine .inr ⟨?_, error, writer', before, ?_, hpre.trans (prefix_append _ _), hsent⟩
    · rw [length_append]
      omega
    · show EStateM.bind x _ writer = _
      unfold EStateM.bind
      rw [herr]

theorem takeNextSequence_run (writer : Writer) :
    takeNextSequence writer =
      if writer.nextSeq < u32Max then
        .ok writer.nextSeq { writer with nextSeq := writer.nextSeq + 1 }
      else .error .sequenceNumberExhausted writer := by
  show (if writer.nextSeq < u32Max then _ else _ : EStateM RelayError Writer ℕ) writer = _
  split
  · rfl
  · rfl

theorem encrypt_run (cipher : Cipher) (writer : Writer) {plaintext : Bytes}
    (hfits : ¬maxMessageLen < plaintext.length + tagLen) :
    encrypt cipher plaintext writer =
      .ok (cipher.sendVec writer.sendNonce plaintext)
        { writer with sendNonce := writer.sendNonce + 1 } := by
  unfold encrypt
  rw [if_neg hfits]
  rfl

/-- One record takes one sequence number and one nonce. -/
theorem emits_record {record : Bytes} (hlen : record.length ≤ noiseRecordPlaintextLen) :
    Emits cipher (sendRecord cipher record) [record] := by
  intro past writer h
  have hfits : ¬maxMessageLen < record.length + tagLen := by
    have : noiseRecordPlaintextLen + tagLen ≤ maxMessageLen := by decide
    omega
  by_cases hseq : writer.nextSeq < u32Max
  · refine .inl ⟨{ nextSeq := writer.nextSeq + 1
                   sendNonce := writer.sendNonce + 1
                   sent := writer.sent ++ [⟨writer.nextSeq, cipher.sendVec writer.sendNonce record⟩] },
      ?_, ?_⟩
    · show EStateM.bind takeNextSequence _ writer = _
      unfold EStateM.bind
      rw [takeNextSequence_run, if_pos hseq]
      show EStateM.bind (encrypt cipher record) _ _ = _
      unfold EStateM.bind
      rw [encrypt_run cipher _ hfits]
      rfl
    · refine ⟨?_, ?_, ?_, ?_⟩
      · rw [length_append, ← h.nextSeq_eq]
        rfl
      · rw [length_append, ← h.sendNonce_eq]
        rfl
      · rw [h.sent_eq, h.nextSeq_eq, h.sendNonce_eq, sealed, sealed, mapIdx_concat]
      · rw [length_append, ← h.nextSeq_eq]
        exact hseq
  · refine .inr ⟨?_, .sequenceNumberExhausted, writer, [], ?_, nil_prefix, ?_⟩
    · rw [← h.nextSeq_eq, length_singleton]
      omega
    · show EStateM.bind takeNextSequence _ writer = _
      unfold EStateM.bind
      rw [takeNextSequence_run, if_neg hseq]
    · rwa [append_nil]

theorem emits_records {records : List Bytes}
    (hlen : ∀ record ∈ records, record.length ≤ noiseRecordPlaintextLen) :
    Emits cipher (sendRecords cipher records) records := by
  induction records with
  | nil => exact emits_nil cipher
  | cons record records ih =>
    exact (emits_record (hlen record mem_cons_self)).seq
      (ih fun r hr => hlen r (mem_cons_of_mem _ hr))

variable {μ : Type} {codec : SerdeJson μ} {messages : List μ}

/-- The records of the messages, in order. -/
def recordsOf (codec : SerdeJson μ) (messages : List μ) : List Bytes :=
  messages.flatMap fun message => chunks noiseRecordPlaintextLen (framed codec message)

theorem flatten_recordsOf (codec : SerdeJson μ) (messages : List μ) :
    (recordsOf codec messages).flatten = messages.flatMap (framed codec) := by
  induction messages with
  | nil => rfl
  | cons message messages ih =>
    rw [flatMap_cons, ← ih]
    show (chunks noiseRecordPlaintextLen (framed codec message) ++
      recordsOf codec messages).flatten = _
    rw [flatten_append, flatten_chunks (by decide)]

theorem length_le_of_mem_recordsOf {record : Bytes} (h : record ∈ recordsOf codec messages) :
    record.length ≤ noiseRecordPlaintextLen := by
  obtain ⟨message, -, hmem⟩ := mem_flatMap.1 h
  exact length_le_of_mem_chunks hmem

theorem emits_messages (hsend : ∀ message ∈ messages, Sendable codec message) :
    Emits cipher (writeMessages cipher codec messages) (recordsOf codec messages) := by
  induction messages with
  | nil => exact emits_nil cipher
  | cons message messages ih =>
    have hmessage : Emits cipher (sendMessage cipher codec message)
        (chunks noiseRecordPlaintextLen (framed codec message)) := by
      unfold sendMessage
      rw [(hsend message mem_cons_self).frame_eq]
      exact emits_records fun record hrecord => length_le_of_mem_chunks hrecord
    exact hmessage.seq (ih fun m hm => hsend m (mem_cons_of_mem _ hm))

/-- What the writer task has sent when it ends. -/
theorem writeMessages_sent (cipher : Cipher)
    (hsend : ∀ message ∈ messages, Sendable codec message) :
    ∃ records, records <+: recordsOf codec messages ∧
      Sent cipher records (leaves (writeMessages cipher codec messages) {}) ∧
      ((recordsOf codec messages).length ≤ u32Max → records = recordsOf codec messages) := by
  rcases emits_messages hsend [] {} (sent_default cipher) with
    ⟨writer, hret, hsent⟩ | ⟨hover, error, writer, before, herr, hpre, hsent⟩
  · refine ⟨_, prefix_rfl, ?_, fun _ => rfl⟩
    rw [hret.leaves_eq]
    exact hsent
  · refine ⟨before, hpre, ?_, fun hle => ?_⟩
    · unfold leaves
      rw [herr]
      exact hsent
    · rw [length_nil, Nat.zero_add] at hover
      omega

end Sent

/-! ## What is received -/

section Received

variable {μ : Type} {codec : SerdeJson μ} {cipher : Cipher} {messages : List μ}
  {records : List Bytes} {unsent : Bytes} {stream : VirtualStream μ} {n : ℕ}
  {arrived : Finset ℕ} {data : RelayData}

/-- The payload that was sent with a sequence number. -/
def payloadAt (sent : List RelayData) (seq : ℕ) : Bytes :=
  match sent[seq]? with
  | some data => data.payload
  | none => []

theorem payloadAt_sealed (cipher : Cipher) (h : n < records.length) :
    payloadAt (sealed cipher records) n = cipher.sendVec n records[n] := by
  have hget : (sealed cipher records)[n]? = some ⟨n, cipher.sendVec n records[n]⟩ := by
    rw [sealed, getElem?_mapIdx, getElem?_eq_getElem h]
    rfl
  rw [payloadAt, hget]

/-- Each record goes out under its own number. -/
theorem eq_of_mem_sealed {data : RelayData} (h : data ∈ sealed cipher records) :
    data.seq < records.length ∧ data.payload = payloadAt (sealed cipher records) data.seq := by
  obtain ⟨i, hi, rfl⟩ := mem_mapIdx.1 h
  exact ⟨hi, (payloadAt_sealed cipher hi).symm⟩

/-- The reader has decoded the first `n` of the records, which with the bytes in
`unsent` carry `messages`. -/
structure Decoded (codec : SerdeJson μ) (messages : List μ) (records : List Bytes)
    (unsent : Bytes) (n : ℕ) (stream : VirtualStream μ) : Prop where
  receiveNonce_eq : stream.receiveNonce = n
  decodes : ∃ waiting, messages = stream.incoming ++ waiting ∧
    Waits codec waiting stream.inboundDecoder ((records.drop n).flatten ++ unsent)

/-- One record that is next in order is decrypted and decoded. -/
theorem receiveCiphertext_spec (hsend : ∀ message ∈ messages, Sendable codec message)
    (hn : n < records.length) (hlen : records[n].length ≤ noiseRecordPlaintextLen)
    (h : Decoded codec messages records unsent n stream) :
    ∃ stream', receiveCiphertext codec cipher stream (cipher.sendVec n records[n]) = .ok stream' ∧
      Decoded codec messages records unsent (n + 1) stream' ∧
      stream'.inboundCiphertexts = stream.inboundCiphertexts := by
  obtain ⟨waiting, hmessages, hwaits⟩ := h.decodes
  rw [drop_eq_getElem_cons hn, flatten_cons, List.append_assoc] at hwaits
  obtain ⟨complete, waiting', buffered, rfl, hpush, hwaits'⟩ :=
    decoderPush_spec (fun m hm => hsend m (hmessages ▸ mem_append_right _ hm)) hlen hwaits
  have hdecrypt : decrypt cipher stream.receiveNonce (cipher.sendVec n records[n]) =
      .ok records[n] := by
    have hfits : noiseRecordPlaintextLen + tagLen ≤ maxMessageLen := by decide
    rw [decrypt, cipher.length_sendVec, if_neg (by omega), h.receiveNonce_eq,
      cipher.receiveVec_sendVec]
  refine ⟨{ stream with
    receiveNonce := stream.receiveNonce + 1
    inboundDecoder := buffered
    incoming := stream.incoming ++ complete }, ?_, ⟨?_, waiting', ?_, hwaits'⟩, rfl⟩
  · rw [receiveCiphertext, hdecrypt, ok_bind, hpush]
    rfl
  · show stream.receiveNonce + 1 = _
    rw [h.receiveNonce_eq]
  · rw [hmessages, List.append_assoc]

/-- The records that one delivery releases. -/
theorem receiveReady_spec (hsend : ∀ message ∈ messages, Sendable codec message)
    (hlen : ∀ record ∈ records, record.length ≤ noiseRecordPlaintextLen) (count : ℕ) :
    ∀ {n : ℕ} {stream : VirtualStream μ}, n + count ≤ records.length →
      Decoded codec messages records unsent n stream →
      ∃ stream',
        ((List.range' n count).map (payloadAt (sealed cipher records))).foldlM
          (receiveCiphertext codec cipher) stream = .ok stream' ∧
        Decoded codec messages records unsent (n + count) stream' ∧
        stream'.inboundCiphertexts = stream.inboundCiphertexts := by
  induction count with
  | zero => exact fun _ h => ⟨_, rfl, h, rfl⟩
  | succ count ih =>
    intro n stream hle h
    have hn : n < records.length := by omega
    obtain ⟨next, hnext, hdecoded, hframes⟩ :=
      receiveCiphertext_spec hsend hn (hlen _ (getElem_mem hn)) h
    obtain ⟨stream', hfold, hdecoded', hframes'⟩ := ih (by omega) hdecoded
    refine ⟨stream', ?_, ?_, hframes'.trans hframes⟩
    · rw [range'_succ, map_cons, foldlM_cons, payloadAt_sealed cipher hn, hnext,
        ok_bind]
      exact hfold
    · rwa [Nat.add_assoc, Nat.add_comm 1 count] at hdecoded'

/-- The reader after the records `arrived`. -/
structure Received (codec : SerdeJson μ) (cipher : Cipher) (messages : List μ)
    (records : List Bytes) (unsent : Bytes) (arrived : Finset ℕ) (stream : VirtualStream μ) :
    Prop where
  arrived_lt : ∀ i ∈ arrived, i < records.length
  holds : OrderedCiphertextFrames.Holds (payloadAt (sealed cipher records)) arrived
    (frontier arrived) stream.inboundCiphertexts
  decoded : Decoded codec messages records unsent (frontier arrived) stream

theorem received_default (cipher : Cipher)
    (hstream : records.flatten ++ unsent = messages.flatMap (framed codec)) :
    Received codec cipher messages records unsent ∅ {} where
  arrived_lt i h := absurd h (Finset.notMem_empty i)
  holds := by
    rw [frontier_empty]
    exact OrderedCiphertextFrames.holds_default _
  decoded := by
    refine ⟨frontier_empty.symm, messages, rfl, ?_⟩
    rw [frontier_empty, drop_zero, hstream]
    exact waits_nil codec messages

/-- One delivery within the bounds. -/
theorem Received.receiveData (h : Received codec cipher messages records unsent arrived stream)
    (hsend : ∀ message ∈ messages, Sendable codec message)
    (hlen : ∀ record ∈ records, record.length ≤ noiseRecordPlaintextLen)
    (hmax : records.length ≤ u32Max) (hdata : data ∈ sealed cipher records)
    (hwithin : OrderedCiphertextFrames.Within (payloadAt (sealed cipher records)) arrived
      data.seq) :
    ∃ stream', receiveData codec cipher stream data = .ok stream' ∧
      Received codec cipher messages records unsent (insert data.seq arrived) stream' := by
  obtain ⟨hseq, hpayload⟩ := eq_of_mem_sealed hdata
  have harrived : ∀ i ∈ insert data.seq arrived, i < records.length := by
    intro i hi
    rcases Finset.mem_insert.1 hi with rfl | hi
    · exact hseq
    · exact h.arrived_lt i hi
  obtain ⟨frames, hpush, hholds⟩ :=
    OrderedCiphertextFrames.push_eq h.holds hwithin harrived hmax
  have hfrontier := frontier_le_insert data.seq arrived
  have hend := frontier_le_of_lt harrived
  have hdecoded : Decoded codec messages records unsent (frontier arrived)
      { stream with inboundCiphertexts := frames } := ⟨h.decoded.1, h.decoded.2⟩
  obtain ⟨stream', hfold, hdecoded', hframes⟩ := receiveReady_spec hsend hlen
    (frontier (insert data.seq arrived) - frontier arrived) (by omega) hdecoded
  refine ⟨stream', ?_, harrived, ?_, ?_⟩
  · rw [NoiseRelay.receiveData, hpayload, hpush, ok_bind]
    exact hfold
  · rw [hframes]
    exact hholds
  · rwa [Nat.add_sub_cancel' hfrontier] at hdecoded'

/-- Every delivery stays within the reorder window and the byte bound. -/
def AllWithin (payload : ℕ → Bytes) : Finset ℕ → List ℕ → Prop
  | _, [] => True
  | arrived, seq :: seqs =>
    OrderedCiphertextFrames.Within payload arrived seq ∧ AllWithin payload (insert seq arrived) seqs

theorem Received.receiveAll (hsend : ∀ message ∈ messages, Sendable codec message)
    (hlen : ∀ record ∈ records, record.length ≤ noiseRecordPlaintextLen)
    (hmax : records.length ≤ u32Max) :
    ∀ {deliveries : List RelayData} {arrived stream},
      Received codec cipher messages records unsent arrived stream →
      (∀ data ∈ deliveries, data ∈ sealed cipher records) →
      AllWithin (payloadAt (sealed cipher records)) arrived (deliveries.map (·.seq)) →
      ∃ stream', receiveAll codec cipher stream deliveries = .ok stream' ∧
        Received codec cipher messages records unsent
          (arrived ∪ (deliveries.map (·.seq)).toFinset) stream' := by
  intro deliveries
  induction deliveries with
  | nil =>
    intro arrived stream h _ _
    refine ⟨stream, rfl, ?_⟩
    rwa [map_nil, toFinset_nil, Finset.union_empty]
  | cons data deliveries ih =>
    intro arrived stream h hdata hwithin
    obtain ⟨next, hnext, hreceived⟩ :=
      h.receiveData hsend hlen hmax (hdata data mem_cons_self) hwithin.1
    obtain ⟨stream', hall, hreceived'⟩ :=
      ih hreceived (fun d hd => hdata d (mem_cons_of_mem _ hd)) hwithin.2
    refine ⟨stream', ?_, ?_⟩
    · rw [NoiseRelay.receiveAll, foldlM_cons, hnext, ok_bind]
      exact hall
    · rwa [map_cons, toFinset_cons, Finset.union_insert, ← Finset.insert_union]

theorem allWithin_mono {payload : ℕ → Bytes} {seqs seqs' : List ℕ} (hpre : seqs <+: seqs') :
    ∀ {arrived}, AllWithin payload arrived seqs' → AllWithin payload arrived seqs := by
  induction seqs generalizing seqs' with
  | nil => exact fun _ => trivial
  | cons seq seqs ih =>
    intro arrived h
    obtain ⟨more, rfl⟩ := hpre
    exact ⟨h.1, ih (prefix_append seqs more) h.2⟩

end Received

/-! ## End to end -/

section Relay

variable {μ : Type} (codec : SerdeJson μ) (cipher : Cipher)

/-- What the writer task puts on the wire for `messages`. -/
def sentBy (messages : List μ) : List RelayData :=
  (leaves (writeMessages cipher codec messages) {}).sent

/-- **A relay stream delivers what was sent**: whatever the order of the records
and however often they are delivered, within the reorder window and the byte
bound the reader never fails, it has at every point queued a prefix of the
messages, and all of them once every record has arrived. Only a stream that runs
out of sequence numbers ends early. -/
theorem relay_delivers {messages : List μ}
    (hsend : ∀ message ∈ messages, Sendable codec message) (deliveries : List RelayData)
    (hsent : ∀ data ∈ deliveries, data ∈ sentBy codec cipher messages)
    (hwithin : AllWithin (payloadAt (sentBy codec cipher messages)) ∅ (deliveries.map (·.seq)))
    {point : List RelayData} (hpoint : point <+: deliveries) :
    ∃ stream, receiveAll codec cipher {} point = .ok stream ∧ stream.incoming <+: messages ∧
      ((recordsOf codec messages).length ≤ u32Max →
        (∀ data ∈ sentBy codec cipher messages, data ∈ point) → stream.incoming = messages) := by
  obtain ⟨records, ⟨more, hmore⟩, hwriter, hall⟩ := writeMessages_sent cipher hsend
  have hwire : sentBy codec cipher messages = sealed cipher records := hwriter.sent_eq
  have hlen : ∀ record ∈ records, record.length ≤ noiseRecordPlaintextLen := fun record hrecord =>
    length_le_of_mem_recordsOf (hmore ▸ mem_append_left more hrecord)
  have hstream : records.flatten ++ more.flatten = messages.flatMap (framed codec) := by
    rw [← flatten_append, hmore, flatten_recordsOf]
  rw [hwire] at hsent hwithin ⊢
  obtain ⟨stream, hreceive, hreceived⟩ :=
    (received_default cipher hstream).receiveAll hsend hlen hwriter.length_le
      (fun data hdata => hsent data (hpoint.subset hdata))
      (allWithin_mono (hpoint.map _) hwithin)
  obtain ⟨waiting, hmessages, hwaits⟩ := hreceived.decoded.decodes
  refine ⟨stream, hreceive, ⟨waiting, hmessages.symm⟩, fun hcount hcomplete => ?_⟩
  -- Every number has arrived, so the frontier is at the end of the stream.
  have hfrontier : records.length ≤ frontier (∅ ∪ (point.map (·.seq)).toFinset) := by
    by_contra hcon
    have hlt := Nat.lt_of_not_le hcon
    refine frontier_notMem (∅ ∪ (point.map (·.seq)).toFinset) ?_
    rw [Finset.empty_union] at hlt ⊢
    rw [mem_toFinset]
    exact mem_map.2 ⟨_, hcomplete _ (mem_mapIdx.2 ⟨_, hlt, rfl⟩), rfl⟩
  have hmore : more = [] := by
    rw [hall hcount] at hmore
    exact append_right_eq_self.1 hmore
  rw [drop_eq_nil_of_le hfrontier, hmore] at hwaits
  rw [hmessages, hwaits.eq_nil, append_nil]

end Relay

/-- Two notifications, as `serde_json` writes them. -/
inductive Notification where
  | initialized
  | exit
  deriving DecidableEq

def Notification.text : Notification → Bytes
  | .initialized => "\x7b\"method\":\"initialized\"\x7d".toList.map fun c => UInt8.ofNat c.toNat
  | .exit => "\x7b\"method\":\"exit\"\x7d".toList.map fun c => UInt8.ofNat c.toNat

def notificationJson : SerdeJson Notification where
  toVec := Notification.text
  fromSlice bytes :=
    if bytes = Notification.text .initialized then some .initialized
    else if bytes = Notification.text .exit then some .exit
    else none
  fromSlice_nil := by decide

/-- A cipher that only appends its tag, the nonce. -/
def tagCipher : Cipher where
  sendVec nonce plaintext := plaintext ++ List.replicate tagLen (UInt8.ofNat nonce)
  receiveVec nonce ciphertext :=
    if ciphertext.drop (ciphertext.length - tagLen) = List.replicate tagLen (UInt8.ofNat nonce) then
      some (ciphertext.take (ciphertext.length - tagLen))
    else none
  length_sendVec nonce plaintext := by rw [length_append, length_replicate]
  receiveVec_sendVec nonce plaintext := by
    rw [length_append, length_replicate, Nat.add_sub_cancel, drop_left,
      if_pos rfl, take_left]

theorem sendable_notification (message : Notification) : Sendable notificationJson message := by
  cases message with
  | initialized | exit => exact ⟨by decide, by decide⟩

theorem recordsOf_notifications :
    recordsOf notificationJson [.initialized, .exit] =
      [framed notificationJson .initialized, framed notificationJson .exit] := by
  show chunks _ _ ++ (chunks _ _ ++ []) = _
  rw [chunks_eq_singleton (by decide) (by decide), chunks_eq_singleton (by decide) (by decide)]
  rfl

theorem sentBy_notifications :
    sentBy notificationJson tagCipher [.initialized, .exit] =
      [⟨0, tagCipher.sendVec 0 (framed notificationJson .initialized)⟩,
        ⟨1, tagCipher.sendVec 1 (framed notificationJson .exit)⟩] := by
  obtain ⟨records, -, hwriter, hall⟩ := writeMessages_sent tagCipher
    fun message (_ : message ∈ [Notification.initialized, .exit]) => sendable_notification message
  rw [hall (by rw [recordsOf_notifications]; decide), recordsOf_notifications] at hwriter
  exact hwriter.sent_eq

/-- The second record comes first, and once more at the end. -/
theorem swapped_notifications_arrive :
    ∃ stream, receiveAll notificationJson tagCipher {}
      [⟨1, tagCipher.sendVec 1 (framed notificationJson .exit)⟩,
        ⟨0, tagCipher.sendVec 0 (framed notificationJson .initialized)⟩,
        ⟨1, tagCipher.sendVec 1 (framed notificationJson .exit)⟩] = .ok stream ∧
      stream.incoming = [.initialized, .exit] := by
  have hfrontier : frontier {1} = 0 :=
    frontier_eq (by decide) fun m hm => absurd hm (Nat.not_lt_zero m)
  obtain ⟨stream, hreceive, -, hall⟩ := relay_delivers notificationJson tagCipher
    (fun message (_ : message ∈ [Notification.initialized, .exit]) => sendable_notification message)
    [⟨1, tagCipher.sendVec 1 (framed notificationJson .exit)⟩,
      ⟨0, tagCipher.sendVec 0 (framed notificationJson .initialized)⟩,
      ⟨1, tagCipher.sendVec 1 (framed notificationJson .exit)⟩]
    (by
      rw [sentBy_notifications]
      decide)
    (by
      rw [sentBy_notifications]
      refine ⟨.inr ?_, .inr ?_, .inl (by decide), trivial⟩
      · rw [frontier_empty]
        exact ⟨by decide, fun _ => by decide⟩
      · rw [LawfulSingleton.insert_empty_eq, hfrontier]
        exact ⟨by decide, fun h => absurd h (Nat.lt_irrefl 0)⟩)
    prefix_rfl
  refine ⟨stream, hreceive, hall ?_ ?_⟩
  · rw [recordsOf_notifications]
    decide
  · rw [sentBy_notifications]
    decide

end Codex.NoiseRelay
