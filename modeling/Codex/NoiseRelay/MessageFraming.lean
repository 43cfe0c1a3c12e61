import Codex.NoiseRelay.OrderedCiphertext

/-!
# Message framing

`exec-server/src/noise_relay/message_framing.rs`: a JSON-RPC message is written
behind its length, the bytes are cut into records, and the decoder rebuilds the
messages from the records. What `serde_json` prints and parses is a parameter.
-/

namespace Codex.NoiseRelay

open List

def lengthPrefixBytes : ℕ := 4

def maxNoiseJsonrpcMessageLen : ℕ := 64 * 1024 * 1024

def noiseRecordPlaintextLen : ℕ := 60 * 1024

/-- `serde_json` at the type of messages. No message is read from an empty slice. -/
structure SerdeJson (μ : Type) where
  toVec : μ → Bytes
  fromSlice : Bytes → Option μ
  fromSlice_nil : fromSlice [] = none

/-- `u32::to_be_bytes`. -/
def toBeBytes (n : ℕ) : Bytes :=
  [UInt8.ofNat (n / 2 ^ 24), UInt8.ofNat (n / 2 ^ 16), UInt8.ofNat (n / 2 ^ 8), UInt8.ofNat n]

/-- `u32::from_be_bytes`. -/
def fromBeBytes (b₀ b₁ b₂ b₃ : UInt8) : ℕ :=
  b₀.toNat * 2 ^ 24 + b₁.toNat * 2 ^ 16 + b₂.toNat * 2 ^ 8 + b₃.toNat

/-- `slice::chunks`. -/
def chunks (size : ℕ) (bytes : Bytes) : List Bytes :=
  if size = 0 ∨ bytes = [] then []
  else bytes.take size :: chunks size (bytes.drop size)
  termination_by bytes.length
  decreasing_by
    next h =>
    rw [not_or] at h
    have := length_pos_iff.2 h.2
    rw [length_drop]
    omega

section Codec

variable {μ : Type} (codec : SerdeJson μ)

def frameJsonrpcMessage (message : μ) : Except RelayError Bytes :=
  let body := codec.toVec message
  if maxNoiseJsonrpcMessageLen < body.length then .error .messageTooLong
  else .ok (toBeBytes body.length ++ body)

/-- The loop of `JsonRpcMessageDecoder::push`, over the buffered bytes. -/
def drainMessages (buffered : Bytes) (messages : List μ) : Except RelayError (List μ × Bytes) :=
  match buffered with
  | b₀ :: b₁ :: b₂ :: b₃ :: rest =>
    let messageLen := fromBeBytes b₀ b₁ b₂ b₃
    if messageLen = 0 ∨ maxNoiseJsonrpcMessageLen < messageLen then .error .invalidMessageLength
    else if (b₀ :: b₁ :: b₂ :: b₃ :: rest).length < lengthPrefixBytes + messageLen then
      .ok (messages, b₀ :: b₁ :: b₂ :: b₃ :: rest)
    else
      match codec.fromSlice (rest.take messageLen) with
      | none => .error .invalidJson
      | some message => drainMessages (rest.drop messageLen) (messages ++ [message])
  | buffered => .ok (messages, buffered)
  termination_by buffered.length
  decreasing_by
    rw [length_drop]
    simp only [length_cons]
    omega

/-- `JsonRpcMessageDecoder::push`: the messages that are complete, and the
bytes that stay buffered. -/
def decoderPush (buffered plaintextRecord : Bytes) : Except RelayError (List μ × Bytes) :=
  if noiseRecordPlaintextLen < plaintextRecord.length then .error .plaintextRecordTooLong
  else do
    let (messages, buffered) ← drainMessages codec (buffered ++ plaintextRecord) []
    if lengthPrefixBytes + maxNoiseJsonrpcMessageLen < buffered.length then
      .error .reassemblyBufferTooLong
    else .ok (messages, buffered)

end Codec

/-! ## Records -/

theorem flatten_chunks {size : ℕ} (hsize : 0 < size) (bytes : Bytes) :
    (chunks size bytes).flatten = bytes := by
  fun_induction chunks size bytes with
  | case1 bytes h =>
    rw [h.resolve_left (by omega)]
    rfl
  | case2 bytes h ih => rw [flatten_cons, ih, take_append_drop]

theorem chunks_eq_singleton {size : ℕ} {bytes : Bytes} (hne : bytes ≠ [])
    (hle : bytes.length ≤ size) : chunks size bytes = [bytes] := by
  have hpos := length_pos_iff.2 hne
  have hsize : ¬(size = 0 ∨ bytes = []) := not_or.2 ⟨by omega, hne⟩
  rw [chunks, if_neg hsize, take_of_length_le hle, drop_eq_nil_of_le hle, chunks,
    if_pos (.inr rfl)]

theorem length_le_of_mem_chunks {size : ℕ} {bytes chunk : Bytes} (h : chunk ∈ chunks size bytes) :
    chunk.length ≤ size := by
  fun_induction chunks size bytes with
  | case1 bytes _ => cases h
  | case2 bytes _ ih =>
    rcases mem_cons.1 h with rfl | h
    · exact length_take_le _ _
    · exact ih h

theorem fromBeBytes_toBeBytes {n : ℕ} (h : n < 2 ^ 32) :
    fromBeBytes (UInt8.ofNat (n / 2 ^ 24)) (UInt8.ofNat (n / 2 ^ 16)) (UInt8.ofNat (n / 2 ^ 8))
      (UInt8.ofNat n) = n := by
  unfold fromBeBytes
  simp only [UInt8.toNat_ofNat']
  omega

/-! ## What the decoder rebuilds -/

section Decoding

variable {μ : Type} {codec : SerdeJson μ}

/-- A message that can be sent: it is not too long, and it is read back. -/
structure Sendable (codec : SerdeJson μ) (message : μ) : Prop where
  length_le : (codec.toVec message).length ≤ maxNoiseJsonrpcMessageLen
  parses : codec.fromSlice (codec.toVec message) = some message

/-- The bytes of a message in the record stream. -/
def framed (codec : SerdeJson μ) (message : μ) : Bytes :=
  toBeBytes (codec.toVec message).length ++ codec.toVec message

variable {message : μ} {messages : List μ} {buffered rest : Bytes}

theorem Sendable.frame_eq (h : Sendable codec message) :
    frameJsonrpcMessage codec message = .ok (framed codec message) := by
  unfold frameJsonrpcMessage
  exact if_neg (Nat.not_lt.2 h.length_le)

theorem Sendable.length_pos (h : Sendable codec message) : 0 < (codec.toVec message).length := by
  refine length_pos_iff.2 fun hnil => ?_
  have hparse := h.parses
  rw [hnil, codec.fromSlice_nil] at hparse
  cases hparse

theorem length_framed (codec : SerdeJson μ) (message : μ) :
    (framed codec message).length = lengthPrefixBytes + (codec.toVec message).length :=
  length_append

/-- The decoder waits for `messages`: what it has buffered and what is to come
are their frames, and the first of them is not complete. -/
structure Waits (codec : SerdeJson μ) (messages : List μ) (buffered rest : Bytes) : Prop where
  stream_eq : buffered ++ rest = messages.flatMap (framed codec)
  incomplete : ∀ message ∈ messages.head?, buffered.length < (framed codec message).length

theorem waits_nil (codec : SerdeJson μ) (messages : List μ) :
    Waits codec messages [] (messages.flatMap (framed codec)) := by
  refine ⟨rfl, fun message _ => ?_⟩
  rw [length_framed]
  exact Nat.add_pos_left (by decide) _

/-- When nothing is to come, nothing is missing. -/
theorem Waits.eq_nil (h : Waits codec messages buffered []) : messages = [] := by
  cases messages with
  | nil => rfl
  | cons message messages =>
    have hlen := h.incomplete message rfl
    have hstream := congrArg List.length h.stream_eq
    rw [append_nil, flatMap_cons, length_append] at hstream
    omega

/-- A frame that is not complete stays in the buffer. -/
theorem drainMessages_incomplete {later : Bytes} (h : Sendable codec message)
    (heq : buffered ++ rest = framed codec message ++ later)
    (hlt : buffered.length < (framed codec message).length) (done : List μ) :
    drainMessages codec buffered done = .ok (done, buffered) := by
  rw [length_framed] at hlt
  unfold drainMessages
  split
  · next b₀ b₁ b₂ b₃ bytes =>
    simp only [framed, toBeBytes, cons_append, List.cons.injEq] at heq
    obtain ⟨rfl, rfl, rfl, rfl, -⟩ := heq
    have hmax := h.length_le
    have hpos := h.length_pos
    rw [fromBeBytes_toBeBytes (hmax.trans_lt (by decide))]
    show (if _ then _ else _) = _
    rw [if_neg (by omega), if_pos hlt]
  · rfl

/-- A frame that is complete gives its message. -/
theorem drainMessages_framed (h : Sendable codec message) (done : List μ) :
    drainMessages codec (framed codec message ++ buffered) done =
      drainMessages codec buffered (done ++ [message]) := by
  have hmax := h.length_le
  have hpos := h.length_pos
  simp only [framed, toBeBytes, cons_append, nil_append]
  rw [drainMessages, fromBeBytes_toBeBytes (hmax.trans_lt (by decide))]
  have hlen : lengthPrefixBytes = 4 := rfl
  show (if _ then _ else _) = _
  rw [if_neg (by omega), if_neg ?_, take_left, h.parses, drop_left]
  simp only [length_cons, length_append]
  omega

theorem drainMessages_spec (hsend : ∀ message ∈ messages, Sendable codec message)
    (heq : buffered ++ rest = messages.flatMap (framed codec)) (done : List μ) :
    ∃ complete waiting buffered', messages = complete ++ waiting ∧
      drainMessages codec buffered done = .ok (done ++ complete, buffered') ∧
      Waits codec waiting buffered' rest := by
  induction messages generalizing buffered done with
  | nil =>
    obtain ⟨rfl, rfl⟩ := append_eq_nil_iff.1 heq
    refine ⟨[], [], [], rfl, ?_, waits_nil codec []⟩
    rw [drainMessages, append_nil]
    intro _ _ _ _ _ h
    cases h
  | cons message messages ih =>
    have hmessage := hsend message mem_cons_self
    rw [flatMap_cons] at heq
    by_cases hlt : buffered.length < (framed codec message).length
    · refine ⟨[], message :: messages, buffered, rfl, ?_, heq, ?_⟩
      · rw [drainMessages_incomplete hmessage heq hlt, append_nil]
      · rintro _ ⟨⟩
        exact hlt
    · obtain ⟨buffered', rfl⟩ : framed codec message <+: buffered :=
        prefix_of_prefix_length_le (prefix_append _ _)
          (heq ▸ prefix_append _ _) (Nat.le_of_not_lt hlt)
      rw [List.append_assoc] at heq
      obtain ⟨complete, waiting, rest', rfl, hdrain, hwaits⟩ :=
        ih (fun m hm => hsend m (mem_cons_of_mem _ hm)) (append_cancel_left heq)
          (done ++ [message])
      refine ⟨message :: complete, waiting, rest', rfl, ?_, hwaits⟩
      rw [drainMessages_framed hmessage, hdrain, List.append_assoc]
      rfl

/-- **What one record gives**: the next messages that are complete. -/
theorem decoderPush_spec {record : Bytes} (hsend : ∀ message ∈ messages, Sendable codec message)
    (hrecord : record.length ≤ noiseRecordPlaintextLen)
    (h : Waits codec messages buffered (record ++ rest)) :
    ∃ complete waiting buffered', messages = complete ++ waiting ∧
      decoderPush codec buffered record = .ok (complete, buffered') ∧
      Waits codec waiting buffered' rest := by
  have hstream := h.stream_eq
  rw [← List.append_assoc] at hstream
  obtain ⟨complete, waiting, buffered', rfl, hdrain, hwaits⟩ :=
    drainMessages_spec hsend hstream []
  refine ⟨complete, waiting, buffered', rfl, ?_, hwaits⟩
  have hbound : buffered'.length ≤ lengthPrefixBytes + maxNoiseJsonrpcMessageLen := by
    cases waiting with
    | nil =>
      rw [(append_eq_nil_iff.1 hwaits.stream_eq).1]
      exact Nat.zero_le _
    | cons message waiting =>
      have hlt := hwaits.incomplete message rfl
      have hmax := (hsend message (mem_append_right _ mem_cons_self)).length_le
      rw [length_framed] at hlt
      omega
  rw [decoderPush, if_neg (Nat.not_lt.2 hrecord), hdrain, ok_bind]
  exact if_neg (Nat.not_lt.2 hbound)

end Decoding

end Codex.NoiseRelay
