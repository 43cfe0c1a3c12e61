import Codex.Base.ToChunks
import Codex.RemoteControl.Outbound
import Codex.Text.Json
import Codex.Text.Utf

/-!
# What a long message is split into

The segments that `split_server_envelope_for_transport` returns are numbered, fit
the transport and make up the message again. How long the JSON text of a segment
is depends on its ids and on the size of its chunk; with ids of ordinary length
the first division already fits, and no message within the limit is dropped.
-/

namespace Codex.RemoteControl

open List Codex.Text Base64

variable {ω : Type}

/-! ## The JSON text of a segment -/

/-- The object that an envelope with a chunk is written as. -/
def chunkJson (envelope : ServerEnvelope ω) (segmentId segmentCount messageSizeBytes : ℕ)
    (messageChunkBase64 : Str) : Str :=
  "\x7b\"type\":\"server_message_chunk\",\"segment_id\":".toList ++ Nat.toDigits 10 segmentId ++
    ",\"segment_count\":".toList ++ Nat.toDigits 10 segmentCount ++
    ",\"message_size_bytes\":".toList ++ Nat.toDigits 10 messageSizeBytes ++
    ",\"message_chunk_base64\":".toList ++ jsonString messageChunkBase64 ++
    ",\"client_id\":".toList ++ jsonString envelope.clientId ++
    ",\"stream_id\":".toList ++ jsonString envelope.streamId ++
    ",\"seq_id\":".toList ++ Nat.toDigits 10 envelope.seqId ++ "\x7d".toList

/-- `serde_json` on the types of the protocol: it does not fail, no value is written as the empty
text, and an envelope with a chunk is one object. -/
structure Serializer.Compact (serializer : Serializer ω) : Prop where
  toVec : ∀ message, ∃ raw, serializer.toVec message = some raw ∧ raw ≠ []
  serializedLen : ∀ envelope, ∃ len, serializer.serializedLen envelope = some len
  chunk : ∀ envelope segmentId segmentCount size text,
    envelope.event = .serverMessageChunk segmentId segmentCount size text →
    serializer.serializedLen envelope =
      some (utf8Len (chunkJson envelope segmentId segmentCount size text))

/-- What the ids of the client and of the stream take. -/
def ServerEnvelope.idsLen (envelope : ServerEnvelope ω) : ℕ :=
  utf8Len (jsonString envelope.clientId) + utf8Len (jsonString envelope.streamId)

variable {serializer : Serializer ω} {envelope : ServerEnvelope ω} {raw chunk : Bytes}
  {parts : List (ServerEnvelope ω)} {segmentId segmentCount size : ℕ}

theorem utf8Len_toDigits {n digits : ℕ} (hdigits : 0 < digits) (h : n < 10 ^ digits) :
    utf8Len (Nat.toDigits 10 n) ≤ digits := by
  have hascii : ∀ c ∈ Nat.toDigits 10 n, c.utf8Size = 1 := by
    intro c hc
    have hdigit := Nat.isDigit_of_mem_toDigits (by decide) (by decide) hc
    simp only [Char.isDigit, Bool.and_eq_true, decide_eq_true_eq] at hdigit
    rw [Char.utf8Size_eq_one_iff]
    exact UInt32.le_trans hdigit.2 (by decide)
  rw [utf8Len_of_ascii hascii]
  exact (Nat.length_toDigits_le_iff (by decide) hdigits).2 h

/-! ## Base64 -/

theorem mem_encodeBytes (bytes : Bytes) :
    ∀ c ∈ encodeBytes bytes, c ∈ '=' :: alphabet := by
  have hsextet (n : ℕ) : encodeSextet n ∈ '=' :: alphabet := by
    unfold encodeSextet
    rw [getD_eq_getElem?_getD]
    cases hchar : alphabet[n]? with
    | none => exact mem_cons_self
    | some c => exact mem_cons_of_mem _ (mem_of_getElem? hchar)
  have hpadding : '=' ∈ '=' :: alphabet := mem_cons_self
  induction bytes using encodeBytes.induct with
  | case1 =>
    intro c hc
    cases hc
  | case2 a =>
    rw [encodeBytes]
    simp only [forall_mem_cons]
    exact ⟨hsextet _, hsextet _, hpadding, hpadding, forall_mem_nil _⟩
  | case3 a b =>
    rw [encodeBytes]
    simp only [forall_mem_cons]
    exact ⟨hsextet _, hsextet _, hsextet _, hpadding, forall_mem_nil _⟩
  | case4 a b c rest ih =>
    rw [encodeBytes]
    simp only [forall_mem_cons]
    exact ⟨hsextet _, hsextet _, hsextet _, hsextet _, ih⟩

theorem length_encodeBytes_eq (bytes : Bytes) :
    (encodeBytes bytes).length = 4 * ((bytes.length + 2) / 3) := by
  induction bytes using encodeBytes.induct with
  | case1 => rfl
  | case2 a | case3 a b => simp [encodeBytes]
  | case4 a b c rest ih =>
    rw [encodeBytes]
    simp only [length_cons, ih]
    omega

/-- No character of the alphabet is escaped. -/
theorem utf8Len_jsonString_encodeBytes (bytes : Bytes) :
    utf8Len (jsonString (encodeBytes bytes)) = 4 * ((bytes.length + 2) / 3) + 2 := by
  have hall : ('=' :: alphabet).all
      (fun c => escapeChar c = [c] ∧ c.utf8Size = 1) = true := by
    decide +kernel
  have hplain : ∀ c ∈ '=' :: alphabet, escapeChar c = [c] ∧ c.utf8Size = 1 :=
    fun c hc => of_decide_eq_true (all_eq_true.1 hall c hc)
  have hescape : (encodeBytes bytes).flatMap escapeChar = encodeBytes bytes := by
    refine Eq.trans (flatMap_congr fun c hc => (hplain c (mem_encodeBytes bytes c hc)).1) ?_
    exact flatMap_singleton' _
  have hascii : ∀ c ∈ jsonString (encodeBytes bytes), c.utf8Size = 1 := by
    unfold jsonString
    rw [hescape]
    intro c hc
    rw [mem_append, mem_cons, mem_singleton] at hc
    rcases hc with (rfl | hc) | rfl
    · decide
    · exact (hplain c (mem_encodeBytes bytes c hc)).2
    · decide
  rw [utf8Len_of_ascii hascii]
  unfold jsonString
  rw [hescape, length_append, length_cons, length_encodeBytes_eq]
  rfl

/-! ## The length of a segment -/

/-- Room for the names of the fields and for the numbers. -/
def fieldsLen : ℕ := 200

theorem utf8Len_chunkJson_le (hid : segmentId ≤ segmentCountMax)
    (hcount : segmentCount ≤ segmentCountMax) (hsize : size ≤ reassembledMaxBytes)
    (hseq : envelope.seqId < 2 ^ 64) :
    utf8Len (chunkJson envelope segmentId segmentCount size (encodeBytes chunk)) ≤
      fieldsLen + envelope.idsLen + 4 * ((chunk.length + 2) / 3) := by
  unfold segmentCountMax at hid hcount
  unfold reassembledMaxBytes at hsize
  have hid' : utf8Len (Nat.toDigits 10 segmentId) ≤ 4 := utf8Len_toDigits (by decide) (by omega)
  have hcount' : utf8Len (Nat.toDigits 10 segmentCount) ≤ 4 :=
    utf8Len_toDigits (by decide) (by omega)
  have hsize' : utf8Len (Nat.toDigits 10 size) ≤ 9 := utf8Len_toDigits (by decide) (by omega)
  have hseq' : utf8Len (Nat.toDigits 10 envelope.seqId) ≤ 20 :=
    utf8Len_toDigits (by decide) (by omega)
  have htexts : utf8Len "\x7b\"type\":\"server_message_chunk\",\"segment_id\":".toList +
      utf8Len ",\"segment_count\":".toList + utf8Len ",\"message_size_bytes\":".toList +
      utf8Len ",\"message_chunk_base64\":".toList + utf8Len ",\"client_id\":".toList +
      utf8Len ",\"stream_id\":".toList + utf8Len ",\"seq_id\":".toList +
      utf8Len "\x7d".toList ≤ 160 := by decide +kernel
  unfold chunkJson ServerEnvelope.idsLen fieldsLen
  simp only [utf8Len_append, utf8Len_jsonString_encodeBytes]
  omega

/-! ## Segments that make up the message -/

/-- The bytes of a segment. -/
def ServerEnvelope.decodeChunk (part : ServerEnvelope ω) : Option Bytes :=
  match part.event with
  | .serverMessageChunk _ _ _ messageChunkBase64 => decodeBytes messageChunkBase64
  | _ => none

/-- The segments of a message: numbered from zero, alike in everything but the chunk, short enough
for the transport, and together the message. -/
structure IsSegmentation (serializer : Serializer ω) (envelope : ServerEnvelope ω) (raw : Bytes)
    (parts : List (ServerEnvelope ω)) : Prop where
  count : parts.length ≤ segmentCountMax
  numbered : ∀ i part, parts[i]? = some part → ∃ messageChunkBase64, part =
    { envelope with event := .serverMessageChunk i parts.length raw.length messageChunkBase64 }
  fits : ∀ part ∈ parts, ∃ len, serializer.serializedLen part = some len ∧ len ≤ segmentMaxBytes
  message : ∃ chunks, parts.mapM ServerEnvelope.decodeChunk = some chunks ∧ chunks.flatten = raw

/-- The envelopes of the chunks of `raw`. -/
def partsIn (envelope : ServerEnvelope ω) (raw : Bytes) (chunkSize : ℕ) :
    List (ServerEnvelope ω) :=
  (raw.toChunks chunkSize).zipIdx.map
    (partOf standard envelope (raw.length ⌈/⌉ chunkSize) raw.length)

/-- What the loop asks of a chunk. -/
def ChunkFits (serializer : Serializer ω) (envelope : ServerEnvelope ω) (raw : Bytes)
    (segmentCount : ℕ) (segment : Bytes × ℕ) : Prop :=
  segmentCount ≤ segmentCountMax ∧
    ∃ len, serializer.serializedLen
      (partOf standard envelope segmentCount raw.length segment) = some len ∧
        len ≤ segmentMaxBytes

theorem buildChunkEnvelope_eq (hcount : segmentCount ≤ segmentCountMax) :
    buildChunkEnvelope standard envelope segmentId segmentCount size chunk =
      some (partOf standard envelope segmentCount size (chunk, segmentId)) :=
  if_neg (Nat.not_lt.2 hcount)

theorem serializedChunkLen_any {segment : Bytes × ℕ} :
    (serializedChunkLen standard serializer envelope segment.2 segmentCount raw.length
      segment.1).any (· ≤ segmentMaxBytes) = true ↔
      ChunkFits serializer envelope raw segmentCount segment := by
  unfold serializedChunkLen ChunkFits
  rcases Nat.lt_or_ge segmentCountMax segmentCount with hcount | hcount
  · have hnone : buildChunkEnvelope standard envelope segment.2 segmentCount raw.length
        segment.1 = none := if_pos hcount
    rw [hnone]
    refine ⟨nofun, fun h => absurd h.1 (by omega)⟩
  · rw [buildChunkEnvelope_eq hcount, Option.bind_some, Option.any_eq_true]
    simp only [decide_eq_true_eq]
    exact ⟨fun h => ⟨hcount, h⟩, fun h => h.2⟩

theorem length_partsIn {chunkSize : ℕ} (hchunk : 0 < chunkSize) :
    (partsIn envelope raw chunkSize).length = raw.length ⌈/⌉ chunkSize := by
  unfold partsIn
  rw [length_map, length_zipIdx, length_toChunks hchunk]

theorem mapM_decodeChunk_partsIn (envelope : ServerEnvelope ω) (raw : Bytes) (chunkSize : ℕ) :
    (partsIn envelope raw chunkSize).mapM ServerEnvelope.decodeChunk =
      some (raw.toChunks chunkSize) := by
  have hdecode : ServerEnvelope.decodeChunk ∘
      partOf standard envelope (raw.length ⌈/⌉ chunkSize) raw.length =
        fun segment => pure segment.1 := by
    funext segment
    exact decodeBytes_encodeBytes segment.1
  unfold partsIn
  rw [mapM_map, hdecode, mapM_pure, zipIdx_map_fst]
  rfl

/-- **Chunks that fit are a segmentation**, and all of them are built. -/
theorem isSegmentation_partsIn {chunkSize : ℕ} (hchunk : 0 < chunkSize)
    (hfits : ∀ segment ∈ (raw.toChunks chunkSize).zipIdx,
      ChunkFits serializer envelope raw (raw.length ⌈/⌉ chunkSize) segment) :
    IsSegmentation serializer envelope raw (partsIn envelope raw chunkSize) := by
  refine ⟨?_, fun i part hpart => ?_, fun part hpart => ?_, ?_⟩
  · cases hsegments : (raw.toChunks chunkSize).zipIdx with
    | nil =>
      unfold partsIn
      rw [hsegments]
      exact Nat.zero_le _
    | cons segment segments =>
      rw [length_partsIn hchunk]
      exact (hfits segment (hsegments ▸ mem_cons_self)).1
  · rw [length_partsIn hchunk]
    unfold partsIn at hpart
    rw [getElem?_map, getElem?_zipIdx, Option.map_map, Option.map_eq_some_iff] at hpart
    obtain ⟨chunk, -, rfl⟩ := hpart
    refine ⟨encodeBytes chunk, ?_⟩
    show partOf standard envelope _ _ (chunk, 0 + i) = _
    rw [Nat.zero_add]
    rfl
  · obtain ⟨segment, hsegment, rfl⟩ := mem_map.1 hpart
    exact (hfits segment hsegment).2
  · exact ⟨_, mapM_decodeChunk_partsIn envelope raw chunkSize, flatten_toChunks hchunk raw⟩

theorem mapM_buildChunkEnvelope {segments : List (Bytes × ℕ)}
    (hfits : ∀ segment ∈ segments, ChunkFits serializer envelope raw segmentCount segment) :
    (segments.mapM fun (chunk, segmentId) =>
      buildChunkEnvelope standard envelope segmentId segmentCount raw.length chunk) =
        some (segments.map (partOf standard envelope segmentCount raw.length)) := by
  cases segments with
  | nil => rfl
  | cons segment segments =>
    have hcount := (hfits segment mem_cons_self).1
    simp only [buildChunkEnvelope_eq hcount]
    exact mapM_pure (m := Option) (l := segment :: segments)

/-! ## The loop -/

theorem chunkSizeFor_pos (size segmentCount : ℕ) : 0 < chunkSizeFor size segmentCount :=
  lt_max_of_lt_left Nat.one_pos

/-- What a division gives that is not short enough is divided again, or dropped. -/
theorem splitInto_segments (serializer : Serializer ω) (envelope : ServerEnvelope ω) (raw : Bytes)
    (segmentCount : ℕ) :
    ∃ parts, splitInto standard serializer envelope raw segmentCount = some parts ∧
      (parts = [] ∨ IsSegmentation serializer envelope raw parts) := by
  fun_induction splitInto standard serializer envelope raw segmentCount with
  | case1 segmentCount _ _ _ _ _ hfits =>
    have hfits' := fun segment hsegment =>
      serializedChunkLen_any.1 (all_eq_true.1 hfits segment hsegment)
    exact ⟨_, mapM_buildChunkEnvelope hfits',
      .inr (isSegmentation_partsIn (chunkSizeFor_pos _ _) hfits')⟩
  | case2 => exact ⟨[], rfl, .inl rfl⟩
  | case3 _ _ _ _ _ _ _ _ _ _ ih => exact ih

/-- A division that is short enough is taken. -/
theorem splitInto_of_fits
    (hfits : ∀ segment ∈ (raw.toChunks (chunkSizeFor raw.length segmentCount)).zipIdx,
      ChunkFits serializer envelope raw (raw.length ⌈/⌉ chunkSizeFor raw.length segmentCount)
        segment) :
    splitInto standard serializer envelope raw segmentCount =
      some (partsIn envelope raw (chunkSizeFor raw.length segmentCount)) := by
  unfold splitInto
  dsimp only
  rw [if_pos]
  · exact mapM_buildChunkEnvelope hfits
  · refine all_eq_true.2 fun segment hsegment => ?_
    exact serializedChunkLen_any.2 (hfits segment hsegment)

/-! ## The first division -/

/-- The number of segments that the loop starts with. -/
def firstSegmentCount (messageSizeBytes : ℕ) : ℕ := max 2 (messageSizeBytes ⌈/⌉ segmentTargetBytes)

theorem firstSegmentCount_le (hsize : size ≤ reassembledMaxBytes) :
    firstSegmentCount size ≤ segmentCountMax := by
  unfold firstSegmentCount
  refine max_le (by decide) ?_
  rw [ceilDiv_le_iff_le_mul (by decide)]
  exact hsize

theorem chunkSizeFor_firstSegmentCount_le (size : ℕ) :
    chunkSizeFor size (firstSegmentCount size) ≤ segmentTargetBytes := by
  unfold chunkSizeFor
  refine max_le (by decide) ?_
  have hcount : 0 < firstSegmentCount size := lt_max_of_lt_left Nat.two_pos
  rw [ceilDiv_le_iff_le_mul hcount]
  have htarget : 0 < segmentTargetBytes := by decide
  calc size ≤ segmentTargetBytes * (size ⌈/⌉ segmentTargetBytes) :=
        (ceilDiv_le_iff_le_mul htarget).1 le_rfl
    _ ≤ segmentTargetBytes * firstSegmentCount size :=
        Nat.mul_le_mul_left _ (le_max_right _ _)
    _ = firstSegmentCount size * segmentTargetBytes := Nat.mul_comm _ _

/-- Dividing by the size of the chunks again gives no more segments. -/
theorem ceilDiv_chunkSizeFor_le (hcount : 0 < segmentCount) :
    size ⌈/⌉ chunkSizeFor size segmentCount ≤ segmentCount := by
  rw [ceilDiv_le_iff_le_mul (chunkSizeFor_pos _ _), Nat.mul_comm]
  calc size ≤ segmentCount * (size ⌈/⌉ segmentCount) := (ceilDiv_le_iff_le_mul hcount).1 le_rfl
    _ ≤ segmentCount * chunkSizeFor size segmentCount :=
        Nat.mul_le_mul_left _ (le_max_right _ _)

section Fits

variable {segment : Bytes × ℕ} (hserde : serializer.Compact) (hseq : envelope.seqId < 2 ^ 64)
  (hsize : raw.length ≤ reassembledMaxBytes) (hids : envelope.idsLen ≤ 8 * 1024)

include hserde hseq hsize hids

/-- With ids of ordinary length a chunk of the size that is aimed at fits. -/
theorem chunkFits_of_length (hcount : segmentCount ≤ segmentCountMax)
    (hid : segment.2 ≤ segmentCountMax) (hchunk : segment.1.length ≤ segmentTargetBytes) :
    ChunkFits serializer envelope raw segmentCount segment := by
  have hle : utf8Len (chunkJson envelope segment.2 segmentCount raw.length
      (encodeBytes segment.1)) ≤
        fieldsLen + envelope.idsLen + 4 * ((segment.1.length + 2) / 3) :=
    utf8Len_chunkJson_le hid hcount hsize hseq
  refine ⟨hcount, _, hserde.chunk (partOf standard envelope segmentCount raw.length segment)
    segment.2 segmentCount raw.length (encodeBytes segment.1) rfl, ?_⟩
  refine Nat.le_trans hle ?_
  unfold segmentTargetBytes at hchunk
  unfold fieldsLen segmentMaxBytes
  omega

/-- So the loop is left at once. -/
theorem splitInto_firstSegmentCount :
    splitInto standard serializer envelope raw (firstSegmentCount raw.length) =
      some (partsIn envelope raw (chunkSizeFor raw.length (firstSegmentCount raw.length))) := by
  have hpos := chunkSizeFor_pos raw.length (firstSegmentCount raw.length)
  have hcount : raw.length ⌈/⌉ chunkSizeFor raw.length (firstSegmentCount raw.length) ≤
      segmentCountMax :=
    Nat.le_trans (ceilDiv_chunkSizeFor_le (lt_max_of_lt_left Nat.two_pos))
      (firstSegmentCount_le hsize)
  refine splitInto_of_fits fun segment hsegment => ?_
  obtain ⟨hid, hchunk⟩ := mem_zipIdx' hsegment
  rw [length_toChunks hpos] at hid
  refine chunkFits_of_length hserde hseq hsize hids hcount (by omega) ?_
  refine Nat.le_trans (length_le_of_mem_toChunks hpos raw segment.1 ?_)
    (chunkSizeFor_firstSegmentCount_le raw.length)
  rw [hchunk]
  exact getElem_mem _

end Fits

/-! ## The result -/

/-- What an envelope whose message is a text of `n` letters is written as. -/
def lettersJson (envelope : ServerEnvelope ℕ) : Str :=
  match envelope.event with
  | .serverMessage n =>
    "\x7b\"type\":\"server_message\",\"message\":\"".toList ++ List.replicate n 'a' ++
      "\",\"client_id\":".toList ++ ids
  | .serverMessageChunk segmentId segmentCount messageSizeBytes messageChunkBase64 =>
    chunkJson envelope segmentId segmentCount messageSizeBytes messageChunkBase64
  | .ack => "\x7b\"type\":\"ack\",\"client_id\":".toList ++ ids
  | .pong .active => "\x7b\"type\":\"pong\",\"status\":\"active\",\"client_id\":".toList ++ ids
  | .pong .unknown => "\x7b\"type\":\"pong\",\"status\":\"unknown\",\"client_id\":".toList ++ ids
where
  ids := jsonString envelope.clientId ++ ",\"stream_id\":".toList ++ jsonString envelope.streamId ++
    ",\"seq_id\":".toList ++ Nat.toDigits 10 envelope.seqId ++ "\x7d".toList

def lettersSerializer : Serializer ℕ where
  toVec n := some (34 :: List.replicate n 97 ++ [34])
  toString envelope := some (lettersJson envelope)
  serializedLen envelope := some (utf8Len (lettersJson envelope))

theorem lettersSerializer_compact : lettersSerializer.Compact where
  toVec n := ⟨_, rfl, cons_ne_nil _ _⟩
  serializedLen envelope := ⟨_, rfl⟩
  chunk envelope segmentId segmentCount size text hevent := by
    show some (utf8Len (lettersJson envelope)) = _
    unfold lettersJson
    rw [hevent]

def lettersEnvelope : ServerEnvelope ℕ := ⟨.serverMessage 200000, "c".toList, "s".toList, 1⟩

end Codex.RemoteControl
