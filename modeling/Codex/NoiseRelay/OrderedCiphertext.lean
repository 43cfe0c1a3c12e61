import Codex.Base.Except
import Codex.Base.Frontier

/-!
# Ordered ciphertexts

`exec-server/src/noise_relay/ordered_ciphertext.rs`: records of a relay stream
are put back into the order of their sequence numbers before they reach Noise's
implicit receive nonce. A record that arrives early waits in a bounded buffer; a
record that was seen is dropped.
-/

namespace Codex.NoiseRelay

open Function

abbrev Bytes := List UInt8

/-- `ExecServerError::Protocol`, by its message. -/
inductive RelayError where
  | exceedsReorderWindow
  | pendingBufferFull
  | sequenceNumberExhausted
  | plaintextRecordTooLong
  | invalidMessageLength
  | reassemblyBufferTooLong
  | messageTooLong
  | invalidJson
  | invalidTransportMessage
  deriving DecidableEq

def maxReorderDistance : ℕ := 64

def maxPendingBytes : ℕ := 1024 * 1024

def u32Max : ℕ := 2 ^ 32 - 1

structure OrderedCiphertextFrames where
  nextSeq : ℕ := 0
  pending : ℕ → Option Bytes := fun _ => none
  pendingBytes : ℕ := 0

namespace OrderedCiphertextFrames

def advance (frames : OrderedCiphertextFrames) : Except RelayError OrderedCiphertextFrames :=
  if frames.nextSeq < u32Max then .ok { frames with nextSeq := frames.nextSeq + 1 }
  else .error .sequenceNumberExhausted

/-- The record that waits for its turn, taken out of the buffer. -/
def takePending (frames : OrderedCiphertextFrames) (payload : Bytes) : OrderedCiphertextFrames :=
  { frames with
    pending := update frames.pending frames.nextSeq none
    pendingBytes := frames.pendingBytes - payload.length }

/-- The loop that releases what is contiguous. -/
def release (frames : OrderedCiphertextFrames) (ready : List Bytes) :
    Except RelayError (OrderedCiphertextFrames × List Bytes) :=
  match frames.pending frames.nextSeq with
  | none => .ok (frames, ready)
  | some payload =>
    if frames.nextSeq < u32Max then
      release { frames.takePending payload with nextSeq := frames.nextSeq + 1 } (ready ++ [payload])
    else .error .sequenceNumberExhausted
  termination_by u32Max - frames.nextSeq

def push (frames : OrderedCiphertextFrames) (seq : ℕ) (payload : Bytes) :
    Except RelayError (OrderedCiphertextFrames × List Bytes) :=
  if seq < frames.nextSeq ∨ (frames.pending seq).isSome then .ok (frames, [])
  else if frames.nextSeq < seq then
    if maxReorderDistance < seq - frames.nextSeq then .error .exceedsReorderWindow
    else if maxPendingBytes < frames.pendingBytes + payload.length then .error .pendingBufferFull
    else .ok ({ frames with
      pending := update frames.pending seq (some payload)
      pendingBytes := frames.pendingBytes + payload.length }, [])
  else do
    let frames ← frames.advance
    frames.release [payload]

/-! ## What the buffer holds -/

/-- The buffer after the records `arrived`, when everything before `start` is
released: it keeps the payloads that wait, and their total length. -/
structure Holds (payload : ℕ → Bytes) (arrived : Finset ℕ) (start : ℕ)
    (frames : OrderedCiphertextFrames) : Prop where
  nextSeq_eq : frames.nextSeq = start
  pending_of_mem : ∀ {i}, i ∈ arrived → start ≤ i → frames.pending i = some (payload i)
  pending_of_notMem : ∀ {i}, i ∉ arrived → frames.pending i = none
  pending_of_lt : ∀ {i}, i < start → frames.pending i = none
  pendingBytes_eq : frames.pendingBytes = ∑ i ∈ waiting arrived start, (payload i).length

variable {payload : ℕ → Bytes} {arrived : Finset ℕ} {start : ℕ} {frames : OrderedCiphertextFrames}

theorem holds_default (payload : ℕ → Bytes) : Holds payload ∅ 0 {} where
  nextSeq_eq := rfl
  pending_of_mem h := absurd h (Finset.notMem_empty _)
  pending_of_notMem _ := rfl
  pending_of_lt h := absurd h (Nat.not_lt_zero _)
  pendingBytes_eq := rfl

/-- A record that is contiguous leaves the buffer. -/
theorem Holds.takePending (h : Holds payload arrived start frames) (hmem : start ∈ arrived) :
    Holds payload arrived (start + 1)
      { frames.takePending (payload start) with nextSeq := start + 1 } := by
  have hseq := h.nextSeq_eq
  refine ⟨rfl, fun {i} hi hle => ?_, fun {i} hi => ?_, fun {i} hlt => ?_, ?_⟩
  · show update frames.pending frames.nextSeq none i = _
    rw [update_of_ne (by omega)]
    exact h.pending_of_mem hi (by omega)
  · show update frames.pending frames.nextSeq none i = _
    rw [update_of_ne (by rintro rfl; exact hi (hseq ▸ hmem))]
    exact h.pending_of_notMem hi
  · show update frames.pending frames.nextSeq none i = _
    by_cases hi : i = frames.nextSeq
    · rw [hi, update_self]
    · rw [update_of_ne hi]
      exact h.pending_of_lt (by omega)
  · show frames.pendingBytes - (payload start).length = _
    rw [h.pendingBytes_eq, waiting_of_mem hmem, Finset.sum_insert notMem_waiting_succ]
    exact Nat.add_sub_cancel_left _ _

/-- The loop releases every record up to the first one that is missing. -/
theorem release_eq {stop : ℕ} (hstop : stop ∉ arrived) (hmax : stop ≤ u32Max) :
    ∀ {start frames}, Holds payload arrived start frames → start ≤ stop →
      (∀ i, start ≤ i → i < stop → i ∈ arrived) → ∀ ready, ∃ frames',
        frames.release ready =
          .ok (frames', ready ++ (List.range' start (stop - start)).map payload) ∧
        Holds payload arrived stop frames' := by
  intro start frames h hle hmem ready
  -- Induction on the number of records that are contiguous.
  generalize hn : stop - start = n
  induction n generalizing start frames ready with
  | zero =>
    obtain rfl : start = stop := by omega
    refine ⟨frames, ?_, h⟩
    rw [release, h.nextSeq_eq, h.pending_of_notMem hstop]
    simp
  | succ n ih =>
    have hstart := hmem start (Nat.le_refl _) (by omega)
    obtain ⟨frames', heq, hholds⟩ := ih (h.takePending hstart) (by omega)
      (fun i hi => hmem i (Nat.le_of_succ_le hi)) (ready ++ [payload start]) (by omega)
    refine ⟨frames', ?_, hholds⟩
    rw [release, h.nextSeq_eq, h.pending_of_mem hstart (Nat.le_refl _)]
    show (if start < u32Max then _ else _) = _
    rw [if_pos (by omega), heq, List.append_assoc]
    rfl

/-- The delivery of record `i` stays within the reorder window and the byte
bound, or the record has arrived before. -/
def Within (payload : ℕ → Bytes) (arrived : Finset ℕ) (i : ℕ) : Prop :=
  i ∈ arrived ∨ i - frontier arrived ≤ maxReorderDistance ∧
    (frontier arrived < i →
      ∑ j ∈ waiting arrived (frontier arrived), (payload j).length + (payload i).length ≤
        maxPendingBytes)

/-- A record that has arrived before changes nothing. -/
theorem push_duplicate {i : ℕ} (h : Holds payload arrived start frames) (hi : i ∈ arrived) :
    frames.push i (payload i) = .ok (frames, []) := by
  have hdup : i < frames.nextSeq ∨ (frames.pending i).isSome := by
    by_cases hlt : i < start
    · exact .inl (h.nextSeq_eq ▸ hlt)
    · refine .inr ?_
      rw [h.pending_of_mem hi (Nat.le_of_not_lt hlt)]
      rfl
  rw [push, if_pos hdup]

/-- A record that is early waits. -/
theorem Holds.insert_pending {i : ℕ} (h : Holds payload arrived start frames) (hi : i ∉ arrived)
    (hle : start ≤ i) :
    Holds payload (insert i arrived) start
      { frames with
        pending := update frames.pending i (some (payload i))
        pendingBytes := frames.pendingBytes + (payload i).length } := by
  refine ⟨h.nextSeq_eq, fun {j} hj hlej => ?_, fun {j} hj => ?_, fun {j} hlt => ?_, ?_⟩
  · show update frames.pending i (some (payload i)) j = _
    by_cases hji : j = i
    · rw [hji, update_self]
    · rw [update_of_ne hji]
      exact h.pending_of_mem (Finset.mem_of_mem_insert_of_ne hj hji) hlej
  · rw [Finset.mem_insert, not_or] at hj
    show update frames.pending i (some (payload i)) j = _
    rw [update_of_ne hj.1]
    exact h.pending_of_notMem hj.2
  · show update frames.pending i (some (payload i)) j = _
    rw [update_of_ne (by omega)]
    exact h.pending_of_lt hlt
  · show frames.pendingBytes + (payload i).length = _
    rw [h.pendingBytes_eq, waiting_insert_of_le hle,
      Finset.sum_insert (fun hmem => hi (mem_waiting.1 hmem).1), Nat.add_comm]

/-- The record at the frontier is released, and with it what is behind it. -/
theorem Holds.insert_next (h : Holds payload arrived start frames) (hi : start ∉ arrived) :
    Holds payload (insert start arrived) (start + 1) { frames with nextSeq := start + 1 } := by
  refine ⟨rfl, fun {j} hj hle => ?_, fun {j} hj => ?_, fun {j} hlt => ?_, ?_⟩
  · exact h.pending_of_mem (Finset.mem_of_mem_insert_of_ne hj (by omega)) (by omega)
  · rw [Finset.mem_insert, not_or] at hj
    exact h.pending_of_notMem hj.2
  · rcases Nat.lt_or_ge j start with hj | hj
    · exact h.pending_of_lt hj
    · obtain rfl : j = start := by omega
      exact h.pending_of_notMem hi
  · show frames.pendingBytes = _
    rw [h.pendingBytes_eq, waiting_insert_succ, waiting_succ_of_notMem hi]

/-- **What one delivery does**: within the bounds, it releases the records from
the old frontier to the new one. -/
theorem push_eq {total i : ℕ} (h : Holds payload arrived (frontier arrived) frames)
    (hwithin : Within payload arrived i) (hlt : ∀ j ∈ insert i arrived, j < total)
    (htotal : total ≤ u32Max) :
    ∃ frames',
      frames.push i (payload i) = .ok (frames', (List.range' (frontier arrived)
        (frontier (insert i arrived) - frontier arrived)).map payload) ∧
      Holds payload (insert i arrived) (frontier (insert i arrived)) frames' := by
  by_cases hmem : i ∈ arrived
  · refine ⟨frames, ?_, ?_⟩
    · rw [push_duplicate h hmem, Finset.insert_eq_of_mem hmem, Nat.sub_self]
      rfl
    · rwa [Finset.insert_eq_of_mem hmem]
  have hle : frontier arrived ≤ i := frontier_le hmem
  obtain ⟨hdist, hbytes⟩ := hwithin.resolve_left hmem
  have hnew : ¬(i < frames.nextSeq ∨ (frames.pending i).isSome) := by
    rw [h.nextSeq_eq, h.pending_of_notMem hmem]
    simpa using hle
  rw [push, if_neg hnew, h.nextSeq_eq]
  rcases Nat.eq_or_lt_of_le hle with heq | hearly
  · -- The gap closes.
    have hfrontier := frontier_le_of_lt hlt
    have hadvance : frontier arrived < frontier (insert i arrived) := by
      rw [← heq]
      exact frontier_lt_insert arrived
    have hnext := h.insert_next (frontier_notMem arrived)
    rw [heq] at hnext
    obtain ⟨frames', hrelease, hholds⟩ := release_eq (frontier_notMem _)
      (hfrontier.trans htotal) hnext (by omega)
      (fun j _ hj => mem_of_lt_frontier hj) [payload i]
    refine ⟨frames', ?_, hholds⟩
    rw [if_neg (by omega), advance, h.nextSeq_eq, if_pos (by omega), ok_bind, heq, hrelease]
    have hrange : frontier (insert i arrived) - i = frontier (insert i arrived) - (i + 1) + 1 := by
      omega
    rw [hrange, List.range'_succ, List.map_cons]
    rfl
  · have hpending := h.insert_pending hmem hle
    rw [h.nextSeq_eq, h.pendingBytes_eq] at hpending
    rw [if_pos hearly, if_neg (by omega), h.pendingBytes_eq, if_neg (Nat.not_lt.2 (hbytes hearly)),
      frontier_insert_of_ne (by omega), Nat.sub_self]
    exact ⟨_, rfl, hpending⟩

end OrderedCiphertextFrames

end Codex.NoiseRelay
