import Codex.NoiseRelay.OrderedCiphertext
import Mathlib.Algebra.Order.BigOperators.Group.Finset
import Mathlib.Order.Interval.Finset.Nat

/-!
# Reordering under any calls

The buffer of `Codex.NoiseRelay.OrderedCiphertext` against a peer that sends what
it likes: duplicates, gaps, other payloads for a number that was seen. Here `push`
keeps the state in which a failed call leaves the buffer, and a subtraction that
would underflow is an outcome of its own.
-/

namespace Codex.NoiseRelay

open Function List

/-! ## Calls -/

/-- What a call answers. -/
inductive PushResult where
  | released (payloads : List Bytes)
  | failed (error : RelayError)
  /-- `pending_bytes -= payload.len()` below zero. -/
  | underflow
  deriving DecidableEq

structure Call where
  seq : ℕ
  payload : Bytes
  result : PushResult
  deriving DecidableEq

namespace OrderedCiphertextFrames

/-- The loop of `push`, with the state that it leaves. -/
def releaseInPlace (frames : OrderedCiphertextFrames) (ready : List Bytes) :
    PushResult × OrderedCiphertextFrames :=
  match frames.pending frames.nextSeq with
  | none => (.released ready, frames)
  | some payload =>
    if frames.pendingBytes < payload.length then (.underflow, frames)
    else if frames.nextSeq < u32Max then
      releaseInPlace { frames.takePending payload with nextSeq := frames.nextSeq + 1 }
        (ready ++ [payload])
    else (.failed .sequenceNumberExhausted, frames.takePending payload)
  termination_by u32Max - frames.nextSeq

def pushInPlace (frames : OrderedCiphertextFrames) (seq : ℕ) (payload : Bytes) :
    PushResult × OrderedCiphertextFrames :=
  if seq < frames.nextSeq ∨ (frames.pending seq).isSome then (.released [], frames)
  else if frames.nextSeq < seq then
    if maxReorderDistance < seq - frames.nextSeq then (.failed .exceedsReorderWindow, frames)
    else if maxPendingBytes < frames.pendingBytes + payload.length then
      (.failed .pendingBufferFull, frames)
    else (.released [], { frames with
      pending := update frames.pending seq (some payload)
      pendingBytes := frames.pendingBytes + payload.length })
  else
    match frames.advance with
    | .ok frames => frames.releaseInPlace [payload]
    | .error error => (.failed error, frames)

/-- A fresh buffer after the calls, and what they answered. -/
def pushAll (calls : List (ℕ × Bytes)) : List Call × OrderedCiphertextFrames :=
  calls.foldl (fun (log, frames) (seq, payload) =>
    let (result, frames) := frames.pushInPlace seq payload
    (log ++ [⟨seq, payload, result⟩], frames)) ([], {})

end OrderedCiphertextFrames

/-! ## What the calls say -/

def PushResult.payloads : PushResult → List Bytes
  | .released payloads => payloads
  | _ => []

/-- The payloads that the calls released, in order. -/
def released (log : List Call) : List Bytes := log.flatMap fun call => call.result.payloads

def Call.accepted (call : Call) : Bool :=
  match call.result with
  | .released _ => true
  | _ => false

/-- The payload of the first call with the number that did not fail. -/
def firstAccepted (log : List Call) (seq : ℕ) : Option Bytes :=
  (log.find? fun call => call.seq = seq ∧ call.accepted).map (·.payload)

/-- The sequence numbers ran out. -/
def Exhausted (log : List Call) : Prop :=
  ∃ call ∈ log, call.result = .failed .sequenceNumberExhausted

section

variable {log : List Call} {call : Call} {i n : ℕ} {payload : Bytes}

theorem released_concat (log : List Call) (call : Call) :
    released (log ++ [call]) = released log ++ call.result.payloads := by
  simp [released]

theorem firstAccepted_concat (log : List Call) (call : Call) (i : ℕ) :
    firstAccepted (log ++ [call]) i =
      (firstAccepted log i).or
        (if call.seq = i ∧ call.accepted then some call.payload else none) := by
  unfold firstAccepted
  rw [find?_append, Option.map_or, find?_singleton]
  by_cases h : call.seq = i ∧ call.accepted = true
  · rw [if_pos (decide_eq_true h), if_pos h]
    rfl
  · rw [if_neg (by rwa [decide_eq_true_eq]), if_neg h]
    rfl

theorem firstAccepted_concat_of_ne_none (h : firstAccepted log i ≠ none) (call : Call) :
    firstAccepted (log ++ [call]) i = firstAccepted log i := by
  obtain ⟨payload, hsome⟩ := Option.ne_none_iff_exists'.1 h
  rw [firstAccepted_concat, hsome]
  rfl

theorem firstAccepted_concat_of_not (h : ¬(call.seq = i ∧ call.accepted)) :
    firstAccepted (log ++ [call]) i = firstAccepted log i := by
  rw [firstAccepted_concat, if_neg h, Option.or_none]

/-- What was released stays the first that was accepted. -/
theorem map_firstAccepted_concat {payloads : List Bytes}
    (h : payloads.map some = (List.range n).map (firstAccepted log)) (call : Call) :
    (List.range n).map (firstAccepted (log ++ [call])) = payloads.map some := by
  rw [h]
  refine map_congr_left fun i hi => firstAccepted_concat_of_ne_none ?_ call
  have hmem : firstAccepted log i ∈ payloads.map some := h ▸ mem_map_of_mem hi
  obtain ⟨payload, -, hsome⟩ := mem_map.1 hmem
  exact hsome ▸ Option.some_ne_none payload

theorem exhausted_concat :
    Exhausted (log ++ [call]) ↔
      Exhausted log ∨ call.result = .failed .sequenceNumberExhausted := by
  simp [Exhausted, or_and_right, exists_or]

end

namespace OrderedCiphertextFrames

variable {frames frames' : OrderedCiphertextFrames} {window window' : Finset ℕ} {i seq : ℕ}
  {payload : Bytes} {ready : List Bytes} {error : RelayError} {log : List Call}

/-! ## The byte counter -/

/-- The length of what waits under a number. -/
def waitingLength (pending : ℕ → Option Bytes) (i : ℕ) : ℕ := ((pending i).map List.length).getD 0

/-- Everything that waits lies in the window, and the counter is its length. -/
structure Counts (window : Finset ℕ) (frames : OrderedCiphertextFrames) : Prop where
  mem : ∀ {i}, frames.pending i ≠ none → i ∈ window
  pendingBytes_eq : frames.pendingBytes = ∑ i ∈ window, waitingLength frames.pending i

variable {pending : ℕ → Option Bytes} {result : PushResult}

theorem waitingLength_of_some (h : pending i = some payload) :
    waitingLength pending i = payload.length := by
  rw [waitingLength, h]
  rfl

theorem waitingLength_of_none (h : pending i = none) : waitingLength pending i = 0 := by
  rw [waitingLength, h]
  rfl

theorem Counts.length_le (h : Counts window frames) (hsome : frames.pending i = some payload) :
    payload.length ≤ frames.pendingBytes := by
  have hmem : i ∈ window := h.mem (by rw [hsome]; exact Option.some_ne_none _)
  rw [h.pendingBytes_eq, ← waitingLength_of_some hsome]
  exact Finset.single_le_sum (fun _ _ => Nat.zero_le _) hmem

/-- The window does not matter as long as it holds what waits. -/
theorem Counts.of_mem (h : Counts window frames)
    (hmem : ∀ i, frames.pending i ≠ none → i ∈ window') : Counts window' frames := by
  have hpending {i : ℕ} (hi : waitingLength frames.pending i ≠ 0) : frames.pending i ≠ none :=
    fun hnone => hi (waitingLength_of_none hnone)
  refine ⟨fun hi => hmem _ hi, ?_⟩
  rw [h.pendingBytes_eq, ← Finset.sum_filter_ne_zero window, ← Finset.sum_filter_ne_zero window']
  congr 1
  ext i
  rw [Finset.mem_filter, Finset.mem_filter]
  exact and_congr_left fun hi => ⟨fun _ => hmem i (hpending hi), fun _ => h.mem (hpending hi)⟩

theorem sum_waitingLength_update (pending : ℕ → Option Bytes) (value : Option Bytes)
    (hi : i ∈ window) :
    ∑ j ∈ window, waitingLength (update pending i value) j + waitingLength pending i =
      ∑ j ∈ window, waitingLength pending j + (value.map List.length).getD 0 := by
  have hrest : ∑ j ∈ window.erase i, waitingLength (update pending i value) j =
      ∑ j ∈ window.erase i, waitingLength pending j := by
    refine Finset.sum_congr rfl fun j hj => ?_
    rw [waitingLength, update_of_ne (Finset.ne_of_mem_erase hj), waitingLength]
  have hself : waitingLength (update pending i value) i =
      (value.map List.length).getD 0 := by
    rw [waitingLength, update_self]
  rw [← Finset.add_sum_erase window _ hi, ← Finset.add_sum_erase window (waitingLength pending) hi,
    hrest, hself]
  omega

theorem mem_of_update {value : Option Bytes} {j : ℕ} (hmem : pending j ≠ none → j ∈ window)
    (hi : i ∈ window) (hj : update pending i value j ≠ none) : j ∈ window := by
  by_cases heq : j = i
  · exact heq ▸ hi
  · rw [update_of_ne heq] at hj
    exact hmem hj

theorem Counts.takePending (h : Counts window frames)
    (hsome : frames.pending frames.nextSeq = some payload) (next : ℕ) :
    Counts window { frames.takePending payload with nextSeq := next } := by
  have hmem : frames.nextSeq ∈ window := h.mem (by rw [hsome]; exact Option.some_ne_none _)
  refine ⟨fun hj => mem_of_update h.mem hmem hj, ?_⟩
  have hsum := sum_waitingLength_update frames.pending none hmem
  rw [waitingLength_of_some hsome, ← h.pendingBytes_eq, Option.map_none, Option.getD_none] at hsum
  show frames.pendingBytes - payload.length =
    ∑ j ∈ window, waitingLength (update frames.pending frames.nextSeq none) j
  omega

theorem Counts.insert_pending (h : Counts window frames) (hi : i ∈ window)
    (hnone : frames.pending i = none) (payload : Bytes) :
    Counts window { frames with
      pending := update frames.pending i (some payload)
      pendingBytes := frames.pendingBytes + payload.length } := by
  refine ⟨fun hj => mem_of_update h.mem hi hj, ?_⟩
  have hsum := sum_waitingLength_update frames.pending (some payload) hi
  rw [waitingLength_of_none hnone, ← h.pendingBytes_eq] at hsum
  exact hsum.symm

/-! ## The loop -/

theorem releaseInPlace_none (h : frames.pending frames.nextSeq = none) (ready : List Bytes) :
    frames.releaseInPlace ready = (.released ready, frames) := by
  rw [releaseInPlace, h]

theorem releaseInPlace_some (h : frames.pending frames.nextSeq = some payload)
    (hlen : payload.length ≤ frames.pendingBytes) (ready : List Bytes) :
    frames.releaseInPlace ready =
      if frames.nextSeq < u32Max then
        releaseInPlace { frames.takePending payload with nextSeq := frames.nextSeq + 1 }
          (ready ++ [payload])
      else (.failed .sequenceNumberExhausted, frames.takePending payload) := by
  rw [releaseInPlace, h]
  exact if_neg (Nat.not_lt.2 hlen)

/-- What the loop does to a buffer: it stops at the first gap, or the numbers run out on the way. -/
structure Releases (ready : List Bytes) (frames : OrderedCiphertextFrames) (result : PushResult)
    (frames' : OrderedCiphertextFrames) : Prop where
  le : frames.nextSeq ≤ frames'.nextSeq
  le_max : frames'.nextSeq ≤ u32Max
  pending_ne_none : ∀ {i}, frames'.pending i ≠ none → frames'.nextSeq < i ∧ frames.pending i ≠ none
  pendingBytes_le : frames'.pendingBytes ≤ frames.pendingBytes
  outcome : result = .failed .sequenceNumberExhausted ∧ frames'.nextSeq = u32Max ∨
    ∃ run, result = .released (ready ++ run) ∧
      run.map some = (List.range' frames.nextSeq (frames'.nextSeq - frames.nextSeq)).map
        frames.pending ∧
      ∀ i, frames'.nextSeq ≤ i → frames'.pending i = frames.pending i

theorem ne_none_of_update_none {j : ℕ} (h : update pending i none j ≠ none) :
    j ≠ i ∧ pending j ≠ none := by
  have hne : j ≠ i := by
    rintro rfl
    exact h (update_self ..)
  refine ⟨hne, ?_⟩
  rwa [update_of_ne hne] at h

/-- The payload under `next_seq` is released before what follows it. -/
theorem Releases.cons (hsome : frames.pending frames.nextSeq = some payload)
    (h : Releases (ready ++ [payload])
      { frames.takePending payload with nextSeq := frames.nextSeq + 1 } result frames') :
    Releases ready frames result frames' := by
  have hle : frames.nextSeq + 1 ≤ frames'.nextSeq := h.le
  have hother {i : ℕ} (hi : frames.nextSeq + 1 ≤ i) :
      (frames.takePending payload).pending i = frames.pending i :=
    update_of_ne (Nat.ne_of_gt hi) _ _
  refine ⟨Nat.le_of_succ_le hle, h.le_max, fun {i} hi => ?_, ?_, ?_⟩
  · obtain ⟨hlt, hpending⟩ := h.pending_ne_none hi
    exact ⟨hlt, (ne_none_of_update_none hpending).2⟩
  · exact h.pendingBytes_le.trans (Nat.sub_le _ _)
  · obtain hfailed | ⟨run, hresult, hrun, hrest⟩ := h.outcome
    · exact .inl hfailed
    · refine .inr ⟨payload :: run, ?_, ?_, fun i hi => ?_⟩
      · rw [hresult, List.append_assoc, singleton_append]
      · have hrange : frames'.nextSeq - frames.nextSeq =
            frames'.nextSeq - (frames.nextSeq + 1) + 1 := by omega
        rw [hrange, range'_succ, map_cons, map_cons, hrun, hsome]
        refine congrArg (some payload :: ·) (map_congr_left fun i hi => hother ?_)
        exact (mem_range'_1.1 hi).1
      · rw [hrest i hi]
        exact hother (by omega)

theorem releaseInPlace_spec (hcounts : Counts window frames) (hmax : frames.nextSeq ≤ u32Max)
    (hle : ∀ i, frames.pending i ≠ none → frames.nextSeq ≤ i) :
    Counts window (frames.releaseInPlace ready).2 ∧
      Releases ready frames (frames.releaseInPlace ready).1 (frames.releaseInPlace ready).2 := by
  induction frames, ready using releaseInPlace.induct with
  | case1 frames ready hnone =>
    rw [releaseInPlace_none hnone]
    refine ⟨hcounts, Nat.le_refl _, hmax, fun {i} hi => ⟨?_, hi⟩, Nat.le_refl _, .inr ⟨[], ?_⟩⟩
    · refine lt_of_le_of_ne (hle i hi) ?_
      rintro rfl
      exact hi hnone
    · refine ⟨by rw [append_nil], ?_, fun _ _ => rfl⟩
      rw [Nat.sub_self]
      rfl
  | case2 frames ready payload hsome hlt =>
    exact absurd (hcounts.length_le hsome) (Nat.not_le.2 hlt)
  | case3 frames ready payload hsome hge hlt ih =>
    rw [releaseInPlace_some hsome (Nat.not_lt.1 hge), if_pos hlt]
    obtain ⟨hcounts', hreleases⟩ := ih (hcounts.takePending hsome _) hlt fun i hi => by
      obtain ⟨hne, hpending⟩ := ne_none_of_update_none hi
      exact Nat.lt_of_le_of_ne (hle i hpending) hne.symm
    exact ⟨hcounts', hreleases.cons hsome⟩
  | case4 frames ready payload hsome hge hlt =>
    rw [releaseInPlace_some hsome (Nat.not_lt.1 hge), if_neg hlt]
    refine ⟨hcounts.takePending hsome _, Nat.le_refl _, hmax, fun {i} hi => ?_, Nat.sub_le _ _,
      .inl ⟨rfl, Nat.le_antisymm hmax (Nat.not_lt.1 hlt)⟩⟩
    obtain ⟨hne, hpending⟩ := ne_none_of_update_none hi
    exact ⟨Nat.lt_of_le_of_ne (hle i hpending) hne.symm, hpending⟩

/-! ## One call -/

/-- What a call does. -/
inductive Pushes (frames : OrderedCiphertextFrames) (seq : ℕ) (payload : Bytes) :
    PushResult → OrderedCiphertextFrames → Prop where
  | duplicate (hseen : seq < frames.nextSeq ∨ frames.pending seq ≠ none) :
      Pushes frames seq payload (.released []) frames
  | tooFar : Pushes frames seq payload (.failed .exceedsReorderWindow) frames
  | full : Pushes frames seq payload (.failed .pendingBufferFull) frames
  | waits (hlt : frames.nextSeq < seq) (hle : seq ≤ frames.nextSeq + maxReorderDistance)
      (hnone : frames.pending seq = none)
      (hbytes : frames.pendingBytes + payload.length ≤ maxPendingBytes) :
      Pushes frames seq payload (.released []) { frames with
        pending := update frames.pending seq (some payload)
        pendingBytes := frames.pendingBytes + payload.length }
  | exhausted (hmax : u32Max ≤ frames.nextSeq) :
      Pushes frames seq payload (.failed .sequenceNumberExhausted) frames
  | next (hseq : seq = frames.nextSeq) (hlt : frames.nextSeq < u32Max) :
      Pushes frames seq payload
        (releaseInPlace { frames with nextSeq := frames.nextSeq + 1 } [payload]).1
        (releaseInPlace { frames with nextSeq := frames.nextSeq + 1 } [payload]).2

theorem pushInPlace_cases (frames : OrderedCiphertextFrames) (seq : ℕ) (payload : Bytes) :
    Pushes frames seq payload (frames.pushInPlace seq payload).1
      (frames.pushInPlace seq payload).2 := by
  unfold pushInPlace
  split
  · next hseen => exact .duplicate (hseen.imp_right Option.isSome_iff_ne_none.1)
  · next hnew =>
    obtain ⟨hge, hnone⟩ := not_or.1 hnew
    split
    · next hlt =>
      split
      · exact .tooFar
      · next hnear =>
        split
        · exact .full
        · next hbytes =>
          exact .waits hlt (by omega) (Option.not_isSome_iff_eq_none.1 hnone) (Nat.not_lt.1 hbytes)
    · next hle =>
      unfold advance
      split
      · next frames' hadvance =>
        split at hadvance
        · next hlt =>
          cases hadvance
          exact .next (by omega) hlt
        · cases hadvance
      · next error hadvance =>
        split at hadvance
        · cases hadvance
        · next hmax =>
          cases hadvance
          exact .exhausted (Nat.not_lt.1 hmax)

/-! ## Any calls -/

/-- The numbers that may wait. -/
def reorderWindow (frames : OrderedCiphertextFrames) : Finset ℕ :=
  Finset.Ioc frames.nextSeq (frames.nextSeq + maxReorderDistance)

/-- The buffer after the calls of the log. Unless the numbers ran out, every number before `next_seq`
is released, and what waits is what was accepted first. -/
structure Reordered (log : List Call) (frames : OrderedCiphertextFrames) : Prop where
  counts : Counts frames.reorderWindow frames
  pendingBytes_le : frames.pendingBytes ≤ maxPendingBytes
  nextSeq_le : frames.nextSeq ≤ u32Max
  not_underflow : ∀ call ∈ log, call.result ≠ .underflow
  released_eq : ∃ n, (released log).map some = (List.range n).map (firstAccepted log) ∧
    (¬Exhausted log → n = frames.nextSeq)
  pending_eq : ¬Exhausted log → ∀ i, frames.nextSeq ≤ i → frames.pending i = firstAccepted log i
  nextSeq_of_exhausted : Exhausted log → frames.nextSeq = u32Max

theorem reordered_nil : Reordered [] {} where
  counts := ⟨fun h => absurd rfl h, (Finset.sum_eq_zero fun _ _ => rfl).symm⟩
  pendingBytes_le := Nat.zero_le _
  nextSeq_le := Nat.zero_le _
  not_underflow _ h := absurd h not_mem_nil
  released_eq := ⟨0, rfl, fun _ => rfl⟩
  pending_eq _ _ _ := rfl
  nextSeq_of_exhausted := fun ⟨_, h, _⟩ => absurd h not_mem_nil

theorem Reordered.mem_window (h : Reordered log frames) (hi : frames.pending i ≠ none) :
    frames.nextSeq < i ∧ i ≤ frames.nextSeq + maxReorderDistance :=
  Finset.mem_Ioc.1 (h.counts.mem hi)

theorem Reordered.pending_nextSeq (h : Reordered log frames) :
    frames.pending frames.nextSeq = none := by
  by_contra hne
  exact Nat.lt_irrefl _ (h.mem_window hne).1

/-- A number that was seen was accepted, unless the numbers ran out. -/
theorem Reordered.firstAccepted_of_seen (h : Reordered log frames) (hlog : ¬Exhausted log)
    (hseen : seq < frames.nextSeq ∨ frames.pending seq ≠ none) : firstAccepted log seq ≠ none := by
  by_cases hlt : seq < frames.nextSeq
  · obtain ⟨n, hreleased, hn⟩ := h.released_eq
    obtain rfl := hn hlog
    have hmem : firstAccepted log seq ∈ (released log).map some :=
      hreleased ▸ mem_map_of_mem (List.mem_range.2 hlt)
    obtain ⟨payload, -, hsome⟩ := mem_map.1 hmem
    exact hsome ▸ Option.some_ne_none payload
  · rw [← h.pending_eq hlog seq (Nat.not_lt.1 hlt)]
    exact hseen.resolve_left hlt

/-- A call that releases nothing and leaves the buffer as it is. -/
theorem Reordered.unchanged (h : Reordered log frames)
    (hunderflow : result ≠ .underflow) (hpayloads : result.payloads = [])
    (hexhausted : result = .failed .sequenceNumberExhausted → frames.nextSeq = u32Max)
    (hfirst : ¬Exhausted log → ∀ i,
      firstAccepted (log ++ [⟨seq, payload, result⟩]) i = firstAccepted log i) :
    Reordered (log ++ [⟨seq, payload, result⟩]) frames where
  counts := h.counts
  pendingBytes_le := h.pendingBytes_le
  nextSeq_le := h.nextSeq_le
  not_underflow call hcall := by
    obtain hcall | hcall := mem_append.1 hcall
    · exact h.not_underflow call hcall
    · obtain rfl := mem_singleton.1 hcall
      exact hunderflow
  released_eq := by
    obtain ⟨n, hreleased, hn⟩ := h.released_eq
    refine ⟨n, ?_, fun hlog => hn fun hbefore => hlog (exhausted_concat.2 (.inl hbefore))⟩
    rw [map_firstAccepted_concat hreleased, released_concat, hpayloads, append_nil]
  pending_eq hlog i hi := by
    have hbefore : ¬Exhausted log := fun hbefore => hlog (exhausted_concat.2 (.inl hbefore))
    rw [h.pending_eq hbefore i hi, hfirst hbefore i]
  nextSeq_of_exhausted hlog := by
    obtain hbefore | hresult := exhausted_concat.1 hlog
    · exact h.nextSeq_of_exhausted hbefore
    · exact hexhausted hresult

/-- A failed call accepts nothing. -/
theorem Reordered.failed (h : Reordered log frames)
    (hexhausted : error = .sequenceNumberExhausted → frames.nextSeq = u32Max) :
    Reordered (log ++ [⟨seq, payload, .failed error⟩]) frames := by
  refine h.unchanged nofun rfl (fun heq => hexhausted (by injection heq)) fun _ i => ?_
  exact firstAccepted_concat_of_not fun haccepted => absurd haccepted.2 Bool.false_ne_true

/-- A record that is early waits, and is the first that is accepted under its number. -/
theorem Reordered.waits (h : Reordered log frames) (hlt : frames.nextSeq < seq)
    (hle : seq ≤ frames.nextSeq + maxReorderDistance) (hnone : frames.pending seq = none)
    (hbytes : frames.pendingBytes + payload.length ≤ maxPendingBytes) :
    Reordered (log ++ [⟨seq, payload, .released []⟩]) { frames with
      pending := update frames.pending seq (some payload)
      pendingBytes := frames.pendingBytes + payload.length } := by
  have hbefore (hlog : ¬Exhausted (log ++ [⟨seq, payload, .released []⟩])) : ¬Exhausted log :=
    fun hlog' => hlog (exhausted_concat.2 (.inl hlog'))
  refine ⟨h.counts.insert_pending (Finset.mem_Ioc.2 ⟨hlt, hle⟩) hnone payload, hbytes,
    h.nextSeq_le, ?_, ?_, fun hlog i hi => ?_, fun hlog => ?_⟩
  · intro call hcall
    obtain hcall | hcall := mem_append.1 hcall
    · exact h.not_underflow call hcall
    · obtain rfl := mem_singleton.1 hcall
      nofun
  · obtain ⟨n, hreleased, hn⟩ := h.released_eq
    refine ⟨n, ?_, fun hlog => hn (hbefore hlog)⟩
    rw [map_firstAccepted_concat hreleased, released_concat]
    exact congrArg _ (append_nil _)
  · have hpending := h.pending_eq (hbefore hlog) i hi
    by_cases heq : i = seq
    · subst heq
      rw [firstAccepted_concat, ← hpending, hnone, if_pos ⟨rfl, rfl⟩]
      exact update_self ..
    · rw [firstAccepted_concat_of_not fun hnew => heq hnew.1.symm, ← hpending]
      exact update_of_ne heq ..
  · obtain hlog' | hresult := exhausted_concat.1 hlog
    · exact h.nextSeq_of_exhausted hlog'
    · cases hresult

/-- The expected record is released, with what waits behind it. -/
theorem Reordered.released_next {run : List Bytes} (h : Reordered log frames)
    (hlog : ¬Exhausted log) (hle : frames.nextSeq < frames'.nextSeq)
    (hrun : run.map some = (List.range' (frames.nextSeq + 1)
      (frames'.nextSeq - (frames.nextSeq + 1))).map frames.pending) :
    (released (log ++ [⟨frames.nextSeq, payload, .released (payload :: run)⟩])).map some =
      (List.range frames'.nextSeq).map
        (firstAccepted (log ++ [⟨frames.nextSeq, payload, .released (payload :: run)⟩])) := by
  obtain ⟨n, hreleased, hn⟩ := h.released_eq
  obtain rfl := hn hlog
  have hsplit : List.range frames'.nextSeq = List.range frames.nextSeq ++ frames.nextSeq ::
      List.range' (frames.nextSeq + 1) (frames'.nextSeq - (frames.nextSeq + 1)) := by
    have hcount : frames'.nextSeq = frames.nextSeq + (frames'.nextSeq - (frames.nextSeq + 1) + 1) := by
      omega
    conv_lhs => rw [hcount, range_eq_range', ← range'_append_1, Nat.zero_add]
    rw [range_eq_range', range'_succ]
  have hself : firstAccepted (log ++ [⟨frames.nextSeq, payload, .released (payload :: run)⟩])
      frames.nextSeq = some payload := by
    rw [firstAccepted_concat, ← h.pending_eq hlog _ (Nat.le_refl _), h.pending_nextSeq,
      if_pos ⟨rfl, rfl⟩]
    rfl
  rw [hsplit, map_append, map_firstAccepted_concat hreleased, map_cons, hself,
    released_concat, map_append]
  refine congrArg (_ ++ some payload :: ·) (hrun.trans (map_congr_left fun i hi => ?_))
  have hi := (mem_range'_1.1 hi).1
  rw [firstAccepted_concat_of_not fun hnew => ?_, h.pending_eq hlog i (by omega)]
  exact Nat.ne_of_lt hi hnew.1

theorem Reordered.next (h : Reordered log frames) (hlt : frames.nextSeq < u32Max)
    (hcounts : Counts frames.reorderWindow frames')
    (hreleases : Releases [payload] { frames with nextSeq := frames.nextSeq + 1 } result frames') :
    Reordered (log ++ [⟨frames.nextSeq, payload, result⟩]) frames' := by
  have hle : frames.nextSeq + 1 ≤ frames'.nextSeq := hreleases.le
  have hlog : ¬Exhausted log := fun hlog => by
    rw [h.nextSeq_of_exhausted hlog] at hlt
    exact Nat.lt_irrefl _ hlt
  have hwindow : ∀ i, frames'.pending i ≠ none → i ∈ frames'.reorderWindow := by
    intro i hi
    obtain ⟨hafter, hpending⟩ := hreleases.pending_ne_none hi
    obtain ⟨-, hnear⟩ := h.mem_window hpending
    exact Finset.mem_Ioc.2 ⟨hafter, by omega⟩
  have hunderflow (hresult : result ≠ .underflow) :
      ∀ call ∈ log ++ [⟨frames.nextSeq, payload, result⟩], call.result ≠ .underflow := by
    intro call hcall
    obtain hcall | hcall := mem_append.1 hcall
    · exact h.not_underflow call hcall
    · obtain rfl := mem_singleton.1 hcall
      exact hresult
  obtain ⟨rfl, hmax⟩ | ⟨run, rfl, hrun, hrest⟩ := hreleases.outcome
  · have hlog' : Exhausted (log ++ [⟨frames.nextSeq, payload, .failed .sequenceNumberExhausted⟩]) :=
      exhausted_concat.2 (.inr rfl)
    obtain ⟨n, hreleased, -⟩ := h.released_eq
    refine ⟨hcounts.of_mem hwindow, hreleases.pendingBytes_le.trans h.pendingBytes_le,
      hreleases.le_max, hunderflow nofun, ⟨n, ?_, fun hnot => absurd hlog' hnot⟩,
      fun hnot => absurd hlog' hnot, fun _ => hmax⟩
    rw [map_firstAccepted_concat hreleased, released_concat]
    exact congrArg _ (append_nil _)
  · have hlog' : ¬Exhausted (log ++ [⟨frames.nextSeq, payload, .released ([payload] ++ run)⟩]) :=
      fun hlog' => (exhausted_concat.1 hlog').elim hlog nofun
    refine ⟨hcounts.of_mem hwindow, hreleases.pendingBytes_le.trans h.pendingBytes_le,
      hreleases.le_max, hunderflow nofun, ⟨_, h.released_next hlog hle hrun, fun _ => rfl⟩,
      fun _ i hi => ?_, fun hexhausted => absurd hexhausted hlog'⟩
    rw [hrest i hi, firstAccepted_concat_of_not fun hnew => ?_, h.pending_eq hlog i (by omega)]
    exact Nat.ne_of_lt (Nat.lt_of_lt_of_le hle hi) hnew.1

theorem Reordered.releases (h : Reordered log frames) (hlt : frames.nextSeq < u32Max)
    (payload : Bytes) :
    Counts frames.reorderWindow
        (releaseInPlace { frames with nextSeq := frames.nextSeq + 1 } [payload]).2 ∧
      Releases [payload] { frames with nextSeq := frames.nextSeq + 1 }
        (releaseInPlace { frames with nextSeq := frames.nextSeq + 1 } [payload]).1
        (releaseInPlace { frames with nextSeq := frames.nextSeq + 1 } [payload]).2 :=
  releaseInPlace_spec ⟨h.counts.mem, h.counts.pendingBytes_eq⟩ hlt fun _ hi => (h.mem_window hi).1

/-- **What one call keeps.** -/
theorem Reordered.push (h : Reordered log frames) (seq : ℕ) (payload : Bytes) :
    Reordered (log ++ [⟨seq, payload, (frames.pushInPlace seq payload).1⟩])
      (frames.pushInPlace seq payload).2 := by
  generalize hresult : (frames.pushInPlace seq payload).1 = result
  generalize hframes : (frames.pushInPlace seq payload).2 = frames'
  have hpush := pushInPlace_cases frames seq payload
  rw [hresult, hframes] at hpush
  cases hpush with
  | duplicate hseen =>
    refine h.unchanged nofun rfl nofun fun hlog i => ?_
    by_cases heq : seq = i
    · exact firstAccepted_concat_of_ne_none (heq ▸ h.firstAccepted_of_seen hlog hseen) _
    · exact firstAccepted_concat_of_not fun hnew => heq hnew.1
  | tooFar => exact h.failed nofun
  | full => exact h.failed nofun
  | waits hlt hle hnone hbytes => exact h.waits hlt hle hnone hbytes
  | exhausted hmax => exact h.failed fun _ => Nat.le_antisymm h.nextSeq_le hmax
  | next hseq hlt =>
    obtain rfl := hseq
    obtain ⟨hcounts, hreleases⟩ := h.releases hlt payload
    exact h.next hlt hcounts hreleases

/-- A call that fails for another reason than that the numbers ran out changes nothing. -/
theorem Reordered.eq_of_failed (h : Reordered log frames)
    (hfailed : (frames.pushInPlace seq payload).1 = .failed error)
    (hne : error ≠ .sequenceNumberExhausted) : (frames.pushInPlace seq payload).2 = frames := by
  generalize hframes : (frames.pushInPlace seq payload).2 = frames'
  have hpush := pushInPlace_cases frames seq payload
  rw [hfailed, hframes] at hpush
  generalize hresult : PushResult.failed error = result at hpush
  cases hpush with
  | duplicate => rfl
  | tooFar => rfl
  | full => rfl
  | waits => cases hresult
  | exhausted => rfl
  | next hseq hlt =>
    obtain ⟨hcause, -⟩ | ⟨run, hreleased, -⟩ := (h.releases hlt payload).2.outcome
    · cases hresult.trans hcause
      exact absurd rfl hne
    · cases hresult.trans hreleased

theorem pushAll_concat (calls : List (ℕ × Bytes)) (seq : ℕ) (payload : Bytes) :
    pushAll (calls ++ [(seq, payload)]) =
      ((pushAll calls).1 ++ [⟨seq, payload, ((pushAll calls).2.pushInPlace seq payload).1⟩],
        ((pushAll calls).2.pushInPlace seq payload).2) := by
  unfold pushAll
  rw [foldl_concat]

theorem reordered_pushAll (calls : List (ℕ × Bytes)) :
    Reordered (pushAll calls).1 (pushAll calls).2 := by
  induction calls using List.reverseRecOn with
  | nil => exact reordered_nil
  | append_singleton calls call ih =>
    rw [pushAll_concat]
    exact ih.push call.1 call.2

/-- **The buffer under any calls**: what waits is in the window and is counted, a record that does
not fit changes nothing, and what is released is the first payload of each number, in order. -/
theorem pushAll_invariants (calls : List (ℕ × Bytes)) :
    let log := (pushAll calls).1
    let frames := (pushAll calls).2
    (∀ i, frames.pending i ≠ none →
      frames.nextSeq < i ∧ i ≤ frames.nextSeq + maxReorderDistance) ∧
    frames.pendingBytes = ∑ i ∈ frames.reorderWindow, waitingLength frames.pending i ∧
    frames.pendingBytes ≤ maxPendingBytes ∧
    (∀ call ∈ log, call.result ≠ .underflow) ∧
    (∀ seq payload error,
      error = .exceedsReorderWindow ∨ error = .pendingBufferFull →
      (frames.pushInPlace seq payload).1 = .failed error →
      (frames.pushInPlace seq payload).2 = frames) ∧
    (∃ n, (released log).map some = (List.range n).map (firstAccepted log) ∧
      (¬Exhausted log → n = frames.nextSeq)) ∧
    (¬Exhausted log → ∀ i, frames.nextSeq ≤ i → frames.pending i = firstAccepted log i) := by
  intro log frames
  have h : Reordered log frames := reordered_pushAll calls
  refine ⟨fun i hi => h.mem_window hi, h.counts.pendingBytes_eq, h.pendingBytes_le,
    h.not_underflow, fun seq payload error herror hfailed => h.eq_of_failed hfailed ?_,
    h.released_eq, h.pending_eq⟩
  rintro rfl
  obtain herror | herror := herror <;> cases herror

end OrderedCiphertextFrames

end Codex.NoiseRelay
