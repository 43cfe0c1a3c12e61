import Codex.Base.Machine
import Codex.Base.Recent
import Codex.Base.Table
import Codex.Text.Str

/-!
# Writes to the stdin of a process

`LocalProcess::exec_write` (`exec-server/src/local_process.rs`) and the client that
calls it (`Session::write` in `client.rs`). The client sends a write again, under
the same id, when its connection is lost; the server remembers the ids of the last
writes. A handler looks for its id, waits for a place in the channel and looks
again before it sends (`writes_sent_once`).
-/

namespace Codex.ExecServer

open List Codex.Text

/-! ## Accepted ids -/

def retainedStdinWriteIdsPerProcess : ℕ := 4096

structure AcceptedStdinWriteIds where
  ids : Finset Str := ∅
  order : List Str := []
  deriving DecidableEq

namespace AcceptedStdinWriteIds

def contains (accepted : AcceptedStdinWriteIds) (writeId : Str) : Bool := writeId ∈ accepted.ids

/-- The loop of `remember`. -/
def evict (ids : Finset Str) : List Str → AcceptedStdinWriteIds
  | [] => ⟨ids, []⟩
  | evicted :: order =>
    if retainedStdinWriteIdsPerProcess < (evicted :: order).length then
      evict (ids.erase evicted) order
    else ⟨ids, evicted :: order⟩

def remember (accepted : AcceptedStdinWriteIds) (writeId : Str) : AcceptedStdinWriteIds :=
  if writeId ∈ accepted.ids then accepted
  else evict (insert writeId accepted.ids) (accepted.order ++ [writeId])

end AcceptedStdinWriteIds

/-! ## Requests, handlers and answers -/

structure WriteParams where
  writeId : Str
  chunk : List UInt8
  deriving DecidableEq

inductive WriteStatus where
  | accepted
  | unknownProcess
  | stdinClosed
  | starting
  deriving DecidableEq

/-- What a handler finds under the id of the process. -/
inductive ProcessEntry where
  | missing
  | starting
  | running (tty pipeStdin : Bool)
  deriving DecidableEq

inductive RpcError where
  | invalidParams (message : Str)
  | internalError (message : Str)
  deriving DecidableEq

abbrev WriteAnswer := Except RpcError WriteStatus

/-- The awaits of `exec_write`. -/
inductive WritePhase where
  | lookup
  | firstCheck
  | reserve
  | secondCheck
  deriving DecidableEq

/-- `exec_write` up to its first await. -/
def beginWrite (params : WriteParams) : Except WriteAnswer WritePhase :=
  if params.writeId = [] then .error (.error (.invalidParams "writeId must not be empty".toList))
  else .ok .lookup

def lookupProcess : ProcessEntry → Except WriteAnswer WritePhase
  | .missing => .error (.ok .unknownProcess)
  | .starting => .error (.ok .starting)
  | .running tty pipeStdin =>
    if !tty && !pipeStdin then .error (.ok .stdinClosed) else .ok .firstCheck

def firstCheck (accepted : AcceptedStdinWriteIds) (params : WriteParams) :
    Except WriteAnswer WritePhase :=
  if accepted.contains params.writeId then .error (.ok .accepted) else .ok .reserve

/-- `writer_tx.reserve()`, which fails if the channel has been closed. -/
def reservePermit : Bool → Except WriteAnswer WritePhase
  | true => .ok .secondCheck
  | false => .error (.error (.internalError "failed to write to process stdin".toList))

/-- From the lock to the end there is no await: the id is remembered with the send. -/
def sendChunk (accepted : AcceptedStdinWriteIds) (sent : List WriteParams) (params : WriteParams) :
    AcceptedStdinWriteIds × List WriteParams :=
  if accepted.contains params.writeId then (accepted, sent)
  else (accepted.remember params.writeId, sent ++ [params])

/-! ## The client and its handlers -/

/-- `next_write_id` and the writes that were given their ids; the ids that the server remembers, what
it has sent to the channel, its handlers, and the answers it has given. -/
structure StdinWrites where
  nextWriteId : ℕ := 1
  issued : List (Str × List UInt8) := []
  accepted : AcceptedStdinWriteIds := {}
  sent : List WriteParams := []
  handlers : List (ℕ × WriteParams × WritePhase) := []
  answers : List (Str × WriteAnswer) := []

inductive StdinStep where
  /-- `Session::write`: the chunk gets an id of its own. -/
  | write (chunk : List UInt8)
  /-- The write is sent, or sent again, and a handler starts on it. -/
  | request (handler : ℕ) (writeId : Str)
  | lookup (handler : ℕ) (entry : ProcessEntry)
  | firstCheck (handler : ℕ)
  | reserve (handler : ℕ) (channelOpen : Bool)
  | secondCheck (handler : ℕ)
  /-- A handler may be cancelled wherever it waits. -/
  | cancel (handler : ℕ)

namespace StdinWrites

/-- A handler goes on, or answers. -/
def advance (s : StdinWrites) (handler : ℕ) (params : WriteParams) :
    Except WriteAnswer WritePhase → StdinWrites
  | .ok phase => { s with handlers := Entries.insert handler (params, phase) s.handlers }
  | .error answer =>
    { s with
      handlers := Entries.remove handler s.handlers
      answers := s.answers ++ [(params.writeId, answer)] }

/-- The handler, if it waits there. -/
def waiting? (s : StdinWrites) (handler : ℕ) (phase : WritePhase) : Option WriteParams :=
  match Entries.get? handler s.handlers with
  | some (params, phase') => if phase' = phase then some params else none
  | none => none

def step (s : StdinWrites) : StdinStep → Option StdinWrites
  | .write chunk =>
    let writeId := Nat.toDigits 10 s.nextWriteId
    -- The counter wraps around, but an id is not given twice.
    if Entries.get? writeId s.issued = none then
      some { s with
        nextWriteId := (s.nextWriteId + 1) % 2 ^ 64
        issued := Entries.insert writeId chunk s.issued }
    else none
  | .request handler writeId =>
    match Entries.get? handler s.handlers, Entries.get? writeId s.issued with
    | none, some chunk => some (s.advance handler ⟨writeId, chunk⟩ (beginWrite ⟨writeId, chunk⟩))
    | _, _ => none
  | .lookup handler entry =>
    (s.waiting? handler .lookup).map fun params => s.advance handler params (lookupProcess entry)
  | .firstCheck handler =>
    (s.waiting? handler .firstCheck).map fun params =>
      s.advance handler params (ExecServer.firstCheck s.accepted params)
  | .reserve handler channelOpen =>
    (s.waiting? handler .reserve).map fun params => s.advance handler params (reservePermit channelOpen)
  | .secondCheck handler =>
    (s.waiting? handler .secondCheck).map fun params =>
      let (accepted, sent) := sendChunk s.accepted s.sent params
      { s with accepted := accepted, sent := sent }.advance handler params (.error (.ok .accepted))
  | .cancel handler =>
    if (Entries.get? handler s.handlers).isSome then
      some { s with handlers := Entries.remove handler s.handlers }
    else none

end StdinWrites

/-! ## What is remembered of the log of writes -/

section Remember

variable {accepted : AcceptedStdinWriteIds} {log : List Str} {writeId : Str}

/-- The ids of the last writes, each once, and the log repeats none of them. -/
structure AcceptedStdinWriteIds.Remembers (accepted : AcceptedStdinWriteIds) (log : List Str) :
    Prop where
  order : accepted.order = log.rtake retainedStdinWriteIdsPerProcess
  ids : accepted.ids = accepted.order.toFinset
  nodup : accepted.order.Nodup
  spaced : Recent.Spaced retainedStdinWriteIdsPerProcess log

theorem AcceptedStdinWriteIds.evict_of_le {ids : Finset Str} {order : List Str}
    (h : order.length ≤ retainedStdinWriteIdsPerProcess) : evict ids order = ⟨ids, order⟩ := by
  cases order with
  | nil => rfl
  | cons evicted order => rw [evict, if_neg (Nat.not_lt.2 h)]

theorem AcceptedStdinWriteIds.Remembers.length_le (h : accepted.Remembers log) :
    accepted.order.length ≤ retainedStdinWriteIdsPerProcess := by
  rw [h.order, Recent.length_rtake]
  exact Nat.min_le_left _ _

theorem AcceptedStdinWriteIds.Remembers.remember (h : accepted.Remembers log)
    (hnew : writeId ∉ accepted.ids) : (accepted.remember writeId).Remembers (log ++ [writeId]) := by
  have hle := h.length_le
  have hnotMem : writeId ∉ accepted.order := by
    rwa [h.ids, mem_toFinset] at hnew
  have hspaced : Recent.Spaced retainedStdinWriteIdsPerProcess (log ++ [writeId]) :=
    Recent.spaced_concat h.spaced (h.order ▸ h.nodup) (h.order ▸ hnotMem)
  have hnodup : (accepted.order ++ [writeId]).Nodup :=
    nodup_append.2 ⟨h.nodup, nodup_singleton _, fun x hx y hy hxy => by
      rw [mem_singleton] at hy
      exact hnotMem (hy ▸ hxy ▸ hx)⟩
  have hlength : accepted.order.length = min retainedStdinWriteIdsPerProcess log.length := by
    rw [h.order, Recent.length_rtake]
  unfold AcceptedStdinWriteIds.remember
  rw [if_neg hnew]
  by_cases hroom : accepted.order.length < retainedStdinWriteIdsPerProcess
  · rw [evict_of_le (by rw [length_append]; exact hroom)]
    refine ⟨?_, ?_, hnodup, hspaced⟩
    · show accepted.order ++ [writeId] = _
      rw [Recent.rtake_concat_of_lt (by omega), h.order]
    · show insert writeId accepted.ids = (accepted.order ++ [writeId]).toFinset
      rw [toFinset_append, h.ids, Finset.union_comm]
      rfl
  · -- The oldest id leaves as the new one comes in.
    have hcap : 0 < retainedStdinWriteIdsPerProcess := by decide
    have htail : (log ++ [writeId]).rtake retainedStdinWriteIdsPerProcess =
        accepted.order.tail ++ [writeId] := by
      rw [Recent.rtake_concat_of_le hcap (by omega), h.order]
    cases horder : accepted.order with
    | nil =>
      rw [horder, length_nil] at hroom
      exact absurd hcap hroom
    | cons oldest order =>
      rw [horder] at htail hnodup hle hroom
      rw [length_cons] at hle hroom
      rw [cons_append, nodup_cons] at hnodup
      rw [cons_append, evict,
        if_pos (by rw [length_cons, length_append, length_singleton]; omega),
        evict_of_le (by rw [length_append, length_singleton]; omega)]
      refine ⟨htail.symm, ?_, hnodup.2, hspaced⟩
      show (insert writeId accepted.ids).erase oldest = (order ++ [writeId]).toFinset
      rw [h.ids, horder]
      ext x
      have hoff := hnodup.1
      simp only [Finset.mem_erase, Finset.mem_insert, toFinset_cons, mem_toFinset,
        mem_append, mem_singleton] at hoff ⊢
      constructor
      · rintro ⟨hne, rfl | rfl | hx⟩
        · exact .inr rfl
        · exact absurd rfl hne
        · exact .inl hx
      · rintro (hx | rfl)
        · exact ⟨fun heq => hoff (.inl (heq ▸ hx)), .inr (.inr hx)⟩
        · exact ⟨fun heq => hoff (.inr heq.symm), .inl rfl⟩

end Remember

/-! ## Runs -/

section Runs

variable {s t : StdinWrites} {handler : ℕ} {params : WriteParams} {phase : WritePhase}
  {result : Except WriteAnswer WritePhase}

def StdinWrites.sentIds (s : StdinWrites) : List Str := s.sent.map WriteParams.writeId

structure StdinWrites.Sound (s : StdinWrites) : Prop where
  handled : ∀ handler params phase, Entries.get? handler s.handlers = some (params, phase) →
    Entries.get? params.writeId s.issued = some params.chunk
  sent : ∀ params ∈ s.sent, Entries.get? params.writeId s.issued = some params.chunk
  remembers : s.accepted.Remembers s.sentIds
  answered : ∀ writeId, (writeId, .ok .accepted) ∈ s.answers → writeId ∈ s.sentIds

theorem StdinWrites.Sound.waiting (h : s.Sound) (hwaiting : s.waiting? handler phase = some params) :
    Entries.get? params.writeId s.issued = some params.chunk := by
  unfold waiting? at hwaiting
  split at hwaiting
  · next params' phase' hget =>
    split at hwaiting
    · cases hwaiting
      exact h.handled handler params phase' hget
    · cases hwaiting
  · cases hwaiting

/-- A handler that goes on keeps its write; one that answers `Accepted` has to have it sent. -/
theorem StdinWrites.Sound.advance (h : s.Sound)
    (hissued : Entries.get? params.writeId s.issued = some params.chunk)
    (haccepted : result = .error (.ok .accepted) → params.writeId ∈ s.sentIds) :
    (s.advance handler params result).Sound := by
  cases result with
  | ok phase =>
    refine ⟨fun handler' params' phase' hget => ?_, h.sent, h.remembers, h.answered⟩
    unfold StdinWrites.advance at hget
    rw [Entries.get?_insert] at hget
    split at hget
    · cases hget
      exact hissued
    · exact h.handled handler' params' phase' hget
  | error answer =>
    refine ⟨fun handler' params' phase' hget => ?_, h.sent, h.remembers, fun writeId hmem => ?_⟩
    · unfold StdinWrites.advance at hget
      rw [Entries.get?_remove] at hget
      split at hget
      · cases hget
      · exact h.handled handler' params' phase' hget
    · rcases mem_append.1 hmem with hold | hnew
      · exact h.answered writeId hold
      · cases mem_singleton.1 hnew
        exact haccepted rfl

theorem StdinWrites.Sound.mem_sentIds_of_contains (h : s.Sound) {writeId : Str}
    (hcontains : s.accepted.contains writeId = true) : writeId ∈ s.sentIds := by
  have hmem : writeId ∈ s.accepted.ids := of_decide_eq_true hcontains
  rw [h.remembers.ids, mem_toFinset, h.remembers.order] at hmem
  exact mem_of_mem_drop hmem

/-- After the second check the write has been sent, by this handler or by another one. -/
theorem StdinWrites.Sound.sendChunk (h : s.Sound)
    (hissued : Entries.get? params.writeId s.issued = some params.chunk) :
    { s with
      accepted := (ExecServer.sendChunk s.accepted s.sent params).1
      sent := (ExecServer.sendChunk s.accepted s.sent params).2 }.Sound ∧
    params.writeId ∈ (ExecServer.sendChunk s.accepted s.sent params).2.map WriteParams.writeId := by
  unfold ExecServer.sendChunk
  split
  · next hcontains => exact ⟨h, h.mem_sentIds_of_contains hcontains⟩
  · next hcontains =>
    have hmap : (s.sent ++ [params]).map WriteParams.writeId = s.sentIds ++ [params.writeId] := by
      rw [map_append]
      rfl
    refine ⟨⟨h.handled, ?_, ?_, ?_⟩, ?_⟩
    · intro params' hmem
      rcases mem_append.1 hmem with hold | hnew
      · exact h.sent params' hold
      · cases mem_singleton.1 hnew
        exact hissued
    · show (s.accepted.remember params.writeId).Remembers ((s.sent ++ [params]).map _)
      rw [hmap]
      exact h.remembers.remember fun hmem => hcontains (decide_eq_true hmem)
    · intro writeId hmem
      show writeId ∈ (s.sent ++ [params]).map _
      rw [hmap]
      exact mem_append_left _ (h.answered writeId hmem)
    · rw [hmap]
      exact mem_append_right _ (mem_singleton_self _)

theorem StdinWrites.Sound.step (h : s.Sound) {a : StdinStep} (hstep : s.step a = some t) :
    t.Sound := by
  cases a with
  | write chunk =>
    simp only [StdinWrites.step] at hstep
    split at hstep
    · next hfresh =>
      cases hstep
      have hkeep : ∀ writeId chunk', Entries.get? writeId s.issued = some chunk' →
          Entries.get? writeId (Entries.insert (Nat.toDigits 10 s.nextWriteId) chunk s.issued) =
            some chunk' := by
        intro writeId chunk' hget
        have hne : writeId ≠ Nat.toDigits 10 s.nextWriteId := by
          intro heq
          rw [heq, hfresh] at hget
          cases hget
        rw [Entries.get?_insert, if_neg hne, hget]
      refine ⟨?_, fun params hmem => hkeep _ _ (h.sent params hmem), h.remembers, h.answered⟩
      exact fun handler params phase hget => hkeep _ _ (h.handled handler params phase hget)
    · cases hstep
  | request handler writeId =>
    simp only [StdinWrites.step] at hstep
    split at hstep
    · next chunk hfresh hissued =>
      cases hstep
      refine h.advance hissued fun heq => ?_
      unfold beginWrite at heq
      split at heq <;> cases heq
    · cases hstep
  | lookup handler entry =>
    obtain ⟨params, hwaiting, rfl⟩ := Option.map_eq_some_iff.1 hstep
    refine h.advance (h.waiting hwaiting) fun heq => ?_
    cases entry with
    | missing => cases heq
    | starting => cases heq
    | running tty pipeStdin => cases tty <;> cases pipeStdin <;> cases heq
  | firstCheck handler =>
    obtain ⟨params, hwaiting, rfl⟩ := Option.map_eq_some_iff.1 hstep
    refine h.advance (h.waiting hwaiting) fun heq => ?_
    unfold ExecServer.firstCheck at heq
    split at heq
    · next hcontains => exact h.mem_sentIds_of_contains hcontains
    · cases heq
  | reserve handler channelOpen =>
    obtain ⟨params, hwaiting, rfl⟩ := Option.map_eq_some_iff.1 hstep
    refine h.advance (h.waiting hwaiting) fun heq => ?_
    cases channelOpen <;> cases heq
  | secondCheck handler =>
    obtain ⟨params, hwaiting, rfl⟩ := Option.map_eq_some_iff.1 hstep
    obtain ⟨hsound, hmem⟩ := h.sendChunk (h.waiting hwaiting)
    have hissued := h.waiting hwaiting
    exact hsound.advance hissued fun _ => hmem
  | cancel handler =>
    simp only [StdinWrites.step] at hstep
    split at hstep
    · cases hstep
      refine ⟨fun handler' params phase hget => ?_, h.sent, h.remembers, h.answered⟩
      rw [Entries.get?_remove] at hget
      split at hget
      · cases hget
      · exact h.handled handler' params phase hget
    · cases hstep

theorem StdinWrites.sound_start : ({} : StdinWrites).Sound where
  handled := nofun
  sent := nofun
  remembers := ⟨rfl, rfl, nodup_nil, Recent.spaced_nil⟩
  answered := nofun

/-- **Each write is sent with its own bytes, at most once unless 4096 other ids were accepted before
it came again; `Accepted` is answered only for a write that was sent; and the ids that are remembered
are those of the queue, which has no duplicates and at most 4096 entries.** -/
theorem writes_sent_once {acts : List StdinStep} (hrun : Machine.run StdinWrites.step {} acts = some s) :
    (∀ params ∈ s.sent, Entries.get? params.writeId s.issued = some params.chunk) ∧
    (∀ before writeId between after, s.sentIds = before ++ writeId :: (between ++ writeId :: after) →
      4096 ≤ (between.toFinset.erase writeId).card) ∧
    (∀ writeId, s.sentIds.count writeId ≤ 1 ∨
      ∃ before between after, s.sentIds = before ++ writeId :: (between ++ writeId :: after) ∧
        4096 ≤ (between.toFinset.erase writeId).card) ∧
    (∀ writeId, (writeId, .ok .accepted) ∈ s.answers →
      s.sentIds.count writeId = 1 ∨
      ∃ before between after, s.sentIds = before ++ writeId :: (between ++ writeId :: after) ∧
        4096 ≤ (between.toFinset.erase writeId).card) ∧
    s.accepted.ids = s.accepted.order.toFinset ∧ s.accepted.order.Nodup ∧
    s.accepted.order.length ≤ 4096 := by
  have hsound : s.Sound :=
    Machine.run_invariant (fun _ _ _ h hstep => h.step hstep) StdinWrites.sound_start hrun
  have hspaced := hsound.remembers.spaced
  refine ⟨hsound.sent, hspaced, hspaced.count_le_one_or, fun writeId hanswered => ?_,
    hsound.remembers.ids, hsound.remembers.nodup, hsound.remembers.length_le⟩
  have hpos : 0 < s.sentIds.count writeId := count_pos_iff.2 (hsound.answered writeId hanswered)
  rcases hspaced.count_le_one_or writeId with hle | hagain
  · exact .inl (by omega)
  · exact .inr hagain

/-- Two handlers of one write, both past the first check. -/
theorem writes_sent_once_retried :
    ∃ s, Machine.run StdinWrites.step {}
        [.write [104], .request 1 ['1'], .lookup 1 (.running false true), .firstCheck 1,
          .reserve 1 true, .request 2 ['1'], .lookup 2 (.running false true), .firstCheck 2,
          .reserve 2 true, .secondCheck 2, .secondCheck 1] = some s ∧
      s.sent = [⟨['1'], [104]⟩] ∧ s.accepted.order.length ≤ 4096 := by
  refine Exists.imp (fun s hs => ⟨hs, ?_, (writes_sent_once hs).2.2.2.2.2.2⟩) ⟨_, rfl⟩
  cases hs
  rfl

end Runs

end Codex.ExecServer
