import Codex.ExecServer.OrderedEvents
import Codex.ExecServer.ProcessRuns

/-!
# Recovering the events of a process

A process of the exec server and the client's session for it. The notifications of the
process come in any order, more than once or never; reads are asked for, answered and
recovered from at any moment. What the session publishes are the events of the process
in their order (`events_published_in_order`), as long as no recovery takes a gap of
evicted output for the exit.
-/

namespace Codex.ExecServer

open List Codex.Text

/-- The process, the session, the reads on their way to the process (each with its `after_seq`) and
the answers to them. -/
structure Recovery where
  process : RunningProcess
  session : SessionState := {}
  requests : List ℕ := []
  responses : List ReadResponse := []
  deriving DecidableEq

inductive RecoveryAction where
  | output (stream : ExecOutputStream) (chunk : List UInt8)
  | exit (exitCode : ℤ) (likelySandboxDenied : Bool)
  | finishStream (stream : ExecOutputStream)
  | maybeEmitClosed
  | notification (seq : ℕ)
  | request
  | serve (index : ℕ)
  | recover (index : ℕ)
  | fail (message : Str)
  deriving DecidableEq

namespace Recovery

def start (tty sandboxed : Bool) : Recovery where
  process := RunningProcess.start tty sandboxed

/-- A notification: `finish_process_event` reports the failure of the call. -/
def notify (session : SessionState) (event : ExecProcessEvent) : SessionState :=
  match publishOrderedEvent event session with
  | .ok _ session => session
  | .error message session => session.setFailure message

/-- The stream tasks send output until they end, and a process exits once. A recovery that fails is
reported by a step of its own, `fail`: the client first asks the server to terminate the process. -/
def step (s : Recovery) : RecoveryAction → Option Recovery
  | .output stream chunk =>
    if stream ∈ s.process.tasks then some { s with process := s.process.streamOutput stream chunk }
    else none
  | .exit exitCode likelySandboxDenied =>
    if s.process.exitCode.isNone then
      some { s with process := s.process.watchExit exitCode likelySandboxDenied }
    else none
  | .finishStream stream =>
    if stream ∈ s.process.tasks then some { s with process := s.process.finishOutputStream stream }
    else none
  | .maybeEmitClosed => some { s with process := s.process.maybeEmitClosed }
  | .notification seq =>
    (eventAt s.process.events seq).map fun event => { s with session := notify s.session event }
  | .request =>
    some { s with requests := s.requests ++ [s.session.orderedEvents.lastPublishedSeq] }
  | .serve index =>
    s.requests[index]?.map fun afterSeq =>
      { s with
        requests := s.requests.eraseIdx index
        responses := s.responses ++ [execRead s.process afterSeq none] }
  | .recover index =>
    s.responses[index]?.map fun response =>
      { s with
        responses := s.responses.eraseIdx index
        session := leaves (recoverEvents response) s.session }
  | .fail message => some { s with session := s.session.setFailure message }

/-! ## What every step keeps -/

structure Sound (s : Recovery) : Prop where
  process : s.process.Sound
  responses : ∀ response ∈ s.responses, response.Describes s.process.events
  session : s.session.orderedEvents.failure = none →
    s.session.Sound s.process.events ∧ s.session.Drained

/-- A recovery takes no gap of evicted output for the exit. -/
def RecoversInPlace (s : Recovery) : RecoveryAction → Prop
  | .recover index => s.session.orderedEvents.failure = none →
    ∀ response, s.responses[index]? = some response →
      ExitInPlace s.process.events s.session response
  | _ => True

theorem sound_start (tty sandboxed : Bool) : (start tty sandboxed).Sound where
  process := RunningProcess.sound_start tty sandboxed
  responses := nofun
  session _ := ⟨SessionState.sound_empty [], rfl⟩

variable {session : SessionState} {s : Recovery} {process : RunningProcess}

/-- A session is as sound after more events of the process. -/
theorem sound_append {events : List ExecProcessEvent} (h : session.Sound events)
    (more : List ExecProcessEvent) : session.Sound (events ++ more) := by
  have hamong : ∀ test, Among (events ++ more) session.orderedEvents.lastPublishedSeq test ↔
      Among events session.orderedEvents.lastPublishedSeq test := by
    intro test
    unfold Among
    refine exists_congr fun seq => and_congr_right fun hle => ?_
    rw [eventAt_append_of_le (hle.trans h.last_le)]
  refine ⟨?_, ?_, ?_, h.nodup, ?_, ?_⟩
  · rw [take_append_of_le_length h.last_le, h.published]
  · rw [length_append]
    exact h.last_le.trans (Nat.le_add_right _ _)
  · intro seq event hget
    obtain ⟨hlt, hevent⟩ := h.pending_mem hget
    exact ⟨hlt, eventAt_append hevent more⟩
  · rw [hamong, h.exit_eq]
  · rw [hamong, h.closed_eq]

/-- The process goes on. -/
theorem Sound.emit (h : s.Sound) (hprocess : process.Sound) {more : List ExecProcessEvent}
    (hevents : process.events = s.process.events ++ more) :
    ({ s with process := process } : Recovery).Sound where
  process := hprocess
  responses response hmem := hevents ▸ (h.responses response hmem).append more
  session hfailure := by
    obtain ⟨hsound, hdrained⟩ := h.session hfailure
    exact ⟨hevents ▸ sound_append hsound more, hdrained⟩

theorem setFailure_sound {events : List ExecProcessEvent} {message : Str}
    (h : session.orderedEvents.failure = none → session.Sound events ∧ session.Drained)
    (hfailure : (session.setFailure message).orderedEvents.failure = none) :
    (session.setFailure message).Sound events ∧ (session.setFailure message).Drained := by
  unfold SessionState.setFailure at hfailure ⊢
  dsimp only at hfailure ⊢
  split at hfailure
  · next hset =>
    rw [if_pos hset]
    exact h hfailure
  · cases hfailure

theorem publishOrderedEvent_ends (hprocess : process.Sound)
    (h : session.orderedEvents.failure = none → session.Sound process.events ∧ session.Drained)
    {seq : ℕ} {event : ExecProcessEvent} (hevent : eventAt process.events seq = some event) :
    Ends (publishOrderedEvent event) session
      (fun _ session' => session'.orderedEvents.failure = none →
        session'.Sound process.events ∧ session'.Drained)
      (fun session' => session' = session) := by
  have hseq := hprocess.seq_eq hevent
  refine ends_bind (ends_get ?_)
  rw [hseq]
  dsimp only
  split
  · exact ends_pure h
  next hopen =>
  simp only [Bool.or_eq_true, not_or, decide_eq_true_eq, Bool.not_eq_true,
    Option.isSome_eq_false_iff, Option.isNone_iff_eq_none] at hopen
  obtain ⟨hsound, -⟩ := h hopen.1.1
  refine (insertAndPublish_ends hsound hevent hseq (Nat.lt_of_not_le hopen.2)).mono ?_ fun _ => id
  rintro _ session' ⟨hsound', hdrained', -⟩ _
  exact ⟨hsound', hdrained'⟩

theorem notify_sound (hprocess : process.Sound)
    (h : session.orderedEvents.failure = none → session.Sound process.events ∧ session.Drained)
    {seq : ℕ} {event : ExecProcessEvent} (hevent : eventAt process.events seq = some event)
    (hfailure : (notify session event).orderedEvents.failure = none) :
    (notify session event).Sound process.events ∧ (notify session event).Drained := by
  have hends := publishOrderedEvent_ends hprocess h hevent
  unfold Ends at hends
  unfold notify at hfailure ⊢
  split at hfailure
  · next session' hok =>
    rw [hok] at hends
    exact hends hfailure
  · next message session' herror =>
    rw [herror] at hends
    subst hends
    exact setFailure_sound h hfailure

/-- A session that has failed recovers nothing. -/
theorem recoverEvents_failed {response : ReadResponse} (h : session.orderedEvents.failure ≠ none) :
    leaves (recoverEvents response) session = session := by
  have hsome : session.orderedEvents.failure.isSome = true := Option.isSome_iff_ne_none.2 h
  refine Ends.leaves (I := fun session' => session' = session) (ends_bind (ends_get ?_))
  dsimp only
  split
  · exact ends_throw rfl
  · rw [hsome, Bool.true_or, Bool.true_or, if_pos rfl]
    exact ends_pure rfl

theorem Sound.recover (h : s.Sound) {index : ℕ} {response : ReadResponse}
    (hget : s.responses[index]? = some response)
    (hplace : s.session.orderedEvents.failure = none →
      ExitInPlace s.process.events s.session response) :
    ({ s with
        responses := s.responses.eraseIdx index
        session := leaves (recoverEvents response) s.session } : Recovery).Sound := by
  refine ⟨h.process, fun r hr => h.responses r (mem_of_mem_eraseIdx hr), fun hfailure => ?_⟩
  by_cases hnone : s.session.orderedEvents.failure = none
  · obtain ⟨hsound, hdrained⟩ := h.session hnone
    have hresponse := h.responses response (mem_of_getElem? hget)
    exact (recoverEvents_ends h.process hresponse hsound hdrained (hplace hnone)).leaves
  · have hsame : leaves (recoverEvents response) s.session = s.session := recoverEvents_failed hnone
    change (leaves (recoverEvents response) s.session).orderedEvents.failure = none at hfailure
    rw [hsame] at hfailure
    exact absurd hfailure hnone

/-- **One step** of the process, the client or the network. -/
theorem Sound.step {t : Recovery} {a : RecoveryAction} (h : s.Sound) (hplace : s.RecoversInPlace a)
    (hstep : s.step a = some t) : t.Sound := by
  cases a with
  | output stream chunk =>
    simp only [Recovery.step] at hstep
    split at hstep
    · next hstream =>
      cases hstep
      exact h.emit (h.process.streamOutput hstream chunk) rfl
    · cases hstep
  | exit exitCode denied =>
    simp only [Recovery.step] at hstep
    split at hstep
    · next hrunning =>
      cases hstep
      exact h.emit (h.process.watchExit (Option.isNone_iff_eq_none.1 hrunning) exitCode denied) rfl
    · cases hstep
  | finishStream stream =>
    simp only [Recovery.step] at hstep
    split at hstep
    · next hstream =>
      cases hstep
      exact h.emit (h.process.finishOutputStream hstream) (append_nil _).symm
    · cases hstep
  | maybeEmitClosed =>
    cases hstep
    obtain ⟨more, hmore⟩ : ∃ more, s.process.maybeEmitClosed.events = s.process.events ++ more := by
      unfold RunningProcess.maybeEmitClosed
      split
      · exact ⟨[], (append_nil _).symm⟩
      · exact ⟨_, rfl⟩
    exact h.emit h.process.maybeEmitClosed hmore
  | notification seq =>
    obtain ⟨event, hevent, rfl⟩ := Option.map_eq_some_iff.1 hstep
    exact ⟨h.process, h.responses, notify_sound h.process h.session hevent⟩
  | request =>
    cases hstep
    exact ⟨h.process, h.responses, h.session⟩
  | serve index =>
    obtain ⟨afterSeq, -, rfl⟩ := Option.map_eq_some_iff.1 hstep
    refine ⟨h.process, fun response hmem => ?_, h.session⟩
    rcases mem_append.1 hmem with hmem | hmem
    · exact h.responses response hmem
    · rw [mem_singleton.1 hmem]
      exact execRead_describes h.process afterSeq
  | recover index =>
    obtain ⟨response, hget, rfl⟩ := Option.map_eq_some_iff.1 hstep
    exact h.recover hget fun hnone => hplace hnone response hget
  | fail message =>
    cases hstep
    exact ⟨h.process, h.responses, setFailure_sound h.session⟩

/-- **Events are published in order.** In every run whose recoveries take no gap of evicted output
for the exit, as long as no failure has been reported, the session has published the first events
of the process, and all of them once it has published the close. -/
theorem events_published_in_order {tty sandboxed : Bool} {acts : List RecoveryAction} {s : Recovery}
    (hrun : Machine.run step (start tty sandboxed) acts = some s)
    (hplace : Machine.AllMeet step RecoversInPlace (start tty sandboxed) acts)
    (hfailure : s.session.orderedEvents.failure = none) :
    s.session.orderedEvents.lastPublishedSeq ≤ s.process.events.length ∧
    s.session.events = s.process.events.take s.session.orderedEvents.lastPublishedSeq ∧
    (s.session.orderedEvents.closedPublished = true → s.session.events = s.process.events) := by
  have hsound : s.Sound := Machine.run_invariant_of_meets
    (fun _ _ _ h hmeet hstep => h.step hmeet hstep) (sound_start tty sandboxed) hplace hrun
  obtain ⟨hsession, -⟩ := hsound.session hfailure
  refine ⟨hsession.last_le, hsession.published, fun hclosed => ?_⟩
  obtain ⟨seq, hle, event, hevent, hclose⟩ := hsession.closed_eq.1 hclosed
  have hlast := (hsound.process.closed_last hevent hclose).1
  rw [hsession.published, take_of_length_le (by omega)]

/-- The exit comes between two chunks, and its notification is lost with that of the second. -/
def exitBetween : List RecoveryAction :=
  [.output .stdout [97], .notification 1, .exit 0 false, .output .stderr [98], .request, .serve 0,
    .recover 0]

theorem exitBetween_inPlace :
    Machine.AllMeet step RecoversInPlace (start false false) exitBetween := by
  refine Machine.allMeet_cons.2 ⟨trivial, fun s₁ h₁ => ?_⟩
  cases h₁
  refine Machine.allMeet_cons.2 ⟨trivial, fun s₂ h₂ => ?_⟩
  cases h₂
  refine Machine.allMeet_cons.2 ⟨trivial, fun s₃ h₃ => ?_⟩
  cases h₃
  refine Machine.allMeet_cons.2 ⟨trivial, fun s₄ h₄ => ?_⟩
  cases h₄
  refine Machine.allMeet_cons.2 ⟨trivial, fun s₅ h₅ => ?_⟩
  cases h₅
  refine Machine.allMeet_cons.2 ⟨trivial, fun s₆ h₆ => ?_⟩
  cases h₆
  refine Machine.allMeet_cons.2 ⟨?_, fun _ _ => Machine.allMeet_nil⟩
  rintro - _ ⟨⟩ - - seq ⟨hlt, -, -, hbefore⟩ ⟨chunk, hchunk, hgap⟩ event hevent
  -- the second event is missing, and it is the exit
  have hseq : seq = 2 := by
    have hge : 1 < seq := hlt
    by_contra hne
    rcases hbefore 2 (Nat.lt_succ_self 1) (by omega) with hpending | hmem
    · exact hpending rfl
    · exact absurd hmem (by decide)
  subst hseq
  cases hevent
  rfl

theorem events_published_in_order_exit_between :
    ∃ s, Machine.run step (start false false) exitBetween = some s ∧
      s.session.orderedEvents.failure = none ∧
      s.session.events = [.output ⟨1, .stdout, [97]⟩, .exited 2 0 (some false),
        .output ⟨3, .stderr, [98]⟩] ∧
      s.session.events = s.process.events.take s.session.orderedEvents.lastPublishedSeq := by
  have hrun : (Machine.run step (start false false) exitBetween).map
      (fun s => (s.session.orderedEvents.failure, s.session.events)) =
        some (none, [.output ⟨1, .stdout, [97]⟩, .exited 2 0 (some false),
          .output ⟨3, .stderr, [98]⟩]) := by
    decide +kernel
  obtain ⟨s, hs, hreached⟩ := Option.map_eq_some_iff.1 hrun
  obtain ⟨hfailure, hevents⟩ := Prod.mk.inj hreached
  exact ⟨s, hs, hfailure, hevents,
    (events_published_in_order hs exitBetween_inPlace hfailure).2.1⟩

/-! ## Output that was evicted -/

variable {block : List UInt8}

/-- Chunks of the same bytes, numbered from `first`. -/
def chunksFrom (block : List UInt8) (first n : ℕ) : List ProcessOutputChunk :=
  (range' first n).map fun seq => ⟨seq, .stdout, block⟩

theorem chunksFrom_concat (first n : ℕ) :
    chunksFrom block first (n + 1) = chunksFrom block first n ++ [⟨first + n, .stdout, block⟩] := by
  rw [chunksFrom, range'_concat, map_append, Nat.one_mul]
  rfl

/-- A process that has written `n` chunks of 8 KiB retains the last 128 of them. -/
def writing (block : List UInt8) (n : ℕ) : RunningProcess :=
  { RunningProcess.start false false with
    output := chunksFrom block (n - 128 + 1) (min n 128)
    retainedBytes := min n 128 * 8192
    nextSeq := n + 1
    events := (chunksFrom block 1 n).map .output }

theorem streamOutput_writing (hblock : block.length = 8192) (n : ℕ) :
    (writing block n).streamOutput .stdout block = writing block (n + 1) := by
  have hevents : (chunksFrom block 1 (n + 1)).map ExecProcessEvent.output =
      (chunksFrom block 1 n).map .output ++ [.output ⟨n + 1, .stdout, block⟩] := by
    rw [chunksFrom_concat, map_append, Nat.add_comm 1 n]
    rfl
  have hevict : RunningProcess.evict (min n 128 * 8192 + 8192)
      (chunksFrom block (n - 128 + 1) (min n 128) ++ [⟨n + 1, .stdout, block⟩]) =
      (chunksFrom block (n + 1 - 128 + 1) (min (n + 1) 128), min (n + 1) 128 * 8192) := by
    rcases Nat.lt_or_ge n 128 with hlt | hge
    · rw [RunningProcess.evict_of_le _ (show _ ≤ 1024 * 1024 by omega), min_eq_left (by omega),
        min_eq_left (by omega), show n + 1 - 128 = 0 by omega, show n - 128 = 0 by omega,
        chunksFrom_concat, Nat.add_comm (0 + 1) n, Nat.succ_mul]
    · obtain ⟨k, rfl⟩ := Nat.exists_eq_add_of_le' hge
      rw [min_eq_right hge, min_eq_right (by omega), Nat.add_sub_cancel,
        show k + 128 + 1 - 128 = k + 1 by omega]
      -- the first chunk goes
      show RunningProcess.evict _ (⟨k + 1, .stdout, block⟩ :: (chunksFrom block (k + 2) 127 ++ _)) = _
      unfold RunningProcess.evict
      rw [if_pos (by decide), show k + 128 + 1 = k + 2 + 127 by omega, ← chunksFrom_concat, hblock]
      exact RunningProcess.evict_of_le _ (by decide)
  unfold RunningProcess.streamOutput
  dsimp only [writing]
  rw [hblock, hevict, hevents]

theorem run_evicting (hblock : block.length = 8192) :
    Machine.run RunningProcess.step (RunningProcess.start false false)
      (replicate 129 (.output .stdout block) ++ [.exit 0 false]) =
        some ((writing block 129).watchExit 0 false) := by
  have hstep : ∀ n, RunningProcess.step (writing block n) (.output .stdout block) =
      some (writing block (n + 1)) := fun n => congrArg some (streamOutput_writing hblock n)
  rw [Machine.run_concat, show RunningProcess.start false false = writing block 0 from rfl,
    Machine.run_replicate hstep]
  rfl

/-- The answer to a read of all that is left: the first event is missing from it. -/
def evictedSnapshot (block : List UInt8) : ReadResponse where
  chunks := chunksFrom block 2 128
  nextSeq := 131
  exited := true
  exitCode := some 0
  closed := false
  failure := none
  sandboxDenied := false

theorem execRead_evicting (hblock : block.length = 8192) :
    execRead ((writing block 129).watchExit 0 false) 0 none = evictedSnapshot block := by
  have hsteady := ((RunningProcess.steady_start false false).run (run_evicting hblock)).1
  have hchunks := chunks_execRead_none hsteady 0
  rw [retainedAfter, filter_eq_self.2 fun chunk hmem => ?_] at hchunks
  · show { evictedSnapshot block with
      chunks := (execRead ((writing block 129).watchExit 0 false) 0 none).chunks } = _
    rw [hchunks]
    rfl
  · exact decide_eq_true (eventAt_pos (hsteady.1.output_mem chunk hmem)).1

/-- A session that has published an exit too early, and then goes on. -/
def exitShown (events : List ExecProcessEvent) (last : ℕ) : SessionState where
  events := events
  orderedEvents := { lastPublishedSeq := last, exitPublished := true }

theorem publishReady_singleton {session : SessionState} {event : ExecProcessEvent}
    (h : session.orderedEvents.pending = [(session.orderedEvents.lastPublishedSeq + 1, event)]) :
    publishReady session = .ok event.isClosed (session.publishNext event) := by
  have hready : session.publishReady = (session.publishNext event, event.isClosed) := by
    unfold SessionState.publishReady
    rw [h]
    show session.publishLoop 1 false = _
    unfold SessionState.publishLoop
    dsimp only
    rw [h, Entries.get?_cons, if_pos rfl]
    rfl
  show EStateM.Result.ok session.publishReady.2 session.publishReady.1 = _
  rw [hready]

theorem recoverChunk_exitShown (hblock : block.length = 8192) (events : List ExecProcessEvent)
    (last : ℕ) : recoverChunk ⟨last + 1, .stdout, block⟩ (exitShown events last) =
      .ok false (exitShown (events ++ [.output ⟨last + 1, .stdout, block⟩]) (last + 1)) := by
  have hok : (exitShown events last).orderedEvents.insertPending
      (.output ⟨last + 1, .stdout, block⟩) = .ok
        { lastPublishedSeq := last
          exitPublished := true
          pending := [(last + 1, .output ⟨last + 1, .stdout, block⟩)]
          pendingBytes := 8192 } := by
    simp [OrderedSessionEvents.insertPending, exitShown, ExecProcessEvent.seq,
      pendingProcessEventBytes, hblock, maxPendingProcessEventBytes, Entries.get?, Entries.insert]
  show (if last < last + 1 then insertAndPublish _ else pure false) (exitShown events last) = _
  rw [if_pos (Nat.lt_succ_self _)]
  refine (bind_of_ok (insertPending_ok hok)).trans ((publishReady_singleton rfl).trans ?_)
  simp [exitShown, SessionState.publishNext, Entries.remove, pendingProcessEventBytes, hblock,
    ExecProcessEvent.isExited, ExecProcessEvent.isClosed]

theorem recoverChunks_exitShown (hblock : block.length = 8192) (response : ReadResponse)
    {targetSeq : ℕ} (n : ℕ) (events : List ExecProcessEvent) (last : ℕ)
    (hle : last + n ≤ targetSeq) :
    recoverChunks response targetSeq (chunksFrom block (last + 1) n) true false
        (exitShown events last) =
      .ok (true, false)
        (exitShown (events ++ (chunksFrom block (last + 1) n).map .output) (last + n)) := by
  induction n generalizing events last with
  | zero =>
    rw [show chunksFrom block (last + 1) 0 = [] from rfl, map_nil, append_nil]
    rfl
  | succ n ih =>
    show recoverChunks _ _ (⟨last + 1, .stdout, block⟩ :: chunksFrom block (last + 1 + 1) n) _ _ _ = _
    unfold recoverChunks
    rw [if_neg (by dsimp only; omega), Bool.not_true, Bool.and_false]
    refine (bind_of_ok (recoverChunk_exitShown hblock events last)).trans
      ((ih _ (last + 1) (by omega)).trans ?_)
    rw [List.append_assoc, show last + 1 + n = last + (n + 1) by omega]
    rfl

/-- The first chunk, past the lost one, puts the exit in its place. -/
theorem recoverChunks_evictedSnapshot (chunks : List ProcessOutputChunk) :
    recoverChunks (evictedSnapshot block) 130 (⟨2, .stdout, block⟩ :: chunks) false false {} =
      recoverChunks (evictedSnapshot block) 130 (⟨2, .stdout, block⟩ :: chunks) true false
        (exitShown [.exited 1 0 (some false)] 1) := by
  unfold recoverChunks
  rfl

/-- The exit in the place of the lost chunk, and the others after it. -/
def exitFirst (block : List UInt8) : SessionState :=
  exitShown (.exited 1 0 (some false) :: (chunksFrom block 2 128).map .output) 129

theorem recoverEvents_evictedSnapshot (hblock : block.length = 8192) :
    recoverEvents (evictedSnapshot block) {} = .error (recoveryGapError 130) (exitFirst block) := by
  have hloop := recoverChunks_exitShown hblock (evictedSnapshot block) 128
    [.exited 1 0 (some false)] 1 (show 1 + 128 ≤ 130 by decide)
  have hexit : ∀ events, recoverExit (evictedSnapshot block) 130 true (exitShown events 129) =
      .error (recoveryGapError 130) (exitShown events 129) := by
    intro events
    have hmissing : missingCount (exitShown [] 129).orderedEvents 130 ≠ 0 := by decide
    show ite (missingCount (exitShown [] 129).orderedEvents 130 ≠ 0)
      (throw (recoveryGapError 130) : SessionM Unit) (pure ()) (exitShown events 129) = _
    rw [if_pos hmissing]
    rfl
  exact (bind_of_ok ((recoverChunks_evictedSnapshot (chunksFrom block 3 127)).trans hloop)).trans
    ((bind_of_ok rfl).trans (bind_of_error (hexit _)))

/-- The session publishes an exit as the first event, which is output that was evicted, and no
failure has been reported. -/
theorem exit_published_for_evicted_output :
    ∃ s, Machine.run step (start false false) (replicate 129 (.output .stdout (replicate 8192 0)) ++
        [.exit 0 false, .request, .serve 0, .recover 0]) = some s ∧
      s.session.orderedEvents.failure = none ∧
      s.session.events ≠ s.process.events.take s.session.orderedEvents.lastPublishedSeq := by
  have hblock : (replicate 8192 (0 : UInt8)).length = 8192 := length_replicate
  generalize replicate 8192 (0 : UInt8) = block at *
  have hstep : ∀ n, step { process := writing block n } (.output .stdout block) =
      some { process := writing block (n + 1) } := fun n => by
    rw [← streamOutput_writing hblock]
    rfl
  have hsession : leaves (recoverEvents (execRead ((writing block 129).watchExit 0 false) 0 none)) {} =
      exitFirst block := by
    rw [execRead_evicting hblock, leaves, recoverEvents_evictedSnapshot hblock]
  refine ⟨⟨(writing block 129).watchExit 0 false, exitFirst block, [], []⟩, ?_, rfl, ?_⟩
  · rw [Machine.run_append, show start false false = { process := writing block 0 } from rfl,
      Machine.run_replicate hstep, Option.bind_some, ← hsession]
    rfl
  · intro h
    cases h

end Recovery

end Codex.ExecServer
