import Codex.Base.Machine
import Codex.Text.Str

/-!
# Events of a process

`LocalProcess` (`exec-server/src/local_process.rs`) numbers what a process does: the
chunks of its two output streams, its exit, and its close once both streams have ended.
The last chunks are retained, and `exec_read` answers from these and from the counters.
`Describes` is what an answer says of the events up to the moment it was taken.
-/

namespace Codex.ExecServer

open List Codex.Text

inductive ExecOutputStream where
  | stdout
  | stderr
  | pty
  deriving DecidableEq

structure ProcessOutputChunk where
  seq : ℕ
  stream : ExecOutputStream
  chunk : List UInt8
  deriving DecidableEq

inductive ExecProcessEvent where
  | output (chunk : ProcessOutputChunk)
  | exited (seq : ℕ) (exitCode : ℤ) (sandboxDenied : Option Bool)
  | closed (seq : ℕ)
  | failed (message : Str)
  deriving DecidableEq

namespace ExecProcessEvent

def seq : ExecProcessEvent → Option ℕ
  | output chunk => some chunk.seq
  | exited seq _ _ => some seq
  | closed seq => some seq
  | failed _ => none

def isOutput : ExecProcessEvent → Bool
  | output _ => true
  | _ => false

def isExited : ExecProcessEvent → Bool
  | exited .. => true
  | _ => false

def isClosed : ExecProcessEvent → Bool
  | closed _ => true
  | _ => false

end ExecProcessEvent

/-! ## The process -/

def retainedOutputBytesPerProcess : ℕ := 1024 * 1024

/-- A process with the stream tasks that are still running and, in order, all its events. Whether
the process is sandboxed decides if its exit can be a denial. -/
structure RunningProcess where
  sandboxed : Bool
  tasks : List ExecOutputStream
  output : List ProcessOutputChunk := []
  retainedBytes : ℕ := 0
  nextSeq : ℕ := 1
  exitCode : Option ℤ := none
  openStreams : ℕ := 2
  closed : Bool := false
  sandboxDenied : Bool := false
  events : List ExecProcessEvent := []
  deriving DecidableEq

namespace RunningProcess

def start (tty sandboxed : Bool) : RunningProcess where
  sandboxed := sandboxed
  tasks := if tty then [.pty, .pty] else [.stdout, .stderr]

/-- The loop that evicts the oldest chunks. -/
def evict (retainedBytes : ℕ) : List ProcessOutputChunk → List ProcessOutputChunk × ℕ
  | [] => ([], retainedBytes)
  | evicted :: output =>
    if retainedOutputBytesPerProcess < retainedBytes then
      evict (retainedBytes - evicted.chunk.length) output
    else (evicted :: output, retainedBytes)

/-- One turn of `stream_output`. -/
def streamOutput (process : RunningProcess) (stream : ExecOutputStream) (chunk : List UInt8) :
    RunningProcess :=
  let output := ⟨process.nextSeq, stream, chunk⟩
  let retained := evict (process.retainedBytes + chunk.length) (process.output ++ [output])
  { process with
    nextSeq := process.nextSeq + 1
    output := retained.1
    retainedBytes := retained.2
    events := process.events ++ [.output output] }

/-- `watch_exit`. Only a sandboxed process can be found denied. -/
def watchExit (process : RunningProcess) (exitCode : ℤ) (likelySandboxDenied : Bool) :
    RunningProcess :=
  let sandboxDenied := if process.sandboxed then likelySandboxDenied else process.sandboxDenied
  { process with
    nextSeq := process.nextSeq + 1
    exitCode := some exitCode
    sandboxDenied := sandboxDenied
    events := process.events ++ [.exited process.nextSeq exitCode (some sandboxDenied)] }

def finishOutputStream (process : RunningProcess) (stream : ExecOutputStream) : RunningProcess :=
  { process with
    tasks := process.tasks.erase stream
    openStreams := process.openStreams - 1 }

def maybeEmitClosed (process : RunningProcess) : RunningProcess :=
  if process.closed || process.openStreams ≠ 0 || process.exitCode.isNone then process
  else
    { process with
      closed := true
      nextSeq := process.nextSeq + 1
      events := process.events ++ [.closed process.nextSeq] }

end RunningProcess

/-! ## Reading -/

structure ReadResponse where
  chunks : List ProcessOutputChunk
  nextSeq : ℕ
  exited : Bool
  exitCode : Option ℤ
  closed : Bool
  failure : Option Str
  sandboxDenied : Bool
  deriving DecidableEq

/-- The chunks that fit, and the sequence number after the last of them. -/
def readChunks (maxBytes : ℕ) : List ProcessOutputChunk → (chunks : List ProcessOutputChunk) →
    (totalBytes nextSeq : ℕ) → List ProcessOutputChunk × ℕ
  | [], chunks, _, nextSeq => (chunks, nextSeq)
  | retained :: rest, chunks, totalBytes, nextSeq =>
    if chunks ≠ [] ∧ maxBytes < totalBytes + retained.chunk.length then (chunks, nextSeq)
    else if maxBytes ≤ totalBytes + retained.chunk.length then
      (chunks ++ [retained], retained.seq + 1)
    else
      readChunks maxBytes rest (chunks ++ [retained]) (totalBytes + retained.chunk.length)
        (retained.seq + 1)

def usizeMax : ℕ := 2 ^ 64 - 1

/-- The answer of `exec_read` from the process as it is. -/
def execRead (process : RunningProcess) (afterSeq : ℕ) (maxBytes : Option ℕ) : ReadResponse :=
  let retained := process.output.filter fun chunk => afterSeq < chunk.seq
  let read := readChunks (maxBytes.getD usizeMax) retained [] 0 process.nextSeq
  { chunks := read.1
    nextSeq := if maxBytes.isNone then process.nextSeq else read.2
    exited := process.exitCode.isSome
    exitCode := process.exitCode
    closed := process.closed
    failure := none
    sandboxDenied := process.sandboxDenied }

/-! ## Numbering -/

/-- The event with a sequence number; numbers start at one. -/
def eventAt (events : List ExecProcessEvent) : ℕ → Option ExecProcessEvent
  | 0 => none
  | seq + 1 => events[seq]?

variable {events : List ExecProcessEvent} {seq : ℕ} {event : ExecProcessEvent}

theorem eventAt_append (h : eventAt events seq = some event) (more : List ExecProcessEvent) :
    eventAt (events ++ more) seq = some event := by
  cases seq with
  | zero => cases h
  | succ seq => exact (getElem?_append_left (List.getElem?_eq_some_iff.1 h).1).trans h

theorem eventAt_append_of_le {more : List ExecProcessEvent} (h : seq ≤ events.length) :
    eventAt (events ++ more) seq = eventAt events seq := by
  cases seq with
  | zero => rfl
  | succ seq => exact getElem?_append_left h

@[simp] theorem eventAt_nil (seq : ℕ) : eventAt [] seq = none := by
  cases seq <;> rfl

theorem eventAt_concat {last : ExecProcessEvent} : eventAt (events ++ [last]) seq = some event ↔
      eventAt events seq = some event ∨ seq = events.length + 1 ∧ event = last := by
  cases seq with
  | zero => simp [eventAt]
  | succ seq =>
    simp only [eventAt, getElem?_append, Nat.add_right_cancel_iff]
    split
    · next hlt =>
      refine ⟨Or.inl, fun h => h.resolve_right fun hlast => ?_⟩
      omega
    · next hge =>
      have hnone : events[seq]? = none := List.getElem?_eq_none_iff.2 (by omega)
      rw [hnone, getElem?_singleton]
      by_cases heq : seq = events.length
      · simp [heq, eq_comm]
      · have hne : seq - events.length ≠ 0 := by omega
        simp [hne, heq]

theorem eventAt_pos (h : eventAt events seq = some event) : 0 < seq ∧ seq ≤ events.length := by
  cases seq with
  | zero => cases h
  | succ seq => exact ⟨Nat.succ_pos seq, (List.getElem?_eq_some_iff.1 h).1⟩

/-- Events are numbered in their order, there is one exit with the process's code and verdict, the
close is last and ends the streams, and the retained chunks are events. -/
structure RunningProcess.Sound (process : RunningProcess) : Prop where
  nextSeq_eq : process.nextSeq = process.events.length + 1
  seq_eq : ∀ {seq event}, eventAt process.events seq = some event → event.seq = some seq
  exit_eq : ∀ {seq event}, eventAt process.events seq = some event → event.isExited = true →
    ∃ code, process.exitCode = some code ∧ event = .exited seq code (some process.sandboxDenied)
  exit_unique : ∀ {seq event seq' event'}, eventAt process.events seq = some event →
    event.isExited = true → eventAt process.events seq' = some event' → event'.isExited = true →
    seq = seq'
  exit_mem : ∀ {code}, process.exitCode = some code →
    ∃ seq, eventAt process.events seq = some (.exited seq code (some process.sandboxDenied))
  closed_last : ∀ {seq event}, eventAt process.events seq = some event → event.isClosed = true →
    seq = process.events.length ∧ process.closed = true
  closed_mem : process.closed = true →
    eventAt process.events process.events.length = some (.closed process.events.length)
  streams : process.openStreams = process.tasks.length
  ended : process.closed = true → process.tasks = [] ∧ process.exitCode.isSome = true
  output_mem : ∀ chunk ∈ process.output, eventAt process.events chunk.seq = some (.output chunk)
  output_sorted : process.output.Pairwise fun chunk chunk' => chunk.seq < chunk'.seq

namespace RunningProcess

theorem sound_start (tty sandboxed : Bool) : (start tty sandboxed).Sound where
  nextSeq_eq := rfl
  seq_eq h := by simp [start] at h
  exit_eq h := by simp [start] at h
  exit_unique h := by simp [start] at h
  exit_mem := nofun
  closed_last h := by simp [start] at h
  closed_mem := nofun
  streams := by cases tty <;> rfl
  ended := nofun
  output_mem := nofun
  output_sorted := List.Pairwise.nil

theorem evict_of_le {retainedBytes : ℕ} (output : List ProcessOutputChunk)
    (h : retainedBytes ≤ retainedOutputBytesPerProcess) :
    evict retainedBytes output = (output, retainedBytes) := by
  cases output with
  | nil => rfl
  | cons chunk output => exact if_neg (Nat.not_lt.2 h)

theorem evict_suffix (retainedBytes : ℕ) (output : List ProcessOutputChunk) :
    (evict retainedBytes output).1 <:+ output := by
  induction output generalizing retainedBytes with
  | nil => exact suffix_rfl
  | cons chunk output ih =>
    unfold evict
    split
    · exact (ih _).trans (suffix_cons chunk output)
    · exact suffix_rfl

/-- What an event leaves of the process: it is an exit, if the process had none, and then it has
the process's code and verdict; or the code and the verdict are as they were. -/
def ExitOf (process process' : RunningProcess) (event : ExecProcessEvent) : Prop :=
  (event.isExited = false ∧ process'.exitCode = process.exitCode ∧
    process'.sandboxDenied = process.sandboxDenied) ∨
  (process.exitCode = none ∧ ∃ code, process'.exitCode = some code ∧
    event = .exited process.nextSeq code (some process'.sandboxDenied))

variable {process : RunningProcess}

/-- The next event of a process that is not closed. -/
theorem Sound.emit {process' : RunningProcess} {last : ExecProcessEvent} (h : process.Sound)
    (hopen : process.closed = false) (hevents : process'.events = process.events ++ [last])
    (hseq : last.seq = some process.nextSeq) (hnext : process'.nextSeq = process.nextSeq + 1)
    (hexit : process.ExitOf process' last) (hclosed : process'.closed = last.isClosed)
    (hlast : last.isClosed = true → last = .closed process.nextSeq)
    (hstreams : process'.openStreams = process'.tasks.length)
    (hended : process'.closed = true → process'.tasks = [] ∧ process'.exitCode.isSome = true)
    (hmem : ∀ chunk ∈ process'.output, eventAt process'.events chunk.seq = some (.output chunk))
    (hsorted : process'.output.Pairwise fun chunk chunk' => chunk.seq < chunk'.seq) :
    process'.Sound := by
  have hnextSeq := h.nextSeq_eq
  have hlength : process'.events.length = process.nextSeq := by
    rw [hevents, length_append, hnextSeq]
    rfl
  have hcases : ∀ {seq event}, eventAt process'.events seq = some event ↔
      eventAt process.events seq = some event ∨ seq = process.nextSeq ∧ event = last := by
    intro seq event
    rw [hevents, eventAt_concat, hnextSeq]
  have hold : process.exitCode = none → ∀ {seq event}, eventAt process.events seq = some event →
      event.isExited = false := by
    intro hnone seq event hevent
    refine Bool.eq_false_iff.2 fun hexited => ?_
    obtain ⟨code, hcode, -⟩ := h.exit_eq hevent hexited
    rw [hnone] at hcode
    cases hcode
  refine ⟨by rw [hnext, hlength], ?_, ?_, ?_, ?_, ?_, ?_, hstreams, hended, hmem, hsorted⟩
  · intro seq event hevent
    rcases hcases.1 hevent with hevent | ⟨rfl, rfl⟩
    · exact h.seq_eq hevent
    · exact hseq
  · intro seq event hevent hexited
    rcases hcases.1 hevent with hevent | ⟨rfl, rfl⟩
    · rcases hexit with ⟨-, hcode, hdenied⟩ | ⟨hnone, -⟩
      · rw [hcode, hdenied]
        exact h.exit_eq hevent hexited
      · rw [hold hnone hevent] at hexited
        cases hexited
    · rcases hexit with ⟨hnot, -⟩ | ⟨-, code, hcode, rfl⟩
      · rw [hnot] at hexited
        cases hexited
      · exact ⟨code, hcode, rfl⟩
  · intro seq event seq' event' hevent hexited hevent' hexited'
    rcases hexit with ⟨hnot, -⟩ | ⟨hnone, -⟩
    · rcases hcases.1 hevent with hevent | ⟨-, rfl⟩
      · rcases hcases.1 hevent' with hevent' | ⟨-, rfl⟩
        · exact h.exit_unique hevent hexited hevent' hexited'
        · rw [hnot] at hexited'
          cases hexited'
      · rw [hnot] at hexited
        cases hexited
    · rcases hcases.1 hevent with hevent | ⟨rfl, -⟩
      · rw [hold hnone hevent] at hexited
        cases hexited
      · rcases hcases.1 hevent' with hevent' | ⟨rfl, -⟩
        · rw [hold hnone hevent'] at hexited'
          cases hexited'
        · rfl
  · intro code hcode
    rcases hexit with ⟨-, hcode', hdenied⟩ | ⟨-, code', hcode', hlast⟩
    · rw [hcode'] at hcode
      obtain ⟨seq, hmem⟩ := h.exit_mem hcode
      exact ⟨seq, hcases.2 (Or.inl (hdenied ▸ hmem))⟩
    · rw [hcode'] at hcode
      cases hcode
      exact ⟨process.nextSeq, hcases.2 (Or.inr ⟨rfl, hlast.symm⟩)⟩
  · intro seq event hevent hevent'
    rcases hcases.1 hevent with hevent | ⟨rfl, rfl⟩
    · rw [(h.closed_last hevent hevent').2] at hopen
      cases hopen
    · exact ⟨hlength.symm, hclosed.trans hevent'⟩
  · intro hclosed'
    rw [hlength]
    exact hcases.2 (Or.inr ⟨rfl, (hlast (hclosed.symm.trans hclosed')).symm⟩)

theorem Sound.streamOutput (h : process.Sound) {stream : ExecOutputStream}
    (hstream : stream ∈ process.tasks) (chunk : List UInt8) :
    (process.streamOutput stream chunk).Sound := by
  have hopen : process.closed = false := by
    refine Bool.eq_false_iff.2 fun hclosed => ?_
    rw [(h.ended hclosed).1] at hstream
    cases hstream
  have hnext := h.nextSeq_eq
  let last : ProcessOutputChunk := ⟨process.nextSeq, stream, chunk⟩
  have hmem : ∀ c ∈ process.output ++ [last],
      eventAt (process.streamOutput stream chunk).events c.seq = some (.output c) := by
    intro c hc
    rcases mem_append.1 hc with hc | hc
    · exact eventAt_append (h.output_mem c hc) _
    · rw [mem_singleton.1 hc]
      exact eventAt_concat.2 (Or.inr ⟨hnext, rfl⟩)
  have hsorted : (process.output ++ [last]).Pairwise fun c c' => c.seq < c'.seq := by
    refine pairwise_append.2 ⟨h.output_sorted, pairwise_singleton _ _, ?_⟩
    intro c hc c' hc'
    rw [mem_singleton.1 hc']
    have hle := (eventAt_pos (h.output_mem c hc)).2
    show c.seq < process.nextSeq
    omega
  have hsuffix := evict_suffix (process.retainedBytes + chunk.length) (process.output ++ [last])
  exact h.emit hopen rfl rfl rfl (Or.inl ⟨rfl, rfl, rfl⟩) hopen nofun h.streams
    (fun hclosed => absurd (hopen.symm.trans hclosed) nofun) (fun c hc => hmem c (hsuffix.subset hc))
    (hsorted.sublist hsuffix.sublist)

theorem Sound.watchExit (h : process.Sound) (hrunning : process.exitCode = none) (exitCode : ℤ)
    (denied : Bool) : (process.watchExit exitCode denied).Sound := by
  have hopen : process.closed = false := by
    refine Bool.eq_false_iff.2 fun hclosed => ?_
    have hexited := (h.ended hclosed).2
    rw [hrunning] at hexited
    cases hexited
  exact h.emit hopen rfl rfl rfl (Or.inr ⟨hrunning, exitCode, rfl, rfl⟩) hopen nofun h.streams
    (fun hclosed => absurd (hopen.symm.trans hclosed) nofun)
    (fun c hc => eventAt_append (h.output_mem c hc) _) h.output_sorted

theorem Sound.finishOutputStream (h : process.Sound) {stream : ExecOutputStream}
    (hstream : stream ∈ process.tasks) : (process.finishOutputStream stream).Sound := by
  refine { h with streams := ?_, ended := ?_ }
  · show process.openStreams - 1 = (process.tasks.erase stream).length
    rw [h.streams, length_erase_of_mem hstream]
  · intro hclosed
    rw [(h.ended hclosed).1] at hstream
    cases hstream

theorem Sound.maybeEmitClosed (h : process.Sound) : process.maybeEmitClosed.Sound := by
  unfold RunningProcess.maybeEmitClosed
  split
  · exact h
  next hready =>
  simp only [Bool.or_eq_true, not_or, Bool.not_eq_true, decide_eq_true_eq, not_not] at hready
  obtain ⟨⟨hopen, hstreams⟩, hexited⟩ := hready
  have htasks : process.tasks = [] := length_eq_zero_iff.1 (h.streams.symm.trans hstreams)
  have hcode : process.exitCode.isSome = true := by
    rwa [Option.isNone_eq_false_iff] at hexited
  exact h.emit hopen rfl rfl rfl (Or.inl ⟨rfl, rfl, rfl⟩) rfl (fun _ => rfl) h.streams
    (fun _ => ⟨htasks, hcode⟩) (fun c hc => eventAt_append (h.output_mem c hc) _) h.output_sorted

end RunningProcess

/-! ## What an answer says -/

/-- The answer tells of the events below `nextSeq`: it has some of their chunks in order, the exit
with its code and verdict if it is one of them, and the close if that is the last of them. -/
structure ReadResponse.Describes (response : ReadResponse) (events : List ExecProcessEvent) :
    Prop where
  nextSeq_pos : 0 < response.nextSeq
  nextSeq_le : response.nextSeq ≤ events.length + 1
  chunk_mem : ∀ chunk ∈ response.chunks, eventAt events chunk.seq = some (.output chunk) ∧
    chunk.seq < response.nextSeq
  sorted : response.chunks.Pairwise fun chunk chunk' => chunk.seq < chunk'.seq
  exited_eq : response.exited = response.exitCode.isSome
  exit_mem : ∀ {code}, response.exitCode = some code → ∃ seq < response.nextSeq,
    eventAt events seq = some (.exited seq code (some response.sandboxDenied))
  exit_none : response.exitCode = none → ∀ seq < response.nextSeq, ∀ event,
    eventAt events seq = some event → event.isExited = false
  closed_mem : response.closed = true →
    eventAt events (response.nextSeq - 1) = some (.closed (response.nextSeq - 1))
  failure_eq : response.failure = none

/-- What is left of this where the answer may stop at a limit: its chunks are events before
`nextSeq`, and the exit, wherever it is, has its code and verdict. -/
structure ReadResponse.Tells (response : ReadResponse) (events : List ExecProcessEvent) : Prop where
  chunk_mem : ∀ chunk ∈ response.chunks, eventAt events chunk.seq = some (.output chunk) ∧
    chunk.seq < response.nextSeq
  sorted : response.chunks.Pairwise fun chunk chunk' => chunk.seq < chunk'.seq
  exited_eq : response.exited = response.exitCode.isSome
  exit_eq : ∀ {code seq event}, response.exitCode = some code → eventAt events seq = some event →
    event.isExited = true → event = .exited seq code (some response.sandboxDenied)
  exit_none : response.exitCode = none → ∀ seq < response.nextSeq, ∀ event,
    eventAt events seq = some event → event.isExited = false
  failure_eq : response.failure = none

theorem ReadResponse.Describes.tells {response : ReadResponse} {process : RunningProcess}
    (h : response.Describes process.events) (hprocess : process.Sound) :
    response.Tells process.events where
  chunk_mem := h.chunk_mem
  sorted := h.sorted
  exited_eq := h.exited_eq
  exit_eq hcode hevent hexited := by
    obtain ⟨seq', -, hseq'⟩ := h.exit_mem hcode
    have heq := hprocess.exit_unique hevent hexited hseq' rfl
    subst heq
    rw [hseq'] at hevent
    cases hevent
    rfl
  exit_none := h.exit_none
  failure_eq := h.failure_eq

theorem readChunks_eq (maxBytes : ℕ) (rest chunks : List ProcessOutputChunk)
    (totalBytes nextSeq : ℕ) :
    ∃ taken, taken <+: rest ∧
      (readChunks maxBytes rest chunks totalBytes nextSeq).1 = chunks ++ taken := by
  induction rest generalizing chunks totalBytes nextSeq with
  | nil => exact ⟨[], prefix_rfl, (append_nil chunks).symm⟩
  | cons retained rest ih =>
    unfold readChunks
    split
    · exact ⟨[], nil_prefix, (append_nil chunks).symm⟩
    split
    · exact ⟨[retained], prefix_append [retained] rest, rfl⟩
    · obtain ⟨taken, htaken, hread⟩ := ih (chunks ++ [retained])
        (totalBytes + retained.chunk.length) (retained.seq + 1)
      refine ⟨retained :: taken, cons_prefix_cons.2 ⟨rfl, htaken⟩, ?_⟩
      rw [hread, List.append_assoc]
      rfl

/-- **An answer tells the truth** of the process as it was. -/
theorem execRead_describes {process : RunningProcess} (h : process.Sound) (afterSeq : ℕ) :
    (execRead process afterSeq none).Describes process.events := by
  have hnext := h.nextSeq_eq
  obtain ⟨taken, htaken, hread⟩ := readChunks_eq usizeMax
    (process.output.filter fun chunk => afterSeq < chunk.seq) [] 0 process.nextSeq
  have hchunks : (execRead process afterSeq none).chunks = taken := hread
  have hsub : taken.Sublist process.output := htaken.sublist.trans filter_sublist
  constructor
  · show 0 < process.nextSeq
    omega
  · exact hnext.le
  · intro chunk hchunk
    rw [hchunks] at hchunk
    have hmem := h.output_mem chunk (hsub.subset hchunk)
    refine ⟨hmem, ?_⟩
    have hle := (eventAt_pos hmem).2
    show chunk.seq < process.nextSeq
    omega
  · rw [hchunks]
    exact h.output_sorted.sublist hsub
  · rfl
  · intro code hcode
    obtain ⟨seq, hseq⟩ := h.exit_mem hcode
    refine ⟨seq, ?_, hseq⟩
    have hle := (eventAt_pos hseq).2
    show seq < process.nextSeq
    omega
  · intro hcode seq _ event hevent
    refine Bool.eq_false_iff.2 fun hexited => ?_
    obtain ⟨code, hcode', -⟩ := h.exit_eq hevent hexited
    rw [show process.exitCode = none from hcode] at hcode'
    cases hcode'
  · intro hclosed
    have hlast : process.nextSeq - 1 = process.events.length := by omega
    show eventAt process.events (process.nextSeq - 1) = some (.closed (process.nextSeq - 1))
    rw [hlast]
    exact h.closed_mem hclosed
  · rfl

/-- Later events change nothing of what an answer says. -/
theorem ReadResponse.Describes.append {response : ReadResponse} (h : response.Describes events)
    (more : List ExecProcessEvent) : response.Describes (events ++ more) where
  nextSeq_pos := h.nextSeq_pos
  nextSeq_le := by
    have hle := h.nextSeq_le
    rw [length_append]
    omega
  chunk_mem chunk hchunk := ⟨eventAt_append (h.chunk_mem chunk hchunk).1 more,
    (h.chunk_mem chunk hchunk).2⟩
  sorted := h.sorted
  exited_eq := h.exited_eq
  exit_mem hcode := by
    obtain ⟨seq, hlt, hseq⟩ := h.exit_mem hcode
    exact ⟨seq, hlt, eventAt_append hseq more⟩
  exit_none hcode seq hlt event hevent := by
    have hle := h.nextSeq_le
    rw [eventAt_append_of_le (by omega)] at hevent
    exact h.exit_none hcode seq hlt event hevent
  closed_mem hclosed := eventAt_append (h.closed_mem hclosed) more
  failure_eq := h.failure_eq

end Codex.ExecServer
