import Codex.ExecServer.ProcessEvents
import Mathlib.Algebra.Order.BigOperators.Group.List
import Mathlib.Algebra.Order.Ring.Nat

/-!
# Runs of a process

The tasks of a process (`exec-server/src/local_process.rs`) each take the lock for a step of
their own, in any order: a step is one turn of `stream_output`, the end of a stream, the exit
or a `maybe_emit_closed`. Over every run the events stay numbered in their order and what is
retained stays below its limit, so that an answer to a read is a page of what is retained.
-/

namespace Codex.ExecServer

open List

inductive ProcessAction where
  | output (stream : ExecOutputStream) (chunk : List UInt8)
  | exit (exitCode : ℤ) (likelySandboxDenied : Bool)
  | finishStream (stream : ExecOutputStream)
  | maybeEmitClosed
  deriving DecidableEq

namespace RunningProcess

/-- The stream tasks send output until they end, and a process exits once. -/
def step (process : RunningProcess) : ProcessAction → Option RunningProcess
  | .output stream chunk =>
    if stream ∈ process.tasks then some (process.streamOutput stream chunk) else none
  | .exit exitCode likelySandboxDenied =>
    if process.exitCode.isNone then some (process.watchExit exitCode likelySandboxDenied) else none
  | .finishStream stream =>
    if stream ∈ process.tasks then some (process.finishOutputStream stream) else none
  | .maybeEmitClosed => some process.maybeEmitClosed

def bytesOf (output : List ProcessOutputChunk) : ℕ :=
  (output.map fun chunk => chunk.chunk.length).sum

/-- The counter counts what is retained, and that stays below the limit. -/
structure Retains (process : RunningProcess) : Prop where
  bytes_eq : process.retainedBytes = bytesOf process.output
  bytes_le : process.retainedBytes ≤ retainedOutputBytesPerProcess

theorem retains_start (tty sandboxed : Bool) : (start tty sandboxed).Retains :=
  ⟨rfl, Nat.zero_le _⟩

theorem evict_bytes {retainedBytes : ℕ} {output : List ProcessOutputChunk}
    (h : retainedBytes = bytesOf output) :
    (evict retainedBytes output).2 = bytesOf (evict retainedBytes output).1 ∧
      (evict retainedBytes output).2 ≤ retainedOutputBytesPerProcess := by
  induction output generalizing retainedBytes with
  | nil =>
    subst h
    exact ⟨rfl, Nat.zero_le _⟩
  | cons chunk output ih =>
    unfold evict
    split
    · refine ih ?_
      rw [h, bytesOf, map_cons, sum_cons, Nat.add_sub_cancel_left]
      rfl
    · next hle => exact ⟨h, Nat.le_of_not_lt hle⟩

variable {process : RunningProcess}

theorem Retains.streamOutput (h : process.Retains)
    (stream : ExecOutputStream) (chunk : List UInt8) :
    (process.streamOutput stream chunk).Retains := by
  have hbytes : process.retainedBytes + chunk.length =
      bytesOf (process.output ++ [⟨process.nextSeq, stream, chunk⟩]) := by
    rw [h.bytes_eq, bytesOf, bytesOf, map_append, sum_append]
    simp
  obtain ⟨heq, hle⟩ := evict_bytes hbytes
  exact ⟨heq, hle⟩

/-- What a run keeps. -/
def Steady (process : RunningProcess) : Prop := process.Sound ∧ process.Retains

/-- **One step** of a task: it adds events, and keeps their order and the limit. -/
theorem Steady.step {process' : RunningProcess} {a : ProcessAction} (h : process.Steady)
    (hstep : process.step a = some process') :
    process'.Steady ∧ process.events <+: process'.events := by
  obtain ⟨hsound, hretains⟩ := h
  cases a with
  | output stream chunk =>
    simp only [RunningProcess.step] at hstep
    split at hstep
    · next hstream =>
      cases hstep
      exact ⟨⟨hsound.streamOutput hstream chunk, hretains.streamOutput stream chunk⟩,
        prefix_append _ _⟩
    · cases hstep
  | exit exitCode denied =>
    simp only [RunningProcess.step] at hstep
    split at hstep
    · next hrunning =>
      cases hstep
      exact ⟨⟨hsound.watchExit (Option.isNone_iff_eq_none.1 hrunning) exitCode denied,
        ⟨hretains.bytes_eq, hretains.bytes_le⟩⟩, prefix_append _ _⟩
    · cases hstep
  | finishStream stream =>
    simp only [RunningProcess.step] at hstep
    split at hstep
    · next hstream =>
      cases hstep
      exact ⟨⟨hsound.finishOutputStream hstream, ⟨hretains.bytes_eq, hretains.bytes_le⟩⟩,
        prefix_rfl⟩
    · cases hstep
  | maybeEmitClosed =>
    cases hstep
    refine ⟨⟨hsound.maybeEmitClosed, ?_⟩, ?_⟩
    · unfold RunningProcess.maybeEmitClosed
      split
      · exact hretains
      · exact ⟨hretains.bytes_eq, hretains.bytes_le⟩
    · unfold RunningProcess.maybeEmitClosed
      split
      · exact prefix_rfl
      · exact prefix_append _ _

theorem Steady.run {process' : RunningProcess} {acts : List ProcessAction} (h : process.Steady)
    (hrun : Machine.run RunningProcess.step process acts = some process') :
    process'.Steady ∧ process.events <+: process'.events := by
  have hkeep (p : RunningProcess) (a : ProcessAction) (p' : RunningProcess)
      (hp : p.Steady ∧ process.events <+: p.events) (hstep : p.step a = some p') :
      p'.Steady ∧ process.events <+: p'.events := by
    obtain ⟨hsteady', hmore⟩ := hp.1.step hstep
    exact ⟨hsteady', hp.2.trans hmore⟩
  have hall (Inv : RunningProcess → Prop)
      (hstep : ∀ p a p', Inv p → RunningProcess.step p a = some p' → Inv p')
      (hfirst : Inv process) : Inv process' := Machine.run_invariant hstep hfirst hrun
  exact hall (fun p => p.Steady ∧ process.events <+: p.events) hkeep ⟨h, prefix_rfl⟩

theorem steady_start (tty sandboxed : Bool) : (start tty sandboxed).Steady :=
  ⟨sound_start tty sandboxed, retains_start tty sandboxed⟩

end RunningProcess

/-! ## A page -/

/-- The number after the last chunk of a page. -/
def seqAfter (nextSeq : ℕ) (chunks : List ProcessOutputChunk) : ℕ :=
  (chunks.getLast?.map fun last => last.seq + 1).getD nextSeq

theorem seqAfter_cons (nextSeq : ℕ) (chunk : ProcessOutputChunk) (chunks : List ProcessOutputChunk) :
    seqAfter (chunk.seq + 1) chunks = seqAfter nextSeq (chunk :: chunks) := by
  cases chunks with
  | nil => rfl
  | cons next chunks =>
    unfold seqAfter
    rw [getLast?_cons_cons]
    have hsome : ((next :: chunks).getLast?).isSome = true := by simp
    obtain ⟨last, hlast⟩ := Option.isSome_iff_exists.1 hsome
    rw [hlast]
    rfl

/-- A page is the first chunks of what is left, one at least, and all where they stay below
`maxBytes`. -/
theorem readChunks_spec (maxBytes : ℕ) (rest chunks : List ProcessOutputChunk)
    (totalBytes nextSeq : ℕ) :
    ∃ taken left, rest = taken ++ left ∧
      readChunks maxBytes rest chunks totalBytes nextSeq = (chunks ++ taken, seqAfter nextSeq taken) ∧
      (chunks = [] → taken = [] → rest = []) ∧
      (left ≠ [] → maxBytes ≤ totalBytes + RunningProcess.bytesOf rest) := by
  induction rest generalizing chunks totalBytes nextSeq with
  | nil =>
    refine ⟨[], [], rfl, ?_, fun _ _ => rfl, fun h => absurd rfl h⟩
    rw [readChunks, append_nil]
    rfl
  | cons retained rest ih =>
    have hbytes : RunningProcess.bytesOf (retained :: rest) =
        retained.chunk.length + RunningProcess.bytesOf rest := by
      simp [RunningProcess.bytesOf]
    unfold readChunks
    split
    · next hfull =>
      refine ⟨[], retained :: rest, rfl, ?_, fun h => absurd h hfull.1, fun _ => ?_⟩
      · rw [append_nil]
        rfl
      · rw [hbytes]
        omega
    split
    · next hfull =>
      refine ⟨[retained], rest, rfl, rfl, nofun, fun _ => ?_⟩
      rw [hbytes]
      omega
    · obtain ⟨taken, left, hsplit, hread, -, hleft⟩ := ih (chunks ++ [retained])
        (totalBytes + retained.chunk.length) (retained.seq + 1)
      refine ⟨retained :: taken, left, by rw [hsplit, cons_append], ?_, nofun, fun hne => ?_⟩
      · rw [hread, List.append_assoc, seqAfter_cons nextSeq]
        rfl
      · have hle := hleft hne
        rw [hbytes]
        omega

/-- What the process retains after a position. -/
def retainedAfter (process : RunningProcess) (afterSeq : ℕ) : List ProcessOutputChunk :=
  process.output.filter fun chunk => afterSeq < chunk.seq

variable {process : RunningProcess}

theorem mem_retainedAfter {afterSeq : ℕ} {chunk : ProcessOutputChunk} :
    chunk ∈ retainedAfter process afterSeq ↔ chunk ∈ process.output ∧ afterSeq < chunk.seq := by
  rw [retainedAfter, mem_filter, decide_eq_true_eq]

theorem bytesOf_sublist {output output' : List ProcessOutputChunk} (h : output.Sublist output') :
    RunningProcess.bytesOf output ≤ RunningProcess.bytesOf output' :=
  List.Sublist.sum_le_sum (h.map _) fun _ _ => Nat.zero_le _

/-- **An answer is a page** of what is retained: its first chunks, up to `nextSeq`. -/
structure ReadResponse.PageOf (response : ReadResponse) (process : RunningProcess) (afterSeq : ℕ) :
    Prop where
  chunks_prefix : response.chunks <+: retainedAfter process afterSeq
  chunk_lt : ∀ chunk ∈ response.chunks, chunk.seq < response.nextSeq
  complete : ∀ chunk ∈ retainedAfter process afterSeq, chunk.seq < response.nextSeq →
    chunk ∈ response.chunks
  nonempty : response.chunks = [] → retainedAfter process afterSeq = []
  nextSeq_le : response.nextSeq ≤ process.nextSeq
  lt_nextSeq : afterSeq < process.nextSeq → afterSeq < response.nextSeq

theorem lt_nextSeq_of_retained (h : process.Sound) {afterSeq : ℕ} {chunk : ProcessOutputChunk}
    (hmem : chunk ∈ retainedAfter process afterSeq) : chunk.seq < process.nextSeq := by
  have hle := (eventAt_pos (h.output_mem chunk (mem_retainedAfter.1 hmem).1)).2
  have hnext := h.nextSeq_eq
  omega

/-- Without a limit the page has all there is. -/
theorem chunks_execRead_none (h : process.Steady) (afterSeq : ℕ) :
    (execRead process afterSeq none).chunks = retainedAfter process afterSeq := by
  obtain ⟨taken, left, hsplit, hread, -, hleft⟩ := readChunks_spec usizeMax
    (retainedAfter process afterSeq) [] 0 process.nextSeq
  have hnil : left = [] := by
    by_contra hne
    have hle := hleft hne
    have hsub : RunningProcess.bytesOf (retainedAfter process afterSeq) ≤
        RunningProcess.bytesOf process.output := bytesOf_sublist filter_sublist
    have hlimit := h.2.bytes_le
    have hbytes := h.2.bytes_eq
    have hsmall : retainedOutputBytesPerProcess < usizeMax := by decide
    omega
  have hchunks : (execRead process afterSeq none).chunks = taken := congrArg Prod.fst hread
  rw [hchunks, hsplit, hnil, append_nil]

theorem execRead_pageOf_none (h : process.Steady) (afterSeq : ℕ) :
    (execRead process afterSeq none).PageOf process afterSeq := by
  have hall := chunks_execRead_none h afterSeq
  have hnext : (execRead process afterSeq none).nextSeq = process.nextSeq := rfl
  refine ⟨?_, ?_, ?_, ?_, hnext.le, fun hlt => hlt⟩
  · rw [hall]
  · rw [hall, hnext]
    exact fun _ hmem => lt_nextSeq_of_retained h.1 hmem
  · rw [hall]
    exact fun _ hmem _ => hmem
  · rw [hall]
    exact id

theorem execRead_pageOf_some (h : process.Sound) (afterSeq maxBytes : ℕ) :
    (execRead process afterSeq (some maxBytes)).PageOf process afterSeq := by
  obtain ⟨taken, left, hsplit, hread, hfirst, -⟩ := readChunks_spec maxBytes
    (retainedAfter process afterSeq) [] 0 process.nextSeq
  have hchunks : (execRead process afterSeq (some maxBytes)).chunks = taken := congrArg Prod.fst hread
  have hnext : (execRead process afterSeq (some maxBytes)).nextSeq =
      seqAfter process.nextSeq taken := congrArg Prod.snd hread
  rcases eq_nil_or_concat' taken with hnil | ⟨before, last, htaken⟩
  · have hempty := hfirst rfl hnil
    subst hnil
    refine ⟨?_, ?_, ?_, fun _ => hempty, hnext.le, fun hlt => hnext ▸ hlt⟩
    · rw [hchunks]
      exact nil_prefix
    · rw [hchunks]
      exact nofun
    · rw [hempty]
      exact nofun
  have hafter : seqAfter process.nextSeq taken = last.seq + 1 := by
    rw [htaken, seqAfter, getLast?_append]
    rfl
  rw [hafter] at hnext
  have hlast : last ∈ retainedAfter process afterSeq := by
    rw [hsplit, htaken]
    simp
  have hsorted : (retainedAfter process afterSeq).Pairwise fun c c' => c.seq < c'.seq :=
    h.output_sorted.sublist filter_sublist
  rw [hsplit, htaken, List.append_assoc, pairwise_append] at hsorted
  obtain ⟨-, hrest, hbefore⟩ := hsorted
  rw [singleton_append, pairwise_cons] at hrest
  refine ⟨?_, ?_, ?_, ?_, ?_, ?_⟩
  · rw [hchunks, hsplit]
    exact prefix_append _ _
  · rw [hchunks, hnext, htaken]
    intro chunk hmem
    rcases mem_append.1 hmem with hmem | hmem
    · exact Nat.lt_succ_of_lt (hbefore chunk hmem last mem_cons_self)
    · rw [mem_singleton.1 hmem]
      exact Nat.lt_succ_self _
  · rw [hchunks, hnext, hsplit]
    intro chunk hmem hlt
    refine (mem_append.1 hmem).resolve_right fun hmem => ?_
    have hgt := hrest.1 chunk hmem
    omega
  · rw [hchunks, htaken]
    exact fun hnil => absurd hnil (by simp)
  · rw [hnext]
    exact lt_nextSeq_of_retained h hlast
  · intro _
    rw [hnext]
    exact Nat.lt_succ_of_lt (mem_retainedAfter.1 hlast).2

theorem execRead_pageOf (h : process.Steady) (afterSeq : ℕ) (maxBytes : Option ℕ) :
    (execRead process afterSeq maxBytes).PageOf process afterSeq := by
  cases maxBytes with
  | none => exact execRead_pageOf_none h afterSeq
  | some maxBytes => exact execRead_pageOf_some h.1 afterSeq maxBytes

end Codex.ExecServer
