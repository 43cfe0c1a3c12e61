import Codex.ExecServer.Recovery

/-!
# Recoveries that fail

`recover_events` (`exec-server/src/client_recovery.rs`) publishes as it goes and looks for
gaps at its end, so that a call that fails has already shown something. It is the first
events of the process, unless the call took a gap of lost output for the exit
(`recoverEvents_error_iff`): only the chunks of an answer publish, one after the other, and
the guess is made at the first number that neither the session nor the answer has.
-/

namespace Codex.ExecServer

open List Codex.Text

/-! ## Snapshots -/

/-- An answer tells the truth also of what the process has done since. -/
theorem execRead_tells {server later : RunningProcess} (hserver : server.Steady)
    (hlater : later.Steady) (hmore : server.events <+: later.events) (afterSeq : ℕ)
    (maxBytes : Option ℕ) : (execRead server afterSeq maxBytes).Tells later.events := by
  obtain ⟨more, hmore⟩ := hmore
  have hpage := execRead_pageOf hserver afterSeq maxBytes
  have hsub := hpage.chunks_prefix.sublist.trans filter_sublist
  have hlift : ∀ {seq event}, eventAt server.events seq = some event →
      eventAt later.events seq = some event := fun h => hmore ▸ eventAt_append h more
  constructor
  · intro chunk hmem
    exact ⟨hlift (hserver.1.output_mem chunk (hsub.subset hmem)), hpage.chunk_lt chunk hmem⟩
  · exact hserver.1.output_sorted.sublist hsub
  · rfl
  · intro code seq event hcode hevent hexited
    obtain ⟨seq', hseq'⟩ := hserver.1.exit_mem hcode
    have heq := hlater.1.exit_unique hevent hexited (hlift hseq') rfl
    subst heq
    rw [hlift hseq'] at hevent
    exact (Option.some_inj.1 hevent).symm
  · intro hcode seq hlt event hevent
    have hle := hpage.nextSeq_le
    have hnext := hserver.1.nextSeq_eq
    rw [← hmore, eventAt_append_of_le (by omega)] at hevent
    refine Bool.eq_false_iff.2 fun hexited => ?_
    obtain ⟨code, hcode', -⟩ := hserver.1.exit_eq hevent hexited
    rw [show server.exitCode = none from hcode] at hcode'
    cases hcode'
  · rfl

/-- A chunk that is retained is not too large for the buffer. -/
theorem execRead_fits {server : RunningProcess} (hserver : server.Steady) (afterSeq : ℕ)
    (maxBytes : Option ℕ) {chunk : ProcessOutputChunk}
    (hmem : chunk ∈ (execRead server afterSeq maxBytes).chunks) :
    chunk.chunk.length ≤ maxPendingProcessEventBytes := by
  have hpage := execRead_pageOf hserver afterSeq maxBytes
  have hretained := (mem_retainedAfter.1 (hpage.chunks_prefix.subset hmem)).1
  have hle : chunk.chunk.length ≤ RunningProcess.bytesOf server.output :=
    le_sum_of_mem (mem_map_of_mem hretained)
  rw [← hserver.2.bytes_eq] at hle
  exact hle.trans hserver.2.bytes_le

/-! ## What is published stays -/

section Grows

variable {session : SessionState} {event : ExecProcessEvent} {response : ReadResponse}
  {events : List ExecProcessEvent}

theorem publishLoop_grows (session : SessionState) (turns : ℕ) (publishedClosed : Bool) :
    session.events <+: (session.publishLoop turns publishedClosed).1.events := by
  induction turns generalizing session publishedClosed with
  | zero => exact prefix_rfl
  | succ turns ih =>
    unfold SessionState.publishLoop
    dsimp only
    split
    · exact prefix_rfl
    · next event _ =>
      exact (prefix_append session.events [event]).trans (ih (session.publishNext event) _)

/-- Buffering shows nothing. -/
theorem insertPending_shows (session : SessionState) (event : ExecProcessEvent) :
    Ends (insertPending event) session (fun _ session' => session'.events = session.events)
      (fun session' => session'.events = session.events) :=
  ends_bind (ends_get (ends_bind (ends_ofExcept (fun _ _ => ends_modify rfl) fun _ _ => rfl)))

theorem insertExit_shows (session : SessionState) (response : ReadResponse) (seq : ℕ) :
    Ends (insertExit response seq) session (fun _ session' => session'.events = session.events)
      (fun session' => session'.events = session.events) :=
  ends_bind (ends_ofExcept (fun _ _ => insertPending_shows session _) fun _ _ => rfl)

theorem exitBefore_grows (session : SessionState) (response : ReadResponse) (infersExit : Bool) :
    Ends (exitBefore response infersExit) session
      (fun _ session' => session.events <+: session'.events)
      (fun session' => session.events <+: session'.events) := by
  refine ends_bind (ends_get ?_)
  split
  · refine (insertExit_shows session response _).bind ?_ fun _ heq => heq ▸ prefix_rfl
    rintro _ session' heq
    rw [← heq]
    exact publishLoop_grows session' _ false
  · exact ends_pure prefix_rfl

theorem recoverChunk_grows (session : SessionState) (chunk : ProcessOutputChunk) :
    Ends (recoverChunk chunk) session (fun _ session' => session.events <+: session'.events)
      (fun session' => session.events <+: session'.events) := by
  refine ends_bind (ends_get ?_)
  dsimp only
  split
  · refine (insertPending_shows session _).bind ?_ fun _ heq => heq ▸ prefix_rfl
    rintro _ session' heq
    rw [← heq]
    exact publishLoop_grows session' _ false
  · exact ends_pure prefix_rfl

/-- The chunks of an answer only add to what has been published. -/
theorem recoverChunks_grows (session : SessionState) (response : ReadResponse) (targetSeq : ℕ)
    (chunks : List ProcessOutputChunk) (exitKnown publishedClosed : Bool) :
    Ends (recoverChunks response targetSeq chunks exitKnown publishedClosed) session
      (fun _ session' => session.events <+: session'.events)
      (fun session' => session.events <+: session'.events) := by
  induction chunks generalizing session exitKnown publishedClosed with
  | nil => exact ends_pure prefix_rfl
  | cons chunk chunks ih =>
    unfold recoverChunks
    split
    · exact ends_throw prefix_rfl
    refine ends_bind (ends_get ?_)
    refine (exitBefore_grows session response _).bind ?_ fun _ => id
    rintro _ session₁ hgrows₁
    refine (recoverChunk_grows session₁ chunk).bind ?_ fun _ hgrows => hgrows₁.trans hgrows
    rintro _ session₂ hgrows₂
    exact (ih session₂ _ _).mono (fun _ _ hgrows => hgrows₁.trans (hgrows₂.trans hgrows))
      fun _ hgrows => hgrows₁.trans (hgrows₂.trans hgrows)

/-- After the chunks a call that fails publishes nothing more. -/
theorem recoverEnd_shows (session : SessionState) (response : ReadResponse) (targetSeq : ℕ)
    (exitKnown : Bool) (closed : Bool → Bool) :
    Ends (do
        recoverClose response targetSeq
        recoverExit response targetSeq exitKnown
        let closedAtEnd ← publishReady
        return closed closedAtEnd) session
      (fun _ _ => True) (fun session' => session'.events = session.events) := by
  have hclose : Ends (recoverClose response targetSeq) session
      (fun _ session' => session'.events = session.events)
      (fun session' => session'.events = session.events) := by
    refine ends_bind (ends_get ?_)
    dsimp only
    split
    · exact insertPending_shows session _
    · exact ends_pure rfl
  refine hclose.bind ?_ fun _ => id
  rintro _ session₁ hsame
  have hexit : Ends (recoverExit response targetSeq exitKnown) session₁
      (fun _ _ => True) (fun session' => session'.events = session₁.events) := by
    refine ends_bind (ends_get ?_)
    dsimp only
    split
    · split
      · exact ends_throw rfl
      · exact (insertExit_shows session₁ response _).mono (fun _ _ _ => trivial) fun _ => id
    · split
      · exact ends_throw rfl
      · exact ends_pure trivial
  refine hexit.bind ?_ fun _ heq => heq.trans hsame
  rintro _ session₂ -
  exact trivial

end Grows

/-! ## The guess -/

/-- The exit is to be inferred, and the first event that is missing lies before a chunk and is
output. A session whose next event is in its buffer publishes that before it comes to a gap. -/
structure GuessesLostOutput (events : List ExecProcessEvent) (session : SessionState)
    (response : ReadResponse) : Prop where
  agrees : closeConflicts response session.orderedEvents (response.nextSeq - 1) = false
  exited : response.exited = true
  unknown : exitKnownOf session.orderedEvents (response.nextSeq - 1) = false
  ready : session.Drained ∨ session.orderedEvents.lastPublishedSeq + 1 ∈
    response.chunks.map ProcessOutputChunk.seq
  lost : ∃ seq, FirstMissing session response seq ∧ (∃ chunk ∈ response.chunks, seq < chunk.seq) ∧
    ∃ chunk, eventAt events seq = some (.output chunk)

theorem FirstMissing.unique {session : SessionState} {response : ReadResponse} {seq seq' : ℕ}
    (h : FirstMissing session response seq) (h' : FirstMissing session response seq') :
    seq = seq' := by
  obtain ⟨hlt, hnone, hnot, hbefore⟩ := h
  obtain ⟨hlt', hnone', hnot', hbefore'⟩ := h'
  rcases Nat.lt_trichotomy seq seq' with hless | heq | hless
  · exact absurd (hbefore' seq hlt hless) (not_or.2 ⟨not_not.2 hnone, hnot⟩)
  · exact heq
  · exact absurd (hbefore seq' hlt' hless) (not_or.2 ⟨not_not.2 hnone', hnot'⟩)

/-- An exit has been published in the place of output. -/
def Misplaced (events : List ExecProcessEvent) (session : SessionState) : Prop :=
  ∃ seq exit chunk, eventAt session.events seq = some exit ∧ exit.isExited = true ∧
    eventAt events seq = some (.output chunk)

theorem Misplaced.grows {events : List ExecProcessEvent} {session session' : SessionState}
    (h : Misplaced events session) (hgrows : session.events <+: session'.events) :
    Misplaced events session' := by
  obtain ⟨seq, exit, chunk, hexit, hexited, hevent⟩ := h
  obtain ⟨more, hmore⟩ := hgrows
  exact ⟨seq, exit, chunk, hmore ▸ eventAt_append hexit more, hexited, hevent⟩

theorem eventAt_take {events : List ExecProcessEvent} {count seq : ℕ} {event : ExecProcessEvent}
    (h : eventAt (events.take count) seq = some event) : eventAt events seq = some event := by
  have hmore := eventAt_append h (events.drop count)
  rwa [take_append_drop] at hmore

theorem Misplaced.not_take {events : List ExecProcessEvent} {session : SessionState}
    (h : Misplaced events session) (count : ℕ) : session.events ≠ events.take count := by
  obtain ⟨seq, exit, chunk, hexit, hexited, hevent⟩ := h
  intro htake
  rw [htake] at hexit
  rw [eventAt_take hexit] at hevent
  cases hevent
  cases hexited

/-! ## Up to the guess -/

section Walk

variable {events : List ExecProcessEvent} {session start : SessionState} {response : ReadResponse}
  {event : ExecProcessEvent}

/-- The chunks before have been published, one after the other, and no guess was made. -/
structure Walked (events : List ExecProcessEvent) (start : SessionState)
    (before : List ProcessOutputChunk) (session : SessionState) : Prop where
  sound : session.Sound events
  extends_before : start.Extends (· ∈ before.map ProcessOutputChunk.seq) session
  passed : ∀ chunk ∈ before, chunk.seq ≤ session.orderedEvents.lastPublishedSeq
  ready : session = start ∨ session.Drained ∧ (start.Drained ∨
    start.orderedEvents.lastPublishedSeq + 1 ∈ before.map ProcessOutputChunk.seq)

/-- The buffer takes the next event, unless that is too large. -/
theorem insertPending_next (session : SessionState) (event : ExecProcessEvent)
    (hseq : event.seq = some (session.orderedEvents.lastPublishedSeq + 1))
    (hfits : pendingProcessEventBytes event ≤ maxPendingProcessEventBytes) :
    ∃ ordered, session.orderedEvents.insertPending event = .ok ordered ∧
      ordered.lastPublishedSeq = session.orderedEvents.lastPublishedSeq ∧
      (session.Drained →
        Entries.get? (session.orderedEvents.lastPublishedSeq + 1) ordered.pending = some event) := by
  unfold OrderedSessionEvents.insertPending SessionState.Drained
  rw [hseq]
  dsimp only
  split
  · next hsome =>
    refine ⟨_, rfl, rfl, fun hnone => ?_⟩
    rw [hnone] at hsome
    cases hsome
  · rw [if_neg (fun h => h.1 rfl), if_neg (Nat.not_lt.2 hfits), if_neg (fun h => h.1 rfl)]
    refine ⟨_, rfl, rfl, fun _ => ?_⟩
    rw [Entries.get?_insert, if_pos rfl]

/-- An event that is next in the buffer is published. -/
theorem publishReady_publishes (session : SessionState)
    (h : Entries.get? (session.orderedEvents.lastPublishedSeq + 1)
    session.orderedEvents.pending = some event) :
    session.events ++ [event] <+: session.publishReady.1.events := by
  unfold SessionState.publishReady
  cases hlength : session.orderedEvents.pending.length with
  | zero =>
    rw [length_eq_zero_iff.1 hlength] at h
    cases h
  | succ turns =>
    unfold SessionState.publishLoop
    dsimp only
    rw [h]
    exact publishLoop_grows (session.publishNext event) turns _

/-- The next chunk is published. -/
theorem insertAndPublish_next {seq : ℕ} (h : session.Sound events)
    (hevent : eventAt events seq = some event) (hseq : event.seq = some seq)
    (hnext : seq = session.orderedEvents.lastPublishedSeq + 1)
    (hfits : pendingProcessEventBytes event ≤ maxPendingProcessEventBytes) :
    Ends (insertAndPublish event) session
      (fun _ session' => session'.Sound events ∧ session'.Drained ∧
        session.Extends (· = seq) session' ∧ seq ≤ session'.orderedEvents.lastPublishedSeq)
      (fun _ => False) := by
  obtain ⟨ordered, hok, -⟩ := insertPending_next session event (hnext ▸ hseq) hfits
  have hends := insertPending_ends h hevent hseq (by omega)
  refine (hends.of_ok (insertPending_ok hok)).bind ?_ fun _ => id
  rintro _ session₁ ⟨hsound, hextends, -⟩
  refine (publishReady_ends hsound).mono ?_ fun _ => id
  rintro _ session₂ ⟨hsound', hdrained, hextends'⟩
  have hboth := (hextends.trans hextends').congr fun _ => (or_false _).to_iff
  refine ⟨hsound', hdrained, hboth, Nat.le_of_not_lt fun hlt => ?_⟩
  -- it would be the next event, and in the buffer
  have hle := hboth.last_le
  have hsame : session₂.orderedEvents.lastPublishedSeq + 1 = seq := by omega
  exact (hboth.pending_iff seq hlt).2 (Or.inr rfl) (hsame ▸ hdrained)

/-- A chunk that leaves no gap before it. -/
theorem Walked.chunk {before : List ProcessOutputChunk} (h : Walked events start before session)
    {chunk : ProcessOutputChunk} (hevent : eventAt events chunk.seq = some (.output chunk))
    (hfits : chunk.chunk.length ≤ maxPendingProcessEventBytes)
    (hclose : chunk.seq ≤ session.orderedEvents.lastPublishedSeq + 1) :
    Ends (recoverChunk chunk) session
      (fun _ session' => Walked events start (before ++ [chunk]) session') (fun _ => False) := by
  have hadded : ∀ seq, (seq ∈ before.map ProcessOutputChunk.seq ∨ seq = chunk.seq) ↔
      seq ∈ (before ++ [chunk]).map ProcessOutputChunk.seq := by
    intro seq
    rw [map_append, mem_append, map_singleton, mem_singleton]
  refine ends_bind (ends_get ?_)
  dsimp only
  split
  · next hlt =>
    have hnext : chunk.seq = session.orderedEvents.lastPublishedSeq + 1 := by omega
    refine (insertAndPublish_next h.sound hevent rfl hnext hfits).mono ?_ fun _ => id
    rintro _ session' ⟨hsound, hdrained, hextends, hle⟩
    refine ⟨hsound, (h.extends_before.trans hextends).congr hadded, ?_, Or.inr ⟨hdrained, ?_⟩⟩
    · intro chunk' hmem
      rcases mem_append.1 hmem with hmem | hmem
      · exact (h.passed chunk' hmem).trans hextends.last_le
      · rw [mem_singleton.1 hmem]
        exact hle
    · rcases h.ready with rfl | ⟨-, hready⟩
      · exact Or.inr ((hadded _).1 (Or.inr hnext.symm))
      · exact hready.imp_right fun hmem => (hadded _).1 (Or.inl hmem)
  · next hpassed =>
    have hle : chunk.seq ≤ session.orderedEvents.lastPublishedSeq := Nat.le_of_not_lt hpassed
    refine ends_pure ⟨h.sound, (h.extends_before.trans (.passed hle)).congr hadded, ?_, ?_⟩
    · intro chunk' hmem
      rcases mem_append.1 hmem with hmem | hmem
      · exact h.passed chunk' hmem
      · rw [mem_singleton.1 hmem]
        exact hle
    · refine h.ready.imp_right fun hready => ⟨hready.1, hready.2.imp_right fun hmem => ?_⟩
      exact (hadded _).1 (Or.inl hmem)

/-- At a gap the session has published what its buffer had next. -/
theorem Walked.ready_at_gap {before chunks : List ProcessOutputChunk} {chunk : ProcessOutputChunk}
    (h : Walked events start before session) (htells : response.Tells events)
    (hsplit : response.chunks = before ++ chunk :: chunks)
    (hgap : session.orderedEvents.lastPublishedSeq + 1 < chunk.seq) :
    session.Drained ↔ start.Drained ∨
      start.orderedEvents.lastPublishedSeq + 1 ∈ response.chunks.map ProcessOutputChunk.seq := by
  rcases h.ready with rfl | ⟨hdrained, hready⟩
  · refine ⟨Or.inl, fun hready => hready.resolve_right fun hmem => ?_⟩
    obtain ⟨c, hc, hseq⟩ := mem_map.1 hmem
    have hsorted := htells.sorted
    rw [hsplit] at hc hsorted
    rw [pairwise_append, pairwise_cons] at hsorted
    rcases mem_append.1 hc with hc | hc
    · have hle := h.passed c hc
      omega
    · rcases mem_cons.1 hc with rfl | hc
      · omega
      · have hlt := hsorted.2.1.1 c hc
        omega
  · refine ⟨fun _ => hready.imp_right fun hmem => ?_, fun _ => hdrained⟩
    rw [hsplit, map_append, mem_append]
    exact Or.inl hmem

/-- **The guess is published at once**, as the next event. -/
theorem exitBefore_publishes (h : session.Sound events) (hdrained : session.Drained)
    {exitCode : ℤ} (hcode : response.exitCode = some exitCode) :
    Ends (exitBefore response true) session
      (fun _ session' => ∃ exit, exit.isExited = true ∧
        eventAt session'.events (session.orderedEvents.lastPublishedSeq + 1) = some exit)
      (fun _ => False) := by
  refine ends_bind (ends_get ?_)
  rw [if_pos rfl]
  unfold insertExit exitCodeOf
  rw [hcode]
  let exit : ExecProcessEvent := .exited (session.orderedEvents.lastPublishedSeq + 1) exitCode
    (some response.sandboxDenied)
  obtain ⟨ordered, hok, hlast, hget⟩ := insertPending_next session exit rfl (Nat.zero_le _)
  have hinsert : Ends (insertPending exit) session
      (fun _ session' => session' = { session with orderedEvents := ordered }) (fun _ => False) := by
    unfold Ends
    rw [insertPending_ok hok]
  refine hinsert.bind ?_ fun _ => id
  rintro _ _ rfl
  refine ⟨exit, rfl, ?_⟩
  obtain ⟨more, hmore⟩ := publishReady_publishes { session with orderedEvents := ordered }
    (by rw [hlast]; exact hget hdrained)
  have hlength : session.events.length = session.orderedEvents.lastPublishedSeq := by
    rw [h.published, length_take, Nat.min_eq_left h.last_le]
  show eventAt (SessionState.publishReady _).1.events _ = some exit
  rw [← hmore]
  refine eventAt_append (eventAt_concat.2 (Or.inr ⟨?_, rfl⟩)) more
  rw [hlength]

theorem exitBefore_none {ok : Bool → SessionState → Prop} {failed : SessionState → Prop}
    (h : ok false session) : Ends (exitBefore response false) session ok failed := by
  refine ends_bind (ends_get ?_)
  rw [if_neg Bool.false_ne_true]
  exact ends_pure h

theorem recoverChunk_sound (htells : response.Tells events) {chunk : ProcessOutputChunk}
    (hchunk : chunk ∈ response.chunks) (h : session.Sound events) :
    Ends (recoverChunk chunk) session
      (fun _ session' => session'.Sound events ∧
        session.orderedEvents.lastPublishedSeq ≤ session'.orderedEvents.lastPublishedSeq)
      (fun session' => session' = session) := by
  refine ends_bind (ends_get ?_)
  dsimp only
  split
  · next hlt =>
    refine (insertAndPublish_ends h (htells.chunk_mem chunk hchunk).1 rfl hlt).mono ?_ fun _ => id
    rintro _ session' ⟨hsound, -, hextends⟩
    exact ⟨hsound, hextends.last_le⟩
  · exact ends_pure ⟨h, le_rfl⟩

/-- Without a guess, and after it, what is published are events of the process. -/
theorem recoverChunks_plain (htells : response.Tells events) {targetSeq : ℕ}
    {chunks : List ProcessOutputChunk} (hsub : chunks ⊆ response.chunks) (h : session.Sound events)
    (exitKnown publishedClosed : Bool) (hno : (response.exited && !exitKnown) = false) :
    Ends (recoverChunks response targetSeq chunks exitKnown publishedClosed) session
      (fun _ session' => session'.Sound events ∧
        session.orderedEvents.lastPublishedSeq ≤ session'.orderedEvents.lastPublishedSeq)
      (fun session' => session'.Sound events ∧
        session.orderedEvents.lastPublishedSeq ≤ session'.orderedEvents.lastPublishedSeq) := by
  induction chunks generalizing session exitKnown publishedClosed with
  | nil => exact ends_pure ⟨h, le_rfl⟩
  | cons chunk chunks ih =>
    obtain ⟨hchunk, hrest⟩ := cons_subset.1 hsub
    unfold recoverChunks
    split
    · exact ends_throw ⟨h, le_rfl⟩
    refine ends_bind (ends_get ?_)
    dsimp only
    rw [hno, Bool.false_and, Bool.or_false]
    refine ends_bind (exitBefore_none ?_)
    refine (recoverChunk_sound htells hchunk h).bind ?_ fun _ heq => heq.symm ▸ ⟨h, le_rfl⟩
    rintro _ session₁ ⟨hsound, hle⟩
    exact (ih hrest hsound exitKnown _ hno).mono (fun _ _ hmore => ⟨hmore.1, hle.trans hmore.2⟩)
      fun _ hmore => ⟨hmore.1, hle.trans hmore.2⟩

end Walk

section Loop

variable {process : RunningProcess} {session start : SessionState} {response : ReadResponse}
  {before chunks : List ProcessOutputChunk}

/-- A guess keeps to the events of the process if the next event is no output, or is in the buffer. -/
theorem exitBefore_sound (htells : response.Tells process.events) (h : session.Sound process.events)
    (hplace : session.Drained → ∃ event, event.isExited = true ∧
      eventAt process.events (session.orderedEvents.lastPublishedSeq + 1) = some event) :
    Ends (exitBefore response true) session
      (fun _ session' => session'.Sound process.events ∧
        session.orderedEvents.lastPublishedSeq ≤ session'.orderedEvents.lastPublishedSeq)
      (fun session' => session' = session) := by
  refine ends_bind (ends_get ?_)
  rw [if_pos rfl]
  have hinsert : Ends (insertExit response (session.orderedEvents.lastPublishedSeq + 1)) session
      (fun _ session' => session'.Sound process.events ∧
        session.orderedEvents.lastPublishedSeq ≤ session'.orderedEvents.lastPublishedSeq)
      (fun session' => session' = session) := by
    by_cases hdrained : session.Drained
    · obtain ⟨event, hexited, hevent⟩ := hplace hdrained
      refine (insertExit_ends htells h hevent hexited (Nat.lt_succ_self _)).mono ?_ fun _ => id
      rintro _ session' ⟨hsound, hextends⟩
      exact ⟨hsound, hextends.last_le⟩
    · refine ends_bind (ends_ofExcept (fun exitCode _ => ?_) fun _ _ => rfl)
      have hok : session.orderedEvents.insertPending
          (.exited (session.orderedEvents.lastPublishedSeq + 1) exitCode
            (some response.sandboxDenied)) = .ok session.orderedEvents := by
        unfold OrderedSessionEvents.insertPending
        exact if_pos (Option.isSome_iff_ne_none.2 hdrained)
      unfold Ends
      rw [insertPending_ok hok]
      exact ⟨h, le_rfl⟩
  refine hinsert.bind ?_ fun _ => id
  rintro _ session₁ ⟨hsound, hle⟩
  refine (publishReady_ends hsound).mono ?_ fun _ => id
  rintro _ session₂ ⟨hsound', -, hextends⟩
  exact ⟨hsound', hle.trans hextends.last_le⟩

/-- The number of a gap that the loop takes for the exit is the first that is missing. -/
theorem Walked.firstMissing (h : Walked process.events start before session)
    (htells : response.Tells process.events) {chunk : ProcessOutputChunk}
    (hsplit : response.chunks = before ++ chunk :: chunks) (hdrained : session.Drained)
    (hgap : session.orderedEvents.lastPublishedSeq + 1 < chunk.seq) :
    FirstMissing start response (session.orderedEvents.lastPublishedSeq + 1) :=
  firstMissing_of_gap htells hsplit h.extends_before hdrained hgap

/-- **The chunks, where no lost output is taken for the exit.** -/
theorem recoverChunks_sound (hprocess : process.Sound) (htells : response.Tells process.events)
    (hfits : ∀ chunk ∈ response.chunks, chunk.chunk.length ≤ maxPendingProcessEventBytes)
    (hexited : response.exited = true)
    (hplace : start.Drained ∨ start.orderedEvents.lastPublishedSeq + 1 ∈
        response.chunks.map ProcessOutputChunk.seq → ∀ seq, FirstMissing start response seq →
      (∃ chunk ∈ response.chunks, seq < chunk.seq) →
        ∀ chunk, eventAt process.events seq ≠ some (.output chunk))
    (hsplit : response.chunks = before ++ chunks) (h : Walked process.events start before session)
    (publishedClosed : Bool) :
    Ends (recoverChunks response (response.nextSeq - 1) chunks false publishedClosed) session
      (fun _ session' => session'.Sound process.events ∧
        start.orderedEvents.lastPublishedSeq ≤ session'.orderedEvents.lastPublishedSeq)
      (fun session' => session'.Sound process.events ∧
        start.orderedEvents.lastPublishedSeq ≤ session'.orderedEvents.lastPublishedSeq) := by
  induction chunks generalizing session before publishedClosed with
  | nil => exact ends_pure ⟨h.sound, h.extends_before.last_le⟩
  | cons chunk chunks ih =>
    have hchunk : chunk ∈ response.chunks := by
      rw [hsplit]
      exact mem_append_right _ mem_cons_self
    have hmem := htells.chunk_mem chunk hchunk
    have hstart := h.extends_before.last_le
    unfold recoverChunks
    split
    · exact ends_throw ⟨h.sound, hstart⟩
    refine ends_bind (ends_get ?_)
    dsimp only
    rw [hexited, Bool.not_false, Bool.true_and, Bool.true_and, Bool.false_or]
    by_cases hgap : session.orderedEvents.lastPublishedSeq + 1 < chunk.seq
    · rw [decide_eq_true hgap]
      have hguess := exitBefore_sound htells h.sound fun hdrained => by
        have hmissing := h.firstMissing htells hsplit hdrained hgap
        have hready := (h.ready_at_gap htells hsplit hgap).1 hdrained
        have hnot := hplace hready _ hmissing ⟨chunk, hchunk, hgap⟩
        obtain ⟨event, hevent⟩ : ∃ event,
            eventAt process.events (session.orderedEvents.lastPublishedSeq + 1) = some event := by
          have hle := (eventAt_pos hmem.1).2
          exact ⟨_, getElem?_eq_getElem (by omega)⟩
        refine ⟨event, ?_, hevent⟩
        cases event with
        | output lost => exact absurd hevent (hnot lost)
        | exited seq code denied => rfl
        | closed seq =>
          have hlast := (hprocess.closed_last hevent rfl).1
          have hle := (eventAt_pos hmem.1).2
          omega
        | failed message => cases hprocess.seq_eq hevent
      refine hguess.bind ?_ fun _ heq => heq ▸ ⟨h.sound, hstart⟩
      rintro _ session₁ ⟨hsound₁, hle₁⟩
      refine (recoverChunk_sound htells hchunk hsound₁).bind ?_
        fun _ heq => heq.symm ▸ ⟨hsound₁, hstart.trans hle₁⟩
      rintro _ session₂ ⟨hsound₂, hle₂⟩
      have hsub : chunks ⊆ response.chunks := by
        intro c hc
        rw [hsplit]
        exact mem_append_right _ (mem_cons_of_mem chunk hc)
      have hle := hstart.trans (hle₁.trans hle₂)
      refine (recoverChunks_plain htells hsub hsound₂ true _ ?_).mono ?_ ?_
      · rw [Bool.not_true, Bool.and_false]
      · exact fun _ _ hmore => ⟨hmore.1, hle.trans hmore.2⟩
      · exact fun _ hmore => ⟨hmore.1, hle.trans hmore.2⟩
    · rw [decide_eq_false hgap]
      refine ends_bind (exitBefore_none ?_)
      refine (h.chunk hmem.1 (hfits chunk hchunk) (Nat.le_of_not_lt hgap)).bind ?_ fun _ => False.elim
      rintro _ session₁ hwalked
      exact ih (by rw [hsplit, List.append_assoc]; rfl) hwalked _

/-- **The chunks, where lost output is taken for the exit.** -/
theorem recoverChunks_misplaces (htells : response.Tells process.events)
    (hfits : ∀ chunk ∈ response.chunks, chunk.chunk.length ≤ maxPendingProcessEventBytes)
    {exitCode : ℤ} (hcode : response.exitCode = some exitCode)
    (hready : start.Drained ∨ start.orderedEvents.lastPublishedSeq + 1 ∈
      response.chunks.map ProcessOutputChunk.seq)
    {seq : ℕ} (hmissing : FirstMissing start response seq)
    (hbefore : ∃ chunk ∈ response.chunks, seq < chunk.seq) {lost : ProcessOutputChunk}
    (hlost : eventAt process.events seq = some (.output lost))
    (hsplit : response.chunks = before ++ chunks) (h : Walked process.events start before session)
    (publishedClosed : Bool) :
    Ends (recoverChunks response (response.nextSeq - 1) chunks false publishedClosed) session
      (fun _ session' => Misplaced process.events session')
      (fun session' => Misplaced process.events session') := by
  induction chunks generalizing session before publishedClosed with
  | nil =>
    -- a chunk past the gap would have made the guess
    rw [append_nil] at hsplit
    obtain ⟨chunk, hchunk, hlt⟩ := hbefore
    have hle := h.passed chunk (hsplit ▸ hchunk)
    obtain ⟨hgt, hnone, hnot, -⟩ := hmissing
    rcases h.extends_before.known seq hgt (by omega) with hpending | hmem
    · exact absurd hnone hpending
    · exact absurd (hsplit ▸ hmem) hnot
  | cons chunk chunks ih =>
    have hchunk : chunk ∈ response.chunks := by
      rw [hsplit]
      exact mem_append_right _ mem_cons_self
    have hmem := htells.chunk_mem chunk hchunk
    unfold recoverChunks
    rw [if_neg (by omega)]
    refine ends_bind (ends_get ?_)
    dsimp only
    rw [htells.exited_eq, hcode, Option.isSome_some, Bool.not_false, Bool.true_and, Bool.true_and,
      Bool.false_or]
    by_cases hgap : session.orderedEvents.lastPublishedSeq + 1 < chunk.seq
    · rw [decide_eq_true hgap]
      have hdrained := (h.ready_at_gap htells hsplit hgap).2 hready
      have hseq := (h.firstMissing htells hsplit hdrained hgap).unique hmissing
      refine (exitBefore_publishes h.sound hdrained hcode).bind ?_ fun _ => False.elim
      rintro _ session₁ ⟨exit, hexited, hexit⟩
      have hmisplaced : Misplaced process.events session₁ :=
        ⟨seq, exit, lost, hseq ▸ hexit, hexited, hlost⟩
      refine (recoverChunk_grows session₁ chunk).bind ?_ fun _ => hmisplaced.grows
      rintro _ session₂ hgrows
      exact (recoverChunks_grows session₂ response _ chunks _ _).mono
        (fun _ _ => (hmisplaced.grows hgrows).grows) fun _ => (hmisplaced.grows hgrows).grows
    · rw [decide_eq_false hgap]
      refine ends_bind (exitBefore_none ?_)
      refine (h.chunk hmem.1 (hfits chunk hchunk) (Nat.le_of_not_lt hgap)).bind ?_ fun _ => False.elim
      rintro _ session₁ hwalked
      exact ih (by rw [hsplit, List.append_assoc]; rfl) hwalked _

end Loop

/-! ## A call that fails -/

section Failed

variable {process : RunningProcess} {session : SessionState} {response : ReadResponse}

/-- The loop starts from the session with the verdict of the answer in its buffer. -/
theorem walked_nil {events : List ExecProcessEvent} (h : session.Sound events) :
    Walked events session [] session where
  sound := h
  extends_before := (SessionState.Extends.refl session).congr fun _ => by simp
  passed := nofun
  ready := Or.inl rfl

theorem firstMissing_congr {session session' : SessionState}
    (hlast : session'.orderedEvents.lastPublishedSeq = session.orderedEvents.lastPublishedSeq)
    (hget : ∀ seq, Entries.get? seq session'.orderedEvents.pending =
      Entries.get? seq session.orderedEvents.pending) (seq : ℕ) :
    FirstMissing session' response seq ↔ FirstMissing session response seq := by
  unfold FirstMissing
  simp only [hlast, hget]

/-- A call on a session of which the events are those of the process, by how the loop over the chunks
ends. -/
theorem recoverEvents_fails (htells : response.Tells process.events)
    (h : session.Sound process.events) {Shown : SessionState → Prop}
    (hshown : ∀ {s s' : SessionState}, Shown s → s'.events = s.events → Shown s')
    (hconflict : closeConflicts response session.orderedEvents (response.nextSeq - 1) = true →
      Shown session)
    (hloop : closeConflicts response session.orderedEvents (response.nextSeq - 1) = false →
      ∀ start : SessionState, start.Sound process.events →
        start.orderedEvents.lastPublishedSeq = session.orderedEvents.lastPublishedSeq →
        (start.Drained ↔ session.Drained) →
        (∀ seq, FirstMissing start response seq ↔ FirstMissing session response seq) →
        Ends (recoverChunks response (response.nextSeq - 1) response.chunks
          (exitKnownOf session.orderedEvents (response.nextSeq - 1)) false) start
          (fun _ => Shown) Shown) :
    Ends (recoverEvents response) session (fun _ _ => True) Shown := by
  refine ends_bind (ends_get ?_)
  dsimp only
  rw [htells.failure_eq]
  dsimp only
  split
  · exact ends_pure trivial
  refine ends_bind (ends_modify ?_)
  obtain ⟨pending', hnote, hnodup, hget⟩ := noteSandboxDenied_eq htells h
  rw [hnote]
  obtain ⟨hsound, hdrained, -⟩ := sound_of_pending_eq h hnodup hget rfl
  split
  · next hagrees => exact ends_throw (hshown (hconflict hagrees) rfl)
  · next hagrees =>
    refine (hloop (Bool.eq_false_iff.2 hagrees) _ hsound rfl hdrained
      (firstMissing_congr rfl hget)).bind ?_ fun _ => id
    rintro ⟨exitKnown, publishedClosed⟩ session₁ hend
    exact (recoverEnd_shows session₁ response _ exitKnown (publishedClosed || ·)).mono
      (fun _ _ => id) fun _ heq => hshown hend heq

/-- What has been published are the first events of the process, and no fewer than before. -/
def InOrder (events : List ExecProcessEvent) (count : ℕ) (session : SessionState) : Prop :=
  ∃ count', count ≤ count' ∧ count' ≤ events.length ∧ session.events = events.take count'

theorem recoverEvents_inOrder (hprocess : process.Sound) (htells : response.Tells process.events)
    (hfits : ∀ chunk ∈ response.chunks, chunk.chunk.length ≤ maxPendingProcessEventBytes)
    (h : session.Sound process.events)
    (hplace : ¬ GuessesLostOutput process.events session response) :
    Ends (recoverEvents response) session (fun _ _ => True)
      (InOrder process.events session.orderedEvents.lastPublishedSeq) := by
  refine recoverEvents_fails htells h ?_ ?_ ?_
  · rintro s s' ⟨count, hge, hle, htake⟩ heq
    exact ⟨count, hge, hle, heq.trans htake⟩
  · exact fun _ => ⟨_, le_rfl, h.last_le, h.published⟩
  · intro hagrees start hsound hlast hdrained hmissing
    have hend : ∀ {session' : SessionState}, session'.Sound process.events ∧
        start.orderedEvents.lastPublishedSeq ≤ session'.orderedEvents.lastPublishedSeq →
        InOrder process.events session.orderedEvents.lastPublishedSeq session' :=
      fun h' => ⟨_, hlast ▸ h'.2, h'.1.last_le, h'.1.published⟩
    by_cases hguess : (response.exited &&
        !exitKnownOf session.orderedEvents (response.nextSeq - 1)) = true
    · rw [Bool.and_eq_true, Bool.not_eq_true'] at hguess
      rw [hguess.2]
      refine (recoverChunks_sound hprocess htells hfits hguess.1 ?_ (nil_append _).symm
        (walked_nil hsound) false).mono (fun _ _ => hend) fun _ => hend
      intro hready seq hfirst hbefore chunk hlost
      rw [hdrained, hlast] at hready
      exact hplace ⟨hagrees, hguess.1, hguess.2, hready, seq, (hmissing seq).1 hfirst, hbefore,
        chunk, hlost⟩
    · exact (recoverChunks_plain htells (List.Subset.refl _) hsound _ false
        (Bool.eq_false_iff.2 hguess)).mono (fun _ _ => hend) fun _ => hend

theorem recoverEvents_misplaces (htells : response.Tells process.events)
    (hfits : ∀ chunk ∈ response.chunks, chunk.chunk.length ≤ maxPendingProcessEventBytes)
    (h : session.Sound process.events)
    (hguesses : GuessesLostOutput process.events session response) :
    Ends (recoverEvents response) session (fun _ _ => True) (Misplaced process.events) := by
  obtain ⟨hagrees, hexited, hunknown, hready, seq, hfirst, hbefore, lost, hlost⟩ := hguesses
  obtain ⟨exitCode, hcode⟩ := Option.isSome_iff_exists.1 (htells.exited_eq.symm.trans hexited)
  refine recoverEvents_fails htells h ?_ ?_ ?_
  · exact fun hmisplaced heq => hmisplaced.grows (heq ▸ prefix_rfl)
  · exact fun hconflict => absurd (hconflict.symm.trans hagrees) nofun
  · intro _ start hsound hlast hdrained hmissing
    rw [hunknown]
    rw [← hdrained, ← hlast] at hready
    exact recoverChunks_misplaces htells hfits hcode hready ((hmissing seq).2 hfirst) hbefore hlost
      (nil_append _).symm (walked_nil hsound) false

/-- **What a call that fails has published.** The server has answered a read, of any position and with
any limit, and may have gone on; the session has published the first events of the process and buffered
later ones. If the recovery fails, the session has still published the first events of the process,
and no fewer, exactly when it has not taken lost output for the exit. -/
theorem recoverEvents_error_iff {tty sandboxed : Bool} {acts more : List ProcessAction}
    {server later : RunningProcess} {session session' : SessionState} {afterSeq : ℕ}
    {maxBytes : Option ℕ} {message : Str}
    (hserver : Machine.run RunningProcess.step (RunningProcess.start tty sandboxed) acts = some server)
    (hlater : Machine.run RunningProcess.step server more = some later)
    (hsession : session.Sound later.events)
    (herror : recoverEvents (execRead server afterSeq maxBytes) session = .error message session') :
    InOrder later.events session.orderedEvents.lastPublishedSeq session' ↔
      ¬ GuessesLostOutput later.events session (execRead server afterSeq maxBytes) := by
  obtain ⟨hsteady, -⟩ := (RunningProcess.steady_start tty sandboxed).run hserver
  obtain ⟨hsteady', hmore⟩ := hsteady.run hlater
  have htells := execRead_tells hsteady hsteady' hmore afterSeq maxBytes
  have hfits : ∀ chunk ∈ (execRead server afterSeq maxBytes).chunks,
      chunk.chunk.length ≤ maxPendingProcessEventBytes :=
    fun _ hmem => execRead_fits hsteady afterSeq maxBytes hmem
  constructor
  · rintro ⟨count, -, -, htake⟩ hguesses
    exact ((recoverEvents_misplaces htells hfits hsession hguesses).of_error herror).not_take count
      htake
  · exact fun hplace =>
      (recoverEvents_inOrder hsteady'.1 htells hfits hsession hplace).of_error herror

/-- An answer without chunks leaves two events open: the call fails and has published nothing. -/
theorem recoverEvents_error_iff_behind :
    ∃ server, Machine.run RunningProcess.step (RunningProcess.start false false)
        [.output .stdout [97], .exit 0 false] = some server ∧
      recoverEvents (execRead server 1 none) {} = .error (recoveryGapError 2) {} ∧
      InOrder server.events 0 {} := by
  obtain ⟨server, hserver, hread⟩ : ∃ server,
      Machine.run RunningProcess.step (RunningProcess.start false false)
        [.output .stdout [97], .exit 0 false] = some server ∧
      execRead server 1 none = ⟨[], 3, true, some 0, false, none, false⟩ := ⟨_, rfl, rfl⟩
  have hlater : Machine.run RunningProcess.step server [] = some server := rfl
  have herror : recoverEvents (execRead server 1 none) {} = .error (recoveryGapError 2) {} := by
    rw [hread]
    rfl
  have hsound := SessionState.sound_empty server.events
  refine ⟨server, hserver, herror,
    (recoverEvents_error_iff hserver hlater hsound herror).2 fun hguesses => ?_⟩
  obtain ⟨-, -, ⟨chunk, hmem, -⟩, -⟩ := hguesses.lost
  rw [hread] at hmem
  cases hmem

/-- The call fails, and has published the exit as the first event, which was output. -/
theorem failed_recovery_shows_exit :
    ∃ server session', Machine.run RunningProcess.step (RunningProcess.start false false)
        (replicate 129 (.output .stdout (replicate 8192 0)) ++ [.exit 0 false]) = some server ∧
      SessionState.Sound server.events {} ∧
      recoverEvents (execRead server 0 none) {} = .error (recoveryGapError 130) session' ∧
      session'.events = .exited 1 0 (some false) ::
        (Recovery.chunksFrom (replicate 8192 0) 2 128).map .output ∧
      (∃ chunk, eventAt server.events 1 = some (.output chunk)) ∧
      ∀ count, session'.events ≠ server.events.take count := by
  have hblock : (replicate 8192 (0 : UInt8)).length = 8192 := length_replicate
  generalize replicate 8192 (0 : UInt8) = block at *
  have hlost : eventAt ((Recovery.writing block 129).watchExit 0 false).events 1 =
      some (.output ⟨1, .stdout, block⟩) := rfl
  refine ⟨_, Recovery.exitFirst block, Recovery.run_evicting hblock, SessionState.sound_empty _,
    ?_, rfl, ⟨_, hlost⟩, Misplaced.not_take ⟨1, _, _, rfl, rfl, hlost⟩⟩
  rw [Recovery.execRead_evicting hblock, Recovery.recoverEvents_evictedSnapshot hblock]

end Failed

end Codex.ExecServer
