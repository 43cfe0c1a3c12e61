import Codex.Base.EState
import Codex.Base.Table
import Codex.ExecServer.ProcessEvents
import Codex.Text.Utf
import Mathlib.Data.List.Sort
import Mathlib.Order.Interval.Finset.Nat

/-!
# Events in order

`SessionState` and `OrderedSessionEvents` (`exec-server/src/client.rs`): a session keeps
the events that come early until all before them have been published. After a connection
was lost, `recover_events` (`client_recovery.rs`) fills the gaps from the answer to a read.
The answer has the retained chunks and not the place of the exit, so that the place is
inferred from a hole.
-/

namespace Codex.ExecServer

open List Codex.Text Entries

def maxPendingProcessEvents : ℕ := 256

def maxPendingProcessEventBytes : ℕ := 1024 * 1024

structure OrderedSessionEvents where
  lastPublishedSeq : ℕ := 0
  exitPublished : Bool := false
  closedPublished : Bool := false
  pending : List (ℕ × ExecProcessEvent) := []
  pendingBytes : ℕ := 0
  failure : Option Str := none
  deriving DecidableEq

/-- A session, with all the events it has published. -/
structure SessionState where
  orderedEvents : OrderedSessionEvents := {}
  events : List ExecProcessEvent := []
  deriving DecidableEq

def pendingProcessEventBytes : ExecProcessEvent → ℕ
  | .output chunk => chunk.chunk.length
  | .failed message => (asBytes message).length
  | .exited .. | .closed _ => 0

/-- The entries of a map in the order of their keys. -/
def inOrder (entries : List (ℕ × ExecProcessEvent)) : List (ℕ × ExecProcessEvent) :=
  entries.insertionSort fun entry entry' => entry.1 ≤ entry'.1

/-- `pending.range(first..=last)`. -/
def range (first last : ℕ) (entries : List (ℕ × ExecProcessEvent)) : List (ℕ × ExecProcessEvent) :=
  (inOrder entries).filter fun entry => first ≤ entry.1 && entry.1 ≤ last

namespace OrderedSessionEvents

def insertPending (ordered : OrderedSessionEvents) (event : ExecProcessEvent) :
    Except Str OrderedSessionEvents :=
  match event.seq with
  | none => .error "cannot reorder an unsequenced process event".toList
  | some seq =>
    if (get? seq ordered.pending).isSome then .ok ordered
    else
      let closesGap := seq = ordered.lastPublishedSeq + 1
      let eventBytes := pendingProcessEventBytes event
      let pendingBytes := ordered.pendingBytes + eventBytes
      if ¬ closesGap ∧ maxPendingProcessEvents ≤ ordered.pending.length then
        .error "process event reorder buffer exceeds 256 entries".toList
      else if maxPendingProcessEventBytes < eventBytes then
        .error "process event exceeds 1048576 bytes".toList
      else if ¬ closesGap ∧ maxPendingProcessEventBytes < pendingBytes then
        .error "process event reorder buffer exceeds 1048576 bytes".toList
      else
        .ok { ordered with
              pending := Entries.insert seq event ordered.pending
              pendingBytes := pendingBytes }

end OrderedSessionEvents

namespace SessionState

/-- One turn of the loop of `publish_ready`. -/
def publishNext (session : SessionState) (event : ExecProcessEvent) : SessionState where
  orderedEvents :=
    let ordered := session.orderedEvents
    { ordered with
      pending := Entries.remove (ordered.lastPublishedSeq + 1) ordered.pending
      pendingBytes := ordered.pendingBytes - pendingProcessEventBytes event
      lastPublishedSeq := ordered.lastPublishedSeq + 1
      exitPublished := ordered.exitPublished || event.isExited
      closedPublished := ordered.closedPublished || event.isClosed }
  events := session.events ++ [event]

def publishLoop : (turns : ℕ) → SessionState → (publishedClosed : Bool) → SessionState × Bool
  | 0, session, publishedClosed => (session, publishedClosed)
  | turns + 1, session, publishedClosed =>
    let nextSeq := session.orderedEvents.lastPublishedSeq + 1
    match get? nextSeq session.orderedEvents.pending with
    | none => (session, publishedClosed)
    | some event => publishLoop turns (session.publishNext event) (publishedClosed || event.isClosed)

/-- Every turn takes an event out of the buffer, so there are no more turns than events. -/
def publishReady (session : SessionState) : SessionState × Bool :=
  session.publishLoop session.orderedEvents.pending.length false

end SessionState

/-- A call on a session: what it has done stays when it fails. -/
abbrev SessionM := EStateM Str SessionState

def insertPending (event : ExecProcessEvent) : SessionM Unit := do
  let session ← get
  let ordered ← ofExcept (session.orderedEvents.insertPending event)
  modify fun session => { session with orderedEvents := ordered }

theorem insertPending_ok {session : SessionState} {event : ExecProcessEvent}
    {ordered : OrderedSessionEvents}
    (h : session.orderedEvents.insertPending event = .ok ordered) :
    insertPending event session = .ok () { session with orderedEvents := ordered } := by
  show EStateM.bind (ofExcept (session.orderedEvents.insertPending event)) _ session = _
  rw [h]
  rfl

def publishReady : SessionM Bool := do
  let session ← get
  modify fun _ => session.publishReady.1
  return session.publishReady.2

def insertAndPublish (event : ExecProcessEvent) : SessionM Bool := do
  insertPending event
  publishReady

def publishOrderedEvent (event : ExecProcessEvent) : SessionM Bool := do
  let session ← get
  match event.seq with
  | none =>
    modify fun session => { session with events := session.events ++ [event] }
    return false
  | some seq =>
    let ordered := session.orderedEvents
    if ordered.failure.isSome || ordered.closedPublished || decide (seq ≤ ordered.lastPublishedSeq)
    then return false
    else insertAndPublish event

def SessionState.setFailure (session : SessionState) (message : Str) : SessionState :=
  let ordered := session.orderedEvents
  if ordered.failure.isSome || ordered.closedPublished then session
  else
    { orderedEvents :=
        { ordered with failure := some message, pending := [], pendingBytes := 0 }
      events := session.events ++ [.failed message] }

/-! ## Recovery -/

/-- The buffered exit, in the order of the buffer. -/
def pendingExit (ordered : OrderedSessionEvents) (targetSeq : ℕ) : Option (ℕ × ExecProcessEvent) :=
  (range 0 targetSeq ordered.pending).find? fun entry => entry.2.isExited

/-- The verdict of an answer is added to the buffered exit. -/
def noteSandboxDenied (ordered : OrderedSessionEvents) (targetSeq : ℕ) (sandboxDenied : Bool) :
    OrderedSessionEvents :=
  match pendingExit ordered targetSeq with
  | some (key, .exited seq exitCode pendingDenied) =>
    { ordered with
      pending := Entries.insert key
        (.exited seq exitCode (some (pendingDenied.getD false || sandboxDenied))) ordered.pending }
  | _ => ordered

def firstMissing (expected : ℕ) : List ℕ → ℕ
  | [] => expected
  | seq :: seqs => if seq ≠ expected then expected else firstMissing (expected + 1) seqs

def firstMissingSeq (ordered : OrderedSessionEvents) (targetSeq : ℕ) : ℕ :=
  let expected := ordered.lastPublishedSeq + 1
  firstMissing expected ((range expected targetSeq ordered.pending).map Prod.fst)

def missingCount (ordered : OrderedSessionEvents) (targetSeq : ℕ) : ℕ :=
  let firstUnpublishedSeq := ordered.lastPublishedSeq + 1
  let retainedCount :=
    if firstUnpublishedSeq ≤ targetSeq then
      (range firstUnpublishedSeq targetSeq ordered.pending).length
    else 0
  targetSeq - ordered.lastPublishedSeq - retainedCount

def recoveryGapError (targetSeq : ℕ) : Str :=
  "process events are no longer retained while recovering through sequence ".toList ++
    (toString targetSeq).toList

def exitCodeOf (response : ReadResponse) : Except Str ℤ :=
  match response.exitCode with
  | some exitCode => .ok exitCode
  | none => .error "recovering exited process did not include its exit code".toList

def insertExit (response : ReadResponse) (seq : ℕ) : SessionM Unit := do
  let exitCode ← ofExcept (exitCodeOf response)
  insertPending (.exited seq exitCode (some response.sandboxDenied))

def exitBefore (response : ReadResponse) (infersExit : Bool) : SessionM Bool := do
  let nextSeq := (← get).orderedEvents.lastPublishedSeq + 1
  if infersExit then do
    insertExit response nextSeq
    publishReady
  else pure false

def recoverChunk (chunk : ProcessOutputChunk) : SessionM Bool := do
  let last := (← get).orderedEvents.lastPublishedSeq
  if last < chunk.seq then insertAndPublish (.output chunk) else pure false

/-- The chunks of an answer. A chunk past the next event puts the exit in the gap before it. -/
def recoverChunks (response : ReadResponse) (targetSeq : ℕ) :
    List ProcessOutputChunk → (exitKnown publishedClosed : Bool) → SessionM (Bool × Bool)
  | [], exitKnown, publishedClosed => return (exitKnown, publishedClosed)
  | chunk :: chunks, exitKnown, publishedClosed =>
    if targetSeq < chunk.seq then
      throw ("recovered process output sequence ".toList ++ (toString chunk.seq).toList ++
        " exceeds target sequence ".toList ++ (toString targetSeq).toList)
    else do
      let nextSeq := (← get).orderedEvents.lastPublishedSeq + 1
      let infersExit := response.exited && !exitKnown && decide (nextSeq < chunk.seq)
      let closedByExit ← exitBefore response infersExit
      let closedByChunk ← recoverChunk chunk
      recoverChunks response targetSeq chunks (exitKnown || infersExit)
        (publishedClosed || closedByExit || closedByChunk)

def recoverClose (response : ReadResponse) (targetSeq : ℕ) : SessionM Unit := do
  let ordered := (← get).orderedEvents
  let closedPending := (get? targetSeq ordered.pending).any ExecProcessEvent.isClosed
  if response.closed && !ordered.closedPublished && !closedPending then
    insertPending (.closed targetSeq)
  else pure ()

/-- Once the chunks and the close are in the buffer, one event may be missing if it is the exit. -/
def recoverExit (response : ReadResponse) (targetSeq : ℕ) (exitKnown : Bool) : SessionM Unit := do
  let ordered := (← get).orderedEvents
  if response.exited && !exitKnown then
    if missingCount ordered targetSeq ≠ 1 then throw (recoveryGapError targetSeq)
    else insertExit response (firstMissingSeq ordered targetSeq)
  else if missingCount ordered targetSeq ≠ 0 then throw (recoveryGapError targetSeq)
  else pure ()

def exitKnownOf (ordered : OrderedSessionEvents) (targetSeq : ℕ) : Bool :=
  ordered.exitPublished || (pendingExit ordered targetSeq).isSome

/-- The close of an answer stands where something else is. -/
def closeConflicts (response : ReadResponse) (ordered : OrderedSessionEvents) (targetSeq : ℕ) :
    Bool :=
  response.closed &&
    ((get? targetSeq ordered.pending).any (fun event => !event.isClosed) ||
      response.chunks.any fun chunk => chunk.seq == targetSeq)

def recoverEvents (response : ReadResponse) : SessionM Bool := do
  let ordered := (← get).orderedEvents
  let targetSeq := response.nextSeq - 1
  match response.failure with
  | some message => throw ("process failed while recovering: ".toList ++ message)
  | none =>
    if ordered.failure.isSome || ordered.closedPublished ||
        decide (targetSeq ≤ ordered.lastPublishedSeq) then
      return false
    else do
      modify fun session =>
        { session with orderedEvents := noteSandboxDenied ordered targetSeq response.sandboxDenied }
      if closeConflicts response ordered targetSeq then
        throw ("process close sequence ".toList ++ (toString targetSeq).toList ++
          " conflicts with recovered output".toList)
      else do
        let (exitKnown, publishedClosed) ←
          recoverChunks response targetSeq response.chunks (exitKnownOf ordered targetSeq) false
        recoverClose response targetSeq
        recoverExit response targetSeq exitKnown
        let closedAtEnd ← publishReady
        return publishedClosed || closedAtEnd

/-! ## What a session has published -/

/-- The event is among the first `count`. -/
def Among (events : List ExecProcessEvent) (count : ℕ) (test : ExecProcessEvent → Bool) : Prop :=
  ∃ seq ≤ count, ∃ event, eventAt events seq = some event ∧ test event = true

/-- The session has published the first events of the process, and what it has buffered are later
events of the process under their own numbers. -/
structure SessionState.Sound (events : List ExecProcessEvent) (session : SessionState) : Prop where
  published : session.events = events.take session.orderedEvents.lastPublishedSeq
  last_le : session.orderedEvents.lastPublishedSeq ≤ events.length
  pending_mem : ∀ {seq event}, get? seq session.orderedEvents.pending = some event →
    session.orderedEvents.lastPublishedSeq < seq ∧ eventAt events seq = some event
  nodup : (session.orderedEvents.pending.map Prod.fst).Nodup
  exit_eq : session.orderedEvents.exitPublished = true ↔
    Among events session.orderedEvents.lastPublishedSeq ExecProcessEvent.isExited
  closed_eq : session.orderedEvents.closedPublished = true ↔
    Among events session.orderedEvents.lastPublishedSeq ExecProcessEvent.isClosed

theorem SessionState.sound_empty (events : List ExecProcessEvent) : SessionState.Sound events {} := by
  have hnone : ∀ test, ¬ Among events 0 test := by
    rintro test ⟨seq, hle, event, hevent, -⟩
    have hpos := (eventAt_pos hevent).1
    omega
  exact ⟨rfl, Nat.zero_le _, nofun, nodup_nil, ⟨nofun, fun h => absurd h (hnone _)⟩,
    ⟨nofun, fun h => absurd h (hnone _)⟩⟩

/-- The next event is not in the buffer. -/
def SessionState.Drained (session : SessionState) : Prop :=
  get? (session.orderedEvents.lastPublishedSeq + 1) session.orderedEvents.pending = none

theorem among_succ {events : List ExecProcessEvent} {count : ℕ} {test : ExecProcessEvent → Bool}
    {event : ExecProcessEvent} (h : eventAt events (count + 1) = some event) :
    Among events (count + 1) test ↔ Among events count test ∨ test event = true := by
  constructor
  · rintro ⟨seq, hle, event', hevent', htest⟩
    by_cases hseq : seq = count + 1
    · subst hseq
      rw [h] at hevent'
      cases hevent'
      exact Or.inr htest
    · exact Or.inl ⟨seq, by omega, event', hevent', htest⟩
  · rintro (⟨seq, hle, event', hevent', htest⟩ | htest)
    · exact ⟨seq, by omega, event', hevent', htest⟩
    · exact ⟨count + 1, le_rfl, event, h, htest⟩

theorem SessionState.Sound.publishNext {events : List ExecProcessEvent} {session : SessionState}
    (h : session.Sound events) {event : ExecProcessEvent}
    (hget : get? (session.orderedEvents.lastPublishedSeq + 1)
      session.orderedEvents.pending = some event) : (session.publishNext event).Sound events := by
  obtain ⟨-, hevent⟩ := h.pending_mem hget
  have hat : events[session.orderedEvents.lastPublishedSeq]? = some event := hevent
  constructor
  · show session.events ++ [event] = events.take (session.orderedEvents.lastPublishedSeq + 1)
    rw [h.published, take_add_one, hat]
    rfl
  · exact (eventAt_pos hevent).2
  · intro seq event' hget'
    have hne : seq ≠ session.orderedEvents.lastPublishedSeq + 1 := by
      rintro rfl
      simp [SessionState.publishNext] at hget'
    have hold : get? seq session.orderedEvents.pending = some event' := by
      simpa [SessionState.publishNext, hne] using hget'
    obtain ⟨hlt, hevent'⟩ := h.pending_mem hold
    refine ⟨?_, hevent'⟩
    show session.orderedEvents.lastPublishedSeq + 1 < seq
    omega
  · exact keys_remove_nodup h.nodup
  · show (session.orderedEvents.exitPublished || event.isExited) = true ↔ _
    rw [Bool.or_eq_true, h.exit_eq]
    exact (among_succ hevent).symm
  · show (session.orderedEvents.closedPublished || event.isClosed) = true ↔ _
    rw [Bool.or_eq_true, h.closed_eq]
    exact (among_succ hevent).symm

/-- What publishing does to a session: it goes on through the buffer to the next gap. -/
structure SessionState.Publishes (session session' : SessionState) : Prop where
  last_le : session.orderedEvents.lastPublishedSeq ≤ session'.orderedEvents.lastPublishedSeq
  known : ∀ seq, session.orderedEvents.lastPublishedSeq < seq →
    seq ≤ session'.orderedEvents.lastPublishedSeq →
    get? seq session.orderedEvents.pending ≠ none
  pending_eq : ∀ seq, session'.orderedEvents.lastPublishedSeq < seq →
    get? seq session'.orderedEvents.pending = get? seq session.orderedEvents.pending
  failure_eq : session'.orderedEvents.failure = session.orderedEvents.failure

theorem SessionState.Publishes.refl (session : SessionState) : session.Publishes session :=
  ⟨le_rfl, fun _ hlt hle => absurd hlt (Nat.not_lt.2 hle), fun _ _ => rfl, rfl⟩

theorem publishLoop_spec {events : List ExecProcessEvent} {session : SessionState}
    (h : session.Sound events) (turns : ℕ) (publishedClosed : Bool)
    (hturns : session.orderedEvents.pending.length ≤ turns) :
    (session.publishLoop turns publishedClosed).1.Sound events ∧
      (session.publishLoop turns publishedClosed).1.Drained ∧
      session.Publishes (session.publishLoop turns publishedClosed).1 := by
  induction turns generalizing session publishedClosed with
  | zero =>
    have hnil : session.orderedEvents.pending = [] := length_eq_zero_iff.1 (by omega)
    refine ⟨h, ?_, SessionState.Publishes.refl session⟩
    show get? _ session.orderedEvents.pending = none
    rw [hnil]
    rfl
  | succ turns ih =>
    unfold SessionState.publishLoop
    dsimp only
    split
    · next hnone =>
      exact ⟨h, hnone, SessionState.Publishes.refl session⟩
    · next event hget =>
      have hlength := length_remove_of_some h.nodup hget
      obtain ⟨hsound, hdrained, hpublishes⟩ := ih (h.publishNext hget)
        (publishedClosed || event.isClosed) (by show (Entries.remove _ _).length ≤ turns; omega)
      refine ⟨hsound, hdrained, ⟨?_, ?_, ?_, hpublishes.failure_eq⟩⟩
      · exact Nat.le_of_succ_le hpublishes.last_le
      · intro seq hlt hle
        by_cases hseq : seq = session.orderedEvents.lastPublishedSeq + 1
        · rw [hseq, hget]
          exact nofun
        · have hknown := hpublishes.known seq
            (by show session.orderedEvents.lastPublishedSeq + 1 < seq; omega) hle
          simpa [SessionState.publishNext, hseq] using hknown
      · intro seq hlt
        have hle := hpublishes.last_le
        have hseq : seq ≠ session.orderedEvents.lastPublishedSeq + 1 := by
          have : session.orderedEvents.lastPublishedSeq + 1 ≤ _ := hle
          omega
        rw [hpublishes.pending_eq seq hlt]
        simp [SessionState.publishNext, hseq]

theorem publishReady_spec {events : List ExecProcessEvent} {session : SessionState}
    (h : session.Sound events) : session.publishReady.1.Sound events ∧
      session.publishReady.1.Drained ∧ session.Publishes session.publishReady.1 :=
  publishLoop_spec h _ false le_rfl

/-! ## Adding events -/

/-- The session has gone on with events numbered in `added`: what it has published since, and what
it has buffered, was buffered before or is one of these. -/
structure SessionState.Extends (added : ℕ → Prop) (session session' : SessionState) : Prop where
  last_le : session.orderedEvents.lastPublishedSeq ≤ session'.orderedEvents.lastPublishedSeq
  known : ∀ seq, session.orderedEvents.lastPublishedSeq < seq →
    seq ≤ session'.orderedEvents.lastPublishedSeq →
    get? seq session.orderedEvents.pending ≠ none ∨ added seq
  pending_iff : ∀ seq, session'.orderedEvents.lastPublishedSeq < seq →
    (get? seq session'.orderedEvents.pending ≠ none ↔
      get? seq session.orderedEvents.pending ≠ none ∨ added seq)
  failure_eq : session'.orderedEvents.failure = session.orderedEvents.failure

namespace SessionState.Extends

variable {added more : ℕ → Prop} {session session' session'' : SessionState}

theorem refl (session : SessionState) : session.Extends (fun _ => False) session where
  last_le := le_rfl
  known _ hlt hle := absurd hlt (Nat.not_lt.2 hle)
  pending_iff _ _ := (or_false _).to_iff.symm
  failure_eq := rfl

theorem trans (h : session.Extends added session') (h' : session'.Extends more session'') :
    session.Extends (fun seq => added seq ∨ more seq) session'' where
  last_le := h.last_le.trans h'.last_le
  known seq hlt hle := by
    by_cases hlast : seq ≤ session'.orderedEvents.lastPublishedSeq
    · exact (h.known seq hlt hlast).imp_right Or.inl
    · rcases h'.known seq (by omega) hle with hpending | hmore
      · exact ((h.pending_iff seq (by omega)).1 hpending).imp_right Or.inl
      · exact Or.inr (Or.inr hmore)
  pending_iff seq hlt := by
    have hle := h'.last_le
    rw [h'.pending_iff seq hlt, h.pending_iff seq (by omega), or_assoc]
  failure_eq := h'.failure_eq.trans h.failure_eq

/-- A number that has been passed adds nothing. -/
theorem passed {seq : ℕ} (h : seq ≤ session.orderedEvents.lastPublishedSeq) :
    session.Extends (· = seq) session where
  last_le := le_rfl
  known _ hlt hle := absurd hlt (Nat.not_lt.2 hle)
  pending_iff seq' hlt := by
    have hne : seq' ≠ seq := by omega
    simp [hne]
  failure_eq := rfl

theorem congr (h : session.Extends added session') (heq : ∀ seq, added seq ↔ more seq) :
    session.Extends more session' := by
  have hadded : added = more := funext fun seq => propext (heq seq)
  rwa [← hadded]

end SessionState.Extends

theorem SessionState.Publishes.extends {session session' : SessionState}
    (h : session.Publishes session') : session.Extends (fun _ => False) session' where
  last_le := h.last_le
  known seq hlt hle := Or.inl (h.known seq hlt hle)
  pending_iff seq hlt := by rw [h.pending_eq seq hlt, or_false]
  failure_eq := h.failure_eq

section Calls

variable {events : List ExecProcessEvent} {session : SessionState} {event : ExecProcessEvent}
  {seq : ℕ}

/-- The buffer takes an event of the process, or refuses it and stays as it is. -/
theorem insertPending_ends (h : session.Sound events) (hevent : eventAt events seq = some event)
    (hseq : event.seq = some seq) (hlt : session.orderedEvents.lastPublishedSeq < seq) :
    Ends (insertPending event) session
      (fun _ session' => session'.Sound events ∧ session.Extends (· = seq) session' ∧
        session'.orderedEvents.lastPublishedSeq = session.orderedEvents.lastPublishedSeq)
      (fun session' => session' = session) := by
  unfold insertPending
  refine ends_bind (ends_get (ends_bind (ends_ofExcept ?_ fun _ _ => rfl)))
  intro ordered hok
  refine ends_modify ?_
  unfold OrderedSessionEvents.insertPending at hok
  rw [hseq] at hok
  dsimp only at hok
  split at hok
  · next hsome =>
    cases hok
    refine ⟨h, ⟨le_rfl, fun _ hlt hle => absurd hlt (Nat.not_lt.2 hle), fun seq' _ => ?_, rfl⟩, rfl⟩
    refine ⟨Or.inl, fun h => h.elim id ?_⟩
    rintro rfl
    exact Option.isSome_iff_ne_none.1 hsome
  next hnone =>
  have hnone : get? seq session.orderedEvents.pending = none := by simpa using hnone
  split at hok
  · cases hok
  split at hok
  · cases hok
  split at hok
  · cases hok
  cases hok
  refine ⟨⟨h.published, h.last_le, ?_, keys_insert_nodup h.nodup, h.exit_eq, h.closed_eq⟩,
    ⟨le_rfl, fun _ hlt hle => absurd hlt (Nat.not_lt.2 hle), fun seq' _ => ?_, rfl⟩, rfl⟩
  · intro seq' event' hget
    by_cases hseq' : seq' = seq
    · subst hseq'
      rw [get?_insert] at hget
      simp only [if_true] at hget
      cases hget
      exact ⟨hlt, hevent⟩
    · refine h.pending_mem ?_
      simpa [hseq'] using hget
  · by_cases hseq' : seq' = seq
    · simp [hseq']
    · simp [hseq']

theorem publishReady_ends (h : session.Sound events) {failed : SessionState → Prop} :
    Ends publishReady session (fun _ session' => session'.Sound events ∧ session'.Drained ∧
      session.Extends (fun _ => False) session') failed := by
  obtain ⟨hsound, hdrained, hpublishes⟩ := publishReady_spec h
  exact ⟨hsound, hdrained, hpublishes.extends⟩

theorem insertAndPublish_ends (h : session.Sound events) (hevent : eventAt events seq = some event)
    (hseq : event.seq = some seq) (hlt : session.orderedEvents.lastPublishedSeq < seq) :
    Ends (insertAndPublish event) session
      (fun _ session' => session'.Sound events ∧ session'.Drained ∧ session.Extends (· = seq) session')
      (fun session' => session' = session) := by
  refine (insertPending_ends h hevent hseq hlt).bind ?_ fun _ => id
  rintro _ session₁ ⟨hsound, hextends, -⟩
  refine (publishReady_ends hsound).mono ?_ (fun _ => id)
  rintro _ session₂ ⟨hsound', hdrained, hextends'⟩
  exact ⟨hsound', hdrained, (hextends.trans hextends').congr fun _ => (or_false _).to_iff⟩

end Calls

/-! ## Holes -/

variable {entries : List (ℕ × ExecProcessEvent)}

theorem mem_range {first last : ℕ} {entry : ℕ × ExecProcessEvent} :
    entry ∈ range first last entries ↔ entry ∈ entries ∧ first ≤ entry.1 ∧ entry.1 ≤ last := by
  rw [range, mem_filter, inOrder, mem_insertionSort, Bool.and_eq_true, decide_eq_true_eq,
    decide_eq_true_eq]

theorem range_keys_sorted (hnodup : (entries.map Prod.fst).Nodup) (first last : ℕ) :
    ((range first last entries).map Prod.fst).Pairwise (· < ·) := by
  have hsub : (range first last entries).Sublist (inOrder entries) := filter_sublist
  have hperm : ((inOrder entries).map Prod.fst).Perm (entries.map Prod.fst) :=
    (perm_insertionSort _ entries).map Prod.fst
  have hle : ((inOrder entries).map Prod.fst).Pairwise (· ≤ ·) := by
    rw [pairwise_map]
    exact pairwise_insertionSort (fun entry entry' : ℕ × ExecProcessEvent => entry.1 ≤ entry'.1)
      entries
  have hlt : ((inOrder entries).map Prod.fst).Pairwise (· < ·) := by
    refine (hle.and (hperm.nodup_iff.2 hnodup)).imp ?_
    intro a b h
    exact lt_of_le_of_ne h.1 h.2
  exact hlt.sublist (hsub.map Prod.fst)

theorem mem_range_keys (hnodup : (entries.map Prod.fst).Nodup) {first last seq : ℕ} :
    seq ∈ (range first last entries).map Prod.fst ↔
      (first ≤ seq ∧ seq ≤ last) ∧ get? seq entries ≠ none := by
  rw [mem_map]
  constructor
  · rintro ⟨⟨seq, event⟩, hmem, rfl⟩
    obtain ⟨hmem, hbounds⟩ := mem_range.1 hmem
    refine ⟨hbounds, ?_⟩
    rw [get?_of_mem hnodup hmem]
    exact nofun
  · rintro ⟨hbounds, hget⟩
    obtain ⟨event, hevent⟩ := Option.ne_none_iff_exists'.1 hget
    exact ⟨(seq, event), mem_range.2 ⟨mem_of_get? hevent, hbounds⟩, rfl⟩

theorem firstMissing_spec {expected : ℕ} {seqs : List ℕ} (hsorted : seqs.Pairwise (· < ·))
    (hge : ∀ seq ∈ seqs, expected ≤ seq) :
    expected ≤ firstMissing expected seqs ∧ firstMissing expected seqs ∉ seqs ∧
      ∀ seq, expected ≤ seq → seq < firstMissing expected seqs → seq ∈ seqs := by
  induction seqs generalizing expected with
  | nil => exact ⟨le_rfl, nofun, fun seq hle hlt => absurd hle (Nat.not_le.2 hlt)⟩
  | cons seq seqs ih =>
    rw [pairwise_cons] at hsorted
    unfold firstMissing
    split
    · next hne =>
      have hlt : expected < seq := lt_of_le_of_ne (hge seq mem_cons_self) (Ne.symm hne)
      refine ⟨le_rfl, fun hmem => ?_, fun q hle hlt => absurd hle (Nat.not_le.2 hlt)⟩
      rcases mem_cons.1 hmem with heq | hmem
      · exact hne heq.symm
      · exact absurd (hsorted.1 expected hmem) (by omega)
    · next heq =>
      have heq : seq = expected := not_not.1 heq
      subst heq
      have hafter : ∀ q ∈ seqs, seq + 1 ≤ q := hsorted.1
      obtain ⟨hle, hnot, hall⟩ := ih hsorted.2 hafter
      refine ⟨by omega, fun hmem => ?_, fun q hq hlt => ?_⟩
      · rcases mem_cons.1 hmem with heq | hmem
        · omega
        · exact hnot hmem
      · by_cases hqs : q = seq
        · exact hqs ▸ mem_cons_self
        · exact mem_cons_of_mem _ (hall q (by omega) hlt)

/-- The numbers up to the target that are neither published nor in the buffer. -/
def holes (ordered : OrderedSessionEvents) (targetSeq : ℕ) : Finset ℕ :=
  (Finset.Icc (ordered.lastPublishedSeq + 1) targetSeq).filter fun seq =>
    get? seq ordered.pending = none

theorem missingCount_eq {ordered : OrderedSessionEvents} (hnodup : (ordered.pending.map Prod.fst).Nodup)
    (targetSeq : ℕ) : missingCount ordered targetSeq = (holes ordered targetSeq).card := by
  have hkeys : (range (ordered.lastPublishedSeq + 1) targetSeq ordered.pending).length =
      ((Finset.Icc (ordered.lastPublishedSeq + 1) targetSeq).filter fun seq =>
        ¬ get? seq ordered.pending = none).card := by
    have hsorted := range_keys_sorted hnodup (ordered.lastPublishedSeq + 1) targetSeq
    have hnodup' := hsorted.imp (fun h => Nat.ne_of_lt h)
    rw [← length_map Prod.fst, ← toFinset_card_of_nodup hnodup']
    congr 1
    ext seq
    rw [mem_toFinset, mem_range_keys hnodup, Finset.mem_filter, Finset.mem_Icc]
  have hsplit := (Finset.Icc (ordered.lastPublishedSeq + 1) targetSeq).card_filter_add_card_filter_not
    fun seq => get? seq ordered.pending = none
  rw [Nat.card_Icc] at hsplit
  unfold missingCount holes
  dsimp only
  split
  · omega
  · next hempty =>
    rw [Finset.Icc_eq_empty (by omega)]
    simp
    omega

/-- **The count decides.** If one event is missing, it is the hole that is known. -/
theorem firstMissingSeq_eq {ordered : OrderedSessionEvents}
    (hnodup : (ordered.pending.map Prod.fst).Nodup) {targetSeq seq : ℕ}
    (hmissing : missingCount ordered targetSeq = 1) (hlt : ordered.lastPublishedSeq < seq)
    (hle : seq ≤ targetSeq) (hhole : get? seq ordered.pending = none) :
    firstMissingSeq ordered targetSeq = seq := by
  have hsorted := range_keys_sorted hnodup (ordered.lastPublishedSeq + 1) targetSeq
  have hkeys : ∀ {q}, q ∈ (range (ordered.lastPublishedSeq + 1) targetSeq ordered.pending).map
      Prod.fst ↔ _ := mem_range_keys hnodup
  obtain ⟨hge, hnot, hall⟩ := firstMissing_spec hsorted fun q hq => (hkeys.1 hq).1.1
  change ordered.lastPublishedSeq + 1 ≤ firstMissingSeq ordered targetSeq at hge
  change firstMissingSeq ordered targetSeq ∉ _ at hnot
  change ∀ q, ordered.lastPublishedSeq + 1 ≤ q → q < firstMissingSeq ordered targetSeq → _ at hall
  have hfirst : firstMissingSeq ordered targetSeq ≤ seq := by
    refine Nat.le_of_not_lt fun hafter => ?_
    exact (hkeys.1 (hall seq hlt hafter)).2 hhole
  have hmem : ∀ q ∈ holes ordered targetSeq, q = seq := by
    rw [missingCount_eq hnodup, Finset.card_eq_one] at hmissing
    obtain ⟨a, ha⟩ := hmissing
    have hseq : seq ∈ holes ordered targetSeq := by
      rw [holes, Finset.mem_filter, Finset.mem_Icc]
      exact ⟨⟨hlt, hle⟩, hhole⟩
    intro q hq
    rw [ha, Finset.mem_singleton] at hq hseq
    rw [hq, hseq]
  refine hmem _ ?_
  rw [holes, Finset.mem_filter, Finset.mem_Icc]
  refine ⟨⟨hge, by omega⟩, ?_⟩
  by_contra hget
  exact hnot (hkeys.2 ⟨⟨hge, by omega⟩, hget⟩)

/-! ## The place of the exit -/

/-- The first event that the session and the answer together do not have. -/
def FirstMissing (session : SessionState) (response : ReadResponse) (seq : ℕ) : Prop :=
  session.orderedEvents.lastPublishedSeq < seq ∧
    get? seq session.orderedEvents.pending = none ∧
    seq ∉ response.chunks.map ProcessOutputChunk.seq ∧
    ∀ seq', session.orderedEvents.lastPublishedSeq < seq' → seq' < seq →
      get? seq' session.orderedEvents.pending ≠ none ∨
        seq' ∈ response.chunks.map ProcessOutputChunk.seq

/-- The gap before a chunk is not one of lost output, if it is taken for the exit. -/
def ExitInPlace (events : List ExecProcessEvent) (session : SessionState) (response : ReadResponse) :
    Prop :=
  response.exited = true → exitKnownOf session.orderedEvents (response.nextSeq - 1) = false →
    ∀ seq, FirstMissing session response seq → (∃ chunk ∈ response.chunks, seq < chunk.seq) →
      ∀ event, eventAt events seq = some event → event.isOutput = false

section Recovery

variable {process : RunningProcess} {session start : SessionState} {response : ReadResponse}

section Loop

variable (hprocess : process.Sound) (htells : response.Tells process.events)
include htells

variable {before chunks : List ProcessOutputChunk} {chunk : ProcessOutputChunk}

theorem firstMissing_of_gap (hsplit : response.chunks = before ++ chunk :: chunks)
    (hextends : start.Extends (· ∈ before.map ProcessOutputChunk.seq) session)
    (hdrained : session.Drained) (hgap : session.orderedEvents.lastPublishedSeq + 1 < chunk.seq) :
    FirstMissing start response (session.orderedEvents.lastPublishedSeq + 1) := by
  have hlast := hextends.last_le
  have hpending := hextends.pending_iff (session.orderedEvents.lastPublishedSeq + 1) (by omega)
  have hnot : ¬ (get? (session.orderedEvents.lastPublishedSeq + 1)
      start.orderedEvents.pending ≠ none ∨
      session.orderedEvents.lastPublishedSeq + 1 ∈ before.map ProcessOutputChunk.seq) :=
    fun h => hpending.2 h hdrained
  rw [not_or, not_not] at hnot
  have hsorted := htells.sorted
  rw [hsplit, pairwise_append, pairwise_cons] at hsorted
  refine ⟨by omega, hnot.1, ?_, ?_⟩
  · rw [hsplit, map_append, map_cons, mem_append, mem_cons, not_or, not_or]
    refine ⟨hnot.2, by omega, fun hmem => ?_⟩
    obtain ⟨c, hc, heq⟩ := mem_map.1 hmem
    have hlt := hsorted.2.1.1 c hc
    omega
  · intro seq' hlt hlt'
    refine (hextends.known seq' hlt (by omega)).imp_right fun hmem => ?_
    rw [hsplit, map_append, mem_append]
    exact Or.inl hmem

include hprocess in
/-- A chunk past the next event comes after the exit, where no output was lost. -/
theorem exit_in_gap (hplace : ExitInPlace process.events start response)
    (hexited : response.exited = true)
    (hunknown : exitKnownOf start.orderedEvents (response.nextSeq - 1) = false)
    (hsplit : response.chunks = before ++ chunk :: chunks)
    (hextends : start.Extends (· ∈ before.map ProcessOutputChunk.seq) session)
    (hdrained : session.Drained) (hgap : session.orderedEvents.lastPublishedSeq + 1 < chunk.seq) :
    ∃ event, eventAt process.events (session.orderedEvents.lastPublishedSeq + 1) = some event ∧
      event.isExited = true := by
  have hchunk : chunk ∈ response.chunks := by
    rw [hsplit]
    exact mem_append_right _ mem_cons_self
  have hle := (eventAt_pos (htells.chunk_mem chunk hchunk).1).2
  have hmissing := firstMissing_of_gap htells hsplit hextends hdrained hgap
  obtain ⟨event, hevent⟩ : ∃ event,
      eventAt process.events (session.orderedEvents.lastPublishedSeq + 1) = some event :=
    ⟨_, getElem?_eq_getElem (by omega)⟩
  have houtput := hplace hexited hunknown _ hmissing ⟨chunk, hchunk, hgap⟩ event hevent
  refine ⟨event, hevent, ?_⟩
  cases event with
  | output chunk => cases houtput
  | exited seq code denied => rfl
  | closed seq =>
    have hlast := (hprocess.closed_last hevent rfl).1
    omega
  | failed message => cases hprocess.seq_eq hevent

/-- A call that puts the exit where the exit is. -/
theorem insertExit_ends (h : session.Sound process.events) {seq : ℕ} {event : ExecProcessEvent}
    (hevent : eventAt process.events seq = some event) (hexited : event.isExited = true)
    (hlt : session.orderedEvents.lastPublishedSeq < seq) :
    Ends (insertExit response seq) session
      (fun _ session' => session'.Sound process.events ∧ session.Extends (· = seq) session')
      (fun session' => session' = session) := by
  unfold insertExit
  refine ends_bind (ends_ofExcept ?_ fun _ _ => rfl)
  intro exitCode hcode
  have hcode : response.exitCode = some exitCode := by
    unfold exitCodeOf at hcode
    split at hcode
    · next h =>
      cases hcode
      exact h
    · cases hcode
  rw [htells.exit_eq hcode hevent hexited] at hevent
  exact (insertPending_ends h hevent rfl hlt).mono (fun _ _ h => ⟨h.1, h.2.1⟩) fun _ => id

theorem recoverChunk_ends (hchunk : chunk ∈ response.chunks) (h : session.Sound process.events)
    (hdrained : session.Drained) : Ends (recoverChunk chunk) session
      (fun _ session' => session'.Sound process.events ∧ session'.Drained ∧
        session.Extends (· = chunk.seq) session')
      (fun session' => session' = session) := by
  refine ends_bind (ends_get ?_)
  dsimp only
  split
  · next hlt => exact insertAndPublish_ends h (htells.chunk_mem chunk hchunk).1 rfl hlt
  · next hle => exact ends_pure ⟨h, hdrained, .passed (Nat.le_of_not_lt hle)⟩

include hprocess in
/-- What the chunks leave: until the exit is inferred, the session has gone on with chunks only. -/
theorem recoverChunks_ends (hplace : ExitInPlace process.events start response)
    (hsplit : response.chunks = before ++ chunks)
    (h : session.Sound process.events) (hdrained : session.Drained) (exitKnown publishedClosed : Bool)
    (hknown : exitKnown = false →
      exitKnownOf start.orderedEvents (response.nextSeq - 1) = false ∧
        start.Extends (· ∈ before.map ProcessOutputChunk.seq) session) :
    Ends (recoverChunks response (response.nextSeq - 1) chunks exitKnown publishedClosed) session
      (fun result session' => session'.Sound process.events ∧ session'.Drained ∧
        (result.1 = false →
          exitKnownOf start.orderedEvents (response.nextSeq - 1) = false ∧
            start.Extends (· ∈ response.chunks.map ProcessOutputChunk.seq) session'))
      (fun session' => session'.Sound process.events ∧ session'.Drained) := by
  induction chunks generalizing session before exitKnown publishedClosed with
  | nil =>
    rw [append_nil] at hsplit
    rw [hsplit]
    exact ⟨h, hdrained, hknown⟩
  | cons chunk chunks ih =>
    have hchunk : chunk ∈ response.chunks := by
      rw [hsplit]
      exact mem_append_right _ mem_cons_self
    have hsplit' : response.chunks = (before ++ [chunk]) ++ chunks := by
      rw [hsplit, List.append_assoc]
      rfl
    unfold recoverChunks
    split
    · exact ends_throw ⟨h, hdrained⟩
    refine ends_bind (ends_get ?_)
    dsimp only
    generalize hinfers : (response.exited && !exitKnown &&
      decide (session.orderedEvents.lastPublishedSeq + 1 < chunk.seq)) = infersExit
    -- the exit, if it is inferred
    have hexit : Ends (exitBefore response infersExit) session
        (fun _ session' => session'.Sound process.events ∧ session'.Drained ∧
          ((exitKnown || infersExit) = false →
            exitKnownOf start.orderedEvents (response.nextSeq - 1) = false ∧
              start.Extends (· ∈ before.map ProcessOutputChunk.seq) session'))
        (fun session' => session'.Sound process.events ∧ session'.Drained) := by
      refine ends_bind (ends_get ?_)
      split
      · next hyes =>
        rw [hyes] at hinfers
        simp only [Bool.and_eq_true, Bool.not_eq_true', decide_eq_true_eq] at hinfers
        obtain ⟨⟨hexited, hunknown⟩, hgap⟩ := hinfers
        obtain ⟨hstart, hextends⟩ := hknown hunknown
        obtain ⟨event, hat, hisExit⟩ :=
          exit_in_gap hprocess htells hplace hexited hstart hsplit hextends hdrained hgap
        refine (insertExit_ends htells h hat hisExit (Nat.lt_succ_self _)).bind ?_
          fun _ heq => heq ▸ ⟨h, hdrained⟩
        rintro _ session₁ ⟨hsound, hext⟩
        refine (publishReady_ends hsound).mono ?_ fun _ => id
        rintro _ session₂ ⟨hsound', hdrained', hext'⟩
        refine ⟨hsound', hdrained', fun hfalse => ?_⟩
        rw [hyes, Bool.or_true] at hfalse
        cases hfalse
      · next hno =>
        refine ends_pure ⟨h, hdrained, fun hfalse => hknown ?_⟩
        exact (Bool.or_eq_false_iff.1 hfalse).1
    refine hexit.bind ?_ fun _ => id
    rintro closedByExit session₁ ⟨hsound₁, hdrained₁, hknown₁⟩
    refine (recoverChunk_ends htells hchunk hsound₁ hdrained₁).bind ?_
      fun _ heq => heq ▸ ⟨hsound₁, hdrained₁⟩
    rintro closedByChunk session₂ ⟨hsound₂, hdrained₂, hextends₂⟩
    refine ih hsplit' hsound₂ hdrained₂ _ _ fun hfalse => ?_
    obtain ⟨hstart, hextends₁⟩ := hknown₁ hfalse
    refine ⟨hstart, (hextends₁.trans hextends₂).congr fun seq => ?_⟩
    rw [map_append, mem_append, map_singleton, mem_singleton]

/-- The verdict of the answer is the one the buffered exit has. -/
theorem noteSandboxDenied_eq (h : session.Sound process.events) :
    ∃ pending', noteSandboxDenied session.orderedEvents (response.nextSeq - 1) response.sandboxDenied =
        { session.orderedEvents with pending := pending' } ∧ (pending'.map Prod.fst).Nodup ∧
      ∀ seq, get? seq pending' = get? seq session.orderedEvents.pending := by
  unfold noteSandboxDenied
  split
  · next key seq exitCode denied hexit =>
    have hmem := mem_range.1 (mem_of_find?_eq_some hexit)
    have hget := get?_of_mem h.nodup hmem.1
    obtain ⟨hlt, hevent⟩ := h.pending_mem hget
    have hbelow : key < response.nextSeq := by
      have hle : key ≤ response.nextSeq - 1 := hmem.2.2
      omega
    -- the answer was taken after the exit
    obtain ⟨code, hcode⟩ : ∃ code, response.exitCode = some code := by
      cases hcode : response.exitCode with
      | none => cases htells.exit_none hcode key hbelow _ hevent
      | some code => exact ⟨code, rfl⟩
    have hsame := htells.exit_eq hcode hevent rfl
    injection hsame with hseq hcode' hdenied
    refine ⟨_, rfl, keys_insert_nodup h.nodup, fun seq' => ?_⟩
    rw [get?_insert]
    split
    · next heq =>
      rw [heq, hget, hdenied, Option.getD_some, Bool.or_self]
    · rfl
  · exact ⟨_, rfl, h.nodup, fun _ => rfl⟩

end Loop

variable (hprocess : process.Sound) (hresponse : response.Describes process.events)
include hprocess hresponse

/-- The next event is in the buffer only if it is the close, which is the last event. -/
def AtClose (process : RunningProcess) (session : SessionState) (targetSeq : ℕ) : Prop :=
  session.orderedEvents.lastPublishedSeq + 1 = targetSeq ∧
    get? targetSeq session.orderedEvents.pending ≠ none ∧
    ∃ event, eventAt process.events targetSeq = some event ∧ event.isClosed = true

omit hprocess in
theorem recoverClose_ends (h : session.Sound process.events) (hdrained : session.Drained) :
    Ends (recoverClose response (response.nextSeq - 1)) session
      (fun _ session' => session'.Sound process.events ∧
        (session'.Drained ∨ AtClose process session' (response.nextSeq - 1)) ∧
        ∃ added : ℕ → Prop, session.Extends added session' ∧
          ∀ seq, added seq → ∃ event, eventAt process.events seq = some event ∧ event.isClosed = true)
      (fun session' => session' = session) := by
  refine ends_bind (ends_get ?_)
  dsimp only
  split
  · next hclose =>
    simp only [Bool.and_eq_true, Bool.not_eq_true'] at hclose
    obtain ⟨⟨hclosed, hopen⟩, -⟩ := hclose
    have hevent := hresponse.closed_mem hclosed
    have hlt : session.orderedEvents.lastPublishedSeq < response.nextSeq - 1 := by
      refine Nat.lt_of_not_le fun hle => ?_
      rw [h.closed_eq.2 ⟨_, hle, _, hevent, rfl⟩] at hopen
      cases hopen
    refine (insertPending_ends h hevent rfl hlt).mono ?_ fun _ => id
    rintro _ session' ⟨hsound, hextends, hlast⟩
    refine ⟨hsound, ?_, _, hextends, ?_⟩
    · by_cases hnext : session.orderedEvents.lastPublishedSeq + 1 = response.nextSeq - 1
      · refine Or.inr ⟨by rw [hlast, hnext], ?_, _, hevent, rfl⟩
        exact (hextends.pending_iff _ (by omega)).2 (Or.inr rfl)
      · refine Or.inl ?_
        by_contra hget
        rw [SessionState.Drained, hlast] at hget
        exact ((hextends.pending_iff _ (by omega)).1 hget).elim (fun h => h hdrained) hnext
    · rintro seq rfl
      exact ⟨_, hevent, rfl⟩
  · exact ends_pure ⟨h, Or.inl hdrained, _, .refl session, fun _ => False.elim⟩

omit hprocess in
/-- If the exit is not known, the session has no exit, neither published nor in its buffer. -/
theorem exit_missing (hstart : start.Sound process.events)
    (hunknown : exitKnownOf start.orderedEvents (response.nextSeq - 1) = false)
    {exitCode : ℤ} (hcode : response.exitCode = some exitCode) :
    ∃ seq event, eventAt process.events seq = some event ∧ event.isExited = true ∧
      seq ≤ response.nextSeq - 1 ∧ start.orderedEvents.lastPublishedSeq < seq ∧
      get? seq start.orderedEvents.pending = none := by
  obtain ⟨seq, hlt, hevent⟩ := hresponse.exit_mem hcode
  obtain ⟨hpublished, hpending⟩ := Bool.or_eq_false_iff.1 hunknown
  refine ⟨seq, _, hevent, rfl, by omega, ?_, ?_⟩
  · refine Nat.lt_of_not_le fun hle => ?_
    rw [hstart.exit_eq.2 ⟨seq, hle, _, hevent, rfl⟩] at hpublished
    cases hpublished
  · by_contra hget
    obtain ⟨event, hget⟩ := Option.ne_none_iff_exists'.1 hget
    obtain ⟨-, hevent'⟩ := hstart.pending_mem hget
    rw [hevent] at hevent'
    cases hevent'
    rw [Option.isSome_eq_false_iff, Option.isNone_iff_eq_none, pendingExit,
      find?_eq_none] at hpending
    refine hpending (seq, _) (mem_range.2 ⟨mem_of_get? hget, Nat.zero_le _, ?_⟩) rfl
    show seq ≤ response.nextSeq - 1
    omega

/-- **The exit is put where it is missing.** -/
theorem recoverExit_ends (hstart : start.Sound process.events) (h : session.Sound process.events)
    (hdrained : session.Drained ∨ AtClose process session (response.nextSeq - 1))
    (exitKnown : Bool) {added : ℕ → Prop}
    (hknown : exitKnown = false →
      exitKnownOf start.orderedEvents (response.nextSeq - 1) = false ∧ start.Extends added session)
    (hadded : ∀ seq, added seq → ∃ event, eventAt process.events seq = some event ∧
      event.isExited = false) :
    Ends (recoverExit response (response.nextSeq - 1) exitKnown) session
      (fun _ session' => session'.Sound process.events)
      (fun session' => session'.Sound process.events ∧ session'.Drained) := by
  refine ends_bind (ends_get ?_)
  dsimp only
  split
  · next hinfers =>
    rw [Bool.and_eq_true, Bool.not_eq_true'] at hinfers
    obtain ⟨hunknown, hextends⟩ := hknown hinfers.2
    obtain ⟨exitCode, hcode⟩ : ∃ exitCode, response.exitCode = some exitCode := by
      rw [hresponse.exited_eq] at hinfers
      exact Option.isSome_iff_exists.1 hinfers.1
    obtain ⟨seq, event, hevent, hexited, hle, hlt, hnone⟩ :=
      exit_missing hresponse hstart hunknown hcode
    have hnotAdded : ¬ added seq := by
      intro hseq
      obtain ⟨event', hevent', hnot⟩ := hadded seq hseq
      rw [hevent] at hevent'
      cases hevent'
      rw [hexited] at hnot
      cases hnot
    have hlast : session.orderedEvents.lastPublishedSeq < seq := by
      refine Nat.lt_of_not_le fun hpassed => ?_
      exact (hextends.known seq hlt hpassed).elim (fun h => h hnone) hnotAdded
    have hhole : get? seq session.orderedEvents.pending = none := by
      by_contra hget
      exact ((hextends.pending_iff seq hlast).1 hget).elim (fun h => h hnone) hnotAdded
    -- the exit is a hole, and the close is none
    have hdrained : session.Drained := by
      refine hdrained.resolve_right ?_
      rintro ⟨hnext, hget, -⟩
      have hseq : seq = response.nextSeq - 1 := by omega
      exact hget (hseq ▸ hhole)
    split
    · exact ends_throw ⟨h, hdrained⟩
    next hmissing =>
    rw [firstMissingSeq_eq h.nodup (not_not.1 hmissing) hlast hle hhole]
    exact (insertExit_ends (hresponse.tells hprocess) h hevent hexited hlast).mono (fun _ _ h => h.1)
      fun _ heq => heq ▸ ⟨h, hdrained⟩
  · split
    · next hmissing =>
      refine ends_throw ⟨h, hdrained.resolve_right ?_⟩
      rintro ⟨hnext, hget, -⟩
      rw [missingCount_eq h.nodup, ← Finset.card_empty] at hmissing
      refine hmissing (congrArg Finset.card (Finset.eq_empty_of_forall_notMem fun q hq => ?_))
      rw [holes, Finset.mem_filter, Finset.mem_Icc] at hq
      have hq' : q = response.nextSeq - 1 := by omega
      exact hget (hq' ▸ hq.2)
    · exact ends_pure h

omit hprocess hresponse in
/-- Only what the buffer holds is of importance, not how. -/
theorem sound_of_pending_eq {events : List ExecProcessEvent} (h : session.Sound events)
    {pending' : List (ℕ × ExecProcessEvent)} (hnodup : (pending'.map Prod.fst).Nodup)
    (hget : ∀ seq, get? seq pending' = get? seq session.orderedEvents.pending)
    {session' : SessionState}
    (heq : session' = ⟨{ session.orderedEvents with pending := pending' }, session.events⟩) :
    session'.Sound events ∧ (session'.Drained ↔ session.Drained) ∧
      session.Extends (fun _ => False) session' := by
  subst heq
  refine ⟨⟨h.published, h.last_le, ?_, hnodup, h.exit_eq, h.closed_eq⟩, ?_, ?_⟩
  · intro seq event hevent
    exact h.pending_mem ((hget seq).symm.trans hevent)
  · exact Eq.congr_left (hget _)
  · refine ⟨le_rfl, fun _ hlt hle => absurd hlt (Nat.not_lt.2 hle), fun seq _ => ?_, rfl⟩
    rw [hget, or_false]

/-- **Recovery goes on with the events of the process**, whether it returns or fails. -/
theorem recoverEvents_ends (h : session.Sound process.events) (hdrained : session.Drained)
    (hplace : ExitInPlace process.events session response) :
    Ends (recoverEvents response) session
      (fun _ session' => session'.Sound process.events ∧ session'.Drained)
      (fun session' => session'.Sound process.events ∧ session'.Drained) := by
  refine ends_bind (ends_get ?_)
  dsimp only
  have htells := hresponse.tells hprocess
  rw [htells.failure_eq]
  dsimp only
  split
  · exact ends_pure ⟨h, hdrained⟩
  refine ends_bind (ends_modify ?_)
  obtain ⟨pending', hnote, hnodup, hget⟩ := noteSandboxDenied_eq htells h
  rw [hnote]
  obtain ⟨hsound₁, hsame, hextends₁⟩ := sound_of_pending_eq h hnodup hget rfl
  have hdrained₁ := hsame.2 hdrained
  split
  · exact ends_throw ⟨hsound₁, hdrained₁⟩
  refine (recoverChunks_ends hprocess htells hplace (nil_append _).symm hsound₁ hdrained₁
    _ false fun hunknown => ⟨hunknown, hextends₁.congr fun seq => ?_⟩).bind ?_ fun _ => id
  · simp
  rintro ⟨exitKnown, publishedClosed⟩ session₂ ⟨hsound₂, hdrained₂, hknown₂⟩
  refine (recoverClose_ends hresponse hsound₂ hdrained₂).bind ?_
    fun _ heq => heq ▸ ⟨hsound₂, hdrained₂⟩
  rintro _ session₃ ⟨hsound₃, hdrained₃, added, hextends₃, hadded⟩
  refine (recoverExit_ends hprocess hresponse h hsound₃ hdrained₃ exitKnown
    (fun hunknown => ⟨(hknown₂ hunknown).1, (hknown₂ hunknown).2.trans hextends₃⟩) ?_).bind ?_
    fun _ => id
  · rintro seq (hseq | hseq)
    · obtain ⟨chunk, hchunk, rfl⟩ := mem_map.1 hseq
      exact ⟨_, (hresponse.chunk_mem chunk hchunk).1, rfl⟩
    · obtain ⟨event, hevent, hclosed⟩ := hadded seq hseq
      refine ⟨event, hevent, ?_⟩
      cases event <;> first | rfl | cases hclosed
  rintro _ session₄ hsound₄
  refine (publishReady_ends hsound₄).bind ?_ fun _ => id
  rintro _ session₅ ⟨hsound₅, hdrained₅, -⟩
  exact ends_pure ⟨hsound₅, hdrained₅⟩

end Recovery

end Codex.ExecServer
