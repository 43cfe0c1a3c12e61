import Codex.Base.UndoStack
import Codex.Rollout.Reconstruct

/-!
# The newest surviving turn

A rollout without compactions, made of whole turns and rollbacks, is a log of
pushes and undos (`Codex.Base.UndoStack`). The reverse scan skips as many user
turns as the rollbacks it has read say; `reconstruct_newest_survivor` says that
what it finds is the newest user turn on the stack that the log builds when it
is read forwards.
-/

namespace Codex.Rollout

open List Codex.Text

variable (rules : TextRules)

/-! ## Turns -/

/-- An item that may stand anywhere inside a turn. -/
def RolloutItem.isPlain : RolloutItem → Bool
  | .compacted _ | .turnContext _ => false
  | .eventMsg (.turnStarted _) | .eventMsg (.threadRolledBack _) => false
  | _ => true

/-- An item that makes its turn a user turn: a message of the user, or one of another agent. -/
def RolloutItem.isUserMessage : RolloutItem → Bool
  | .eventMsg (.userMessage _) | .interAgentCommunication _ => true
  | .responseItem item => isUserTurnBoundary rules item
  | _ => false

/-- A turn from its start to its completion, with one turn context. -/
structure Turn where
  id : Str
  before : List RolloutItem
  context : TurnContextItem
  after : List RolloutItem
  contextId : context.turnId = some id
  plain : ∀ item ∈ before ++ after, item.isPlain = true

namespace Turn

def items (turn : Turn) : List RolloutItem :=
  .eventMsg (.turnStarted turn.id) :: (turn.before ++ RolloutItem.turnContext turn.context ::
    (turn.after ++ [RolloutItem.eventMsg (.turnComplete turn.id)]))

def isUser (turn : Turn) : Bool := (turn.before ++ turn.after).any (·.isUserMessage rules)

def settings (turn : Turn) : PreviousTurnSettings :=
  ⟨turn.context.model, turn.context.compHash, turn.context.realtimeActive⟩

theorem reverse_items (turn : Turn) :
    turn.items.reverse = .eventMsg (.turnComplete turn.id) :: (turn.after.reverse ++
      RolloutItem.turnContext turn.context :: (turn.before.reverse ++
        [RolloutItem.eventMsg (.turnStarted turn.id)])) := by
  simp [items]

end Turn

/-- The items of a turn, or of a rollback. -/
def entryItems : LogEntry Turn → List RolloutItem
  | .push turn => turn.items
  | .undo numTurns => [.eventMsg (.threadRolledBack numTurns)]

def rolloutOf (log : List (LogEntry Turn)) : List RolloutItem := log.flatMap entryItems

/-! ## Inside a turn -/

variable {pending : ℕ} {found : Option Turn} {suffix : List RolloutItem}
  {active : Option ActiveReplaySegment} {scan : Scan}

/-- What the segment of a turn has gathered. -/
structure SegmentOf (id : Str) (user : Bool) (settings : Option PreviousTurnSettings)
    (reference : TurnReferenceContextItem) (segment : ActiveReplaySegment) : Prop where
  turnId : segment.turnId = some id
  user : segment.countsAsUserTurn = user
  settings : segment.previousTurnSettings = settings
  reference : segment.referenceContextItem = reference
  base : segment.baseReplacementHistory = none

/-- The scan has `pending` turns to skip, and has found the surviving turn `found`, if any. -/
structure Reads (suffix : List RolloutItem) (pending : ℕ) (found : Option Turn)
    (active : Option ActiveReplaySegment) (scan : Scan) : Prop where
  pending : scan.pendingRollbackTurns = pending
  settings : scan.previousTurnSettings = found.map Turn.settings
  reference : scan.referenceContextItem = found.elim .neverSet fun turn => .latest turn.context
  base : scan.baseReplacementHistory = none
  suffix : scan.rolloutSuffix = suffix
  active : scan.activeSegment = active

variable {item : RolloutItem} {id : Str} {user : Bool} {settings : Option PreviousTurnSettings}
  {reference : TurnReferenceContextItem} {segment : ActiveReplaySegment}

/-- Without a replacement history the scan goes on to its end. -/
theorem Reads.run_cons {older newer : List RolloutItem}
    (h : Reads suffix pending found active (scan.step rules item newer)) :
    scan.run rules (item :: older) newer =
      (scan.step rules item newer).run rules older (item :: newer) := by
  have hdone : (scan.step rules item newer).done = false := by
    rw [Scan.done, h.base]
    rfl
  rw [Scan.run, hdone, if_neg Bool.false_ne_true]

theorem SegmentOf.addPlain (h : SegmentOf id user settings reference segment)
    (hplain : item.isPlain = true) :
    ∃ segment', addToSegment rules (some segment) item = some segment' ∧
      SegmentOf id (user || item.isUserMessage rules) settings reference segment' := by
  obtain ⟨hid, huser, hsettings, hreference, hbase⟩ := h
  have hor : ∀ other : Option Str, segment.turnId.or other = some id := fun other => by
    rw [hid, Option.some_or]
  have hfalse : segment.countsAsUserTurn = (user || false) := by rw [huser, Bool.or_false]
  cases item with
  | compacted compacted => cases hplain
  | turnContext context => cases hplain
  | sessionMeta windowId rest | interAgentCommunicationMetadata triggerTurn =>
    exact ⟨segment, rfl, hid, hfalse, hsettings, hreference, hbase⟩
  | responseItem response =>
    exact ⟨_, rfl, hid, by rw [← huser]; rfl, hsettings, hreference, hbase⟩
  | interAgentCommunication communication =>
    exact ⟨_, rfl, hid, (Bool.or_true user).symm, hsettings, hreference, hbase⟩
  | worldState state => exact ⟨_, rfl, hid, hfalse, hsettings, hreference, hbase⟩
  | eventMsg event =>
    cases event with
    | threadRolledBack numTurns => cases hplain
    | turnStarted turnId => cases hplain
    | turnComplete turnId | turnAborted turnId =>
      exact ⟨_, rfl, hor _, hfalse, hsettings, hreference, hbase⟩
    | userMessage event =>
      exact ⟨_, rfl, hid, (Bool.or_true user).symm, hsettings, hreference, hbase⟩
    | other event => exact ⟨segment, rfl, hid, hfalse, hsettings, hreference, hbase⟩

theorem SegmentOf.addContext {context : TurnContextItem}
    (h : SegmentOf id user settings .neverSet segment) (hid : context.turnId = some id) :
    SegmentOf id user (some ⟨context.model, context.compHash, context.realtimeActive⟩)
      (.latest context) (segment.addTurnContext context) := by
  have hor : segment.turnId.or context.turnId = some id := by rw [h.turnId, Option.some_or]
  have hcompatible : turnIdsAreCompatible (some id) (some id) = true := decide_eq_true rfl
  unfold ActiveReplaySegment.addTurnContext
  rw [hor, hid, if_pos hcompatible, h.reference]
  exact ⟨rfl, h.user, rfl, rfl, h.base⟩

/-- An item that is neither a compaction, a rollback nor a start goes to the open segment. -/
theorem Reads.step_segment (newer : List RolloutItem)
    (h : Reads suffix pending found active scan)
    (hstep : scan.step rules item newer =
      { scan with activeSegment := addToSegment rules scan.activeSegment item }) :
    Reads suffix pending found (addToSegment rules active item) (scan.step rules item newer) := by
  rw [hstep]
  exact ⟨h.pending, h.settings, h.reference, h.base, h.suffix, by rw [← h.active]⟩

theorem step_plain (hplain : item.isPlain = true) (newer : List RolloutItem) :
    scan.step rules item newer =
      { scan with activeSegment := addToSegment rules scan.activeSegment item } := by
  cases item with
  | compacted compacted => cases hplain
  | eventMsg event =>
    cases event with
    | threadRolledBack numTurns => cases hplain
    | turnStarted turnId => cases hplain
    | _ => rfl
  | _ => rfl

/-- Plain items only tell whether the turn is a user turn. -/
theorem Reads.run_plain {items : List RolloutItem} (hplain : ∀ item ∈ items, item.isPlain = true)
    (h : Reads suffix pending found (some segment) scan)
    (hs : SegmentOf id user settings reference segment) (older newer : List RolloutItem) :
    ∃ scan' newer' segment', scan.run rules (items ++ older) newer = scan'.run rules older newer' ∧
      Reads suffix pending found (some segment') scan' ∧
      SegmentOf id (user || items.any (·.isUserMessage rules)) settings reference segment' := by
  induction items generalizing scan segment user newer with
  | nil => exact ⟨scan, newer, segment, rfl, h, by rwa [any_nil, Bool.or_false]⟩
  | cons item items ih =>
    have hitem : item.isPlain = true := hplain item (by simp)
    obtain ⟨segment', hadd, hs'⟩ := hs.addPlain rules hitem
    have hstep := h.step_segment rules newer (step_plain rules hitem newer)
    rw [hadd] at hstep
    obtain ⟨scan'', newer'', segment'', hrun, h'', hs''⟩ :=
      ih (fun i hi => hplain i (by simp [hi])) hstep hs' (item :: newer)
    refine ⟨scan'', newer'', segment'', ?_, h'', by rwa [any_cons, ← Bool.or_assoc]⟩
    rw [cons_append, hstep.run_cons rules, hrun]

/-! ## A whole turn -/

/-- The counter and the turn that was found, after a turn has been read. -/
def afterTurn (turn : Turn) (pending : ℕ) (found : Option Turn) : ℕ × Option Turn :=
  match pending with
  | 0 => (0, found.or (if turn.isUser rules then some turn else none))
  | pending + 1 => (if turn.isUser rules then pending else pending + 1, found)

theorem Reads.finalize {turn : Turn}
    (h : Reads suffix pending found none scan)
    (hs : SegmentOf turn.id (turn.isUser rules) (some turn.settings) (.latest turn.context)
      segment) :
    Reads suffix (afterTurn rules turn pending found).1 (afterTurn rules turn pending found).2 none
      (scan.finalize segment) := by
  obtain ⟨hpending, hsettings, hreference, hbase, hsuffix, hactive⟩ := h
  unfold Scan.finalize
  rw [hs.user]
  cases pending with
  | succ pending =>
    rw [if_pos (by omega), hpending]
    exact ⟨rfl, hsettings, hreference, hbase, hsuffix, hactive⟩
  | zero =>
    rw [if_neg (by omega), hs.settings, hs.reference, hs.base, hbase]
    cases found with
    | some turn' =>
      refine ⟨hpending, ?_, ?_, rfl, hsuffix, hactive⟩
      · rw [hsettings]
        rfl
      · rw [hreference]
        rfl
    | none =>
      refine ⟨hpending, ?_, ?_, rfl, hsuffix, hactive⟩
      · cases huser : turn.isUser rules <;> simp [afterTurn, huser, hsettings]
      · cases huser : turn.isUser rules <;> simp [afterTurn, huser, hreference]

/-- **A turn is read as a whole.** -/
theorem Reads.run_turn (turn : Turn) (h : Reads suffix pending found none scan)
    (older newer : List RolloutItem) :
    ∃ scan' newer', scan.run rules (turn.items.reverse ++ older) newer =
        scan'.run rules older newer' ∧
      Reads suffix (afterTurn rules turn pending found).1 (afterTurn rules turn pending found).2
        none scan' := by
  have hafter : ∀ item ∈ turn.after.reverse, item.isPlain = true := fun item hi =>
    turn.plain item (mem_append_right _ (mem_reverse.1 hi))
  have hbefore : ∀ item ∈ turn.before.reverse, item.isPlain = true := fun item hi =>
    turn.plain item (mem_append_left _ (mem_reverse.1 hi))
  rw [turn.reverse_items, cons_append, List.append_assoc, cons_append, List.append_assoc,
    singleton_append]
  -- the completion opens the segment
  have hcomplete : RolloutItem.isPlain (.eventMsg (.turnComplete turn.id)) = true := rfl
  have h₁ := h.step_segment rules newer (step_plain rules hcomplete newer)
  have hs₁ : SegmentOf turn.id false none .neverSet { turnId := some turn.id } :=
    ⟨rfl, rfl, rfl, rfl, rfl⟩
  obtain ⟨scan₂, newer₂, segment₂, hrun₂, h₂, hs₂⟩ := Reads.run_plain rules hafter h₁ hs₁
    (.turnContext turn.context :: (turn.before.reverse ++ .eventMsg (.turnStarted turn.id) :: older))
    (.eventMsg (.turnComplete turn.id) :: newer)
  -- the context is of this turn
  have h₃ := h₂.step_segment rules newer₂
    (show scan₂.step rules (.turnContext turn.context) newer₂ = _ from rfl)
  have hs₃ := hs₂.addContext turn.contextId
  rw [Bool.false_or, any_reverse] at hs₃
  obtain ⟨scan₄, newer₄, segment₄, hrun₄, h₄, hs₄⟩ := Reads.run_plain rules hbefore h₃ hs₃
    (.eventMsg (.turnStarted turn.id) :: older) (.turnContext turn.context :: newer₂)
  -- the start closes it
  have huser : (turn.after.any (·.isUserMessage rules) ||
      turn.before.reverse.any (·.isUserMessage rules)) = turn.isUser rules := by
    rw [Turn.isUser, any_append, any_reverse, Bool.or_comm]
  rw [huser] at hs₄
  have hclose : Reads suffix pending found none { scan₄ with activeSegment := none } :=
    ⟨h₄.pending, h₄.settings, h₄.reference, h₄.base, h₄.suffix, rfl⟩
  have hstart : scan₄.step rules (.eventMsg (.turnStarted turn.id)) newer₄ =
      { scan₄ with activeSegment := none }.finalize segment₄ := by
    have hcompatible : turnIdsAreCompatible segment₄.turnId (some turn.id) = true := by
      rw [hs₄.turnId]
      exact decide_eq_true rfl
    simp only [Scan.step, h₄.active, hcompatible, if_pos]
  have h₅ := hclose.finalize rules hs₄
  rw [← hstart] at h₅
  refine ⟨_, .eventMsg (.turnStarted turn.id) :: newer₄, ?_, h₅⟩
  rw [h₁.run_cons rules, hrun₂, h₃.run_cons rules, hrun₄, h₅.run_cons rules]

/-! ## A whole rollout -/

theorem reverse_rolloutOf (log : List (LogEntry Turn)) :
    (rolloutOf log).reverse = log.reverse.flatMap fun entry => (entryItems entry).reverse :=
  reverse_flatMap

/-- **The scan of a log, read newest entry first.** -/
theorem Reads.run_log {log : List (LogEntry Turn)}
    (hbound : log.countP (LogEntry.isCounting (Turn.isUser rules)) ≤ usizeMax)
    (h : Reads suffix pending found none scan) (newer : List RolloutItem) :
    ∃ pending' scan', scan.run rules (log.flatMap fun entry => (entryItems entry).reverse) newer =
        scan' ∧
      Reads suffix pending' (found.or (scanLog (Turn.isUser rules) log pending)) none scan' := by
  induction log generalizing pending found scan newer with
  | nil => exact ⟨pending, scan, rfl, by rwa [scanLog, Option.or_none]⟩
  | cons entry log ih =>
    rw [flatMap_cons]
    cases entry with
    | undo numTurns =>
      have hstep : Reads suffix (min (pending + numTurns) usizeMax) found none
          (scan.step rules (.eventMsg (.threadRolledBack numTurns)) newer) :=
        ⟨by rw [← h.pending]; rfl, h.settings, h.reference, h.base, h.suffix, h.active⟩
      rw [countP_cons_of_neg Bool.false_ne_true] at hbound
      obtain ⟨pending', scan', hrun, h'⟩ :=
        ih hbound hstep (.eventMsg (.threadRolledBack numTurns) :: newer)
      rw [scanLog_min hbound] at h'
      refine ⟨pending', scan', ?_, h'⟩
      rw [entryItems, reverse_singleton, singleton_append, hstep.run_cons rules, hrun]
    | push turn =>
      have hrest := ((sublist_cons_self _ log).countP_le).trans hbound
      obtain ⟨scan₁, newer₁, hrun₁, h₁⟩ := h.run_turn rules turn
        (log.flatMap fun entry => (entryItems entry).reverse) newer
      obtain ⟨pending', scan', hrun, h'⟩ := ih hrest h₁ newer₁
      have hfound : (afterTurn rules turn pending found).2.or
          (scanLog (Turn.isUser rules) log (afterTurn rules turn pending found).1) =
          found.or (scanLog (Turn.isUser rules) (.push turn :: log) pending) := by
        cases pending with
        | zero =>
          rw [scanLog, afterTurn, Option.or_assoc]
          cases turn.isUser rules <;> rfl
        | succ pending => rfl
      rw [hfound] at h'
      exact ⟨pending', scan', hrun₁.trans hrun, h'⟩

theorem length_le_rolloutOf (log : List (LogEntry Turn)) : log.length ≤ (rolloutOf log).length := by
  induction log with
  | nil => exact Nat.le_refl 0
  | cons entry log ih =>
    have hentry : 1 ≤ (entryItems entry).length := by
      cases entry with
      | undo numTurns => exact Nat.le_refl 1
      | push turn => exact Nat.le_add_left 1 _
    rw [rolloutOf, flatMap_cons, length_append, length_cons]
    rw [rolloutOf] at ih
    omega

theorem not_legacyCompaction {turn : Turn} (h : item ∈ turn.items) :
    item.isLegacyCompaction = false := by
  have hplain : item.isPlain = true → item.isLegacyCompaction = false := by
    intro hp
    cases item with
    | compacted compacted => cases hp
    | _ => rfl
  rcases mem_cons.1 h with rfl | h
  · rfl
  rcases mem_append.1 h with h | h
  · exact hplain (turn.plain item (mem_append_left _ h))
  rcases mem_cons.1 h with rfl | h
  · rfl
  rcases mem_append.1 h with h | h
  · exact hplain (turn.plain item (mem_append_right _ h))
  · rw [mem_singleton.1 h]
    rfl

theorem rolloutOf_no_compaction (log : List (LogEntry Turn)) :
    (rolloutOf log).any RolloutItem.isLegacyCompaction = false := by
  rw [any_eq_false]
  intro item hitem
  obtain ⟨entry, -, hentry⟩ := mem_flatMap.1 hitem
  cases entry with
  | undo numTurns =>
    rw [mem_singleton.1 hentry]
    exact Bool.false_ne_true
  | push turn =>
    rw [not_legacyCompaction hentry]
    exact Bool.false_ne_true

/-- **The scan finds the newest user turn that survives on the stack**, and its settings and its
context are what the reconstruction returns. A rollout is a slice, whose length is a `usize`. -/
theorem reconstruct_newest_survivor (log : List (LogEntry Turn))
    (hlen : (rolloutOf log).length ≤ usizeMax) :
    (reconstructHistoryFromRollout rules (rolloutOf log)).previousTurnSettings =
        ((stackOf (Turn.isUser rules) log).find? (Turn.isUser rules)).map Turn.settings ∧
      (reconstructHistoryFromRollout rules (rolloutOf log)).referenceContextItem =
        ((stackOf (Turn.isUser rules) log).find? (Turn.isUser rules)).map Turn.context := by
  have hbound : log.reverse.countP (LogEntry.isCounting (Turn.isUser rules)) ≤ usizeMax := by
    refine countP_le_length.trans ?_
    rw [length_reverse]
    exact (length_le_rolloutOf log).trans hlen
  have hstart : Reads (rolloutOf log) 0 none none { rolloutSuffix := rolloutOf log } :=
    ⟨rfl, rfl, rfl, rfl, rfl, rfl⟩
  obtain ⟨pending, scan, hrun, h⟩ := hstart.run_log rules hbound []
  rw [← reverse_rolloutOf] at hrun
  rw [scanLog_eq, popCounting_zero, Option.none_or] at h
  generalize (stackOf (Turn.isUser rules) log).find? (Turn.isUser rules) = survivor at h ⊢
  have hfinish : scan.finish = scan := by
    rw [Scan.finish, h.active]
  unfold reconstructHistoryFromRollout
  dsimp only
  rw [hrun, hfinish, h.suffix, rolloutOf_no_compaction, if_neg Bool.false_ne_true, h.reference]
  refine ⟨h.settings, ?_⟩
  cases survivor <;> rfl

/-- A user turn with the given name. -/
def sampleTurn (name : Str) : Turn where
  id := name
  before := []
  context := ⟨some name, name, none, none, []⟩
  after := [.eventMsg (.userMessage name)]
  contextId := rfl
  plain := by simp [RolloutItem.isPlain]

def sampleLog : List (LogEntry Turn) :=
  [.push (sampleTurn "first".toList), .push (sampleTurn "second".toList), .undo 1]

/-- Of two turns the first survives one rollback. -/
theorem first_turn_survives :
    (reconstructHistoryFromRollout plainRules (rolloutOf sampleLog)).previousTurnSettings =
        some (sampleTurn "first".toList).settings ∧
      (reconstructHistoryFromRollout plainRules (rolloutOf sampleLog)).referenceContextItem =
        some (sampleTurn "first".toList).context :=
  reconstruct_newest_survivor plainRules sampleLog (by decide +kernel)

end Codex.Rollout
