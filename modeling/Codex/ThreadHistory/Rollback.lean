import Codex.Base.BlockStack
import Codex.Rollout.Boundaries
import Codex.ThreadHistory.Messages

/-!
# Rollbacks in the thread and in the context

`build_turns_from_rollout_items` and `reconstruct_history_from_rollout` read the
same rollout. A rollback of `n` takes `n` turns off the thread and `n` instruction
boundaries off the history. Over whole turns, the thread is the stack of blocks and
the history the stack of their elements (`Codex.Base.BlockStack`): they show the
same messages of the user as long as every rollback finds `n` boundaries in the
last `n` turns, and every other item leaves the messages where they are
(`rollbacks_agree`).
-/

namespace Codex.ThreadHistory

open List Codex.Text Codex.Rollout

/-! ## One rollout, two readers -/

/-- The event, for a replay. -/
def EventMsg.forReplay : EventMsg → Rollout.EventMsg
  | .threadRolledBack numTurns => .threadRolledBack numTurns
  | .turnStarted turnId _ => .turnStarted turnId
  | .turnComplete turnId _ _ => .turnComplete turnId
  | .turnAborted turnId _ _ => .turnAborted turnId
  | .userMessage content => .userMessage content
  | _ => .other []

/-- The rollout item, for a replay. -/
def RolloutItem.forReplay : RolloutItem → Rollout.RolloutItem
  | .eventMsg event => .eventMsg event.forReplay
  | .compacted item => .compacted item
  | .responseItem item => .responseItem item
  | .interAgentCommunication communication => .interAgentCommunication communication
  | .interAgentCommunicationMetadata triggerTurn => .interAgentCommunicationMetadata triggerTurn
  | .turnContext item => .turnContext item
  | .worldState item => .worldState item
  | .sessionMeta windowId rest => .sessionMeta windowId rest

variable (rules : TextRules)

/-- The instruction boundaries that the items add to a history. -/
def instructions (entries : List ReadItem) : List ResponseItem :=
  entries.filterMap fun entry => entry.item.forReplay.boundary? rules

/-- A turn that is recorded from its start to its completion. Messages of the user are recorded as
response items and, in the same order, as the events that show them. -/
structure RecordedTurn (shown : ResponseItem → Carried) where
  id : Str
  startedAt : Option Int := none
  items : List ReadItem
  completedAt : Option Int := none
  durationMs : Option Int := none
  inner : ∀ entry ∈ items, entry.item.isInner = true
  paired : items.filterMap (fun entry => entry.item.userMessage?) =
    ((instructions rules items).filter (isUserMessageItem rules)).map shown

variable {rules} {shown : ResponseItem → Carried}

/-- The rollout items of a turn, or of a rollback. -/
def entryItems : LogEntry (RecordedTurn rules shown) → List ReadItem
  | .push turn => .ofEvent (.turnStarted turn.id turn.startedAt) :: (turn.items ++
      [.ofEvent (.turnComplete turn.id turn.completedAt turn.durationMs)])
  | .undo numTurns => [.ofEvent (.threadRolledBack numTurns)]

def rolloutOf (log : List (LogEntry (RecordedTurn rules shown))) : List ReadItem :=
  log.flatMap entryItems

/-- The rollout, for a replay. -/
def replayOf (entries : List ReadItem) : List Rollout.RolloutItem :=
  entries.map fun entry => entry.item.forReplay

/-- The log with the boundaries of each turn. -/
def entryInstructions : LogEntry (RecordedTurn rules shown) → LogEntry (List ResponseItem)
  | .push turn => .push (instructions rules turn.items)
  | .undo numTurns => .undo numTurns

def instructionLog (log : List (LogEntry (RecordedTurn rules shown))) :
    List (LogEntry (List ResponseItem)) :=
  log.map entryInstructions

/-- The messages of the user in the thread. -/
def displayedMessages (log : List (LogEntry (RecordedTurn rules shown))) : List Carried :=
  (buildTurnsFromRolloutItems (rolloutOf log)).flatMap Turn.messages

/-- The messages of the user in the history. -/
def contextMessages (log : List (LogEntry (RecordedTurn rules shown))) : List ResponseItem :=
  (reconstructHistoryFromRollout rules (replayOf (rolloutOf log))).history.filter
    (isUserMessageItem rules)

def MessagesAgree (log : List (LogEntry (RecordedTurn rules shown))) : Prop :=
  displayedMessages log = (contextMessages log).map shown

/-! ## The thread keeps blocks -/

/-- What a turn with these boundaries shows. -/
def shownOf (rules : TextRules) (shown : ResponseItem → Carried) (block : List ResponseItem) :
    List Carried :=
  (block.filter (isUserMessageItem rules)).map shown

variable {log : List (LogEntry (RecordedTurn rules shown))}

theorem rolloutOf_concat (entry : LogEntry (RecordedTurn rules shown)) :
    rolloutOf (log ++ [entry]) = rolloutOf log ++ entryItems entry := by
  simp [rolloutOf]

theorem instructionLog_concat (entry : LogEntry (RecordedTurn rules shown)) :
    instructionLog (log ++ [entry]) = instructionLog log ++ [entryInstructions entry] := by
  simp [instructionLog]

/-- In every step of the rollout the user messages are left where they are. -/
def Undisturbed (log : List (LogEntry (RecordedTurn rules shown))) : Prop :=
  Machine.AllMeet Builder.readStep Builder.LeavesMessages {} (rolloutOf log)

theorem Between.entry {b : Builder} {blocks : List (List ResponseItem)}
    (h : Between (blocks.map (shownOf rules shown)) b)
    (entry : LogEntry (RecordedTurn rules shown))
    (hleaves : Machine.AllMeet Builder.readStep Builder.LeavesMessages b (entryItems entry)) :
    Between ((blockStep blocks (entryInstructions entry)).map (shownOf rules shown))
      (b.readItems (entryItems entry)) := by
  cases entry with
  | push turn =>
    have hstart := h.turnStarted turn.id turn.startedAt
    have hinside := (Machine.allMeet_cons.1 hleaves).2 _ rfl
    have hitems := hstart.readItems turn.inner (Builder.allMeet_append.1 hinside).1
    have hdone := hitems.turnComplete turn.completedAt turn.durationMs
    rw [nil_append, turn.paired] at hdone
    simpa [Builder.readItems, entryItems, blockStep, entryInstructions, shownOf] using hdone
  | undo numTurns =>
    have hback := h.rolledBack numTurns
    simpa [Builder.readItems, entryItems, blockStep, entryInstructions] using hback

theorem between_rolloutOf (h : Undisturbed log) :
    Between ((blocksOf (instructionLog log)).map (shownOf rules shown))
      (Builder.readItems {} (rolloutOf log)) := by
  unfold Undisturbed at h
  induction log using List.reverseRecOn with
  | nil => exact between_empty
  | append_singleton log entry ih =>
    rw [rolloutOf_concat, Builder.allMeet_append] at h
    rw [instructionLog_concat, blocksOf_concat, rolloutOf_concat, Builder.readItems_append]
    exact (ih h.1).entry entry h.2

theorem displayedMessages_eq (h : Undisturbed log) :
    displayedMessages log = shownOf rules shown (blocksOf (instructionLog log)).flatten := by
  have hfinish := (between_rolloutOf h).finish
  rw [displayedMessages, buildTurnsFromRolloutItems, flatMap_def, hfinish]
  simp only [shownOf, filter_flatten, map_flatten, map_map]
  rfl

/-! ## The history keeps boundaries -/

theorem forReplay_additive {item : RolloutItem} (h : item.isInner = true) :
    item.forReplay.isAdditive = true := by
  cases item with
  | compacted => cases h
  | eventMsg event =>
    cases event with
    | threadRolledBack => cases h
    | _ => rfl
  | _ => rfl

theorem boundaries_entry (history : ContextManager) (entry : LogEntry (RecordedTurn rules shown)) :
    boundaries rules (history.replay rules (replayOf (entryItems entry))).items =
      flatStep (boundaries rules history.items) (entryInstructions entry) := by
  cases entry with
  | push turn =>
    have hadditive : ∀ item ∈ replayOf (entryItems (.push turn)), item.isAdditive = true := by
      simp only [replayOf, entryItems, map_cons, map_append, mem_cons,
        mem_append, mem_map, map_nil, not_mem_nil, or_false]
      rintro item (rfl | ⟨inner, hinner, rfl⟩ | rfl)
      · rfl
      · exact forReplay_additive (turn.inner inner hinner)
      · rfl
    rw [boundaries_replay history hadditive]
    have hedges : (replayOf (entryItems (.push turn))).filterMap
        (Rollout.RolloutItem.boundary? rules) = instructions rules turn.items := by
      rw [replayOf, filterMap_map]
      simp [entryItems, instructions, Function.comp_def, RolloutItem.forReplay, EventMsg.forReplay,
        Rollout.RolloutItem.boundary?, ReadItem.ofEvent]
    rw [hedges]
    rfl
  | undo numTurns => exact boundaries_dropLastNUserTurns history numTurns

theorem boundaries_rolloutOf (log : List (LogEntry (RecordedTurn rules shown))) :
    boundaries rules (ContextManager.replay rules {} (replayOf (rolloutOf log))).items =
      flatOf (instructionLog log) := by
  induction log using List.reverseRecOn with
  | nil => rfl
  | append_singleton log entry ih =>
    rw [instructionLog_concat, flatOf_concat, rolloutOf_concat, replayOf, map_append,
      replay_append]
    exact (boundaries_entry _ entry).trans (congrArg (flatStep · _) ih)

theorem forReplay_replacement {entry : LogEntry (RecordedTurn rules shown)} {read : ReadItem}
    (h : read ∈ entryItems entry) : read.item.forReplay.replacement? = none := by
  cases entry with
  | undo numTurns =>
    rw [mem_singleton.1 h]
    rfl
  | push turn =>
    rcases mem_cons.1 h with rfl | h
    · rfl
    · rcases mem_append.1 h with h | h
      · have hinner := turn.inner read h
        cases hitem : read.item with
        | compacted =>
          rw [hitem] at hinner
          cases hinner
        | _ => rfl
      · rw [mem_singleton.1 h]
        rfl

theorem filter_boundaries (items : List ResponseItem) :
    (boundaries rules items).filter (isUserMessageItem rules) =
      items.filter (isUserMessageItem rules) := by
  rw [boundaries, filter_filter]
  refine filter_congr fun item _ => ?_
  cases huser : isUserMessageItem rules item with
  | false => rfl
  | true => rw [isUserTurnBoundary_of_userMessage huser, Bool.and_self]

theorem contextMessages_eq :
    (contextMessages log).map shown = shownOf rules shown (flatOf (instructionLog log)) := by
  have hplain : ∀ item ∈ replayOf (rolloutOf log), item.replacement? = none := by
    intro item hitem
    obtain ⟨original, horiginal, rfl⟩ := mem_map.1 hitem
    obtain ⟨entry, -, hentry⟩ := mem_flatMap.1 horiginal
    exact forReplay_replacement hentry
  rw [shownOf, contextMessages, reconstruct_uncompacted hplain, ← filter_boundaries,
    boundaries_rolloutOf]

/-! ## Agreement -/

theorem length_shownOf {block : List ResponseItem}
    (h : ∀ item ∈ block, isUserMessageItem rules item = true) :
    (shownOf rules shown block).length = block.length := by
  rw [shownOf, length_map, filter_eq_self.2 h]

theorem messagesAgree_iff (h : Undisturbed log) :
    MessagesAgree log ↔
      shownOf rules shown (blocksOf (instructionLog log)).flatten =
        shownOf rules shown (flatOf (instructionLog log)) := by
  rw [MessagesAgree, displayedMessages_eq h, contextMessages_eq]

theorem Undisturbed.mono {init : List (LogEntry (RecordedTurn rules shown))} (h : Undisturbed log)
    (hinit : init <+: log) : Undisturbed init := by
  obtain ⟨rest, rfl⟩ := hinit
  unfold Undisturbed rolloutOf at h
  rw [flatMap_append] at h
  exact h.of_append

/-- **Thread and context agree on rollbacks as long as every rollback of `n` finds `n` instruction
boundaries in the last `n` turns, or all there are**, and the other items leave the user messages where
they are. Where all boundaries are messages of the user they agree no longer than that. -/
theorem rollbacks_agree (log : List (LogEntry (RecordedTurn rules shown))) :
    (Undisturbed log → WholeBlocks (instructionLog log) →
      ∀ init, init <+: log → MessagesAgree init) ∧
    (Undisturbed log →
      (∀ turn, .push turn ∈ log →
        ∀ boundary ∈ instructions rules turn.items, isUserMessageItem rules boundary = true) →
      (∀ init, init <+: log → MessagesAgree init) → WholeBlocks (instructionLog log)) := by
  refine ⟨fun hleaves hwhole init hinit => ?_, fun hleaves husers hagree => ?_⟩
  · have hblocks : instructionLog init <+: instructionLog log := hinit.map entryInstructions
    rw [messagesAgree_iff (hleaves.mono hinit), flatOf_eq (hwhole.mono hblocks)]
  · refine agree_iff_wholeBlocks.1 fun blocks hblocks => ?_
    obtain ⟨init, hinit, rfl⟩ := prefix_map_iff.1 hblocks
    have hpushed {block : List ResponseItem} (hblock : .push block ∈ instructionLog init) :
        ∀ item ∈ block, isUserMessageItem rules item = true := by
      obtain ⟨entry, hentry, heq⟩ := mem_map.1 hblock
      cases entry with
      | undo n => cases heq
      | push turn =>
        cases heq
        exact husers turn (hinit.subset hentry)
    have hlengths := congrArg List.length
      ((messagesAgree_iff (hleaves.mono hinit)).1 (hagree init hinit))
    rw [length_shownOf, length_shownOf] at hlengths
    · exact hlengths.symm
    · intro item hitem
      obtain ⟨block, hblock, hmem⟩ := mem_flatOf hitem
      exact hpushed hblock item hmem
    · intro item hitem
      obtain ⟨block, hblock, hmem⟩ := mem_flatten.1 hitem
      exact hpushed (mem_blocksOf hblock) item hmem

/-! ## A turn with two messages -/

/-- The text of a message, as its event shows it. -/
def messageText : ResponseItem → Carried
  | .message _ _ [.inputText text] _ _ => text
  | _ => []

/-- A turn that the user steers with a second message. -/
def steeredTurn : RecordedTurn plainRules messageText where
  id := "a".toList
  items :=
    [.responseItem (userMessage "one".toList none), .eventMsg (.userMessage "one".toList),
      .responseItem (userMessage "two".toList none), .eventMsg (.userMessage "two".toList)].map
        (ReadItem.mk fun _ _ => none)
  inner := by decide
  paired := by decide

/-- The thread has lost the turn, the history only its second message. -/
theorem steered_turn_disagrees : ¬ MessagesAgree [.push steeredTurn, .undo 1] := by
  unfold MessagesAgree
  decide +kernel

end Codex.ThreadHistory
