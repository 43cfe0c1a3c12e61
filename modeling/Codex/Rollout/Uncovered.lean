import Codex.Rollout.DropTurns

/-!
# What a lost checkpoint leaves to see

Where no checkpoint survives the rollbacks, the items after the newest one are replayed from nothing
instead of from its replacement history. Of a history its outline is kept: what stands ahead of the
first turn, which no rollback takes off, and the number of turns. The two replays meet exactly when the
rollbacks uncover what stands ahead of the first turn of the replacement history, and the items recorded
by then are the same (`reconstruct_eq_replay_iff`).
-/

namespace Codex.Rollout

open List

variable {rules : TextRules}

/-! ## Outlines -/

@[ext] structure Outline where
  /-- The items ahead of the first turn. -/
  front : List ResponseItem := []
  turns : ℕ := 0
  deriving DecidableEq

section

variable (rules)

def outline (items : List ResponseItem) : Outline where
  front := items.takeWhile fun item => !isUserTurnBoundary rules item
  turns := items.countP (isUserTurnBoundary rules)

def Outline.record (outline : Outline) (item : ResponseItem) : Outline :=
  if isUserTurnBoundary rules item then { outline with turns := outline.turns + 1 }
  else if isApiMessage item && outline.turns = 0 then
    { outline with front := outline.front ++ [processItem rules item] }
  else outline

/-- What an item other than a compaction does to an outline. -/
def Outline.step (outline : Outline) : RolloutItem → Outline
  | .responseItem item => outline.record rules item
  | .interAgentCommunication communication => outline.record rules communication.toModelInputItem
  | .eventMsg (.threadRolledBack numTurns) => { outline with turns := outline.turns - numTurns }
  | _ => outline

end

/-- The turns that a rollback takes off under those that were recorded. -/
def RolloutItem.reach (turns : ℕ) : RolloutItem → ℕ
  | .eventMsg (.threadRolledBack numTurns) => numTurns - turns
  | _ => 0

theorem front_eq_self {items : List ResponseItem} (h : (outline rules items).turns = 0) :
    (outline rules items).front = items := by
  refine takeWhile_eq_self_iff.2 fun item hitem => ?_
  have hnot := countP_eq_zero.1 h item hitem
  simpa using hnot

theorem outline_concat_boundary (items : List ResponseItem) {item : ResponseItem}
    (h : isUserTurnBoundary rules item = true) :
    outline rules (items ++ [item]) =
      { outline rules items with turns := (outline rules items).turns + 1 } := by
  unfold outline
  rw [countP_append, countP_singleton, if_pos h, takeWhile_append,
    takeWhile_cons_of_neg (by rw [h]; exact Bool.false_ne_true), append_nil]
  split
  · next hall => rw [List.IsPrefix.eq_of_length (List.takeWhile_prefix _) hall]
  · rfl

theorem outline_concat_other (items : List ResponseItem) {item : ResponseItem}
    (h : isUserTurnBoundary rules item = false) :
    outline rules (items ++ [item]) =
      if (outline rules items).turns = 0 then
        { outline rules items with front := (outline rules items).front ++ [item] }
      else outline rules items := by
  have hturns : (outline rules (items ++ [item])).turns = (outline rules items).turns := by
    simp [outline, h]
  split
  · next hnone =>
    refine Outline.ext ?_ hturns
    rw [front_eq_self (hturns.trans hnone), front_eq_self hnone]
  · next hsome =>
    refine Outline.ext (takeWhile_append.trans (if_neg fun hall => ?_)) hturns
    obtain ⟨boundary, hmem, hboundary⟩ := countP_pos_iff.1 (Nat.pos_of_ne_zero hsome)
    have hself := List.IsPrefix.eq_of_length (List.takeWhile_prefix _) hall
    have hnot := takeWhile_eq_self_iff.1 hself boundary hmem
    rw [hboundary] at hnot
    cases hnot

theorem outline_recordItem (history : ContextManager) (item : ResponseItem) :
    outline rules (history.recordItem rules item).items =
      (outline rules history.items).record rules item := by
  unfold ContextManager.recordItem Outline.record
  cases hboundary : isUserTurnBoundary rules item with
  | true =>
    rw [if_pos (isApiMessage_of_boundary hboundary), processItem_of_boundary hboundary, if_pos rfl]
    exact outline_concat_boundary _ hboundary
  | false =>
    rw [if_neg Bool.false_ne_true]
    cases hapi : isApiMessage item with
    | true =>
      refine (outline_concat_other history.items ?_).trans ?_
      · rw [isUserTurnBoundary_processItem, hboundary]
      · simp
    | false => rfl

/-- What starts with the first part of a list, and is a prefix of it, has the same first part. -/
theorem takeWhile_of_between {α : Type} {p : α → Bool} {l l' : List α} (hfirst : l.takeWhile p <+: l')
    (hprefixed : l' <+: l) : l'.takeWhile p = l.takeWhile p := by
  obtain ⟨s, rfl⟩ := hfirst
  obtain ⟨t, ht⟩ := hprefixed
  have hall : ∀ a ∈ l.takeWhile p, p a = true := fun a ha => mem_takeWhile_imp ha
  rw [takeWhile_append_of_pos hall]
  cases s with
  | nil => exact append_nil _
  | cons a s =>
    have hnil : ((a :: s) ++ t).takeWhile p = [] := by
      have hsplit := congrArg (List.takeWhile p) ht
      rw [List.append_assoc, takeWhile_append_of_pos hall] at hsplit
      exact append_right_eq_self.1 hsplit
    have hfalse : ¬ p a = true := by
      intro ha
      rw [cons_append, takeWhile_cons_of_pos ha] at hnil
      cases hnil
    rw [takeWhile_cons_of_neg hfalse, append_nil]

/-- A rollback takes turns off, and never what stands ahead of the first. -/
theorem outline_dropLastNUserTurns (history : ContextManager) (numTurns : ℕ) :
    outline rules (history.dropLastNUserTurns rules numTurns).items =
      { outline rules history.items with turns := (outline rules history.items).turns - numTurns } := by
  obtain ⟨-, hprefixed, hfront, hturns⟩ := dropLastNUserTurns_add rules history 0 numTurns
  rw [dropLastNUserTurns_zero] at hprefixed hfront hturns
  rw [Nat.zero_add] at hturns
  exact Outline.ext (takeWhile_of_between hfront hprefixed) hturns

theorem outline_replayItem (history : ContextManager) {item : RolloutItem}
    (h : item.isCompacted = false) :
    outline rules (history.replayItem rules item).items =
      (outline rules history.items).step rules item := by
  cases item with
  | responseItem item => exact outline_recordItem history item
  | interAgentCommunication communication => exact outline_recordItem history _
  | compacted => cases h
  | eventMsg event =>
    cases event with
    | threadRolledBack numTurns => exact outline_dropLastNUserTurns history numTurns
    | _ => rfl
  | _ => rfl

variable (rules) in
/-- A rollback of all turns leaves what stands ahead of the first. -/
theorem dropLastNUserTurns_all (history : ContextManager) (numTurns : ℕ) (hpos : 0 < numTurns)
    (hall : (outline rules history.items).turns ≤ numTurns) :
    (history.dropLastNUserTurns rules numTurns).items = (outline rules history.items).front := by
  have hlength : (userMessagePositions rules history.items).length =
      (outline rules history.items).turns := length_findIdxs
  cases hpositions : userMessagePositions rules history.items with
  | nil =>
    rw [hpositions] at hlength
    rw [dropLastNUserTurns_nil history numTurns hpositions, front_eq_self hlength.symm]
  | cons first rest =>
    rw [hpositions] at hlength
    rw [dropLastNUserTurns_cons history hpos hpositions, boundaryCut, if_pos (hlength ▸ hall),
      trimPreTurnContextUpdates_first]
    exact (takeWhile_eq_take_first hpositions).symm

/-! ## Two replays of the same items -/

/-- Both histories have the same turns, and the same items ahead of the first but for the start. -/
structure Abreast (start start' : List ResponseItem) (o o' : Outline) : Prop where
  turns : o.turns = o'.turns
  front : ∃ added, o.front = start ++ added ∧ o'.front = start' ++ added

theorem Abreast.record {start start' : List ResponseItem} {o o' : Outline}
    (h : Abreast start start' o o') (item : ResponseItem) :
    Abreast start start' (o.record rules item) (o'.record rules item) := by
  have hturns := h.turns
  unfold Outline.record
  split
  · exact ⟨congrArg (· + 1) hturns, h.front⟩
  · rw [← hturns]
    split
    · rw [hturns]
      obtain ⟨added, hfront, hfront'⟩ := h.front
      refine ⟨rfl, added ++ [processItem rules item], ?_, ?_⟩
      · rw [← List.append_assoc, ← hfront]
      · rw [← List.append_assoc, ← hfront']
    · exact h

theorem Abreast.step {start start' : List ResponseItem} {o o' : Outline}
    (h : Abreast start start' o o') (item : RolloutItem) :
    Abreast start start' (o.step rules item) (o'.step rules item) := by
  cases item with
  | responseItem item => exact h.record item
  | interAgentCommunication communication => exact h.record _
  | eventMsg event =>
    cases event with
    | threadRolledBack numTurns => exact ⟨congrArg (· - numTurns) h.turns, h.front⟩
    | _ => exact h
  | _ => exact h

/-- Histories that differ ahead of their turns stay different. -/
theorem Abreast.replay {start start' : List ResponseItem} {a b : ContextManager}
    {items : List RolloutItem} (h : Abreast start start' (outline rules a.items) (outline rules b.items))
    (hitems : ∀ item ∈ items, item.isCompacted = false)
    (heq : (a.replay rules items).items = (b.replay rules items).items) : start = start' := by
  induction items generalizing a b with
  | nil =>
    obtain ⟨added, hfront, hfront'⟩ := h.front
    have heq : a.items = b.items := heq
    rw [heq, hfront'] at hfront
    exact (append_cancel_right hfront).symm
  | cons item items ih =>
    have hitem := hitems item mem_cons_self
    refine ih ?_ (fun i hi => hitems i (mem_cons_of_mem _ hi)) heq
    rw [outline_replayItem a hitem, outline_replayItem b hitem]
    exact h.step item

/-! ## Uncovering -/

section

variable (rules)

/-- The items recorded ahead of the turns of `recorded` when the rollbacks have taken off the `below`
turns under these, if no compaction comes before. -/
def uncovered (below : ℕ) (recorded : Outline) : List RolloutItem → Option (List ResponseItem)
  | [] => if below = 0 then some recorded.front else none
  | item :: rest =>
    if below = 0 then some recorded.front
    else if item.isCompacted then none
    else uncovered (below - item.reach recorded.turns) (recorded.step rules item) rest

end

theorem Outline.record_over {o o' : Outline} {below : ℕ} (hbelow : below ≠ 0)
    (hturns : o.turns = below + o'.turns) (item : ResponseItem) :
    (o.record rules item).turns = below + (o'.record rules item).turns ∧
      (o.record rules item).front = o.front := by
  have hsome : ¬ o.turns = 0 := by omega
  have hrecord : (o'.record rules item).turns =
      if isUserTurnBoundary rules item then o'.turns + 1 else o'.turns := by
    unfold Outline.record
    split
    · rfl
    · split
      · rfl
      · rfl
  rw [hrecord]
  unfold Outline.record
  split
  · exact ⟨congrArg (· + 1) hturns, rfl⟩
  · simp only [hsome, decide_false, Bool.and_false]
    exact ⟨hturns, rfl⟩

variable (rules) in
/-- Over turns that stand, items are recorded and rolled back as over none. -/
theorem Outline.step_over {o o' : Outline} {below : ℕ} (hbelow : below ≠ 0)
    (hturns : o.turns = below + o'.turns) (item : RolloutItem) :
    (o.step rules item).turns =
        below - item.reach o'.turns + (o'.step rules item).turns ∧
      (o.step rules item).front = o.front := by
  cases item with
  | responseItem item => exact record_over hbelow hturns item
  | interAgentCommunication communication => exact record_over hbelow hturns _
  | eventMsg event =>
    cases event with
    | threadRolledBack numTurns =>
      refine ⟨?_, rfl⟩
      show o.turns - numTurns = below - (numTurns - o'.turns) + (o'.turns - numTurns)
      omega
    | _ => exact ⟨hturns, rfl⟩
  | _ => exact ⟨hturns, rfl⟩

variable (rules) in
/-- `a` has `below` turns more than `b`, over which `start` stands. -/
structure Covers (start : List ResponseItem) (below : ℕ) (a b : ContextManager) : Prop where
  turns : (outline rules a.items).turns = below + (outline rules b.items).turns
  front : (outline rules a.items).front = start
  bare : below = 0 → a.items = start ∧ b.items = (outline rules b.items).front

section Covers

variable {start : List ResponseItem} {below : ℕ} {a b : ContextManager} {items : List RolloutItem}

theorem Covers.step (h : Covers rules start below a b) (hbelow : below ≠ 0) {item : RolloutItem}
    (hitem : item.isCompacted = false) :
    Covers rules start (below - item.reach (outline rules b.items).turns)
      (a.replayItem rules item) (b.replayItem rules item) := by
  obtain ⟨hturns, hfront⟩ := Outline.step_over rules hbelow h.turns item
  rw [← outline_replayItem a hitem, ← outline_replayItem b hitem] at hturns
  rw [← outline_replayItem a hitem, h.front] at hfront
  refine ⟨hturns, hfront, fun hbare => ?_⟩
  have hall := h.turns
  cases item with
  | eventMsg event =>
    cases event with
    | threadRolledBack numTurns =>
      -- the rollback reaches through the turns of both
      have hnum : below - (numTurns - (outline rules b.items).turns) = 0 := hbare
      have ha := dropLastNUserTurns_all rules a numTurns (by omega) (by omega)
      have hb := dropLastNUserTurns_all rules b numTurns (by omega) (by omega)
      rw [h.front] at ha
      refine ⟨ha, ?_⟩
      rw [outline_replayItem b hitem]
      exact hb
    | _ => exact absurd hbare hbelow
  | _ => exact absurd hbare hbelow

theorem Covers.eq_of_uncovered (h : Covers rules start below a b)
    (huncovered : uncovered rules below (outline rules b.items) items = some start) :
    (a.replay rules items).items = (b.replay rules items).items := by
  have hmeet : below = 0 → (outline rules b.items).front = start → a.items = b.items := by
    intro hbelow hfront
    obtain ⟨ha, hb⟩ := h.bare hbelow
    rw [ha, hb, hfront]
  induction items generalizing below a b with
  | nil =>
    rw [uncovered] at huncovered
    split at huncovered
    · next hbelow => exact replay_items (hmeet hbelow (Option.some_inj.1 huncovered)) []
    · cases huncovered
  | cons item items ih =>
    rw [uncovered] at huncovered
    split at huncovered
    · next hbelow => exact replay_items (hmeet hbelow (Option.some_inj.1 huncovered)) _
    · next hbelow =>
      split at huncovered
      · cases huncovered
      · next hitem =>
        have hitem := Bool.eq_false_iff.2 hitem
        rw [← outline_replayItem b hitem] at huncovered
        have hstep := h.step hbelow hitem
        refine ih hstep huncovered ?_
        intro hzero hfront
        obtain ⟨ha, hb⟩ := hstep.bare hzero
        rw [ha, hb, hfront]

/-- Where the turns are gone, replays without a compaction meet only if the same stands ahead of them. -/
theorem Covers.front_eq (h : Covers rules start 0 a b)
    (hitems : ∀ item ∈ items, item.isCompacted = false)
    (heq : (a.replay rules items).items = (b.replay rules items).items) :
    (outline rules b.items).front = start := by
  have hturns := h.turns
  rw [Nat.zero_add] at hturns
  have habreast : Abreast start (outline rules b.items).front (outline rules a.items)
      (outline rules b.items) := by
    refine ⟨hturns, [], ?_, (append_nil _).symm⟩
    rw [append_nil, h.front]
  exact (habreast.replay hitems heq).symm

theorem Covers.uncovered_of_eq (h : Covers rules start below a b)
    (hitems : ∀ item ∈ items, item.isCompacted = false)
    (heq : (a.replay rules items).items = (b.replay rules items).items) :
    uncovered rules below (outline rules b.items) items = some start := by
  induction items generalizing below a b with
  | nil =>
    have heq : a.items = b.items := heq
    have hturns := h.turns
    rw [heq] at hturns
    obtain rfl : below = 0 := by omega
    rw [uncovered, if_pos rfl, h.front_eq hitems heq]
  | cons item items ih =>
    rw [uncovered]
    by_cases hbelow : below = 0
    · subst hbelow
      rw [if_pos rfl, h.front_eq hitems heq]
    · have hitem := hitems item mem_cons_self
      rw [if_neg hbelow, if_neg (Bool.eq_false_iff.1 hitem), ← outline_replayItem b hitem]
      exact ih (h.step hbelow hitem) (fun i hi => hitems i (mem_cons_of_mem _ hi)) heq

/-- A replacement history stands over nothing. -/
theorem covers_base (base : List ResponseItem) :
    Covers rules (outline rules base).front (outline rules base).turns (ContextManager.replace {} base)
      {} :=
  ⟨rfl, rfl, fun hnone => ⟨(front_eq_self hnone).symm, rfl⟩⟩

end Covers

/-! ## The comparison -/

section

variable (rules) (rolloutItems : List RolloutItem)

/-- The rollbacks after the newest replacement history uncover what it starts with. -/
def Uncovers : Prop :=
  ∀ base rest, newestCheckpoint rolloutItems = some (base, rest) →
    uncovered rules (outline rules base).turns {} rest = some (outline rules base).front

/-- What a reconstruction needs: a checkpoint that survives the rollbacks, or two segments that hold
one, or rollbacks that uncover the start of the newest. -/
def Reconstructible : Prop :=
  (∃ c ∈ checkpoints rules rolloutItems, c.2 = true) ∨
    2 ≤ (checkpoints rules rolloutItems).length ∨ Uncovers rules rolloutItems

/-- No compaction follows the newest replacement history. -/
def EndsWithCheckpoint : Prop :=
  ∀ base rest, newestCheckpoint rolloutItems = some (base, rest) →
    ∀ item ∈ rest, item.isCompacted = false

end

/-- **The reconstructed history is that of the plain replay where the rollout is reconstructible**, and
only there, if no compaction follows the newest replacement history. -/
theorem reconstruct_eq_replay_iff (rules : TextRules) (rolloutItems : List RolloutItem) :
    (Reconstructible rules rolloutItems →
      (reconstructHistoryFromRollout rules rolloutItems).history =
        (ContextManager.replay rules {} rolloutItems).items) ∧
    (EndsWithCheckpoint rolloutItems →
      ((reconstructHistoryFromRollout rules rolloutItems).history =
          (ContextManager.replay rules {} rolloutItems).items ↔
        Reconstructible rules rolloutItems)) := by
  rw [reconstruct_history_iff]
  have hmeets : Uncovers rules rolloutItems → ∀ base rest,
      newestCheckpoint rolloutItems = some (base, rest) →
        (ContextManager.replay rules (ContextManager.replace {} base) rest).items =
          (ContextManager.replay rules {} rest).items :=
    fun h base rest hnewest => (covers_base base).eq_of_uncovered (h base rest hnewest)
  refine ⟨Or.imp_right (Or.imp_right hmeets), fun hends => ?_⟩
  refine ⟨Or.imp_right (Or.imp_right fun h base rest hnewest => ?_), Or.imp_right (Or.imp_right hmeets)⟩
  exact (covers_base base).uncovered_of_eq (hends base rest hnewest) (h base rest hnewest)

/-! ## A checkpoint in a turn that is rolled back -/

def firstMessage : ResponseItem := userMessage "first".toList none

def secondMessage : ResponseItem := userMessage "second".toList none

/-- A turn that compacts the history of two messages, and is rolled back. -/
def rolledBackCompaction : List RolloutItem :=
  [.eventMsg (.turnStarted "turn".toList), .responseItem secondMessage,
    .compacted ⟨[], some [firstMessage, secondMessage], none, none, none, none⟩,
    .eventMsg (.turnComplete "turn".toList), .eventMsg (.threadRolledBack 1)]

/-- The first message survives the rollback, but the reconstruction starts from nothing. -/
theorem reconstruct_loses_history :
    (ContextManager.replay plainRules {} rolledBackCompaction).items = [firstMessage] ∧
      (reconstructHistoryFromRollout plainRules rolledBackCompaction).history = [] ∧
      ¬ (reconstructHistoryFromRollout plainRules rolledBackCompaction).history =
        (ContextManager.replay plainRules {} rolledBackCompaction).items := by
  decide +kernel

end Codex.Rollout
