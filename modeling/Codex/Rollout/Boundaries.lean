import Codex.Rollout.ReplayAgreement

/-!
# Turn boundaries of a history

A history is cut at its instruction boundaries: messages of the user and of other
agents. A replay without compactions appends the boundaries of its items
(`boundaries_replay`), and a rollback of `n` takes the newest `n` boundaries off,
whatever it trims in front of them (`boundaries_dropLastNUserTurns`).
-/

namespace Codex.Rollout

open List Codex.Text

variable (rules : TextRules)

def boundaries (items : List ResponseItem) : List ResponseItem :=
  items.filter (isUserTurnBoundary rules)

/-- A message of the user, as opposed to one of another agent. -/
def isUserMessageItem : ResponseItem → Bool
  | .message _ role content _ _ => role = userRole && !isContextualUserMessageContent rules content
  | _ => false

/-- The boundary that the item adds to a history. -/
def RolloutItem.boundary? : RolloutItem → Option ResponseItem
  | .responseItem item => if isUserTurnBoundary rules item then some item else none
  | .interAgentCommunication communication => some communication.toModelInputItem
  | _ => none

/-- An item that only adds to a history. -/
def RolloutItem.isAdditive : RolloutItem → Bool
  | .compacted _ | .eventMsg (.threadRolledBack _) => false
  | _ => true

variable {rules}

theorem isUserTurnBoundary_of_userMessage {item : ResponseItem}
    (h : isUserMessageItem rules item = true) : isUserTurnBoundary rules item = true := by
  cases item with
  | message id role content phase metadata =>
    simp only [isUserMessageItem, isUserTurnBoundary] at h ⊢
    rw [h, Bool.true_or]
  | _ => cases h

/-! ## Replay -/

theorem isApiMessage_of_boundary {item : ResponseItem}
    (h : isUserTurnBoundary rules item = true) : isApiMessage item = true := by
  cases item with
  | message id role content phase metadata =>
    have hrole : role ≠ systemRole := by
      rintro rfl
      simp [isUserTurnBoundary, show systemRole ≠ userRole by decide,
        show systemRole ≠ assistantRole by decide] at h
    simp [isApiMessage, hrole]
  | compactionTrigger | other => cases h
  | _ => rfl

theorem isUserTurnBoundary_processItem (item : ResponseItem) :
    isUserTurnBoundary rules (processItem rules item) = isUserTurnBoundary rules item := by
  cases item <;> rfl

theorem processItem_of_boundary {item : ResponseItem}
    (h : isUserTurnBoundary rules item = true) : processItem rules item = item := by
  cases item with
  | functionCallOutput | customToolCallOutput => cases h
  | _ => rfl

theorem boundaries_recordItem (history : ContextManager) (item : ResponseItem) :
    boundaries rules (history.recordItem rules item).items =
      boundaries rules history.items ++
        (if isUserTurnBoundary rules item then [item] else []) := by
  unfold ContextManager.recordItem
  by_cases hboundary : isUserTurnBoundary rules item = true
  · rw [if_pos (isApiMessage_of_boundary hboundary), processItem_of_boundary hboundary]
    simp [boundaries, hboundary]
  · rw [if_neg hboundary, append_nil]
    split
    · simp [boundaries, hboundary, isUserTurnBoundary_processItem]
    · rfl

theorem boundaries_replayItem (history : ContextManager) {item : RolloutItem}
    (h : item.isAdditive = true) :
    boundaries rules (history.replayItem rules item).items =
      boundaries rules history.items ++ (item.boundary? rules).toList := by
  cases item with
  | responseItem item =>
    rw [ContextManager.replayItem, boundaries_recordItem, RolloutItem.boundary?]
    split
    · rfl
    · rfl
  | interAgentCommunication communication =>
    rw [ContextManager.replayItem, boundaries_recordItem, RolloutItem.boundary?]
    rfl
  | compacted => cases h
  | eventMsg event =>
    cases event with
    | threadRolledBack => cases h
    | _ => exact (append_nil _).symm
  | _ => exact (append_nil _).symm

theorem boundaries_replay (history : ContextManager) {items : List RolloutItem}
    (h : ∀ item ∈ items, item.isAdditive = true) :
    boundaries rules (history.replay rules items).items =
      boundaries rules history.items ++ items.filterMap (RolloutItem.boundary? rules) := by
  induction items generalizing history with
  | nil => exact (append_nil _).symm
  | cons item items ih =>
    have hrest := ih (history.replayItem rules item) fun i hi => h i (mem_cons_of_mem _ hi)
    rw [boundaries_replayItem history (h item mem_cons_self)] at hrest
    refine Eq.trans hrest ?_
    cases hboundary : item.boundary? rules with
    | none => simp [hboundary]
    | some boundary => simp [hboundary]

/-- Without replacement histories the reconstructed history is the replay of the whole rollout. -/
theorem reconstruct_uncompacted {rolloutItems : List RolloutItem}
    (h : ∀ item ∈ rolloutItems, item.replacement? = none) :
    (reconstructHistoryFromRollout rules rolloutItems).history =
      (ContextManager.replay rules {} rolloutItems).items := by
  obtain ⟨finished, pre, newer, hsplit, hsuffix, hbase, -, -⟩ := finish_tracks rules rolloutItems
  have hnil : finished = [] := by
    by_contra hne
    obtain ⟨item, hitem, hreplaces⟩ := hsuffix.exists_newer (by simpa using hne)
    refine hreplaces (h item ?_)
    rw [hsplit]
    exact mem_append_right _ hitem
  subst hnil
  unfold reconstructHistoryFromRollout
  dsimp only at hbase hsuffix ⊢
  rw [hbase, hsuffix.1]
  rfl

/-! ## Rollback -/

theorem trimPreTurnContextUpdates_boundaries (snapshot : List ResponseItem) (first cut : ℕ) :
    boundaries rules (snapshot.take (trimPreTurnContextUpdates rules snapshot first cut).1) =
      boundaries rules (snapshot.take cut) := by
  induction cut with
  | zero => rfl
  | succ cut ih =>
    -- What is trimmed at `cut` is a developer message or context, never a boundary.
    have htrim {item : ResponseItem} (hitem : snapshot[cut]? = some item)
        (hnot : isUserTurnBoundary rules item = false) :
        boundaries rules (snapshot.take (cut + 1)) = boundaries rules (snapshot.take cut) := by
      rw [take_add_one, hitem]
      simp [boundaries, hnot]
    unfold trimPreTurnContextUpdates
    split
    · split
      · next id role content phase metadata hitem =>
        split
        · next hdev =>
          simp only [Bool.and_eq_true, decide_eq_true_eq] at hdev
          refine ih.trans (htrim hitem ?_).symm
          simp [isUserTurnBoundary, hdev.1, show developerRole ≠ userRole by decide,
            show developerRole ≠ assistantRole by decide]
        · split
          · next huser =>
            simp only [Bool.and_eq_true, decide_eq_true_eq] at huser
            refine ih.trans (htrim hitem ?_).symm
            simp [isUserTurnBoundary, huser.1, huser.2, show userRole ≠ assistantRole by decide]
          · rfl
      · rfl
    · rfl

/-- In front of the `i`-th position there are `i` elements of the kind. -/
theorem filter_take_findIdxs {α : Type} (p : α → Bool) {l : List α} {i k : ℕ}
    (h : (l.findIdxs p)[i]? = some k) : (l.take k).filter p = (l.filter p).take i := by
  induction l generalizing i k with
  | nil => simp at h
  | cons a l ih =>
    rw [findIdxs_cons, findIdxs_start] at h
    by_cases ha : p a = true
    · rw [if_pos ha] at h
      cases i with
      | zero =>
        obtain rfl : 0 = k := by simpa using h
        rfl
      | succ i =>
        rw [getElem?_cons_succ, getElem?_map] at h
        obtain ⟨k, hk, rfl⟩ := Option.map_eq_some_iff.1 h
        simp [ha, ih hk]
    · rw [if_neg ha, getElem?_map] at h
      obtain ⟨k, hk, rfl⟩ := Option.map_eq_some_iff.1 h
      simp [ha, ih hk]

theorem boundaries_dropLastNUserTurns (history : ContextManager) (numTurns : ℕ) :
    boundaries rules (history.dropLastNUserTurns rules numTurns).items =
      (boundaries rules history.items).take
        ((boundaries rules history.items).length - numTurns) := by
  have hlength : (boundaries rules history.items).length =
      (userMessagePositions rules history.items).length := by
    rw [userMessagePositions, length_findIdxs, countP_eq_length_filter]
    rfl
  unfold ContextManager.dropLastNUserTurns
  split
  · next hzero => simp [hzero]
  · next hpositive =>
    rw [hlength]
    dsimp only
    split
    · next hnone =>
      have hnil : boundaries rules history.items = [] := by
        rw [← length_eq_zero_iff, hlength, hnone]
        rfl
      rw [hnil, take_nil]
      exact hnil
    · next first rest hpositions =>
      refine (trimPreTurnContextUpdates_boundaries history.items first _).trans ?_
      refine filter_take_findIdxs _ ?_
      change (userMessagePositions rules history.items)[_]? = _
      split
      · next hall =>
        rw [Nat.sub_eq_zero_of_le hall, hpositions]
        rfl
      · next hsome =>
        rw [getD_eq_getElem?_getD]
        have hlt : (userMessagePositions rules history.items).length - numTurns <
            (userMessagePositions rules history.items).length := by omega
        simp [getElem?_eq_getElem hlt]

end Codex.Rollout
