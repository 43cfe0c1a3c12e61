import Codex.Rollout.Reconstruct

/-!
# The reconstruction against the plain replay

The reconstructed history is compared with the replay of the whole rollout from
an empty history. Which replacement histories the reverse scan may use is read
off the turn segments of the rollout; the suffix moves when a compaction is
seen, whether or not its segment survives.
-/

namespace Codex.Rollout

open List Codex.Text ContextManager

variable (rules : TextRules)

/-! ## Replaying -/

/-- The replacement history that an item carries. -/
def RolloutItem.replacement? : RolloutItem → Option (List ResponseItem)
  | .compacted item => item.replacementHistory
  | _ => none

section Replay

variable {rules} {a b : ContextManager}

theorem dropLastNUserTurns_items (h : a.items = b.items) (numTurns : ℕ) :
    (a.dropLastNUserTurns rules numTurns).items = (b.dropLastNUserTurns rules numTurns).items := by
  unfold dropLastNUserTurns
  by_cases hn : numTurns = 0
  · rw [if_pos hn, if_pos hn, h]
  · rw [if_neg hn, if_neg hn, h]
    dsimp only
    split
    · rfl
    · rfl

/-- One step changes the items as the items alone tell. -/
theorem replayItem_items (h : a.items = b.items) (item : RolloutItem) :
    (a.replayItem rules item).items = (b.replayItem rules item).items := by
  have hrecord : ∀ response : ResponseItem,
      (a.recordItem rules response).items = (b.recordItem rules response).items := by
    intro response
    unfold recordItem
    split
    · exact congrArg (· ++ _) h
    · exact h
  cases item with
  | responseItem response => exact hrecord response
  | interAgentCommunication communication => exact hrecord _
  | compacted compacted =>
    show (a.replayCompacted rules compacted).items = (b.replayCompacted rules compacted).items
    unfold replayCompacted
    cases compacted.replacementHistory with
    | some replacement => rfl
    | none =>
      show buildCompactedHistory rules [] (collectUserMessages rules a.items) _ =
        buildCompactedHistory rules [] (collectUserMessages rules b.items) _
      rw [h]
  | eventMsg event =>
    cases event with
    | threadRolledBack numTurns => exact dropLastNUserTurns_items h numTurns
    | _ => exact h
  | _ => exact h

theorem replay_items (h : a.items = b.items) (items : List RolloutItem) :
    (a.replay rules items).items = (b.replay rules items).items := by
  induction items generalizing a b with
  | nil => exact h
  | cons item items ih => exact ih (replayItem_items h item)

theorem replayItem_replacement {item : RolloutItem} {base : List ResponseItem}
    (h : item.replacement? = some base) : (a.replayItem rules item).items = base := by
  cases item with
  | compacted compacted =>
    have hbase : compacted.replacementHistory = some base := h
    show (a.replayCompacted rules compacted).items = base
    rw [replayCompacted, hbase]
    rfl
  | _ => cases h

/-- A replacement history hides everything before it. -/
theorem replay_items_of_replacement {items : List RolloutItem}
    (h : ∃ item ∈ items, item.replacement? ≠ none) :
    (a.replay rules items).items = (b.replay rules items).items := by
  induction items generalizing a b with
  | nil =>
    obtain ⟨item, hitem, -⟩ := h
    cases hitem
  | cons first items ih =>
    cases hfirst : first.replacement? with
    | some base =>
      have hsame : (a.replayItem rules first).items = (b.replayItem rules first).items := by
        rw [replayItem_replacement hfirst, replayItem_replacement hfirst]
      exact replay_items hsame items
    | none =>
      obtain ⟨item, hitem, hne⟩ := h
      rcases mem_cons.1 hitem with rfl | hitem
      · exact absurd hfirst hne
      · exact ih ⟨item, hitem, hne⟩

theorem replay_append (pre post : List RolloutItem) :
    a.replay rules (pre ++ post) = (a.replay rules pre).replay rules post :=
  foldl_append

end Replay

/-! ## Checkpoints -/

/-- The newest replacement history, with the items after it. -/
def newestCheckpoint : List RolloutItem → Option (List ResponseItem × List RolloutItem)
  | [] => none
  | item :: rest => (newestCheckpoint rest).or (item.replacement?.map fun base => (base, rest))

theorem newestCheckpoint_eq_none {items : List RolloutItem}
    (h : ∀ item ∈ items, item.replacement? = none) : newestCheckpoint items = none := by
  induction items with
  | nil => rfl
  | cons item items ih =>
    rw [newestCheckpoint, ih fun i hi => h i (mem_cons_of_mem _ hi), h item (by simp)]
    rfl

theorem newestCheckpoint_append {pre rest : List RolloutItem} {item : RolloutItem}
    {base : List ResponseItem} (hitem : item.replacement? = some base)
    (h : ∀ i ∈ rest, i.replacement? = none) :
    newestCheckpoint (pre ++ item :: rest) = some (base, rest) := by
  induction pre with
  | nil =>
    rw [nil_append, newestCheckpoint, newestCheckpoint_eq_none h, hitem]
    rfl
  | cons first pre ih =>
    rw [cons_append, newestCheckpoint, ih]
    rfl

/-- The turn segments of a rollout that is read backwards, newest first, each with whether it
survives the rollbacks that were read before its end. -/
def segmentsFrom : List RolloutItem → Option ActiveReplaySegment → ℕ →
    List (ActiveReplaySegment × Bool)
  | [], none, _ => []
  | [], some segment, pending => [(segment, pending = 0)]
  | .eventMsg (.threadRolledBack numTurns) :: older, active, pending =>
    segmentsFrom older active (min (pending + numTurns) usizeMax)
  | .eventMsg (.turnStarted turnId) :: older, some segment, pending =>
    if turnIdsAreCompatible segment.turnId (some turnId) then
      (segment, decide (pending = 0)) ::
        segmentsFrom older none (if segment.countsAsUserTurn then pending - 1 else pending)
    else segmentsFrom older (some segment) pending
  | item :: older, active, pending => segmentsFrom older (addToSegment rules active item) pending

def checkpointsFrom (older : List RolloutItem) (active : Option ActiveReplaySegment)
    (pending : ℕ) : List (List ResponseItem × Bool) :=
  (segmentsFrom rules older active pending).filterMap fun segment =>
    segment.1.baseReplacementHistory.map fun base => (base, segment.2)

/-- The replacement histories of a rollout, one for each segment that holds one. -/
def checkpoints (rolloutItems : List RolloutItem) : List (List ResponseItem × Bool) :=
  checkpointsFrom rules rolloutItems.reverse none 0

/-! ## What the scan knows -/

/-- The replacement histories seen so far: those of the finished segments and the open one's. -/
def seenHistories (finished : List (List ResponseItem × Bool))
    (active : Option ActiveReplaySegment) : List (List ResponseItem) :=
  finished.map Prod.fst ++ (active.bind (·.baseReplacementHistory)).toList

/-- Where the suffix starts: nowhere if nothing was seen, right after the only one that was seen,
and else so far back that a replacement history is part of it. -/
def SuffixAt (rolloutItems newer suffix : List RolloutItem) : List (List ResponseItem) → Prop
  | [] => suffix = rolloutItems ∧ ∀ item ∈ newer, item.replacement? = none
  | [base] => ∃ pre item, newer = pre ++ item :: suffix ∧ item.replacement? = some base ∧
      ∀ i ∈ suffix, i.replacement? = none
  | _ => (∃ item ∈ suffix, item.replacement? ≠ none) ∧ suffix <:+ newer

section SuffixAt

variable {rolloutItems newer suffix : List RolloutItem} {item : RolloutItem}
  {seen : List (List ResponseItem)}

theorem SuffixAt.cons (h : SuffixAt rolloutItems newer suffix seen)
    (hitem : seen = [] → item.replacement? = none) :
    SuffixAt rolloutItems (item :: newer) suffix seen := by
  match seen, h, hitem with
  | [], ⟨hsuffix, hno⟩, hitem =>
    refine ⟨hsuffix, fun i hi => ?_⟩
    rcases mem_cons.1 hi with rfl | hi
    · exact hitem rfl
    · exact hno i hi
  | [base], ⟨pre, i, hnewer, hi, hno⟩, _ =>
    exact ⟨item :: pre, i, by rw [hnewer, cons_append], hi, hno⟩
  | _ :: _ :: _, ⟨hex, hsuffix⟩, _ => exact ⟨hex, hsuffix.trans (suffix_cons _ _)⟩

theorem SuffixAt.exists_newer (h : SuffixAt rolloutItems newer suffix seen) (hseen : seen ≠ []) :
    ∃ item ∈ newer, item.replacement? ≠ none := by
  match seen, h, hseen with
  | [base], ⟨pre, i, hnewer, hi, _⟩, _ =>
    refine ⟨i, by rw [hnewer]; simp, ?_⟩
    rw [hi]
    exact Option.some_ne_none base
  | _ :: _ :: _, ⟨⟨i, hi, hne⟩, hsuffix⟩, _ => exact ⟨i, hsuffix.subset hi, hne⟩

/-- A compaction that the open segment does not have yet moves the suffix. -/
theorem SuffixAt.move {base : List ResponseItem} (h : SuffixAt rolloutItems newer suffix seen)
    (hitem : item.replacement? = some base) :
    SuffixAt rolloutItems (item :: newer) newer (seen ++ [base]) := by
  match seen, h with
  | [], ⟨_, hno⟩ => exact ⟨[], item, rfl, hitem, hno⟩
  | [first], h =>
    exact ⟨h.exists_newer (cons_ne_nil _ _), suffix_cons _ _⟩
  | first :: second :: rest, h =>
    have hmoved : (∃ i ∈ newer, i.replacement? ≠ none) ∧ newer <:+ item :: newer :=
      ⟨h.exists_newer (cons_ne_nil _ _), suffix_cons _ _⟩
    exact hmoved

end SuffixAt

/-- The scan has read `newer` and is about to read `older`. -/
structure Tracks (rolloutItems : List RolloutItem) (finished : List (List ResponseItem × Bool))
    (older newer : List RolloutItem) (scan : Scan) : Prop where
  split : rolloutItems = older.reverse ++ newer
  base : scan.baseReplacementHistory = (finished.find? (·.2)).map (·.1)
  suffix : SuffixAt rolloutItems newer scan.rolloutSuffix
    (seenHistories finished scan.activeSegment)
  rest : checkpoints rules rolloutItems =
    finished ++ checkpointsFrom rules older scan.activeSegment scan.pendingRollbackTurns

section Step

variable {rules} {rolloutItems older newer : List RolloutItem} {item : RolloutItem}
  {finished : List (List ResponseItem × Bool)} {scan : Scan}

theorem addToSegment_base (active : Option ActiveReplaySegment) (item : RolloutItem) :
    (addToSegment rules active item).bind (·.baseReplacementHistory) =
      (active.bind (·.baseReplacementHistory)).or item.replacement? := by
  have hdefault : (active.getD {}).baseReplacementHistory =
      active.bind (·.baseReplacementHistory) := by
    cases active <;> rfl
  cases item with
  | compacted compacted =>
    show ((active.getD {}).baseReplacementHistory).or compacted.replacementHistory = _
    rw [hdefault]
    rfl
  | turnContext ctx =>
    show ((active.getD {}).addTurnContext ctx).baseReplacementHistory = _
    rw [← hdefault]
    unfold ActiveReplaySegment.addTurnContext
    dsimp only
    split
    · exact (Option.or_none).symm
    · exact (Option.or_none).symm
  | eventMsg event =>
    cases event with
    | turnAborted turnId => cases active <;> cases turnId <;> simp [addToSegment, RolloutItem.replacement?]
    | _ => simp [addToSegment, RolloutItem.replacement?, hdefault]
  | _ => simp [addToSegment, RolloutItem.replacement?, hdefault]

theorem segmentsFrom_other (active : Option ActiveReplaySegment) (pending : ℕ)
    (hrollback : ∀ numTurns, item ≠ .eventMsg (.threadRolledBack numTurns))
    (hstart : ∀ turnId, item ≠ .eventMsg (.turnStarted turnId)) :
    segmentsFrom rules (item :: older) active pending =
      segmentsFrom rules older (addToSegment rules active item) pending := by
  cases item with
  | eventMsg event =>
    cases event with
    | threadRolledBack numTurns => exact absurd rfl (hrollback numTurns)
    | turnStarted turnId => exact absurd rfl (hstart turnId)
    | _ => rw [segmentsFrom] <;> simp
  | _ => rw [segmentsFrom] <;> simp

@[simp] theorem finalize_rolloutSuffix (scan : Scan) (segment : ActiveReplaySegment) :
    (scan.finalize segment).rolloutSuffix = scan.rolloutSuffix := by
  unfold Scan.finalize
  split <;> rfl

@[simp] theorem finalize_activeSegment (scan : Scan) (segment : ActiveReplaySegment) :
    (scan.finalize segment).activeSegment = scan.activeSegment := by
  unfold Scan.finalize
  split <;> rfl

theorem finalize_pending (scan : Scan) (segment : ActiveReplaySegment) :
    (scan.finalize segment).pendingRollbackTurns =
      if segment.countsAsUserTurn then scan.pendingRollbackTurns - 1
      else scan.pendingRollbackTurns := by
  unfold Scan.finalize
  split
  · rfl
  next hpending =>
    have hzero : scan.pendingRollbackTurns = 0 := by omega
    simp [hzero]

theorem finalize_base (scan : Scan) (segment : ActiveReplaySegment) :
    (scan.finalize segment).baseReplacementHistory =
      if scan.pendingRollbackTurns = 0 then
        scan.baseReplacementHistory.or segment.baseReplacementHistory
      else scan.baseReplacementHistory := by
  unfold Scan.finalize
  split
  next hpending => exact (if_neg (Nat.pos_iff_ne_zero.1 hpending)).symm
  next hpending => exact (if_pos (Nat.eq_zero_of_not_pos hpending)).symm

/-- The checkpoint of a finished segment, and whether it survives. -/
def finishedCheckpoint (scan : Scan) (segment : ActiveReplaySegment) :
    List (List ResponseItem × Bool) :=
  (segment.baseReplacementHistory.map fun base =>
    (base, decide (scan.pendingRollbackTurns = 0))).toList

/-- The base stays the newest checkpoint that survives. -/
theorem finalize_base_eq_find (segment : ActiveReplaySegment)
    (hbase : scan.baseReplacementHistory = (finished.find? (·.2)).map (·.1)) :
    ({ scan with activeSegment := none }.finalize segment).baseReplacementHistory =
      ((finished ++ finishedCheckpoint scan segment).find? (·.2)).map (·.1) := by
  rw [finalize_base, find?_append, finishedCheckpoint]
  show (if scan.pendingRollbackTurns = 0 then
    scan.baseReplacementHistory.or segment.baseReplacementHistory
    else scan.baseReplacementHistory) = _
  rw [hbase]
  by_cases hpending : scan.pendingRollbackTurns = 0
  · rw [if_pos hpending]
    cases segment.baseReplacementHistory <;> cases finished.find? (·.2) <;> simp [hpending]
  · rw [if_neg hpending]
    cases segment.baseReplacementHistory <;> simp [hpending]

theorem seenHistories_finish {segment : ActiveReplaySegment}
    (hactive : scan.activeSegment = some segment) :
    seenHistories (finished ++ finishedCheckpoint scan segment) none =
      seenHistories finished scan.activeSegment := by
  rw [seenHistories, seenHistories, finishedCheckpoint, hactive]
  cases hsegment : segment.baseReplacementHistory <;> simp [hsegment]

theorem checkpointsFrom_start {segment : ActiveReplaySegment} {turnId : Str} {pending : ℕ}
    (h : turnIdsAreCompatible segment.turnId (some turnId) = true) :
    checkpointsFrom rules (.eventMsg (.turnStarted turnId) :: older) (some segment) pending =
      (segment.baseReplacementHistory.map fun base => (base, decide (pending = 0))).toList ++
        checkpointsFrom rules older none
          (if segment.countsAsUserTurn then pending - 1 else pending) := by
  rw [checkpointsFrom, segmentsFrom, if_pos h, filterMap_cons]
  cases segment.baseReplacementHistory <;> rfl

theorem checkpointsFrom_other {active : Option ActiveReplaySegment} {pending : ℕ}
    (hrollback : ∀ numTurns, item ≠ .eventMsg (.threadRolledBack numTurns))
    (hstart : ∀ turnId, item ≠ .eventMsg (.turnStarted turnId)) :
    checkpointsFrom rules (item :: older) active pending =
      checkpointsFrom rules older (addToSegment rules active item) pending := by
  rw [checkpointsFrom, segmentsFrom_other active pending hrollback hstart]
  rfl

/-- An item that only adds to the open segment, where the suffix stays. -/
theorem Tracks.add (h : Tracks rules rolloutItems finished (item :: older) newer scan)
    (hrollback : ∀ numTurns, item ≠ .eventMsg (.threadRolledBack numTurns))
    (hstart : ∀ turnId, item ≠ .eventMsg (.turnStarted turnId))
    (hbase : (scan.activeSegment.bind (·.baseReplacementHistory)).or item.replacement? =
      scan.activeSegment.bind (·.baseReplacementHistory)) :
    Tracks rules rolloutItems finished older (item :: newer)
      { scan with activeSegment := addToSegment rules scan.activeSegment item } := by
  refine ⟨?_, h.base, ?_, ?_⟩
  · rw [h.split]
    simp
  · have hseen : seenHistories finished (addToSegment rules scan.activeSegment item) =
        seenHistories finished scan.activeSegment := by
      rw [seenHistories, seenHistories, addToSegment_base, hbase]
    show SuffixAt _ _ scan.rolloutSuffix (seenHistories finished
      (addToSegment rules scan.activeSegment item))
    rw [hseen]
    refine h.suffix.cons fun hnil => ?_
    -- Nothing was seen, so the open segment has no replacement history, and gets none.
    have hnone := (append_eq_nil_iff.1 hnil).2
    rw [Option.toList_eq_nil_iff] at hnone
    rw [hnone] at hbase
    exact hbase
  · rw [h.rest, checkpointsFrom_other hrollback hstart]

theorem Tracks.step (h : Tracks rules rolloutItems finished (item :: older) newer scan) :
    ∃ finished', Tracks rules rolloutItems finished' older (item :: newer)
      (scan.step rules item newer) := by
  have hsplit : rolloutItems = older.reverse ++ item :: newer := by
    rw [h.split]
    simp
  unfold Scan.step
  split
  next numTurns =>
    refine ⟨finished, hsplit, h.base, h.suffix.cons fun _ => rfl, ?_⟩
    rw [h.rest, checkpointsFrom, segmentsFrom]
    rfl
  next turnId =>
    split
    next segment hactive =>
      split
      next hcompatible =>
        refine ⟨finished ++ finishedCheckpoint scan segment, hsplit,
          finalize_base_eq_find segment h.base, ?_, ?_⟩
        · rw [finalize_rolloutSuffix, finalize_activeSegment, seenHistories_finish hactive]
          exact h.suffix.cons fun _ => rfl
        · rw [h.rest, hactive, checkpointsFrom_start hcompatible, finalize_activeSegment,
            finalize_pending, List.append_assoc]
          rfl
      next hincompatible =>
        refine ⟨finished, hsplit, h.base, h.suffix.cons fun _ => rfl, ?_⟩
        rw [h.rest, hactive, checkpointsFrom, segmentsFrom, if_neg hincompatible]
        rfl
    next hnone =>
      refine ⟨finished, hsplit, h.base, h.suffix.cons fun _ => rfl, ?_⟩
      rw [h.rest, hnone, checkpointsFrom, segmentsFrom]
      · rfl
      · simp
      · simp
  next compacted =>
    have hstays : (scan.activeSegment.bind (·.baseReplacementHistory)).or
          compacted.replacementHistory =
        scan.activeSegment.bind (·.baseReplacementHistory) →
        ∃ finished', Tracks rules rolloutItems finished' older (.compacted compacted :: newer)
          { scan with activeSegment := addToSegment rules scan.activeSegment (.compacted compacted) } :=
      fun hbase => ⟨finished, h.add (fun _ => nofun) (fun _ => nofun) hbase⟩
    cases hreplacement : compacted.replacementHistory with
    | none =>
      rw [Option.isSome_none, Bool.and_false]
      exact hstays (by rw [hreplacement, Option.or_none])
    | some base =>
      cases hactive : scan.activeSegment.bind (·.baseReplacementHistory) with
      | some held => exact hstays (by rw [hactive]; rfl)
      | none =>
        refine ⟨finished, hsplit, h.base, ?_, ?_⟩
        · have hseen : seenHistories finished
              (addToSegment rules scan.activeSegment (.compacted compacted)) =
              seenHistories finished scan.activeSegment ++ [base] := by
            rw [seenHistories, seenHistories, addToSegment_base, hactive]
            simp [RolloutItem.replacement?, hreplacement]
          show SuffixAt _ _ newer (seenHistories finished
            (addToSegment rules scan.activeSegment (.compacted compacted)))
          rw [hseen]
          exact h.suffix.move hreplacement
        · refine h.rest.trans (congrArg _ (checkpointsFrom_other ?_ ?_))
          · exact fun _ => nofun
          · exact fun _ => nofun
  next hrollback hstart hcompacted =>
    refine ⟨finished, h.add hrollback hstart ?_⟩
    cases item with
    | compacted compacted => exact absurd rfl (hcompacted compacted)
    | _ => exact Option.or_none

/-- A run stops at the end of the rollout, or with a base that is known. -/
theorem Tracks.run (h : Tracks rules rolloutItems finished older newer scan) :
    ∃ finished' older' newer',
      Tracks rules rolloutItems finished' older' newer' (scan.run rules older newer) ∧
        (older' = [] ∨ (scan.run rules older newer).done = true) := by
  induction older generalizing finished newer scan with
  | nil => exact ⟨finished, [], newer, h, .inl rfl⟩
  | cons item older ih =>
    obtain ⟨finished', h'⟩ := h.step
    rw [Scan.run]
    by_cases hdone : (scan.step rules item newer).done = true
    · simp only [hdone, if_true]
      exact ⟨finished', older, _, h', .inr trivial⟩
    · simp only [hdone]
      exact ih h'

end Step

/-! ## The comparison -/

section Compare

variable {rules} {rolloutItems : List RolloutItem}

/-- What is known when the open segment is finished too: the suffix is where the finished
checkpoints put it, and the base is the newest that survives. If none does, the whole rollout was
read. -/
theorem finish_tracks (rules : TextRules) (rolloutItems : List RolloutItem) :
    ∃ finished pre newer,
      let scan := (Scan.run rules { rolloutSuffix := rolloutItems } rolloutItems.reverse []).finish
      rolloutItems = pre ++ newer ∧
      SuffixAt rolloutItems newer scan.rolloutSuffix (finished.map Prod.fst) ∧
      scan.baseReplacementHistory = (finished.find? (·.2)).map (·.1) ∧
      (scan.baseReplacementHistory ≠ none → ∃ c ∈ checkpoints rules rolloutItems, c.2 = true) ∧
      (scan.baseReplacementHistory = none →
        pre = [] ∧ checkpoints rules rolloutItems = finished) := by
  have hstart : Tracks rules rolloutItems [] rolloutItems.reverse []
      { rolloutSuffix := rolloutItems } :=
    ⟨by simp, rfl, ⟨rfl, by simp⟩, rfl⟩
  obtain ⟨finished, older, newer, h, hstop⟩ := hstart.run
  generalize Scan.run rules { rolloutSuffix := rolloutItems } rolloutItems.reverse [] = scan at h hstop
  have hsurvivor : ∀ l : List (List ResponseItem × Bool), (l.find? (·.2)).map (·.1) ≠ none →
      ∃ c ∈ l, c.2 = true := by
    intro l hl
    cases hfind : l.find? (·.2) with
    | none => exact absurd (by rw [hfind]; rfl) hl
    | some c => exact ⟨c, mem_of_find?_eq_some hfind, find?_some hfind⟩
  have hdone : scan.done = true → scan.baseReplacementHistory ≠ none := by
    intro hdone hnone
    rw [Scan.done, hnone] at hdone
    cases hdone
  cases hactive : scan.activeSegment with
  | none =>
    have hseen : seenHistories finished scan.activeSegment = finished.map Prod.fst := by
      rw [seenHistories, hactive]
      exact append_nil _
    refine ⟨finished, older.reverse, newer, ?_⟩
    simp only [Scan.finish, hactive]
    refine ⟨h.split, hseen ▸ h.suffix, h.base, fun hne => ?_, fun hnone => ?_⟩
    · rw [h.base] at hne
      obtain ⟨c, hc, hsurvives⟩ := hsurvivor finished hne
      exact ⟨c, by rw [h.rest]; exact mem_append_left _ hc, hsurvives⟩
    · rcases hstop with rfl | hstop
      · refine ⟨rfl, ?_⟩
        rw [h.rest, hactive]
        exact append_nil _
      · exact absurd hnone (hdone hstop)
  | some segment =>
    have hbase := finalize_base_eq_find segment h.base
    have hall : older = [] → checkpoints rules rolloutItems =
        finished ++ finishedCheckpoint scan segment := by
      rintro rfl
      rw [h.rest, hactive, finishedCheckpoint, checkpointsFrom, segmentsFrom]
      cases hsegment : segment.baseReplacementHistory <;> simp [hsegment]
    refine ⟨finished ++ finishedCheckpoint scan segment, older.reverse, newer, ?_⟩
    simp only [Scan.finish, hactive]
    refine ⟨h.split, ?_, hbase, fun hne => ?_, fun hnone => ?_⟩
    · rw [finalize_rolloutSuffix]
      have hsuffix := h.suffix
      rw [← seenHistories_finish hactive, seenHistories] at hsuffix
      rw [← append_nil ((finished ++ finishedCheckpoint scan segment).map Prod.fst)]
      exact hsuffix
    · rcases hstop with hend | hstop
      · rw [hall hend]
        exact hsurvivor _ (hbase ▸ hne)
      · obtain ⟨c, hc, hsurvives⟩ := hsurvivor finished (h.base ▸ hdone hstop)
        exact ⟨c, by rw [h.rest]; exact mem_append_left _ hc, hsurvives⟩
    · rcases hstop with hend | hstop
      · exact ⟨by rw [hend]; rfl, hall hend⟩
      · -- A base that is known is never forgotten.
        refine absurd ?_ (hdone hstop)
        rw [finalize_base] at hnone
        split at hnone
        · exact (Option.or_eq_none_iff.1 hnone).1
        · exact hnone

/-- The reconstructed history is that of the plain replay when a checkpoint survives the rollbacks, or
two segments hold one; else what follows the newest checkpoint is replayed without it. -/
theorem reconstruct_history_iff (rules : TextRules) (rolloutItems : List RolloutItem) :
    (reconstructHistoryFromRollout rules rolloutItems).history =
        (replay rules {} rolloutItems).items ↔
      (∃ c ∈ checkpoints rules rolloutItems, c.2 = true) ∨
      2 ≤ (checkpoints rules rolloutItems).length ∨
      ∀ base rest, newestCheckpoint rolloutItems = some (base, rest) →
        (replay rules (replace {} base) rest).items =
          (replay rules {} rest).items := by
  obtain ⟨finished, pre, newer, hsplit, hsuffix, hbase, hsome, hnone⟩ :=
    finish_tracks rules rolloutItems
  unfold reconstructHistoryFromRollout
  dsimp only
  generalize (Scan.run rules { rolloutSuffix := rolloutItems } rolloutItems.reverse []).finish = scan
    at hsuffix hbase hsome hnone
  match hfinished : finished.map Prod.fst, hsuffix with
  | [], ⟨hall, hno⟩ =>
    -- No replacement history at all: both replay the whole rollout.
    have hnil : finished = [] := map_eq_nil_iff.1 hfinished
    rw [hnil] at hbase
    obtain ⟨rfl, -⟩ := hnone hbase
    refine iff_of_true ?_ (.inr (.inr fun base rest hnewest => ?_))
    · rw [hbase, hall]
      rfl
    · rw [hsplit, nil_append, newestCheckpoint_eq_none hno] at hnewest
      cases hnewest
  | [base], ⟨mid, item, hnewer, hitem, hno⟩ =>
    have hfull : (replay rules {} rolloutItems).items =
        (replay rules (replace {} base) scan.rolloutSuffix).items := by
      rw [hsplit, hnewer, ← List.append_assoc, replay_append]
      exact replay_items (replayItem_replacement hitem) scan.rolloutSuffix
    rw [hfull]
    cases hscan : scan.baseReplacementHistory with
    | some found =>
      -- The only checkpoint survives and is the base.
      have hfound : found = base := by
        rw [hscan] at hbase
        obtain ⟨c, hfind, hc⟩ := Option.map_eq_some_iff.1 hbase.symm
        have hmem := mem_map_of_mem (f := Prod.fst) (mem_of_find?_eq_some hfind)
        rw [hfinished, mem_singleton] at hmem
        exact hc.symm.trans hmem
      exact iff_of_true (by rw [hfound]) (.inl (hsome (by rw [hscan]; exact Option.some_ne_none _)))
    | none =>
      obtain ⟨rfl, hcheckpoints⟩ := hnone hscan
      have hlength : ¬ 2 ≤ (checkpoints rules rolloutItems).length := by
        rw [hcheckpoints, ← length_map (f := Prod.fst), hfinished]
        simp
      have hdead : ¬ ∃ c ∈ checkpoints rules rolloutItems, c.2 = true := by
        rw [hscan] at hbase
        rintro ⟨c, hc, hsurvives⟩
        rw [hcheckpoints] at hc
        exact find?_eq_none.1 (Option.map_eq_none_iff.1 hbase.symm) c hc hsurvives
      have hnewest : newestCheckpoint rolloutItems = some (base, scan.rolloutSuffix) := by
        rw [hsplit, hnewer]
        exact newestCheckpoint_append hitem hno
      rw [or_iff_right hdead, or_iff_right hlength, hnewest]
      constructor
      · intro heq base' rest' h
        cases h
        exact heq.symm
      · exact fun h => (h base _ rfl).symm
  | _ :: _ :: _, ⟨hex, hsuffix⟩ =>
    obtain ⟨mid, hmid⟩ := hsuffix
    refine iff_of_true ?_ ?_
    · rw [hsplit, ← hmid, ← List.append_assoc, replay_append]
      exact replay_items_of_replacement hex
    · cases hscan : scan.baseReplacementHistory with
      | some found => exact .inl (hsome (by rw [hscan]; exact Option.some_ne_none _))
      | none =>
        refine .inr (.inl ?_)
        rw [(hnone hscan).2, ← length_map (f := Prod.fst), hfinished]
        simp

end Compare

end Codex.Rollout
