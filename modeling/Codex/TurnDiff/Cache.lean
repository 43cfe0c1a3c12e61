import Codex.Base.Log
import Codex.TurnDiff.NetDiff

/-!
# The cache of rendered diffs

A rendering is found again by two paths and two revisions. Since a revision is
given to one content only, what is found is what would be rendered, and a run
shows the same diff as one that empties the cache before every refresh.
-/

namespace Codex.TurnDiff.TurnDiffTracker

open List Codex.Text Codex.ApplyPatch Codex.Permissions

variable {tools : DiffTools} {tracker : TurnDiffTracker} {history : List Str}

section Lookup

variable {α β : Type} [DecidableEq α] {map : HashMap α β} {key other : α} {value new : β}

theorem lookup_of_lookup_insert (h : (map.insert key new).lookup other = some value) :
    other = key ∧ value = new ∨ map.lookup other = some value := by
  by_cases hother : other = key
  · rw [hother, AList.lookup_insert] at h
    exact .inl ⟨hother, (Option.some.inj h).symm⟩
  · rw [AList.lookup_insert_ne hother] at h
    exact .inr h

theorem lookup_of_lookup_erase (h : (map.erase key).lookup other = some value) :
    map.lookup other = some value := by
  by_cases hother : other = key
  · rw [hother, AList.lookup_erase] at h
    cases h
  · rwa [AList.lookup_erase_ne hother] at h

end Lookup

/-! ## Without the cache -/

/-- `rendered_diffs.clear()`. -/
def clearRendered (tracker : TurnDiffTracker) : TurnDiffTracker := { tracker with renderedDiffs := ∅ }

/-- `track_delta` with the cache emptied before the refresh. -/
def trackDeltaUncached (tools : DiffTools) (order : IterationOrder) (environmentId : Str)
    (tracker : TurnDiffTracker) (delta : AppliedPatchDelta) : TurnDiffTracker :=
  if tracker.valid = false then tracker
  else if delta.exact = false then tracker.invalidate
  else
    (delta.changes.foldl (applyChange environmentId) tracker).clearRendered.refreshUnifiedDiff
      tools order

def trackDeltasUncached (tools : DiffTools) (tracker : TurnDiffTracker) (calls : List Call) :
    TurnDiffTracker :=
  calls.foldl
    (fun tracker call => tracker.trackDeltaUncached tools call.order call.environmentId call.delta)
    tracker

/-- A rendered diff is joined to the text so far, which then ends its line. -/
def joinRendered (aggregated : Str) : Option Str → Str
  | some diff =>
    let aggregated := aggregated ++ diff
    if aggregated.getLast? = some '\n' then aggregated else aggregated ++ ['\n']
  | none => aggregated

/-- The diff of a pair from the contents of the maps. -/
def renderFresh (tools : DiffTools) (tracker : TurnDiffTracker)
    (pair : TrackedPath × TrackedPath) : Option Str :=
  renderDiff tools tracker pair.1 (tracker.baseline pair.1) pair.2 (tracker.current pair.2)

def renderAll (tools : DiffTools) (tracker : TurnDiffTracker)
    (pairs : List (TrackedPath × TrackedPath)) : Str :=
  pairs.foldl (fun aggregated pair => joinRendered aggregated (renderFresh tools tracker pair)) []

/-- The diff that the maps alone determine. -/
def netDiff (tools : DiffTools) (order : IterationOrder) (tracker : TurnDiffTracker) : Option Str :=
  let text := renderAll tools tracker (tracker.visitedPairs order)
  if text = [] then none else some text

/-! ## Revisions name contents -/

/-- The two revisions of the key stand for the contents of the rendering. -/
def Renders (tools : DiffTools) (tracker : TurnDiffTracker) (history : List Str)
    (key : DiffCacheKey) (rendered : Option Str) : Prop :=
  ∃ left right, StandsFor history key.leftRevision left ∧
    StandsFor history key.rightRevision right ∧
    rendered = renderDiff tools tracker key.leftPath left key.rightPath right

/-- Every content of the map is the one that its revision was given to. -/
def Recorded (history : List Str) (contents : HashMap TrackedPath TrackedContent) : Prop :=
  ∀ path tracked, contents.lookup path = some tracked →
    history[tracked.revision]? = some tracked.content

/-- Every cached rendering is the one of its key. -/
def CacheRenders (tools : DiffTools) (tracker : TurnDiffTracker) (history : List Str)
    (cache : HashMap DiffCacheKey (Option Str)) : Prop :=
  ∀ key rendered, cache.lookup key = some rendered → Renders tools tracker history key rendered

/-- The revisions in use are those of the history. -/
structure Numbered (tools : DiffTools) (history : List Str) (tracker : TurnDiffTracker) : Prop where
  next : tracker.nextRevision = history.length
  baseline : Recorded history tracker.baselineByPath
  current : Recorded history tracker.currentByPath
  cache : CacheRenders tools tracker history tracker.renderedDiffs

theorem recorded_empty (history : List Str) : Recorded history ∅ := by
  intro path tracked hlookup
  rw [AList.lookup_empty] at hlookup
  cases hlookup

variable {contents : HashMap TrackedPath TrackedContent}

theorem Recorded.erase (h : Recorded history contents) (path : TrackedPath) :
    Recorded history (contents.erase path) := by
  intro other tracked hlookup
  exact h other tracked (lookup_of_lookup_erase hlookup)

theorem Recorded.grow (h : Recorded history contents) (content : Str) :
    Recorded (history ++ [content]) contents := by
  intro path tracked hlookup
  have hlt : tracked.revision < history.length := by
    have := h path tracked hlookup
    exact (List.getElem?_eq_some_iff.1 this).1
  rw [getElem?_append_left hlt, h path tracked hlookup]

theorem Recorded.insert (h : Recorded history contents) (path : TrackedPath) (content : Str) :
    Recorded (history ++ [content]) (contents.insert path ⟨content, history.length⟩) := by
  intro other tracked hlookup
  rcases lookup_of_lookup_insert hlookup with ⟨-, rfl⟩ | hold
  · exact getElem?_concat_length
  · exact h.grow content other tracked hold

/-- The contents of a path are what its revision stands for. -/
theorem Recorded.standsFor (h : Recorded history contents) (path : TrackedPath) :
    StandsFor history ((contents.lookup path).map (·.revision))
      ((contents.lookup path).map (·.content)) := by
  cases hlookup : contents.lookup path with
  | none => rfl
  | some tracked => exact ⟨rfl, h path tracked hlookup⟩

theorem CacheRenders.grow {cache : HashMap DiffCacheKey (Option Str)}
    (h : CacheRenders tools tracker history cache) (content : Str) :
    CacheRenders tools tracker (history ++ [content]) cache := by
  intro key rendered hlookup
  obtain ⟨left, right, hleft, hright, heq⟩ := h key rendered hlookup
  have hgrow : history <+: history ++ [content] := prefix_append _ _
  exact ⟨left, right, hleft.mono hgrow, hright.mono hgrow, heq⟩

theorem cacheRenders_empty (tools : DiffTools) (tracker : TurnDiffTracker) (history : List Str) :
    CacheRenders tools tracker history ∅ := by
  intro key rendered hlookup
  rw [AList.lookup_empty] at hlookup
  cases hlookup

/-! ## Changes -/

/-- Some history numbers the contents of the tracker. -/
def Sound (tools : DiffTools) (tracker : TurnDiffTracker) : Prop :=
  ∃ history, Numbered tools history tracker

theorem sound_fresh (tools : DiffTools) (roots : HashMap Str Path) :
    Sound tools { displayRootsByEnvironment := roots } :=
  ⟨[], rfl, recorded_empty [], recorded_empty [], cacheRenders_empty tools _ []⟩

theorem Sound.insertBaseline (h : Sound tools tracker) (path : TrackedPath) (content : Str) :
    Sound tools (tracker.insertBaseline path content) := by
  obtain ⟨history, hnumbered⟩ := h
  refine ⟨history ++ [content], ?_, ?_, hnumbered.current.grow content, hnumbered.cache.grow content⟩
  · show tracker.nextRevision + 1 = _
    rw [hnumbered.next, length_append, length_singleton]
  · show Recorded _ (tracker.baselineByPath.insert path ⟨content, tracker.nextRevision⟩)
    rw [hnumbered.next]
    exact hnumbered.baseline.insert path content

theorem Sound.insertCurrent (h : Sound tools tracker) (path : TrackedPath) (content : Str) :
    Sound tools (tracker.insertCurrent path content) := by
  obtain ⟨history, hnumbered⟩ := h
  refine ⟨history ++ [content], ?_, hnumbered.baseline.grow content, ?_, hnumbered.cache.grow content⟩
  · show tracker.nextRevision + 1 = _
    rw [hnumbered.next, length_append, length_singleton]
  · show Recorded _ (tracker.currentByPath.insert path ⟨content, tracker.nextRevision⟩)
    rw [hnumbered.next]
    exact hnumbered.current.insert path content

theorem Sound.eraseCurrent (h : Sound tools tracker) (path : TrackedPath) :
    Sound tools { tracker with currentByPath := tracker.currentByPath.erase path } := by
  obtain ⟨history, hnumbered⟩ := h
  exact ⟨history, hnumbered.next, hnumbered.baseline, hnumbered.current.erase path, hnumbered.cache⟩

/-- The origins have no revisions. -/
theorem Sound.setOrigins (h : Sound tools tracker) (origins : HashMap TrackedPath TrackedPath) :
    Sound tools { tracker with originByCurrentPath := origins } := by
  obtain ⟨history, hnumbered⟩ := h
  exact ⟨history, hnumbered.next, hnumbered.baseline, hnumbered.current, hnumbered.cache⟩

theorem Sound.captureBaseline (h : Sound tools tracker) (path : TrackedPath)
    (content : Option Str) : Sound tools (tracker.captureBaseline path content) := by
  unfold TurnDiffTracker.captureBaseline
  split
  · next content =>
    split
    · exact h.insertBaseline path content
    · exact h
  · exact h

theorem Sound.applyAdd (h : Sound tools tracker) (path : TrackedPath) (content : Str)
    (overwrittenContent : Option Str) :
    Sound tools (tracker.applyAdd path content overwrittenContent) := by
  have horigins := h.setOrigins (tracker.originByCurrentPath.erase path)
  exact (horigins.captureBaseline path overwrittenContent).insertCurrent path content

theorem Sound.applyDelete (h : Sound tools tracker) (path : TrackedPath) (content : Str) :
    Sound tools (tracker.applyDelete path content) := by
  have herased := h.eraseCurrent path
  unfold TurnDiffTracker.applyDelete
  refine setOrigins ?_ _
  split
  · exact herased.insertBaseline path content
  · exact herased

theorem Sound.applyUpdate (h : Sound tools tracker) (sourcePath : TrackedPath)
    (movePath : Option TrackedPath) (oldContent : Str) (overwrittenMoveContent : Option Str)
    (newContent : Str) : Sound tools
      (tracker.applyUpdate sourcePath movePath oldContent overwrittenMoveContent newContent) := by
  have hsource := h.captureBaseline sourcePath (some oldContent)
  cases movePath with
  | none => exact hsource.insertCurrent sourcePath newContent
  | some destPath =>
    have hdest := hsource.captureBaseline destPath overwrittenMoveContent
    exact (((hdest.setOrigins _).eraseCurrent sourcePath).insertCurrent destPath
      newContent).setOrigins _

theorem Sound.applyChange (h : Sound tools tracker) (environmentId : Str)
    (change : AppliedPatchChange) :
    Sound tools (TurnDiffTracker.applyChange environmentId tracker change) := by
  unfold TurnDiffTracker.applyChange
  split
  · exact h.applyAdd _ _ _
  · exact h.applyDelete _ _
  · exact h.applyUpdate _ _ _ _ _

theorem Sound.applyChanges (h : Sound tools tracker) (environmentId : Str)
    (changes : List AppliedPatchChange) :
    Sound tools (changes.foldl (TurnDiffTracker.applyChange environmentId) tracker) := by
  induction changes generalizing tracker with
  | nil => exact h
  | cons change changes ih => exact ih (h.applyChange environmentId change)

/-! ## A refresh -/

/-- Both caches of the loop hold renderings of their keys. -/
def RenderingSound (tools : DiffTools) (tracker : TurnDiffTracker) (history : List Str)
    (rendering : Rendering) : Prop :=
  CacheRenders tools tracker history rendering.previousDiffs ∧
    CacheRenders tools tracker history rendering.renderedDiffs

/-- What the loop takes from the cache is what it would render. -/
theorem cached_eq_renderFresh (h : Numbered tools history tracker) {rendering : Rendering}
    (hsound : RenderingSound tools tracker history rendering) (pair : TrackedPath × TrackedPath) :
    let key : DiffCacheKey :=
      ⟨pair.1, (tracker.baselineByPath.lookup pair.1).map (·.revision), pair.2,
        (tracker.currentByPath.lookup pair.2).map (·.revision)⟩
    (rendering.previousDiffs.lookup key).getD (renderFresh tools tracker pair) =
      renderFresh tools tracker pair := by
  intro key
  cases hlookup : rendering.previousDiffs.lookup key with
  | none => rfl
  | some rendered =>
    obtain ⟨left, right, hleft, hright, heq⟩ := hsound.1 key rendered hlookup
    have hleft' : left = tracker.baseline pair.1 := hleft.unique (h.baseline.standsFor pair.1)
    have hright' : right = tracker.current pair.2 := hright.unique (h.current.standsFor pair.2)
    rw [Option.getD_some, heq, hleft', hright']
    rfl

theorem renderPair_spec (h : Numbered tools history tracker) {rendering : Rendering}
    (hsound : RenderingSound tools tracker history rendering) (pair : TrackedPath × TrackedPath) :
    let next := renderPair tools tracker rendering pair
    next.aggregated = joinRendered rendering.aggregated (renderFresh tools tracker pair) ∧
      RenderingSound tools tracker history next := by
  have hcached := cached_eq_renderFresh h hsound pair
  refine ⟨?_, fun key rendered hlookup => ?_, fun key rendered hlookup => ?_⟩
  · show joinRendered rendering.aggregated (Option.getD _ (renderFresh tools tracker pair)) = _
    rw [hcached]
  · exact hsound.1 key rendered (lookup_of_lookup_erase hlookup)
  · rcases lookup_of_lookup_insert hlookup with ⟨rfl, rfl⟩ | hold
    · exact ⟨_, _, h.baseline.standsFor pair.1, h.current.standsFor pair.2, hcached⟩
    · exact hsound.2 key rendered hold

theorem renderPairs_spec (h : Numbered tools history tracker)
    (pairs : List (TrackedPath × TrackedPath)) :
    ∀ {rendering : Rendering}, RenderingSound tools tracker history rendering →
      let last := pairs.foldl (renderPair tools tracker) rendering
      last.aggregated = pairs.foldl (fun aggregated pair =>
        joinRendered aggregated (renderFresh tools tracker pair)) rendering.aggregated ∧
      RenderingSound tools tracker history last := by
  induction pairs with
  | nil => exact fun hsound => ⟨rfl, hsound⟩
  | cons pair pairs ih =>
    intro rendering hsound
    obtain ⟨htext, hnext⟩ := renderPair_spec h hsound pair
    obtain ⟨htexts, hlast⟩ := ih hnext
    refine ⟨htexts.trans ?_, hlast⟩
    rw [htext, foldl_cons]

/-- **A refresh** shows the diff of the maps, whatever the cache holds, and the
new cache holds renderings again. -/
theorem Sound.refresh (h : Sound tools tracker) (order : IterationOrder) :
    (tracker.refreshUnifiedDiff tools order).unifiedDiff = tracker.netDiff tools order ∧
      Sound tools (tracker.refreshUnifiedDiff tools order) := by
  obtain ⟨history, hnumbered⟩ := h
  have hfirst : RenderingSound tools tracker history ⟨tracker.renderedDiffs, ∅, []⟩ :=
    ⟨hnumbered.cache, cacheRenders_empty tools tracker history⟩
  obtain ⟨htext, hlast⟩ := renderPairs_spec hnumbered (tracker.visitedPairs order) hfirst
  refine ⟨?_, history, hnumbered.next, hnumbered.baseline, hnumbered.current, hlast.2⟩
  simp only [refreshUnifiedDiff, netDiff, renderAll, htext]
  rfl

theorem Sound.clearRendered (h : Sound tools tracker) : Sound tools tracker.clearRendered := by
  obtain ⟨history, hnumbered⟩ := h
  exact ⟨history, hnumbered.next, hnumbered.baseline, hnumbered.current,
    cacheRenders_empty tools _ history⟩

/-- Beside the cache, a refresh sets the diff only. -/
theorem Sound.clearRendered_refresh (h : Sound tools tracker) (order : IterationOrder) :
    (tracker.refreshUnifiedDiff tools order).clearRendered =
      { tracker.clearRendered with unifiedDiff := tracker.clearRendered.netDiff tools order } := by
  have hdiff := (h.refresh order).1
  show { tracker.clearRendered with
    unifiedDiff := (tracker.refreshUnifiedDiff tools order).unifiedDiff } = _
  rw [hdiff]
  rfl

/-! ## Runs -/

theorem clearRendered_captureBaseline (tracker : TurnDiffTracker) (path : TrackedPath)
    (content : Option Str) :
    (tracker.captureBaseline path content).clearRendered =
      tracker.clearRendered.captureBaseline path content := by
  cases content with
  | none => rfl
  | some content =>
    simp only [captureBaseline]
    rw [apply_ite clearRendered]
    rfl

theorem clearRendered_applyDelete (tracker : TurnDiffTracker) (path : TrackedPath) (content : Str) :
    (tracker.applyDelete path content).clearRendered =
      tracker.clearRendered.applyDelete path content := by
  by_cases hnew : (tracker.currentByPath.lookup path).isNone = true ∧ path ∉ tracker.baselineByPath
  · have hnew' : (tracker.clearRendered.currentByPath.lookup path).isNone = true ∧
        path ∉ tracker.clearRendered.baselineByPath := hnew
    simp only [applyDelete, if_pos hnew, if_pos hnew']
    rfl
  · have hnew' : ¬((tracker.clearRendered.currentByPath.lookup path).isNone = true ∧
        path ∉ tracker.clearRendered.baselineByPath) := hnew
    simp only [applyDelete, if_neg hnew, if_neg hnew']
    rfl

theorem clearRendered_applyUpdate (tracker : TurnDiffTracker) (sourcePath : TrackedPath)
    (movePath : Option TrackedPath) (oldContent : Str) (overwrittenMoveContent : Option Str)
    (newContent : Str) :
    (tracker.applyUpdate sourcePath movePath oldContent overwrittenMoveContent
        newContent).clearRendered =
      tracker.clearRendered.applyUpdate sourcePath movePath oldContent overwrittenMoveContent
        newContent := by
  have hsource := clearRendered_captureBaseline tracker sourcePath (some oldContent)
  unfold applyUpdate
  rw [← hsource]
  cases movePath with
  | none => rfl
  | some destPath =>
    simp only
    rw [← clearRendered_captureBaseline]
    rfl

/-- The changes do not look at the cache. -/
theorem clearRendered_applyChange (environmentId : Str) (tracker : TurnDiffTracker)
    (change : AppliedPatchChange) :
    (applyChange environmentId tracker change).clearRendered =
      applyChange environmentId tracker.clearRendered change := by
  obtain ⟨path, change⟩ := change
  cases change with
  | add content overwrittenContent =>
    show ((captureBaseline _ _ overwrittenContent).clearRendered).insertCurrent _ _ = _
    rw [clearRendered_captureBaseline]
    rfl
  | delete content => exact clearRendered_applyDelete tracker _ content
  | update movePath oldContent overwrittenMoveContent newContent =>
    exact clearRendered_applyUpdate tracker _ _ oldContent overwrittenMoveContent newContent

theorem clearRendered_applyChanges (environmentId : Str) (changes : List AppliedPatchChange) :
    ∀ tracker : TurnDiffTracker,
      (changes.foldl (applyChange environmentId) tracker).clearRendered =
        changes.foldl (applyChange environmentId) tracker.clearRendered := by
  induction changes with
  | nil => exact fun _ => rfl
  | cons change changes ih =>
    intro tracker
    rw [foldl_cons, foldl_cons, ih, clearRendered_applyChange]

theorem Sound.invalidate (h : Sound tools tracker) : Sound tools tracker.invalidate := by
  obtain ⟨history, hnumbered⟩ := h.clearRendered
  exact ⟨history, hnumbered.next, hnumbered.baseline, hnumbered.current, hnumbered.cache⟩

theorem Sound.trackDelta (h : Sound tools tracker) (order : IterationOrder) (environmentId : Str)
    (delta : AppliedPatchDelta) :
    Sound tools (tracker.trackDelta tools order environmentId delta) := by
  unfold TurnDiffTracker.trackDelta
  split
  · exact h
  split
  · exact h.invalidate
  · exact ((h.applyChanges environmentId delta.changes).refresh order).2

theorem Sound.trackDeltaUncached (h : Sound tools tracker) (order : IterationOrder)
    (environmentId : Str) (delta : AppliedPatchDelta) :
    Sound tools (tracker.trackDeltaUncached tools order environmentId delta) := by
  unfold TurnDiffTracker.trackDeltaUncached
  split
  · exact h
  split
  · exact h.invalidate
  · exact ((h.applyChanges environmentId delta.changes).clearRendered.refresh order).2

/-- A call makes the maps that it makes without the cache, and shows the same diff. -/
theorem trackDelta_uncached {plain : TurnDiffTracker} (h : Sound tools tracker)
    (hplain : Sound tools plain) (halike : tracker.clearRendered = plain.clearRendered)
    (call : Call) :
    (tracker.trackDelta tools call.order call.environmentId call.delta).clearRendered =
      (plain.trackDeltaUncached tools call.order call.environmentId call.delta).clearRendered := by
  have hvalid : tracker.clearRendered.valid = plain.clearRendered.valid := congrArg valid halike
  change tracker.valid = plain.valid at hvalid
  simp only [trackDelta, trackDeltaUncached, ← hvalid]
  split
  · exact halike
  split
  · have hboth := congrArg invalidate halike
    exact hboth
  · have hchanged := h.applyChanges call.environmentId call.delta.changes
    have hplainChanged :=
      (hplain.applyChanges call.environmentId call.delta.changes).clearRendered
    have hmaps : (call.delta.changes.foldl (applyChange call.environmentId) tracker).clearRendered =
        (call.delta.changes.foldl (applyChange call.environmentId) plain).clearRendered := by
      rw [clearRendered_applyChanges, clearRendered_applyChanges, halike]
    rw [hchanged.clearRendered_refresh, hplainChanged.clearRendered_refresh, hmaps]
    rfl

theorem trackDeltas_uncached (calls : List Call) :
    ∀ {tracker plain : TurnDiffTracker}, Sound tools tracker → Sound tools plain →
      tracker.clearRendered = plain.clearRendered →
      (trackDeltas tools tracker calls).clearRendered =
        (trackDeltasUncached tools plain calls).clearRendered := by
  induction calls with
  | nil => exact fun _ _ halike => halike
  | cons call calls ih =>
    intro tracker plain h hplain halike
    exact ih (h.trackDelta call.order call.environmentId call.delta)
      (hplain.trackDeltaUncached call.order call.environmentId call.delta)
      (trackDelta_uncached h hplain halike call)

/-- **The cache is transparent.** Every series of deltas shows the diff that it
shows when the cache is emptied before every refresh. -/
theorem unifiedDiff_eq_uncached (tools : DiffTools) (roots : HashMap Str Path) (calls : List Call) :
    (trackDeltas tools { displayRootsByEnvironment := roots } calls).unifiedDiff =
      (trackDeltasUncached tools { displayRootsByEnvironment := roots } calls).unifiedDiff := by
  have hfresh := sound_fresh tools roots
  have hdiff := congrArg unifiedDiff (trackDeltas_uncached calls hfresh hfresh rfl)
  exact hdiff

end Codex.TurnDiff.TurnDiffTracker
