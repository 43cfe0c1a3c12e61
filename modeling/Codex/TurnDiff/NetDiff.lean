import Codex.Base.NetChange
import Codex.TurnDiff.Tracker

/-!
# The tracker follows the files

Over every run of truthful deltas the tracker keeps the first and the present
content of what was touched, and the pairs of a refresh rewrite the one into the
other.
-/

namespace Codex.TurnDiff

open Function List Codex.Text Codex.ApplyPatch Codex.Permissions

/-- The text files of all environments. -/
abbrev Files := TrackedPath → Option Str

/-- The files after a change, when the change tells the truth about them. -/
def commitChange (environmentId : Str) (files : Files) (change : AppliedPatchChange) :
    Option Files :=
  let path : TrackedPath := ⟨environmentId, Path.parse change.path⟩
  match change.change with
  | .add content overwrittenContent =>
    if files path = overwrittenContent then some (update files path (some content))
    else none
  | .delete content =>
    if files path = some content then some (update files path none) else none
  | .update none oldContent _ newContent =>
    if files path = some oldContent then some (update files path (some newContent))
    else none
  | .update (some movePath) oldContent overwrittenMoveContent newContent =>
    let dest : TrackedPath := ⟨environmentId, Path.parse movePath⟩
    if dest ≠ path ∧ files path = some oldContent ∧ files dest = overwrittenMoveContent then
      some (update (update files path none) dest (some newContent))
    else none

namespace TurnDiffTracker

def baseline (tracker : TurnDiffTracker) : Files := fun path =>
  (tracker.baselineByPath.lookup path).map (·.content)

def current (tracker : TurnDiffTracker) : Files := fun path =>
  (tracker.currentByPath.lookup path).map (·.content)

/-- The path is listed by a refresh. -/
def Tracked (tracker : TurnDiffTracker) (path : TrackedPath) : Prop :=
  path ∈ tracker.baselineByPath ∨ path ∈ tracker.currentByPath

variable {tracker : TurnDiffTracker} {path other : TrackedPath} {content : Str}

theorem baseline_eq_none : tracker.baseline path = none ↔ path ∉ tracker.baselineByPath := by
  unfold baseline
  rw [Option.map_eq_none_iff, AList.lookup_eq_none]

theorem current_eq_none : tracker.current path = none ↔ path ∉ tracker.currentByPath := by
  unfold current
  rw [Option.map_eq_none_iff, AList.lookup_eq_none]

theorem tracked_iff : tracker.Tracked path ↔ Touched tracker.baseline tracker.current path := by
  unfold Tracked Touched
  rw [Ne, Ne, baseline_eq_none, current_eq_none, not_not, not_not]

/-! ## What the maps hold after a step -/

theorem map_lookup_insert {m : HashMap TrackedPath TrackedContent} (tracked : TrackedContent) :
    (fun p => ((m.insert path tracked).lookup p).map (·.content)) =
      update (fun p => (m.lookup p).map (·.content)) path (some tracked.content) := by
  funext p
  by_cases hp : p = path
  · rw [hp, AList.lookup_insert, update_self]
    rfl
  · rw [AList.lookup_insert_ne hp, update_of_ne hp]

theorem map_lookup_erase {m : HashMap TrackedPath TrackedContent} :
    (fun p => ((m.erase path).lookup p).map (·.content)) =
      update (fun p => (m.lookup p).map (·.content)) path none := by
  funext p
  by_cases hp : p = path
  · rw [hp, AList.lookup_erase, update_self]
    rfl
  · rw [AList.lookup_erase_ne hp, update_of_ne hp]

@[simp] theorem baseline_insertBaseline :
    (tracker.insertBaseline path content).baseline =
      update tracker.baseline path (some content) :=
  map_lookup_insert ⟨content, tracker.nextRevision⟩

@[simp] theorem current_insertBaseline :
    (tracker.insertBaseline path content).current = tracker.current := rfl

@[simp] theorem baseline_insertCurrent :
    (tracker.insertCurrent path content).baseline = tracker.baseline := rfl

@[simp] theorem current_insertCurrent :
    (tracker.insertCurrent path content).current =
      update tracker.current path (some content) :=
  map_lookup_insert ⟨content, tracker.nextRevision⟩

/-- The content of a path that is not tracked goes into the baseline, and
nothing else does. -/
theorem baseline_captureBaseline (tracker : TurnDiffTracker) (path : TrackedPath)
    (content : Option Str) :
    (∀ other, other ≠ path →
      (tracker.captureBaseline path content).baseline other = tracker.baseline other) ∧
    (Touched tracker.baseline tracker.current path →
      (tracker.captureBaseline path content).baseline path = tracker.baseline path) ∧
    (¬Touched tracker.baseline tracker.current path →
      (tracker.captureBaseline path content).baseline path = content) := by
  unfold captureBaseline
  rw [← tracked_iff]
  split
  · next content =>
    split
    · next hnot =>
      rw [baseline_insertBaseline]
      refine ⟨fun other hne => update_of_ne hne _ _, fun h => ?_, fun _ =>
        update_self _ _ _⟩
      exact (h.elim hnot.2 hnot.1).elim
    · next hnot =>
      refine ⟨fun _ _ => rfl, fun _ => rfl, fun h => ?_⟩
      rw [Tracked, not_or] at h
      exact absurd ⟨h.2, h.1⟩ hnot
  · refine ⟨fun _ _ => rfl, fun _ => rfl, fun h => ?_⟩
    rw [Tracked, not_or] at h
    exact baseline_eq_none.2 h.1

@[simp] theorem current_captureBaseline (tracker : TurnDiffTracker) (path : TrackedPath)
    (content : Option Str) : (tracker.captureBaseline path content).current = tracker.current := by
  unfold captureBaseline
  split
  · split
    · rfl
    · rfl
  · rfl

theorem valid_captureBaseline (tracker : TurnDiffTracker) (path : TrackedPath)
    (content : Option Str) : (tracker.captureBaseline path content).valid = tracker.valid := by
  unfold captureBaseline
  split
  · split
    · rfl
    · rfl
  · rfl

theorem maps_applyAdd (tracker : TurnDiffTracker) (path : TrackedPath) (content : Str)
    (overwrittenContent : Option Str) :
    let next := tracker.applyAdd path content overwrittenContent
    next.baseline = (tracker.captureBaseline path overwrittenContent).baseline ∧
      next.current = update tracker.current path (some content) ∧
      next.valid = tracker.valid := by
  cases overwrittenContent with
  | none => exact ⟨rfl, map_lookup_insert _, rfl⟩
  | some overwritten =>
    by_cases hnew : path ∉ tracker.currentByPath ∧ path ∉ tracker.baselineByPath
    · simp only [applyAdd, captureBaseline, if_pos hnew]
      exact ⟨rfl, map_lookup_insert _, rfl⟩
    · simp only [applyAdd, captureBaseline, if_neg hnew]
      exact ⟨rfl, map_lookup_insert _, rfl⟩

/-- A deletion captures as the other changes do. -/
theorem maps_applyDelete (tracker : TurnDiffTracker) (path : TrackedPath) (content : Str) :
    let next := tracker.applyDelete path content
    next.baseline = (tracker.captureBaseline path (some content)).baseline ∧
      next.current = update tracker.current path none ∧
      next.valid = tracker.valid := by
  by_cases hnew : path ∉ tracker.currentByPath ∧ path ∉ tracker.baselineByPath
  · have hremoved : (tracker.currentByPath.lookup path).isNone = true ∧
        path ∉ tracker.baselineByPath :=
      ⟨Option.isNone_iff_eq_none.2 (AList.lookup_eq_none.2 hnew.1), hnew.2⟩
    simp only [applyDelete, captureBaseline, if_pos hnew, if_pos hremoved]
    exact ⟨rfl, map_lookup_erase, rfl⟩
  · have hremoved : ¬((tracker.currentByPath.lookup path).isNone = true ∧
        path ∉ tracker.baselineByPath) := fun h =>
      hnew ⟨AList.lookup_eq_none.1 (Option.isNone_iff_eq_none.1 h.1), h.2⟩
    simp only [applyDelete, captureBaseline, if_neg hnew, if_neg hremoved]
    exact ⟨rfl, map_lookup_erase, trivial⟩

theorem maps_applyUpdate (tracker : TurnDiffTracker) (path : TrackedPath) (oldContent : Str)
    (overwrittenMoveContent : Option Str) (newContent : Str) :
    let next := tracker.applyUpdate path none oldContent overwrittenMoveContent newContent
    next.baseline = (tracker.captureBaseline path (some oldContent)).baseline ∧
      next.current = update tracker.current path (some newContent) ∧
      next.valid = tracker.valid := by
  refine ⟨rfl, (map_lookup_insert _).trans ?_, valid_captureBaseline tracker path _⟩
  exact congrArg (update · path (some newContent))
    (current_captureBaseline tracker path (some oldContent))

/-- A move captures both paths, and the content leaves one for the other. -/
theorem maps_applyUpdate_move (tracker : TurnDiffTracker) (path dest : TrackedPath)
    (oldContent : Str) (overwrittenMoveContent : Option Str) (newContent : Str) :
    let next := tracker.applyUpdate path (some dest) oldContent overwrittenMoveContent newContent
    next.baseline = ((tracker.captureBaseline path (some oldContent)).captureBaseline dest
      overwrittenMoveContent).baseline ∧
    next.current =
      update (update tracker.current path none) dest (some newContent) ∧
    next.valid = tracker.valid := by
  refine ⟨rfl, (map_lookup_insert _).trans ?_, ?_⟩
  · have herase : ∀ tracker : TurnDiffTracker,
        (fun p => ((tracker.currentByPath.erase path).lookup p).map (·.content)) =
          update tracker.current path none := fun _ => map_lookup_erase
    rw [herase, current_captureBaseline, current_captureBaseline]
  · exact (valid_captureBaseline _ dest _).trans (valid_captureBaseline tracker path _)

/-! ## One change -/

section Change

variable {initial files files' : Files} {environmentId : Str}

/-- One path changes, and its content is captured if it was not tracked. -/
theorem tracks_captureBaseline (h : Tracks initial files tracker.baseline tracker.current)
    {oldContent : Option Str} (htrue : files path = oldContent) (newContent : Option Str) :
    Tracks initial (update files path newContent)
      (tracker.captureBaseline path oldContent).baseline
      (update tracker.current path newContent) := by
  obtain ⟨hframe, hkeep, hcapture⟩ := baseline_captureBaseline tracker path oldContent
  exact h.set path newContent hframe hkeep fun hnot => (hcapture hnot).trans htrue.symm

theorem tracks_applyUpdate_move {dest : TrackedPath} {oldContent newContent : Str}
    {overwrittenMoveContent : Option Str}
    (h : Tracks initial files tracker.baseline tracker.current) (hne : dest ≠ path)
    (htrue : files path = some oldContent) (hdest : files dest = overwrittenMoveContent) :
    let next := tracker.applyUpdate path (some dest) oldContent overwrittenMoveContent newContent
    Tracks initial (update (update files path none) dest (some newContent))
      next.baseline next.current := by
  intro next
  obtain ⟨hbaseline, hcurrent, -⟩ := maps_applyUpdate_move tracker path dest oldContent
    overwrittenMoveContent newContent
  obtain ⟨hframe, hkeep, hcapture⟩ := baseline_captureBaseline
    (tracker.captureBaseline path (some oldContent)) dest overwrittenMoveContent
  have hsource := tracks_captureBaseline h htrue none
  -- The removal of the source does not touch the destination.
  have htouched : Touched (tracker.captureBaseline path (some oldContent)).baseline
      (update tracker.current path none) dest ↔
      Touched (tracker.captureBaseline path (some oldContent)).baseline
        (tracker.captureBaseline path (some oldContent)).current dest := by
    unfold Touched
    rw [update_of_ne hne, current_captureBaseline]
  rw [hbaseline, hcurrent]
  refine hsource.set dest (some newContent) hframe (fun ht => hkeep (htouched.1 ht)) fun hnot => ?_
  rw [hcapture fun ht => hnot (htouched.2 ht), update_of_ne hne, hdest]

/-- **One truthful change** keeps the tracker at the files. -/
theorem tracks_applyChange {change : AppliedPatchChange}
    (h : Tracks initial files tracker.baseline tracker.current)
    (hcommit : commitChange environmentId files change = some files') :
    let next := applyChange environmentId tracker change
    Tracks initial files' next.baseline next.current ∧ next.valid = tracker.valid := by
  obtain ⟨path, change⟩ := change
  cases change with
  | add content overwrittenContent =>
    obtain ⟨htrue, heq⟩ := Option.ite_none_right_eq_some.1 hcommit
    cases heq
    obtain ⟨hbaseline, hcurrent, hvalid⟩ := maps_applyAdd tracker ⟨environmentId, Path.parse path⟩
      content overwrittenContent
    refine ⟨?_, hvalid⟩
    show Tracks _ _ (tracker.applyAdd _ content overwrittenContent).baseline
      (tracker.applyAdd _ content overwrittenContent).current
    rw [hbaseline, hcurrent]
    exact tracks_captureBaseline h htrue (some content)
  | delete content =>
    obtain ⟨htrue, heq⟩ := Option.ite_none_right_eq_some.1 hcommit
    cases heq
    obtain ⟨hbaseline, hcurrent, hvalid⟩ := maps_applyDelete tracker
      ⟨environmentId, Path.parse path⟩ content
    refine ⟨?_, hvalid⟩
    show Tracks _ _ (tracker.applyDelete _ content).baseline (tracker.applyDelete _ content).current
    rw [hbaseline, hcurrent]
    exact tracks_captureBaseline h htrue none
  | update movePath oldContent overwrittenMoveContent newContent =>
    cases movePath with
    | none =>
      obtain ⟨htrue, heq⟩ := Option.ite_none_right_eq_some.1 hcommit
      cases heq
      obtain ⟨hbaseline, hcurrent, hvalid⟩ := maps_applyUpdate tracker
        ⟨environmentId, Path.parse path⟩ oldContent overwrittenMoveContent newContent
      refine ⟨?_, hvalid⟩
      show Tracks _ _ (tracker.applyUpdate _ none oldContent overwrittenMoveContent
        newContent).baseline (tracker.applyUpdate _ none oldContent overwrittenMoveContent
        newContent).current
      rw [hbaseline, hcurrent]
      exact tracks_captureBaseline h htrue (some newContent)
    | some movePath =>
      obtain ⟨⟨hne, htrue, hdest⟩, heq⟩ := Option.ite_none_right_eq_some.1 hcommit
      cases heq
      exact ⟨tracks_applyUpdate_move h hne htrue hdest,
        (maps_applyUpdate_move tracker _ _ oldContent overwrittenMoveContent newContent).2.2⟩

end Change

/-! ## Runs -/

section Run

variable {initial files files' : Files}

/-- One call of `track_delta`, with the orders in which its refresh lists the maps. -/
structure Call where
  order : IterationOrder
  environmentId : Str
  delta : AppliedPatchDelta

def trackDeltas (tools : DiffTools) (tracker : TurnDiffTracker) (calls : List Call) :
    TurnDiffTracker :=
  calls.foldl (fun tracker call => tracker.trackDelta tools call.order call.environmentId call.delta)
    tracker

/-- The files after all changes, when every one of them tells the truth. -/
def commitAll (files : Files) (calls : List Call) : Option Files :=
  calls.foldlM (fun files call => call.delta.changes.foldlM (commitChange call.environmentId) files)
    files

theorem tracks_applyChanges {environmentId : Str} {changes : List AppliedPatchChange} :
    ∀ {tracker : TurnDiffTracker} {files : Files},
      Tracks initial files tracker.baseline tracker.current →
      changes.foldlM (commitChange environmentId) files = some files' →
      let next := changes.foldl (applyChange environmentId) tracker
      Tracks initial files' next.baseline next.current ∧ next.valid = tracker.valid := by
  induction changes with
  | nil =>
    intro tracker files h hcommit
    cases hcommit
    exact ⟨h, rfl⟩
  | cons change changes ih =>
    intro tracker files h hcommit
    obtain ⟨middle, hfirst, hrest⟩ := Option.bind_eq_some_iff.1 hcommit
    obtain ⟨htracks, hvalid⟩ := tracks_applyChange h hfirst
    obtain ⟨htracks', hvalid'⟩ := ih htracks hrest
    exact ⟨htracks', hvalid'.trans hvalid⟩

theorem trackDelta_exact (tools : DiffTools) (order : IterationOrder) {environmentId : Str}
    {delta : AppliedPatchDelta}
    (hvalid : tracker.valid = true) (hexact : delta.exact = true) :
    tracker.trackDelta tools order environmentId delta =
      (delta.changes.foldl (applyChange environmentId) tracker).refreshUnifiedDiff tools order := by
  unfold trackDelta
  rw [if_neg (by simp [hvalid]), if_neg (by simp [hexact])]

/-- Over a run of exact deltas. -/
theorem tracks_trackDeltas (tools : DiffTools) {calls : List Call} :
    ∀ {tracker : TurnDiffTracker} {files : Files}, tracker.valid = true →
      Tracks initial files tracker.baseline tracker.current →
      (∀ call ∈ calls, call.delta.exact = true) → commitAll files calls = some files' →
      let next := trackDeltas tools tracker calls
      Tracks initial files' next.baseline next.current := by
  induction calls with
  | nil =>
    intro tracker files _ h _ hcommit
    cases hcommit
    exact h
  | cons call calls ih =>
    intro tracker files hvalid h hexact hcommit
    obtain ⟨middle, hfirst, hrest⟩ := Option.bind_eq_some_iff.1 hcommit
    obtain ⟨htracks, hvalid'⟩ := tracks_applyChanges h hfirst
    show Tracks _ _ (trackDeltas tools (tracker.trackDelta _ _ _ _) calls).baseline
      (trackDeltas tools (tracker.trackDelta _ _ _ _) calls).current
    rw [trackDelta_exact tools call.order hvalid (hexact call mem_cons_self)]
    exact ih (hvalid'.trans hvalid) htracks (fun c hc => hexact c (mem_cons_of_mem _ hc)) hrest

end Run

/-! ## The pairs of a refresh -/

section Pairs

variable (order : IterationOrder)

theorem mem_of_lookup_collect {α β : Type} [DecidableEq α] {pairs : List (α × β)} {k : α} {v : β}
    (h : (collect pairs).lookup k = some v) : (k, v) ∈ pairs := by
  have hfold : ∀ (pairs : List (α × β)) (map : HashMap α β),
      (pairs.foldl (fun map pair => map.insert pair.1 pair.2) map).lookup k = some v →
      map.lookup k = some v ∨ (k, v) ∈ pairs := by
    intro pairs
    induction pairs with
    | nil => exact fun map h => .inl h
    | cons pair pairs ih =>
      intro map h
      rcases ih (map.insert pair.1 pair.2) h with hmap | hmem
      · by_cases hk : k = pair.1
        · subst hk
          rw [AList.lookup_insert] at hmap
          cases hmap
          exact .inr mem_cons_self
        · rw [AList.lookup_insert_ne hk] at hmap
          exact .inl hmap
      · exact .inr (mem_cons_of_mem _ hmem)
  rcases hfold pairs ∅ h with hempty | hmem
  · rw [AList.lookup_empty] at hempty
    cases hempty
  · exact hmem

/-- A pair of `rename_pairs` comes from an origin that passes its filter. -/
theorem renamePairs_spec {origin dest : TrackedPath}
    (h : (tracker.renamePairs order).lookup origin = some dest) :
    tracker.originByCurrentPath.lookup dest = some origin ∧ origin ∉ tracker.currentByPath ∧
      dest ∈ tracker.currentByPath ∧ origin ∈ tracker.baselineByPath ∧
      dest ∉ tracker.baselineByPath := by
  obtain ⟨⟨dest', origin'⟩, hmem, hpair⟩ := mem_filterMap.1 (mem_of_lookup_collect h)
  obtain ⟨hpass, heq⟩ := Option.ite_none_left_eq_some.1 hpair
  cases heq
  simp only [not_or, not_not] at hpass
  exact ⟨AList.mem_lookup_iff.2 ((order.origins_perm _).mem_iff.1 hmem), hpass.2⟩

/-- The rename pairs are renames of the maps. -/
theorem renames_renamePairs (tracker : TurnDiffTracker) :
    Renames tracker.baseline tracker.current fun origin =>
      (tracker.renamePairs order).lookup origin := by
  refine ⟨fun {origin dest} h => ?_, fun {origin dest} h => ?_, fun {origin origin' dest} h h' => ?_⟩
  · obtain ⟨-, hcurrent, -, hbaseline, -⟩ := renamePairs_spec order h
    exact ⟨fun hnone => baseline_eq_none.1 hnone hbaseline, current_eq_none.2 hcurrent⟩
  · obtain ⟨-, -, hcurrent, -, hbaseline⟩ := renamePairs_spec order h
    exact ⟨baseline_eq_none.2 hbaseline, fun hnone => current_eq_none.1 hnone hcurrent⟩
  · have horigin := (renamePairs_spec order h).1
    rw [(renamePairs_spec order h').1] at horigin
    exact (Option.some.inj horigin).symm

theorem mem_paired_iff {renamePairs : HashMap TrackedPath TrackedPath} :
    path ∈ renamePairs.entries.map (·.2) ↔ ∃ origin, renamePairs.lookup origin = some path := by
  rw [mem_map]
  constructor
  · rintro ⟨⟨origin, dest⟩, hmem, rfl⟩
    exact ⟨origin, AList.mem_lookup_iff.2 hmem⟩
  · rintro ⟨origin, horigin⟩
    exact ⟨⟨origin, path⟩, AList.mem_lookup_iff.1 horigin, rfl⟩

/-- The left paths that the loop still visits: each one once, those that are not
handled and not the destination of a rename. -/
structure Visits (renamePairs : HashMap TrackedPath TrackedPath) (handled paths lefts :
    List TrackedPath) : Prop where
  nodup : lefts.Nodup
  mem_iff : ∀ path, path ∈ lefts ↔ path ∈ paths ∧ path ∉ handled ∧
    ∀ origin, renamePairs.lookup origin ≠ some path

section Visits

variable {renamePairs : HashMap TrackedPath TrackedPath}
  {first : TrackedPath} {handled paths lefts : List TrackedPath}

theorem Visits.skip_handled (h : Visits renamePairs handled paths lefts) (hfirst : first ∈ handled) :
    Visits renamePairs handled (first :: paths) lefts := by
  refine ⟨h.nodup, fun path => ?_⟩
  rw [h.mem_iff]
  by_cases heq : path = first
  · simp [heq, hfirst]
  · simp [heq]

theorem Visits.skip_paired (h : Visits renamePairs (first :: handled) paths lefts)
    (hfirst : ∃ origin, renamePairs.lookup origin = some first) :
    Visits renamePairs handled (first :: paths) lefts := by
  refine ⟨h.nodup, fun path => ?_⟩
  rw [h.mem_iff]
  by_cases heq : path = first
  · simp [heq, hfirst]
  · simp [heq]

/-- A destination that is handled with its origin is not visited anyway. -/
theorem Visits.visit (extra : List TrackedPath)
    (h : Visits renamePairs (extra ++ first :: handled) paths lefts)
    (hextra : ∀ path ∈ extra, ∃ origin, renamePairs.lookup origin = some path)
    (hhandled : first ∉ handled) (hfree : ∀ origin, renamePairs.lookup origin ≠ some first) :
    Visits renamePairs handled (first :: paths) (first :: lefts) := by
  refine ⟨nodup_cons.2 ⟨fun hmem => ?_, h.nodup⟩, fun path => ?_⟩
  · exact ((h.mem_iff first).1 hmem).2.1 (mem_append_right _ mem_cons_self)
  · rw [mem_cons, h.mem_iff]
    by_cases heq : path = first
    · rw [heq]
      exact iff_of_true (.inl rfl) ⟨mem_cons_self, hhandled, hfree⟩
    · have hcongr : (∀ origin, renamePairs.lookup origin ≠ some path) →
          (path ∉ extra ++ first :: handled ↔ path ∉ handled) := by
        intro hpath
        have hnot : path ∉ extra := fun hmem =>
          (hextra path hmem).elim fun origin horigin => hpath origin horigin
        simp [hnot, heq]
      rw [mem_cons]
      constructor
      · rintro (hpath | ⟨hmem, hnot, hpath⟩)
        · exact absurd hpath heq
        · exact ⟨.inr hmem, (hcongr hpath).1 hnot, hpath⟩
      · rintro ⟨hmem, hnot, hpath⟩
        exact .inr ⟨hmem.resolve_left heq, (hcongr hpath).2 hnot, hpath⟩

end Visits

theorem visit_eq_listing (renamePairs : HashMap TrackedPath TrackedPath) :
    ∀ paths handled : List TrackedPath, ∃ lefts,
      visit renamePairs handled paths =
        listing (fun origin => renamePairs.lookup origin) lefts ∧
      Visits renamePairs handled paths lefts := by
  intro paths
  induction paths with
  | nil => exact fun handled => ⟨[], rfl, nodup_nil, fun path => by simp⟩
  | cons first paths ih =>
    intro handled
    unfold visit
    split
    · next hhandled =>
      obtain ⟨lefts, heq, hvisits⟩ := ih handled
      exact ⟨lefts, heq, hvisits.skip_handled hhandled⟩
    next hhandled =>
    split
    · next hpaired =>
      obtain ⟨lefts, heq, hvisits⟩ := ih (first :: handled)
      exact ⟨lefts, heq, hvisits.skip_paired (mem_paired_iff.1 hpaired)⟩
    next hpaired =>
    have hfree : ∀ origin, renamePairs.lookup origin ≠ some first := fun origin horigin =>
      hpaired (mem_paired_iff.2 ⟨origin, horigin⟩)
    split
    · next dest hdest =>
      obtain ⟨lefts, heq, hvisits⟩ := ih (dest :: first :: handled)
      refine ⟨first :: lefts, ?_, Visits.visit [dest] hvisits ?_ hhandled hfree⟩
      · rw [heq, listing_cons, hdest]
        rfl
      · intro path hmem
        exact ⟨first, mem_singleton.1 hmem ▸ hdest⟩
    · next hnone =>
      obtain ⟨lefts, heq, hvisits⟩ := ih (first :: handled)
      refine ⟨first :: lefts, ?_, Visits.visit [] hvisits ?_ hhandled hfree⟩
      · rw [heq, listing_cons, hnone]
        rfl
      · exact fun path hmem => absurd hmem not_mem_nil

/-- `Vec::dedup` loses no element. -/
theorem mem_destutter_ne {α : Type} [DecidableEq α] {a : α} {l : List α} :
    a ∈ l.destutter (· ≠ ·) ↔ a ∈ l := by
  have hfrom : ∀ (l : List α) (b : α), a ∈ l.destutter' (· ≠ ·) b ↔ a = b ∨ a ∈ l := by
    intro l
    induction l with
    | nil => simp
    | cons c l ih =>
      intro b
      by_cases hbc : b = c
      · rw [destutter'_cons_neg l (not_not.2 hbc), ih, hbc, mem_cons, ← or_assoc, or_self]
      · rw [destutter'_cons_pos l hbc, mem_cons, ih, mem_cons]
  cases l with
  | nil => rfl
  | cons b l => rw [destutter_cons', hfrom, mem_cons]

theorem mem_sortedPaths : path ∈ tracker.sortedPaths order ↔ tracker.Tracked path := by
  unfold sortedPaths Tracked
  rw [mem_destutter_ne, mem_mergeSort, mem_append,
    (order.baselineKeys_perm _).mem_iff, (order.currentKeys_perm _).mem_iff]
  rfl

/-- The pairs of a refresh, as a listing of the tracked paths. -/
theorem visitedPairs_eq_listing (tracker : TurnDiffTracker) :
    ∃ lefts, tracker.visitedPairs order =
        listing (fun origin => (tracker.renamePairs order).lookup origin) lefts ∧
      lefts.Nodup ∧ ∀ path, path ∈ lefts ↔ Touched tracker.baseline tracker.current path ∧
        ∀ origin, (tracker.renamePairs order).lookup origin ≠ some path := by
  obtain ⟨lefts, heq, hvisits⟩ :=
    visit_eq_listing (tracker.renamePairs order) (tracker.sortedPaths order) []
  refine ⟨lefts, heq, hvisits.nodup, fun path => ?_⟩
  rw [hvisits.mem_iff, mem_sortedPaths, tracked_iff]
  simp

end Pairs

/-- **The net diff of a turn.** After a run of exact deltas that tell the truth,
every path that changed is tracked, the maps hold the first and the last content
of what is tracked, and the pairs of a refresh, in whatever order the maps are
listed, mention each tracked path once and rewrite the first files into the
last. -/
theorem trackDeltas_net (tools : DiffTools) (roots : HashMap Str Path) {initial final : Files}
    {calls : List Call} (hexact : ∀ call ∈ calls, call.delta.exact = true)
    (htruthful : commitAll initial calls = some final) (order : IterationOrder) :
    let tracker := trackDeltas tools { displayRootsByEnvironment := roots } calls
    (∀ path, final path ≠ initial path → tracker.Tracked path) ∧
    (∀ path, tracker.Tracked path →
      tracker.baseline path = initial path ∧ tracker.current path = final path) ∧
    (mentions (tracker.visitedPairs order)).Nodup ∧
    (∀ path, path ∈ mentions (tracker.visitedPairs order) ↔ tracker.Tracked path) ∧
    (tracker.visitedPairs order).foldlM (rewritePair tracker.baseline tracker.current) initial =
      some final := by
  intro tracker
  have htracks : Tracks initial final tracker.baseline tracker.current :=
    tracks_trackDeltas tools rfl (tracks_nothing initial) hexact htruthful
  have hrenames := renames_renamePairs order tracker
  obtain ⟨lefts, heq, hnodup, hlefts⟩ := visitedPairs_eq_listing order tracker
  have hmentions := nodup_mentions_listing hrenames hnodup fun left hleft =>
    ((hlefts left).1 hleft).2
  have hmem := fun path => mem_mentions_iff_touched (k := path) hrenames hlefts
  simp only [tracked_iff]
  rw [heq]
  refine ⟨fun path => htracks.touched_of_ne, fun path hpath => ?_, hmentions, hmem, ?_⟩
  · exact ⟨htracks.baseline_eq hpath, htracks.current_eq hpath⟩
  · exact htracks.rewrite hrenames hmentions hmem

/-- Maps are listed as they are. -/
def insertionOrder : IterationOrder where
  baselineKeys := id
  currentKeys := id
  origins := id
  baselineKeys_perm _ := .refl _
  currentKeys_perm _ := .refl _
  origins_perm _ := .refl _

/-- A file is moved, edited and moved on, and a new one takes its place. -/
def chainOfMoves : List Call :=
  [⟨insertionOrder, [], { changes :=
      [⟨"/w/a".toList, .update (some "/w/b".toList) "1".toList none "2".toList⟩,
        ⟨"/w/b".toList, .update (some "/w/c".toList) "2".toList none "3".toList⟩] }⟩,
    ⟨insertionOrder, [], { changes := [⟨"/w/a".toList, .add "4".toList none⟩] }⟩]

def oneFile : Files := update (fun _ => none) ⟨[], Path.parse "/w/a".toList⟩ (some "1".toList)

theorem chainOfMoves_net :
    ∃ final, commitAll oneFile chainOfMoves = some final ∧
      let tracker := trackDeltas ⟨id, fun _ _ _ _ => []⟩ {} chainOfMoves
      (tracker.visitedPairs insertionOrder).foldlM (rewritePair tracker.baseline tracker.current)
        oneFile = some final :=
  ⟨_, rfl, (trackDeltas_net _ ∅ (by decide) rfl insertionOrder).2.2.2.2⟩

end TurnDiffTracker

end Codex.TurnDiff
