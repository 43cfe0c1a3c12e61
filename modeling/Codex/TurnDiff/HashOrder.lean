import Codex.Base.Machine
import Codex.TurnDiff.Cache

/-!
# The order of the hash maps

A refresh lists hash maps, and keeps one destination for each origin. The diff
does not depend on the order of the maps as long as no origin gets a second
destination and no two changed paths are shown alike.
-/

namespace Codex.TurnDiff.TurnDiffTracker

open Codex.Text Codex.ApplyPatch Codex.Permissions Codex.Machine

variable {tools : DiffTools} {tracker : TurnDiffTracker} {initial files : Files} {environmentId : Str}
  {change : AppliedPatchChange} {order order' : IterationOrder}

/-! ## What the order may decide -/

/-- The entry of the origins passes the filter of `rename_pairs`. -/
def Passes (tracker : TurnDiffTracker) (dest origin : TrackedPath) : Prop :=
  tracker.originByCurrentPath.lookup dest = some origin ∧
    tracker.renamePair ⟨dest, origin⟩ = some (origin, dest)

instance decidablePasses (tracker : TurnDiffTracker) (dest origin : TrackedPath) :
    Decidable (tracker.Passes dest origin) := inferInstanceAs (Decidable (_ ∧ _))

/-- `rename_pairs` loses no rename. -/
def OneDestination (tracker : TurnDiffTracker) : Prop :=
  ∀ origin dest dest', tracker.Passes dest origin → tracker.Passes dest' origin → dest = dest'

/-- No two changed paths are shown alike. -/
def ShownApart (tracker : TurnDiffTracker) : Prop :=
  let paths := tracker.baselineByPath.keys ++ tracker.currentByPath.keys
  ∀ path ∈ paths, ∀ other ∈ paths, tracker.baseline path ≠ tracker.current path →
    tracker.baseline other ≠ tracker.current other →
    tracker.displayPath path = tracker.displayPath other → path = other

def sourceOf (environmentId : Str) (change : AppliedPatchChange) : TrackedPath :=
  ⟨environmentId, Path.parse change.path⟩

/-- Where a change moves its file. -/
def destinationOf (environmentId : Str) (change : AppliedPatchChange) : Option TrackedPath :=
  match change.change with
  | .update (some movePath) _ _ _ => some ⟨environmentId, Path.parse movePath⟩
  | _ => none

/-- Where the content of a path is from. -/
def originOf (tracker : TurnDiffTracker) (path : TrackedPath) : TrackedPath :=
  (tracker.originByCurrentPath.lookup path).getD path

/-- A move takes no file of the first files to a new path while another new path
is still a destination of it. -/
def MovesApart (initial : Files) (environmentId : Str) (tracker : TurnDiffTracker)
    (change : AppliedPatchChange) : Prop :=
  ∀ dest ∈ destinationOf environmentId change,
    let source := sourceOf environmentId change
    initial (tracker.originOf source) ≠ none → initial dest = none →
    ∀ entry ∈ tracker.originByCurrentPath.entries, entry.2 = tracker.originOf source →
      entry.1 ≠ source → entry.1 ≠ dest → initial entry.1 ≠ none

instance decidableMovesApart (initial : Files) (environmentId : Str) (tracker : TurnDiffTracker)
    (change : AppliedPatchChange) : Decidable (MovesApart initial environmentId tracker change) :=
  inferInstanceAs (Decidable (∀ dest ∈ destinationOf environmentId change, _))

instance decidableShownApart (tracker : TurnDiffTracker) : Decidable tracker.ShownApart :=
  inferInstanceAs (Decidable (∀ path ∈ tracker.baselineByPath.keys ++ tracker.currentByPath.keys, _))

/-- Every move of the delta is apart, and what is changed then is shown apart. -/
def KeepsApart (initial : Files) (tracker : TurnDiffTracker) (call : Call) : Prop :=
  AllMeet (fun tracker change => some (applyChange call.environmentId tracker change))
    (MovesApart initial call.environmentId) tracker call.delta.changes ∧
  (call.delta.changes.foldl (applyChange call.environmentId) tracker).ShownApart

instance decidableKeepsApart (initial : Files) (tracker : TurnDiffTracker) (call : Call) :
    Decidable (KeepsApart initial tracker call) := inferInstanceAs (Decidable (_ ∧ _))

def trackCall (tools : DiffTools) (tracker : TurnDiffTracker) (call : Call) :
    Option TurnDiffTracker :=
  some (tracker.trackDelta tools call.order call.environmentId call.delta)

/-! ## Origins -/

@[simp] theorem origins_captureBaseline (tracker : TurnDiffTracker) (path : TrackedPath)
    (content : Option Str) :
    (tracker.captureBaseline path content).originByCurrentPath = tracker.originByCurrentPath := by
  unfold captureBaseline
  split
  · split
    · rfl
    · rfl
  · rfl

theorem origins_applyAdd (tracker : TurnDiffTracker) (path : TrackedPath) (content : Str)
    (overwrittenContent : Option Str) :
    (tracker.applyAdd path content overwrittenContent).originByCurrentPath =
      tracker.originByCurrentPath.erase path :=
  origins_captureBaseline _ path overwrittenContent

theorem origins_applyDelete (tracker : TurnDiffTracker) (path : TrackedPath) (content : Str) :
    (tracker.applyDelete path content).originByCurrentPath =
      tracker.originByCurrentPath.erase path := by
  simp only [applyDelete]
  split
  · rfl
  · rfl

theorem origins_applyUpdate_move (tracker : TurnDiffTracker) (sourcePath destPath : TrackedPath)
    (oldContent : Str) (overwrittenMoveContent : Option Str) (newContent : Str) :
    let origins := (tracker.originByCurrentPath.erase sourcePath).erase destPath
    (tracker.applyUpdate sourcePath (some destPath) oldContent overwrittenMoveContent
      newContent).originByCurrentPath =
      if destPath ≠ tracker.originOf sourcePath then
        origins.insert destPath (tracker.originOf sourcePath)
      else origins := by
  have hsame : ((tracker.captureBaseline sourcePath (some oldContent)).captureBaseline destPath
      overwrittenMoveContent).originByCurrentPath = tracker.originByCurrentPath := by
    rw [origins_captureBaseline, origins_captureBaseline]
  simp only [applyUpdate, insertCurrent, trackedContent, hsame]
  rfl

/-- An origin is an old one, of a path that the change neither moves nor moves
to, or the one of the moved file. -/
theorem origin_applyChange {path origin : TrackedPath}
    (h : (applyChange environmentId tracker change).originByCurrentPath.lookup path = some origin) :
    tracker.originByCurrentPath.lookup path = some origin ∧
        (∀ dest ∈ destinationOf environmentId change,
          path ≠ sourceOf environmentId change ∧ path ≠ dest) ∨
      destinationOf environmentId change = some path ∧
        origin = tracker.originOf (sourceOf environmentId change) := by
  obtain ⟨source, change⟩ := change
  cases change with
  | add content overwrittenContent =>
    simp only [applyChange, origins_applyAdd] at h
    exact .inl ⟨lookup_of_lookup_erase h, nofun⟩
  | delete content =>
    simp only [applyChange, origins_applyDelete] at h
    exact .inl ⟨lookup_of_lookup_erase h, nofun⟩
  | update movePath oldContent overwrittenMoveContent newContent =>
    cases movePath with
    | none =>
      change (tracker.captureBaseline _ (some oldContent)).originByCurrentPath.lookup path = _ at h
      rw [origins_captureBaseline] at h
      exact .inl ⟨h, nofun⟩
    | some movePath =>
      simp only [applyChange, Option.map_some, origins_applyUpdate_move] at h
      have hold : (((tracker.originByCurrentPath.erase ⟨environmentId, Path.parse source⟩).erase
          ⟨environmentId, Path.parse movePath⟩).lookup path = some origin) →
          tracker.originByCurrentPath.lookup path = some origin ∧
            ∀ dest ∈ destinationOf environmentId
                ⟨source, .update (some movePath) oldContent overwrittenMoveContent newContent⟩,
              path ≠ ⟨environmentId, Path.parse source⟩ ∧ path ≠ dest := by
        intro herased
        refine ⟨lookup_of_lookup_erase (lookup_of_lookup_erase herased), ?_⟩
        rintro dest ⟨⟩
        refine ⟨?_, ?_⟩
        · rintro rfl
          have := lookup_of_lookup_erase herased
          rw [AList.lookup_erase] at this
          cases this
        · rintro rfl
          rw [AList.lookup_erase] at herased
          cases herased
      split at h
      · rcases lookup_of_lookup_insert h with ⟨rfl, rfl⟩ | herased
        · exact .inr ⟨rfl, rfl⟩
        · exact .inl (hold herased)
      · exact .inl (hold h)

/-- Of the paths that are new, at most one is a destination of a file that was there. -/
def LoneMoves (initial : Files) (tracker : TurnDiffTracker) : Prop :=
  ∀ origin dest dest', tracker.originByCurrentPath.lookup dest = some origin →
    tracker.originByCurrentPath.lookup dest' = some origin → initial origin ≠ none →
    initial dest = none → initial dest' = none → dest = dest'

theorem MovesApart.not_new {dest other : TrackedPath}
    (h : MovesApart initial environmentId tracker change)
    (hdest : destinationOf environmentId change = some dest)
    (hthere : initial (tracker.originOf (sourceOf environmentId change)) ≠ none)
    (hnew : initial dest = none)
    (hlookup : tracker.originByCurrentPath.lookup other =
      some (tracker.originOf (sourceOf environmentId change)))
    (hother : other ≠ sourceOf environmentId change ∧ other ≠ dest) : initial other ≠ none := by
  have hmem := AList.mem_lookup_iff.1 hlookup
  exact h dest hdest hthere hnew _ hmem rfl hother.1 hother.2

theorem LoneMoves.applyChange (h : LoneMoves initial tracker)
    (hapart : MovesApart initial environmentId tracker change) :
    LoneMoves initial (TurnDiffTracker.applyChange environmentId tracker change) := by
  intro origin dest dest' hdest hdest' hthere hnew hnew'
  rcases origin_applyChange hdest with ⟨hold, hkept⟩ | ⟨hmoved, horigin⟩
  · rcases origin_applyChange hdest' with ⟨hold', -⟩ | ⟨hmoved', rfl⟩
    · exact h origin dest dest' hold hold' hthere hnew hnew'
    · exact absurd hnew (hapart.not_new hmoved' hthere hnew' hold (hkept dest' hmoved'))
  · subst horigin
    rcases origin_applyChange hdest' with ⟨hold', hkept'⟩ | ⟨hmoved', -⟩
    · exact absurd hnew' (hapart.not_new hmoved hthere hnew hold' (hkept' dest hmoved))
    · exact Option.some.inj (hmoved.symm.trans hmoved')

theorem LoneMoves.applyChanges {changes : List AppliedPatchChange} (h : LoneMoves initial tracker)
    (hapart : AllMeet (fun tracker change =>
      some (TurnDiffTracker.applyChange environmentId tracker change))
      (MovesApart initial environmentId) tracker changes) :
    LoneMoves initial (changes.foldl (TurnDiffTracker.applyChange environmentId) tracker) := by
  induction changes generalizing tracker with
  | nil => exact h
  | cons change changes ih =>
    obtain ⟨hfirst, hrest⟩ := allMeet_cons.1 hapart
    exact ih (h.applyChange hfirst) (hrest _ rfl)

/-- Where the maps are those of the files, what passes the filter is a move of a
file that was there to a new path. -/
theorem LoneMoves.oneDestination (h : LoneMoves initial tracker)
    (htracks : Tracks initial files tracker.baseline tracker.current) : tracker.OneDestination := by
  have hpasses : ∀ {dest origin}, tracker.Passes dest origin →
      initial origin ≠ none ∧ initial dest = none := by
    rintro dest origin ⟨-, hpass⟩
    obtain ⟨hfilter, -⟩ := Option.ite_none_left_eq_some.1 hpass
    simp only [not_or, not_not] at hfilter
    obtain ⟨-, -, hcurrent, hbaseline, hnot⟩ := hfilter
    have horigin : tracker.baseline origin ≠ none := fun hnone =>
      baseline_eq_none.1 hnone hbaseline
    have hdest : tracker.current dest ≠ none := fun hnone => current_eq_none.1 hnone hcurrent
    refine ⟨?_, ?_⟩
    · rwa [← htracks.baseline_eq (.inl horigin)]
    · rw [← htracks.baseline_eq (.inr hdest)]
      exact baseline_eq_none.2 hnot
  intro origin dest dest' hdest hdest'
  exact h origin dest dest' hdest.1 hdest'.1 (hpasses hdest).1 (hpasses hdest).2 (hpasses hdest').2

/-! ## A refresh -/

theorem exists_lookup_collect {α β : Type} [DecidableEq α] {pairs : List (α × β)} {key : α} {value : β}
    (h : (key, value) ∈ pairs) : ∃ other, (collect pairs).lookup key = some other := by
  have hkeep : ∀ (pairs : List (α × β)) (map : HashMap α β), key ∈ map →
      key ∈ pairs.foldl (fun map pair => map.insert pair.1 pair.2) map := by
    intro pairs
    induction pairs with
    | nil => exact fun map hmem => hmem
    | cons pair pairs ih => exact fun map hmem => ih _ ((AList.mem_insert map).2 (.inr hmem))
  obtain ⟨before, after, rfl⟩ := List.append_of_mem h
  unfold collect
  rw [List.foldl_append, List.foldl_cons, ← Option.isSome_iff_exists, AList.lookup_isSome]
  exact hkeep after _ ((AList.mem_insert _).2 (.inl rfl))

/-- With one destination for each origin, the pairs are what passes the filter. -/
theorem lookup_renamePairs (h : tracker.OneDestination) {origin dest : TrackedPath} :
    (tracker.renamePairs order).lookup origin = some dest ↔ tracker.Passes dest origin := by
  have hpass : ∀ {origin dest}, (tracker.renamePairs order).lookup origin = some dest →
      tracker.Passes dest origin := by
    intro origin dest hlookup
    obtain ⟨horigin, hrest⟩ := renamePairs_spec order hlookup
    refine ⟨horigin, if_neg ?_⟩
    have hne : dest ≠ origin := fun heq => hrest.1 (heq ▸ hrest.2.1)
    simp only [not_or, not_not]
    exact ⟨hne, hrest⟩
  refine ⟨hpass, fun hdest => ?_⟩
  have hmem : (origin, dest) ∈
      (order.origins tracker.originByCurrentPath.entries).filterMap tracker.renamePair :=
    List.mem_filterMap.2
      ⟨_, (order.origins_perm _).mem_iff.2 (AList.mem_lookup_iff.1 hdest.1), hdest.2⟩
  obtain ⟨other, hother⟩ := exists_lookup_collect hmem
  rw [h origin dest other hdest (hpass hother)]
  exact hother

theorem visit_sublist (renamePairs : HashMap TrackedPath TrackedPath) :
    ∀ paths handled : List TrackedPath,
      ((visit renamePairs handled paths).map Prod.fst).Sublist paths := by
  intro paths
  induction paths with
  | nil => exact fun _ => List.Sublist.refl []
  | cons path paths ih =>
    intro handled
    unfold visit
    split
    · exact (ih _).cons path
    split
    · exact (ih _).cons path
    split
    · exact (ih _).cons_cons path
    · exact (ih _).cons_cons path

/-- The pairs stand in the order of their left paths as shown. -/
theorem visitedPairs_sorted (order : IterationOrder) (tracker : TurnDiffTracker) :
    ((tracker.visitedPairs order).map Prod.fst).Pairwise fun left right =>
      tracker.displayPath left ≤ tracker.displayPath right := by
  have hsorted : ∀ paths : List TrackedPath, (paths.mergeSort fun left right =>
      decide (tracker.displayPath left ≤ tracker.displayPath right)).Pairwise fun left right =>
        decide (tracker.displayPath left ≤ tracker.displayPath right) = true := by
    refine List.pairwise_mergeSort (fun a b c hab hbc => ?_) fun a b => ?_
    · rw [decide_eq_true_eq] at hab hbc ⊢
      exact hab.trans hbc
    · rw [Bool.or_eq_true, decide_eq_true_eq, decide_eq_true_eq]
      exact le_total _ _
  simp only [decide_eq_true_eq] at hsorted
  have hpaths : (tracker.sortedPaths order).Pairwise fun left right =>
      tracker.displayPath left ≤ tracker.displayPath right :=
    (hsorted _).sublist (List.destutter_sublist (· ≠ ·) _)
  exact hpaths.sublist (visit_sublist _ (tracker.sortedPaths order) [])

/-- A path that has its first content is no origin, and nothing is rendered for it. -/
theorem renderAll_changed {renames : TrackedPath → Option TrackedPath}
    (h : Renames tracker.baseline tracker.current renames) (lefts : List TrackedPath) :
    renderAll tools tracker (listing renames lefts) =
      renderAll tools tracker (listing renames
        (lefts.filter fun path => tracker.baseline path ≠ tracker.current path)) := by
  unfold renderAll
  generalize ([] : Str) = text
  induction lefts generalizing text with
  | nil => rfl
  | cons left lefts ih =>
    by_cases hchanged : tracker.baseline left ≠ tracker.current left
    · rw [List.filter_cons_of_pos (by simpa using hchanged)]
      exact ih _
    · rw [List.filter_cons_of_neg (by simpa using hchanged), ← ih]
      have hstays : renames left = none := by
        cases hdest : renames left with
        | none => rfl
        | some dest =>
          obtain ⟨hbaseline, hcurrent⟩ := h.vanished hdest
          rw [not_not.1 hchanged] at hbaseline
          exact absurd hcurrent hbaseline
      have hnothing : renderFresh tools tracker (left, (renames left).getD left) = none := by
        rw [hstays]
        exact if_pos (not_not.1 hchanged)
      rw [listing_cons, List.foldl_cons, hnothing]
      rfl

/-- **The orders do not matter** to a refresh where every origin has one
destination and the changed paths are shown apart. -/
theorem netDiff_eq_of_apart (h : tracker.OneDestination) (hshown : tracker.ShownApart)
    (order order' : IterationOrder) :
    tracker.netDiff tools order = tracker.netDiff tools order' := by
  have hsame : ∀ origin, (tracker.renamePairs order').lookup origin =
      (tracker.renamePairs order).lookup origin := by
    refine fun origin => Option.ext fun dest => ?_
    rw [lookup_renamePairs h, lookup_renamePairs h]
  obtain ⟨lefts, heq, hnodup, hmem⟩ := visitedPairs_eq_listing order tracker
  obtain ⟨lefts', heq', hnodup', hmem'⟩ := visitedPairs_eq_listing order' tracker
  simp only [hsame] at heq' hmem'
  have hfst : ∀ lefts : List TrackedPath,
      (listing (fun origin => (tracker.renamePairs order).lookup origin) lefts).map Prod.fst =
        lefts := by
    intro lefts
    unfold listing
    rw [List.map_map]
    exact List.map_id lefts
  have hsorted := visitedPairs_sorted order tracker
  have hsorted' := visitedPairs_sorted order' tracker
  rw [heq, hfst] at hsorted
  rw [heq', hfst] at hsorted'
  have hperm : lefts.Perm lefts' := (List.perm_ext_iff_of_nodup hnodup hnodup').2 fun path => by
    rw [hmem, hmem']
  have hmem_keys : ∀ path, Touched tracker.baseline tracker.current path →
      path ∈ tracker.baselineByPath.keys ++ tracker.currentByPath.keys := fun path hpath =>
    List.mem_append.2 (tracked_iff.2 hpath)
  -- Among the changed paths the order of the listing is strict.
  have hchanged : (lefts.filter fun path => tracker.baseline path ≠ tracker.current path) =
      lefts'.filter fun path => tracker.baseline path ≠ tracker.current path := by
    refine List.Perm.eq_of_pairwise (fun a b ha hb hab hba => ?_) (hsorted.filter _)
      (hsorted'.filter _) (hperm.filter _)
    rw [List.mem_filter, decide_eq_true_eq] at ha hb
    exact hshown a (hmem_keys a ((hmem a).1 ha.1).1) b (hmem_keys b ((hmem' b).1 hb.1).1) ha.2 hb.2
      (le_antisymm hab hba)
  have hrenames := renames_renamePairs order tracker
  unfold netDiff
  rw [heq, heq', renderAll_changed hrenames lefts, renderAll_changed hrenames lefts', hchanged]

/-! ## Runs -/

/-- The deltas of a run, without the orders in which its maps are listed. -/
def deltasOf (calls : List Call) : List (Str × AppliedPatchDelta) :=
  calls.map fun call => (call.environmentId, call.delta)

/-- What holds of the tracker at each call of a run that keeps apart. -/
structure Apart (tools : DiffTools) (initial files : Files) (tracker : TurnDiffTracker) : Prop where
  valid : tracker.valid = true
  sound : Sound tools tracker
  tracks : Tracks initial files tracker.baseline tracker.current
  lone : LoneMoves initial tracker

theorem Apart.trackDelta {files' : Files} {call : Call} (h : Apart tools initial files tracker)
    (hexact : call.delta.exact = true)
    (hcommit : call.delta.changes.foldlM (commitChange call.environmentId) files = some files')
    (hapart : KeepsApart initial tracker call) :
    Apart tools initial files'
      (tracker.trackDelta tools call.order call.environmentId call.delta) := by
  obtain ⟨htracks, hvalid⟩ := tracks_applyChanges h.tracks hcommit
  have hsound := h.sound.applyChanges call.environmentId call.delta.changes
  rw [trackDelta_exact tools call.order h.valid hexact]
  refine ⟨hvalid.trans h.valid, (hsound.refresh call.order).2, htracks, ?_⟩
  exact h.lone.applyChanges hapart.1

/-- Another order shows the same diff. -/
theorem Apart.trackDelta_order {files' : Files} {other : TurnDiffTracker} {call : Call}
    (h : Apart tools initial files tracker) (hother : Sound tools other)
    (halike : tracker.clearRendered = other.clearRendered) (hexact : call.delta.exact = true)
    (hcommit : call.delta.changes.foldlM (commitChange call.environmentId) files = some files')
    (hapart : KeepsApart initial tracker call) (order : IterationOrder) :
    let next := other.trackDelta tools order call.environmentId call.delta
    Sound tools next ∧ next.clearRendered =
      (tracker.trackDelta tools call.order call.environmentId call.delta).clearRendered := by
  intro next
  have hvalid : other.valid = true := by
    have hboth := congrArg TurnDiffTracker.valid halike
    exact hboth.symm.trans h.valid
  have hsound := h.sound.applyChanges call.environmentId call.delta.changes
  have hsound' := hother.applyChanges call.environmentId call.delta.changes
  have hnext : next = _ := trackDelta_exact tools order hvalid hexact
  rw [hnext, trackDelta_exact tools call.order h.valid hexact]
  refine ⟨(hsound'.refresh order).2, ?_⟩
  rw [hsound'.clearRendered_refresh, hsound.clearRendered_refresh, clearRendered_applyChanges,
    clearRendered_applyChanges, ← halike, ← clearRendered_applyChanges]
  obtain ⟨htracks, -⟩ := tracks_applyChanges h.tracks hcommit
  have hone := (h.lone.applyChanges hapart.1).oneDestination htracks
  -- The cache is no part of what the order is about.
  have hdiff : netDiff tools order
      (call.delta.changes.foldl (applyChange call.environmentId) tracker).clearRendered =
      netDiff tools call.order
        (call.delta.changes.foldl (applyChange call.environmentId) tracker).clearRendered :=
    netDiff_eq_of_apart hone hapart.2 order call.order
  rw [hdiff]

theorem trackDeltas_order {final : Files} {calls : List Call} :
    ∀ {tracker other : TurnDiffTracker} {files : Files} {calls' : List Call},
      Apart tools initial files tracker → Sound tools other →
      tracker.clearRendered = other.clearRendered →
      (∀ call ∈ calls, call.delta.exact = true) → commitAll files calls = some final →
      AllMeet (trackCall tools) (KeepsApart initial) tracker calls →
      deltasOf calls' = deltasOf calls →
      Apart tools initial final (trackDeltas tools tracker calls) ∧
        (trackDeltas tools other calls').clearRendered =
          (trackDeltas tools tracker calls).clearRendered := by
  induction calls with
  | nil =>
    intro tracker other files calls' h _ halike _ hcommit _ hdeltas
    cases hcommit
    cases List.map_eq_nil_iff.1 hdeltas
    exact ⟨h, halike.symm⟩
  | cons call calls ih =>
    intro tracker other files calls' h hother halike hexact hcommit hmeet hdeltas
    obtain ⟨middle, hfirst, hrest⟩ := Option.bind_eq_some_iff.1 hcommit
    obtain ⟨hapart, hmeets⟩ := allMeet_cons.1 hmeet
    obtain ⟨call', calls', rfl, hcall, hcalls⟩ := List.map_eq_cons_iff.1 hdeltas
    obtain ⟨henv, hdelta⟩ := Prod.mk.inj hcall
    have hexactCall := hexact call List.mem_cons_self
    obtain ⟨hsound, hnext⟩ :=
      h.trackDelta_order hother halike hexactCall hfirst hapart call'.order
    have hrun := ih (h.trackDelta hexactCall hfirst hapart) hsound hnext.symm
      (fun c hc => hexact c (List.mem_cons_of_mem _ hc)) hrest (hmeets _ rfl) hcalls
    show _ ∧ (trackDeltas tools
      (other.trackDelta tools call'.order call'.environmentId call'.delta) calls').clearRendered = _
    rw [henv, hdelta]
    exact hrun

/-- **The diff without the hash order.** In every state of a run of exact and
truthful deltas that keeps apart, `rename_pairs` loses no rename, and the diff is
the one that the run shows with any other orders of its maps. -/
theorem diff_ignores_hash_order (tools : DiffTools) (roots : HashMap Str Path) (initial : Files)
    (calls : List Call) {final : Files}
    (hexact : ∀ call ∈ calls, call.delta.exact = true)
    (htruthful : commitAll initial calls = some final)
    (hmeet : AllMeet (trackCall tools) (KeepsApart initial) { displayRootsByEnvironment := roots }
      calls) {before after : List Call} (hsplit : calls = before ++ after) :
    let tracker := trackDeltas tools { displayRootsByEnvironment := roots } before
    tracker.OneDestination ∧ ∀ before', deltasOf before' = deltasOf before →
      (trackDeltas tools { displayRootsByEnvironment := roots } before').unifiedDiff =
        tracker.unifiedDiff := by
  intro tracker
  subst hsplit
  have hfresh : Apart tools initial initial { displayRootsByEnvironment := roots } :=
    ⟨rfl, sound_fresh tools roots, tracks_nothing initial, nofun⟩
  obtain ⟨files, hbefore, -⟩ := Option.bind_eq_some_iff.1
    (List.foldlM_append.symm.trans htruthful)
  have hmeetBefore : AllMeet (trackCall tools) (KeepsApart initial)
      { displayRootsByEnvironment := roots } before := by
    intro first call rest state hpart hrun
    refine hmeet first call (rest ++ after) state ?_ hrun
    rw [hpart, List.append_assoc, List.cons_append]
  have hrun := fun before' (hdeltas : deltasOf before' = deltasOf before) =>
    trackDeltas_order hfresh hfresh.sound rfl
      (fun call hcall => hexact call (List.mem_append_left _ hcall)) hbefore hmeetBefore hdeltas
  refine ⟨?_, fun before' hdeltas => ?_⟩
  · have hapart := (hrun before rfl).1
    exact hapart.lone.oneDestination hapart.tracks
  · have hdiff := congrArg unifiedDiff (hrun before' hdeltas).2
    exact hdiff

/-- SHA-1 of four blobs, and the unified diff of files of at most one line. -/
def oneLineTools : DiffTools where
  sha1 blob :=
    if blob = "blob 2\x001\n".toList then "d00491fd7e5bb6fa28c517a0bb32b8b506539d4d".toList
    else if blob = "blob 2\x002\n".toList then "0cfbf08886fca9a91cb753ec8734c84fcbe52c9f".toList
    else if blob = "blob 2\x003\n".toList then "00750edc07d6415dcc07ae0351e9397b0222b7ba".toList
    else "b8626c4cff2849624fb67f87cd0ad72b163671ad".toList
  unifiedDiff left right oldHeader newHeader :=
    let lines : Str → Str := fun text => if text = [] then "0,0".toList else "1".toList
    let marked : Char → Str → Str := fun mark text => if text = [] then [] else mark :: text
    "--- ".toList ++ oldHeader ++ "\n+++ ".toList ++ newHeader ++ "\n@@ -".toList ++ lines left ++
      " +".toList ++ lines right ++ " @@\n".toList ++ marked '-' left ++ marked '+' right

/-- A file is moved and made again. -/
def movedAndMade (order : IterationOrder) : List Call :=
  [⟨order, [], { changes :=
      [⟨"/w/a".toList, .update (some "/w/b".toList) "1\n".toList none "2\n".toList⟩] }⟩,
    ⟨order, [], { changes := [⟨"/w/a".toList, .add "3\n".toList none⟩] }⟩]

/-- The new file is moved, too. -/
def movedAgain (order : IterationOrder) : Call :=
  ⟨order, [], { changes :=
    [⟨"/w/a".toList, .update (some "/w/c".toList) "3\n".toList none "4\n".toList⟩] }⟩

def firstFile : Files :=
  Function.update (fun _ => none) ⟨[], Path.parse "/w/a".toList⟩ (some "1\n".toList)

/-- The newest destination first, or last. -/
def newestLast : IterationOrder where
  baselineKeys := id
  currentKeys := List.reverse
  origins := List.reverse
  baselineKeys_perm := List.Perm.refl
  currentKeys_perm := List.reverse_perm
  origins_perm := List.reverse_perm

def newestFirst : IterationOrder := { newestLast with origins := id, origins_perm := List.Perm.refl }

theorem diff_ignores_hash_order_made_again :
    (trackDeltas oneLineTools {} (movedAndMade newestLast)).unifiedDiff =
      (trackDeltas oneLineTools {} (movedAndMade newestFirst)).unifiedDiff :=
  (diff_ignores_hash_order oneLineTools ∅ firstFile (movedAndMade newestFirst) (by decide +kernel) rfl
    (by decide +kernel) (List.append_nil _).symm).2 _ rfl

/-- The maps after the last change of a run. -/
theorem unifiedDiff_trackDeltas_concat (tools : DiffTools) (roots : HashMap Str Path)
    {calls : List Call} {call : Call}
    (hvalid : (trackDeltas tools { displayRootsByEnvironment := roots } calls).valid = true)
    (hexact : call.delta.exact = true) :
    (trackDeltas tools { displayRootsByEnvironment := roots } (calls ++ [call])).unifiedDiff =
      (call.delta.changes.foldl (applyChange call.environmentId)
        (trackDeltas tools { displayRootsByEnvironment := roots } calls)).netDiff tools
          call.order := by
  have hsound : ∀ (calls : List Call) {tracker}, Sound tools tracker →
      Sound tools (trackDeltas tools tracker calls) := by
    intro calls
    induction calls with
    | nil => exact fun h => h
    | cons call calls ih =>
      exact fun h => ih (h.trackDelta call.order call.environmentId call.delta)
  have hsplit : trackDeltas tools { displayRootsByEnvironment := roots } (calls ++ [call]) =
      (trackDeltas tools { displayRootsByEnvironment := roots } calls).trackDelta tools call.order
        call.environmentId call.delta := by
    unfold trackDeltas
    rw [List.foldl_append]
    rfl
  rw [hsplit, trackDelta_exact tools call.order hvalid hexact]
  exact (((hsound calls (sound_fresh tools roots)).applyChanges _ _).refresh call.order).1

/-- Where the keys are listed in the order of the diff, they are not sorted again. -/
theorem netDiff_of_sorted
    (h : (order.baselineKeys tracker.baselineByPath.keys ++
      order.currentKeys tracker.currentByPath.keys).Pairwise fun left right =>
        decide (tracker.displayPath left ≤ tracker.displayPath right) = true) :
    tracker.netDiff tools order =
      let text := renderAll tools tracker (visit (tracker.renamePairs order) []
        ((order.baselineKeys tracker.baselineByPath.keys ++
          order.currentKeys tracker.currentByPath.keys).destutter (· ≠ ·)))
      if text = [] then none else some text := by
  unfold netDiff visitedPairs sortedPaths
  rw [List.mergeSort_of_pairwise h]

theorem moved_twice_depends_on_order :
    (commitAll firstFile (movedAndMade newestFirst ++ [movedAgain newestFirst])).isSome ∧
    (∀ call ∈ movedAndMade newestFirst ++ [movedAgain newestFirst], call.delta.exact = true) ∧
    deltasOf (movedAndMade newestLast ++ [movedAgain newestLast]) =
      deltasOf (movedAndMade newestFirst ++ [movedAgain newestFirst]) ∧
    (trackDeltas oneLineTools {} (movedAndMade newestLast ++ [movedAgain newestLast])).unifiedDiff ≠
      (trackDeltas oneLineTools {}
        (movedAndMade newestFirst ++ [movedAgain newestFirst])).unifiedDiff ∧
    ¬(trackDeltas oneLineTools {}
      (movedAndMade newestFirst ++ [movedAgain newestFirst])).OneDestination := by
  refine ⟨rfl, by decide +kernel, rfl, ?_, fun hone => ?_⟩
  · rw [unifiedDiff_trackDeltas_concat oneLineTools ∅ rfl rfl,
      unifiedDiff_trackDeltas_concat oneLineTools ∅ rfl rfl, netDiff_of_sorted (by decide +kernel),
      netDiff_of_sorted (by decide +kernel)]
    decide +kernel
  · have hsame := hone ⟨[], Path.parse "/w/a".toList⟩ ⟨[], Path.parse "/w/b".toList⟩
      ⟨[], Path.parse "/w/c".toList⟩ (by decide +kernel) (by decide +kernel)
    exact absurd hsame (by decide)

end Codex.TurnDiff.TurnDiffTracker
