import Codex.ApplyPatch.Coverage

/-!
# The file after an update

An update writes the new contents to the path that the hunk affects: its own, or the destination of
a move, whose source is removed afterwards. The contents are there in the end unless the destination
is the source (`update_outcome_iff`).
-/

namespace Codex.ApplyPatch

open Function Codex.Text

variable {Path σ : Type} [DecidableEq Path] {fs : ExecutorFileSystem Path σ}

/-- After the update of `source`, the file at `effective` holds the derived contents, and a source
that was moved elsewhere is gone. -/
def UpdateOutcome (before after : Path → Option Str) (source effective : Path)
    (chunks : List UpdateFileChunk) : Prop :=
  ∃ old new, before source = some old ∧ newContents old chunks = .ok new ∧
    after effective = some new ∧ (source ≠ effective → after source = none)

section Effect

variable (T : TextFiles fs) {cwd : Path} {p : Str} {movePath : Option Str}
  {chunks : List UpdateFileChunk} {before after : Path → Option Str}

theorem TextFiles.remove_eq (files : Path → Option Str) (path : Path) :
    T.abstraction.remove files path = update files path none := rfl

theorem updateOutcome_of_effect
    (h : T.abstraction.HunkEffect cwd (.updateFile p movePath chunks) before after) :
    ∃ source effective, fs.join cwd p = .ok source ∧
      fs.join cwd (Hunk.updateFile p movePath chunks).path = .ok effective ∧
      (UpdateOutcome before after source effective chunks ↔
        (movePath.isSome = true → source ≠ effective)) := by
  cases h with
  | rewrite hp hr hn =>
    refine ⟨_, _, hp, hp, iff_of_true ⟨_, _, hr, hn, update_self .., ?_⟩ nofun⟩
    exact fun hne => absurd rfl hne
  | move hp hd hr hn hw =>
    refine ⟨_, _, hp, hd, ?_⟩
    rw [T.written_eq hw]
    refine ⟨?_, fun hmoved => ⟨_, _, hr, hn, ?_, fun _ => update_self ..⟩⟩
    · -- what was written is removed again
      rintro ⟨old, new, -, -, hafter, -⟩ - rfl
      rw [T.remove_eq, update_self] at hafter
      cases hafter
    · rw [T.remove_eq, update_of_ne (hmoved rfl).symm, update_self]

end Effect

/-- **The file after an update** that was applied: the derived contents are at the path that the hunk
affects, exactly when the hunk does not move the file onto itself. -/
theorem update_outcome_iff (T : TextFiles fs) {cwd : Path} {p : Str} {movePath : Option Str}
    {chunks : List UpdateFileChunk} {st st' : ApplyState σ} {affected : AffectedPaths}
    (h : Returns (fs.applyHunksToFiles [.updateFile p movePath chunks] cwd) st affected st') :
    ∃ source effective, fs.join cwd p = .ok source ∧
      fs.join cwd (Hunk.updateFile p movePath chunks).path = .ok effective ∧
      (UpdateOutcome (T.files st.fs) (T.files st'.fs) source effective chunks ↔
        (movePath.isSome = true → source ≠ effective)) := by
  have heffects := T.abstraction.applyHunksToFiles_effect h
  cases heffects with
  | cons hhunk hrest =>
    cases hrest
    exact updateOutcome_of_effect T hhunk

/-- `/w/a` is moved to `/w/b`. -/
theorem update_outcome_moved :
    ∃ affected st,
      Returns (memoryFs.applyHunksToFiles
        [.updateFile ['a'] (some ['b']) [⟨none, [['x']], [['y']], false⟩]] workDir)
        { fs := oneFile } affected st ∧
      UpdateOutcome (lookupFile oneFile) (lookupFile st.fs) "/w/a".toList "/w/b".toList
        [⟨none, [['x']], [['y']], false⟩] := by
  obtain ⟨affected, st, ha, -⟩ := exists_returns (fun _ _ => true)
    (show returnsWith (memoryFs.applyHunksToFiles
      [.updateFile ['a'] (some ['b']) [⟨none, [['x']], [['y']], false⟩]] workDir)
      { fs := oneFile } _ = true by decide +kernel)
  obtain ⟨source, effective, hsource, heffective, houtcome⟩ := update_outcome_iff memoryTextFiles ha
  cases hsource
  cases heffective
  exact ⟨affected, st, ha, houtcome.2 fun _ => by decide⟩

/-- `/w/a` is moved to itself, and is gone. -/
theorem moved_onto_itself_is_removed :
    ¬ ∀ (p : Str) (movePath : Option Str) (chunks : List UpdateFileChunk) (cwd : Str)
        (st : ApplyState _) (affected : AffectedPaths) (st' : ApplyState _)
        (source effective : Str),
      Returns (memoryFs.applyHunksToFiles [.updateFile p movePath chunks] cwd) st affected st' →
      memoryFs.join cwd p = .ok source →
      memoryFs.join cwd (Hunk.updateFile p movePath chunks).path = .ok effective →
      UpdateOutcome (lookupFile st.fs) (lookupFile st'.fs) source effective chunks := by
  intro h
  have hgone : returnsWith (memoryFs.applyHunksToFiles
      [.updateFile ['a'] (some ['a']) [⟨none, [['x']], [['y']], false⟩]] workDir)
      { fs := oneFile } (fun _ st => decide (lookupFile st.fs "/w/a".toList = none)) = true := by
    decide +kernel
  obtain ⟨affected, st, ha, hgone⟩ := exists_returns _ hgone
  obtain ⟨old, new, -, -, hafter, -⟩ := h ['a'] (some ['a'])
    [⟨none, [['x']], [['y']], false⟩] workDir { fs := oneFile } affected st "/w/a".toList
    "/w/a".toList ha rfl rfl
  rw [of_decide_eq_true hgone] at hafter
  cases hafter

end Codex.ApplyPatch
