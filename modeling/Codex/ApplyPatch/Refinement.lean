import Codex.ApplyPatch.Coverage

/-!
# What is approved is what is applied

Verification evaluates every hunk against the original files, application runs
the hunks one after the other. When no two hunks share a path, both agree: each
hunk finds the file it reads as it was (`hunkEffect_eq`), so the run has the
effect of the verified changes (`effects_eq`), and each change is still visible
at the end.
-/

namespace Codex.ApplyPatch

open List Codex.Text

variable {Path σ : Type} [DecidableEq Path]

/-! ## Changes as effects on files -/

/-- What a verified change says happens to the files. -/
def ApplyPatchFileChange.effect (path : Path) (change : ApplyPatchFileChange Path)
    (files : Path → Option Str) : Path → Option Str :=
  match change with
  | .add content => Function.update files path (some content)
  | .delete _ => Function.update files path none
  | .update _ none new => Function.update files path (some new)
  | .update _ (some dest) new =>
    Function.update (Function.update files dest (some new)) path none

/-- The paths a change is about. -/
def changePaths (entry : Path × ApplyPatchFileChange Path) : List Path :=
  entry.1 :: entry.2.movePath.toList

def effectAll (changes : List (Path × ApplyPatchFileChange Path)) (files : Path → Option Str) :
    Path → Option Str :=
  changes.foldl (fun files entry => entry.2.effect entry.1 files) files

variable {entry : Path × ApplyPatchFileChange Path} {q : Path}
  {changes : List (Path × ApplyPatchFileChange Path)}

theorem effect_of_not_mem (hq : q ∉ changePaths entry) (files : Path → Option Str) :
    entry.2.effect entry.1 files q = files q := by
  obtain ⟨path, change⟩ := entry
  simp only [changePaths, mem_cons, not_or] at hq
  cases change with
  | add content | delete content => exact Function.update_of_ne hq.1 _ _
  | update diff movePath new =>
    cases movePath with
    | none => exact Function.update_of_ne hq.1 _ _
    | some dest =>
      have hdest : q ≠ dest := by simpa [ApplyPatchFileChange.movePath] using hq.2
      rw [ApplyPatchFileChange.effect, Function.update_of_ne hq.1, Function.update_of_ne hdest]

theorem effectAll_of_not_mem (hq : q ∉ changes.flatMap changePaths) (files : Path → Option Str) :
    effectAll changes files q = files q := by
  induction changes generalizing files with
  | nil => rfl
  | cons entry changes ih =>
    simp only [flatMap_cons, mem_append, not_or] at hq
    rw [effectAll, foldl_cons]
    exact (ih hq.2 _).trans (effect_of_not_mem hq.1 files)

/-- With distinct paths, what a change says about its own paths holds at the end. -/
theorem effectAll_of_mem {pre post : List (Path × ApplyPatchFileChange Path)}
    (hd : ((pre ++ entry :: post).flatMap changePaths).Nodup) (hq : q ∈ changePaths entry)
    (files : Path → Option Str) :
    effectAll (pre ++ entry :: post) files q = entry.2.effect entry.1 (effectAll pre files) q := by
  have hpost : q ∉ post.flatMap changePaths := by
    rw [flatMap_append, flatMap_cons] at hd
    have hrest := (nodup_append.1 hd).2.1
    exact fun h => (nodup_append.1 hrest).2.2 q hq q h rfl
  rw [effectAll, foldl_append, foldl_cons]
  exact effectAll_of_not_mem hpost _

/-! ## One hunk -/

variable {fs : ExecutorFileSystem Path σ} (T : TextFiles fs) {cwd : Path}

/-- **A hunk that finds its file as verification saw it does what verification said.** -/
theorem hunkEffect_eq {original files files' : Path → Option Str} {hunk : Hunk}
    (hv : T.abstraction.HunkVerified cwd original hunk entry)
    (he : T.abstraction.HunkEffect cwd hunk files files')
    (hsame : files entry.1 = original entry.1) : files' = entry.2.effect entry.1 files := by
  cases hv with
  | add hp =>
    cases he with
    | add hp' hw =>
      rw [hp] at hp'
      cases hp'
      exact T.written_eq hw
  | delete hp hr =>
    cases he with
    | delete hp' =>
      rw [hp] at hp'
      cases hp'
      rfl
  | rewrite hp hr hn =>
    cases he with
    | rewrite hp' hr' hn' =>
      rw [hp] at hp'
      cases hp'
      have hold := (hr'.symm.trans hsame).trans hr
      cases hold
      rw [hn] at hn'
      cases hn'
      rfl
  | move hp hd hr hn =>
    cases he with
    | move hp' hd' hr' hn' hw =>
      rw [hp] at hp'
      cases hp'
      rw [hd] at hd'
      cases hd'
      have hold := (hr'.symm.trans hsame).trans hr
      cases hold
      rw [hn] at hn'
      cases hn'
      rw [T.written_eq hw]
      rfl

/-- **A run over hunks with distinct paths has the effect of the verified changes.** -/
theorem effects_eq {original files files' : Path → Option Str} {hunks : List Hunk}
    (hv : List.Forall₂ (T.abstraction.HunkVerified cwd original) hunks changes)
    (he : T.abstraction.Effects cwd hunks files files') (hd : (changes.flatMap changePaths).Nodup)
    (hsame : ∀ q ∈ changes.flatMap changePaths, files q = original q) :
    files' = effectAll changes files := by
  induction hv generalizing files with
  | nil =>
    cases he
    rfl
  | @cons hunk entry hunks changes hver _ ih =>
    cases he with
    | cons hhunk hrest =>
      rw [flatMap_cons] at hd hsame
      obtain ⟨-, hd', hdisj⟩ := nodup_append.1 hd
      have hstep := hunkEffect_eq T hver hhunk
        (hsame entry.1 (mem_append_left _ (mem_cons_self)))
      subst hstep
      refine ih hrest hd' fun q hq => ?_
      -- the hunk before did not touch the paths of the later ones
      have hne : q ∉ changePaths entry := fun h => hdisj q h q hq rfl
      exact (effect_of_not_mem hne files).trans (hsame q (mem_append_right _ hq))

/-! ## The whole patch -/

/-- The resolved paths of the hunks and their resolved move destinations. -/
def ExecutorFileSystem.touchedPaths (fs : ExecutorFileSystem Path σ) (cwd : Path)
    (hunks : List Hunk) : List Path :=
  hunks.flatMap fun hunk =>
    (fs.resolvePath cwd hunk).toOption.toList ++ (fs.moveDest cwd hunk).toList

/-- The files `after` are those that the changes describe, starting from `before`. -/
structure Described (changes : AList fun _ : Path => ApplyPatchFileChange Path)
    (before after : Path → Option Str) : Prop where
  add : ∀ {path content}, changes.lookup path = some (.add content) → after path = some content
  delete : ∀ {path content}, changes.lookup path = some (.delete content) →
    after path = none ∧ before path = some content
  update : ∀ {path diff new}, changes.lookup path = some (.update diff none new) →
    after path = some new
  move : ∀ {path diff dest new}, changes.lookup path = some (.update diff (some dest) new) →
    after dest = some new ∧ after path = none
  other : ∀ {q}, q ∉ changes → (∀ {path diff new},
    changes.lookup path ≠ some (.update diff (some q) new)) → after q = before q

omit [DecidableEq Path] in
theorem touchedPaths_eq {β : Type} {A : Abstraction fs β} {b : β} {hunks : List Hunk}
    (hv : List.Forall₂ (A.HunkVerified cwd b) hunks changes) :
    fs.touchedPaths cwd hunks = changes.flatMap changePaths := by
  induction hv with
  | nil => rfl
  | @cons hunk entry hunks changes hver _ ih =>
    obtain ⟨hp, hm⟩ := HunkVerified.paths hver
    rw [ExecutorFileSystem.touchedPaths, flatMap_cons, hp, hm]
    exact congrArg _ ih

/-- **The applied patch leaves exactly the files its verified changes describe.** -/
theorem apply_described {unifiedDiff : ExecutorFileSystem.UnifiedDiff} {args : ApplyPatchArgs}
    {dir : Path} {action : ApplyPatchAction Path} {s s' : σ} {affected : AffectedPaths}
    {st : ApplyState σ} (hdir : fs.effectiveCwd cwd args.workdir = .ok dir)
    (hd : (fs.touchedPaths dir args.hunks).Nodup)
    (hv : Returns (fs.tryVerifyApplyPatchArgs unifiedDiff args cwd) s action s')
    (ha : Returns (fs.applyHunksToFiles args.hunks dir) { fs := s } affected st) :
    Described action.changes (T.files s) (T.files st.fs) := by
  obtain ⟨hcwd, changes, hver, hchanges⟩ := T.abstraction.tryVerify_verified hv
  rw [hdir] at hcwd
  cases hcwd
  rw [touchedPaths_eq hver] at hd
  have hafter : T.files st.fs = effectAll changes (T.files s) :=
    effects_eq T hver (T.abstraction.applyHunksToFiles_effect ha) hd fun _ _ => rfl
  rw [hafter, hchanges]
  -- a change of the map is a change of some hunk, and still visible at the end
  have hvisible : ∀ {path change}, (insertAll changes).lookup path = some change →
      ∃ files, ∀ q ∈ changePaths (path, change),
        effectAll changes (T.files s) q = change.effect path files q := by
    intro path change hlook
    obtain ⟨pre, post, rfl, -⟩ := lookup_insertAll.1 hlook
    exact ⟨_, fun q hq => effectAll_of_mem hd hq (T.files s)⟩
  refine ⟨?_, ?_, ?_, ?_, ?_⟩
  · intro path content hlook
    obtain ⟨files, h⟩ := hvisible hlook
    rw [h path mem_cons_self]
    exact Function.update_self path _ _
  · intro path content hlook
    obtain ⟨files, h⟩ := hvisible hlook
    refine ⟨?_, ?_⟩
    · rw [h path mem_cons_self]
      exact Function.update_self path _ _
    · obtain ⟨pre, post, rfl, -⟩ := lookup_insertAll.1 hlook
      obtain ⟨hunk, -, hver⟩ := forall₂_mem_right hver (b := (path, .delete content)) (by simp)
      cases hver with
      | delete hp hr => exact hr
  · intro path diff new hlook
    obtain ⟨files, h⟩ := hvisible hlook
    rw [h path mem_cons_self]
    exact Function.update_self path _ _
  · intro path diff dest new hlook
    obtain ⟨files, h⟩ := hvisible hlook
    have hne : dest ≠ path := by
      obtain ⟨pre, post, rfl, -⟩ := lookup_insertAll.1 hlook
      rw [flatMap_append, flatMap_cons] at hd
      have hpair := (nodup_append.1 (nodup_append.1 hd).2.1).1
      simp only [changePaths, ApplyPatchFileChange.movePath, Option.toList_some] at hpair
      have := (nodup_cons.1 hpair).1
      simpa [eq_comm] using this
    refine ⟨?_, ?_⟩
    · rw [h dest (by simp [changePaths, ApplyPatchFileChange.movePath]),
        ApplyPatchFileChange.effect, Function.update_of_ne hne, Function.update_self]
    · rw [h path mem_cons_self, ApplyPatchFileChange.effect, Function.update_self]
  · intro q hkey hmove
    refine effectAll_of_not_mem (fun hq => ?_) _
    obtain ⟨⟨path, change⟩, hmem, hq⟩ := mem_flatMap.1 hq
    have hpath : path ∈ insertAll changes := mem_insertAll.2 ⟨change, hmem⟩
    rcases mem_cons.1 hq with rfl | hq
    · exact hkey hpath
    · -- paths are distinct, so no later hunk replaced the change with the move
      have hlook : (insertAll changes).lookup path = some change := by
        obtain ⟨pre, post, rfl⟩ := append_of_mem hmem
        refine lookup_insertAll.2 ⟨pre, post, rfl, fun kv hkv hsame => ?_⟩
        rw [flatMap_append, flatMap_cons] at hd
        have hdisj := (nodup_append.1 (nodup_append.1 hd).2.1).2.2
        refine hdisj path mem_cons_self path (mem_flatMap.2 ⟨kv, hkv, ?_⟩) rfl
        rw [← hsame]
        exact mem_cons_self
      cases change with
      | add content => cases hq
      | delete content => cases hq
      | update diff movePath new =>
        obtain rfl : movePath = some q := Option.mem_toList.1 hq
        exact hmove hlook

/-- The hypotheses hold of a rename next to a new file, and the files end as described. -/
theorem apply_described_plainMove :
    ∃ action s' affected st,
      Returns (memoryFs.tryVerifyApplyPatchArgs noDiff plainMoveArgs workDir) oneFile action s' ∧
      Returns (memoryFs.applyHunksToFiles plainMoveArgs.hunks workDir) { fs := oneFile } affected
        st ∧
      Described action.changes (lookupFile oneFile) (lookupFile st.fs) := by
  obtain ⟨action, s', hv⟩ := exists_verified_plainMove
  obtain ⟨affected, st, ha, -⟩ := exists_returns (fun _ _ => true)
    (show returnsWith (memoryFs.applyHunksToFiles plainMoveArgs.hunks workDir)
      { fs := oneFile } _ = true by decide +kernel)
  have hdir : memoryFs.effectiveCwd workDir plainMoveArgs.workdir = .ok workDir := rfl
  exact ⟨action, s', affected, st, hv, ha,
    apply_described memoryTextFiles hdir (by decide +kernel) hv ha⟩

end Codex.ApplyPatch
