import Codex.ApplyPatch.TextFiles

/-!
# Exact deltas can be undone

`FaultyFiles` is a file system of regular text files whose operations may fail
at any point: a failed write may leave anything at its target, a failed removal
may have removed the file. However an application of hunks ends, a delta that is
still exact undoes what was done.
-/

namespace Codex.ApplyPatch

open Function Codex.Text

variable {Path σ κ α : Type} [DecidableEq κ]

/-- The text files under a file system, by what a native path names. A read that
reports `NotFound` found no file. -/
structure FaultyFiles (fs : ExecutorFileSystem Path σ) (κ : Type) [DecidableEq κ] where
  file : Str → κ
  contents : σ → κ → Option Str
  readFileText : ∀ {path s r s'}, fs.readFileText path s = (r, s') → contents s' = contents s
  readFileText_ok : ∀ {path s content s'}, fs.readFileText path s = (.ok content, s') →
    contents s (file (fs.nativePath path)) = some content
  readFileText_notFound : ∀ {path s e s'}, fs.readFileText path s = (.error e, s') →
    e.kind = .notFound → contents s (file (fs.nativePath path)) = none
  getMetadata : ∀ {path s r s'}, fs.getMetadata path s = (r, s') → contents s' = contents s
  createDirectory : ∀ {path s r s'}, fs.createDirectory path s = (r, s') →
    contents s' = contents s
  writeFile_ok : ∀ {path content s s'}, fs.writeFile path content s = (.ok (), s') →
    contents s' = update (contents s) (file (fs.nativePath path)) (some content)
  writeFile_error : ∀ {path content s e s'}, fs.writeFile path content s = (.error e, s') →
    ∃ left, contents s' = update (contents s) (file (fs.nativePath path)) left
  remove_ok : ∀ {path s s'}, fs.remove path s = (.ok (), s') →
    contents s' = update (contents s) (file (fs.nativePath path)) none
  remove_error : ∀ {path s e s'}, fs.remove path s = (.error e, s') →
    contents s' = contents s ∨
      contents s' = update (contents s) (file (fs.nativePath path)) none

/-! ## Undoing a delta -/

/-- Puts back what a change replaced. -/
def undoChange (file : Str → κ) (change : AppliedPatchChange) (contents : κ → Option Str) :
    κ → Option Str :=
  match change.change with
  | .add _ overwrittenContent => update contents (file change.path) overwrittenContent
  | .delete content => update contents (file change.path) (some content)
  | .update none oldContent _ _ => update contents (file change.path) (some oldContent)
  | .update (some movePath) oldContent overwrittenMoveContent _ =>
    update (update contents (file change.path) (some oldContent))
      (file movePath) overwrittenMoveContent

/-- The changes are undone from the last to the first. -/
def undoDelta (file : Str → κ) (changes : List AppliedPatchChange) (contents : κ → Option Str) :
    κ → Option Str :=
  changes.foldr (undoChange file) contents

theorem undoDelta_concat (file : Str → κ) (changes : List AppliedPatchChange)
    (change : AppliedPatchChange) (contents : κ → Option Str) :
    undoDelta file (changes ++ [change]) contents =
      undoDelta file changes (undoChange file change contents) := by
  unfold undoDelta
  rw [List.foldr_append]
  rfl

section Specs

variable {fs : ExecutorFileSystem Path σ} (T : FaultyFiles fs κ)

/-- While the delta is exact, it leads back to `initial`. -/
def Undoes (initial : κ → Option Str) (st : ApplyState σ) : Prop :=
  st.delta.exact = true → undoDelta T.file st.delta.changes (T.contents st.fs) = initial

/-- The files and the changes are those of `st`; exactness may be lost. -/
structure Kept (st st' : ApplyState σ) : Prop where
  contents_eq : T.contents st'.fs = T.contents st.fs
  changes_eq : st'.delta.changes = st.delta.changes
  exact_of : st'.delta.exact = true → st.delta.exact = true

/-- The same, as far as the delta is exact. -/
structure KeptIfExact (st st' : ApplyState σ) : Prop where
  changes_eq : st'.delta.changes = st.delta.changes
  exact_of : st'.delta.exact = true → st.delta.exact = true
  contents_eq : st'.delta.exact = true → T.contents st'.fs = T.contents st.fs

variable {T} {initial : κ → Option Str} {st st' st'' : ApplyState σ} {path : Path}

theorem Kept.refl (st : ApplyState σ) : Kept T st st := ⟨rfl, rfl, id⟩

theorem Kept.trans (h : Kept T st st') (h' : Kept T st' st'') : Kept T st st'' :=
  ⟨h'.contents_eq.trans h.contents_eq, h'.changes_eq.trans h.changes_eq,
    fun he => h.exact_of (h'.exact_of he)⟩

theorem Undoes.of_keptIfExact (h : Undoes T initial st) (hkept : KeptIfExact T st st') :
    Undoes T initial st' := by
  intro hexact
  rw [hkept.changes_eq, hkept.contents_eq hexact]
  exact h (hkept.exact_of hexact)

theorem Undoes.of_kept (h : Undoes T initial st) (hkept : Kept T st st') :
    Undoes T initial st' :=
  h.of_keptIfExact ⟨hkept.changes_eq, hkept.exact_of, fun _ => hkept.contents_eq⟩

variable {ok : α → ApplyState σ → Prop} {failed : ApplyState σ → Prop}

/-- A file operation ends in what it returns. -/
theorem ends_fileOp {op : σ → α × σ} (h : ∀ a s, op st.fs = (a, s) → ok a { st with fs := s }) :
    Ends (fileOp op) st ok failed := h _ _ rfl

theorem kept_andExact (ok : Bool) (st : ApplyState σ) :
    Kept T st { st with delta.exact := st.delta.exact && ok } :=
  ⟨rfl, rfl, fun h => ((Bool.and_eq_true _ _).mp h).1⟩

variable (T)

theorem ends_readFileText :
    Ends (fileOp (fs.readFileText path)) st
      (fun r st' => Kept T st st' ∧ st'.delta = st.delta ∧
        (∀ content, r = .ok content →
          T.contents st.fs (T.file (fs.nativePath path)) = some content) ∧
        (∀ e, r = .error e → e.kind = .notFound →
          T.contents st.fs (T.file (fs.nativePath path)) = none))
      fun _ => False := by
  refine ends_fileOp fun r s h => ⟨⟨T.readFileText h, rfl, id⟩, rfl, ?_, ?_⟩
  · rintro content rfl
    exact T.readFileText_ok h
  · rintro e rfl
    exact T.readFileText_notFound h

theorem ends_getMetadata :
    Ends (fileOp (fs.getMetadata path)) st (fun _ st' => Kept T st st' ∧ st'.delta = st.delta)
      fun _ => False :=
  ends_fileOp fun _ _ h => ⟨⟨T.getMetadata h, rfl, id⟩, rfl⟩

/-! ## Helpers of the loop -/

theorem ends_andExact {ok : Bool} {post : Unit → ApplyState σ → Prop}
    (h : post () { st with delta.exact := st.delta.exact && ok }) :
    Ends (andExact ok) st post failed := h

theorem ends_noteExistingPathDeltaSupport :
    Ends (fs.noteExistingPathDeltaSupport path) st (fun _ st' => Kept T st st') fun _ => False := by
  refine (ends_getMetadata T).bind (fun r st' h => ?_) fun _ h => h
  cases r with
  | ok metadata | error e => exact ends_andExact (h.1.trans (kept_andExact _ st'))

/-- The optional content is what the file has, as long as the delta is exact. -/
theorem ends_readOptionalFileTextForDelta :
    Ends (fs.readOptionalFileTextForDelta path) st
      (fun content st' => Kept T st st' ∧ (st'.delta.exact = true →
        T.contents st'.fs (T.file (fs.nativePath path)) = content)) fun _ => False := by
  refine (ends_noteExistingPathDeltaSupport T).bind (fun _ st₁ h₁ => ?_) fun _ h => h
  refine (ends_readFileText T).bind (fun r st₂ h₂ => ?_) fun _ h => h
  obtain ⟨hkept, -, hok, herror⟩ := h₂
  cases r with
  | ok content =>
    refine ends_pure ⟨h₁.trans hkept, fun _ => ?_⟩
    rw [hkept.contents_eq]
    exact hok content rfl
  | error e =>
    refine ends_bind (ends_andExact (ends_pure ⟨?_, fun hexact => ?_⟩))
    · exact (h₁.trans hkept).trans (kept_andExact _ st₂)
    · obtain ⟨-, hkind⟩ := (Bool.and_eq_true _ _).mp hexact
      show T.contents st₂.fs _ = none
      rw [hkept.contents_eq]
      exact herror e rfl (beq_iff_eq.1 hkind)

/-- A write changes at most its target, and when it succeeds it has set it. -/
def Wrote (st : ApplyState σ) (path : Path) (content : Str) (ok : Bool)
    (st' : ApplyState σ) : Prop :=
  st'.delta = st.delta ∧
    ∃ left, T.contents st'.fs =
      update (T.contents st.fs) (T.file (fs.nativePath path)) left ∧
      (ok = true → left = some content)

variable {content : Str}

theorem ends_writeFile :
    Ends (fileOp (fs.writeFile path content)) st (fun r st' => Wrote T st path content r.isOk st')
      fun _ => False := by
  refine ends_fileOp fun r s h => ⟨rfl, ?_⟩
  cases r with
  | ok u => exact ⟨some content, T.writeFile_ok h, fun _ => rfl⟩
  | error e =>
    obtain ⟨left, hleft⟩ := T.writeFile_error h
    exact ⟨left, hleft, fun h => by cases h⟩

variable {T} in
theorem Wrote.again {content' : Str} {ok ok' : Bool} (h : Wrote T st path content ok st')
    (h' : Wrote T st' path content' ok' st'') : Wrote T st path content' ok' st'' := by
  obtain ⟨hdelta, left, hleft, -⟩ := h
  obtain ⟨hdelta', left', hleft', hok⟩ := h'
  refine ⟨hdelta'.trans hdelta, left', ?_, hok⟩
  rw [hleft', hleft, update_idem]

theorem ends_createParent :
    Ends (fs.createParent path) st
      (fun _ st' => T.contents st'.fs = T.contents st.fs ∧ st'.delta = st.delta)
      fun _ => False := by
  unfold ExecutorFileSystem.createParent
  split
  · exact ends_fileOp fun _ _ h => ⟨T.createDirectory h, rfl⟩
  · exact ends_pure ⟨rfl, rfl⟩

variable {T} in
theorem Wrote.then_same {ok : Bool} (h : Wrote T st path content ok st')
    (hsame : T.contents st''.fs = T.contents st'.fs ∧ st''.delta = st'.delta) :
    Wrote T st path content ok st'' := by
  unfold Wrote
  rw [hsame.1, hsame.2]
  exact h

/-- The first write may fail and leave anything; the second one sets the target. -/
theorem ends_writeFileWithMissingParentRetry :
    Ends (fs.writeFileWithMissingParentRetry path content) st
      (fun r st' => Wrote T st path content r.isOk st') fun _ => False := by
  refine (ends_writeFile T).bind (fun r st₁ h₁ => ?_) fun _ h => h
  cases r with
  | ok u => exact ends_pure h₁
  | error e =>
    show Ends (if e.kind = .notFound then _ else _) st₁ _ _
    split
    · refine (ends_createParent T).bind (fun r st₂ h₂ => ?_) fun _ h => h
      cases r with
      | error e => exact ends_pure (h₁.then_same h₂)
      | ok u =>
        refine (ends_writeFile T).bind (fun r st₃ h₃ => ?_) fun _ h => h
        have hwrote := (h₁.then_same h₂).again h₃
        cases r with
        | error e | ok u => exact ends_pure hwrote
    · exact ends_pure h₁

/-- A failed write costs the delta its exactness. -/
theorem ends_tryWrite_error {error : ApplyError} :
    Ends (ExecutorFileSystem.tryWrite (.error error)) st ok (Undoes T initial) := by
  refine ends_bind (ends_andExact (ends_throw fun hexact => ?_))
  rw [Bool.and_false] at hexact
  cases hexact

theorem ends_tryWrite {result : Except ApplyError Unit}
    (h : Wrote T st path content result.isOk st') : Ends (ExecutorFileSystem.tryWrite result) st'
      (fun _ st'' => st'' = st' ∧ T.contents st'.fs = update (T.contents st.fs)
        (T.file (fs.nativePath path)) (some content) ∧ st'.delta = st.delta)
      (Undoes T initial) := by
  obtain ⟨hdelta, left, hleft, hok⟩ := h
  cases result with
  | ok u =>
    refine ends_pure ⟨rfl, ?_, hdelta⟩
    rw [hleft, hok rfl]
  | error e => exact ends_tryWrite_error T

theorem ends_ensureNotDirectory :
    Ends (fs.ensureNotDirectory path) st (fun _ st' => Kept T st st' ∧ st'.delta = st.delta)
      fun _ => False := by
  refine (ends_getMetadata T).bind (fun r st' h => ?_) fun _ h => h
  cases r with
  | error e => exact ends_pure h
  | ok metadata =>
    show Ends (if metadata.isDirectory then _ else _) st' _ _
    split
    · exact ends_pure h
    · exact ends_pure h

/-- After a failed removal, the file is looked at again. -/
theorem ends_removeFailureWasSideEffectFree {expectedContent : Option Str} :
    Ends (fs.removeFailureWasSideEffectFree path expectedContent) st
      (fun free st' => Kept T st st' ∧ st'.delta = st.delta ∧
        (free = true → T.contents st.fs (T.file (fs.nativePath path)) ≠ none))
      fun _ => False := by
  cases expectedContent with
  | none => exact ends_pure ⟨.refl st, rfl, fun h => by cases h⟩
  | some expectedContent =>
    refine (ends_readFileText T).bind (fun r st' h => ?_) fun _ h => h
    obtain ⟨hkept, hdelta, hok, -⟩ := h
    cases r with
    | ok content =>
      refine ends_pure ⟨hkept, hdelta, fun _ => ?_⟩
      rw [hok content rfl]
      exact Option.some_ne_none content
    | error e => exact ends_pure ⟨hkept, hdelta, fun h => by cases h⟩

/-- A removal that fails has changed nothing, as long as the delta is exact. -/
theorem ends_removeFile {context : String} {expectedContent : Option Str} :
    Ends (fs.removeFile path context expectedContent) st
      (fun _ st' => st'.delta = st.delta ∧ T.contents st'.fs =
        update (T.contents st.fs) (T.file (fs.nativePath path)) none)
      (KeptIfExact T st) := by
  refine (ends_ensureNotDirectory T).bind (fun r st₁ h₁ => ?_) fun _ h => h.elim
  obtain ⟨hkept₁, hdelta₁⟩ := h₁
  cases r with
  | error e =>
    exact ends_throw ⟨hkept₁.changes_eq, hkept₁.exact_of, fun _ => hkept₁.contents_eq⟩
  | ok u =>
    refine ends_bind (ends_fileOp fun r s hremove => ?_)
    cases r with
    | ok u =>
      refine ends_pure ⟨hdelta₁, ?_⟩
      rw [T.remove_ok hremove, hkept₁.contents_eq]
    | error e =>
      refine (ends_removeFailureWasSideEffectFree T).bind (fun free st₂ h₂ => ?_) fun _ h => h.elim
      obtain ⟨hkept₂, hdelta₂, hfree⟩ := h₂
      have hexact_of : (st₂.delta.exact && free) = true → st₂.delta.exact = true ∧ free = true :=
        (Bool.and_eq_true _ _).mp
      refine ends_bind (ends_andExact (ends_throw ⟨?_, fun hexact => ?_, fun hexact => ?_⟩))
      · exact hkept₂.changes_eq.trans hkept₁.changes_eq
      · exact hkept₁.exact_of (hkept₂.exact_of (hexact_of hexact).1)
      · refine hkept₂.contents_eq.trans (Eq.trans ?_ hkept₁.contents_eq)
        rcases T.remove_error hremove with hsame | hgone
        · exact hsame
        · -- The file is still there, so the removal has left it.
          refine absurd ?_ (hfree (hexact_of hexact).2)
          show T.contents s _ = none
          rw [hgone, update_self]

/-! ## Hunks -/

variable {T}

/-- A change is recorded that puts back the files as they were. -/
theorem Undoes.concat {change : AppliedPatchChange} (h : Undoes T initial st)
    (hdelta : st'.delta = st.delta)
    (hundo : st.delta.exact = true →
      undoChange T.file change (T.contents st'.fs) = T.contents st.fs) :
    Undoes T initial { st' with delta.changes := st'.delta.changes ++ [change] } := by
  intro hexact
  have hexact' : st.delta.exact = true := hdelta ▸ hexact
  show undoDelta T.file (st'.delta.changes ++ [change]) (T.contents st'.fs) = initial
  rw [undoDelta_concat, hundo hexact', hdelta]
  exact h hexact'

/-- What was at the target of a write is put back. -/
theorem update_update_of_eq {contents : κ → Option Str} {k : κ} {old new : Option Str}
    (h : contents k = old) : update (update contents k new) k old = contents := by
  rw [update_idem, ← h, update_eq_self]

/-- Both ends of a move are put back, also when they are one file. -/
theorem update_move_of_eq {contents : κ → Option Str} {source dest : κ}
    {old overwritten new : Option Str} (hsource : contents source = old)
    (hdest : contents dest = overwritten) :
    update (update (update (update contents dest new)
      source none) source old) dest overwritten = contents := by
  funext k
  by_cases hk : k = dest
  · rw [hk, update_self, hdest]
  · rw [update_of_ne hk]
    by_cases hk' : k = source
    · rw [hk', update_self, hsource]
    · rw [update_of_ne hk', update_of_ne hk', update_of_ne hk]

theorem ends_applyAdd (h : Undoes T initial st) :
    Ends (fs.applyAdd path content) st (fun _ st' => Undoes T initial st') (Undoes T initial) := by
  refine (ends_readOptionalFileTextForDelta T).bind (fun overwrittenContent st₁ h₁ => ?_)
    fun _ h => h.elim
  obtain ⟨hkept, hread⟩ := h₁
  refine (ends_writeFileWithMissingParentRetry T).bind (fun r st₂ h₂ => ?_) fun _ h => h.elim
  refine (ends_tryWrite T h₂).bind (fun _ st₃ h₃ => ?_) fun _ h => h
  obtain ⟨rfl, hcontents, hdelta⟩ := h₃
  refine ends_modify ((h.of_kept hkept).concat hdelta fun hexact => ?_)
  rw [hcontents]
  exact update_update_of_eq (hread hexact)

theorem ends_applyDelete (h : Undoes T initial st) :
    Ends (fs.applyDelete path) st (fun _ st' => Undoes T initial st') (Undoes T initial) := by
  refine (ends_noteExistingPathDeltaSupport T).bind (fun _ st₁ h₁ => ?_) fun _ h => h.elim
  refine (ends_readFileText T).bind (fun r st₂ h₂ => ?_) fun _ h => h.elim
  obtain ⟨hkept, -, hok, -⟩ := h₂
  refine ends_bind (ends_andExact ?_)
  have hundoes : Undoes T initial
      { st₂ with delta.exact := st₂.delta.exact && r.toOption.isSome } :=
    h.of_kept ((h₁.trans hkept).trans (kept_andExact _ st₂))
  refine (ends_removeFile T).bind (fun _ st₃ h₃ => ?_) fun st₃ h₃ => hundoes.of_keptIfExact h₃
  obtain ⟨hdelta, hcontents⟩ := h₃
  cases r with
  | error e =>
    refine ends_pure fun hexact => ?_
    rw [hdelta] at hexact
    exact absurd ((Bool.and_eq_true _ _).mp hexact).2 Bool.false_ne_true
  | ok content =>
    refine ends_modify (hundoes.concat hdelta fun _ => ?_)
    rw [hcontents]
    exact update_update_of_eq ((congrFun hkept.contents_eq _).trans (hok content rfl))

/-- The destination is written and recorded, then the source goes and the record
is replaced by the one of the whole move. -/
theorem ends_applyMove {dest : Path} {patch : AppliedPatch} (h : Undoes T initial st)
    (hsource : T.contents st.fs (T.file (fs.nativePath path)) = some patch.originalContents) :
    Ends (fs.applyMove path dest patch) st (fun _ st' => Undoes T initial st')
      (Undoes T initial) := by
  refine (ends_readOptionalFileTextForDelta T).bind (fun overwrittenMoveContent st₁ h₁ => ?_)
    fun _ h => h.elim
  obtain ⟨hkept, hread⟩ := h₁
  refine (ends_writeFileWithMissingParentRetry T).bind (fun r st₂ h₂ => ?_) fun _ h => h.elim
  refine (ends_tryWrite T h₂).bind (fun _ st₃ h₃ => ?_) fun _ h => h
  obtain ⟨rfl, hcontents, hdelta⟩ := h₃
  have hundoes := h.of_kept hkept
  refine ends_bind (ends_get ?_)
  -- Until the source is gone, the write of the destination is undone on its own.
  have hwritten : Undoes T initial { st₃ with delta.changes := st₃.delta.changes ++
      [⟨fs.nativePath dest, .add patch.newContents overwrittenMoveContent⟩] } := by
    refine hundoes.concat hdelta fun hexact => ?_
    rw [hcontents]
    exact update_update_of_eq (hread hexact)
  refine ends_bind (ends_modify ?_)
  refine (ends_removeFile T).bind (fun _ st₄ h₄ => ?_) fun _ h₄ => hwritten.of_keptIfExact h₄
  obtain ⟨hdelta₄, hcontents₄⟩ := h₄
  refine ends_modify fun hexact => ?_
  have hexact₁ : st₁.delta.exact = true := by
    rw [hdelta₄] at hexact
    exact hdelta ▸ hexact
  show undoDelta T.file (st₄.delta.changes.set st₃.delta.changes.length _) (T.contents st₄.fs) = _
  rw [hdelta₄, hcontents₄]
  show undoDelta T.file ((st₃.delta.changes ++ [_]).set st₃.delta.changes.length _)
    (update (T.contents st₃.fs) _ none) = _
  rw [List.set_append_right _ _ (Nat.le_refl _), Nat.sub_self, List.set_cons_zero,
    undoDelta_concat, hcontents, hdelta]
  refine Eq.trans (congrArg _ ?_) (hundoes hexact₁)
  exact update_move_of_eq ((congrFun hkept.contents_eq _).trans hsource) (hread hexact₁)

theorem ends_applyRewrite {patch : AppliedPatch} (h : Undoes T initial st)
    (hsource : T.contents st.fs (T.file (fs.nativePath path)) = some patch.originalContents) :
    Ends (fs.applyRewrite path patch) st (fun _ st' => Undoes T initial st')
      (Undoes T initial) := by
  refine (ends_writeFile T).bind (fun r st₁ h₁ => ?_) fun _ h => h.elim
  cases r with
  | ok u =>
    obtain ⟨hdelta, left, hleft, hok⟩ := h₁
    refine ends_modify (h.concat hdelta fun _ => ?_)
    rw [hleft, hok rfl]
    exact update_update_of_eq hsource
  | error e => exact ends_tryWrite_error T

theorem ends_liftFs {ε : Type} {wrap : ε → ApplyError} {x : EStateM ε σ α}
    (h : Ends x st.fs (fun a s => ok a { st with fs := s }) fun s => failed { st with fs := s }) :
    Ends (liftFs wrap x) st ok failed := by
  unfold Ends at h ⊢
  unfold liftFs
  cases hx : x st.fs with
  | ok a s | error e s =>
    rw [hx] at h
    exact h

theorem ends_run {ε : Type} {op : σ → α × σ} {s : σ} {ok : α → σ → Prop} {failed : σ → Prop}
    (h : ∀ a s', op s = (a, s') → ok a s') :
    Ends (ExecutorFileSystem.run op : EStateM ε σ α) s ok failed := h _ _ rfl

/-- The contents that the chunks are applied to are those of the file. -/
theorem ends_deriveNewContents {chunks : List UpdateFileChunk} :
    Ends (liftFs .patch (fs.deriveNewContentsFromChunks path chunks)) st
      (fun patch st' => Kept T st st' ∧
        T.contents st'.fs (T.file (fs.nativePath path)) = some patch.originalContents)
      (Kept T st) := by
  refine ends_liftFs (ends_bind (ends_run fun r s hread => ?_))
  have hkept : Kept T st { st with fs := s } := ⟨T.readFileText hread, rfl, id⟩
  cases r with
  | error e => exact ends_throw hkept
  | ok content =>
    refine ends_ofExcept (fun patch hpatch => ⟨hkept, ?_⟩) fun _ _ => hkept
    have horiginal : patch.originalContents = content := by
      unfold ExecutorFileSystem.derive at hpatch
      split at hpatch
      · cases hpatch
        rfl
      · cases hpatch
    show T.contents s _ = _
    rw [T.readFileText hread, T.readFileText_ok hread, horiginal]

variable {cwd : Path}

theorem ends_applyUpdate {movePath : Option Str} {chunks : List UpdateFileChunk}
    (h : Undoes T initial st) :
    Ends (fs.applyUpdate cwd path movePath chunks) st (fun _ st' => Undoes T initial st')
      (Undoes T initial) := by
  refine (ends_noteExistingPathDeltaSupport T).bind (fun _ st₁ h₁ => ?_) fun _ h => h.elim
  refine ends_deriveNewContents.bind (fun patch st₂ h₂ => ?_)
    fun _ h₂ => h.of_kept (h₁.trans h₂)
  obtain ⟨hkept, hsource⟩ := h₂
  have hundoes := h.of_kept (h₁.trans hkept)
  cases movePath with
  | none => exact ends_applyRewrite hundoes hsource
  | some dest =>
    refine ends_bind (ends_liftFs (ends_ofExcept (fun destUri _ => ?_) fun _ _ => hundoes))
    exact ends_applyMove hundoes hsource

theorem ends_applyHunk {hunk : Hunk} {affected : AffectedPaths} (h : Undoes T initial st) :
    Ends (fs.applyHunk cwd hunk affected) st (fun _ st' => Undoes T initial st')
      (Undoes T initial) := by
  refine ends_bind (ends_liftFs (ends_ofExcept (fun path _ => ?_) fun _ _ => h))
  cases hunk with
  | addFile _ contents => exact (ends_applyAdd h).bind (fun _ _ h' => ends_pure h') fun _ h' => h'
  | deleteFile _ => exact (ends_applyDelete h).bind (fun _ _ h' => ends_pure h') fun _ h' => h'
  | updateFile _ movePath chunks =>
    exact (ends_applyUpdate h).bind (fun _ _ h' => ends_pure h') fun _ h' => h'

theorem ends_applyEach {hunks : List Hunk} :
    ∀ {affected : AffectedPaths} {st : ApplyState σ}, Undoes T initial st →
      Ends (fs.applyEach cwd hunks affected) st (fun _ st' => Undoes T initial st')
        (Undoes T initial) := by
  induction hunks with
  | nil => exact fun h => ends_pure h
  | cons hunk hunks ih =>
    exact fun h => (ends_applyHunk h).bind (fun _ _ h' => ih h') fun _ h' => h'

end Specs

/-- **An exact delta undoes an application of hunks**, whether it returned or
failed, and wherever an operation failed on the way. -/
theorem applyHunksToFiles_undone {fs : ExecutorFileSystem Path σ} (T : FaultyFiles fs κ)
    (hunks : List Hunk) (cwd : Path) (s : σ) :
    let st := leaves (fs.applyHunksToFiles hunks cwd) { fs := s }
    st.delta.exact = true →
      undoDelta T.file st.delta.changes (T.contents st.fs) = T.contents s := by
  have hstart : Undoes T (T.contents s) { fs := s } := fun _ => rfl
  refine Ends.leaves (I := Undoes T (T.contents s)) ?_
  unfold ExecutorFileSystem.applyHunksToFiles
  split
  · exact ends_throw hstart
  · exact ends_applyEach hstart

/-- Files in memory that cannot be removed. -/
def stuckFs : ExecutorFileSystem Str (List (Str × Str)) :=
  { memoryFs with
    remove := fun _ files => (.error { kind := .other, message := "remove failed".toList }, files) }

def stuckFiles : FaultyFiles stuckFs Str where
  file := id
  contents := lookupFile
  readFileText := memoryTextFiles.readFileText
  readFileText_ok := memoryTextFiles.readFileText_ok
  readFileText_notFound := by
    intro path s e s' h _
    show lookupFile s path = none
    simp only [stuckFs, memoryFs, Prod.mk.injEq] at h
    obtain ⟨h, -⟩ := h
    split at h
    · cases h
    · next hnone => exact hnone
  getMetadata := memoryTextFiles.getMetadata
  createDirectory h := by
    cases h
    rfl
  writeFile_ok := memoryTextFiles.writeFile
  writeFile_error h := by cases h
  remove_ok h := by cases h
  remove_error h := by
    cases h
    exact .inl rfl

/-- A move whose source cannot be removed leaves an exact delta, and it is undone. -/
theorem failed_move_undone :
    let hunks : List Hunk := [.updateFile "a".toList (some "b".toList)
      [{ changeContext := none, oldLines := ["1".toList], newLines := ["2".toList],
         isEndOfFile := false }]]
    let st := leaves (stuckFs.applyHunksToFiles hunks []) { fs := [("/a".toList, "1\n".toList)] }
    st.delta.exact = true ∧
      undoDelta stuckFiles.file st.delta.changes (stuckFiles.contents st.fs) =
        stuckFiles.contents [("/a".toList, "1\n".toList)] :=
  ⟨by decide +kernel, applyHunksToFiles_undone stuckFiles _ _ _ (by decide +kernel)⟩

end Codex.ApplyPatch
