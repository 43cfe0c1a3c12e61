import Codex.ApplyPatch.Parser

/-!
# What one line does to the parser

`Accepts p line p'` lists the ways `processLine` can accept a line, one
constructor for each effect, with the positive conditions only: the branches of
the cascade in `processLine` exclude each other because a header begins with
`***`, a context marker with `@@` and a content line with a blank, `+` or `-`.
`processLine_eq_ok` says that the list is exact. Everything later reasons about
`Accepts`, not about the cascade.
-/

namespace Codex.ApplyPatch

open List Codex.Text

/-- The header lines: the end of the patch, or the start of a hunk. -/
inductive Header where
  | endPatch
  | addFile (path : Str)
  | deleteFile (path : Str)
  | updateFile (path : Str)
  deriving DecidableEq

def Header.text : Header → Str
  | .endPatch => endPatchMarker
  | .addFile path => addFileMarker ++ path
  | .deleteFile path => deleteFileMarker ++ path
  | .updateFile path => updateFileMarker ++ path

/-- The modes in which headers are read. -/
def StreamingParserMode.readsHeaders : StreamingParserMode → Bool
  | .startedPatch | .addFile | .deleteFile | .updateFile _ => true
  | .notStarted | .endedPatch => false

/-- The content lines of an update hunk and what they record. -/
inductive ContentLine : Str → (UpdateFileChunk → UpdateFileChunk) → Prop where
  | empty : ContentLine [] (.context [])
  | context (line : Str) : ContentLine (' ' :: line) (.context line)
  | added (line : Str) : ContentLine ('+' :: line) (.added line)
  | removed (line : Str) : ContentLine ('-' :: line) (.removed line)

/-- What a line of an update hunk does to its move destination and its chunks. -/
inductive UpdateAccepts :
    Option Str → List UpdateFileChunk → Str → Option Str → List UpdateFileChunk → Prop where
  | moveTo {line dest : Str} (h : trimEnd line = moveToMarker ++ dest) :
      UpdateAccepts none [] line (some dest) []
  | openEmpty {mv : Option Str} {chunks : List UpdateFileChunk} {line : Str}
      (h : trimEnd line = emptyChangeContextMarker) (hl : lastHasNoLines chunks = false) :
      UpdateAccepts mv chunks line mv (chunks ++ [.opened none])
  | openContext {mv : Option Str} {chunks : List UpdateFileChunk} {line context : Str}
      (h : trimEnd line = changeContextMarker ++ context) (hl : lastHasNoLines chunks = false) :
      UpdateAccepts mv chunks line mv (chunks ++ [.opened (some context)])
  | endOfFile {mv : Option Str} {chunks : List UpdateFileChunk} {line : Str}
      (h : trimEnd line = eofMarker) (he : lastIsEndOfFile chunks = false)
      (hl : lastHasNoLines chunks = false) :
      UpdateAccepts mv chunks line mv (modifyLast .closed chunks)
  | content {mv : Option Str} {chunks : List UpdateFileChunk} {line : Str}
      {record : UpdateFileChunk → UpdateFileChunk} (h : ContentLine line record)
      (he : lastIsEndOfFile chunks = false) :
      UpdateAccepts mv chunks line mv (recordLine record chunks)

/-! ## Content lines are no markers -/

theorem header_text_eq (h : Header) : ∃ t, h.text = '*' :: t := by
  cases h <;> exact ⟨_, rfl⟩

variable {s line : Str} {record : UpdateFileChunk → UpdateFileChunk}

theorem isContextMarker_iff : isContextMarker s = true ↔
    s = emptyChangeContextMarker ∨ ∃ context, s = changeContextMarker ++ context := by
  simp only [isContextMarker, Bool.or_eq_true, beq_iff_eq, isPrefixOf_iff_prefix]
  exact or_congr_right ⟨fun ⟨t, ht⟩ => ⟨t, ht.symm⟩, fun ⟨t, ht⟩ => ⟨t, ht.symm⟩⟩

theorem head_of_head_trimEnd {c : Char} (h : (trimEnd s).head? = some c) : s.head? = some c := by
  obtain ⟨t, ht⟩ := rdropWhile_prefix isWhitespace s
  rw [← ht, head?_append]
  exact Option.or_eq_some_iff.2 (.inl h)

theorem ne_append_of_head {m : Char} (hs : ∀ c, s.head? = some c → c ≠ m) (t : Str) :
    s ≠ m :: t := by
  rintro rfl
  exact hs m rfl rfl

/-- A content line is empty or starts with a blank, `+` or `-`. -/
theorem ContentLine.head_trimEnd (h : ContentLine line record) {c : Char}
    (hc : (trimEnd line).head? = some c) : c ≠ '*' ∧ c ≠ '@' := by
  have hl := head_of_head_trimEnd hc
  cases h <;> simp at hl <;> subst hl <;> decide

theorem ContentLine.ne_star (h : ContentLine line record) (t : Str) : trimEnd line ≠ '*' :: t :=
  ne_append_of_head (fun _ hc => (h.head_trimEnd hc).1) t

theorem ContentLine.isContextMarker_eq_false (h : ContentLine line record) :
    isContextMarker (trimEnd line) = false := by
  have hat : ∀ t, trimEnd line ≠ '@' :: t := ne_append_of_head fun _ hc => (h.head_trimEnd hc).2
  rw [← Bool.not_eq_true, isContextMarker_iff]
  rintro (ht | ⟨t, ht⟩)
  · exact hat _ ht
  · exact hat _ ht

/-- No line of an update hunk that changes it is a header. -/
theorem UpdateAccepts.ne_header {mv mv' : Option Str} {chunks chunks' : List UpdateFileChunk}
    (h : UpdateAccepts mv chunks line mv' chunks') (hd : Header) : trimEnd line ≠ hd.text := by
  cases h with
  | moveTo h =>
    rw [h]
    cases hd <;> simp [Header.text, moveToMarker_eq, endPatchMarker_eq, addFileMarker_eq,
      deleteFileMarker_eq, updateFileMarker_eq]
  | openEmpty h _ =>
    obtain ⟨t, ht⟩ := header_text_eq hd
    rw [h, ht, emptyChangeContextMarker_eq]
    simp
  | openContext h _ =>
    obtain ⟨t, ht⟩ := header_text_eq hd
    rw [h, ht, changeContextMarker_eq]
    simp
  | endOfFile h _ _ =>
    rw [h]
    cases hd <;> simp [Header.text, eofMarker_eq, endPatchMarker_eq, addFileMarker_eq,
      deleteFileMarker_eq, updateFileMarker_eq]
  | content h _ =>
    obtain ⟨t, ht⟩ := header_text_eq hd
    rw [ht]
    exact h.ne_star t

namespace StreamingPatchParser

/-- A header is matched on right-trimmed text inside an update hunk, on trimmed text elsewhere. -/
def headerText (p : StreamingPatchParser) (line : Str) : Str :=
  match p.state.mode with
  | .updateFile _ => trimEnd line
  | _ => trim line

def enter (p : StreamingPatchParser) : Header → StreamingPatchParser
  | .endPatch => p.setMode .endedPatch
  | .addFile path => p.openHunk (.addFile path []) .addFile
  | .deleteFile path => p.openHunk (.deleteFile path) .deleteFile
  | .updateFile path => p.openHunk (.updateFile path none []) (.updateFile p.lineNumber)

/-- The last hunk may be left: it is no update hunk without chunks or with an empty last chunk. -/
def LastHunkDone (p : StreamingPatchParser) : Prop :=
  ∀ line, p.ensureUpdateHunkIsNotEmpty line = .ok ()

inductive Accepts (p : StreamingPatchParser) (line : Str) : StreamingPatchParser → Prop where
  | beginPatch (hm : p.state.mode = .notStarted) (h : trim line = beginPatchMarker) :
      Accepts p line (p.setMode .startedPatch)
  | environment (hm : p.state.mode = .startedPatch) (he : p.state.environmentId = none) {id : Str}
      (h : trim line = environmentIdMarker ++ id) (hid : trim id ≠ []) :
      Accepts p line (p.setEnvironmentId (trim id))
  | header (hm : p.state.mode.readsHeaders = true) (hd : p.LastHunkDone) (h : Header)
      (ht : p.headerText line = h.text) : Accepts p line (p.enter h)
  | addLine (hm : p.state.mode = .addFile) {rest path contents : Str} (h : line = '+' :: rest)
      (hl : p.state.hunks.getLast? = some (.addFile path contents)) :
      Accepts p line (p.setLastHunk (.addFile path (contents ++ rest ++ ['\n'])))
  | updateLine {n : Nat} (hm : p.state.mode = .updateFile n) {path : Str} {mv mv' : Option Str}
      {chunks chunks' : List UpdateFileChunk}
      (hl : p.state.hunks.getLast? = some (.updateFile path mv chunks))
      (h : UpdateAccepts mv chunks line mv' chunks') :
      Accepts p line (p.setLastHunk (.updateFile path mv' chunks'))
  | blankAfterEof {n : Nat} (hm : p.state.mode = .updateFile n) {path : Str} {mv : Option Str}
      {chunks : List UpdateFileChunk}
      (hl : p.state.hunks.getLast? = some (.updateFile path mv chunks))
      (he : lastIsEndOfFile chunks = true) (h : Blank line) : Accepts p line p
  | blankAfterEnd (hm : p.state.mode = .endedPatch) (h : Blank line) : Accepts p line p

/-! ## Headers -/

variable {p p' : StreamingPatchParser} {line s : Str} {chunks : List UpdateFileChunk}
  {mv : Option Str}

theorem headerText_of_update {n : Nat} (hm : p.state.mode = .updateFile n) (line : Str) :
    p.headerText line = trimEnd line := by
  rw [headerText, hm]

theorem headerText_of_other (hm : ∀ n, p.state.mode ≠ .updateFile n) (line : Str) :
    p.headerText line = trim line := by
  unfold headerText
  split
  · next hm' => exact absurd hm' (hm _)
  · rfl

theorem ensure_eq_ok : p.ensureUpdateHunkIsNotEmpty line = .ok () ↔ p.LastHunkDone := by
  constructor
  · intro h line'
    unfold ensureUpdateHunkIsNotEmpty at h ⊢
    split at h
    · cases h
    · split at h
      · split at h <;> cases h
      · next hl => simp [hl]
    · rfl
  · exact fun h => h line

theorem environmentIdOf_eq_some {id : Str} : p.environmentIdOf s = some id ↔
      p.state.mode = .startedPatch ∧ s = environmentIdMarker ++ id := by
  unfold environmentIdOf
  split
  · next h => simp [h, stripPrefix_eq_some]
  · next h => simp [h]

theorem environmentIdOf_header (p : StreamingPatchParser) (h : Header) :
    p.environmentIdOf h.text = none := by
  unfold environmentIdOf
  split
  · cases h <;> rfl
  · rfl

theorem handle_header (p : StreamingPatchParser) (h : Header) :
    p.handleHunkHeadersAndEndPatch h.text =
      (p.ensureUpdateHunkIsNotEmpty h.text).map fun _ => some (p.enter h) := by
  unfold handleHunkHeadersAndEndPatch
  rw [environmentIdOf_header]
  cases h with
  | endPatch => rfl
  | addFile path =>
    have hne : addFileMarker ++ path ≠ endPatchMarker := by
      rw [addFileMarker_eq, endPatchMarker_eq]; simp
    simp only [Header.text, hne, ↓reduceIte, stripPrefix_append]
    rfl
  | deleteFile path =>
    have hne : deleteFileMarker ++ path ≠ endPatchMarker := by
      rw [deleteFileMarker_eq, endPatchMarker_eq]; simp
    have hadd : stripPrefix (deleteFileMarker ++ path) addFileMarker = none := rfl
    simp only [Header.text, hne, ↓reduceIte, hadd, stripPrefix_append]
    rfl
  | updateFile path =>
    have hne : updateFileMarker ++ path ≠ endPatchMarker := by
      rw [updateFileMarker_eq, endPatchMarker_eq]; simp
    have hadd : stripPrefix (updateFileMarker ++ path) addFileMarker = none := rfl
    have hdel : stripPrefix (updateFileMarker ++ path) deleteFileMarker = none := rfl
    simp only [Header.text, hne, ↓reduceIte, hadd, hdel, stripPrefix_append]
    rfl

/-- Text that is neither an environment id nor a header is left to the current mode. -/
theorem handle_other (he : p.environmentIdOf s = none) (hs : ∀ h : Header, s ≠ h.text) :
    p.handleHunkHeadersAndEndPatch s = .ok none := by
  have hadd : stripPrefix s addFileMarker = none := by
    cases h : stripPrefix s addFileMarker with
    | none => rfl
    | some path => exact absurd (stripPrefix_eq_some.1 h) (hs (.addFile path))
  have hdel : stripPrefix s deleteFileMarker = none := by
    cases h : stripPrefix s deleteFileMarker with
    | none => rfl
    | some path => exact absurd (stripPrefix_eq_some.1 h) (hs (.deleteFile path))
  have hupd : stripPrefix s updateFileMarker = none := by
    cases h : stripPrefix s updateFileMarker with
    | none => rfl
    | some path => exact absurd (stripPrefix_eq_some.1 h) (hs (.updateFile path))
  have hend : s ≠ endPatchMarker := hs .endPatch
  simp only [handleHunkHeadersAndEndPatch, he, hend, ↓reduceIte, hadd, hdel, hupd]

theorem handle_environment {id : Str} (hm : p.state.mode = .startedPatch)
    (he : p.state.environmentId = none) (hid : trim id ≠ []) :
    p.handleHunkHeadersAndEndPatch (environmentIdMarker ++ id) =
      .ok (some (p.setEnvironmentId (trim id))) := by
  have h : p.environmentIdOf (environmentIdMarker ++ id) = some id :=
    environmentIdOf_eq_some.2 ⟨hm, rfl⟩
  simp [handleHunkHeadersAndEndPatch, h, he, hid]

theorem handle_eq_ok {o : Option StreamingPatchParser}
    (h : p.handleHunkHeadersAndEndPatch s = .ok o) :
    (∃ id, p.state.mode = .startedPatch ∧ p.state.environmentId = none ∧
      s = environmentIdMarker ++ id ∧ trim id ≠ [] ∧ o = some (p.setEnvironmentId (trim id))) ∨
    (∃ hd : Header, s = hd.text ∧ p.LastHunkDone ∧ o = some (p.enter hd)) ∨
    (o = none ∧ p.environmentIdOf s = none ∧ ∀ hd : Header, s ≠ hd.text) := by
  cases he : p.environmentIdOf s with
  | some id =>
    obtain ⟨hm, rfl⟩ := environmentIdOf_eq_some.1 he
    simp only [handleHunkHeadersAndEndPatch, he] at h
    split at h
    · cases h
    · split at h
      · cases h
      · next h1 h2 =>
        refine .inl ⟨id, hm, by simpa using h1, rfl, by simpa using h2, ?_⟩
        exact (Except.ok.inj h).symm
  | none =>
    right
    by_cases hs : ∃ hd : Header, s = hd.text
    · obtain ⟨hd, rfl⟩ := hs
      rw [handle_header, map_eq_ok] at h
      obtain ⟨u, hu, rfl⟩ := h
      exact .inl ⟨hd, rfl, ensure_eq_ok.1 hu, rfl⟩
    · have hs' : ∀ hd : Header, s ≠ hd.text := fun hd e => hs ⟨hd, e⟩
      rw [handle_other he hs'] at h
      exact .inr ⟨(Except.ok.inj h).symm, rfl, hs'⟩

/-! ## Lines of an update hunk -/

theorem processUpdateLine_content (p : StreamingPatchParser) (path : Str) (mv : Option Str)
    {record : UpdateFileChunk → UpdateFileChunk} (h : ContentLine line record)
    (he : lastIsEndOfFile chunks = false) : p.processUpdateLine path mv chunks line =
      .ok (p.setLastHunk (.updateFile path mv (recordLine record chunks))) := by
  have hctx := h.isContextMarker_eq_false
  have hmove : stripPrefix (trimEnd line) moveToMarker = none := by
    rw [stripPrefix_eq_none]
    rintro ⟨t, ht⟩
    exact h.ne_star _ ht.symm
  have hempty : trimEnd line ≠ emptyChangeContextMarker := fun ht => by
    rw [isContextMarker_iff.2 (.inl ht)] at hctx
    cases hctx
  have hopen : stripPrefix (trimEnd line) changeContextMarker = none := by
    rw [stripPrefix_eq_none]
    rintro ⟨t, ht⟩
    rw [isContextMarker_iff.2 (.inr ⟨t, ht.symm⟩)] at hctx
    cases hctx
  have heof : trimEnd line ≠ eofMarker := h.ne_star _
  unfold processUpdateLine
  simp only [he, hctx, hmove, hempty, hopen, heof, Bool.false_and, ↓reduceIte, Bool.false_eq_true,
    ite_self]
  cases h <;> rfl

theorem processUpdateLine_of_accepts (p : StreamingPatchParser) (path : Str) {mv' : Option Str}
    {chunks' : List UpdateFileChunk} (h : UpdateAccepts mv chunks line mv' chunks') :
    p.processUpdateLine path mv chunks line =
      .ok (p.setLastHunk (.updateFile path mv' chunks')) := by
  unfold processUpdateLine
  cases h with
  | moveTo h => simp [h, lastIsEndOfFile]
  | openEmpty h hl =>
    have hc : isContextMarker emptyChangeContextMarker = true := rfl
    have hm : stripPrefix emptyChangeContextMarker moveToMarker = none := rfl
    have hn : emptyChangeContextMarker.isEmpty = false := rfl
    simp [h, hl, hc, hm, hn]
  | @openContext _ _ _ context h hl =>
    have hc : isContextMarker (changeContextMarker ++ context) = true :=
      isContextMarker_iff.2 (.inr ⟨_, rfl⟩)
    have hm : stripPrefix (changeContextMarker ++ context) moveToMarker = none := rfl
    have hne : changeContextMarker ++ context ≠ emptyChangeContextMarker := by
      rw [changeContextMarker_eq, emptyChangeContextMarker_eq]; simp
    have hn : (changeContextMarker ++ context).isEmpty = false := rfl
    simp only [h, hl, hc, hm, hn, hne, Bool.and_false, Bool.not_true, Bool.false_eq_true,
      ↓reduceIte, ite_self, stripPrefix_append]
  | endOfFile h he hl =>
    have hc : isContextMarker eofMarker = false := rfl
    have hm : stripPrefix eofMarker moveToMarker = none := rfl
    have hne : eofMarker ≠ emptyChangeContextMarker := by decide
    have ho : stripPrefix eofMarker changeContextMarker = none := rfl
    simp [h, he, hl, hc, hm, hne, ho]
  | content h he =>
    exact processUpdateLine_content p path mv h he

theorem processUpdateLine_eq_ok {path : Str}
    (h : p.processUpdateLine path mv chunks line = .ok p') :
    (p' = p ∧ lastIsEndOfFile chunks = true ∧ Blank line) ∨
    ∃ mv' chunks', UpdateAccepts mv chunks line mv' chunks' ∧
      p' = p.setLastHunk (.updateFile path mv' chunks') := by
  unfold processUpdateLine at h
  dsimp only at h
  split at h
  · next hb =>
    simp only [Bool.and_eq_true, List.isEmpty_iff] at hb
    exact .inl ⟨(Except.ok.inj h).symm, hb.1, trimEnd_eq_nil.1 hb.2⟩
  · split at h
    · cases h
    · next hblank hctx =>
      right
      split at h
      · next dest hd =>
        split at hd
        · next hc =>
          simp only [Bool.and_eq_true, List.isEmpty_iff, Option.isNone_iff_eq_none] at hc
          obtain ⟨rfl, rfl⟩ := hc
          exact ⟨_, _, .moveTo (stripPrefix_eq_some.1 hd), (Except.ok.inj h).symm⟩
        · cases hd
      · split at h
        · cases h
        · next hl =>
          have hopen : isContextMarker (trimEnd line) = true → lastHasNoLines chunks = false := by
            intro hc
            simpa [hc] using hl
          -- a chunk closed by an end-of-file marker only accepts context markers
          have heof : isContextMarker (trimEnd line) = false → lastIsEndOfFile chunks = false := by
            intro hc
            simpa [hc] using hctx
          split at h
          · next he =>
            exact ⟨_, _, .openEmpty he (hopen (isContextMarker_iff.2 (.inl he))),
              (Except.ok.inj h).symm⟩
          · next hne =>
            split at h
            · next context hc =>
              have hc' := stripPrefix_eq_some.1 hc
              exact ⟨_, _, .openContext hc' (hopen (isContextMarker_iff.2 (.inr ⟨_, hc'⟩))),
                (Except.ok.inj h).symm⟩
            · next hnc =>
              have hnm : isContextMarker (trimEnd line) = false := by
                rw [← Bool.not_eq_true, isContextMarker_iff]
                rintro (he | ⟨t, ht⟩)
                · exact hne he
                · rw [ht] at hnc
                  simp at hnc
              split at h
              · next he =>
                split at h
                · cases h
                · next hl' =>
                  exact ⟨_, _, .endOfFile he (heof hnm) (by simpa using hl'),
                    (Except.ok.inj h).symm⟩
              · split at h
                · exact ⟨_, _, .content .empty (heof hnm), (Except.ok.inj h).symm⟩
                · exact ⟨_, _, .content (.context _) (heof hnm), (Except.ok.inj h).symm⟩
                · exact ⟨_, _, .content (.added _) (heof hnm), (Except.ok.inj h).symm⟩
                · exact ⟨_, _, .content (.removed _) (heof hnm), (Except.ok.inj h).symm⟩
                · split at h <;> cases h

/-! ## Whole lines -/

/-- Trimmed text of a line that starts with `+` is no header and no environment id. -/
theorem trim_plus (rest : Str) : ∃ t, trim ('+' :: rest) = '+' :: t := by
  have hb : isWhitespace '+' = false := by decide
  by_cases hr : Blank rest
  · refine ⟨[], ?_⟩
    have h := trimEnd_append_blank (s := ['+']) hr
    rw [singleton_append] at h
    rw [trim, h]
    decide
  · refine ⟨trimEnd rest, ?_⟩
    have h := trimEnd_append_of_not_blank (s := ['+']) hr
    rw [singleton_append] at h
    rw [trim, h]
    simp [trimStart, hb]

theorem handle_of_head_ne (hs : ∀ c, s.head? = some c → c ≠ '*') :
    p.handleHunkHeadersAndEndPatch s = .ok none := by
  have hstar := ne_append_of_head hs
  refine handle_other ?_ fun h e => ?_
  · cases he : p.environmentIdOf s with
    | none => rfl
    | some id => exact absurd (environmentIdOf_eq_some.1 he).2 (hstar _)
  · obtain ⟨t, ht⟩ := header_text_eq h
    exact hstar t (e.trans ht)

theorem handle_of_updateAccepts {n : Nat} (hm : p.state.mode = .updateFile n) {mv' : Option Str}
    {chunks' : List UpdateFileChunk} (h : UpdateAccepts mv chunks line mv' chunks') :
    p.handleHunkHeadersAndEndPatch (trimEnd line) = .ok none :=
  handle_other (by simp [environmentIdOf, hm]) h.ne_header

theorem handle_blank : p.handleHunkHeadersAndEndPatch [] = .ok none :=
  handle_of_head_ne (by simp)

theorem processLine_of_accepts (h : Accepts p line p') : p.processLine line = .ok p' := by
  cases h with
  | beginPatch hm h => simp [processLine, hm, h]
  | environment hm he h hid => simp [processLine, hm, h, handle_environment hm he hid]
  | header hm hd h ht =>
    have hh : p.handleHunkHeadersAndEndPatch (p.headerText line) = .ok (some (p.enter h)) := by
      rw [ht, handle_header, hd]
      rfl
    unfold headerText at hh
    unfold processLine
    split at hh
    · next hm' => simp [hm', hh]
    · next hm' =>
      split
      · next hm'' => simp [hm'', StreamingParserMode.readsHeaders] at hm
      · simp [hh]
      · simp [hh]
      · simp [hh]
      · next n hm'' => exact absurd hm'' (hm' n)
      · next hm'' => simp [hm'', StreamingParserMode.readsHeaders] at hm
  | @addLine hm rest path contents h hl =>
    subst h
    have hh : p.handleHunkHeadersAndEndPatch (trim ('+' :: rest)) = .ok none := by
      obtain ⟨t, ht⟩ := trim_plus rest
      rw [ht]
      exact handle_of_head_ne (by rintro c ⟨rfl⟩; decide)
    simp [processLine, hm, hh, hl]
  | updateLine hm hl h =>
    simp [processLine, hm, handle_of_updateAccepts hm h, hl, processUpdateLine_of_accepts _ _ h]
  | blankAfterEof hm hl he h =>
    have ht : trimEnd line = [] := trimEnd_eq_nil.2 h
    simp [processLine, hm, ht, handle_blank, hl, processUpdateLine, he]
  | blankAfterEnd hm h => simp [processLine, hm, trim_eq_nil.2 h]

/-- A line that the headers answer is accepted; another one is left to the mode. -/
theorem eq_none_or_accepts {o : Option StreamingPatchParser}
    (hr : p.state.mode.readsHeaders = true)
    (ho : p.handleHunkHeadersAndEndPatch (p.headerText line) = .ok o) :
    o = none ∨ ∃ q, o = some q ∧ Accepts p line q := by
  rcases handle_eq_ok ho with ⟨id, hm, he, hs, hid, rfl⟩ | ⟨hd, hs, hdone, rfl⟩ | ⟨rfl, -, -⟩
  · rw [headerText, hm] at hs
    exact .inr ⟨_, rfl, .environment hm he hs hid⟩
  · exact .inr ⟨_, rfl, .header hr hdone hd hs⟩
  · exact .inl rfl

/-- **`processLine` accepts exactly the lines listed in `Accepts`.** -/
theorem processLine_eq_ok : p.processLine line = .ok p' ↔ Accepts p line p' := by
  refine ⟨fun h => ?_, processLine_of_accepts⟩
  unfold processLine at h
  split at h
  · next hm =>
    split at h
    · next hb => cases h; exact .beginPatch hm hb
    · cases h
  · next hm =>
    rw [bind_eq_ok] at h
    obtain ⟨o, ho, h⟩ := h
    rcases eq_none_or_accepts (by rw [hm]; rfl) (by rwa [headerText, hm]) with rfl | ⟨q, rfl, hq⟩
    · cases h
    · cases h; exact hq
  · next hm =>
    rw [bind_eq_ok] at h
    obtain ⟨o, ho, h⟩ := h
    rcases eq_none_or_accepts (by rw [hm]; rfl) (by rwa [headerText, hm]) with rfl | ⟨q, rfl, hq⟩
    · cases h
    · cases h; exact hq
  · next hm =>
    rw [bind_eq_ok] at h
    obtain ⟨o, ho, h⟩ := h
    rcases eq_none_or_accepts (by rw [hm]; rfl) (by rwa [headerText, hm]) with rfl | ⟨q, rfl, hq⟩
    · dsimp only at h
      split at h
      · next hl => cases h; exact .addLine hm rfl hl
      · cases h
    · cases h; exact hq
  · next n hm =>
    rw [bind_eq_ok] at h
    obtain ⟨o, ho, h⟩ := h
    rcases eq_none_or_accepts (by rw [hm]; rfl) (by rwa [headerText, hm]) with rfl | ⟨q, rfl, hq⟩
    · dsimp only at h
      split at h
      · next hl =>
        rcases processUpdateLine_eq_ok h with ⟨rfl, he, hb⟩ | ⟨mv', chunks', ha, rfl⟩
        · exact .blankAfterEof hm hl he hb
        · exact .updateLine hm hl ha
      · cases h
    · cases h; exact hq
  · next hm =>
    split at h
    · next hb =>
      cases h
      exact .blankAfterEnd hm (trim_eq_nil.1 (List.isEmpty_iff.1 hb))
    · cases h

end StreamingPatchParser

end Codex.ApplyPatch
