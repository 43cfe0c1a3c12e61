import Codex.ApplyPatch.LineRun

/-!
# Sections of a patch text

Which lines of a patch are file content can be read off the text by a scan that
only knows the section a line is in. `InSection` ties the scan to the parser.
`singleReturns` says that no content line ends in two carriage returns; on such
a text the parser does not notice when every line loses a carriage return
(`pushLines_stripCr`), because markers are matched on trimmed text.
-/

namespace Codex.ApplyPatch

open List Codex.Text StreamingPatchParser

/-! ## The scan -/

/-- The last chunk of an update section: none yet, open, or closed by an end-of-file marker. -/
inductive ChunkState where
  | none
  | opened
  | closed
  deriving DecidableEq

/-- Where a line stands: in an update section or anywhere else. -/
inductive Section where
  | other
  | update (chunk : ChunkState)
  deriving DecidableEq

def isUpdateHeader (s : Str) : Bool := updateFileMarker.isPrefixOf s

def isOtherHeader (s : Str) : Bool :=
  s == endPatchMarker || addFileMarker.isPrefixOf s || deleteFileMarker.isPrefixOf s

/-- The last chunk after a line of an update section that is no header. -/
def ChunkState.next (chunk : ChunkState) (updateLine : Str) : ChunkState :=
  if updateLine = eofMarker then if chunk = .none then .none else .closed
  else if isContextMarker updateLine then .opened
  else if chunk = .none ∧ ¬ moveToMarker <+: updateLine then .opened
  else chunk

/-- The section of the line after `line`. -/
def Section.next : Section → Str → Section
  | .other, line => if isUpdateHeader (trim line) then .update .none else .other
  | .update chunk, line =>
    if isUpdateHeader (trimEnd line) then .update .none
    else if isOtherHeader (trimEnd line) then .other
    else .update (chunk.next (trimEnd line))

/-- The line is file content: `+` lines of an added file, or context, added and removed lines of
a chunk that is not closed. -/
def Section.isContent : Section → Str → Bool
  | .other, line => line.head? == some '+'
  | .update .closed, _ => false
  | .update _, line => line.head? == some ' ' || line.head? == some '+' || line.head? == some '-'

/-- No content line ends in two carriage returns. -/
def singleReturns : Section → List Str → Bool
  | _, [] => true
  | s, l :: ls => !(s.isContent l && ['\r', '\r'].isSuffixOf l) && singleReturns (s.next l) ls

def chunkState (chunks : List UpdateFileChunk) : ChunkState :=
  match chunks.getLast? with
  | none => .none
  | some chunk => if chunk.isEndOfFile then .closed else .opened

/-- The section the parser is in. -/
inductive InSection (p : StreamingPatchParser) : Section → Prop where
  | other (hm : ∀ n, p.state.mode ≠ .updateFile n) : InSection p .other
  | update {n : Nat} (hm : p.state.mode = .updateFile n) {path : Str} {mv : Option Str}
      {chunks : List UpdateFileChunk}
      (hl : p.state.hunks.getLast? = some (.updateFile path mv chunks)) :
      InSection p (.update (chunkState chunks))

theorem isUpdateHeader_iff {s : Str} :
    isUpdateHeader s = true ↔ ∃ path, s = (Header.updateFile path).text := by
  simp only [isUpdateHeader, isPrefixOf_iff_prefix]
  exact ⟨fun ⟨t, ht⟩ => ⟨t, ht.symm⟩, fun ⟨t, ht⟩ => ⟨t, ht.symm⟩⟩

theorem isOtherHeader_iff {s : Str} : isOtherHeader s = true ↔
    s = Header.endPatch.text ∨ (∃ path, s = (Header.addFile path).text) ∨
      ∃ path, s = (Header.deleteFile path).text := by
  simp only [isOtherHeader, Bool.or_eq_true, beq_iff_eq, isPrefixOf_iff_prefix, or_assoc]
  refine or_congr_right (or_congr ?_ ?_)
  · exact ⟨fun ⟨t, ht⟩ => ⟨t, ht.symm⟩, fun ⟨t, ht⟩ => ⟨t, ht.symm⟩⟩
  · exact ⟨fun ⟨t, ht⟩ => ⟨t, ht.symm⟩, fun ⟨t, ht⟩ => ⟨t, ht.symm⟩⟩

theorem chunkState_concat (chunks : List UpdateFileChunk) (chunk : UpdateFileChunk) :
    chunkState (chunks ++ [chunk]) = if chunk.isEndOfFile then .closed else .opened := by
  simp [chunkState]

variable {chunks : List UpdateFileChunk} {record : UpdateFileChunk → UpdateFileChunk} {line l : Str}
  {chunk : ChunkState} {p p' q : StreamingPatchParser} {s : Section} {ls : List Str}

theorem chunkState_recordLine (h : ContentLine line record) (he : lastIsEndOfFile chunks = false) :
    chunkState (recordLine record chunks) = .opened := by
  have hrec : ∀ chunk, (record chunk).isEndOfFile = chunk.isEndOfFile := by
    cases h <;> exact fun _ => rfl
  rcases eq_nil_or_concat chunks with rfl | ⟨init, last, rfl⟩
  · simp [recordLine, modifyLast, chunkState, hrec, UpdateFileChunk.opened]
  · simp [lastIsEndOfFile] at he
    simp [recordLine, chunkState, hrec, he]

theorem chunkState_eq_closed (he : lastIsEndOfFile chunks = true) :
    chunkState chunks = .closed := by
  obtain ⟨last, hlast, hclosed⟩ := Option.any_eq_true _ _ |>.1 he
  rw [chunkState, hlast]
  exact if_pos hclosed

theorem chunkState_ne_closed (he : lastIsEndOfFile chunks = false) :
    chunkState chunks ≠ .closed := by
  unfold chunkState
  unfold lastIsEndOfFile at he
  split
  · simp
  · next hc => simp_all

/-- A line of an update hunk that is no header moves the chunk state along. -/
theorem chunkState_next {mv mv' : Option Str} {chunks' : List UpdateFileChunk}
    (h : UpdateAccepts mv chunks line mv' chunks') :
    chunkState chunks' = (chunkState chunks).next (trimEnd line) := by
  cases h with
  | @moveTo _ dest h =>
    rw [h]
    have heof : moveToMarker ++ dest ≠ eofMarker := by
      rw [moveToMarker_eq, eofMarker_eq]; simp
    have hctx : isContextMarker (moveToMarker ++ dest) = false := rfl
    simp [ChunkState.next, heof, hctx, chunkState]
  | openEmpty h hl =>
    rw [h, chunkState_concat]
    rfl
  | @openContext _ _ _ context h hl =>
    rw [h, chunkState_concat]
    have heof : changeContextMarker ++ context ≠ eofMarker := by
      rw [changeContextMarker_eq, eofMarker_eq]; simp
    have hctx : isContextMarker (changeContextMarker ++ context) = true :=
      isContextMarker_iff.2 (.inr ⟨_, rfl⟩)
    simp [ChunkState.next, heof, hctx, UpdateFileChunk.opened]
  | endOfFile h he hl =>
    rw [h]
    rcases eq_nil_or_concat chunks with rfl | ⟨init, last, rfl⟩
    · rfl
    · simp only [lastIsEndOfFile, concat_eq_append, getLast?_concat, Option.any_some]
        at he
      simp [ChunkState.next, chunkState, UpdateFileChunk.closed, he]
  | content h he =>
    rw [chunkState_recordLine h he]
    have heof : trimEnd line ≠ eofMarker := h.ne_star _
    have hmove : ¬ moveToMarker <+: trimEnd line := by
      rintro ⟨t, ht⟩
      exact h.ne_star _ ht.symm
    have hne := chunkState_ne_closed he
    rw [ChunkState.next, if_neg heof, h.isContextMarker_eq_false]
    cases hc : chunkState chunks <;> simp_all

/-- The section a header opens. -/
def headerSection : Header → Section
  | .updateFile _ => .update .none
  | _ => .other

theorem next_other_header {h : Header} (ht : trim line = h.text) :
    Section.other.next line = headerSection h := by
  rw [Section.next, ht]
  cases h with
  | updateFile path => rw [isUpdateHeader_iff.2 ⟨path, rfl⟩]; rfl
  | _ => rfl

theorem next_update_header {h : Header} (ht : trimEnd line = h.text) :
    (Section.update chunk).next line = headerSection h := by
  rw [Section.next, ht]
  cases h with
  | updateFile path => rw [isUpdateHeader_iff.2 ⟨path, rfl⟩]; rfl
  | endPatch => rfl
  | addFile path =>
    have hu : isUpdateHeader (Header.addFile path).text = false := rfl
    rw [hu, isOtherHeader_iff.2 (.inr (.inl ⟨path, rfl⟩))]
    rfl
  | deleteFile path =>
    have hu : isUpdateHeader (Header.deleteFile path).text = false := rfl
    rw [hu, isOtherHeader_iff.2 (.inr (.inr ⟨path, rfl⟩))]
    rfl

theorem next_update_of_ne (hn : ∀ h : Header, trimEnd line ≠ h.text) :
    (Section.update chunk).next line = .update (chunk.next (trimEnd line)) := by
  have hu : ¬ isUpdateHeader (trimEnd line) = true := by
    rw [isUpdateHeader_iff]
    exact fun ⟨path, h⟩ => hn _ h
  have ho : ¬ isOtherHeader (trimEnd line) = true := by
    rw [isOtherHeader_iff]
    rintro (h | ⟨path, h⟩ | ⟨path, h⟩) <;> exact hn _ h
  rw [Section.next, if_neg hu, if_neg ho]

theorem next_other_of_ne (hn : ∀ path, trim line ≠ updateFileMarker ++ path) :
    Section.other.next line = .other := by
  have hu : ¬ isUpdateHeader (trim line) = true := by
    rw [isUpdateHeader_iff]
    exact fun ⟨path, h⟩ => hn path h
  rw [Section.next, if_neg hu]

theorem getLast?_setLastHunk {hunk hunk' : Hunk} (hl : p.state.hunks.getLast? = some hunk) :
    (p.setLastHunk hunk').state.hunks.getLast? = some hunk' := by
  obtain ⟨init, hinit⟩ := getLast?_eq_some_iff.1 hl
  simp [setLastHunk, hinit]

theorem inSection_enter (p : StreamingPatchParser) (h : Header) :
    InSection (p.enter h) (headerSection h) := by
  cases h with
  | updateFile path =>
    have hup : InSection (p.enter (.updateFile path)) (.update (chunkState [])) :=
      .update rfl getLast?_concat
    exact hup
  | _ => exact .other fun n h => by cases h

/-- **The scan over lines follows the parser.** -/
theorem InSection.next (hs : InSection p s) (h : Accepts p line p') :
    InSection p' (s.next line) := by
  cases hs with
  | other hu =>
    cases h with
    | beginPatch hm h =>
      rw [next_other_of_ne (by rw [h, beginPatchMarker_eq, updateFileMarker_eq]; simp)]
      exact .other fun n h => by cases h
    | environment hm he h hid =>
      rw [next_other_of_ne (by rw [h, environmentIdMarker_eq, updateFileMarker_eq]; simp)]
      exact .other hu
    | header hm hd h ht =>
      rw [next_other_header ((headerText_of_other hu line).symm.trans ht)]
      exact inSection_enter p h
    | @addLine hm rest path contents h hl =>
      obtain ⟨t, ht⟩ := trim_plus rest
      rw [next_other_of_ne (by rw [h, ht, updateFileMarker_eq]; simp)]
      exact .other hu
    | updateLine hm => exact absurd hm (hu _)
    | blankAfterEof hm => exact absurd hm (hu _)
    | blankAfterEnd hm h =>
      rw [next_other_of_ne (by rw [trim_eq_nil.2 h, updateFileMarker_eq]; simp)]
      exact .other hu
  | @update n hu path mv chunks hl =>
    cases h with
    | beginPatch hm | environment hm | addLine hm | blankAfterEnd hm => rw [hu] at hm; cases hm
    | header hm hd h ht =>
      rw [next_update_header ((headerText_of_update hu line).symm.trans ht)]
      exact inSection_enter p h
    | updateLine hm hl' h =>
      rw [hl] at hl'
      cases hl'
      rw [next_update_of_ne h.ne_header, ← chunkState_next h]
      exact .update (p := p.setLastHunk _) hu (getLast?_setLastHunk hl)
    | blankAfterEof hm hl' he h =>
      rw [hl] at hl'
      cases hl'
      have hne : ∀ hd : Header, trimEnd line ≠ hd.text := fun hd e => by
        obtain ⟨t, ht⟩ := header_text_eq hd
        rw [trimEnd_eq_nil.2 h, ht] at e
        cases e
      have hclosed := chunkState_eq_closed he
      rw [next_update_of_ne hne, trimEnd_eq_nil.2 h, hclosed]
      have hstay : ChunkState.closed.next [] = chunkState chunks := by rw [hclosed]; rfl
      rw [hstay]
      exact .update hu hl

/-! ## One carriage return less -/

theorem stripCr_cons {c : Char} (hc : c ≠ '\r') (s : Str) : stripCr (c :: s) = c :: stripCr s := by
  cases s with
  | nil => simp [stripCr, hc]
  | cons d s =>
    simp only [stripCr, getLast?_cons_cons, dropLast_cons_cons]
    split <;> rfl

theorem isContent_stripCr (s : Section) (l : Str) : s.isContent (stripCr l) = s.isContent l := by
  cases l with
  | nil => rfl
  | cons c l =>
    by_cases hc : c = '\r'
    · subst hc
      have hhead : ∀ t : Str, t.head? = some '\r' ∨ t = [] → s.isContent t = false := by
        rintro t (ht | rfl)
        · cases s with
          | other => simp [Section.isContent, ht]
          | update chunk => cases chunk <;> simp [Section.isContent, ht]
        · cases s with
          | other => rfl
          | update chunk => cases chunk <;> rfl
      rw [hhead ('\r' :: l) (.inl rfl)]
      refine hhead _ ?_
      cases l with
      | nil => exact .inr (by simp [stripCr])
      | cons d l =>
        refine .inl ?_
        simp only [stripCr, getLast?_cons_cons, dropLast_cons_cons]
        split <;> rfl
    · rw [stripCr_cons hc]
      cases s with
      | other => rfl
      | update chunk => cases chunk <;> rfl

theorem isSuffixOf_returns :
    ['\r', '\r'].isSuffixOf l = true ↔ (stripCr l).getLast? = some '\r' := by
  rw [isSuffixOf_iff_suffix, getLast?_eq_some_iff]
  constructor
  · rintro ⟨t, rfl⟩
    refine ⟨t, ?_⟩
    have h := stripCr_concat (t ++ ['\r'])
    rwa [List.append_assoc] at h
  · rintro ⟨t, ht⟩
    rcases stripCr_cases l with ⟨hl, hne⟩ | hl
    · rw [hl] at ht
      exact absurd (getLast?_eq_some_iff.2 ⟨t, ht⟩) hne
    · refine ⟨t, ?_⟩
      rw [hl, ht, List.append_assoc]
      rfl

theorem ContentLine.isContent
    (h : ContentLine line record) (hne : line ≠ []) (hc : chunk ≠ .closed) :
    (Section.update chunk).isContent line = true := by
  cases chunk with
  | closed => exact absurd rfl hc
  | _ => cases h <;> first | rfl | exact absurd rfl hne

/-- A line that is no content of its section means the same with one carriage return less. -/
theorem accepts_stripCr
    (hs : InSection p s) (h : Accepts p line q) (hc : s.isContent line = false) :
    Accepts p (stripCr line) q := by
  cases h with
  | beginPatch hm h => exact .beginPatch hm ((trim_stripCr line).trans h)
  | environment hm he h hid => exact .environment hm he ((trim_stripCr line).trans h) hid
  | header hm hd h ht => exact .header hm hd h ((headerText_stripCr p line).trans ht)
  | addLine hm h hl =>
    cases hs with
    | other => rw [h] at hc; cases hc
    | update hm' => rw [hm] at hm'; cases hm'
  | updateLine hm hl h =>
    refine .updateLine hm hl ?_
    cases h with
    | moveTo h => exact .moveTo ((trimEnd_stripCr line).trans h)
    | openEmpty h hl => exact .openEmpty ((trimEnd_stripCr line).trans h) hl
    | openContext h hl => exact .openContext ((trimEnd_stripCr line).trans h) hl
    | endOfFile h he hl => exact .endOfFile ((trimEnd_stripCr line).trans h) he hl
    | content h he =>
      cases hs with
      | other hm' => exact absurd hm (hm' _)
      | update _ hl' =>
        rw [hl] at hl'
        cases hl'
        by_cases hne : line = []
        · subst hne
          exact .content h he
        · rw [h.isContent hne (chunkState_ne_closed he)] at hc
          cases hc
  | blankAfterEof hm hl he h => exact .blankAfterEof hm hl he (blank_stripCr.2 h)
  | blankAfterEnd hm h => exact .blankAfterEnd hm (blank_stripCr.2 h)

theorem next_stripCr (s : Section) (l : Str) : s.next (stripCr l) = s.next l := by
  cases s with
  | other => rw [Section.next, Section.next, trim_stripCr]
  | update chunk => rw [Section.next, Section.next, trimEnd_stripCr]

theorem InSection.congr (hs : InSection p s) (h : p.state = p'.state) : InSection p' s := by
  cases hs with
  | other hm => exact .other (by rwa [h] at hm)
  | update hm hl =>
    rw [h] at hm hl
    exact .update hm hl

theorem InSection.pushLine (hs : InSection p s) (h : p.pushLine l = .ok p') :
    InSection p' (s.next l) := by
  have hs' : InSection { p with lineNumber := p.lineNumber + 1 } s := hs.congr rfl
  rw [← next_stripCr]
  exact hs'.next (processLine_eq_ok.1 h)

theorem singleReturns_cons : singleReturns s (l :: ls) = true ↔
      ¬ (s.isContent (stripCr l) = true ∧ (stripCr l).getLast? = some '\r') ∧
        singleReturns (s.next l) ls = true := by
  rw [isContent_stripCr, ← isSuffixOf_returns, singleReturns, Bool.and_eq_true, Bool.not_eq_true',
    ← Bool.not_eq_true, Bool.and_eq_true]

/-- **A text without doubled returns in its content means the same with every line stripped.** -/
theorem pushLines_stripCr (hs : InSection p s) (hsr : singleReturns s ls = true)
    (h : p.pushLines ls = .ok q) : p.pushLines (ls.map stripCr) = .ok q := by
  induction ls generalizing p s with
  | nil => exact h
  | cons l ls ih =>
    rw [pushLines_cons, bind_eq_ok] at h
    obtain ⟨p', hp', h⟩ := h
    obtain ⟨hl, hls⟩ := singleReturns_cons.1 hsr
    have hstep : p.pushLine (stripCr l) = .ok p' := by
      by_cases hcr : (stripCr l).getLast? = some '\r'
      · have hc : s.isContent (stripCr l) = false := by
          rw [← Bool.not_eq_true]
          exact fun hc => hl ⟨hc, hcr⟩
        exact processLine_eq_ok.2 (accepts_stripCr (hs.congr rfl) (processLine_eq_ok.1 hp') hc)
      · rw [StreamingPatchParser.pushLine, stripCr_of_ne hcr]
        exact hp'
    rw [map_cons, pushLines_cons, hstep, ok_bind]
    exact ih (hs.pushLine hp') hls h

theorem singleReturns_append (s : Section) (ls ls' : List Str) :
    singleReturns s (ls ++ ls') =
      (singleReturns s ls && singleReturns (ls.foldl Section.next s) ls') := by
  induction ls generalizing s with
  | nil => rfl
  | cons l ls ih => simp [singleReturns, ih, Bool.and_assoc]

theorem InSection.pushLines (hs : InSection p s) (h : p.pushLines ls = .ok q) :
    InSection q (ls.foldl Section.next s) := by
  induction ls generalizing p s with
  | nil =>
    cases h
    exact hs
  | cons l ls ih =>
    rw [pushLines_cons, bind_eq_ok] at h
    obtain ⟨p', hp', h⟩ := h
    exact ih (hs.pushLine hp') h

theorem singleReturns_blank (h : ∀ l ∈ ls, Blank l) : singleReturns .other ls = true := by
  induction ls with
  | nil => rfl
  | cons l ls ih =>
    have hl : Blank l := h l (by simp)
    have hc : Section.other.isContent l = false := by
      cases l with
      | nil => rfl
      | cons c l =>
        have hplus : c ≠ '+' := by
          rintro rfl
          have := hl '+' (by simp)
          revert this
          decide
        simpa [Section.isContent] using hplus
    have hn : Section.other.next l = .other :=
      next_other_of_ne (by rw [trim_eq_nil.2 hl, updateFileMarker_eq]; simp)
    simp only [singleReturns, hc, hn, Bool.false_and, Bool.not_false, Bool.true_and]
    exact ih fun l' hl' => h l' (by simp [hl'])

/-- The end marker and the blank lines after it hold no content. -/
theorem singleReturns_end {e : Str} {bs : List Str} (hs : InSection p s)
    (he : p.headerText e = endPatchMarker) (hbs : ∀ b ∈ bs, Blank b) :
    singleReturns s (e :: bs) = true := by
  have hc : s.isContent e = false ∧ s.next e = .other := by
    cases hs with
    | other hm =>
      have htrim : trim e = endPatchMarker := trim_of_headerText he
      refine ⟨?_, next_other_header (h := .endPatch) htrim⟩
      cases e with
      | nil => rfl
      | cons c e =>
        have hplus : c ≠ '+' := by
          rintro rfl
          obtain ⟨t, ht⟩ := trim_plus e
          rw [ht] at htrim
          cases htrim
        simpa [Section.isContent] using hplus
    | @update n hm path mv chunks hl =>
      have htrim : trimEnd e = endPatchMarker := (headerText_of_update hm e).symm.trans he
      have hhead : e.head? = some '*' := head_of_head_trimEnd (by rw [htrim]; rfl)
      refine ⟨?_, next_update_header (h := .endPatch) htrim⟩
      cases chunkState chunks <;> simp [Section.isContent, hhead]
  rw [singleReturns, hc.1, hc.2]
  exact singleReturns_blank hbs

end Codex.ApplyPatch
