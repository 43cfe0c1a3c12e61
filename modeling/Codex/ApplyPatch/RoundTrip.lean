import Codex.ApplyPatch.LineRun

/-!
# Printing and parsing patches

`printPatch` writes hunks in the grammar of `parser.rs`: a header line for each
hunk, an optional `Move to`, a context marker for each chunk followed by its old
lines, its new lines and an optional end-of-file marker. `parse_patch` reads the
printed text back. The proof follows the printer: each printed line is accepted
with the effect its place in the grammar says, whatever the file content is.
-/

namespace Codex.ApplyPatch

open List Codex.Text StreamingPatchParser

/-! ## The printer -/

def printContext : Option Str → Str
  | none => emptyChangeContextMarker
  | some context => changeContextMarker ++ context

def printChunk (chunk : UpdateFileChunk) : List Str :=
  printContext chunk.changeContext ::
  (chunk.oldLines.map ('-' :: ·) ++ chunk.newLines.map ('+' :: ·) ++
    if chunk.isEndOfFile then [eofMarker] else [])

def printHunk : Hunk → List Str
  | .addFile path contents => (addFileMarker ++ path) :: (splitNl contents).1.map ('+' :: ·)
  | .deleteFile path => [deleteFileMarker ++ path]
  | .updateFile path movePath chunks =>
    (updateFileMarker ++ path) ::
      ((movePath.map (moveToMarker ++ ·)).toList ++ chunks.flatMap printChunk)

def printEnvironmentId (id : Str) : Str := environmentIdMarker ++ [' '] ++ id

/-- The lines between the markers. -/
def printBody (environmentId : Option Str) (hunks : List Hunk) : List Str :=
  (environmentId.map printEnvironmentId).toList ++ hunks.flatMap printHunk

/-- The patch text; the line ending of the end marker is optional. -/
def printPatch (environmentId : Option Str) (hunks : List Hunk) (finalNewline : Bool) : Str :=
  unlines (beginPatchMarker :: printBody environmentId hunks)
    (endPatchMarker ++ if finalNewline then ['\n'] else [])

/-! ## Well-formed patches -/

/-- Non-empty text on one line that does not end in white space. -/
structure IsName (s : Str) : Prop where
  ne_nil : s ≠ []
  no_newline : '\n' ∉ s
  trimmed : trimEnd s = s

/-- A line of file content. -/
structure IsLine (l : Str) : Prop where
  no_newline : '\n' ∉ l
  no_return : l.getLast? ≠ some '\r'

structure WellFormedChunk (chunk : UpdateFileChunk) : Prop where
  context : ∀ context, chunk.changeContext = some context → IsName context
  oldLines : ∀ l ∈ chunk.oldLines, IsLine l
  newLines : ∀ l ∈ chunk.newLines, IsLine l
  has_lines : chunk.hasNoLines = false

inductive WellFormedHunk : Hunk → Prop where
  | addFile {path : Str} {ls : List Str} (hp : IsName path) (hls : ∀ l ∈ ls, IsLine l) :
      WellFormedHunk (.addFile path (unlines ls []))
  | deleteFile {path : Str} (hp : IsName path) : WellFormedHunk (.deleteFile path)
  | updateFile {path : Str} {movePath : Option Str} {chunks : List UpdateFileChunk}
      (hp : IsName path) (hm : ∀ dest, movePath = some dest → IsName dest) (hne : chunks ≠ [])
      (hc : ∀ chunk ∈ chunks, WellFormedChunk chunk) :
      WellFormedHunk (.updateFile path movePath chunks)

structure WellFormedEnvironmentId (id : Str) : Prop where
  ne_nil : id ≠ []
  no_newline : '\n' ∉ id
  trimmed : trim id = id

/-! ## Printed lines -/

variable {s id : Str} {Q : StreamingParserState → Prop}

theorem IsName.not_blank (h : IsName s) : ¬ Blank s := fun hb =>
  h.ne_nil (h.trimmed.symm.trans (trimEnd_blank hb))

theorem IsName.trimEnd_append (h : IsName s) (m : Str) : trimEnd (m ++ s) = m ++ s := by
  rw [trimEnd_append_of_not_blank h.not_blank, h.trimmed]

theorem no_return_of_trimmed (h : trimEnd s = s) : s.getLast? ≠ some '\r' := by
  intro hs
  obtain ⟨t, rfl⟩ := getLast?_eq_some_iff.1 hs
  rw [trimEnd_concat_cr] at h
  have hlen := (List.rdropWhile_prefix isWhitespace t).length_le
  have heq : (trimEnd t).length = (t ++ ['\r']).length := congrArg List.length h
  simp only [length_append, length_singleton, trimEnd] at heq
  omega

theorem IsName.isLine_append {m : Str} (h : IsName s) (hm : '\n' ∉ m) : IsLine (m ++ s) where
  no_newline := by simp [hm, h.no_newline]
  no_return := no_return_of_trimmed (h.trimEnd_append m)

theorem IsLine.cons {c : Char} {l : Str} (h : IsLine l) (hn : c ≠ '\n') (hr : c ≠ '\r') :
    IsLine (c :: l) where
  no_newline := by simp [hn.symm, h.no_newline]
  no_return := by
    cases l with
    | nil => simpa using hr
    | cons d l => simpa using h.no_return

theorem trimStart_of_head {c : Char} (hc : isWhitespace c = false) (s : Str) :
    trimStart (c :: s) = c :: s := by
  simp [trimStart, hc]

theorem IsName.header_text (h : IsName s) {m : Str} (p : StreamingPatchParser) :
    p.headerText ('*' :: m ++ s) = '*' :: m ++ s := by
  have hend := h.trimEnd_append ('*' :: m)
  by_cases hm : ∃ n, p.state.mode = .updateFile n
  · obtain ⟨n, hm⟩ := hm
    rw [headerText_of_update hm, hend]
  · rw [headerText_of_other (fun n e => hm ⟨n, e⟩), trim, hend]
    exact trimStart_of_head (by decide) _

/-- The parser reads the lines `ls` and reaches a state that satisfies `Q`. -/
def Reads (p : StreamingPatchParser) (ls : List Str) (Q : StreamingParserState → Prop) : Prop :=
  ∃ p', p.pushLines ls = .ok p' ∧ Q p'.state

theorem Reads.nil {p : StreamingPatchParser} (h : Q p.state) : Reads p [] Q := ⟨p, rfl, h⟩

theorem Reads.append {p : StreamingPatchParser} {ls ls' : List Str}
    {P : StreamingParserState → Prop} (h : Reads p ls P)
    (h' : ∀ q : StreamingPatchParser, P q.state → Reads q ls' Q) : Reads p (ls ++ ls') Q := by
  obtain ⟨q, hq, hP⟩ := h
  obtain ⟨r, hr, hQ⟩ := h' q hP
  exact ⟨r, by rw [pushLines_append, hq, ok_bind, hr], hQ⟩

theorem Reads.cons {p q : StreamingPatchParser} {l : Str} {ls : List Str} (hl : IsLine l)
    (ha : Accepts { p with lineNumber := p.lineNumber + 1 } l q) (h : Reads q ls Q) :
    Reads p (l :: ls) Q := by
  obtain ⟨r, hr, hQ⟩ := h
  have hstep : p.pushLine l = .ok q := by
    rw [pushLine, stripCr_of_ne hl.no_return]
    exact processLine_eq_ok.2 ha
  exact ⟨r, by rw [pushLines_cons, hstep, ok_bind, hr], hQ⟩

/-! ## Update hunks -/

/-- The parser is in the update hunk `path` with the given chunks, after `hunks`. -/
def Updating (hunks : List Hunk) (environmentId : Option Str) (path : Str) (mv : Option Str)
    (chunks : List UpdateFileChunk) (st : StreamingParserState) : Prop :=
  ∃ n, st = ⟨.updateFile n, hunks ++ [.updateFile path mv chunks], environmentId⟩

section Update

variable {hunks : List Hunk} {environmentId : Option Str} {path : Str} {mv mv' : Option Str}
  {chunks chunks' : List UpdateFileChunk} {p : StreamingPatchParser}

theorem reads_updateLine {l : Str} {ls : List Str} {Q : StreamingParserState → Prop}
    (hp : Updating hunks environmentId path mv chunks p.state) (hl : IsLine l)
    (ha : UpdateAccepts mv chunks l mv' chunks')
    (h : ∀ q : StreamingPatchParser,
      Updating hunks environmentId path mv' chunks' q.state → Reads q ls Q) :
    Reads p (l :: ls) Q := by
  obtain ⟨n, hst⟩ := hp
  have hm : p.state.mode = .updateFile n := by rw [hst]
  have hlast : p.state.hunks.getLast? = some (.updateFile path mv chunks) := by simp [hst]
  refine Reads.cons hl
    (.updateLine (p := { p with lineNumber := p.lineNumber + 1 }) hm hlast ha) (h _ ⟨n, ?_⟩)
  simp [setLastHunk, hst]

variable {chunk : UpdateFileChunk}

/-- Content lines are recorded in the last chunk, one after the other. -/
theorem reads_content {c : Char} {record : Str → UpdateFileChunk → UpdateFileChunk}
    (hrec : ∀ l, ContentLine (c :: l) (record l)) (hn : c ≠ '\n') (hr : c ≠ '\r')
    (heof : ∀ l chunk, (record l chunk).isEndOfFile = chunk.isEndOfFile) {ls : List Str}
    (hls : ∀ l ∈ ls, IsLine l) (hopen : chunk.isEndOfFile = false)
    (hp : Updating hunks environmentId path mv (chunks ++ [chunk]) p.state) :
    Reads p (ls.map (c :: ·)) (Updating hunks environmentId path mv
      (chunks ++ [ls.foldl (fun chunk l => record l chunk) chunk])) := by
  induction ls generalizing chunk p with
  | nil => exact Reads.nil hp
  | cons l ls ih =>
    have hl : IsLine (c :: l) := (hls l (by simp)).cons hn hr
    have he : lastIsEndOfFile (chunks ++ [chunk]) = false := by simp [lastIsEndOfFile, hopen]
    have ha : UpdateAccepts mv (chunks ++ [chunk]) (c :: l) mv (chunks ++ [record l chunk]) := by
      have h : UpdateAccepts mv (chunks ++ [chunk]) (c :: l) mv
          (recordLine (record l) (chunks ++ [chunk])) := .content (hrec l) he
      simpa [recordLine] using h
    refine reads_updateLine hp hl ha fun q hq => ?_
    exact ih (fun l' h' => hls l' (by simp [h'])) ((heof l chunk).trans hopen) hq

theorem foldl_removed (ls : List Str) (chunk : UpdateFileChunk) :
    ls.foldl (fun chunk l => chunk.removed l) chunk =
      { chunk with oldLines := chunk.oldLines ++ ls } := by
  induction ls generalizing chunk with
  | nil => simp
  | cons l ls ih =>
    rw [foldl_cons, ih]
    simp [UpdateFileChunk.removed]

theorem foldl_added (ls : List Str) (chunk : UpdateFileChunk) :
    ls.foldl (fun chunk l => chunk.added l) chunk =
      { chunk with newLines := chunk.newLines ++ ls } := by
  induction ls generalizing chunk with
  | nil => simp
  | cons l ls ih =>
    rw [foldl_cons, ih]
    simp [UpdateFileChunk.added]

theorem isLine_printContext (hc : WellFormedChunk chunk) :
    IsLine (printContext chunk.changeContext) := by
  cases hctx : chunk.changeContext with
  | none => exact ⟨by decide, by decide⟩
  | some context => exact (hc.context _ hctx).isLine_append (by decide)

theorem isLine_eofMarker : IsLine eofMarker := ⟨by decide, by decide⟩

/-- **A printed chunk is read back.** -/
theorem reads_printChunk (hc : WellFormedChunk chunk) (hdone : lastHasNoLines chunks = false)
    (hp : Updating hunks environmentId path mv chunks p.state) :
    Reads p (printChunk chunk) (Updating hunks environmentId path mv (chunks ++ [chunk])) := by
  obtain ⟨context, oldLines, newLines, isEndOfFile⟩ := chunk
  -- the context marker opens the chunk
  have htrim : trimEnd (printContext context) = printContext context := by
    cases context with
    | none => rfl
    | some context => exact (hc.context _ rfl).trimEnd_append _
  have hctx : UpdateAccepts mv chunks (printContext context) mv (chunks ++ [.opened context]) := by
    cases context with
    | none => exact .openEmpty htrim hdone
    | some context => exact .openContext htrim hdone
  refine reads_updateLine hp (isLine_printContext hc) hctx fun q hq => ?_
  -- then come the old lines and the new lines
  have hold := reads_content (c := '-') (fun l => .removed l) (by decide) (by decide)
    (fun _ _ => rfl) hc.oldLines rfl hq
  rw [foldl_removed] at hold
  refine (hold.append fun q hq => ?_).append (P := Updating hunks environmentId path mv
    (chunks ++ [⟨context, oldLines, newLines, false⟩])) fun q hq => ?_
  · have hnew := reads_content (c := '+') (fun l => .added l) (by decide) (by decide)
      (fun _ _ => rfl) hc.newLines rfl hq
    rw [foldl_added] at hnew
    exact hnew
  · -- and the end-of-file marker, which a chunk without lines would refuse
    cases isEndOfFile with
    | false => exact Reads.nil hq
    | true =>
      have hno : lastHasNoLines (chunks ++ [⟨context, oldLines, newLines, false⟩]) = false := by
        have hlines := hc.has_lines
        simpa [lastHasNoLines, UpdateFileChunk.hasNoLines] using hlines
      have heof : lastIsEndOfFile (chunks ++ [⟨context, oldLines, newLines, false⟩]) = false := by
        simp [lastIsEndOfFile]
      refine reads_updateLine hq isLine_eofMarker (.endOfFile rfl heof hno) fun q hq => ?_
      rw [modifyLast_concat] at hq
      exact Reads.nil hq

/-- Printed chunks are read back one after the other. -/
theorem reads_printChunks {new : List UpdateFileChunk} (hnew : ∀ chunk ∈ new, WellFormedChunk chunk)
    (hdone : lastHasNoLines chunks = false)
    (hp : Updating hunks environmentId path mv chunks p.state) :
    Reads p (new.flatMap printChunk) (Updating hunks environmentId path mv (chunks ++ new)) := by
  induction new generalizing chunks p with
  | nil =>
    rw [append_nil]
    exact Reads.nil hp
  | cons chunk new ih =>
    have hc := hnew chunk (by simp)
    rw [flatMap_cons]
    refine (reads_printChunk hc hdone hp).append fun q hq => ?_
    have hdone' : lastHasNoLines (chunks ++ [chunk]) = false := by
      simpa [lastHasNoLines] using hc.has_lines
    have h := ih (fun c h => hnew c (by simp [h])) hdone' hq
    rwa [List.append_assoc] at h

end Update

/-! ## Hunks -/

/-- The parser has read `hunks` and may leave the last one. -/
structure Ready (hunks : List Hunk) (environmentId : Option Str) (st : StreamingParserState) :
    Prop where
  hunks : st.hunks = hunks
  environmentId : st.environmentId = environmentId
  headers : st.mode.readsHeaders = true
  done : ∀ path mv chunks, st.hunks.getLast? = some (.updateFile path mv chunks) →
    lastHasNoLines chunks = false ∧ chunks ≠ []

section Hunks

variable {hunks : List Hunk} {environmentId : Option Str} {p : StreamingPatchParser}

theorem Ready.lastHunkDone (h : Ready hunks environmentId p.state) : p.LastHunkDone :=
  lastHunkDone_iff.2 fun path mv chunks hl =>
    ⟨(h.done path mv chunks hl).1, fun hnil => absurd hnil (h.done path mv chunks hl).2⟩

theorem reads_header (hd : Header) (h : Ready hunks environmentId p.state) {m path : Str}
    (hn : IsName path) (htext : hd.text = '*' :: m ++ path) (hm : '\n' ∉ m) {ls : List Str}
    {Q : StreamingParserState → Prop}
    (hrest : Reads ({ p with lineNumber := p.lineNumber + 1 }.enter hd) ls Q) :
    Reads p (hd.text :: ls) Q := by
  have hready : Ready hunks environmentId
      ({ p with lineNumber := p.lineNumber + 1 } : StreamingPatchParser).state := h
  refine Reads.cons ?_
    (.header (p := { p with lineNumber := p.lineNumber + 1 }) h.headers hready.lastHunkDone hd ?_)
    hrest
  · rw [htext]
    exact hn.isLine_append (by simp [hm])
  · rw [htext]
    exact hn.header_text _

/-- The lines of an added file are appended to its contents. -/
theorem reads_addLines {path contents : Str} {ls : List Str} (hls : ∀ l ∈ ls, IsLine l)
    (hp : p.state = ⟨.addFile, hunks ++ [.addFile path contents], environmentId⟩) :
    Reads p (ls.map ('+' :: ·))
      (· = ⟨.addFile, hunks ++ [.addFile path (contents ++ unlines ls [])], environmentId⟩) := by
  induction ls generalizing contents p with
  | nil => exact Reads.nil (by simpa [unlines] using hp)
  | cons l ls ih =>
    have hl : IsLine ('+' :: l) := (hls l (by simp)).cons (by decide) (by decide)
    have hm : p.state.mode = .addFile := by rw [hp]
    have hlast : p.state.hunks.getLast? = some (.addFile path contents) := by simp [hp]
    refine Reads.cons hl
      (.addLine (p := { p with lineNumber := p.lineNumber + 1 }) hm rfl hlast) ?_
    have hst : (({ p with lineNumber := p.lineNumber + 1 } : StreamingPatchParser).setLastHunk
        (.addFile path (contents ++ l ++ ['\n']))).state =
        ⟨.addFile, hunks ++ [.addFile path (contents ++ l ++ ['\n'])], environmentId⟩ := by
      simp [setLastHunk, hp]
    have h := ih (fun l' h' => hls l' (by simp [h'])) hst
    simpa [unlines] using h

/-- **A printed hunk is read back.** -/
theorem reads_printHunk {hunk : Hunk} (hw : WellFormedHunk hunk)
    (hp : Ready hunks environmentId p.state) :
    Reads p (printHunk hunk) (Ready (hunks ++ [hunk]) environmentId) := by
  cases hw with
  | @addFile path ls hn hls =>
    have hsplit : (splitNl (unlines ls [])).1 = ls := by
      rw [splitNl_unlines (fun l h => (hls l h).no_newline) (by simp)]
    rw [printHunk, hsplit]
    refine reads_header (.addFile path) hp hn rfl (by decide) ?_
    have hst : (({ p with lineNumber := p.lineNumber + 1 } : StreamingPatchParser).enter
        (.addFile path)).state = ⟨.addFile, hunks ++ [.addFile path []], environmentId⟩ := by
      simp [enter, openHunk, hp.hunks, hp.environmentId]
    obtain ⟨q, hq, hQ⟩ := reads_addLines hls hst
    exact ⟨q, hq, by simp [hQ], by simp [hQ], by simp [hQ]; rfl, by simp [hQ]⟩
  | @deleteFile path hn =>
    refine reads_header (.deleteFile path) hp hn rfl (by decide) (Reads.nil ?_)
    refine ⟨?_, hp.environmentId, rfl, ?_⟩
    · simp [enter, openHunk, hp.hunks]
    · simp [enter, openHunk]
  | @updateFile path mv chunks hn hm hne hc =>
    refine reads_header (.updateFile path) hp hn rfl (by decide) ?_
    have hup : Updating hunks environmentId path none []
        (({ p with lineNumber := p.lineNumber + 1 } : StreamingPatchParser).enter
          (.updateFile path)).state := 
      ⟨p.lineNumber + 1, by simp [enter, openHunk, hp.hunks, hp.environmentId]⟩
    generalize ({ p with lineNumber := p.lineNumber + 1 } : StreamingPatchParser).enter
      (.updateFile path) = q₀ at hup ⊢
    have hmove : Reads q₀ (mv.map (moveToMarker ++ ·)).toList
        (Updating hunks environmentId path mv []) := by
      cases mv with
      | none => exact Reads.nil hup
      | some dest =>
        have hdest := hm dest rfl
        exact reads_updateLine hup (hdest.isLine_append (by decide))
          (.moveTo (hdest.trimEnd_append moveToMarker)) fun q hq => Reads.nil hq
    refine hmove.append fun q hq => ?_
    obtain ⟨r, hr, n, hR⟩ := reads_printChunks hc rfl hq
    refine ⟨r, hr, by simp [hR], by simp [hR], by simp [hR]; rfl, ?_⟩
    rw [hR]
    intro path' mv' chunks' hl
    simp only [nil_append, getLast?_concat, Option.some.injEq, Hunk.updateFile.injEq]
      at hl
    obtain ⟨-, -, rfl⟩ := hl
    obtain ⟨init, last, rfl⟩ := (eq_nil_or_concat' chunks).resolve_left hne
    refine ⟨?_, hne⟩
    simpa [lastHasNoLines] using (hc last (by simp)).has_lines

theorem reads_printHunks {new : List Hunk} (hw : ∀ hunk ∈ new, WellFormedHunk hunk)
    (hp : Ready hunks environmentId p.state) :
    Reads p (new.flatMap printHunk) (Ready (hunks ++ new) environmentId) := by
  induction new generalizing hunks p with
  | nil =>
    rw [append_nil]
    exact Reads.nil hp
  | cons hunk new ih =>
    rw [flatMap_cons]
    refine (reads_printHunk (hw hunk (by simp)) hp).append fun q hq => ?_
    have h := ih (fun x h => hw x (by simp [h])) hq
    rwa [List.append_assoc] at h

end Hunks

/-! ## Patches -/

theorem WellFormedEnvironmentId.isName (h : WellFormedEnvironmentId id) : IsName id where
  ne_nil := h.ne_nil
  no_newline := h.no_newline
  trimmed := by
    have hsuffix : trim id <:+ trimEnd id := dropWhile_suffix _
    rw [h.trimmed] at hsuffix
    exact (hsuffix.eq_of_length_le (List.rdropWhile_prefix isWhitespace id).length_le).symm

theorem trim_printEnvironmentId (h : WellFormedEnvironmentId id) :
    trim (printEnvironmentId id) = environmentIdMarker ++ ' ' :: id := by
  rw [trim, printEnvironmentId, h.isName.trimEnd_append]
  exact trimStart_of_head (by decide) _

theorem trim_space (h : WellFormedEnvironmentId id) : trim (' ' :: id) = id := by
  have hsplit : trimEnd (' ' :: id) = ' ' :: trimEnd id :=
    trimEnd_append_of_not_blank (s := [' ']) h.isName.not_blank
  rw [trim, hsplit]
  exact h.trimmed

theorem reads_printBody {environmentId : Option Str} {hunks : List Hunk}
    (henv : ∀ id, environmentId = some id → WellFormedEnvironmentId id)
    (hw : ∀ hunk ∈ hunks, WellFormedHunk hunk) :
    Reads startedParser (printBody environmentId hunks) (Ready hunks environmentId) := by
  have hstart : Ready [] none startedParser.state := ⟨rfl, rfl, rfl, by simp [startedParser]⟩
  have hpre : Reads startedParser (environmentId.map printEnvironmentId).toList
      (Ready [] environmentId) := by
    cases environmentId with
    | none => exact Reads.nil hstart
    | some id =>
      have hid := henv id rfl
      have hne : trim (' ' :: id) ≠ [] := by
        rw [trim_space hid]
        exact hid.ne_nil
      have ha : Accepts { startedParser with lineNumber := startedParser.lineNumber + 1 } _ _ :=
        .environment rfl rfl (trim_printEnvironmentId hid) hne
      refine Reads.cons (hid.isName.isLine_append (by decide)) ha (Reads.nil ?_)
      exact ⟨rfl, congrArg some (trim_space hid), rfl, by simp [startedParser, setEnvironmentId]⟩
  exact hpre.append fun q hq => reads_printHunks hw hq

/-! ## Round trip -/

theorem isLine_printChunk {chunk : UpdateFileChunk} (hc : WellFormedChunk chunk) :
    ∀ l ∈ printChunk chunk, IsLine l := by
  intro l hl
  simp only [printChunk, mem_cons, mem_append, mem_map] at hl
  rcases hl with rfl | (⟨o, ho, rfl⟩ | ⟨n, hn, rfl⟩) | hl
  · exact isLine_printContext hc
  · exact (hc.oldLines o ho).cons (by decide) (by decide)
  · exact (hc.newLines n hn).cons (by decide) (by decide)
  · split at hl
    · obtain rfl := mem_singleton.1 hl
      exact isLine_eofMarker
    · cases hl

theorem isLine_printHunk {hunk : Hunk} (hw : WellFormedHunk hunk) :
    ∀ l ∈ printHunk hunk, IsLine l := by
  intro l hl
  cases hw with
  | addFile hn hls =>
    rw [printHunk, splitNl_unlines (fun l h => (hls l h).no_newline) (by simp)] at hl
    rcases mem_cons.1 hl with rfl | hl
    · exact hn.isLine_append (by decide)
    · obtain ⟨l', hl', rfl⟩ := mem_map.1 hl
      exact (hls l' hl').cons (by decide) (by decide)
  | deleteFile hn =>
    obtain rfl := mem_singleton.1 hl
    exact hn.isLine_append (by decide)
  | @updateFile path mv chunks hn hm hne hc =>
    simp only [printHunk, mem_cons, mem_append, Option.mem_toList,
      Option.map_eq_some_iff, mem_flatMap] at hl
    rcases hl with rfl | ⟨dest, hdest, rfl⟩ | ⟨chunk, hchunk, hl⟩
    · exact hn.isLine_append (by decide)
    · exact (hm dest hdest).isLine_append (by decide)
    · exact isLine_printChunk (hc chunk hchunk) l hl

theorem isLine_printBody {environmentId : Option Str} {hunks : List Hunk}
    (henv : ∀ id, environmentId = some id → WellFormedEnvironmentId id)
    (hw : ∀ hunk ∈ hunks, WellFormedHunk hunk) :
    ∀ l ∈ beginPatchMarker :: printBody environmentId hunks, IsLine l := by
  intro l hl
  simp only [printBody, mem_cons, mem_append, Option.mem_toList, Option.map_eq_some_iff,
    mem_flatMap] at hl
  rcases hl with rfl | ⟨id, hid, rfl⟩ | ⟨hunk, hhunk, hl⟩
  · exact ⟨by decide, by decide⟩
  · exact (henv id hid).isName.isLine_append (by decide)
  · exact isLine_printHunk (hw hunk hhunk) l hl

theorem trim_printPatch (environmentId : Option Str) (hunks : List Hunk) (finalNewline : Bool) :
    trim (printPatch environmentId hunks finalNewline) =
      unlines (beginPatchMarker :: printBody environmentId hunks) endPatchMarker := by
  have hb : ¬ Blank beginPatchMarker := by decide
  have he : ¬ Blank endPatchMarker := by decide
  have hnl : Blank (if finalNewline then ['\n'] else []) := by cases finalNewline <;> decide
  have h : trim (unlines (beginPatchMarker :: printBody environmentId hunks) endPatchMarker) = _ :=
    trim_unlines hb he
  rw [printPatch, unlines_append_right, trim, trimEnd_append_blank hnl]
  exact h

/-- **Parsing undoes printing.** -/
theorem parsePatch_printPatch {environmentId : Option Str} {hunks : List Hunk}
    (henv : ∀ id, environmentId = some id → WellFormedEnvironmentId id)
    (hw : ∀ hunk ∈ hunks, WellFormedHunk hunk) (finalNewline : Bool) :
    ∃ a, parsePatch (printPatch environmentId hunks finalNewline) = .ok a ∧
      a.environmentId = environmentId ∧ a.hunks = hunks := by
  obtain ⟨p, hp, hready⟩ := reads_printBody henv hw
  have hlines := isLine_printBody henv hw
  -- no printed line ends in a carriage return, so cutting the text into lines changes nothing
  have hstrip : (beginPatchMarker :: printBody environmentId hunks).map stripCr =
      beginPatchMarker :: printBody environmentId hunks :=
    (map_congr_left fun l hl => stripCr_of_ne (hlines l hl).no_return).trans (map_id _)
  refine ⟨_, (parsePatch_eq_ok (trim_printPatch environmentId hunks finalNewline) (by decide)
    (by decide) (fun l hl => (hlines l hl).no_newline) (by decide)).2
    ⟨p, ?_, hready.lastHunkDone, rfl⟩, hready.environmentId, hready.hunks⟩
  rw [hstrip, pushLines_cons, pushLine_begin (by decide), ok_bind, hp]

/-- File content that looks like markers. -/
def markerHunks : List Hunk :=
  [.addFile ['a'] (unlines [endPatchMarker, [], eofMarker] []),
   .updateFile ['b'] (some ['c'])
     [⟨none, [endPatchMarker], [['@', '@']], true⟩, ⟨some ['f'], [], [[' ']], false⟩],
   .deleteFile ['d']]

theorem parsePatch_printPatch_markerHunks :
    ∃ a, parsePatch (printPatch (some ['e']) markerHunks true) = .ok a ∧
      a.environmentId = some ['e'] ∧ a.hunks = markerHunks := by
  have hname : ∀ c : Char, isWhitespace c = false → c ≠ '\n' → IsName [c] := fun c hw hn =>
    ⟨by simp, by simpa using hn.symm, by simp [trimEnd, List.rdropWhile, hw]⟩
  have hline : ∀ l : Str, '\n' ∉ l ∧ l.getLast? ≠ some '\r' → IsLine l := fun l h => ⟨h.1, h.2⟩
  have hchunk : ∀ chunk ∈ [(⟨none, [endPatchMarker], [['@', '@']], true⟩ : UpdateFileChunk),
      ⟨some ['f'], [], [[' ']], false⟩], WellFormedChunk chunk := by
    intro chunk hchunk
    rcases mem_cons.1 hchunk with rfl | hchunk
    · refine ⟨?_, fun l hl => hline l (by revert l; decide),
        fun l hl => hline l (by revert l; decide), rfl⟩
      rintro _ ⟨⟩
    · obtain rfl := mem_singleton.1 hchunk
      refine ⟨?_, fun l hl => hline l (by revert l; decide),
        fun l hl => hline l (by revert l; decide), rfl⟩
      rintro _ ⟨rfl⟩
      exact hname 'f' (by decide) (by decide)
  refine parsePatch_printPatch (fun id h => ?_) (fun hunk hhunk => ?_) true
  · cases h
    exact ⟨by decide, by decide, by decide⟩
  · simp only [markerHunks, mem_cons, not_mem_nil, or_false] at hhunk
    rcases hhunk with rfl | rfl | rfl
    · exact .addFile (hname 'a' (by decide) (by decide)) fun l hl => hline l (by revert l; decide)
    · exact .updateFile (hname 'b' (by decide) (by decide))
        (fun _ h => by cases h; exact hname 'c' (by decide) (by decide)) (by simp) hchunk
    · exact .deleteFile (hname 'd' (by decide) (by decide))

end Codex.ApplyPatch
