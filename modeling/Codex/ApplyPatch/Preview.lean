import Codex.ApplyPatch.Sections

/-!
# The live preview and the applied patch

The preview runs the streaming parser on the text as it arrives; `parse_patch`
trims the text, cuts it into lines, joins them and runs the same parser, so that
a terminated line loses up to two carriage returns instead of one. The two runs
pass through states of the same shape (`Gap`), and every content line that ends
in two carriage returns makes the preview record one character more.
-/

namespace Codex.ApplyPatch

open List Codex.Text StreamingPatchParser

/-! ## Shapes and sizes -/

/-- The chunk with the text of its lines erased. -/
def UpdateFileChunk.shape (chunk : UpdateFileChunk) : UpdateFileChunk :=
  { chunk with oldLines := chunk.oldLines.map fun _ => [],
               newLines := chunk.newLines.map fun _ => [] }

def Hunk.shape : Hunk → Hunk
  | .addFile path _ => .addFile path []
  | .deleteFile path => .deleteFile path
  | .updateFile path mv chunks => .updateFile path mv (chunks.map UpdateFileChunk.shape)

/-- The number of characters recorded in a chunk. -/
def UpdateFileChunk.size (chunk : UpdateFileChunk) : Nat :=
  (chunk.oldLines.map List.length).sum + (chunk.newLines.map List.length).sum

def chunksSize (chunks : List UpdateFileChunk) : Nat := (chunks.map UpdateFileChunk.size).sum

def Hunk.size : Hunk → Nat
  | .addFile _ contents => contents.length
  | .deleteFile _ => 0
  | .updateFile _ _ chunks => chunksSize chunks

def hunksSize (hunks : List Hunk) : Nat := (hunks.map Hunk.size).sum

/-- Lists that agree under `f` have last elements that agree. -/
theorem concat_of_map_eq {α β : Type} {f : α → β} {l l' : List α} {a : α}
    (h : l.map f = l'.map f) (ha : l.getLast? = some a) :
    ∃ init init' a', l = init ++ [a] ∧ l' = init' ++ [a'] ∧ init.map f = init'.map f ∧
      f a' = f a := by
  obtain ⟨init, rfl⟩ := getLast?_eq_some_iff.1 ha
  rcases eq_nil_or_concat' l' with rfl | ⟨init', a', rfl⟩
  · simp at h
  · simp only [map_append, map_cons, map_nil, append_singleton_inj] at h
    exact ⟨init, init', a', rfl, rfl, h.1, h.2.symm⟩

theorem chunksSize_concat (chunks : List UpdateFileChunk) (chunk : UpdateFileChunk) :
    chunksSize (chunks ++ [chunk]) = chunksSize chunks + chunk.size := by
  simp [chunksSize]

theorem hunksSize_concat (hunks : List Hunk) (hunk : Hunk) :
    hunksSize (hunks ++ [hunk]) = hunksSize hunks + hunk.size := by
  simp [hunksSize]

variable {chunks chunks' : List UpdateFileChunk} {line : Str}

theorem lastHasNoLines_congr
    (h : chunks.map UpdateFileChunk.shape = chunks'.map UpdateFileChunk.shape) :
    lastHasNoLines chunks = lastHasNoLines chunks' := by
  have hshape : ∀ cs : List UpdateFileChunk,
      lastHasNoLines cs = lastHasNoLines (cs.map UpdateFileChunk.shape) := by
    intro cs
    rw [lastHasNoLines, lastHasNoLines, getLast?_map]
    cases cs.getLast? with
    | none => rfl
    | some c =>
      simp only [Option.map_some, Option.any_some, UpdateFileChunk.hasNoLines,
        UpdateFileChunk.shape, isEmpty_map]
  rw [hshape chunks, h, ← hshape chunks']

theorem lastIsEndOfFile_congr
    (h : chunks.map UpdateFileChunk.shape = chunks'.map UpdateFileChunk.shape) :
    lastIsEndOfFile chunks = lastIsEndOfFile chunks' := by
  have hshape : ∀ cs : List UpdateFileChunk,
      lastIsEndOfFile cs = lastIsEndOfFile (cs.map UpdateFileChunk.shape) := by
    intro cs
    rw [lastIsEndOfFile, lastIsEndOfFile, getLast?_map]
    cases cs.getLast? <;> rfl
  rw [hshape chunks, h, ← hshape chunks']

/-- The carriage returns a line loses when it is stripped. -/
def returns (line : Str) : Nat := if line.getLast? = some '\r' then 1 else 0

theorem length_stripCr (line : Str) : (stripCr line).length + returns line = line.length := by
  unfold returns
  rcases stripCr_cases line with ⟨hs, hne⟩ | hs
  · simp [hs, hne]
  · have hlast : line.getLast? = some '\r' := by
      rw [hs]
      simp
    rw [if_pos hlast]
    conv_rhs => rw [hs]
    simp

theorem returns_cons {c : Char} (hc : c ≠ '\r') (line : Str) : returns (c :: line) = returns line := by
  cases line with
  | nil => simp [returns, hc]
  | cons d line => simp only [returns, getLast?_cons_cons]

/-- A stripped content line is recorded in the same shape, with `returns line` characters less. -/
theorem ContentLine.stripped {record : UpdateFileChunk → UpdateFileChunk}
    (h : ContentLine line record) :
    ∃ record', ContentLine (stripCr line) record' ∧ ∀ c c', c.shape = c'.shape →
      (record c).shape = (record' c').shape ∧
      (record' c').size + c.size + returns line ≤ (record c).size + c'.size := by
  cases h with
  | empty =>
    refine ⟨_, .empty, fun c c' hc => ?_⟩
    simp_all [UpdateFileChunk.shape, UpdateFileChunk.context, UpdateFileChunk.size, returns]
    omega
  | context line =>
    rw [stripCr_cons (by decide), returns_cons (by decide)]
    have hlen := length_stripCr line
    refine ⟨_, .context _, fun c c' hc => ?_⟩
    simp_all [UpdateFileChunk.shape, UpdateFileChunk.context, UpdateFileChunk.size]
    omega
  | added line =>
    rw [stripCr_cons (by decide), returns_cons (by decide)]
    have hlen := length_stripCr line
    refine ⟨_, .added _, fun c c' hc => ?_⟩
    simp_all [UpdateFileChunk.shape, UpdateFileChunk.added, UpdateFileChunk.size]
    omega
  | removed line =>
    rw [stripCr_cons (by decide), returns_cons (by decide)]
    have hlen := length_stripCr line
    refine ⟨_, .removed _, fun c c' hc => ?_⟩
    simp_all [UpdateFileChunk.shape, UpdateFileChunk.removed, UpdateFileChunk.size]
    omega

/-- Chunks `chunks₁` and `chunks₁'` were reached from `chunks` and `chunks'` in the same way, the
second ones with `k` characters less. -/
def Shrinks (k : Nat) (chunks chunks' chunks₁ chunks₁' : List UpdateFileChunk) : Prop :=
  chunks₁.map UpdateFileChunk.shape = chunks₁'.map UpdateFileChunk.shape ∧
    chunksSize chunks₁' + chunksSize chunks + k ≤ chunksSize chunks₁ + chunksSize chunks'

theorem shrinks_modifyLast {k : Nat} {f f' : UpdateFileChunk → UpdateFileChunk} (hne : chunks ≠ [])
    (hs : chunks.map UpdateFileChunk.shape = chunks'.map UpdateFileChunk.shape)
    (hf : ∀ c c', c.shape = c'.shape → (f c).shape = (f' c').shape ∧
      (f' c').size + c.size + k ≤ (f c).size + c'.size) :
    Shrinks k chunks chunks' (modifyLast f chunks) (modifyLast f' chunks') := by
  obtain ⟨init, init', c', hchunks, rfl, hinit, hlast⟩ :=
    concat_of_map_eq hs (getLast?_eq_some_getLast hne)
  rw [hchunks, modifyLast_concat, modifyLast_concat]
  obtain ⟨hshape, hsize⟩ := hf _ c' hlast.symm
  refine ⟨by simp [hinit, hshape], ?_⟩
  simp only [chunksSize_concat]
  omega

theorem shrinks_append (chunk : UpdateFileChunk)
    (hs : chunks.map UpdateFileChunk.shape = chunks'.map UpdateFileChunk.shape) :
    Shrinks 0 chunks chunks' (chunks ++ [chunk]) (chunks' ++ [chunk]) := by
  refine ⟨by simp [hs], ?_⟩
  simp only [chunksSize_concat]
  omega

theorem nil_of_map_eq
    (hs : ([] : List UpdateFileChunk).map UpdateFileChunk.shape =
      chunks.map UpdateFileChunk.shape) : chunks = [] :=
  map_eq_nil_iff.1 hs.symm

/-- An accepted line of an update hunk is accepted without its carriage return; if it is content,
the return is missing in what is recorded. -/
theorem UpdateAccepts.stripped {mv mv' : Option Str} {chunks₁ : List UpdateFileChunk}
    (h : UpdateAccepts mv chunks line mv' chunks₁)
    (hs : chunks.map UpdateFileChunk.shape = chunks'.map UpdateFileChunk.shape) :
    ∃ k chunks₁', UpdateAccepts mv chunks' (stripCr line) mv' chunks₁' ∧
      Shrinks k chunks chunks' chunks₁ chunks₁' ∧
      ((Section.update (chunkState chunks)).isContent line = true → returns line ≤ k) := by
  have hno : lastHasNoLines chunks' = lastHasNoLines chunks := (lastHasNoLines_congr hs).symm
  have heof : lastIsEndOfFile chunks' = lastIsEndOfFile chunks := (lastIsEndOfFile_congr hs).symm
  -- a marker stands at the start of its line and is no content
  have hmarker : ∀ {c : Char} {t : Str}, trimEnd line = c :: t → c = '*' ∨ c = '@' →
      ¬ (Section.update (chunkState chunks)).isContent line = true := by
    intro c t ht hc
    have hhead : line.head? = some c := head_of_head_trimEnd (by rw [ht]; rfl)
    cases chunkState chunks <;> rcases hc with rfl | rfl <;> simp [Section.isContent, hhead]
  cases h with
  | moveTo h =>
    obtain rfl := nil_of_map_eq hs
    exact ⟨0, [], .moveTo ((trimEnd_stripCr line).trans h), ⟨rfl, le_rfl⟩,
      fun hc => absurd hc (hmarker h (.inl rfl))⟩
  | openEmpty h hl =>
    exact ⟨0, _, .openEmpty ((trimEnd_stripCr line).trans h) (hno.trans hl), shrinks_append _ hs,
      fun hc => absurd hc (hmarker h (.inr rfl))⟩
  | openContext h hl =>
    exact ⟨0, _, .openContext ((trimEnd_stripCr line).trans h) (hno.trans hl),
      shrinks_append _ hs, fun hc => absurd hc (hmarker h (.inr rfl))⟩
  | endOfFile h he hl =>
    refine ⟨0, _, .endOfFile ((trimEnd_stripCr line).trans h) (heof.trans he) (hno.trans hl), ?_,
      fun hc => absurd hc (hmarker h (.inl rfl))⟩
    by_cases hne : chunks = []
    · subst hne
      obtain rfl := nil_of_map_eq hs
      exact ⟨rfl, le_rfl⟩
    · refine shrinks_modifyLast hne hs fun c c' hc => ?_
      simp only [UpdateFileChunk.shape, UpdateFileChunk.mk.injEq] at hc
      simp [UpdateFileChunk.shape, UpdateFileChunk.closed, UpdateFileChunk.size, hc]
      omega
  | content h he =>
    obtain ⟨record', hrec, hstep⟩ := h.stripped
    refine ⟨returns line, _, .content hrec (heof.trans he), ?_, fun _ => le_rfl⟩
    by_cases hne : chunks = []
    · subst hne
      obtain rfl := nil_of_map_eq hs
      obtain ⟨hshape, hsize⟩ := hstep (.opened none) (.opened none) rfl
      refine ⟨by simp [recordLine, modifyLast, hshape], ?_⟩
      simp [recordLine, modifyLast, chunksSize]
      omega
    · have hne' : chunks' ≠ [] := by
        rintro rfl
        exact hne (map_eq_nil_iff.1 hs)
      have h := shrinks_modifyLast hne hs hstep
      simpa [recordLine, hne, hne'] using h

/-! ## Parsers of the same shape -/

/-- The parsers differ in recorded text only, and the second has recorded at least `d` characters
less. -/
structure Gap (d : Nat) (p p' : StreamingPatchParser) : Prop where
  mode : p'.state.mode = p.state.mode
  environmentId : p'.state.environmentId = p.state.environmentId
  lineNumber : p'.lineNumber = p.lineNumber
  hunks : p.state.hunks.map Hunk.shape = p'.state.hunks.map Hunk.shape
  size : hunksSize p'.state.hunks + d ≤ hunksSize p.state.hunks

variable {d : Nat} {p p' q : StreamingPatchParser}

theorem Gap.refl (p : StreamingPatchParser) : Gap 0 p p := ⟨rfl, rfl, rfl, rfl, le_rfl⟩

variable {hunk : Hunk}

theorem Gap.setLastHunk (h : Gap d p p') (hl : p.state.hunks.getLast? = some hunk) :
    ∃ hunk', p'.state.hunks.getLast? = some hunk' ∧ hunk'.shape = hunk.shape ∧
      ∀ k new new', new.shape = new'.shape → new'.size + hunk.size + k ≤ new.size + hunk'.size →
        Gap (d + k) (p.setLastHunk new) (p'.setLastHunk new') := by
  obtain ⟨init, init', hunk', hp, hp', hinit, hlast⟩ := concat_of_map_eq h.hunks hl
  refine ⟨hunk', by simp [hp'], hlast, fun k new new' hshape hsize => ?_⟩
  have hgap := h.size
  rw [hp, hp', hunksSize_concat, hunksSize_concat] at hgap
  have hnew : (p.setLastHunk new).state.hunks = init ++ [new] := by
    simp [StreamingPatchParser.setLastHunk, hp]
  have hnew' : (p'.setLastHunk new').state.hunks = init' ++ [new'] := by
    simp [StreamingPatchParser.setLastHunk, hp']
  refine ⟨h.mode, h.environmentId, h.lineNumber, ?_, ?_⟩
  · rw [hnew, hnew']
    simp [hinit, hshape]
  · rw [hnew, hnew', hunksSize_concat, hunksSize_concat]
    omega

theorem Gap.openHunk (h : Gap d p p') (hunk : Hunk) (mode : StreamingParserMode) :
    Gap d (p.openHunk hunk mode) (p'.openHunk hunk mode) where
  mode := rfl
  environmentId := h.environmentId
  lineNumber := h.lineNumber
  hunks := by simp [StreamingPatchParser.openHunk, h.hunks]
  size := by
    have := h.size
    simp only [StreamingPatchParser.openHunk, hunksSize_concat]
    omega

theorem Gap.enter (h : Gap d p p') (hd : Header) : Gap d (p.enter hd) (p'.enter hd) := by
  cases hd with
  | endPatch => exact ⟨rfl, h.environmentId, h.lineNumber, h.hunks, h.size⟩
  | addFile path => exact h.openHunk _ _
  | deleteFile path => exact h.openHunk _ _
  | updateFile path =>
    have hn := h.lineNumber
    simp only [StreamingPatchParser.enter, hn]
    exact h.openHunk _ _

theorem shape_updateFile {path : Str} {mv : Option Str}
    (h : hunk.shape = (Hunk.updateFile path mv chunks).shape) :
    ∃ chunks', hunk = .updateFile path mv chunks' ∧
      chunks.map UpdateFileChunk.shape = chunks'.map UpdateFileChunk.shape := by
  cases hunk with
  | updateFile path' mv' chunks' =>
    simp only [Hunk.shape, Hunk.updateFile.injEq] at h
    obtain ⟨rfl, rfl, h⟩ := h
    exact ⟨chunks', rfl, h.symm⟩
  | _ => cases h

theorem shape_addFile {path contents : Str} (h : hunk.shape = (Hunk.addFile path contents).shape) :
    ∃ contents', hunk = .addFile path contents' := by
  cases hunk with
  | addFile path' contents' =>
    simp only [Hunk.shape, Hunk.addFile.injEq, and_true] at h
    exact ⟨contents', by rw [h]⟩
  | _ => cases h

theorem Gap.lastHunkDone (h : Gap d p p') (hd : p.LastHunkDone) : p'.LastHunkDone := by
  rw [lastHunkDone_iff] at hd ⊢
  intro path mv chunks' hl
  obtain ⟨_, _, hunk, _, hp, _, hlast⟩ := concat_of_map_eq h.hunks.symm hl
  obtain ⟨chunks, rfl, hchunks⟩ := shape_updateFile hlast
  obtain ⟨hno, hmode⟩ := hd path mv chunks (by simp [hp])
  rw [lastHasNoLines_congr hchunks, h.mode]
  refine ⟨hno, fun hnil => hmode ?_⟩
  subst hnil
  exact nil_of_map_eq hchunks

theorem headerText_congr (hm : p'.state.mode = p.state.mode) (line : Str) :
    p'.headerText line = p.headerText line := by
  rw [headerText, headerText, hm]

/-- **One line keeps the gap, and widens it when it is content that ends in a return.** -/
theorem Gap.accepts (h : Gap d p p') {s : Section} (hs : InSection p s) (ha : Accepts p line q) :
    ∃ k q', Accepts p' (stripCr line) q' ∧ Gap (d + k) q q' ∧
      (s.isContent line = true → returns line ≤ k) := by
  -- a line matched on trimmed text that is no content
  have htrim : ∀ {c : Char} {t : Str}, (∀ n, p.state.mode ≠ .updateFile n) → trim line = c :: t →
      c ≠ '+' → ¬ s.isContent line = true := by
    intro c t hm ht hc hcontent
    cases hs with
    | other =>
      have hhead : line.head? = some '+' := by simpa [Section.isContent] using hcontent
      obtain ⟨rest, rfl⟩ := head?_eq_some_iff.1 hhead
      obtain ⟨t', ht'⟩ := trim_plus rest
      rw [ht] at ht'
      exact hc (List.cons.inj ht').1
    | update hm' => exact hm _ hm'
  cases ha with
  | beginPatch hm ht =>
    have hu : ∀ n, p.state.mode ≠ .updateFile n := fun n e => by rw [hm] at e; cases e
    exact ⟨0, _, .beginPatch (h.mode.trans hm) ((trim_stripCr line).trans ht),
      ⟨rfl, h.environmentId, h.lineNumber, h.hunks, h.size⟩,
      fun hc => absurd hc (htrim hu ht (by decide))⟩
  | environment hm he ht hid =>
    have hu : ∀ n, p.state.mode ≠ .updateFile n := fun n e => by rw [hm] at e; cases e
    exact ⟨0, _, .environment (h.mode.trans hm) (h.environmentId.trans he)
      ((trim_stripCr line).trans ht) hid, ⟨h.mode, rfl, h.lineNumber, h.hunks, h.size⟩,
      fun hc => absurd hc (htrim hu ht (by decide))⟩
  | header hm hd hh ht =>
    have ht' : p'.headerText (stripCr line) = hh.text := by
      rw [headerText_congr h.mode, headerText_stripCr, ht]
    refine ⟨0, _, .header (by rw [h.mode, hm]) (h.lastHunkDone hd) hh ht', h.enter hh,
      fun hc => ?_⟩
    obtain ⟨t, htext⟩ := header_text_eq hh
    cases hs with
    | other hu =>
      rw [headerText_of_other hu, htext] at ht
      exact absurd hc (htrim hu ht (by decide))
    | @update n hu path mv chunks hl =>
      rw [headerText_of_update hu, htext] at ht
      have hhead : line.head? = some '*' := head_of_head_trimEnd (by rw [ht]; rfl)
      cases hst : chunkState chunks <;> rw [hst] at hc <;> simp [Section.isContent, hhead] at hc
  | @addLine hm rest path contents hline hl =>
    obtain ⟨hunk', hl', hshape, hset⟩ := h.setLastHunk hl
    obtain ⟨contents', rfl⟩ := shape_addFile hshape
    subst hline
    have hlen := length_stripCr rest
    have hadd : Accepts p' (stripCr ('+' :: rest))
        (p'.setLastHunk (.addFile path (contents' ++ stripCr rest ++ ['\n']))) :=
      .addLine (h.mode.trans hm) (stripCr_cons (by decide) rest) hl'
    refine ⟨returns ('+' :: rest), _, hadd, hset _ _ _ rfl ?_, fun _ => le_rfl⟩
    rw [returns_cons (by decide)]
    simp only [Hunk.size, length_append]
    omega
  | updateLine hm hl ha =>
    obtain ⟨hunk', hl', hshape, hset⟩ := h.setLastHunk hl
    obtain ⟨chunks', rfl, hchunks⟩ := shape_updateFile hshape
    obtain ⟨k, chunks₁', ha', ⟨hshape₁, hsize₁⟩, hk⟩ := ha.stripped hchunks
    refine ⟨k, _, .updateLine (h.mode.trans hm) hl' ha', hset _ _ _ ?_ hsize₁, fun hc => hk ?_⟩
    · simp only [Hunk.shape, hshape₁]
    · cases hs with
      | other hu => exact absurd hm (hu _)
      | update _ hl₂ =>
        rw [hl] at hl₂
        cases hl₂
        exact hc
  | blankAfterEof hm hl he hb =>
    obtain ⟨hunk', hl', hshape, -⟩ := h.setLastHunk hl
    obtain ⟨chunks', rfl, hchunks⟩ := shape_updateFile hshape
    have he' : lastIsEndOfFile chunks' = true := (lastIsEndOfFile_congr hchunks).symm.trans he
    refine ⟨0, _, .blankAfterEof (h.mode.trans hm) hl' he' (blank_stripCr.2 hb), h, fun hc => ?_⟩
    cases hs with
    | other hu => exact absurd hm (hu _)
    | update _ hl₂ =>
      rw [hl] at hl₂
      cases hl₂
      rw [chunkState_eq_closed he] at hc
      cases hc
  | blankAfterEnd hm hb =>
    refine ⟨0, _, .blankAfterEnd (h.mode.trans hm) (blank_stripCr.2 hb), h, fun hc => ?_⟩
    cases hs with
    | other =>
      have hhead : line.head? = some '+' := by simpa [Section.isContent] using hc
      have hplus : isWhitespace '+' = true := hb '+' (mem_of_mem_head? hhead)
      exact absurd hplus (by decide)
    | update hm' => rw [hm] at hm'; cases hm'

/-- **The runs stay in step; a doubled return in the content leaves a gap that never closes.** -/
theorem Gap.pushLines {ls : List Str} (h : Gap d p p') {s : Section} (hs : InSection p s)
    (hrun : p.pushLines ls = .ok q) :
    ∃ k q', p'.pushLines (ls.map stripCr) = .ok q' ∧ Gap (d + k) q q' ∧
      (singleReturns s ls = false → 1 ≤ k) := by
  induction ls generalizing p p' s d with
  | nil =>
    cases hrun
    exact ⟨0, p', rfl, h, fun hr => by cases hr⟩
  | cons l ls ih =>
    rw [pushLines_cons, bind_eq_ok] at hrun
    obtain ⟨p₁, hp₁, hrun⟩ := hrun
    have hnum : Gap d { p with lineNumber := p.lineNumber + 1 }
        { p' with lineNumber := p'.lineNumber + 1 } :=
      ⟨h.mode, h.environmentId, congrArg (· + 1) h.lineNumber, h.hunks, h.size⟩
    obtain ⟨k₁, p₁', hp₁', hgap₁, hk₁⟩ := hnum.accepts (hs.congr rfl) (processLine_eq_ok.1 hp₁)
    obtain ⟨k₂, q', hq', hgap₂, hk₂⟩ := ih hgap₁ (hs.pushLine hp₁) hrun
    have hstep : p'.pushLine (stripCr l) = .ok p₁' := processLine_eq_ok.2 hp₁'
    refine ⟨k₁ + k₂, q', ?_, by rw [← Nat.add_assoc]; exact hgap₂, fun hr => ?_⟩
    · rw [map_cons, pushLines_cons, hstep, ok_bind, hq']
    · rw [← Bool.not_eq_true, singleReturns_cons] at hr
      by_cases hc : s.isContent (stripCr l) = true ∧ (stripCr l).getLast? = some '\r'
      · have hone : returns (stripCr l) = 1 := if_pos hc.2
        have := hk₁ hc.1
        omega
      · have hrest : singleReturns (s.next l) ls = false := by
          rw [← Bool.not_eq_true]
          exact fun h => hr ⟨hc, h⟩
        have := hk₂ hrest
        omega

/-! ## Agreement -/

/-- A preview of a text with a line ending reads it as a begin marker, lines, and an end marker,
which is the text `parse_patch` keeps after trimming. -/
theorem streamPatch_split {deltas : List Str} {hunks : List Hunk} {environmentId : Option Str}
    (h : streamPatch deltas = .ok (hunks, environmentId)) (hn : '\n' ∈ deltas.flatten) :
    ∃ f mid e p,
      trim deltas.flatten = unlines (trimStart f :: mid) (trimEnd e) ∧
      trim f = beginPatchMarker ∧ trim e = endPatchMarker ∧
      (∀ l ∈ f :: mid, '\n' ∉ l) ∧ '\n' ∉ e ∧
      ({} : StreamingPatchParser).pushLines (f :: mid) = .ok p ∧ p.LastHunkDone ∧
      p.state.hunks = hunks ∧ p.state.environmentId = environmentId ∧
      singleReturns .other (splitNl deltas.flatten).1 = singleReturns .other (f :: mid) := by
  obtain ⟨p, q, hp, hq, rfl, rfl⟩ := streamPatch_eq_ok.1 h
  obtain ⟨hls, hr⟩ := not_mem_splitNl deltas.flatten
  have htext := unlines_splitNl deltas.flatten
  obtain ⟨f, rest, hsplit⟩ := exists_cons_of_ne_nil ((mem_newline_iff _).1 hn)
  rw [hsplit] at hp hls htext ⊢
  generalize (splitNl deltas.flatten).2 = r at *
  -- the first line is the begin marker
  have hf : trim f = beginPatchMarker := by
    rw [pushLines_cons, bind_eq_ok] at hp
    obtain ⟨p₁, hp₁, -⟩ := hp
    have hacc := processLine_eq_ok.1 hp₁
    cases hacc with
    | beginPatch hm h => rwa [trim_stripCr] at h
    | environment hm | header hm | addLine hm | updateLine hm | blankAfterEof hm
    | blankAfterEnd hm => cases hm
  have hfb : ¬ Blank f := fun hb => by
    rw [trim_eq_nil.2 hb] at hf
    cases hf
  have hend : ∀ {e : Str}, trim e = endPatchMarker → ¬ Blank e := fun he hb => by
    rw [trim_eq_nil.2 hb] at he
    cases he
  rcases finish_eq_ok hq with ⟨hre, hd, hst⟩ | ⟨hrb, hm, hst⟩
  · refine ⟨f, rest, r, p, ?_, hf, hre, hls, hr, hp, hd, ?_, ?_, rfl⟩
    · rw [← htext, trim_unlines hfb (hend hre)]
    · rw [hst]
    · rw [hst]
  · rcases pushLines_ended hp hm with ⟨hm₀, -⟩ | ⟨mid, e, bs, p₁, heq, hmid, he, hd, hbs, hst₁⟩
    · cases hm₀
    · have hte := trim_of_headerText he
      obtain ⟨mid, rfl⟩ : ∃ mid', mid = f :: mid' := by
        cases mid with
        | nil =>
          obtain ⟨rfl, -⟩ := List.cons.inj heq
          rw [hf] at hte
          cases hte
        | cons f' mid' => exact ⟨mid', by rw [(List.cons.inj heq).1]⟩
      rw [heq] at htext hls ⊢
      refine ⟨f, mid, e, p₁, ?_, hf, hte, fun l hl => hls l (mem_append_left _ hl),
        hls e (by simp), hmid, hd, ?_, ?_, ?_⟩
      · rw [← htext, trim_unlines_blank hfb (hend hte) hbs hrb]
      · rw [hst, hst₁]
      · rw [hst, hst₁]
      · have hs : InSection ({} : StreamingPatchParser) .other := .other fun n h => by cases h
        rw [singleReturns_append, singleReturns_end (hs.pushLines hmid) he hbs, Bool.and_true]

/-- A text without a line ending is never a patch. -/
theorem parsePatch_endPatch {t : Str} (ht : trim t = endPatchMarker) :
    parsePatch t = .error (.invalidPatchError firstLineMessage) := by
  unfold parsePatch parsePatchText
  rw [ht]
  rfl

/-- **The preview and the applied patch agree exactly on texts with a line ending in which no
content line ends in two carriage returns.** -/
theorem preview_agrees_iff {deltas : List Str} {hunks : List Hunk} {environmentId : Option Str}
    (h : streamPatch deltas = .ok (hunks, environmentId)) :
    (∃ a, parsePatch deltas.flatten = .ok a ∧ a.hunks = hunks ∧ a.environmentId = environmentId) ↔
      '\n' ∈ deltas.flatten ∧ singleReturns .other (splitNl deltas.flatten).1 = true := by
  by_cases hn : '\n' ∈ deltas.flatten
  · obtain ⟨f, mid, e, p, htrim, hf, he, hls, hne, hp, hd, rfl, rfl, hsr⟩ := streamPatch_split h hn
    rw [hsr]
    have hf' : trim (trimStart f) = beginPatchMarker := (trim_trimStart f).trans hf
    have he' : trim (trimEnd e) = endPatchMarker := (trim_trimEnd e).trans he
    have hls' : ∀ l ∈ trimStart f :: mid, '\n' ∉ l := by
      intro l hl
      rcases mem_cons.1 hl with rfl | hl
      · exact fun h => hls f (by simp) ((dropWhile_suffix _).mem h)
      · exact hls l (by simp [hl])
    have hne' : '\n' ∉ trimEnd e := fun h => hne ((List.rdropWhile_prefix _ _).mem h)
    have hbegin : ({} : StreamingPatchParser).pushLine (stripCr (trimStart f)) =
        .ok startedParser := pushLine_begin ((trim_stripCr _).trans hf')
    -- both runs go on from the same parser over the same lines, stripped on one side
    rw [pushLines_cons, pushLine_begin hf, ok_bind] at hp
    have hs : InSection startedParser .other := .other fun n h => by cases h
    have hfirst : singleReturns .other (f :: mid) = singleReturns .other mid := by
      have hnext : Section.other.next f = .other :=
        next_other_of_ne (by rw [hf, beginPatchMarker_eq, updateFileMarker_eq]; simp)
      have hcontent : Section.other.isContent f = false := by
        cases f with
        | nil => rfl
        | cons c f =>
          have hplus : c ≠ '+' := by
            rintro rfl
            obtain ⟨t, ht⟩ := trim_plus f
            rw [ht] at hf
            cases hf
          simpa [Section.isContent] using hplus
      rw [singleReturns, hcontent, hnext]
      rfl
    rw [hfirst]
    simp only [hn, true_and]
    constructor
    · rintro ⟨a, ha, hh, henv⟩
      obtain ⟨p', hp', -, rfl⟩ := (parsePatch_eq_ok htrim hf' he' hls' hne').1 ha
      rw [map_cons, pushLines_cons, hbegin, ok_bind] at hp'
      by_contra hsr'
      obtain ⟨k, q', hq', hgap, hk⟩ := (Gap.refl startedParser).pushLines hs hp
      rw [hp'] at hq'
      cases hq'
      have hsize := hgap.size
      have hlt := hk (by simpa using hsr')
      dsimp only at hh
      rw [hh] at hsize
      omega
    · intro hsr'
      refine ⟨_, (parsePatch_eq_ok htrim hf' he' hls' hne').2 ⟨p, ?_, hd, rfl⟩, rfl, rfl⟩
      rw [map_cons, pushLines_cons, hbegin, ok_bind]
      exact pushLines_stripCr hs hsr' hp
  · obtain ⟨p, q, hp, hq, -, -⟩ := streamPatch_eq_ok.1 h
    have hsplit := splitNl_of_not_mem hn
    rw [hsplit] at hp hq
    cases hp
    have hend : trim deltas.flatten = endPatchMarker := by
      rcases finish_eq_ok hq with ⟨ht, -⟩ | ⟨-, hm, -⟩
      · exact ht
      · cases hm
    simp [parsePatch_endPatch hend, hn]

/-- A removed line that ends in two carriage returns. -/
def doubledReturnPatch : Str :=
  "*** Begin Patch\n*** Update File: a\n@@\n-old\r\r\n+new\n*** End Patch\n".toList

/-- The preview removes `old\r`, the applied patch removes `old`. -/
theorem preview_differs : ¬ ∀ deltas hunks environmentId,
    streamPatch deltas = .ok (hunks, environmentId) →
      ∃ a, parsePatch deltas.flatten = .ok a ∧ a.hunks = hunks ∧
        a.environmentId = environmentId := by
  intro h
  have hs : streamPatch [doubledReturnPatch] = .ok
      ([.updateFile ['a'] none [⟨none, ["old\r".toList], ["new".toList], false⟩]], none) := by
    decide +kernel
  have hp : (parsePatch [doubledReturnPatch].flatten).map ApplyPatchArgs.hunks = .ok
      [.updateFile ['a'] none [⟨none, ["old".toList], ["new".toList], false⟩]] := by
    decide +kernel
  obtain ⟨a, ha, hh, -⟩ := h _ _ _ hs
  rw [ha] at hp
  have heq := hh.symm.trans (Except.ok.inj hp)
  revert heq
  decide

/-- Carriage returns before line endings, one delta a line. -/
def returnsPatch : List Str :=
  ["*** Begin Patch\r\n".toList, "*** Add File: a\r\r\n+x\r\n".toList, "*** End Patch".toList]

theorem preview_agrees_returnsPatch :
    streamPatch returnsPatch = .ok ([.addFile ['a'] ['x', '\n']], none) ∧
      ∃ a, parsePatch returnsPatch.flatten = .ok a ∧ a.hunks = [.addFile ['a'] ['x', '\n']] ∧
        a.environmentId = none := by
  have hs : streamPatch returnsPatch = .ok ([.addFile ['a'] ['x', '\n']], none) := by
    decide +kernel
  exact ⟨hs, (preview_agrees_iff hs).2 (by decide +kernel)⟩

end Codex.ApplyPatch
