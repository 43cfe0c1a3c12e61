import Codex.ApplyPatch.LineRun
import Codex.Base.Log

/-!
# A preview only grows

What `push_delta` returns extends what it returned before: hunks are added at the
end, and only the last one is written to, to which lines, chunks, a move and the
end-of-file flag of the last chunk are added. When the patch is finished every
update hunk has chunks, and every chunk lines.
-/

namespace Codex.ApplyPatch

open List Codex.Text

/-! ## Growing hunks -/

/-- A chunk gains lines or its end-of-file flag, and nothing once it has the flag. -/
structure UpdateFileChunk.Extends (chunk chunk' : UpdateFileChunk) : Prop where
  changeContext : chunk'.changeContext = chunk.changeContext
  oldLines : chunk.oldLines <+: chunk'.oldLines
  newLines : chunk.newLines <+: chunk'.newLines
  closed : chunk.isEndOfFile = true → chunk' = chunk

/-- A file that is added gains lines. A file that is updated gains a move if it has none, lines in
its last chunk, and chunks. -/
inductive Hunk.Extends : Hunk → Hunk → Prop where
  | addFile {path contents : Str} {lines : List Str} (hlines : ∀ line ∈ lines, '\n' ∉ line) :
      Hunk.Extends (.addFile path contents)
        (.addFile path (contents ++ lines.flatMap (· ++ ['\n'])))
  | deleteFile {path : Str} : Hunk.Extends (.deleteFile path) (.deleteFile path)
  | updateFile {path : Str} {mv mv' : Option Str} {chunks chunks' : List UpdateFileChunk}
      (hmove : ∀ dest, mv = some dest → mv' = some dest)
      (hchunks : GrowsLast UpdateFileChunk.Extends chunks chunks') :
      Hunk.Extends (.updateFile path mv chunks) (.updateFile path mv' chunks')

/-- An update hunk has chunks, and each of them lines. -/
def Hunk.HasLines : Hunk → Prop
  | .updateFile _ _ chunks => chunks ≠ [] ∧ ∀ chunk ∈ chunks, chunk.oldLines ≠ [] ∨ chunk.newLines ≠ []
  | _ => True

variable {chunk chunk' chunk'' : UpdateFileChunk} {hunk hunk' hunk'' : Hunk}
  {chunks chunks' : List UpdateFileChunk} {mv mv' : Option Str} {line : Str}

theorem UpdateFileChunk.Extends.refl (chunk : UpdateFileChunk) : chunk.Extends chunk :=
  ⟨rfl, prefix_rfl, prefix_rfl, fun _ => rfl⟩

theorem UpdateFileChunk.Extends.trans (h : chunk.Extends chunk') (h' : chunk'.Extends chunk'') :
    chunk.Extends chunk'' := by
  refine ⟨h'.changeContext.trans h.changeContext, h.oldLines.trans h'.oldLines,
    h.newLines.trans h'.newLines, fun heof => ?_⟩
  obtain rfl := h.closed heof
  exact h'.closed heof

theorem Hunk.Extends.refl (hunk : Hunk) : hunk.Extends hunk := by
  cases hunk with
  | addFile path contents =>
    have h : Hunk.Extends (.addFile path contents)
        (.addFile path (contents ++ ([] : List Str).flatMap (· ++ ['\n']))) := .addFile nofun
    rwa [flatMap_nil, append_nil] at h
  | deleteFile => exact .deleteFile
  | updateFile => exact .updateFile (fun _ => id) (.refl UpdateFileChunk.Extends.refl _)

theorem Hunk.Extends.trans (h : hunk.Extends hunk') (h' : hunk'.Extends hunk'') :
    hunk.Extends hunk'' := by
  cases h with
  | addFile hlines =>
    cases h' with
    | addFile hlines' =>
      rw [List.append_assoc, ← flatMap_append]
      exact .addFile fun line hline => (mem_append.1 hline).elim (hlines line) (hlines' line)
  | deleteFile => exact h'
  | updateFile hmove hchunks =>
    cases h' with
    | updateFile hmove' hchunks' =>
      exact .updateFile (fun dest h => hmove' dest (hmove dest h))
        (hchunks.trans UpdateFileChunk.Extends.trans hchunks')

/-! ## Lines of an update hunk -/

theorem ContentLine.extends {record : UpdateFileChunk → UpdateFileChunk}
    (h : ContentLine line record) (heof : chunk.isEndOfFile = false) :
    chunk.Extends (record chunk) := by
  have hclosed : chunk.isEndOfFile = true → record chunk = chunk := fun htrue => by
    rw [heof] at htrue
    cases htrue
  cases h with
  | empty | context => exact ⟨rfl, prefix_append _ _, prefix_append _ _, hclosed⟩
  | added => exact ⟨rfl, prefix_rfl, prefix_append _ _, hclosed⟩
  | removed => exact ⟨rfl, prefix_append _ _, prefix_rfl, hclosed⟩

/-- The last chunk is written to as long as it is not closed. -/
theorem growsLast_modifyLast {f : UpdateFileChunk → UpdateFileChunk}
    (h : ∀ chunk : UpdateFileChunk, chunk.isEndOfFile = false → chunk.Extends (f chunk))
    (heof : lastIsEndOfFile chunks = false) :
    GrowsLast UpdateFileChunk.Extends chunks (modifyLast f chunks) := by
  rcases eq_nil_or_concat' chunks with rfl | ⟨earlier, last, rfl⟩
  · exact growsLast_nil _ _
  · rw [modifyLast_concat]
    refine growsLast_concat (h last ?_) _ _
    simpa [lastIsEndOfFile] using heof

theorem UpdateAccepts.grows (h : UpdateAccepts mv chunks line mv' chunks') :
    (∀ dest, mv = some dest → mv' = some dest) ∧ GrowsLast UpdateFileChunk.Extends chunks chunks' := by
  cases h with
  | moveTo => exact ⟨nofun, growsLast_nil _ _⟩
  | openEmpty | openContext =>
    exact ⟨fun _ => id, growsLast_append UpdateFileChunk.Extends.refl _ _⟩
  | endOfFile _ heof =>
    refine ⟨fun _ => id, growsLast_modifyLast (fun chunk hopen => ?_) heof⟩
    exact ⟨rfl, prefix_rfl, prefix_rfl, fun hclosed => by rw [hopen] at hclosed; cases hclosed⟩
  | content hline heof =>
    refine ⟨fun _ => id, ?_⟩
    unfold recordLine
    split
    · next hempty =>
      rw [List.isEmpty_iff.1 hempty]
      exact growsLast_nil _ _
    · exact growsLast_modifyLast (fun _ => hline.extends) heof

/-! ## One line -/

/-- The chunks in front of the last one have lines. -/
def EarlierHaveLines (chunks : List UpdateFileChunk) : Prop :=
  ∀ chunk ∈ chunks.dropLast, chunk.hasNoLines = false

theorem hasNoLines_eq_false : chunk.hasNoLines = false ↔ chunk.oldLines ≠ [] ∨ chunk.newLines ≠ [] := by
  unfold UpdateFileChunk.hasNoLines
  rw [Bool.and_eq_false_iff, isEmpty_eq_false_iff, isEmpty_eq_false_iff]

theorem hasLines_updateFile {path : Str} (hne : chunks ≠ []) (hearlier : EarlierHaveLines chunks)
    (hlast : lastHasNoLines chunks = false) : (Hunk.updateFile path mv chunks).HasLines := by
  refine ⟨hne, fun chunk hchunk => hasNoLines_eq_false.1 ?_⟩
  rcases eq_nil_or_concat' chunks with rfl | ⟨earlier, last, rfl⟩
  · exact absurd rfl hne
  · rw [mem_append, mem_singleton] at hchunk
    rcases hchunk with hmem | rfl
    · exact hearlier chunk (by rwa [dropLast_concat])
    · simpa [lastHasNoLines] using hlast

theorem earlierHaveLines_append (hearlier : EarlierHaveLines chunks)
    (hlast : lastHasNoLines chunks = false) (chunk : UpdateFileChunk) :
    EarlierHaveLines (chunks ++ [chunk]) := by
  unfold EarlierHaveLines
  rw [dropLast_concat]
  intro chunk' hmem
  rcases eq_nil_or_concat' chunks with rfl | ⟨earlier, last, rfl⟩
  · cases hmem
  · rw [mem_append, mem_singleton] at hmem
    rcases hmem with hmem | rfl
    · exact hearlier chunk' (by rwa [dropLast_concat])
    · simpa [lastHasNoLines] using hlast

theorem earlierHaveLines_modifyLast {f : UpdateFileChunk → UpdateFileChunk}
    (hearlier : EarlierHaveLines chunks) : EarlierHaveLines (modifyLast f chunks) := by
  rcases eq_nil_or_concat' chunks with rfl | ⟨earlier, last, rfl⟩
  · exact hearlier
  · unfold EarlierHaveLines at *
    rw [dropLast_concat] at hearlier
    rwa [modifyLast_concat, dropLast_concat]

/-- A chunk is only followed by another when it has lines. -/
theorem UpdateAccepts.earlierHaveLines (h : UpdateAccepts mv chunks line mv' chunks')
    (hearlier : EarlierHaveLines chunks) : EarlierHaveLines chunks' := by
  cases h with
  | moveTo => exact hearlier
  | openEmpty _ hlast | openContext _ hlast => exact earlierHaveLines_append hearlier hlast _
  | endOfFile => exact earlierHaveLines_modifyLast hearlier
  | content =>
    unfold recordLine
    split
    · exact nofun
    · exact earlierHaveLines_modifyLast hearlier

namespace StreamingPatchParser

variable {p p' : StreamingPatchParser}

/-- What holds between two lines of a patch: only the last chunk of the last hunk can be without
lines, and not once the patch has ended. -/
structure Streaming (p : StreamingPatchParser) : Prop where
  earlier : ∀ hunk ∈ p.state.hunks.dropLast, hunk.HasLines
  last : ∀ path mv chunks, p.state.hunks.getLast? = some (.updateFile path mv chunks) →
    EarlierHaveLines chunks ∧ ((∃ n, p.state.mode = .updateFile n) ∨
      p.state.mode = .endedPatch ∧ chunks ≠ [] ∧ lastHasNoLines chunks = false)

theorem streaming_default : ({} : StreamingPatchParser).Streaming := ⟨nofun, nofun⟩

/-- A hunk that may be left has lines, like all before it. -/
theorem Streaming.hasLines (h : p.Streaming) (hdone : p.LastHunkDone) :
    ∀ hunk ∈ p.state.hunks, hunk.HasLines := by
  intro hunk hmem
  rcases eq_nil_or_concat' p.state.hunks with hnil | ⟨earlier, last, hsplit⟩
  · rw [hnil] at hmem
    cases hmem
  · rw [hsplit, mem_append, mem_singleton] at hmem
    rcases hmem with hmem | rfl
    · exact h.earlier hunk (by rwa [hsplit, dropLast_concat])
    · cases hunk with
      | addFile => trivial
      | deleteFile => trivial
      | updateFile path mv chunks =>
        have hlast : p.state.hunks.getLast? = some (.updateFile path mv chunks) := by
          rw [hsplit, getLast?_concat]
        obtain ⟨hearlier, hmode⟩ := h.last path mv chunks hlast
        obtain ⟨hlines, hopen⟩ := lastHunkDone_iff.1 hdone path mv chunks hlast
        refine hasLines_updateFile ?_ hearlier hlines
        rcases hmode with ⟨n, hmode⟩ | ⟨-, hne, -⟩
        · exact fun hnil => hopen hnil n hmode
        · exact hne

/-- The last hunk is written to. -/
theorem hunks_setLastHunk (h : p.state.hunks.getLast? = some hunk) (hunk' : Hunk) :
    ∃ earlier, p.state.hunks = earlier ++ [hunk] ∧
      (p.setLastHunk hunk').state.hunks = earlier ++ [hunk'] := by
  obtain ⟨earlier, hsplit⟩ := getLast?_eq_some_iff.1 h
  refine ⟨earlier, hsplit, ?_⟩
  show modifyLast _ p.state.hunks = _
  rw [hsplit, modifyLast_concat]

theorem Streaming.setLastHunk (h : p.Streaming) (hlast : p.state.hunks.getLast? = some hunk)
    (hnew : ∀ path mv chunks, hunk' = .updateFile path mv chunks →
      EarlierHaveLines chunks ∧ ∃ n, p.state.mode = .updateFile n) :
    (p.setLastHunk hunk').Streaming := by
  obtain ⟨earlier, hsplit, hhunks⟩ := hunks_setLastHunk hlast hunk'
  have hearlier := h.earlier
  rw [hsplit, dropLast_concat] at hearlier
  refine ⟨by rwa [hhunks, dropLast_concat], fun path mv chunks hupdate => ?_⟩
  rw [hhunks, getLast?_concat, Option.some_inj] at hupdate
  obtain ⟨hchunks, hmode⟩ := hnew path mv chunks hupdate
  exact ⟨hchunks, .inl hmode⟩

/-- A hunk is opened behind one that has lines. -/
theorem Streaming.openHunk {mode : StreamingParserMode} (h : p.Streaming) (hdone : p.LastHunkDone)
    (hnew : ∀ path mv chunks, hunk = .updateFile path mv chunks →
      chunks = [] ∧ ∃ n, mode = .updateFile n) : (p.openHunk hunk mode).Streaming := by
  have hhunks : (p.openHunk hunk mode).state.hunks = p.state.hunks ++ [hunk] := rfl
  refine ⟨by rw [hhunks, dropLast_concat]; exact h.hasLines hdone, fun path mv chunks hupdate => ?_⟩
  rw [hhunks, getLast?_concat, Option.some_inj] at hupdate
  obtain ⟨rfl, hmode⟩ := hnew path mv chunks hupdate
  exact ⟨nofun, .inl hmode⟩

theorem Streaming.endPatch (h : p.Streaming) (hdone : p.LastHunkDone) :
    (p.setMode .endedPatch).Streaming := by
  refine ⟨h.earlier, fun path mv chunks hlast => ?_⟩
  have hmem : Hunk.updateFile path mv chunks ∈ p.state.hunks := mem_of_getLast? hlast
  obtain ⟨hne, -⟩ := h.hasLines hdone _ hmem
  exact ⟨(h.last path mv chunks hlast).1, .inr ⟨rfl, hne, (lastHunkDone_iff.1 hdone _ _ _ hlast).1⟩⟩

/-- **What one line does**: the hunks grow, and only the last chunk can be without lines. -/
theorem Accepts.grows (h : Accepts p line p') (hstream : p.Streaming) (hline : '\n' ∉ line) :
    p'.Streaming ∧ GrowsLast Hunk.Extends p.state.hunks p'.state.hunks := by
  have hsame := GrowsLast.refl Hunk.Extends.refl p.state.hunks
  have hnone {mode : StreamingParserMode} (hmode : p.state.mode = mode)
      (hupdate : ∀ n, mode ≠ .updateFile n) (hended : mode ≠ .endedPatch) (path : Str)
      (mv : Option Str) (chunks : List UpdateFileChunk) :
      p.state.hunks.getLast? ≠ some (.updateFile path mv chunks) := by
    intro hlast
    rcases (hstream.last path mv chunks hlast).2 with ⟨n, hmode'⟩ | ⟨hmode', -⟩
    · exact hupdate n (hmode.symm.trans hmode')
    · exact hended (hmode.symm.trans hmode')
  cases h with
  | beginPatch hmode | environment hmode =>
    exact ⟨⟨hstream.earlier, fun path mv chunks hlast =>
      absurd hlast (hnone hmode nofun nofun path mv chunks)⟩, hsame⟩
  | header _ hdone hd =>
    have hopened := growsLast_append Hunk.Extends.refl p.state.hunks
    cases hd with
    | endPatch => exact ⟨hstream.endPatch hdone, hsame⟩
    | addFile | deleteFile => exact ⟨hstream.openHunk hdone nofun, hopened _⟩
    | updateFile =>
      refine ⟨hstream.openHunk hdone fun path mv chunks hnew => ?_, hopened _⟩
      cases hnew
      exact ⟨rfl, _, rfl⟩
  | @addLine _ rest path contents hplus hlast =>
    refine ⟨hstream.setLastHunk hlast nofun, ?_⟩
    obtain ⟨earlier, hsplit, hhunks⟩ := hunks_setLastHunk hlast
      (.addFile path (contents ++ rest ++ ['\n']))
    rw [hsplit, hhunks]
    refine growsLast_concat ?_ earlier []
    have hrest : '\n' ∉ rest := fun hmem => hline (hplus ▸ mem_cons_of_mem _ hmem)
    have hadds : Hunk.Extends (.addFile path contents)
        (.addFile path (contents ++ [rest].flatMap (· ++ ['\n']))) :=
      .addFile fun line hmem => mem_singleton.1 hmem ▸ hrest
    rwa [flatMap_singleton, ← List.append_assoc] at hadds
  | @updateLine n hmode path mv mv' chunks chunks' hlast haccepts =>
    obtain ⟨hmove, hchunks⟩ := haccepts.grows
    obtain ⟨earlier, hsplit, hhunks⟩ := hunks_setLastHunk hlast (.updateFile path mv' chunks')
    refine ⟨hstream.setLastHunk hlast fun path mv'' chunks'' hnew => ?_, ?_⟩
    · cases hnew
      exact ⟨haccepts.earlierHaveLines (hstream.last _ _ _ hlast).1, n, hmode⟩
    · rw [hsplit, hhunks]
      exact growsLast_concat (.updateFile hmove hchunks) earlier []
  | blankAfterEof | blankAfterEnd => exact ⟨hstream, hsame⟩

/-! ## Characters, deltas and the end -/

theorem Streaming.of_state (h : p.Streaming) (hstate : p'.state = p.state) : p'.Streaming := by
  refine ⟨?_, ?_⟩
  · rw [hstate]
    exact h.earlier
  · rw [hstate]
    exact h.last

theorem notMem_stripCr {c : Char} (h : c ∉ line) : c ∉ stripCr line := by
  rcases stripCr_cases line with ⟨heq, -⟩ | heq
  · rwa [heq]
  · rw [heq, mem_append, not_or] at h
    exact h.1

/-- What holds between two characters. -/
structure Buffering (p : StreamingPatchParser) : Prop where
  lineBuffer : '\n' ∉ p.lineBuffer
  streaming : p.Streaming

theorem pushChar_grows {ch : Char} (h : p.pushChar ch = .ok p') (hbuffer : p.Buffering) :
    p'.Buffering ∧ GrowsLast Hunk.Extends p.state.hunks p'.state.hunks := by
  unfold pushChar at h
  split at h
  · have haccepts := processLine_eq_ok.1 h
    obtain ⟨hstream, hgrows⟩ := haccepts.grows (hbuffer.streaming.of_state rfl)
      (notMem_stripCr hbuffer.lineBuffer)
    refine ⟨⟨?_, hstream⟩, hgrows⟩
    rw [haccepts.lineBuffer]
    exact not_mem_nil
  · next hch =>
    cases h
    refine ⟨⟨?_, hbuffer.streaming.of_state rfl⟩, GrowsLast.refl Hunk.Extends.refl _⟩
    rw [mem_append, mem_singleton]
    rintro (hmem | rfl)
    · exact hbuffer.lineBuffer hmem
    · exact hch rfl

theorem pushDelta_grows {delta : Str} (h : p.pushDelta delta = .ok p') (hbuffer : p.Buffering) :
    p'.Buffering ∧ GrowsLast Hunk.Extends p.state.hunks p'.state.hunks := by
  induction delta generalizing p with
  | nil =>
    cases h
    exact ⟨hbuffer, GrowsLast.refl Hunk.Extends.refl _⟩
  | cons ch delta ih =>
    obtain ⟨q, hchar, hrest⟩ := bind_eq_ok.1 (foldlM_cons.symm.trans h)
    obtain ⟨hmid, hgrows⟩ := pushChar_grows hchar hbuffer
    obtain ⟨hend, hgrows'⟩ := ih hrest hmid
    exact ⟨hend, hgrows.trans Hunk.Extends.trans hgrows'⟩

theorem buffering_pushDeltas {deltas : List Str} (h : deltas.foldlM pushDelta {} = .ok p) :
    p.Buffering := by
  rw [pushDeltas_eq] at h
  exact (pushDelta_grows h ⟨not_mem_nil, streaming_default⟩).1

theorem Streaming.hasLines_of_ended (h : p.Streaming) (hended : p.state.mode = .endedPatch) :
    ∀ hunk ∈ p.state.hunks, hunk.HasLines := by
  refine h.hasLines (lastHunkDone_iff.2 fun path mv chunks hlast => ?_)
  rcases (h.last path mv chunks hlast).2 with ⟨n, hmode⟩ | ⟨-, -, hlines⟩
  · rw [hended] at hmode
    cases hmode
  · exact ⟨hlines, fun _ n hmode => by rw [hended] at hmode; cases hmode⟩

theorem finishLine_streaming (h : p.finishLine = .ok p') (hbuffer : p.Buffering) : p'.Streaming := by
  have hstream : ({ p with lineBuffer := [], lineNumber := p.lineNumber + 1 } :
      StreamingPatchParser).Streaming := hbuffer.streaming.of_state rfl
  unfold finishLine at h
  split at h
  · cases h
    exact hbuffer.streaming
  · dsimp only at h
    split at h
    · obtain ⟨u, hensure, rfl⟩ := map_eq_ok.1 h
      exact hstream.endPatch (ensure_eq_ok.1 hensure)
    · exact ((processLine_eq_ok.1 h).grows hstream hbuffer.lineBuffer).1

theorem finish_hasLines (h : p.finish = .ok p') (hbuffer : p.Buffering) :
    ∀ hunk ∈ p'.state.hunks, hunk.HasLines := by
  obtain ⟨q, hline, hmode⟩ := bind_eq_ok.1 h
  split at hmode
  · next hended =>
    cases hmode
    exact (finishLine_streaming hline hbuffer).hasLines_of_ended hended
  · cases hmode

end StreamingPatchParser

open StreamingPatchParser

/-- **Previews grow**: each delta extends the hunks of the deltas before, and a finished patch has
lines in every chunk of every update hunk. -/
theorem pushDeltas_grow (deltas : List Str) :
    (∀ delta p p', deltas.foldlM pushDelta {} = .ok p → p.pushDelta delta = .ok p' →
      GrowsLast Hunk.Extends p.state.hunks p'.state.hunks) ∧
    ∀ p p', deltas.foldlM pushDelta {} = .ok p → p.finish = .ok p' →
      ∀ hunk ∈ p'.state.hunks, hunk.HasLines := by
  refine ⟨fun delta p p' hp hp' => ?_, fun p p' hp hp' => ?_⟩
  · exact (pushDelta_grows hp' (buffering_pushDeltas hp)).2
  · exact finish_hasLines hp' (buffering_pushDeltas hp)

end Codex.ApplyPatch
