import Codex.ApplyPatch.LineSpec

/-!
# Runs over lines

A run of the parser over characters is a run over the terminated lines of the
text, with the unterminated rest left in the buffer. How the text was cut into
deltas does not matter.
-/

namespace Codex.ApplyPatch

open List Codex.Text

namespace StreamingPatchParser

/-- A terminated line arrives: it is counted, loses one carriage return and is processed. -/
def pushLine (p : StreamingPatchParser) (line : Str) : Except ParseError StreamingPatchParser :=
  { p with lineNumber := p.lineNumber + 1 }.processLine (stripCr line)

def pushLines (p : StreamingPatchParser) (ls : List Str) :
    Except ParseError StreamingPatchParser :=
  ls.foldlM pushLine p

/-! ## Lines leave the buffer alone -/

variable {p : StreamingPatchParser}

theorem Accepts.lineBuffer {p' : StreamingPatchParser} {line : Str} (h : Accepts p line p') :
    p'.lineBuffer = p.lineBuffer := by
  cases h with
  | header _ _ h => cases h <;> rfl
  | _ => rfl

theorem pushLine_lineBuffer {p' : StreamingPatchParser} {line : Str}
    (h : p.pushLine line = .ok p') : p'.lineBuffer = p.lineBuffer :=
  (processLine_eq_ok.1 h).lineBuffer

@[simp] theorem pushLines_nil (p : StreamingPatchParser) : p.pushLines [] = .ok p := rfl

theorem pushLines_cons (p : StreamingPatchParser) (l : Str) (ls : List Str) :
    p.pushLines (l :: ls) = p.pushLine l >>= fun q => q.pushLines ls := rfl

theorem pushLines_append (p : StreamingPatchParser) (ls ls' : List Str) :
    p.pushLines (ls ++ ls') = p.pushLines ls >>= fun q => q.pushLines ls' :=
  foldlM_append

/-! ## From characters to lines -/

theorem pushDelta_append (p : StreamingPatchParser) (s t : Str) :
    p.pushDelta (s ++ t) = p.pushDelta s >>= fun q => q.pushDelta t :=
  foldlM_append

/-- Deltas may be cut anywhere. -/
theorem pushDeltas_eq (p : StreamingPatchParser) (deltas : List Str) :
    deltas.foldlM pushDelta p = p.pushDelta deltas.flatten := by
  induction deltas generalizing p with
  | nil => rfl
  | cons d ds ih =>
    rw [foldlM_cons, flatten_cons, pushDelta_append]
    exact congrArg _ (funext fun q => ih q)

theorem pushDelta_of_not_mem {s : Str} (hs : '\n' ∉ s) (p : StreamingPatchParser) :
    p.pushDelta s = .ok { p with lineBuffer := p.lineBuffer ++ s } := by
  induction s generalizing p with
  | nil => simp [pushDelta]; rfl
  | cons c s ih =>
    have hc : c ≠ '\n' := fun e => hs (by simp [e])
    have hstep : p.pushDelta (c :: s) =
        { p with lineBuffer := p.lineBuffer ++ [c] }.pushDelta s := by
      simp [pushDelta, pushChar, hc]
    rw [hstep, ih fun h => hs (by simp [h])]
    simp

theorem pushDelta_line (hp : p.lineBuffer = []) {l : Str} (hl : '\n' ∉ l) (s : Str) :
    p.pushDelta (l ++ '\n' :: s) = p.pushLine l >>= fun q => q.pushDelta s := by
  have hbuf : p.pushDelta l = .ok { p with lineBuffer := l } := by
    rw [pushDelta_of_not_mem hl, hp, nil_append]
  rw [pushDelta_append, hbuf, ok_bind]
  have hnl : ({ p with lineBuffer := l } : StreamingPatchParser).pushChar '\n' = p.pushLine l := by
    simp only [pushChar, pushLine, ↓reduceIte]
    rw [← hp]
  rw [pushDelta, foldlM_cons, hnl]
  rfl

/-- **A run over a text is a run over its lines.** -/
theorem pushDelta_unlines (hp : p.lineBuffer = []) {ls : List Str} {r : Str}
    (hls : ∀ l ∈ ls, '\n' ∉ l) (hr : '\n' ∉ r) :
    p.pushDelta (unlines ls r) = p.pushLines ls >>= fun q => .ok { q with lineBuffer := r } := by
  induction ls generalizing p with
  | nil => simp [unlines, pushDelta_of_not_mem hr, hp]
  | cons l ls ih =>
    rw [unlines, pushDelta_line hp (hls l (by simp)), pushLines_cons]
    cases hq : p.pushLine l with
    | error e => rfl
    | ok q =>
      have hbuf : q.lineBuffer = [] := (pushLine_lineBuffer hq).trans hp
      exact ih hbuf fun l' h => hls l' (by simp [h])

end StreamingPatchParser

open StreamingPatchParser

/-- A whole preview succeeds when the lines are accepted and the rest finishes the patch. -/
theorem streamPatch_eq_ok {deltas : List Str} {hunks : List Hunk} {environmentId : Option Str} :
    streamPatch deltas = .ok (hunks, environmentId) ↔
      ∃ p q, ({} : StreamingPatchParser).pushLines (splitNl deltas.flatten).1 = .ok p ∧
        ({ p with lineBuffer := (splitNl deltas.flatten).2 } : StreamingPatchParser).finish =
          .ok q ∧
        q.state.hunks = hunks ∧ q.state.environmentId = environmentId := by
  have hsplit := not_mem_splitNl deltas.flatten
  have hrun : deltas.foldlM pushDelta {} =
      ({} : StreamingPatchParser).pushLines (splitNl deltas.flatten).1 >>= fun q =>
        .ok { q with lineBuffer := (splitNl deltas.flatten).2 } := by
    rw [pushDeltas_eq, ← pushDelta_unlines rfl hsplit.1 hsplit.2, unlines_splitNl]
  rw [streamPatch, hrun, bind_eq_ok]
  constructor
  · rintro ⟨p', hp', h⟩
    obtain ⟨p, hp, hq⟩ := bind_eq_ok.1 hp'
    cases hq
    obtain ⟨q, hq, h⟩ := bind_eq_ok.1 h
    cases h
    exact ⟨p, q, hp, hq, rfl, rfl⟩
  · rintro ⟨p, q, hp, hq, rfl, rfl⟩
    refine ⟨_, bind_eq_ok.2 ⟨p, hp, rfl⟩, ?_⟩
    rw [hq]
    rfl

/-! ## Finishing -/

namespace StreamingPatchParser

variable {p q : StreamingPatchParser} {line : Str}

theorem lastHunkDone_iff : p.LastHunkDone ↔
    ∀ path mv chunks, p.state.hunks.getLast? = some (.updateFile path mv chunks) →
      lastHasNoLines chunks = false ∧ (chunks = [] → ∀ n, p.state.mode ≠ .updateFile n) := by
  constructor
  · intro h path mv chunks hl
    have h := h []
    unfold ensureUpdateHunkIsNotEmpty at h
    split at h
    · cases h
    · next hl' hne =>
      rw [hl] at hl'
      cases hl'
      split at h
      · split at h <;> cases h
      · next hn =>
        refine ⟨by simpa using hn, ?_⟩
        rintro rfl n hm
        exact hne n hm rfl
    · next hne _ => exact absurd hl (hne path mv chunks)
  · intro h line
    unfold ensureUpdateHunkIsNotEmpty
    split
    · next hl hm => exact absurd hm ((h _ _ _ hl).2 rfl _)
    · next hl _ => simp [(h _ _ _ hl).1]
    · rfl

theorem lastHunkDone_congr (hm : p.state.mode = q.state.mode) (hh : p.state.hunks = q.state.hunks) :
    p.LastHunkDone ↔ q.LastHunkDone := by
  rw [lastHunkDone_iff, lastHunkDone_iff, hm, hh]

/-- An unterminated end marker ends the patch, in every mode. -/
theorem finish_endPatch {r : Str} (hr : trim r = endPatchMarker) :
    ({ p with lineBuffer := r } : StreamingPatchParser).finish = .ok q ↔
      p.LastHunkDone ∧ q = { p with lineBuffer := [],
                                    lineNumber := p.lineNumber + 1 }.setMode .endedPatch := by
  have hne : r.isEmpty = false := by
    cases r with
    | nil => cases hr
    | cons c r => rfl
  have hdone : p.LastHunkDone ↔
      ({ p with lineBuffer := [], lineNumber := p.lineNumber + 1 } :
        StreamingPatchParser).LastHunkDone := lastHunkDone_congr rfl rfl
  have hens : ({ p with lineBuffer := [], lineNumber := p.lineNumber + 1 } :
      StreamingPatchParser).ensureUpdateHunkIsNotEmpty endPatchMarker = .ok () ↔ _ := ensure_eq_ok
  simp only [finish, finishLine, hne, hr, Bool.false_eq_true, ↓reduceIte]
  rw [hdone, ← hens, bind_eq_ok]
  constructor
  · rintro ⟨q', hq', h⟩
    obtain ⟨u, hu, rfl⟩ := map_eq_ok.1 hq'
    have hq := Except.ok.inj ((if_pos rfl).symm.trans h)
    exact ⟨hu, hq.symm⟩
  · rintro ⟨hu, rfl⟩
    exact ⟨_, map_eq_ok.2 ⟨(), hu, rfl⟩, if_pos rfl⟩

/-- The patch ends at an end marker; after it only blank lines are accepted. -/
theorem Accepts.ended (h : Accepts p line q) (hq : q.state.mode = .endedPatch) :
    (p.state.mode = .endedPatch ∧ Blank line ∧ q = p) ∨
    (p.headerText line = endPatchMarker ∧ p.LastHunkDone ∧ q = p.setMode .endedPatch) := by
  cases h with
  | beginPatch hm h => cases hq
  | environment hm => rw [setEnvironmentId, hm] at hq; cases hq
  | header hm hd h ht =>
    cases h with
    | endPatch => exact .inr ⟨ht, hd, rfl⟩
    | _ => cases hq
  | addLine hm | updateLine hm => rw [setLastHunk, hm] at hq; cases hq
  | blankAfterEof hm => rw [hm] at hq; cases hq
  | blankAfterEnd hm h => exact .inl ⟨hm, h, rfl⟩

theorem trim_of_headerText (h : p.headerText line = endPatchMarker) :
    trim line = endPatchMarker := by
  unfold headerText at h
  split at h
  · rw [trim, h]; rfl
  · exact h

theorem headerText_stripCr (p : StreamingPatchParser) (line : Str) :
    p.headerText (stripCr line) = p.headerText line := by
  unfold headerText
  split
  · exact trimEnd_stripCr line
  · exact trim_stripCr line

theorem blank_stripCr : Blank (stripCr line) ↔ Blank line := by
  rw [← trimEnd_eq_nil, trimEnd_stripCr, trimEnd_eq_nil]

/-- A run that ends the patch has one end marker, with blank lines after it. -/
theorem pushLines_ended {ls : List Str} (h : p.pushLines ls = .ok q)
    (hq : q.state.mode = .endedPatch) :
    (p.state.mode = .endedPatch ∧ (∀ l ∈ ls, Blank l) ∧ q.state = p.state) ∨
    ∃ mid e bs p₁, ls = mid ++ e :: bs ∧ p.pushLines mid = .ok p₁ ∧
      p₁.headerText e = endPatchMarker ∧ p₁.LastHunkDone ∧ (∀ b ∈ bs, Blank b) ∧
      q.state = { p₁.state with mode := .endedPatch } := by
  induction ls generalizing p with
  | nil =>
    cases h
    exact .inl ⟨hq, by simp, rfl⟩
  | cons l ls ih =>
    rw [pushLines_cons, bind_eq_ok] at h
    obtain ⟨p', hp', h⟩ := h
    rcases ih h with ⟨hm, hbs, hst⟩ | ⟨mid, e, bs, p₁, rfl, hmid, he, hd, hbs, hst⟩
    · rcases (processLine_eq_ok.1 hp').ended hm with ⟨hm', hb, rfl⟩ | ⟨ht, hd, rfl⟩
      · refine .inl ⟨hm', fun l' hl' => ?_, hst⟩
        rcases mem_cons.1 hl' with rfl | hl'
        · exact blank_stripCr.1 hb
        · exact hbs l' hl'
      · rw [lastHunkDone_iff] at hd
        exact .inr ⟨[], l, ls, p, rfl, rfl, (headerText_stripCr _ l).symm.trans ht,
          lastHunkDone_iff.2 hd, hbs, hst⟩
    · exact .inr ⟨l :: mid, e, bs, p₁, rfl, by rw [pushLines_cons, hp', ok_bind, hmid], he, hd,
        hbs, hst⟩

/-- The ways an unterminated rest can finish the patch. -/
theorem finish_eq_ok {r : Str}
    (h : ({ p with lineBuffer := r } : StreamingPatchParser).finish = .ok q) :
    (trim r = endPatchMarker ∧ p.LastHunkDone ∧
      q.state = { p.state with mode := .endedPatch }) ∨
    (Blank r ∧ p.state.mode = .endedPatch ∧ q.state = p.state) := by
  by_cases hr : trim r = endPatchMarker
  · obtain ⟨hd, rfl⟩ := (finish_endPatch hr).1 h
    exact .inl ⟨hr, hd, rfl⟩
  · right
    obtain ⟨p', hp', h⟩ := bind_eq_ok.1 h
    have hended : p'.state.mode = .endedPatch ∧ p' = q := by
      split at h
      · next hm => exact ⟨hm, Except.ok.inj h⟩
      · cases h
    obtain ⟨hm, rfl⟩ := hended
    unfold finishLine at hp'
    split at hp'
    · next hb =>
      cases hp'
      obtain rfl : r = [] := List.isEmpty_iff.1 hb
      exact ⟨fun c hc => (not_mem_nil hc).elim, hm, rfl⟩
    · rcases (processLine_eq_ok.1 hp').ended hm with ⟨hm', hb, rfl⟩ | ⟨ht, -, -⟩
      · exact ⟨hb, hm', rfl⟩
      · exact absurd (trim_of_headerText ht) hr

end StreamingPatchParser

/-! ## Parsing a trimmed text -/

/-- The parser after the begin marker. -/
def startedParser : StreamingPatchParser := { state := { mode := .startedPatch }, lineNumber := 1 }

variable {f : Str}

theorem pushLine_begin (hf : trim f = beginPatchMarker) :
    ({} : StreamingPatchParser).pushLine f = .ok startedParser :=
  processLine_eq_ok.2 (.beginPatch rfl ((trim_stripCr f).trans hf))

theorem checkPatchBoundaries_ok {e : Str} {mid : List Str} (hf : trim f = beginPatchMarker)
    (he : trim e = endPatchMarker) :
    checkPatchBoundariesLenient (f :: mid ++ [e]) = .ok (f :: mid ++ [e]) := by
  have hlast : (f :: mid ++ [e]).getLast? = some e := getLast?_concat
  apply checkPatchBoundariesLenient_of_strict
  unfold checkPatchBoundariesStrict
  rw [hlast]
  simp only [cons_append, head?_cons, Option.map_some, checkStartAndEndLinesStrict, hf, he,
    and_self, ↓reduceIte, Except.map]

/-- **`parse_patch` runs the parser over the lines between the markers, each stripped of one
carriage return before the parser strips another one.** -/
theorem parsePatch_eq_ok {t e : Str} {mid : List Str} {a : ApplyPatchArgs}
    (ht : trim t = unlines (f :: mid) e) (hf : trim f = beginPatchMarker)
    (he : trim e = endPatchMarker) (hls : ∀ l ∈ f :: mid, '\n' ∉ l) (hn : '\n' ∉ e) :
    parsePatch t = .ok a ↔
      ∃ p, ({} : StreamingPatchParser).pushLines ((f :: mid).map stripCr) = .ok p ∧
        p.LastHunkDone ∧
        a = { patch := unlines ((f :: mid).map stripCr) e, hunks := p.state.hunks,
              workdir := none, environmentId := p.state.environmentId } := by
  have hne : e ≠ [] := by
    rintro rfl
    cases he
  have hlines : lines (trim t) = (f :: mid).map stripCr ++ [e] := by
    rw [ht, lines_unlines hls hn hne]
  have hf' : trim (stripCr f) = beginPatchMarker := (trim_stripCr f).trans hf
  have hls' : ∀ l ∈ (f :: mid).map stripCr, '\n' ∉ l := by
    intro l hl
    obtain ⟨l', hl', rfl⟩ := mem_map.1 hl
    exact fun h => hls l' hl' (mem_of_mem_stripCr h)
  have hparse : parsePatch t = do
      let p ← ({} : StreamingPatchParser).pushLines ((f :: mid).map stripCr)
      let q ← ({ p with lineBuffer := e } : StreamingPatchParser).finish
      return { patch := unlines ((f :: mid).map stripCr) e, hunks := q.state.hunks,
               workdir := none, environmentId := q.state.environmentId } := by
    have hcheck : checkPatchBoundariesLenient (lines (trim t)) =
        .ok ((f :: mid).map stripCr ++ [e]) := by
      rw [hlines, map_cons]
      exact checkPatchBoundaries_ok hf' he
    simp only [parsePatch, parseInStrictMode, parsePatchText, Bool.false_eq_true, ↓reduceIte,
      hcheck, ok_bind, joinNl_concat]
    rw [pushDelta_unlines rfl hls' hn]
    cases ({} : StreamingPatchParser).pushLines ((f :: mid).map stripCr) <;> rfl
  rw [hparse, bind_eq_ok]
  constructor
  · rintro ⟨p, hp, h⟩
    obtain ⟨q, hq, h⟩ := bind_eq_ok.1 h
    obtain ⟨hd, rfl⟩ := (finish_endPatch he).1 hq
    cases h
    exact ⟨p, hp, hd, rfl⟩
  · rintro ⟨p, hp, hd, rfl⟩
    refine ⟨p, hp, ?_⟩
    rw [(finish_endPatch he).2 ⟨hd, rfl⟩]
    rfl

end Codex.ApplyPatch
