import Codex.Base.Chunks
import Codex.Text.Lines

/-!
# Tags that stand alone on a line

`tagged_line_parser.rs`: `TaggedLineParser` buffers the beginning of a line
until it can say that the line is no tag, and passes the rest of such a line on
as it comes. The segments that it gives out differ with the chunks only in where
text is cut: character by character they are those of the lines of the whole
text (`taggedLine_run`).
-/

namespace Codex.StreamParser

open List Codex.Text

structure TagSpec (τ : Type) where
  opening : Str
  closing : Str
  tag : τ

inductive TaggedLineSegment (τ : Type) where
  | normal (text : Str)
  | tagStart (tag : τ)
  | tagDelta (tag : τ) (text : Str)
  | tagEnd (tag : τ)
  deriving DecidableEq

structure TaggedLineParser (τ : Type) where
  activeTag : Option τ := none
  detectTag : Bool := true
  lineBuffer : Str := []

section

variable {τ : Type} [DecidableEq τ]

/-! ## The parser -/

def pushSegment (segments : List (TaggedLineSegment τ)) (segment : TaggedLineSegment τ) :
    List (TaggedLineSegment τ) :=
  match segment with
  | .normal delta =>
    if delta = [] then segments
    else
      match segments.getLast? with
      | some (.normal existing) => segments.dropLast ++ [.normal (existing ++ delta)]
      | _ => segments ++ [.normal delta]
  | .tagDelta tag delta =>
    if delta = [] then segments
    else
      match segments.getLast? with
      | some (.tagDelta existingTag existing) =>
        if existingTag = tag then segments.dropLast ++ [.tagDelta existingTag (existing ++ delta)]
        else segments ++ [.tagDelta tag delta]
      | _ => segments ++ [.tagDelta tag delta]
  | .tagStart tag => segments ++ [.tagStart tag]
  | .tagEnd tag => segments ++ [.tagEnd tag]

/-- The segment that `push_text` makes of a text. -/
def textSegment : Option τ → Str → TaggedLineSegment τ
  | some tag, text => .tagDelta tag text
  | none, text => .normal text

variable (specs : List (TagSpec τ))

def isTagPrefix (slug : Str) : Bool :=
  specs.any fun spec => trimEnd slug <+: spec.opening ∨ trimEnd slug <+: spec.closing

def matchOpen (slug : Str) : Option τ :=
  (specs.find? fun spec => spec.opening = slug).map (·.tag)

def matchClose (slug : Str) : Option τ :=
  (specs.find? fun spec => spec.closing = slug).map (·.tag)

/-- `line.strip_suffix('\n')`, or the line itself. -/
def stripNewline (line : Str) : Str := if line.getLast? = some '\n' then line.dropLast else line

/-- What a buffered line does, as `finish_line` and `finish` have it: the tag that is open
afterwards, and the segment. -/
def lineSegment (active : Option τ) (line : Str) : Option τ × TaggedLineSegment τ :=
  let slug := trimEnd (trimStart (stripNewline line))
  match matchOpen specs slug, active with
  | some tag, none => (some tag, .tagStart tag)
  | _, _ =>
    match matchClose specs slug with
    | some tag => if active = some tag then (none, .tagEnd tag) else (active, textSegment active line)
    | none => (active, textSegment active line)

def TaggedLineParser.finishLine (parser : TaggedLineParser τ)
    (segments : List (TaggedLineSegment τ)) :
    TaggedLineParser τ × List (TaggedLineSegment τ) :=
  let (active, segment) := lineSegment specs parser.activeTag parser.lineBuffer
  (⟨active, true, []⟩, pushSegment segments segment)

/-- The variables of the loop of `parse`. -/
structure Parsing (τ : Type) where
  parser : TaggedLineParser τ
  run : Str
  segments : List (TaggedLineSegment τ)

def Parsing.pushText (st : Parsing τ) (text : Str) : List (TaggedLineSegment τ) :=
  pushSegment st.segments (textSegment st.parser.activeTag text)

/-- One character of the loop of `parse`. -/
def Parsing.step (st : Parsing τ) (ch : Char) : Parsing τ :=
  if st.parser.detectTag then
    let segments := if st.run = [] then st.segments else st.pushText st.run
    let buffered := st.parser.lineBuffer ++ [ch]
    if ch = '\n' then
      let (parser, segments) :=
        TaggedLineParser.finishLine specs { st.parser with lineBuffer := buffered } segments
      ⟨parser, [], segments⟩
    else
      let slug := trimStart buffered
      if slug = [] || isTagPrefix specs slug then
        ⟨{ st.parser with lineBuffer := buffered }, [], segments⟩
      else
        ⟨{ st.parser with lineBuffer := [], detectTag := false }, [],
          pushSegment segments (textSegment st.parser.activeTag buffered)⟩
  else if ch = '\n' then
    ⟨{ st.parser with detectTag := true }, [], st.pushText (st.run ++ [ch])⟩
  else { st with run := st.run ++ [ch] }

def TaggedLineParser.parse (parser : TaggedLineParser τ) (delta : Str) :
    TaggedLineParser τ × List (TaggedLineSegment τ) :=
  let st := delta.foldl (Parsing.step specs) ⟨parser, [], []⟩
  (st.parser, if st.run = [] then st.segments else st.pushText st.run)

def closingSegments : Option τ → List (TaggedLineSegment τ)
  | some tag => [.tagEnd tag]
  | none => []

def TaggedLineParser.finish (parser : TaggedLineParser τ) : List (TaggedLineSegment τ) :=
  if parser.lineBuffer = [] then closingSegments parser.activeTag
  else
    let (active, segment) := lineSegment specs parser.activeTag parser.lineBuffer
    pushSegment [] segment ++ closingSegments active

/-- The parser as a reader of chunks. -/
def taggedLineReader : Reader (TaggedLineParser τ) Char (List (TaggedLineSegment τ)) where
  push := TaggedLineParser.parse specs
  finish := TaggedLineParser.finish specs
  glue := (· ++ ·)

/-! ## The reference reading -/

/-- The segments of the lines of a text: terminated lines, and a rest without newline. A block
that is still open ends with the text. -/
def readLines : Option τ → List Str → Str → List (TaggedLineSegment τ)
  | active, [], rest =>
    if rest = [] then closingSegments active
    else
      (lineSegment specs active rest).2 ::
        closingSegments (lineSegment specs active rest).1
  | active, line :: lines, rest =>
    (lineSegment specs active (line ++ ['\n'])).2 ::
      readLines (lineSegment specs active (line ++ ['\n'])).1 lines rest

def readTagged (t : Str) : List (TaggedLineSegment τ) :=
  readLines specs none (splitNl t).1 (splitNl t).2

/-! ## Character by character -/

/-- A piece of a segment that no chunk boundary can cut. -/
inductive Atom (τ : Type) where
  | text (active : Option τ) (c : Char)
  | start (tag : τ)
  | stop (tag : τ)
  deriving DecidableEq

def TaggedLineSegment.atoms : TaggedLineSegment τ → List (Atom τ)
  | .normal text => text.map (.text none)
  | .tagDelta tag text => text.map (.text (some tag))
  | .tagStart tag => [.start tag]
  | .tagEnd tag => [.stop tag]

def atoms (segments : List (TaggedLineSegment τ)) : List (Atom τ) :=
  segments.flatMap TaggedLineSegment.atoms

variable {specs} {active : Option τ} {line text rest : Str}
  {segments segments' : List (TaggedLineSegment τ)} {segment : TaggedLineSegment τ}

omit [DecidableEq τ] in
@[simp] theorem atoms_nil : atoms ([] : List (TaggedLineSegment τ)) = [] := rfl

omit [DecidableEq τ] in
@[simp] theorem atoms_cons : atoms (segment :: segments) = segment.atoms ++ atoms segments := rfl

omit [DecidableEq τ] in
@[simp] theorem atoms_append : atoms (segments ++ segments') = atoms segments ++ atoms segments' := by
  simp [atoms]

omit [DecidableEq τ] in
@[simp] theorem textSegment_atoms : (textSegment active text).atoms = text.map (.text active) := by
  cases active with
  | none => rfl
  | some tag => rfl

/-- Joining text with the last segment does not change the characters. -/
@[simp] theorem atoms_pushSegment :
    atoms (pushSegment segments segment) = atoms segments ++ segment.atoms := by
  have hlast : ∀ last, segments.getLast? = some last →
      atoms segments = atoms segments.dropLast ++ last.atoms := by
    intro last h
    obtain ⟨front, rfl⟩ := getLast?_eq_some_iff.1 h
    simp
  cases segment with
  | normal delta =>
    simp only [pushSegment]
    split
    · next h => simp [h, TaggedLineSegment.atoms]
    · split
      · next existing h => simp [hlast _ h, TaggedLineSegment.atoms]
      · simp
  | tagDelta tag delta =>
    simp only [pushSegment]
    split
    · next h => simp [h, TaggedLineSegment.atoms]
    · split
      · next existingTag existing h =>
        split
        · next htag => simp [hlast _ h, TaggedLineSegment.atoms, htag]
        · simp
      · simp
  | tagStart tag => simp [pushSegment]
  | tagEnd tag => simp [pushSegment]

/-! ## A line that is no tag -/

theorem stripNewline_concat (line : Str) : stripNewline (line ++ ['\n']) = line := by
  simp [stripNewline]

theorem stripNewline_of_notMem (h : '\n' ∉ line) : stripNewline line = line := by
  rw [stripNewline, if_neg]
  intro hlast
  exact h (mem_of_getLast? hlast)

theorem trimEnd_trimStart (s : Str) : trimEnd (trimStart s) = trim s := by
  induction s with
  | nil => rfl
  | cons c s ih =>
    by_cases hc : isWhitespace c = true
    · have hstart : trimStart (c :: s) = trimStart s := by simp [trimStart, hc]
      rw [hstart, ih, ← trim_trimStart (c :: s), hstart, trim_trimStart]
    · have hstart : trimStart (c :: s) = c :: s := by simp [trimStart, hc]
      have hfront : ∃ r, trimEnd (c :: s) = c :: r := by
        by_cases hs : Blank s
        · refine ⟨[], ?_⟩
          rw [← singleton_append, trimEnd_append_blank hs]
          simp [trimEnd, rdropWhile_singleton, hc]
        · exact ⟨trimEnd s, trimEnd_append_of_not_blank (s := [c]) hs⟩
      obtain ⟨r, hr⟩ := hfront
      rw [hstart, trim, hr]
      simp [trimStart, hc]

theorem trimEnd_prefix_append (s t : Str) : trimEnd s <+: trimEnd (s ++ t) := by
  by_cases ht : Blank t
  · rw [trimEnd_append_blank ht]
  · rw [trimEnd_append_of_not_blank ht]
    exact (List.rdropWhile_prefix _ s).trans ⟨_, rfl⟩

/-- A beginning that begins no tag is not the beginning of a tag line. -/
theorem lineSegment_of_not_prefix {begin : Str} (hslug : trimStart begin ≠ [])
    (hpre : isTagPrefix specs (trimStart begin) = false)
    (hline : stripNewline text = begin ++ rest) :
    lineSegment specs active text = (active, textSegment active text) := by
  have hblank : ¬ Blank begin := fun h => hslug (trimStart_eq_nil.2 h)
  have hbegins : trimEnd (trimStart begin) <+: trimEnd (trimStart (stripNewline text)) := by
    rw [hline, trimStart_append_of_not_blank hblank]
    exact trimEnd_prefix_append _ _
  simp only [isTagPrefix, any_eq_false, decide_eq_true_eq, not_or] at hpre
  have hopen : matchOpen specs (trimEnd (trimStart (stripNewline text))) = none := by
    simp only [matchOpen, Option.map_eq_none_iff, find?_eq_none, decide_eq_true_eq]
    rintro spec hspec heq
    exact (hpre spec hspec).1 (heq ▸ hbegins)
  have hclose : matchClose specs (trimEnd (trimStart (stripNewline text))) = none := by
    simp only [matchClose, Option.map_eq_none_iff, find?_eq_none, decide_eq_true_eq]
    rintro spec hspec heq
    exact (hpre spec hspec).2 (heq ▸ hbegins)
  simp [lineSegment, hopen, hclose]

/-- The rest of a line that is no tag, and the lines that follow. -/
def readRest (specs : List (TagSpec τ)) (active : Option τ) (t : Str) : List (TaggedLineSegment τ) :=
  match (splitNl t).1 with
  | [] => textSegment active (splitNl t).2 :: closingSegments active
  | line :: lines =>
    textSegment active (line ++ ['\n']) :: readLines specs active lines (splitNl t).2

def readFrom (specs : List (TagSpec τ)) (active : Option τ) (t : Str) : List (TaggedLineSegment τ) :=
  readLines specs active (splitNl t).1 (splitNl t).2

theorem readFrom_newline (h : '\n' ∉ line) (t : Str) :
    readFrom specs active (line ++ '\n' :: t) =
      (lineSegment specs active (line ++ ['\n'])).2 ::
        readFrom specs (lineSegment specs active (line ++ ['\n'])).1 t := by
  simp only [readFrom, splitNl_line h, readLines]

theorem readRest_newline (h : '\n' ∉ line) (t : Str) :
    readRest specs active (line ++ '\n' :: t) =
      textSegment active (line ++ ['\n']) :: readFrom specs active t := by
  simp only [readRest, splitNl_line h, readFrom]

theorem readFrom_last (h : '\n' ∉ line) (hne : line ≠ []) :
    readFrom specs active line =
      (lineSegment specs active line).2 :: closingSegments (lineSegment specs active line).1 := by
  simp only [readFrom, splitNl_of_not_mem h, readLines, if_neg hne]

theorem readRest_last (h : '\n' ∉ line) :
    readRest specs active line = textSegment active line :: closingSegments active := by
  simp only [readRest, splitNl_of_not_mem h]

/-- A text has a first line, or no newline at all. -/
theorem first_line_cases (t : Str) :
    '\n' ∉ t ∨ ∃ line t', '\n' ∉ line ∧ t = line ++ '\n' :: t' := by
  by_cases h : '\n' ∈ t
  · obtain ⟨line, t', rfl, hline⟩ := eq_append_cons_of_mem h
    exact .inr ⟨line, t', hline, rfl⟩
  · exact .inl h

theorem atoms_readRest_append {front : Str} (hfront : '\n' ∉ front) (t : Str) :
    atoms (readRest specs active (front ++ t)) =
      front.map (.text active) ++ atoms (readRest specs active t) := by
  rcases first_line_cases t with ht | ⟨line, t', hline, rfl⟩
  · have hboth : '\n' ∉ front ++ t := by simp [hfront, ht]
    rw [readRest_last hboth, readRest_last ht]
    simp
  · have hboth : '\n' ∉ front ++ line := by simp [hfront, hline]
    rw [← List.append_assoc, readRest_newline hboth, readRest_newline hline]
    simp

/-- Once a line is known to be no tag, its buffered beginning is text. -/
theorem atoms_readFrom_of_not_prefix {begin : Str} (hnl : '\n' ∉ begin) (hslug : trimStart begin ≠ [])
    (hpre : isTagPrefix specs (trimStart begin) = false) (t : Str) :
    atoms (readFrom specs active (begin ++ t)) =
      begin.map (.text active) ++ atoms (readRest specs active t) := by
  have hne : begin ≠ [] := fun h => hslug (by rw [h]; rfl)
  rw [← atoms_readRest_append hnl]
  rcases first_line_cases t with ht | ⟨line, t', hline, rfl⟩
  · have hboth : '\n' ∉ begin ++ t := by simp [hnl, ht]
    rw [readRest_last hboth, readFrom_last hboth (by simp [hne]),
      lineSegment_of_not_prefix hslug hpre (stripNewline_of_notMem hboth)]
  · have hboth : '\n' ∉ begin ++ line := by simp [hnl, hline]
    rw [← List.append_assoc, readRest_newline hboth, readFrom_newline hboth,
      lineSegment_of_not_prefix hslug hpre (stripNewline_concat _)]

/-! ## The parser reads lines -/

/-- What a parser still gives out if `more` follows. -/
def TaggedLineParser.meaning (specs : List (TagSpec τ)) (parser : TaggedLineParser τ) (more : Str) :
    List (Atom τ) :=
  if parser.detectTag then atoms (readFrom specs parser.activeTag (parser.lineBuffer ++ more))
  else atoms (readRest specs parser.activeTag more)

/-- The line buffer holds the beginning of one line, and only while the line may be a tag. -/
structure TaggedLineParser.Buffering (parser : TaggedLineParser τ) : Prop where
  no_newline : '\n' ∉ parser.lineBuffer
  detecting : parser.detectTag = false → parser.lineBuffer = []

/-- What the loop has given out or will give out at its end. -/
def Parsing.emitted (st : Parsing τ) : List (Atom τ) :=
  atoms st.segments ++ st.run.map (.text st.parser.activeTag)

structure Parsing.Inv (st : Parsing τ) : Prop where
  buffering : st.parser.Buffering
  running : st.parser.detectTag = true → st.run = []

/-- One character gives out, now or later, what the reading of the text says. -/
theorem Parsing.step_meaning {st : Parsing τ} (h : st.Inv) (ch : Char) (more : Str) :
    (st.step specs ch).Inv ∧
      (st.step specs ch).emitted ++ (st.step specs ch).parser.meaning specs more =
        st.emitted ++ st.parser.meaning specs (ch :: more) := by
  obtain ⟨⟨active, detect, buffer⟩, run, segments⟩ := st
  obtain ⟨⟨hnl, hdetect⟩, hrun⟩ := h
  simp only at hnl hdetect hrun
  cases detect with
  | true =>
    obtain rfl := hrun rfl
    by_cases hch : ch = '\n'
    · subst hch
      refine ⟨⟨⟨by simp [step, TaggedLineParser.finishLine], by
        simp [step, TaggedLineParser.finishLine]⟩, by simp [step, TaggedLineParser.finishLine]⟩, ?_⟩
      simp only [step, ↓reduceIte, TaggedLineParser.finishLine, emitted, map_nil,
        append_nil, TaggedLineParser.meaning, nil_append, atoms_pushSegment]
      rw [readFrom_newline hnl, atoms_cons, List.append_assoc]
    · have hbuf : '\n' ∉ buffer ++ [ch] := by simp [hnl, Ne.symm hch]
      by_cases hheld : (trimStart (buffer ++ [ch]) = [] || isTagPrefix specs (trimStart (buffer ++ [ch])))
          = true
      · have hstep : step specs ⟨⟨active, true, buffer⟩, [], segments⟩ ch =
            ⟨⟨active, true, buffer ++ [ch]⟩, [], segments⟩ := by
          simp only [step, ↓reduceIte, if_neg hch, if_pos hheld]
        rw [hstep]
        refine ⟨⟨⟨hbuf, nofun⟩, fun _ => rfl⟩, ?_⟩
        simp [emitted, TaggedLineParser.meaning]
      · have hstep : step specs ⟨⟨active, true, buffer⟩, [], segments⟩ ch =
            ⟨⟨active, false, []⟩, [], pushSegment segments (textSegment active (buffer ++ [ch]))⟩ := by
          simp only [step, ↓reduceIte, if_neg hch, if_neg hheld]
        rw [hstep]
        simp only [Bool.or_eq_true, decide_eq_true_eq, not_or, Bool.not_eq_true] at hheld
        refine ⟨⟨⟨by simp, fun _ => rfl⟩, fun _ => rfl⟩, ?_⟩
        have hread : atoms (readFrom specs active (buffer ++ [ch] ++ more)) = _ :=
          atoms_readFrom_of_not_prefix hbuf hheld.1 hheld.2 more
        rw [List.append_assoc, singleton_append] at hread
        simp [emitted, TaggedLineParser.meaning, hread]
  | false =>
    obtain rfl := hdetect rfl
    by_cases hch : ch = '\n'
    · subst hch
      refine ⟨⟨⟨by simp [step], by simp [step]⟩, by simp [step]⟩, ?_⟩
      have hread : readRest specs active ('\n' :: more) = _ := readRest_newline not_mem_nil more
      simp [step, emitted, pushText, TaggedLineParser.meaning, hread]
    · have hfront : '\n' ∉ [ch] := by simp [Ne.symm hch]
      have hread : atoms (readRest specs active (ch :: more)) = _ :=
        atoms_readRest_append hfront more
      refine ⟨⟨⟨by simp [step, hch], by simp [step, hch]⟩, by simp [step, hch]⟩, ?_⟩
      simp [step, hch, emitted, TaggedLineParser.meaning, hread]

theorem Parsing.foldl_meaning {st : Parsing τ} (h : st.Inv) (delta more : Str) :
    (delta.foldl (step specs) st).Inv ∧
      (delta.foldl (step specs) st).emitted ++
          (delta.foldl (step specs) st).parser.meaning specs more =
        st.emitted ++ st.parser.meaning specs (delta ++ more) := by
  induction delta generalizing st with
  | nil => exact ⟨h, rfl⟩
  | cons ch delta ih =>
    obtain ⟨hstep, hmean⟩ : (st.step specs ch).Inv ∧ _ := step_meaning h ch (delta ++ more)
    obtain ⟨hinv, hrest⟩ := ih hstep
    exact ⟨hinv, hrest.trans hmean⟩

theorem TaggedLineParser.Buffering.parse_meaning {parser : TaggedLineParser τ} (h : parser.Buffering)
    (delta more : Str) :
    (parser.parse specs delta).1.Buffering ∧
      atoms (parser.parse specs delta).2 ++ (parser.parse specs delta).1.meaning specs more =
        parser.meaning specs (delta ++ more) := by
  have hstart : Parsing.Inv (⟨parser, [], []⟩ : Parsing τ) := ⟨h, fun _ => rfl⟩
  obtain ⟨hinv, hmean⟩ : (delta.foldl (Parsing.step specs) ⟨parser, [], []⟩).Inv ∧ _ :=
    Parsing.foldl_meaning hstart delta more
  refine ⟨hinv.buffering, ?_⟩
  simp only [Parsing.emitted, atoms_nil, map_nil, append_nil, nil_append] at hmean
  rw [← hmean]
  congr 1
  simp only [parse]
  split
  · next hrun => simp [hrun]
  · simp [Parsing.pushText]

theorem TaggedLineParser.Buffering.finish_meaning {parser : TaggedLineParser τ} (h : parser.Buffering) :
    atoms (parser.finish specs) = parser.meaning specs [] := by
  obtain ⟨active, detect, buffer⟩ := parser
  obtain ⟨hnl, hdetect⟩ := h
  simp only at hnl hdetect
  simp only [finish, meaning, append_nil]
  cases detect with
  | true =>
    split
    · next hbuf => simp [hbuf, readFrom, readLines]
    · next hbuf =>
      rw [if_pos rfl, readFrom_last hnl hbuf]
      simp
  | false =>
    obtain rfl := hdetect rfl
    simp [readRest, splitNl]

/-- **The chunks only decide where text is cut.** Character by character, the parser gives out the
lines of the whole text. -/
theorem taggedLine_run (specs : List (TagSpec τ)) (chunks : List Str) :
    atoms ((taggedLineReader specs).run {} chunks) = atoms (readTagged specs chunks.flatten) := by
  have hmeaning : (taggedLineReader specs).Meaning TaggedLineParser.Buffering atoms (· ++ ·)
      (TaggedLineParser.meaning specs) :=
    ⟨fun _ _ => atoms_append, fun _ h => h.finish_meaning,
      fun _ chunk h => (h.parse_meaning chunk []).1,
      fun _ chunk more h => (h.parse_meaning chunk more).2⟩
  exact Reader.run_eq hmeaning ⟨by simp, by simp⟩ chunks

end

end Codex.StreamParser
