import Codex.StreamParser.HiddenTag
import Codex.StreamParser.TaggedLine

/-!
# Assistant text

`assistant_text.rs` stacks two parsers: `CitationStreamParser` hides citations,
and in plan mode `ProposedPlanParser` takes the text that is left and separates
the plan blocks. The whole result is `readAssistantText` of the text, for every
way to cut it into chunks (`assistantText_run`).
-/

namespace Codex.StreamParser

open List Codex.Text

/-! ## Citations -/

inductive CitationTag where
  | citation
  deriving DecidableEq

def citationOpen : Str := "<oai-mem-citation>".toList

def citationClose : Str := "</oai-mem-citation>".toList

def citationSpec : InlineTagSpec CitationTag where
  tag := .citation
  opening := citationOpen
  closing := citationClose
  opening_ne := by decide
  closing_ne := by decide

abbrev CitationStreamParser := InlineHiddenTagParser CitationTag

/-- The bodies of the tags, as both methods of `CitationStreamParser` give them out. -/
def citationChunk (inner : StreamTextChunk (ExtractedInlineTag CitationTag)) : StreamTextChunk Str :=
  ⟨inner.visibleText, inner.extracted.map (·.content)⟩

def CitationStreamParser.pushStr (parser : CitationStreamParser) (chunk : Str) :
    CitationStreamParser × StreamTextChunk Str :=
  let (parser, inner) := InlineHiddenTagParser.pushStr [citationSpec] parser chunk
  (parser, citationChunk inner)

def CitationStreamParser.finish (parser : CitationStreamParser) : StreamTextChunk Str :=
  citationChunk (InlineHiddenTagParser.finish parser)

def citationReader : Reader CitationStreamParser Char (StreamTextChunk Str) where
  push := CitationStreamParser.pushStr
  finish := CitationStreamParser.finish
  glue := StreamTextChunk.append

/-! ## Proposed plans -/

inductive PlanTag where
  | proposedPlan
  deriving DecidableEq

def openTag : Str := "<proposed_plan>".toList

def closeTag : Str := "</proposed_plan>".toList

def planSpec : TagSpec PlanTag := ⟨openTag, closeTag, .proposedPlan⟩

inductive ProposedPlanSegment where
  | normal (text : Str)
  | proposedPlanStart
  | proposedPlanDelta (text : Str)
  | proposedPlanEnd
  deriving DecidableEq

abbrev ProposedPlanParser := TaggedLineParser PlanTag

def mapSegment : TaggedLineSegment PlanTag → ProposedPlanSegment
  | .normal text => .normal text
  | .tagStart .proposedPlan => .proposedPlanStart
  | .tagDelta .proposedPlan text => .proposedPlanDelta text
  | .tagEnd .proposedPlan => .proposedPlanEnd

/-- The text that a segment adds to the visible text. -/
def ProposedPlanSegment.visible : ProposedPlanSegment → Str
  | .normal text => text
  | _ => []

def mapSegments (segments : List (TaggedLineSegment PlanTag)) :
    StreamTextChunk ProposedPlanSegment :=
  let mapped := segments.map mapSegment
  ⟨mapped.flatMap ProposedPlanSegment.visible, mapped⟩

def ProposedPlanParser.pushStr (parser : ProposedPlanParser) (chunk : Str) :
    ProposedPlanParser × StreamTextChunk ProposedPlanSegment :=
  let (parser, segments) := TaggedLineParser.parse [planSpec] parser chunk
  (parser, mapSegments segments)

def ProposedPlanParser.finish (parser : ProposedPlanParser) :
    StreamTextChunk ProposedPlanSegment :=
  mapSegments (TaggedLineParser.finish [planSpec] parser)

/-! ## The two together -/

structure AssistantTextChunk where
  visibleText : Str := []
  citations : List Str := []
  planSegments : List ProposedPlanSegment := []
  deriving DecidableEq

def AssistantTextChunk.append (c c' : AssistantTextChunk) : AssistantTextChunk :=
  ⟨c.visibleText ++ c'.visibleText, c.citations ++ c'.citations, c.planSegments ++ c'.planSegments⟩

structure AssistantTextStreamParser where
  planMode : Bool
  citations : CitationStreamParser := {}
  plan : ProposedPlanParser := {}

namespace AssistantTextStreamParser

def new (planMode : Bool) : AssistantTextStreamParser := { planMode := planMode }

def parseVisibleText (parser : AssistantTextStreamParser) (visibleText : Str) :
    AssistantTextStreamParser × AssistantTextChunk :=
  if parser.planMode then
    let (plan, chunk) := ProposedPlanParser.pushStr parser.plan visibleText
    ({ parser with plan := plan },
      { visibleText := chunk.visibleText, planSegments := chunk.extracted })
  else (parser, { visibleText := visibleText })

def pushStr (parser : AssistantTextStreamParser) (chunk : Str) :
    AssistantTextStreamParser × AssistantTextChunk :=
  let (citations, citationChunk) := CitationStreamParser.pushStr parser.citations chunk
  let (parser, out) := parseVisibleText { parser with citations := citations }
    citationChunk.visibleText
  (parser, { out with citations := citationChunk.extracted })

def finish (parser : AssistantTextStreamParser) : AssistantTextChunk :=
  let citationChunk := CitationStreamParser.finish parser.citations
  let (parser, out) := parser.parseVisibleText citationChunk.visibleText
  let out :=
    if parser.planMode then
      let tail := ProposedPlanParser.finish parser.plan
      { out with
        visibleText := out.visibleText ++ tail.visibleText
        planSegments := out.planSegments ++ tail.extracted }
    else out
  { out with citations := citationChunk.extracted }

end AssistantTextStreamParser

/-- The parser as a reader of chunks: `run` concatenates all outputs. -/
def assistantTextReader : Reader AssistantTextStreamParser Char AssistantTextChunk where
  push := AssistantTextStreamParser.pushStr
  finish := AssistantTextStreamParser.finish
  glue := AssistantTextChunk.append

/-! ## The reference reading -/

/-- Plan segments of the lines of a text, `inside` a block or not. A line is a tag if its trimmed
content is the tag that can stand there: the opening one outside a block, the closing one inside.
Lines inside a block are its deltas, all others are normal text, and a block that is still open
ends with the text. -/
def readPlanLines : Bool → List Str → Str → List ProposedPlanSegment
  | false, [], rest =>
    if rest = [] then []
    else if trim rest = openTag then [.proposedPlanStart, .proposedPlanEnd]
    else [.normal rest]
  | true, [], rest =>
    if rest = [] then [.proposedPlanEnd]
    else if trim rest = closeTag then [.proposedPlanEnd]
    else [.proposedPlanDelta rest, .proposedPlanEnd]
  | false, line :: lines, rest =>
    if trim line = openTag then .proposedPlanStart :: readPlanLines true lines rest
    else .normal (line ++ ['\n']) :: readPlanLines false lines rest
  | true, line :: lines, rest =>
    if trim line = closeTag then .proposedPlanEnd :: readPlanLines false lines rest
    else .proposedPlanDelta (line ++ ['\n']) :: readPlanLines true lines rest

def readPlan (t : Str) : List ProposedPlanSegment :=
  readPlanLines false (splitNl t).1 (splitNl t).2

/-- Citations are taken out first; in plan mode what is left is read line by line. -/
def readAssistantText (planMode : Bool) (t : Str) : AssistantTextChunk :=
  let cited := readHidden citationSpec t
  let bodies := cited.extracted.map (·.content)
  if planMode then
    let segments := readPlan cited.visibleText
    ⟨segments.flatMap ProposedPlanSegment.visible, bodies, segments⟩
  else ⟨cited.visibleText, bodies, []⟩

/-- Adjacent normal texts and adjacent deltas joined; empty texts left out. -/
def mergeInto (segments : List ProposedPlanSegment) : ProposedPlanSegment → List ProposedPlanSegment
  | .normal text =>
    if text = [] then segments
    else
      match segments.getLast? with
      | some (.normal before) => segments.dropLast ++ [.normal (before ++ text)]
      | _ => segments ++ [.normal text]
  | .proposedPlanDelta text =>
    if text = [] then segments
    else
      match segments.getLast? with
      | some (.proposedPlanDelta before) => segments.dropLast ++ [.proposedPlanDelta (before ++ text)]
      | _ => segments ++ [.proposedPlanDelta text]
  | .proposedPlanStart => segments ++ [.proposedPlanStart]
  | .proposedPlanEnd => segments ++ [.proposedPlanEnd]

def mergeSegments (segments : List ProposedPlanSegment) : List ProposedPlanSegment :=
  segments.foldl mergeInto []

def AssistantTextChunk.merged (chunk : AssistantTextChunk) : AssistantTextChunk :=
  { chunk with planSegments := mergeSegments chunk.planSegments }

/-! ## Citations and plans, each alone -/

theorem citationChunk_append (c c' : StreamTextChunk (ExtractedInlineTag CitationTag)) :
    citationChunk (c.append c') = (citationChunk c).append (citationChunk c') := by
  simp [citationChunk, StreamTextChunk.append]

theorem citation_run (chunks : List Str) :
    citationReader.run {} chunks = citationChunk (readHidden citationSpec chunks.flatten) := by
  have hmeaning : citationReader.Meaning (InlineHiddenTagParser.Settled citationSpec) id
      StreamTextChunk.append (fun parser more => citationChunk (meaning citationSpec parser more)) := by
    refine ⟨fun _ _ => rfl, fun _ h => ?_, fun _ chunk h => (pushStr_meaning h chunk []).1,
      fun _ chunk more h => ?_⟩
    · exact congrArg citationChunk (finish_meaning h)
    · exact (citationChunk_append _ _).symm.trans
        (congrArg citationChunk (pushStr_meaning h chunk more).2)
  exact Reader.run_eq hmeaning settled_initial chunks

theorem lineSegment_plan_outside {line text : Str} (h : stripNewline text = line) :
    lineSegment [planSpec] none text =
      if trim line = openTag then (some .proposedPlan, .tagStart .proposedPlan)
      else (none, .normal text) := by
  simp only [lineSegment, h, trimEnd_trimStart, matchOpen, matchClose, planSpec, find?_cons,
    find?_nil]
  by_cases hopen : trim line = openTag
  · simp [hopen]
  · have hopen' : ¬ openTag = trim line := fun e => hopen e.symm
    simp only [hopen, hopen', decide_false, ↓reduceIte, Option.map_none]
    by_cases hclose : closeTag = trim line
    · simp [hclose, textSegment]
    · simp [hclose, textSegment]

theorem lineSegment_plan_inside {line text : Str} (h : stripNewline text = line) :
    lineSegment [planSpec] (some .proposedPlan) text =
      if trim line = closeTag then (none, .tagEnd .proposedPlan)
      else (some .proposedPlan, .tagDelta .proposedPlan text) := by
  simp only [lineSegment, h, trimEnd_trimStart, matchClose, planSpec, find?_cons,
    find?_nil]
  by_cases hclose : trim line = closeTag
  · simp [hclose]
  · have hclose' : ¬ closeTag = trim line := fun e => hclose e.symm
    simp [hclose, hclose', textSegment]

/-- The lines of a text, read with the one tag of `ProposedPlanParser`, are the plan segments. -/
theorem readLines_plan {lines : List Str} {rest : Str} (hrest : '\n' ∉ rest) :
    (readLines [planSpec] none lines rest).map mapSegment = readPlanLines false lines rest ∧
      (readLines [planSpec] (some .proposedPlan) lines rest).map mapSegment =
        readPlanLines true lines rest := by
  induction lines with
  | nil =>
    simp only [readLines, readPlanLines, lineSegment_plan_outside (stripNewline_of_notMem hrest),
      lineSegment_plan_inside (stripNewline_of_notMem hrest)]
    constructor
    · split
      · rfl
      · split
        · rfl
        · rfl
    · split
      · rfl
      · split
        · rfl
        · rfl
  | cons line lines ih =>
    simp only [readLines, readPlanLines, lineSegment_plan_outside (stripNewline_concat line),
      lineSegment_plan_inside (stripNewline_concat line)]
    constructor
    · split
      · rw [map_cons, ih.2]
        rfl
      · rw [map_cons, ih.1]
        rfl
    · split
      · rw [map_cons, ih.1]
        rfl
      · rw [map_cons, ih.2]
        rfl

theorem readTagged_plan (t : Str) : (readTagged [planSpec] t).map mapSegment = readPlan t :=
  (readLines_plan (not_mem_splitNl t).2).1

/-! ## Merging -/

def ProposedPlanSegment.atoms : ProposedPlanSegment → List (Atom PlanTag)
  | .normal text => text.map (.text none)
  | .proposedPlanDelta text => text.map (.text (some .proposedPlan))
  | .proposedPlanStart => [.start .proposedPlan]
  | .proposedPlanEnd => [.stop .proposedPlan]

def planAtoms (segments : List ProposedPlanSegment) : List (Atom PlanTag) :=
  segments.flatMap ProposedPlanSegment.atoms

theorem mapSegment_atoms (segment : TaggedLineSegment PlanTag) :
    (mapSegment segment).atoms = segment.atoms := by
  cases segment with
  | normal text => rfl
  | tagStart tag | tagDelta tag text | tagEnd tag => cases tag; rfl

theorem planAtoms_map (segments : List (TaggedLineSegment PlanTag)) :
    planAtoms (segments.map mapSegment) = atoms segments := by
  simp only [planAtoms, atoms, flatMap_map, mapSegment_atoms]

/-- The segment of one atom. -/
def Atom.segment : Atom PlanTag → ProposedPlanSegment
  | .text none c => .normal [c]
  | .text (some _) c => .proposedPlanDelta [c]
  | .start _ => .proposedPlanStart
  | .stop _ => .proposedPlanEnd

theorem mergeInto_normal_cons (segments : List ProposedPlanSegment) (c : Char) (text : Str) :
    mergeInto segments (.normal (c :: text)) =
      mergeInto (mergeInto segments (.normal [c])) (.normal text) := by
  by_cases ht : text = []
  · simp [mergeInto, ht]
  · simp only [mergeInto, cons_ne_nil, ↓reduceIte, ht]
    split
    · next before h => simp
    · next h => simp

theorem mergeInto_delta_cons (segments : List ProposedPlanSegment) (c : Char) (text : Str) :
    mergeInto segments (.proposedPlanDelta (c :: text)) =
      mergeInto (mergeInto segments (.proposedPlanDelta [c])) (.proposedPlanDelta text) := by
  by_cases ht : text = []
  · simp [mergeInto, ht]
  · simp only [mergeInto, cons_ne_nil, ↓reduceIte, ht]
    split
    · next before h => simp
    · next h => simp

/-- A segment is merged as its atoms are, one by one. -/
theorem mergeInto_atoms (segments : List ProposedPlanSegment) (segment : ProposedPlanSegment) :
    mergeInto segments segment =
      segment.atoms.foldl (fun merged atom => mergeInto merged atom.segment) segments := by
  cases segment with
  | normal text =>
    induction text generalizing segments with
    | nil => rfl
    | cons c text ih =>
      rw [mergeInto_normal_cons, ih]
      rfl
  | proposedPlanDelta text =>
    induction text generalizing segments with
    | nil => rfl
    | cons c text ih =>
      rw [mergeInto_delta_cons, ih]
      rfl
  | proposedPlanStart => rfl
  | proposedPlanEnd => rfl

/-- Merged segments depend on the atoms only. -/
theorem mergeSegments_eq (segments : List ProposedPlanSegment) :
    mergeSegments segments =
      (planAtoms segments).foldl (fun merged atom => mergeInto merged atom.segment) [] := by
  simp only [mergeSegments, planAtoms, foldl_flatMap, ← mergeInto_atoms]

/-- So does the visible text. -/
theorem visible_eq (segments : List ProposedPlanSegment) :
    segments.flatMap ProposedPlanSegment.visible =
      (planAtoms segments).filterMap fun atom =>
        match atom with
        | .text none c => some c
        | _ => none := by
  induction segments with
  | nil => rfl
  | cons segment segments ih =>
    have hone : segment.visible = segment.atoms.filterMap fun atom =>
        match atom with
        | .text none c => some c
        | _ => none := by
      cases segment with
      | normal text => simp [ProposedPlanSegment.visible, ProposedPlanSegment.atoms]
      | proposedPlanDelta text =>
        simp [ProposedPlanSegment.visible, ProposedPlanSegment.atoms]
      | proposedPlanStart => rfl
      | proposedPlanEnd => rfl
    rw [flatMap_cons, ih, hone]
    simp [planAtoms]

/-! ## The stacked parsers -/

/-- The pieces of visible text that the citation parser passes on, the last one at the end. -/
def visiblePieces : CitationStreamParser → List Str → List Str
  | parser, [] => [(CitationStreamParser.finish parser).visibleText]
  | parser, chunk :: chunks =>
    (CitationStreamParser.pushStr parser chunk).2.visibleText ::
      visiblePieces (CitationStreamParser.pushStr parser chunk).1 chunks

theorem flatten_visiblePieces (parser : CitationStreamParser) (chunks : List Str) :
    (visiblePieces parser chunks).flatten = (citationReader.run parser chunks).visibleText := by
  induction chunks generalizing parser with
  | nil => simp [visiblePieces, Reader.run, citationReader]
  | cons chunk chunks ih =>
    rw [visiblePieces, flatten_cons, ih]
    rfl

/-- Outside plan mode the citation parser is all there is. -/
theorem run_without_plan (citations : CitationStreamParser) (plan : ProposedPlanParser)
    (chunks : List Str) :
    assistantTextReader.run ⟨false, citations, plan⟩ chunks =
      ⟨(citationReader.run citations chunks).visibleText,
        (citationReader.run citations chunks).extracted, []⟩ := by
  induction chunks generalizing citations with
  | nil => rfl
  | cons chunk chunks ih =>
    have hpush : assistantTextReader.push ⟨false, citations, plan⟩ chunk =
        (⟨false, (CitationStreamParser.pushStr citations chunk).1, plan⟩,
          ⟨(CitationStreamParser.pushStr citations chunk).2.visibleText,
            (CitationStreamParser.pushStr citations chunk).2.extracted, []⟩) := rfl
    rw [Reader.run, hpush, ih]
    rfl

/-- In plan mode the line parser reads the visible pieces. -/
theorem run_with_plan (citations : CitationStreamParser) (plan : ProposedPlanParser)
    (chunks : List Str) :
    assistantTextReader.run ⟨true, citations, plan⟩ chunks =
      let segments := ((taggedLineReader [planSpec]).run plan (visiblePieces citations chunks)).map
        mapSegment
      ⟨segments.flatMap ProposedPlanSegment.visible, (citationReader.run citations chunks).extracted,
        segments⟩ := by
  induction chunks generalizing citations plan with
  | nil =>
    simp only [Reader.run, assistantTextReader, AssistantTextStreamParser.finish,
      AssistantTextStreamParser.parseVisibleText, ↓reduceIte, ProposedPlanParser.pushStr,
      ProposedPlanParser.finish, mapSegments, visiblePieces, taggedLineReader, citationReader,
      map_append, flatMap_append]
  | cons chunk chunks ih =>
    simp only [Reader.run, visiblePieces] at ih ⊢
    have hpush : assistantTextReader.push ⟨true, citations, plan⟩ chunk =
        (⟨true, (CitationStreamParser.pushStr citations chunk).1,
            (TaggedLineParser.parse [planSpec] plan
              (CitationStreamParser.pushStr citations chunk).2.visibleText).1⟩,
          ⟨((TaggedLineParser.parse [planSpec] plan
              (CitationStreamParser.pushStr citations chunk).2.visibleText).2.map mapSegment).flatMap
              ProposedPlanSegment.visible,
            (CitationStreamParser.pushStr citations chunk).2.extracted,
            (TaggedLineParser.parse [planSpec] plan
              (CitationStreamParser.pushStr citations chunk).2.visibleText).2.map mapSegment⟩) := rfl
    rw [hpush, ih]
    simp only [assistantTextReader, AssistantTextChunk.append, taggedLineReader, citationReader,
      StreamTextChunk.append, map_append, flatMap_append]

/-- **Chunks do not matter.** For every way to cut a text, the outputs of `push_str` and `finish`
put together are the reference reading of the text. -/
theorem assistantText_run (planMode : Bool) (chunks : List Str) :
    (assistantTextReader.run (.new planMode) chunks).merged =
      (readAssistantText planMode chunks.flatten).merged := by
  have hcited := citation_run chunks
  cases planMode with
  | false =>
    rw [AssistantTextStreamParser.new, run_without_plan, hcited]
    rfl
  | true =>
    have hpieces := flatten_visiblePieces {} chunks
    rw [hcited] at hpieces
    -- both lists of segments have the same atoms, and nothing else is looked at
    have hatoms : planAtoms (((taggedLineReader [planSpec]).run {} (visiblePieces {} chunks)).map
        mapSegment) = planAtoms (readPlan (readHidden citationSpec chunks.flatten).visibleText) := by
      rw [planAtoms_map, taggedLine_run, hpieces, ← readTagged_plan, planAtoms_map]
      rfl
    rw [AssistantTextStreamParser.new, run_with_plan, hcited]
    simp only [AssistantTextChunk.merged, readAssistantText, ↓reduceIte, mergeSegments_eq,
      visible_eq, hatoms]
    rfl

end Codex.StreamParser
