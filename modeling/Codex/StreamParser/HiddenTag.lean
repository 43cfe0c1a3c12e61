import Codex.Base.Chunks
import Codex.Text.Search

/-!
# Inline hidden tags

`inline_hidden_tag.rs`: `InlineHiddenTagParser` takes text in chunks, hides what
stands between an opening and a closing delimiter and gives it out separately.
A suffix that could begin a delimiter is held back. With one kind of tag the
result is `readHidden` of the whole text, the leftmost spans that do not nest,
however the text is cut (`hiddenTag_run`).

Lengths are counted in characters where the source counts bytes; the cuts are
at the same places, because the source cuts at delimiters and their prefixes.
-/

namespace Codex.StreamParser

open List Codex.Text

/-- `StreamTextChunk`: the text to show, and what was extracted. -/
structure StreamTextChunk (ε : Type) where
  visibleText : Str
  extracted : List ε
  deriving DecidableEq

namespace StreamTextChunk

variable {ε : Type}

def empty : StreamTextChunk ε := ⟨[], []⟩

def append (c c' : StreamTextChunk ε) : StreamTextChunk ε :=
  ⟨c.visibleText ++ c'.visibleText, c.extracted ++ c'.extracted⟩

@[simp] theorem empty_append (c : StreamTextChunk ε) : empty.append c = c := rfl

@[simp] theorem append_empty (c : StreamTextChunk ε) : c.append empty = c := by
  simp [append, empty]

theorem append_assoc (c c' c'' : StreamTextChunk ε) :
    (c.append c').append c'' = c.append (c'.append c'') := by
  simp [append]

end StreamTextChunk

/-! ## The parser -/

structure ExtractedInlineTag (τ : Type) where
  tag : τ
  content : Str
  deriving DecidableEq

/-- `InlineTagSpec`, with what `InlineHiddenTagParser::new` asserts of the delimiters. -/
structure InlineTagSpec (τ : Type) where
  tag : τ
  opening : Str
  closing : Str
  opening_ne : opening ≠ []
  closing_ne : closing ≠ []

structure ActiveTag (τ : Type) where
  tag : τ
  closing : Str
  content : Str

structure InlineHiddenTagParser (τ : Type) where
  pending : Str := []
  active : Option (ActiveTag τ) := none

section

variable {τ : Type}

/-- The order in which `find_next_open` prefers matches: position, then length, then index. -/
def preferred (a b : Nat × Nat × Nat × InlineTagSpec τ) : Bool :=
  a.1 < b.1 || (a.1 == b.1 && (b.2.1 < a.2.1 || (a.2.1 == b.2.1 && a.2.2.1 < b.2.2.1)))

def findNextOpen (specs : List (InlineTagSpec τ)) (pending : Str) :
    Option (Nat × InlineTagSpec τ) :=
  let found := specs.zipIdx.filterMap fun (spec, idx) =>
    (find pending spec.opening).map fun pos => (pos, spec.opening.length, idx, spec)
  let best := found.foldl (fun best m =>
    match best with
    | none => some m
    | some b => if preferred m b then some m else some b) none
  best.map fun (pos, _, _, spec) => (pos, spec)

def maxOpenPrefixSuffixLen (specs : List (InlineTagSpec τ)) (pending : Str) : Nat :=
  (specs.map fun spec => longestSuffixPrefixLen pending spec.opening).foldl max 0

/-- The loop of `push_str`. Every round but the last one removes a delimiter from the pending
text, so its length is fuel enough. -/
def pushLoop (specs : List (InlineTagSpec τ)) :
    Nat → InlineHiddenTagParser τ →
      InlineHiddenTagParser τ × StreamTextChunk (ExtractedInlineTag τ)
  | 0, parser => (parser, .empty)
  | fuel + 1, ⟨pending, some active⟩ =>
    match find pending active.closing with
    | some closeIdx =>
      let rest := pushLoop specs fuel ⟨pending.drop (closeIdx + active.closing.length), none⟩
      (rest.1, .append ⟨[], [⟨active.tag, active.content ++ pending.take closeIdx⟩]⟩ rest.2)
    | none =>
      let take := pending.length - longestSuffixPrefixLen pending active.closing
      (⟨pending.drop take, some { active with content := active.content ++ pending.take take }⟩,
        .empty)
  | fuel + 1, ⟨pending, none⟩ =>
    match findNextOpen specs pending with
    | some (openIdx, spec) =>
      let rest := pushLoop specs fuel
        ⟨pending.drop (openIdx + spec.opening.length), some ⟨spec.tag, spec.closing, []⟩⟩
      (rest.1, .append ⟨pending.take openIdx, []⟩ rest.2)
    | none =>
      let take := pending.length - maxOpenPrefixSuffixLen specs pending
      (⟨pending.drop take, none⟩, ⟨pending.take take, []⟩)

def InlineHiddenTagParser.pushStr (specs : List (InlineTagSpec τ))
    (parser : InlineHiddenTagParser τ) (chunk : Str) :
    InlineHiddenTagParser τ × StreamTextChunk (ExtractedInlineTag τ) :=
  let pending := parser.pending ++ chunk
  pushLoop specs (pending.length + 1) ⟨pending, parser.active⟩

def InlineHiddenTagParser.finish (parser : InlineHiddenTagParser τ) :
    StreamTextChunk (ExtractedInlineTag τ) :=
  match parser.active with
  | some active => ⟨[], [⟨active.tag, active.content ++ parser.pending⟩]⟩
  | none => ⟨parser.pending, []⟩

/-- The parser as a reader of chunks. -/
def hiddenTagReader (specs : List (InlineTagSpec τ)) :
    Reader (InlineHiddenTagParser τ) Char (StreamTextChunk (ExtractedInlineTag τ)) where
  push := InlineHiddenTagParser.pushStr specs
  finish := InlineHiddenTagParser.finish
  glue := StreamTextChunk.append

/-! ## The reference reading -/

variable (spec : InlineTagSpec τ)

/-- The leftmost spans between the delimiters, and the text around them. A span that is not closed
ends with the text. -/
def readHidden (t : Str) : StreamTextChunk (ExtractedInlineTag τ) :=
  match _hopen : splitOnceStr spec.opening t with
  | none => ⟨t, []⟩
  | some (before, rest) =>
    match _hclose : splitOnceStr spec.closing rest with
    | none => ⟨before, [⟨spec.tag, rest⟩]⟩
    | some (body, rest') => .append ⟨before, [⟨spec.tag, body⟩]⟩ (readHidden rest')
termination_by t.length
decreasing_by
  have hpos := length_pos_iff.2 spec.opening_ne
  rw [splitOnceStr_eq _hopen, splitOnceStr_eq _hclose]
  simp only [length_append]
  omega

/-- The reading goes on inside a span of which `content` is known. -/
def readInside (content t : Str) : StreamTextChunk (ExtractedInlineTag τ) :=
  match splitOnceStr spec.closing t with
  | none => ⟨[], [⟨spec.tag, content ++ t⟩]⟩
  | some (body, rest) => .append ⟨[], [⟨spec.tag, content ++ body⟩]⟩ (readHidden spec rest)

variable {spec} {t before rest body content : Str}

theorem readHidden_of_none (h : splitOnceStr spec.opening t = none) :
    readHidden spec t = ⟨t, []⟩ := by
  rw [readHidden]
  split
  · rfl
  · next hopen => rw [h] at hopen; cases hopen

theorem readHidden_of_some (h : splitOnceStr spec.opening t = some (before, rest)) :
    readHidden spec t = .append ⟨before, []⟩ (readInside spec [] rest) := by
  rw [readHidden, readInside]
  split
  · next hopen => rw [h] at hopen; cases hopen
  · next before' rest' hopen =>
    rw [h] at hopen
    cases hopen
    split
    · next hclose => rw [hclose]; simp [StreamTextChunk.append]
    · next hclose => rw [hclose]; simp [StreamTextChunk.append]

theorem readInside_of_none (h : splitOnceStr spec.closing t = none) :
    readInside spec content t = ⟨[], [⟨spec.tag, content ++ t⟩]⟩ := by
  rw [readInside, h]

theorem readInside_of_some (h : splitOnceStr spec.closing t = some (body, rest)) :
    readInside spec content t =
      .append ⟨[], [⟨spec.tag, content ++ body⟩]⟩ (readHidden spec rest) := by
  rw [readInside, h]

/-- Text that cannot begin an opening delimiter is shown, whatever follows. -/
theorem readHidden_drop (h : splitOnceStr spec.opening t = none) (more : Str) :
    readHidden spec (t ++ more) =
      .append ⟨t.take (t.length - longestSuffixPrefixLen t spec.opening), []⟩
        (readHidden spec (t.drop (t.length - longestSuffixPrefixLen t spec.opening) ++ more)) := by
  have hdrop := splitOnceStr_drop spec.opening_ne h more
  generalize t.length - longestSuffixPrefixLen t spec.opening = cut at hdrop ⊢
  cases hrest : splitOnceStr spec.opening (t.drop cut ++ more) with
  | none =>
    rw [hrest] at hdrop
    rw [readHidden_of_none hdrop, readHidden_of_none hrest]
    simp [StreamTextChunk.append, ← List.append_assoc]
  | some found =>
    rw [hrest] at hdrop
    rw [readHidden_of_some hdrop, readHidden_of_some hrest]
    simp [StreamTextChunk.append, List.append_assoc]

/-- Text that cannot begin a closing delimiter belongs to the span, whatever follows. -/
theorem readInside_drop (h : splitOnceStr spec.closing t = none) (more : Str) :
    readInside spec content (t ++ more) =
      readInside spec (content ++ t.take (t.length - longestSuffixPrefixLen t spec.closing))
        (t.drop (t.length - longestSuffixPrefixLen t spec.closing) ++ more) := by
  have hdrop := splitOnceStr_drop spec.closing_ne h more
  generalize t.length - longestSuffixPrefixLen t spec.closing = cut at hdrop ⊢
  cases hrest : splitOnceStr spec.closing (t.drop cut ++ more) with
  | none =>
    rw [hrest] at hdrop
    rw [readInside_of_none hdrop, readInside_of_none hrest, List.append_assoc,
      ← List.append_assoc (t.take cut), take_append_drop]
  | some found =>
    rw [hrest] at hdrop
    rw [readInside_of_some hdrop, readInside_of_some hrest, List.append_assoc]

/-! ## The parser computes it -/

/-- What a parser still gives out if `more` follows. -/
def meaning (spec : InlineTagSpec τ) (parser : InlineHiddenTagParser τ) (more : Str) :
    StreamTextChunk (ExtractedInlineTag τ) :=
  match parser.active with
  | none => readHidden spec (parser.pending ++ more)
  | some active => readInside spec active.content (parser.pending ++ more)

/-- An open tag is one of the specification. -/
def InlineHiddenTagParser.Fits (spec : InlineTagSpec τ) (parser : InlineHiddenTagParser τ) : Prop :=
  ∀ active ∈ parser.active, active.tag = spec.tag ∧ active.closing = spec.closing

/-- Between chunks no delimiter is pending either. -/
structure InlineHiddenTagParser.Settled (spec : InlineTagSpec τ) (parser : InlineHiddenTagParser τ) :
    Prop where
  fits : parser.Fits spec
  outside : parser.active = none → splitOnceStr spec.opening parser.pending = none
  inside : ∀ active ∈ parser.active, splitOnceStr spec.closing parser.pending = none

theorem settled_initial : InlineHiddenTagParser.Settled spec {} where
  fits := fun _ h => nomatch h
  outside := fun _ => by
    have := spec.opening_ne
    cases hopen : spec.opening with
    | nil => exact absurd hopen this
    | cons c cs => rfl
  inside := fun _ h => nomatch h

theorem findNextOpen_singleton (pending : Str) :
    findNextOpen [spec] pending = (find pending spec.opening).map fun pos => (pos, spec) := by
  cases h : find pending spec.opening with
  | none => simp [findNextOpen, h]
  | some pos => simp [findNextOpen, h]

theorem maxOpenPrefixSuffixLen_singleton (pending : Str) :
    maxOpenPrefixSuffixLen [spec] pending = longestSuffixPrefixLen pending spec.opening := by
  simp [maxOpenPrefixSuffixLen]

variable {parser : InlineHiddenTagParser τ}

/-- With fuel enough, the loop gives out what does not depend on the text to come. -/
theorem pushLoop_meaning {fuel : Nat} (hfits : parser.Fits spec)
    (hfuel : parser.pending.length < fuel) (more : Str) :
    (pushLoop [spec] fuel parser).1.Settled spec ∧
      .append (pushLoop [spec] fuel parser).2 (meaning spec (pushLoop [spec] fuel parser).1 more) =
        meaning spec parser more := by
  induction fuel generalizing parser with
  | zero => omega
  | succ fuel ih =>
    obtain ⟨pending, _ | active⟩ := parser
    · simp only [pushLoop, findNextOpen_singleton, maxOpenPrefixSuffixLen_singleton, find]
      cases hfind : splitOnceStr spec.opening pending with
      | none =>
        simp only [Option.map_none]
        refine ⟨⟨fun _ h => (nomatch h), fun _ => ?_, fun _ h => (nomatch h)⟩, ?_⟩
        · exact splitOnceStr_drop_none spec.opening_ne hfind
        · exact (readHidden_drop hfind more).symm
      | some found =>
        obtain ⟨before, rest⟩ := found
        obtain ⟨htake, hdrop⟩ := splitOnceStr_take hfind
        simp only [Option.map_some, htake, hdrop]
        have hshort : rest.length < fuel := by
          have hpos := length_pos_iff.2 spec.opening_ne
          have hlen := congrArg List.length (splitOnceStr_eq hfind)
          simp only [length_append] at hlen
          simp only at hfuel
          omega
        have hnext : InlineHiddenTagParser.Fits spec ⟨rest, some ⟨spec.tag, spec.closing, []⟩⟩ := by
          intro active hactive
          cases hactive
          exact ⟨rfl, rfl⟩
        obtain ⟨hsettled, hrest⟩ := ih hnext hshort
        refine ⟨hsettled, ?_⟩
        rw [StreamTextChunk.append_assoc, hrest]
        simp only [meaning]
        rw [readHidden_of_some (splitOnceStr_append hfind more)]
    · obtain ⟨htag, hclosing⟩ := hfits active rfl
      simp only [pushLoop, find, hclosing]
      cases hfind : splitOnceStr spec.closing pending with
      | none =>
        simp only [Option.map_none]
        refine ⟨⟨fun a h => ?_, fun h => (nomatch h), fun _ _ => ?_⟩, ?_⟩
        · cases h
          exact ⟨htag, rfl⟩
        · exact splitOnceStr_drop_none spec.closing_ne hfind
        · exact (readInside_drop hfind more).symm
      | some found =>
        obtain ⟨body, rest⟩ := found
        obtain ⟨htake, hdrop⟩ := splitOnceStr_take hfind
        simp only [Option.map_some, htake, hdrop]
        have hshort : rest.length < fuel := by
          have hpos := length_pos_iff.2 spec.closing_ne
          have hlen := congrArg List.length (splitOnceStr_eq hfind)
          simp only [length_append] at hlen
          simp only at hfuel
          omega
        have hnext : InlineHiddenTagParser.Fits spec ⟨rest, none⟩ := fun _ h => nomatch h
        obtain ⟨hsettled, hrest⟩ := ih hnext hshort
        refine ⟨hsettled, ?_⟩
        rw [StreamTextChunk.append_assoc, hrest]
        simp only [meaning]
        rw [readInside_of_some (splitOnceStr_append hfind more), htag]

theorem pushStr_meaning (h : parser.Settled spec) (chunk more : Str) :
    (parser.pushStr [spec] chunk).1.Settled spec ∧
      .append (parser.pushStr [spec] chunk).2 (meaning spec (parser.pushStr [spec] chunk).1 more) =
        meaning spec parser (chunk ++ more) := by
  obtain ⟨pending, active⟩ := parser
  have hfits : InlineHiddenTagParser.Fits spec ⟨pending ++ chunk, active⟩ := h.fits
  have hloop := pushLoop_meaning hfits (Nat.lt_succ_self (pending ++ chunk).length) more
  simp only [meaning, List.append_assoc] at hloop ⊢
  exact hloop

theorem finish_meaning (h : parser.Settled spec) : parser.finish = meaning spec parser [] := by
  obtain ⟨pending, _ | active⟩ := parser
  · simp only [InlineHiddenTagParser.finish, meaning, append_nil]
    exact (readHidden_of_none (h.outside rfl)).symm
  · simp only [InlineHiddenTagParser.finish, meaning, append_nil]
    rw [readInside_of_none (h.inside active rfl), (h.fits active rfl).1]

/-- **One kind of hidden tag.** The parser gives out the reference reading of the whole text. -/
theorem hiddenTag_run (spec : InlineTagSpec τ) (chunks : List Str) :
    (hiddenTagReader [spec]).run {} chunks = readHidden spec chunks.flatten := by
  have hmeaning : (hiddenTagReader [spec]).Meaning (InlineHiddenTagParser.Settled spec) id
      StreamTextChunk.append (meaning spec) :=
    ⟨fun _ _ => rfl, fun _ h => finish_meaning h, fun _ chunk h => (pushStr_meaning h chunk []).1,
      fun _ chunk more h => (pushStr_meaning h chunk more).2⟩
  exact Reader.run_eq hmeaning settled_initial chunks

end

end Codex.StreamParser
