import Codex.Base.Tree
import Codex.Text.Utf
import Mathlib.Data.List.Chain
import Mathlib.Data.List.Sort

/-!
# Strict templates

`utils/template`: `Template::parse` reads a text into literals and placeholders and
`Template::render` puts values in their place. A doubled brace stands for itself when
it is written twice. A list of segments that is written out so is read back
(`parse_print`), and rendered it is the literals with the values between them.
-/

namespace Codex.Text

open List

/-! ## Model -/

inductive TemplateParseError where
  | emptyPlaceholder (start : ℕ)
  | nestedPlaceholder (start : ℕ)
  | unmatchedClosingDelimiter (start : ℕ)
  | unterminatedPlaceholder (start : ℕ)
  deriving DecidableEq

inductive TemplateRenderError where
  | duplicateValue (name : Str)
  | extraValue (name : Str)
  | missingValue (name : Str)
  deriving DecidableEq

inductive Segment where
  | literal (text : Str)
  | placeholder (name : Str)
  deriving DecidableEq

/-- The placeholders are a `BTreeSet`: in order, and each of them once. -/
structure Template where
  placeholders : List Str := []
  segments : List Segment := []
  deriving DecidableEq

def pushLiteral (segments : List Segment) (text : Str) : List Segment :=
  if text = [] then segments
  else match segments.getLast? with
    | some (.literal existing) => segments.dropLast ++ [.literal (existing ++ text)]
    | _ => segments ++ [.literal text]

/-- The loop of `parse_placeholder` from a cursor on: the placeholder, what follows it, and the
cursor there. -/
def parsePlaceholder (start : ℕ) (placeholder : Str) (cursor : ℕ) :
    Str → Except TemplateParseError (Str × Str × ℕ)
  | '{' :: '{' :: _ => .error (.nestedPlaceholder start)
  | '}' :: '}' :: rest =>
    if trim placeholder = [] then .error (.emptyPlaceholder start)
    else .ok (trim placeholder, rest, cursor + 2)
  | c :: rest => parsePlaceholder start (placeholder ++ [c]) (cursor + c.utf8Size) rest
  | [] => .error (.unterminatedPlaceholder start)

variable {cursor start : ℕ} {placeholder name pad : Str}

theorem length_parsePlaceholder {source : Str} {read : Str × Str × ℕ}
    (h : parsePlaceholder start placeholder cursor source = .ok read) :
    read.2.1.length ≤ source.length := by
  induction source generalizing placeholder cursor with
  | nil => cases h
  | cons c rest ih =>
    unfold parsePlaceholder at h
    split at h
    · cases h
    · split at h
      · cases h
      · next hsource _ =>
        cases h
        have hlength := congrArg List.length hsource
        simp only [length_cons] at hlength ⊢
        omega
    · next hsource =>
      cases hsource
      exact Nat.le_succ_of_le (ih h)
    · cases h

namespace Template

/-- The state of `parse`: `literal` is the source between `literal_start` and the cursor. -/
structure ParseState where
  placeholders : List Str := []
  segments : List Segment := []
  literal : Str := []
  cursor : ℕ := 0

namespace ParseState

def flush (st : ParseState) : List Segment := pushLiteral st.segments st.literal

def pushEscape (st : ParseState) (text : Str) : ParseState :=
  { st with segments := pushLiteral st.flush text, literal := [], cursor := st.cursor + 4 }

def pushPlaceholder (st : ParseState) (name : Str) (cursor : ℕ) : ParseState where
  placeholders :=
    if name ∈ st.placeholders then st.placeholders
    else st.placeholders.orderedInsert (· ≤ ·) name
  segments := st.flush ++ [.placeholder name]
  cursor := cursor

def pushChar (st : ParseState) (c : Char) : ParseState :=
  { st with literal := st.literal ++ [c], cursor := st.cursor + c.utf8Size }

end ParseState

def parseFrom (st : ParseState) : Str → Except TemplateParseError Template
  | '{' :: '{' :: '{' :: '{' :: rest => parseFrom (st.pushEscape ['{', '{']) rest
  | '}' :: '}' :: '}' :: '}' :: rest => parseFrom (st.pushEscape ['}', '}']) rest
  | '{' :: '{' :: rest =>
    match h : parsePlaceholder st.cursor [] (st.cursor + 2) rest with
    | .ok (name, next, cursor) =>
      have : next.length ≤ rest.length := length_parsePlaceholder h
      parseFrom (st.pushPlaceholder name cursor) next
    | .error err => .error err
  | '}' :: '}' :: _ => .error (.unmatchedClosingDelimiter st.cursor)
  | c :: rest => parseFrom (st.pushChar c) rest
  | [] => .ok ⟨st.placeholders, st.flush⟩
termination_by source => source.length

def parse (source : Str) : Except TemplateParseError Template := parseFrom {} source

end Template

/-- The entries of the `BTreeMap` in order. -/
def buildVariableMap : List (Str × Str) → List (Str × Str) →
    Except TemplateRenderError (List (Str × Str))
  | map, [] => .ok map
  | map, (name, value) :: values =>
    if name ∈ map.map Prod.fst then .error (.duplicateValue name)
    else buildVariableMap (map.orderedInsert (fun a b => a.1 ≤ b.1) (name, value)) values

def renderSegments (values : List (Str × Str)) : List Segment → Except TemplateRenderError Str
  | [] => .ok []
  | .literal text :: segments => (renderSegments values segments).map (text ++ ·)
  | .placeholder name :: segments =>
    match Entries.get? name values with
    | some value => (renderSegments values segments).map (value ++ ·)
    | none => .error (.missingValue name)

def Template.render (template : Template) (values : List (Str × Str)) :
    Except TemplateRenderError Str := do
  let values ← buildVariableMap [] values
  match template.placeholders.find? fun name => name ∉ values.map Prod.fst with
  | some name => .error (.missingValue name)
  | none =>
    match (values.map Prod.fst).find? fun name => name ∉ template.placeholders with
    | some name => .error (.extraValue name)
    | none => renderSegments values template.segments

/-! ## Writing segments out -/

/-- A literal with its doubled braces doubled again, from left to right. -/
def escapeLiteral : Str → Str
  | '{' :: '{' :: text => ['{', '{', '{', '{'] ++ escapeLiteral text
  | '}' :: '}' :: text => ['}', '}', '}', '}'] ++ escapeLiteral text
  | c :: text => c :: escapeLiteral text
  | [] => []

def Segment.print (pad : Str) : Segment → Str
  | .literal text => escapeLiteral text
  | .placeholder name => ['{', '{'] ++ (pad ++ name ++ pad) ++ ['}', '}']

/-- The source of the segments, with white space around the names of placeholders. -/
def printSegments (pad : Str) (segments : List Segment) : Str := segments.flatMap (Segment.print pad)

structure PlaceholderName (name : Str) : Prop where
  ne_nil : name ≠ []
  trimmed : trim name = name
  noOpen : ¬ ['{', '{'] <:+: name
  noClose : ¬ ['}', '}'] <:+: name
  first : name.head? ≠ some '{'
  last : name.getLast? ≠ some '}'

/-- What a segment may be followed by. -/
def Segment.Follows : Segment → Segment → Prop
  | .literal _, .literal _ => False
  | .literal text, .placeholder _ => text.getLast? ≠ some '{'
  | .placeholder _, _ => True

structure Printable (segments : List Segment) : Prop where
  names : ∀ name, .placeholder name ∈ segments → PlaceholderName name
  chain : segments.IsChain Segment.Follows

/-- Placeholders replaced by their values. -/
def expand (value : Str → Str) (segments : List Segment) : Str :=
  segments.flatMap fun
    | .literal text => text
    | .placeholder name => value name

/-! ## Tokens -/

namespace Template

variable {st : ParseState} {rest : Str}

theorem parseFrom_open (st : ParseState) (rest : Str) :
    parseFrom st (['{', '{', '{', '{'] ++ rest) = parseFrom (st.pushEscape ['{', '{']) rest := by
  show parseFrom st ('{' :: '{' :: '{' :: '{' :: rest) = _
  rw [parseFrom]

theorem parseFrom_close (st : ParseState) (rest : Str) :
    parseFrom st (['}', '}', '}', '}'] ++ rest) = parseFrom (st.pushEscape ['}', '}']) rest := by
  show parseFrom st ('}' :: '}' :: '}' :: '}' :: rest) = _
  rw [parseFrom]

theorem parseFrom_char {c : Char} (hopen : c = '{' → rest.head? ≠ some '{')
    (hclose : c = '}' → rest.head? ≠ some '}') :
    parseFrom st (c :: rest) = parseFrom (st.pushChar c) rest := by
  rw [parseFrom.eq_def]
  split
  · next heq =>
    cases heq
    exact absurd rfl (hopen rfl)
  · next heq =>
    cases heq
    exact absurd rfl (hclose rfl)
  · next heq =>
    cases heq
    exact absurd rfl (hopen rfl)
  · next heq =>
    cases heq
    exact absurd rfl (hclose rfl)
  · next heq =>
    cases heq
    rfl
  · next heq => cases heq

theorem parseFrom_nil (st : ParseState) : parseFrom st [] = .ok ⟨st.placeholders, st.flush⟩ := by
  rw [parseFrom]

theorem parseFrom_placeholder {name next : Str} {cursor : ℕ} (hbrace : ¬ ['{', '{'] <+: rest)
    (h : parsePlaceholder st.cursor [] (st.cursor + 2) rest = .ok (name, next, cursor)) :
    parseFrom st (['{', '{'] ++ rest) = parseFrom (st.pushPlaceholder name cursor) next := by
  show parseFrom st ('{' :: '{' :: rest) = _
  rw [parseFrom.eq_def]
  split
  · next heq =>
    cases heq
    exact absurd (prefix_append _ _) hbrace
  · next heq => cases heq
  · next heq =>
    cases heq
    split
    · next heq' =>
      rw [h] at heq'
      cases heq'
      rfl
    · next heq' =>
      rw [h] at heq'
      cases heq'
  · next heq => cases heq
  · next hopen _ heq =>
    cases heq
    exact (hopen rest rfl rfl).elim
  · next heq => cases heq

end Template

/-! ## Names of placeholders -/

/-- No brace stands twice in a row. -/
def Undoubled (s : Str) : Prop := s.IsChain fun a b => a = b → a ≠ '{' ∧ a ≠ '}'

theorem PlaceholderName.undoubled (h : PlaceholderName name) : Undoubled name := by
  refine (isChain_isInfix name).imp fun a b hinfix hab => ⟨?_, ?_⟩
  · rintro rfl
    rw [← hab] at hinfix
    exact h.noOpen hinfix
  · rintro rfl
    rw [← hab] at hinfix
    exact h.noClose hinfix

theorem brace_notMem_blank (h : Blank pad) : '{' ∉ pad ∧ '}' ∉ pad :=
  ⟨fun hmem => absurd (h _ hmem) (by decide), fun hmem => absurd (h _ hmem) (by decide)⟩

theorem undoubled_of_blank (h : Blank pad) : Undoubled pad := by
  refine (isChain_isInfix pad).imp fun a b hinfix _ => ?_
  have hmem : a ∈ pad := hinfix.subset mem_cons_self
  obtain ⟨hopen, hclose⟩ := brace_notMem_blank h
  exact ⟨fun heq => hopen (heq ▸ hmem), fun heq => hclose (heq ▸ hmem)⟩

theorem PlaceholderName.undoubled_pad (h : PlaceholderName name) (hpad : Blank pad) :
    Undoubled (pad ++ name ++ pad) := by
  obtain ⟨hopen, hclose⟩ := brace_notMem_blank hpad
  refine isChain_append.2 ⟨isChain_append.2 ⟨undoubled_of_blank hpad, h.undoubled, ?_⟩,
    undoubled_of_blank hpad, ?_⟩
  · intro a ha b _ _
    have hmem := mem_of_getLast? ha
    exact ⟨fun heq => hopen (heq ▸ hmem), fun heq => hclose (heq ▸ hmem)⟩
  · intro a _ b hb hab
    have hmem := mem_of_head? hb
    rw [← hab] at hmem
    exact ⟨fun heq => hopen (heq ▸ hmem), fun heq => hclose (heq ▸ hmem)⟩

theorem getLast?_pad (h : PlaceholderName name) (hpad : Blank pad) :
    (pad ++ name ++ pad).getLast? ≠ some '}' := by
  intro hlast
  by_cases hnil : pad = []
  · subst hnil
    rw [nil_append, append_nil] at hlast
    exact h.last hlast
  · rw [getLast?_append_of_ne_nil _ hnil] at hlast
    exact (brace_notMem_blank hpad).2 (mem_of_getLast? hlast)

theorem head?_pad (h : PlaceholderName name) (hpad : Blank pad) (rest : Str) :
    (pad ++ name ++ pad ++ rest).head? ≠ some '{' := by
  intro hhead
  cases pad with
  | nil =>
    cases hname : name with
    | nil => exact h.ne_nil hname
    | cons c name =>
      rw [hname] at hhead
      exact h.first (by rw [hname]; exact hhead)
  | cons c pad =>
    refine (brace_notMem_blank hpad).1 ?_
    obtain rfl : c = '{' := Option.some_inj.1 hhead
    exact mem_cons_self

theorem trim_pad (h : PlaceholderName name) (hpad : Blank pad) :
    trim (pad ++ name ++ pad) = name := by
  have hblank : ¬ Blank name := by
    intro hblank
    have hnil := trim_eq_nil.2 hblank
    rw [h.trimmed] at hnil
    exact h.ne_nil hnil
  have hleft : trimStart (pad ++ trimEnd name) = trimStart (trimEnd name) :=
    dropWhile_append_of_pos hpad
  calc trim (pad ++ name ++ pad) = trimStart (trimEnd (pad ++ name)) := by
        rw [trim, trimEnd_append_blank hpad]
    _ = trimStart (pad ++ trimEnd name) := by rw [trimEnd_append_of_not_blank hblank]
    _ = trim name := hleft
    _ = name := h.trimmed

variable {c : Char}

theorem parsePlaceholder_char {rest : Str}
    (hopen : c = '{' → rest.head? ≠ some '{') (hclose : c = '}' → rest.head? ≠ some '}') :
    parsePlaceholder start placeholder cursor (c :: rest) =
      parsePlaceholder start (placeholder ++ [c]) (cursor + c.utf8Size) rest := by
  rw [parsePlaceholder.eq_def]
  split
  · next heq =>
    cases heq
    exact absurd rfl (hopen rfl)
  · next heq =>
    cases heq
    exact absurd rfl (hclose rfl)
  · next heq =>
    cases heq
    rfl
  · next heq => cases heq

/-- The scan runs up to the closing braces. -/
theorem parsePlaceholder_scan {body : Str} (rest : Str)
    (hbody : Undoubled body) (hlast : body.getLast? ≠ some '}') :
    parsePlaceholder start placeholder cursor (body ++ (['}', '}'] ++ rest)) =
      parsePlaceholder start (placeholder ++ body) (cursor + utf8Len body) (['}', '}'] ++ rest) := by
  induction body generalizing placeholder cursor with
  | nil =>
    rw [append_nil]
    rfl
  | cons c body ih =>
    obtain ⟨hnext, hrest⟩ := isChain_cons.1 hbody
    have hlast' : body.getLast? ≠ some '}' := by
      intro h
      refine hlast ?_
      rw [getLast?_cons, h]
      rfl
    rw [cons_append, parsePlaceholder_char, ih hrest hlast', List.append_assoc]
    · have hlen : utf8Len (c :: body) = c.utf8Size + utf8Len body := rfl
      rw [hlen, Nat.add_assoc]
      rfl
    · rintro rfl hhead
      cases body with
      | nil => cases hhead
      | cons d body =>
        obtain rfl : d = '{' := Option.some_inj.1 hhead
        exact (hnext _ rfl rfl).1 rfl
    · rintro rfl hhead
      cases body with
      | nil => exact hlast rfl
      | cons d body =>
        obtain rfl : d = '}' := Option.some_inj.1 hhead
        exact (hnext _ rfl rfl).2 rfl

theorem parsePlaceholder_print (start cursor : ℕ) (h : PlaceholderName name) (hpad : Blank pad)
    (rest : Str) :
    ∃ cursor', parsePlaceholder start [] cursor (pad ++ name ++ pad ++ (['}', '}'] ++ rest)) =
      .ok (name, rest, cursor') := by
  rw [parsePlaceholder_scan rest (h.undoubled_pad hpad) (getLast?_pad h hpad), nil_append]
  refine ⟨cursor + utf8Len (pad ++ name ++ pad) + 2, ?_⟩
  show (if trim (pad ++ name ++ pad) = [] then _ else _) = _
  rw [trim_pad h hpad, if_neg h.ne_nil]
  rfl

/-! ## Literals -/

theorem pushLiteral_nil (segments : List Segment) : pushLiteral segments [] = segments := if_pos rfl

/-- A literal that is pushed in two pieces is pushed at once. -/
theorem pushLiteral_append (segments : List Segment) (text more : Str) :
    pushLiteral (pushLiteral segments text) more = pushLiteral segments (text ++ more) := by
  by_cases htext : text = []
  · rw [htext, pushLiteral_nil, nil_append]
  · by_cases hmore : more = []
    · rw [hmore, pushLiteral_nil, append_nil]
    · have hboth : text ++ more ≠ [] := fun h => htext (append_eq_nil_iff.1 h).1
      unfold pushLiteral
      rw [if_neg htext, if_neg hmore, if_neg hboth]
      cases hlast : segments.getLast? with
      | none => simp
      | some last => cases last <;> simp

theorem expand_append (value : Str → Str) (segments more : List Segment) :
    expand value (segments ++ more) = expand value segments ++ expand value more :=
  flatMap_append

theorem expand_pushLiteral (value : Str → Str) (segments : List Segment) (text : Str) :
    expand value (pushLiteral segments text) = expand value segments ++ text := by
  unfold pushLiteral
  split
  · next h => rw [h, append_nil]
  · split
    · next existing hlast =>
      obtain ⟨init, rfl⟩ := getLast?_eq_some_iff.1 hlast
      rw [dropLast_concat, expand_append, expand_append, List.append_assoc]
      simp [expand]
    · rw [expand_append]
      simp [expand]

theorem head?_escapeLiteral (text : Str) : (escapeLiteral text).head? = text.head? := by
  unfold escapeLiteral
  split <;> rfl

/-- No brace at the end of the text meets the same brace in what follows. -/
def Apart (text rest : Str) : Prop :=
  ∀ brace, brace = '{' ∨ brace = '}' → text.getLast? = some brace → rest.head? ≠ some brace

theorem Apart.of_cons {text rest : Str} (h : Apart (c :: text) rest) : Apart text rest := by
  intro brace hbrace hlast
  refine h brace hbrace ?_
  rw [getLast?_cons, hlast]
  rfl

/-- A brace that the escape leaves single is read as a character. -/
theorem Apart.head?_ne {text rest : Str} (h : Apart (c :: text) rest) (hbrace : c = '{' ∨ c = '}')
    (hsingle : text.head? ≠ some c) : (escapeLiteral text ++ rest).head? ≠ some c := by
  cases text with
  | nil => exact h c hbrace rfl
  | cons d text =>
    have hne : escapeLiteral (d :: text) ≠ [] := by
      intro hnil
      have hhead := head?_escapeLiteral (d :: text)
      rw [hnil] at hhead
      cases hhead
    rw [head?_append_of_ne_nil _ hne, head?_escapeLiteral]
    exact hsingle

namespace Template

open ParseState

theorem flush_pushChar (st : ParseState) (c : Char) :
    (st.pushChar c).flush = pushLiteral st.flush [c] := (pushLiteral_append _ _ _).symm

theorem flush_pushEscape (st : ParseState) (text : Str) :
    (st.pushEscape text).flush = pushLiteral st.flush text := pushLiteral_nil _

theorem parse_escape (text : Str) {rest : Str} (st : ParseState) (h : Apart text rest) :
    ∃ st', parseFrom st (escapeLiteral text ++ rest) = parseFrom st' rest ∧
      st'.flush = pushLiteral st.flush text ∧ st'.placeholders = st.placeholders := by
  induction text using escapeLiteral.induct generalizing st with
  | case1 text ih =>
    obtain ⟨st', hparse, hflush, hplaceholders⟩ := ih (st.pushEscape ['{', '{']) h.of_cons.of_cons
    refine ⟨st', ?_, ?_, hplaceholders⟩
    · rw [escapeLiteral, List.append_assoc, parseFrom_open, hparse]
    · rw [hflush, flush_pushEscape, pushLiteral_append]
      rfl
  | case2 text ih =>
    obtain ⟨st', hparse, hflush, hplaceholders⟩ := ih (st.pushEscape ['}', '}']) h.of_cons.of_cons
    refine ⟨st', ?_, ?_, hplaceholders⟩
    · rw [escapeLiteral, List.append_assoc, parseFrom_close, hparse]
    · rw [hflush, flush_pushEscape, pushLiteral_append]
      rfl
  | case3 c text hopen hclose ih =>
    obtain ⟨st', hparse, hflush, hplaceholders⟩ := ih (st.pushChar c) h.of_cons
    refine ⟨st', ?_, ?_, hplaceholders⟩
    · rw [escapeLiteral, cons_append, parseFrom_char, hparse]
      · rintro rfl
        refine h.head?_ne (.inl rfl) fun hhead => ?_
        obtain ⟨more, rfl⟩ := head?_eq_some_iff.1 hhead
        exact hopen more rfl rfl
      · rintro rfl
        refine h.head?_ne (.inr rfl) fun hhead => ?_
        obtain ⟨more, rfl⟩ := head?_eq_some_iff.1 hhead
        exact hclose more rfl rfl
      · exact hopen
      · exact hclose
    · rw [hflush, flush_pushChar, pushLiteral_append]
      rfl
  | case4 => exact ⟨st, rfl, (pushLiteral_nil _).symm, rfl⟩

variable {name pad : Str} {segments : List Segment} {values : List (Str × Str)}

theorem parse_placeholder (st : ParseState) (h : PlaceholderName name) (hpad : Blank pad)
    (rest : Str) : ∃ cursor, parseFrom st (Segment.print pad (.placeholder name) ++ rest) =
      parseFrom (st.pushPlaceholder name cursor) rest := by
  obtain ⟨cursor, hparse⟩ := parsePlaceholder_print st.cursor (st.cursor + 2) h hpad rest
  refine ⟨cursor, ?_⟩
  rw [Segment.print, List.append_assoc, List.append_assoc, parseFrom_placeholder ?_ hparse]
  rintro ⟨more, hmore⟩
  refine head?_pad h hpad (['}', '}'] ++ rest) ?_
  rw [← hmore]
  rfl

/-! ## Lists of segments -/

def pushSegment (segments : List Segment) : Segment → List Segment
  | .literal text => pushLiteral segments text
  | .placeholder name => segments ++ [.placeholder name]

theorem expand_pushSegment (value : Str → Str) (segments : List Segment) (segment : Segment) :
    expand value (pushSegment segments segment) = expand value segments ++ expand value [segment] := by
  cases segment with
  | literal text =>
    rw [pushSegment, expand_pushLiteral]
    simp [expand]
  | placeholder name => exact expand_append value segments [.placeholder name]

theorem placeholder_mem_pushLiteral {text : Str} :
    .placeholder name ∈ pushLiteral segments text ↔ .placeholder name ∈ segments := by
  unfold pushLiteral
  split
  · rfl
  · split
    · next hlast =>
      obtain ⟨init, rfl⟩ := getLast?_eq_some_iff.1 hlast
      simp
    · simp

theorem expand_foldl_pushSegment (value : Str → Str) (pushed segments : List Segment) :
    expand value (segments.foldl pushSegment pushed) =
      expand value pushed ++ expand value segments := by
  induction segments generalizing pushed with
  | nil => simp [expand]
  | cons segment segments ih =>
    rw [foldl_cons, ih, expand_pushSegment, List.append_assoc, ← expand_append]
    rfl

theorem placeholder_mem_foldl (pushed segments : List Segment) :
    .placeholder name ∈ segments.foldl pushSegment pushed ↔
      .placeholder name ∈ pushed ∨ .placeholder name ∈ segments := by
  induction segments generalizing pushed with
  | nil => simp
  | cons segment segments ih =>
    rw [foldl_cons, ih]
    cases segment with
    | literal text => simp [pushSegment, placeholder_mem_pushLiteral]
    | placeholder other => simp [pushSegment, or_assoc]

theorem mem_pushPlaceholder {other : Str} (st : ParseState) (cursor : ℕ) :
    other ∈ (st.pushPlaceholder name cursor).placeholders ↔
      other ∈ st.placeholders ∨ other = name := by
  unfold pushPlaceholder
  split
  · next hmem =>
    refine ⟨.inl, ?_⟩
    rintro (h | rfl)
    · exact h
    · exact hmem
  · rw [mem_orderedInsert, or_comm]

theorem apart_print (pad : Str) {text : Str}
    (h : (.literal text :: segments).IsChain Segment.Follows) :
    Apart text (printSegments pad segments) := by
  intro brace hbrace hlast hhead
  cases segments with
  | nil => cases hhead
  | cons segment segments =>
    have hfollows := (isChain_cons.1 h).1 segment rfl
    cases segment with
    | literal more => exact hfollows
    | placeholder name =>
      obtain rfl : '{' = brace := Option.some_inj.1 hhead
      exact hfollows hlast

theorem printable_tail {segment : Segment} (h : Printable (segment :: segments)) :
    Printable segments :=
  ⟨fun name hname => h.names name (mem_cons_of_mem _ hname), (isChain_cons.1 h.chain).2⟩

theorem parseFrom_print (hpad : Blank pad) (st : ParseState) (h : Printable segments) :
    ∃ template, parseFrom st (printSegments pad segments) = .ok template ∧
      template.segments = segments.foldl pushSegment st.flush ∧
      ∀ name, name ∈ template.placeholders ↔
        name ∈ st.placeholders ∨ .placeholder name ∈ segments := by
  induction segments generalizing st with
  | nil => exact ⟨_, parseFrom_nil st, rfl, fun name => by simp⟩
  | cons segment segments ih =>
    have hsource : printSegments pad (segment :: segments) =
        segment.print pad ++ printSegments pad segments := flatMap_cons
    rw [hsource]
    cases segment with
    | literal text =>
      obtain ⟨st', hparse, hflush, hplaceholders⟩ :=
        parse_escape text st (apart_print pad h.chain)
      obtain ⟨template, hrest, hsegments, hnames⟩ := ih st' (printable_tail h)
      refine ⟨template, hparse.trans hrest, ?_, fun name => ?_⟩
      · rw [hsegments, hflush]
        rfl
      · rw [hnames, hplaceholders]
        simp
    | placeholder name =>
      obtain ⟨cursor, hparse⟩ :=
        parse_placeholder st (h.names name mem_cons_self) hpad (printSegments pad segments)
      obtain ⟨template, hrest, hsegments, hnames⟩ :=
        ih (st.pushPlaceholder name cursor) (printable_tail h)
      refine ⟨template, hparse.trans hrest, ?_, fun other => ?_⟩
      · rw [hsegments]
        have hflush : (st.pushPlaceholder name cursor).flush =
            pushSegment st.flush (.placeholder name) := pushLiteral_nil _
        rw [hflush]
        rfl
      · rw [hnames, mem_pushPlaceholder, mem_cons, Segment.placeholder.injEq, or_assoc]

/-- The printed segments are read back, with neighbouring and empty literals merged. -/
theorem parse_print (hpad : Blank pad) (h : Printable segments) :
    ∃ template, parse (printSegments pad segments) = .ok template ∧
      template.segments = segments.foldl pushSegment [] ∧
      ∀ name, name ∈ template.placeholders ↔ .placeholder name ∈ segments := by
  obtain ⟨template, hparse, hsegments, hnames⟩ := parseFrom_print hpad {} h
  exact ⟨template, hparse, hsegments, fun name => (hnames name).trans (by simp)⟩

/-! ## Rendering -/

/-- The values are those of the placeholders, each given once. -/
structure Assigns (value : Str → Str) (segments : List Segment) (values : List (Str × Str)) :
    Prop where
  nodup : (values.map Prod.fst).Nodup
  names : ∀ name, name ∈ values.map Prod.fst ↔ .placeholder name ∈ segments
  values : ∀ entry ∈ values, entry.2 = value entry.1

theorem buildVariableMap_perm (map : List (Str × Str)) (h : ((map ++ values).map Prod.fst).Nodup) :
    ∃ built, buildVariableMap map values = .ok built ∧ built.Perm (map ++ values) := by
  induction values generalizing map with
  | nil => exact ⟨map, rfl, by rw [append_nil]⟩
  | cons entry values ih =>
    obtain ⟨name, value⟩ := entry
    have hperm : (map.orderedInsert (fun a b => a.1 ≤ b.1) (name, value) ++ values).Perm
        (map ++ (name, value) :: values) := by
      refine ((perm_orderedInsert _ _ _).append_right _).trans ?_
      exact perm_middle.symm
    have hnew : name ∉ map.map Prod.fst := by
      intro hmem
      rw [map_append, map_cons] at h
      exact disjoint_of_nodup_append h hmem mem_cons_self
    obtain ⟨built, hbuilt, hmap⟩ := ih _ ((hperm.map Prod.fst).nodup_iff.2 h)
    refine ⟨built, ?_, hmap.trans hperm⟩
    rw [buildVariableMap, if_neg hnew, hbuilt]

theorem renderSegments_eq {value : Str → Str}
    (h : ∀ name, .placeholder name ∈ segments → Entries.get? name values = some (value name)) :
    renderSegments values segments = .ok (expand value segments) := by
  induction segments with
  | nil => rfl
  | cons segment segments ih =>
    have hrest := ih fun name hname => h name (mem_cons_of_mem _ hname)
    cases segment with
    | literal text =>
      rw [renderSegments, hrest]
      rfl
    | placeholder name =>
      rw [renderSegments, h name mem_cons_self, hrest]
      rfl

theorem render_eq {value : Str → Str} {template : Template}
    (hplaceholders : ∀ name, name ∈ template.placeholders ↔ .placeholder name ∈ template.segments)
    (h : Assigns value template.segments values) :
    template.render values = .ok (expand value template.segments) := by
  obtain ⟨built, hbuilt, hperm⟩ := buildVariableMap_perm [] h.nodup
  have hkeys : ∀ name, name ∈ built.map Prod.fst ↔ .placeholder name ∈ template.segments :=
    fun name => ((hperm.map Prod.fst).mem_iff).trans (h.names name)
  have hget : ∀ name, .placeholder name ∈ template.segments →
      Entries.get? name built = some (value name) := by
    intro name hname
    obtain ⟨entry, hentry, rfl⟩ := mem_map.1 ((hkeys name).2 hname)
    rw [← h.values entry (hperm.mem_iff.1 hentry)]
    exact Entries.get?_of_mem ((hperm.map Prod.fst).nodup_iff.2 h.nodup) hentry
  have hmissing : (template.placeholders.find? fun name => name ∉ built.map Prod.fst) = none := by
    refine find?_eq_none.2 fun name hname => ?_
    simpa only [decide_eq_true_eq, not_not] using (hkeys name).2 ((hplaceholders name).1 hname)
  have hextra : ((built.map Prod.fst).find? fun name => name ∉ template.placeholders) = none := by
    refine find?_eq_none.2 fun name hname => ?_
    simpa only [decide_eq_true_eq, not_not] using (hplaceholders name).2 ((hkeys name).1 hname)
  unfold render
  rw [hbuilt]
  show (match template.placeholders.find? fun name => name ∉ built.map Prod.fst with
    | some name => _
    | none => _) = _
  rw [hmissing]
  show (match (built.map Prod.fst).find? fun name => name ∉ template.placeholders with
    | some name => _
    | none => _) = _
  rw [hextra]
  exact renderSegments_eq hget

/-- **Round trip.** Segments that are written out are parsed and rendered as the literals with the
values in between. -/
theorem render_parse_print {pad : Str} {segments : List Segment} (hpad : Blank pad)
    (h : Printable segments) :
    ∃ template, parse (printSegments pad segments) = .ok template ∧
      ∀ (value : Str → Str) (values : List (Str × Str)), Assigns value segments values →
        template.render values = .ok (expand value segments) := by
  obtain ⟨template, hparse, hsegments, hnames⟩ := parse_print hpad h
  have hmem : ∀ name, .placeholder name ∈ template.segments ↔ .placeholder name ∈ segments := by
    intro name
    rw [hsegments, placeholder_mem_foldl]
    simp
  refine ⟨template, hparse, fun value values hassigns => ?_⟩
  have hexpand : expand value template.segments = expand value segments := by
    rw [hsegments, expand_foldl_pushSegment]
    rfl
  rw [← hexpand]
  refine render_eq (fun name => (hnames name).trans (hmem name).symm) ?_
  exact ⟨hassigns.nodup, fun name => (hassigns.names name).trans (hmem name).symm, hassigns.values⟩

theorem printable_greeting : Printable
    [.literal "\x7b\x7b\x7d\x7d\x7d Hi ".toList, .placeholder "name".toList, .literal "\x7d!".toList] where
  names name hname := by
    obtain rfl : name = "name".toList := by simpa using hname
    exact ⟨by decide, by decide, by decide, by decide, by decide, by decide⟩
  chain := by
    rw [isChain_cons_cons, isChain_cons_cons]
    exact ⟨by unfold Segment.Follows; decide, trivial, isChain_singleton _⟩

theorem render_parse_print_greeting :
    ∃ template,
      parse ("\x7b\x7b\x7b\x7b\x7d\x7d\x7d\x7d\x7d Hi ".toList ++
        "\x7b\x7b name \x7d\x7d\x7d!".toList) = .ok template ∧
      ∀ (value : Str → Str) (values : List (Str × Str)),
        Assigns value [.literal "\x7b\x7b\x7d\x7d\x7d Hi ".toList, .placeholder "name".toList,
          .literal "\x7d!".toList] values →
        template.render values =
          .ok ("\x7b\x7b\x7d\x7d\x7d Hi ".toList ++ (value "name".toList ++ "\x7d!".toList)) :=
  have hblank : Blank " ".toList := by decide
  render_parse_print hblank printable_greeting

end Template

end Codex.Text
