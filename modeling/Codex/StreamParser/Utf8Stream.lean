import Codex.StreamParser.HiddenTag
import Codex.Text.Utf8Validate

/-!
# Streamed UTF-8

`utf8_stream.rs`: `Utf8StreamParser` takes bytes in chunks and hands the text of them to a
parser of text. The bytes of a character that is not complete wait for the next chunk, and a
chunk that cannot be UTF-8 leaves everything as it was.
-/

namespace Codex.StreamParser

open List Codex.Text

/-- `StreamTextParser`, with the parser as a state. -/
structure StreamTextParser (σ ε : Type) where
  pushStr : σ → Str → σ × StreamTextChunk ε
  finish : σ → σ × StreamTextChunk ε

inductive Utf8StreamParserError
  | invalidUtf8 (validUpTo errorLen : ℕ)
  | incompleteUtf8AtEof
  deriving DecidableEq

structure Utf8StreamParser (σ : Type) where
  inner : σ
  pendingUtf8 : List ℕ := []
  deriving DecidableEq

/-- The parser after a call, and what the call returns. -/
abbrev Utf8StreamParser.Outcome (σ ε : Type) :=
  Utf8StreamParser σ × Except Utf8StreamParserError (StreamTextChunk ε)

section

variable {σ ε : Type} (text : StreamTextParser σ ε)

namespace Utf8StreamParser

def pushBytes (parser : Utf8StreamParser σ) (chunk : List ℕ) : Outcome σ ε :=
  let oldLen := parser.pendingUtf8.length
  let pending := parser.pendingUtf8 ++ chunk
  match fromUtf8 pending with
  | .ok decoded =>
    let (inner, out) := text.pushStr parser.inner decoded
    (⟨inner, []⟩, .ok out)
  | .error err =>
    match err.errorLen with
    | some errorLen =>
      (⟨parser.inner, pending.take oldLen⟩, .error (.invalidUtf8 err.validUpTo errorLen))
    | none =>
      let validUpTo := err.validUpTo
      if validUpTo = 0 then (⟨parser.inner, pending⟩, .ok .empty)
      else
        match fromUtf8 (pending.take validUpTo) with
        | .ok decoded =>
          let (inner, out) := text.pushStr parser.inner decoded
          (⟨inner, pending.drop validUpTo⟩, .ok out)
        | .error prefixErr =>
          (⟨parser.inner, pending.take oldLen⟩,
            .error (.invalidUtf8 prefixErr.validUpTo (prefixErr.errorLen.getD 0)))

/-- The chunks one after the other, those that fail among them. -/
def pushAll (parser : Utf8StreamParser σ) :
    List (List ℕ) →
      Utf8StreamParser σ × List (Except Utf8StreamParserError (StreamTextChunk ε))
  | [] => (parser, [])
  | chunk :: chunks =>
    let (parser, result) := pushBytes text parser chunk
    let (parser, results) := pushAll parser chunks
    (parser, result :: results)

end Utf8StreamParser

/-- The parser of text after some texts. -/
def StreamTextParser.after (inner : σ) (texts : List Str) : σ :=
  texts.foldl (fun inner decoded => (text.pushStr inner decoded).1) inner

/-- `InlineHiddenTagParser` as a parser of text: `finish` takes what it holds. -/
def hiddenTagParser {τ : Type} (specs : List (InlineTagSpec τ)) :
    StreamTextParser (InlineHiddenTagParser τ) (ExtractedInlineTag τ) where
  pushStr := InlineHiddenTagParser.pushStr specs
  finish parser := ({}, parser.finish)

/-- Bytes that wait are the beginning of a character. -/
def WaitingUtf8 (pending : List ℕ) : Prop :=
  pending = [] ∨ pending.length ≤ 3 ∧ fromUtf8 pending = .error ⟨0, none⟩

/-! ## One chunk -/

variable {text : StreamTextParser σ ε} {parser : Utf8StreamParser σ} {chunk pending : List ℕ}

open Utf8StreamParser

/-- **A chunk is handed on up to the character that is not complete, or refused as a whole.** -/
theorem pushBytes_cases (text : StreamTextParser σ ε) (parser : Utf8StreamParser σ)
    (chunk : List ℕ) :
    (∃ texts pending out, parser.pendingUtf8 ++ chunk = asBytes texts.flatten ++ pending ∧
      WaitingUtf8 pending ∧
      pushBytes text parser chunk = (⟨text.after parser.inner texts, pending⟩, .ok out)) ∨
    ∃ validUpTo errorLen,
      fromUtf8 (parser.pendingUtf8 ++ chunk) = .error ⟨validUpTo, some errorLen⟩ ∧
      pushBytes text parser chunk = (parser, .error (.invalidUtf8 validUpTo errorLen)) := by
  obtain ⟨decoded, rest, hbytes, ⟨rfl, hok⟩ | ⟨errorLen, herror, hrest⟩⟩ :=
    fromUtf8_spec (parser.pendingUtf8 ++ chunk)
  · refine Or.inl ⟨[decoded], [], (text.pushStr parser.inner decoded).2, ?_, Or.inl rfl, ?_⟩
    · rw [hbytes, flatten_singleton]
    · unfold pushBytes
      dsimp only
      rw [hok]
      rfl
  cases errorLen with
  | some errorLen =>
    refine Or.inr ⟨_, errorLen, herror, ?_⟩
    unfold pushBytes
    dsimp only
    rw [herror]
    dsimp only
    rw [take_left]
  | none =>
    obtain ⟨hlen, hwaiting⟩ := hrest rfl
    by_cases hzero : (asBytes decoded).length = 0
    · have hnil := eq_nil_of_length_eq_zero hzero
      refine Or.inl ⟨[], rest, .empty, ?_, Or.inr ⟨hlen, hwaiting⟩, ?_⟩
      · rw [hbytes, hnil]
        rfl
      · unfold pushBytes
        dsimp only
        rw [herror]
        dsimp only
        rw [if_pos hzero, hbytes, hnil]
        rfl
    · refine Or.inl ⟨[decoded], rest, (text.pushStr parser.inner decoded).2, ?_,
        Or.inr ⟨hlen, hwaiting⟩, ?_⟩
      · rw [hbytes, flatten_singleton]
      · unfold pushBytes
        dsimp only
        rw [herror]
        dsimp only
        rw [if_neg hzero, hbytes, take_left, drop_left, fromUtf8_asBytes]
        rfl

/-! ## Whole streams -/

theorem pushAll_spec (text : StreamTextParser σ ε) (parser : Utf8StreamParser σ)
    (chunks : List (List ℕ)) (hwaiting : WaitingUtf8 parser.pendingUtf8) :
    WaitingUtf8 (pushAll text parser chunks).1.pendingUtf8 ∧
    ∀ s rest, parser.pendingUtf8 ++ chunks.flatten ++ rest = asBytes s →
      (∀ result ∈ (pushAll text parser chunks).2, ∃ out, result = .ok out) ∧
      ∃ texts, (pushAll text parser chunks).1.inner = text.after parser.inner texts ∧
        parser.pendingUtf8 ++ chunks.flatten =
          asBytes texts.flatten ++ (pushAll text parser chunks).1.pendingUtf8 := by
  induction chunks generalizing parser with
  | nil =>
    refine ⟨hwaiting, fun s rest _ => ⟨nofun, [], rfl, ?_⟩⟩
    rw [flatten_nil, append_nil]
    rfl
  | cons chunk chunks ih =>
    rw [pushAll]
    rcases pushBytes_cases text parser chunk with
      ⟨texts, pending, out, hbytes, hpending, hpush⟩ | ⟨validUpTo, errorLen, herror, hpush⟩
    · rw [hpush]
      obtain ⟨hend, hvalid⟩ := ih ⟨text.after parser.inner texts, pending⟩ hpending
      refine ⟨hend, fun s rest hs => ?_⟩
      rw [flatten_cons, ← List.append_assoc, hbytes] at hs ⊢
      rw [List.append_assoc, List.append_assoc, ← List.append_assoc pending] at hs
      obtain ⟨s', -, hs'⟩ := exists_of_asBytes_append hs
      obtain ⟨hok, texts', hinner, hflat⟩ := hvalid s' rest hs'
      refine ⟨?_, texts ++ texts', ?_, ?_⟩
      · exact forall_mem_cons.2 ⟨⟨out, rfl⟩, hok⟩
      · have hafter : text.after parser.inner (texts ++ texts') =
            text.after (text.after parser.inner texts) texts' := foldl_append
        rw [hafter]
        exact hinner
      · rw [flatten_append, asBytes_append, List.append_assoc, List.append_assoc, ← hflat]
    · rw [hpush]
      obtain ⟨hend, -⟩ := ih parser hwaiting
      refine ⟨hend, fun s rest hs => ?_⟩
      rw [flatten_cons, ← List.append_assoc, List.append_assoc] at hs
      exact absurd hs (ne_asBytes_of_error herror _ s)

/-- A character of a text that waits for nothing more is not there. -/
theorem WaitingUtf8.eq_nil (h : WaitingUtf8 pending) {s : Str} (hs : pending = asBytes s) :
    pending = [] := by
  rcases h with hnil | ⟨-, herror⟩
  · exact hnil
  · rw [hs, fromUtf8_asBytes] at herror
    cases herror

/-- **However UTF-8 is cut into chunks, its text arrives, and a chunk that fails changes nothing.** -/
theorem pushAll_utf8 (text : StreamTextParser σ ε) (inner : σ) (chunks : List (List ℕ)) :
    (pushAll text ⟨inner, []⟩ chunks).1.pendingUtf8.length ≤ 3 ∧
    (∀ s rest, chunks.flatten ++ rest = asBytes s →
      (∀ result ∈ (pushAll text ⟨inner, []⟩ chunks).2, ∃ out, result = .ok out) ∧
      ∃ texts,
        (pushAll text ⟨inner, []⟩ chunks).1.inner = text.after inner texts ∧
        chunks.flatten =
          asBytes texts.flatten ++ (pushAll text ⟨inner, []⟩ chunks).1.pendingUtf8 ∧
        texts.flatten <+: s ∧
        (rest = [] → texts.flatten = s ∧
          (pushAll text ⟨inner, []⟩ chunks).1.pendingUtf8 = [])) ∧
    ∀ chunk error,
      (pushBytes text (pushAll text ⟨inner, []⟩ chunks).1 chunk).2 = .error error →
      (pushBytes text (pushAll text ⟨inner, []⟩ chunks).1 chunk).1 =
        (pushAll text ⟨inner, []⟩ chunks).1 := by
  obtain ⟨hwaiting, hvalid⟩ := pushAll_spec text ⟨inner, []⟩ chunks (Or.inl rfl)
  generalize pushAll text ⟨inner, []⟩ chunks = run at hwaiting hvalid ⊢
  refine ⟨?_, fun s rest hs => ?_, fun chunk error herror => ?_⟩
  · rcases hwaiting with hnil | ⟨hlen, -⟩
    · rw [hnil]
      exact Nat.zero_le 3
    · exact hlen
  · obtain ⟨hok, texts, hinner, hflat⟩ := hvalid s rest hs
    have hflat : chunks.flatten = asBytes texts.flatten ++ run.1.pendingUtf8 := hflat
    rw [hflat, List.append_assoc] at hs
    obtain ⟨s', rfl, hs'⟩ := exists_of_asBytes_append hs
    refine ⟨hok, texts, hinner, hflat, prefix_append _ _, ?_⟩
    rintro rfl
    rw [append_nil] at hs'
    have hnil := hwaiting.eq_nil hs'
    rw [hnil] at hs'
    rw [eq_nil_of_asBytes hs'.symm, append_nil]
    exact ⟨rfl, hnil⟩
  · rcases pushBytes_cases text run.1 chunk with
      ⟨texts, pending, out, -, -, hpush⟩ | ⟨validUpTo, errorLen, -, hpush⟩
    · rw [hpush] at herror
      cases herror
    · rw [hpush]

def noteSpec : InlineTagSpec Unit where
  tag := ()
  opening := "<n>".toList
  closing := "</n>".toList
  opening_ne := cons_ne_nil _ _
  closing_ne := cons_ne_nil _ _

/-- `a<n>€</n>b`, cut after the second of the three bytes of `€`. -/
def noteChunks : List (List ℕ) :=
  [[0x61, 0x3C, 0x6E, 0x3E, 0xE2, 0x82], [0xAC, 0x3C, 0x2F, 0x6E, 0x3E, 0x62]]

/-- A letter in a hidden tag is cut, and a chunk in its place is refused. -/
theorem pushAll_utf8_euro :
    ((∀ result ∈ (pushAll (hiddenTagParser [noteSpec]) ⟨{}, []⟩ noteChunks).2,
        ∃ out, result = .ok out) ∧
      (pushAll (hiddenTagParser [noteSpec]) ⟨{}, []⟩ noteChunks).2 =
        [.ok ⟨['a'], []⟩, .ok ⟨['b'], [⟨(), ['€']⟩]⟩]) ∧
    (pushBytes (hiddenTagParser [noteSpec])
      (pushAll (hiddenTagParser [noteSpec]) ⟨{}, []⟩ (noteChunks.take 1)).1 [0x62]).1 =
      (pushAll (hiddenTagParser [noteSpec]) ⟨{}, []⟩ (noteChunks.take 1)).1 := by
  refine ⟨⟨((pushAll_utf8 (hiddenTagParser [noteSpec]) {} noteChunks).2.1
    "a<n>€</n>b".toList [] (by decide)).1, by rfl⟩, ?_⟩
  exact (pushAll_utf8 (hiddenTagParser [noteSpec]) {} (noteChunks.take 1)).2.2 [0x62]
    (.invalidUtf8 0 2) (by rfl)

end

end Codex.StreamParser
