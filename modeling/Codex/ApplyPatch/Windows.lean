import Codex.ApplyPatch.Seek
import Codex.Base.Except
import Codex.Base.Machine
import Codex.Base.StableSort

/-!
# Where the chunks are placed

`compute_replacements` seeks the old lines of each chunk behind those of the chunk before, except
that a chunk for the end of the file is sought there whatever came before, and that lines which are
only added go to the end, or before a blank last line. These two are where the windows of two chunks
can overlap: they do not as long as such a chunk finds its place in what the chunks before it have
left of the file (`windows_disjoint_iff`).
-/

namespace Codex.ApplyPatch

open Codex.Text

variable {lines pattern : List Str} {chunk : UpdateFileChunk} {r : Replacement}

/-! ## Windows -/

/-- The line after the window. -/
def Replacement.stop (r : Replacement) : ℕ := r.startIndex + r.oldLen

/-- The window of `r` ends where that of `r'` begins, or before. -/
def Replacement.Before (r r' : Replacement) : Prop := r.stop ≤ r'.startIndex

instance : IsTrans Replacement Replacement.Before where
  trans a b c hab hbc := by
    unfold Replacement.Before Replacement.stop at *
    omega

theorem computeReplacements_eq (lines : List Str) (chunks : List UpdateFileChunk) :
    computeReplacements lines chunks =
      (locateChunks lines 0 chunks).map (sortByKey Replacement.startIndex) := by
  unfold computeReplacements
  cases locateChunks lines 0 chunks <;> rfl

/-! ## Seeking -/

theorem firstMatch_bounds {f : Str → Str} {start i : ℕ} (hlen : pattern.length ≤ lines.length)
    (h : firstMatch f lines pattern start = some i) :
    start ≤ i ∧ i + pattern.length ≤ lines.length := by
  have hmem := List.mem_of_find?_eq_some h
  rw [List.mem_range'_1] at hmem
  omega

/-- The lines are found at or after the start, or at the end of the file. -/
theorem seekSequence_bounds {start i : ℕ} {eof : Bool} (hstart : start ≤ lines.length)
    (h : seekSequence lines pattern start eof = some i) :
    i + pattern.length ≤ lines.length ∧
      (start ≤ i ∨ (eof = true ∧ i + pattern.length = lines.length)) ∧
      (eof = true → pattern ≠ [] → i + pattern.length = lines.length) := by
  unfold seekSequence at h
  split at h
  · next hempty =>
    cases h
    rw [List.isEmpty_iff] at hempty
    subst hempty
    exact ⟨hstart, .inl le_rfl, fun _ h => absurd rfl h⟩
  · next hempty =>
    split at h
    · cases h
    · next hlen =>
      rw [not_lt] at hlen
      simp only [Option.orElse_eq_orElse, Option.orElse_eq_or, Option.or_eq_some_iff] at h
      have hfound : ∃ f, firstMatch f lines pattern (if (eof &&
          decide (pattern.length ≤ lines.length)) = true then lines.length - pattern.length
          else start) = some i := by
        rcases h with h | ⟨-, h | ⟨-, h | ⟨-, h⟩⟩⟩
        · exact ⟨_, h⟩
        · exact ⟨_, h⟩
        · exact ⟨_, h⟩
        · exact ⟨_, h⟩
      obtain ⟨f, hf⟩ := hfound
      obtain ⟨hle, hend⟩ := firstMatch_bounds hlen hf
      cases eof with
      | true =>
        rw [decide_eq_true hlen, Bool.and_self, if_pos rfl] at hle
        have hlast : i + pattern.length = lines.length := by omega
        exact ⟨hend, .inr ⟨rfl, hlast⟩, fun _ _ => hlast⟩
      | false =>
        rw [Bool.false_and, if_neg Bool.false_ne_true] at hle
        exact ⟨hend, .inl hle, nofun⟩

/-- Where lines go that are only added. -/
def insertionIndex (lines : List Str) : ℕ :=
  if lastIsEmpty lines then lines.length - 1 else lines.length

/-- The line from which the old lines of a chunk are sought: the one after its context line. -/
def contextIndex (lines : List Str) (lineIndex : ℕ) (chunk : UpdateFileChunk) : Option ℕ :=
  match chunk.changeContext with
  | none => some lineIndex
  | some context => (seekSequence lines [context] lineIndex false).map (· + 1)

/-- The lines that are sought from `index` on: the old lines, or those before a blank last one if
they are not found. -/
def soughtLines (lines : List Str) (index : ℕ) (chunk : UpdateFileChunk) : List Str :=
  if (seekSequence lines chunk.oldLines index chunk.isEndOfFile).isNone &&
      lastIsEmpty chunk.oldLines then chunk.oldLines.dropLast
  else chunk.oldLines

/-- What placing a chunk from line `lineIndex` on gives, with the line from which the next one is
placed. -/
structure Placed (lines : List Str) (lineIndex : ℕ) (chunk : UpdateFileChunk) (r : Replacement)
    (next : ℕ) : Prop where
  lineIndex_le : lineIndex ≤ next
  next_le : next ≤ lines.length
  stop_le : r.stop ≤ lines.length
  adds : chunk.oldLines = [] → r.startIndex = insertionIndex lines ∧ r.oldLen = 0
  finds : chunk.oldLines ≠ [] → r.stop = next ∧ ∃ index,
    contextIndex lines lineIndex chunk = some index ∧ lineIndex ≤ index ∧
    r.oldLen = (soughtLines lines index chunk).length ∧
    seekSequence lines (soughtLines lines index chunk) index chunk.isEndOfFile = some r.startIndex

theorem insertionIndex_le (lines : List Str) : insertionIndex lines ≤ lines.length := by
  unfold insertionIndex
  split
  · omega
  · exact le_rfl

/-- The context line is found at or after the line index. -/
theorem contextIndex_bounds {lineIndex index : ℕ} (hindex : lineIndex ≤ lines.length)
    (h : contextIndex lines lineIndex chunk = some index) :
    lineIndex ≤ index ∧ index ≤ lines.length := by
  unfold contextIndex at h
  split at h
  · cases h
    exact ⟨le_rfl, hindex⟩
  · next context =>
    obtain ⟨i, hfound, rfl⟩ := Option.map_eq_some_iff.1 h
    obtain ⟨hend, hstart, -⟩ := seekSequence_bounds hindex hfound
    rw [List.length_singleton] at hend
    refine ⟨?_, hend⟩
    rcases hstart with hstart | ⟨heof, -⟩
    · omega
    · cases heof

/-- The place of a chunk whose old lines are sought from line `index` on. -/
def placeChunk (lines : List Str) (index : ℕ) (chunk : UpdateFileChunk) :
    Except ReplaceError (Replacement × ℕ) :=
  if chunk.oldLines.isEmpty then .ok (⟨insertionIndex lines, 0, chunk.newLines⟩, index)
  else
    let found := seekSequence lines chunk.oldLines index chunk.isEndOfFile
    let (pattern, newSlice, found) :=
      if found.isNone && lastIsEmpty chunk.oldLines then
        let pattern := chunk.oldLines.dropLast
        let newSlice := if lastIsEmpty chunk.newLines then chunk.newLines.dropLast else chunk.newLines
        (pattern, newSlice, seekSequence lines pattern index chunk.isEndOfFile)
      else (chunk.oldLines, chunk.newLines, found)
    match found with
    | some startIdx => .ok (⟨startIdx, pattern.length, newSlice⟩, startIdx + pattern.length)
    | none => .error (.linesNotFound chunk.oldLines)

theorem locateChunk_eq_ok {lineIndex next : ℕ}
    (h : locateChunk lines lineIndex chunk = .ok (r, next)) :
    ∃ index, contextIndex lines lineIndex chunk = some index ∧
      placeChunk lines index chunk = .ok (r, next) := by
  unfold locateChunk at h
  simp only at h
  split at h
  · next hnone =>
    refine ⟨lineIndex, ?_, h⟩
    simp only [contextIndex, hnone]
  · next context hsome =>
    split at h
    · next idx hfound =>
      refine ⟨idx + 1, ?_, h⟩
      simp only [contextIndex, hsome, hfound, Option.map_some]
    · cases h

/-- A chunk with old lines is placed where the lines are found that are sought. -/
theorem placeChunk_found {index next : ℕ} (hold : chunk.oldLines ≠ [])
    (h : placeChunk lines index chunk = .ok (r, next)) :
    r.oldLen = (soughtLines lines index chunk).length ∧ next = r.stop ∧
      seekSequence lines (soughtLines lines index chunk) index chunk.isEndOfFile =
        some r.startIndex := by
  have hempty : ¬ chunk.oldLines.isEmpty = true := fun hnil => hold (List.isEmpty_iff.1 hnil)
  unfold placeChunk at h
  rw [if_neg hempty] at h
  unfold soughtLines
  by_cases hretry : ((seekSequence lines chunk.oldLines index chunk.isEndOfFile).isNone &&
      lastIsEmpty chunk.oldLines) = true
  · simp only [if_pos hretry] at h ⊢
    cases hfound : seekSequence lines chunk.oldLines.dropLast index chunk.isEndOfFile with
    | none =>
      rw [hfound] at h
      cases h
    | some i =>
      rw [hfound] at h
      cases Except.ok.inj h
      exact ⟨rfl, rfl, rfl⟩
  · simp only [if_neg hretry] at h ⊢
    cases hfound : seekSequence lines chunk.oldLines index chunk.isEndOfFile with
    | none =>
      rw [hfound] at h
      cases h
    | some i =>
      rw [hfound] at h
      cases Except.ok.inj h
      exact ⟨rfl, rfl, rfl⟩

theorem placed_of_locateChunk {lineIndex next : ℕ} (hindex : lineIndex ≤ lines.length)
    (h : locateChunk lines lineIndex chunk = .ok (r, next)) :
    Placed lines lineIndex chunk r next := by
  obtain ⟨index, hcontext, h⟩ := locateChunk_eq_ok h
  obtain ⟨hle, hafter⟩ := contextIndex_bounds hindex hcontext
  by_cases hold : chunk.oldLines = []
  · unfold placeChunk at h
    rw [if_pos (List.isEmpty_iff.2 hold)] at h
    cases h
    exact ⟨hle, hafter, insertionIndex_le lines, fun _ => ⟨rfl, rfl⟩, fun hne => absurd hold hne⟩
  · obtain ⟨hlen, rfl, hfound⟩ := placeChunk_found hold h
    obtain ⟨hend, hstart, -⟩ := seekSequence_bounds hafter hfound
    rw [← hlen] at hend hstart
    refine ⟨?_, hend, hend, fun hnil => absurd hnil hold,
      fun _ => ⟨rfl, index, hcontext, hle, hlen, hfound⟩⟩
    unfold Replacement.stop
    rcases hstart with hstart | ⟨-, heof⟩
    · omega
    · omega

/-! ## The loop -/

/-- The variables of the loop before a chunk. -/
structure Locating where
  lineIndex : ℕ := 0
  replacements : List Replacement := []
  deriving DecidableEq

namespace Locating

def step (lines : List Str) (s : Locating) (chunk : UpdateFileChunk) : Option Locating :=
  match locateChunk lines s.lineIndex chunk with
  | .ok (r, next) => some ⟨next, s.replacements ++ [r]⟩
  | .error _ => none

/-- Up to which line windows are taken that start before the end of the file. -/
def taken (lines : List Str) (replacements : List Replacement) : ℕ :=
  replacements.foldr (fun r line => if r.startIndex < lines.length then max r.stop line else line) 0

/-- What is left of the file behind these windows. -/
def rest (lines : List Str) (s : Locating) : List Str := lines.drop (taken lines s.replacements)

/-- Lines were inserted in front of the last one. -/
def InsertsBeforeLast (lines : List Str) (s : Locating) : Prop :=
  ∃ r ∈ s.replacements, r.oldLen = 0 ∧ r.startIndex + 1 = lines.length

/-- The chunk finds its place in what is left of the file: for lines that are only added, the blank
last line; for a chunk for the end of the file, its lines at the end of the rest. After an insertion
in front of the last line a chunk is found without that line, or has one line only. -/
def KeepsOff (lines : List Str) (s : Locating) (chunk : UpdateFileChunk) : Prop :=
  if chunk.oldLines = [] then lastIsEmpty lines = true → lastIsEmpty (s.rest lines) = true
  else ∀ index ∈ contextIndex lines s.lineIndex chunk,
    let sought := soughtLines lines index chunk
    if chunk.isEndOfFile then (seekSequence (s.rest lines) sought 0 true).isSome = true
    else s.InsertsBeforeLast lines → sought.length ≤ 1 ∨
      seekSequence lines.dropLast sought index false = seekSequence lines sought index false

instance (lines : List Str) (s : Locating) : Decidable (s.InsertsBeforeLast lines) := by
  unfold InsertsBeforeLast
  infer_instance

instance (lines : List Str) (s : Locating) (chunk : UpdateFileChunk) :
    Decidable (s.KeepsOff lines chunk) := by
  unfold KeepsOff
  infer_instance

/-- What the loop keeps. -/
structure Sound (lines : List Str) (s : Locating) : Prop where
  index_le : s.lineIndex ≤ lines.length
  stop_le : ∀ r ∈ s.replacements, r.stop ≤ lines.length
  behind : ∀ r ∈ s.replacements, r.stop ≤ s.lineIndex ∨
    r.startIndex = insertionIndex lines ∧ r.oldLen = 0

theorem sound_start (lines : List Str) : ({} : Locating).Sound lines := ⟨Nat.zero_le _, nofun, nofun⟩

variable {s : Locating} {next : ℕ}

theorem step_of_locateChunk (h : locateChunk lines s.lineIndex chunk = .ok (r, next)) :
    s.step lines chunk = some ⟨next, s.replacements ++ [r]⟩ := by
  unfold step
  rw [h]

theorem Sound.step (h : s.Sound lines) (hr : Placed lines s.lineIndex chunk r next) :
    (⟨next, s.replacements ++ [r]⟩ : Locating).Sound lines := by
  refine ⟨hr.next_le, fun p hp => ?_, fun p hp => ?_⟩
  · rcases List.mem_append.1 hp with hp | hp
    · exact h.stop_le p hp
    · rw [List.mem_singleton.1 hp]
      exact hr.stop_le
  · rcases List.mem_append.1 hp with hp | hp
    · exact (h.behind p hp).imp_left fun hle => hle.trans hr.lineIndex_le
    · rw [List.mem_singleton.1 hp]
      by_cases hold : chunk.oldLines = []
      · exact .inr (hr.adds hold)
      · exact .inl (hr.finds hold).1.le

theorem taken_le_iff {replacements : List Replacement} {line : ℕ} :
    taken lines replacements ≤ line ↔
      ∀ r ∈ replacements, r.startIndex < lines.length → r.stop ≤ line := by
  induction replacements with
  | nil => exact iff_of_true (Nat.zero_le _) nofun
  | cons r replacements ih =>
    rw [List.forall_mem_cons, ← ih]
    show (if r.startIndex < lines.length then max r.stop (taken lines replacements)
      else taken lines replacements) ≤ line ↔ _
    split
    · next hlt =>
      rw [Nat.max_le]
      exact and_congr_left' ⟨fun hle _ => hle, fun himp => himp hlt⟩
    · next hge => exact (and_iff_right fun hlt => absurd hlt hge).symm

end Locating

theorem length_pos_of_lastIsEmpty (h : lastIsEmpty lines = true) : 0 < lines.length := by
  cases lines with
  | nil => cases h
  | cons line lines => exact Nat.succ_pos _

theorem lastIsEmpty_drop (h : lastIsEmpty lines = true) (m : ℕ) :
    lastIsEmpty (lines.drop m) = true ↔ m < lines.length := by
  unfold lastIsEmpty at *
  rw [List.getLast?_drop]
  split
  · next hle => exact iff_of_false Bool.false_ne_true (Nat.not_lt.2 hle)
  · next hlt => exact iff_of_true h (Nat.not_le.1 hlt)

theorem insertionIndex_cases (lines : List Str) :
    (lastIsEmpty lines = true ∧ insertionIndex lines + 1 = lines.length) ∨
      (lastIsEmpty lines = false ∧ insertionIndex lines = lines.length) := by
  unfold insertionIndex
  cases hblank : lastIsEmpty lines with
  | true =>
    have hlen := length_pos_of_lastIsEmpty hblank
    exact .inl ⟨rfl, by rw [if_pos rfl]; omega⟩
  | false => exact .inr ⟨rfl, if_neg Bool.false_ne_true⟩

/-! ## A chunk and the windows before it -/

section InOrder

variable {s : Locating} {next : ℕ}

/-- Lines that are only added: they go to the end, or before a blank last line. -/
theorem inOrder_iff_of_adds (h : s.Sound lines) (hr : Placed lines s.lineIndex chunk r next)
    (hadds : chunk.oldLines = []) :
    (∀ p ∈ s.replacements, InKeyOrder Replacement.startIndex Replacement.Before p r) ↔
      s.KeepsOff lines chunk := by
  obtain ⟨hstart, hlen⟩ := hr.adds hadds
  unfold Locating.KeepsOff
  rw [if_pos hadds]
  unfold InKeyOrder Replacement.Before
  rcases insertionIndex_cases lines with ⟨hblank, hindex⟩ | ⟨hblank, hindex⟩
  · rw [forall_prop_of_true hblank, Locating.rest, lastIsEmpty_drop hblank, ← hindex, Nat.lt_succ_iff,
      Locating.taken_le_iff]
    refine forall₂_congr fun p hp => ?_
    have hstop := h.stop_le p hp
    unfold Replacement.stop at *
    rw [hlen, hstart, ← hindex]
    split
    · omega
    · omega
  · rw [hblank]
    refine iff_of_true (fun p hp => ?_) fun hne => absurd hne Bool.false_ne_true
    have hstop := h.stop_le p hp
    unfold Replacement.stop at *
    rw [hlen, hstart, hindex]
    split
    · omega
    · omega

/-- Lines that stand at the end of the file. -/
theorem inOrder_iff_of_atEnd (h : s.Sound lines) (hend : r.stop = lines.length)
    (hlen : 0 < r.oldLen) :
    (∀ p ∈ s.replacements, InKeyOrder Replacement.startIndex Replacement.Before p r) ↔
      Locating.taken lines s.replacements + r.oldLen ≤ lines.length := by
  have hplace : Locating.taken lines s.replacements + r.oldLen ≤ lines.length ↔
      Locating.taken lines s.replacements ≤ r.startIndex := by
    unfold Replacement.stop at hend
    omega
  rw [hplace, Locating.taken_le_iff]
  refine forall₂_congr fun p hp => ?_
  have hstop := h.stop_le p hp
  unfold InKeyOrder Replacement.Before Replacement.stop at *
  split
  · omega
  · omega

/-- Lines that are found behind the line index. -/
theorem inOrder_iff_of_behind (h : s.Sound lines) (hstop : r.stop ≤ lines.length)
    (hbehind : s.lineIndex ≤ r.startIndex) :
    (∀ p ∈ s.replacements, InKeyOrder Replacement.startIndex Replacement.Before p r) ↔
      (s.InsertsBeforeLast lines → r.stop < lines.length ∨ lines.length ≤ r.startIndex + 1) := by
  constructor
  · rintro hall ⟨p, hp, hzero, hlast⟩
    have horder := hall p hp
    unfold InKeyOrder Replacement.Before Replacement.stop at *
    split at horder
    · omega
    · omega
  · intro hinserts p hp
    have hpstop := h.stop_le p hp
    have hcase := h.behind p hp
    have hlast : p.oldLen = 0 → p.startIndex + 1 = lines.length →
        r.stop < lines.length ∨ lines.length ≤ r.startIndex + 1 :=
      fun hzero hlast => hinserts ⟨p, hp, hzero, hlast⟩
    have hindex := insertionIndex_cases lines
    unfold InKeyOrder Replacement.Before Replacement.stop at *
    split
    · omega
    · omega

/-- The window of a chunk is in order with those before it exactly when the chunk keeps off them. -/
theorem inOrder_iff_keepsOff (h : s.Sound lines) (hr : Placed lines s.lineIndex chunk r next) :
    (∀ p ∈ s.replacements, InKeyOrder Replacement.startIndex Replacement.Before p r) ↔
      s.KeepsOff lines chunk := by
  by_cases hadds : chunk.oldLines = []
  · exact inOrder_iff_of_adds h hr hadds
  · obtain ⟨-, index, hcontext, hle, hlen, hfound⟩ := hr.finds hadds
    have hindex := (contextIndex_bounds h.index_le hcontext).2
    have hstop := hr.stop_le
    obtain ⟨-, hstart, hlast⟩ := seekSequence_bounds hindex hfound
    unfold Locating.KeepsOff
    rw [if_neg hadds, hcontext]
    simp only [Option.mem_some_iff, forall_eq']
    generalize soughtLines lines index chunk = sought at hlen hfound hstart hlast ⊢
    by_cases hempty : sought = []
    · -- nothing is left to seek: an insertion at the line where the search starts
      subst hempty
      have hzero : r.oldLen = 0 := hlen
      have hplace : r.startIndex = index := (Option.some_inj.1 hfound).symm
      rw [inOrder_iff_of_behind h hstop (by omega)]
      refine iff_of_true (fun _ => ?_) ?_
      · unfold Replacement.stop at *
        omega
      · split
        · rfl
        · exact fun _ => .inl (Nat.zero_le 1)
    · have hpos := List.length_pos_iff.2 hempty
      cases heof : chunk.isEndOfFile with
      | true =>
        rw [heof] at hfound
        have hend : r.stop = lines.length := by
          unfold Replacement.stop
          rw [hlen]
          exact hlast heof hempty
        rw [if_pos rfl, Locating.rest, seekSequence_drop_isSome_iff hempty hfound, ← hlen]
        exact inOrder_iff_of_atEnd h hend (by omega)
      | false =>
        rw [heof] at hfound hstart
        have hbehind : index ≤ r.startIndex := by
          rcases hstart with hstart | ⟨heof', -⟩
          · exact hstart
          · cases heof'
        have hsame : seekSequence lines.dropLast sought index false =
            seekSequence lines sought index false ↔ r.startIndex + sought.length ≤ lines.length - 1 := by
          rw [hfound]
          rw [seekSequence_eq hempty] at hfound ⊢
          rw [List.dropLast_eq_take]
          exact seekFrom_take_iff hempty hfound
        rw [if_neg Bool.false_ne_true, hsame, inOrder_iff_of_behind h hstop (hle.trans hbehind)]
        refine imp_congr_right fun _ => ?_
        unfold Replacement.stop at *
        omega

end InOrder

/-! ## The whole list -/

section Chunks

variable {chunks : List UpdateFileChunk} {placed : List Replacement} {lineIndex : ℕ}

theorem locateChunks_cons_eq_ok
    (h : locateChunks lines lineIndex (chunk :: chunks) = .ok placed) :
    ∃ r next rest, locateChunk lines lineIndex chunk = .ok (r, next) ∧
      locateChunks lines next chunks = .ok rest ∧ placed = r :: rest := by
  obtain ⟨⟨r, next⟩, hchunk, h⟩ := bind_eq_ok.1 h
  obtain ⟨rest, hrest, h⟩ := bind_eq_ok.1 h
  cases h
  exact ⟨r, next, rest, hchunk, hrest, rfl⟩

theorem stop_le_of_locateChunks (hindex : lineIndex ≤ lines.length)
    (h : locateChunks lines lineIndex chunks = .ok placed) :
    ∀ r ∈ placed, r.stop ≤ lines.length := by
  induction chunks generalizing lineIndex placed with
  | nil =>
    cases h
    exact nofun
  | cons chunk chunks ih =>
    obtain ⟨r, next, rest, hchunk, hrest, rfl⟩ := locateChunks_cons_eq_ok h
    have hr := placed_of_locateChunk hindex hchunk
    exact List.forall_mem_cons.2 ⟨hr.stop_le, ih hr.next_le hrest⟩

/-- The windows are in order, among themselves and with those placed before, when every chunk keeps
off the windows before it. -/
theorem pairwise_inOrder_iff {s : Locating} (hs : s.Sound lines)
    (h : locateChunks lines s.lineIndex chunks = .ok placed) :
    ((∀ p ∈ s.replacements, ∀ r ∈ placed,
        InKeyOrder Replacement.startIndex Replacement.Before p r) ∧
      placed.Pairwise (InKeyOrder Replacement.startIndex Replacement.Before)) ↔
    Machine.AllMeet (Locating.step lines) (Locating.KeepsOff lines) s chunks := by
  induction chunks generalizing s placed with
  | nil =>
    cases h
    exact iff_of_true ⟨fun _ _ => nofun, List.Pairwise.nil⟩ Machine.allMeet_nil
  | cons chunk chunks ih =>
    obtain ⟨r, next, rest, hchunk, hrest, rfl⟩ := locateChunks_cons_eq_ok h
    have hr := placed_of_locateChunk hs.index_le hchunk
    have hlater := ih (s := ⟨next, s.replacements ++ [r]⟩) (hs.step hr) hrest
    rw [Machine.allMeet_cons, Locating.step_of_locateChunk hchunk, ← inOrder_iff_keepsOff hs hr]
    simp only [Option.some.injEq, forall_eq']
    rw [← hlater, List.pairwise_cons]
    simp only [List.forall_mem_append, List.forall_mem_cons]
    constructor
    · rintro ⟨hbefore, hfirst, hpairs⟩
      exact ⟨fun p hp => (hbefore p hp).1, ⟨fun p hp => (hbefore p hp).2, hfirst, nofun⟩, hpairs⟩
    · rintro ⟨hbefore, ⟨hothers, hfirst, -⟩, hpairs⟩
      exact ⟨fun p hp => ⟨hbefore p hp, hothers p hp⟩, hfirst, hpairs⟩

end Chunks

/-- A chunk that replaces one line by another. -/
def replaceLine (old new : Str) (isEndOfFile : Bool) : UpdateFileChunk :=
  ⟨none, [old], [new], isEndOfFile⟩

end Codex.ApplyPatch
