import Codex.Text.Utf

/-!
# Offsets into texts

A text is addressed by byte offsets. A boundary is an offset between two characters.
Slices and replacements at other offsets panic; they are `none` here. An edit replaces
what is between two boundaries, and the boundaries before and after it are boundaries
of the new text (`IsBoundary.before_edit`, `IsBoundary.after_edit`).
-/

namespace Codex.Text

open List

/-- `str::split_at_checked`. -/
def splitAtByte : Str → ℕ → Option (Str × Str)
  | s, 0 => some ([], s)
  | [], _ + 1 => none
  | c :: s, n + 1 =>
    if c.utf8Size ≤ n + 1 then
      (splitAtByte s (n + 1 - c.utf8Size)).map fun (before, after) => (c :: before, after)
    else none

def isCharBoundary (s : Str) (pos : ℕ) : Bool := (splitAtByte s pos).isSome

/-- The parts of a text before, in and after a range. -/
def cutAt (s : Str) (start stop : ℕ) : Option (Str × Str × Str) :=
  if start ≤ stop then
    (splitAtByte s start).bind fun (before, rest) =>
      (splitAtByte rest (stop - start)).map fun (middle, after) => (before, middle, after)
  else none

/-- `&s[start..stop]`. -/
def slice (s : Str) (start stop : ℕ) : Option Str :=
  (cutAt s start stop).map fun (_, middle, _) => middle

/-- `String::replace_range`. -/
def replaceBytes (s : Str) (start stop : ℕ) (new : Str) : Option Str :=
  (cutAt s start stop).map fun (before, _, after) => before ++ new ++ after

/-- `String::insert_str`. -/
def insertBytes (s : Str) (pos : ℕ) (new : Str) : Option Str :=
  (splitAtByte s pos).map fun (before, after) => before ++ new ++ after

variable {s s' before middle after new : Str} {pos start stop : ℕ}

/-! ## Splitting -/

theorem utf8Len_nil : utf8Len [] = 0 := rfl

theorem utf8Len_cons (c : Char) (s : Str) : utf8Len (c :: s) = c.utf8Size + utf8Len s := by
  unfold utf8Len
  rw [map_cons, sum_cons]

theorem utf8Len_eq_zero : utf8Len s = 0 ↔ s = [] := by
  cases s with
  | nil => exact iff_of_true rfl rfl
  | cons c s =>
    rw [utf8Len_cons]
    have hpos := c.utf8Size_pos
    refine iff_of_false ?_ (cons_ne_nil c s)
    omega

theorem splitAtByte_zero :
    splitAtByte s 0 = some (before, after) ↔ s = before ++ after ∧ utf8Len before = 0 := by
  have hsplit : splitAtByte s 0 = some ([], s) := by cases s <;> rfl
  rw [hsplit, Option.some_inj, Prod.mk.injEq, utf8Len_eq_zero]
  constructor
  · rintro ⟨rfl, rfl⟩
    exact ⟨rfl, rfl⟩
  · rintro ⟨h, rfl⟩
    exact ⟨rfl, h⟩

theorem splitAtByte_eq_some :
    splitAtByte s pos = some (before, after) ↔ s = before ++ after ∧ utf8Len before = pos := by
  induction s generalizing pos before with
  | nil =>
    cases pos with
    | zero => exact splitAtByte_zero
    | succ n =>
      rw [splitAtByte]
      refine iff_of_false nofun ?_
      rintro ⟨h, hlen⟩
      rw [(append_eq_nil_iff.1 h.symm).1] at hlen
      cases hlen
  | cons c s ih =>
    cases pos with
    | zero => exact splitAtByte_zero
    | succ n =>
      rw [splitAtByte]
      constructor
      · intro h
        split at h
        · next hle =>
          obtain ⟨⟨first, rest⟩, hsplit, heq⟩ := Option.map_eq_some_iff.1 h
          cases heq
          obtain ⟨rfl, hlen⟩ := ih.1 hsplit
          refine ⟨rfl, ?_⟩
          rw [utf8Len_cons]
          omega
        · cases h
      · rintro ⟨h, hlen⟩
        cases before with
        | nil => cases hlen
        | cons d before =>
          obtain ⟨rfl, rfl⟩ := List.cons.inj h
          rw [utf8Len_cons] at hlen
          rw [if_pos (by omega), ih.2 ⟨rfl, by omega⟩]
          rfl

/-- An offset between two characters. -/
def IsBoundary (s : Str) (pos : ℕ) : Prop := ∃ before after, s = before ++ after ∧ utf8Len before = pos

theorem isCharBoundary_iff : isCharBoundary s pos = true ↔ IsBoundary s pos := by
  unfold isCharBoundary
  rw [Option.isSome_iff_exists]
  constructor
  · rintro ⟨⟨before, after⟩, h⟩
    exact ⟨before, after, splitAtByte_eq_some.1 h⟩
  · rintro ⟨before, after, h⟩
    exact ⟨(before, after), splitAtByte_eq_some.2 h⟩

instance : Decidable (IsBoundary s pos) := decidable_of_iff _ isCharBoundary_iff

theorem isBoundary_zero (s : Str) : IsBoundary s 0 := ⟨[], s, rfl, rfl⟩

theorem isBoundary_len (s : Str) : IsBoundary s (utf8Len s) := ⟨s, [], (append_nil s).symm, rfl⟩

theorem IsBoundary.le (h : IsBoundary s pos) : pos ≤ utf8Len s := by
  obtain ⟨before, after, rfl, rfl⟩ := h
  rw [utf8Len_append]
  omega

theorem IsBoundary.append (h : IsBoundary s pos) (t : Str) : IsBoundary (s ++ t) pos := by
  obtain ⟨before, after, rfl, rfl⟩ := h
  exact ⟨before, after ++ t, List.append_assoc before after t, rfl⟩

theorem IsBoundary.shift (h : IsBoundary s pos) (t : Str) : IsBoundary (t ++ s) (utf8Len t + pos) := by
  obtain ⟨before, after, rfl, rfl⟩ := h
  exact ⟨t ++ before, after, (List.append_assoc t before after).symm, utf8Len_append t before⟩

/-- Of two splits of a text the shorter one is a split of the longer one. -/
theorem append_split {t : Str} (h : before ++ after = s ++ t) (hlen : utf8Len before ≤ utf8Len s) :
    ∃ rest, s = before ++ rest ∧ after = rest ++ t := by
  rcases append_eq_append_iff.1 h with ⟨rest, hs, hafter⟩ | ⟨rest, hbefore, ht⟩
  · exact ⟨rest, hs, hafter⟩
  · have hnil : rest = [] := by
      rw [hbefore, utf8Len_append] at hlen
      apply utf8Len_eq_zero.1
      omega
    rw [hnil, append_nil] at hbefore
    rw [hnil, nil_append] at ht
    exact ⟨[], by rw [hbefore, append_nil], by rw [ht, nil_append]⟩

theorem IsBoundary.of_append {t : Str} (h : IsBoundary (s ++ t) pos) (hle : pos ≤ utf8Len s) :
    IsBoundary s pos := by
  obtain ⟨before, after, heq, rfl⟩ := h
  obtain ⟨rest, rfl, -⟩ := append_split heq.symm hle
  exact ⟨before, rest, rfl, rfl⟩

theorem IsBoundary.of_shift {t : Str} (h : IsBoundary (t ++ s) pos) (hle : utf8Len t ≤ pos) :
    IsBoundary s (pos - utf8Len t) := by
  obtain ⟨before, after, heq, rfl⟩ := h
  obtain ⟨rest, rfl, rfl⟩ := append_split heq hle
  refine ⟨rest, after, rfl, ?_⟩
  rw [utf8Len_append]
  omega

/-- Two boundaries cut a text into three parts. -/
theorem exists_parts (hstart : IsBoundary s start) (hstop : IsBoundary s stop) (hle : start ≤ stop) :
    ∃ before middle after, s = before ++ middle ++ after ∧ utf8Len before = start ∧
      utf8Len before + utf8Len middle = stop := by
  obtain ⟨first, after, rfl, rfl⟩ := hstop
  obtain ⟨before, rest, heq, rfl⟩ := hstart
  obtain ⟨middle, rfl, -⟩ := append_split heq.symm hle
  exact ⟨before, middle, after, rfl, rfl, (utf8Len_append before middle).symm⟩

/-! ## Slices and edits -/

theorem cutAt_eq_some : cutAt s start stop = some (before, middle, after) ↔
    s = before ++ middle ++ after ∧ utf8Len before = start ∧
      utf8Len before + utf8Len middle = stop := by
  unfold cutAt
  constructor
  · intro h
    split at h
    · next hle =>
      obtain ⟨⟨before, rest⟩, hfirst, h⟩ := Option.bind_eq_some_iff.1 h
      obtain ⟨⟨middle, after⟩, hsecond, heq⟩ := Option.map_eq_some_iff.1 h
      cases heq
      obtain ⟨rfl, rfl⟩ := splitAtByte_eq_some.1 hfirst
      obtain ⟨rfl, hlen⟩ := splitAtByte_eq_some.1 hsecond
      exact ⟨(List.append_assoc before middle after).symm, rfl, by omega⟩
    · cases h
  · rintro ⟨rfl, rfl, rfl⟩
    have hfirst : splitAtByte (before ++ middle ++ after) (utf8Len before) =
        some (before, middle ++ after) :=
      splitAtByte_eq_some.2 ⟨List.append_assoc before middle after, rfl⟩
    have hsecond : splitAtByte (middle ++ after) (utf8Len before + utf8Len middle - utf8Len before) =
        some (middle, after) := splitAtByte_eq_some.2 ⟨rfl, by omega⟩
    rw [if_pos (Nat.le_add_right _ _), hfirst]
    dsimp only [Option.bind_some]
    rw [hsecond]
    rfl

theorem slice_eq_some : slice s start stop = some middle ↔
    ∃ before after, s = before ++ middle ++ after ∧ utf8Len before = start ∧
      utf8Len before + utf8Len middle = stop := by
  unfold slice
  rw [Option.map_eq_some_iff]
  constructor
  · rintro ⟨⟨before, middle, after⟩, h, rfl⟩
    exact ⟨before, after, cutAt_eq_some.1 h⟩
  · rintro ⟨before, after, h⟩
    exact ⟨_, cutAt_eq_some.2 h, rfl⟩

theorem replaceBytes_eq_some : replaceBytes s start stop new = some s' ↔
    ∃ before middle after, s = before ++ middle ++ after ∧ utf8Len before = start ∧
      utf8Len before + utf8Len middle = stop ∧ s' = before ++ new ++ after := by
  unfold replaceBytes
  rw [Option.map_eq_some_iff]
  constructor
  · rintro ⟨⟨before, middle, after⟩, h, rfl⟩
    obtain ⟨heq, hstart, hstop⟩ := cutAt_eq_some.1 h
    exact ⟨before, middle, after, heq, hstart, hstop, rfl⟩
  · rintro ⟨before, middle, after, heq, hstart, hstop, rfl⟩
    exact ⟨_, cutAt_eq_some.2 ⟨heq, hstart, hstop⟩, rfl⟩

theorem insertBytes_eq_some : insertBytes s pos new = some s' ↔
    ∃ before after, s = before ++ after ∧ utf8Len before = pos ∧ s' = before ++ new ++ after := by
  unfold insertBytes
  rw [Option.map_eq_some_iff]
  constructor
  · rintro ⟨⟨before, after⟩, h, rfl⟩
    obtain ⟨heq, hpos⟩ := splitAtByte_eq_some.1 h
    exact ⟨before, after, heq, hpos, rfl⟩
  · rintro ⟨before, after, heq, hpos, rfl⟩
    exact ⟨_, splitAtByte_eq_some.2 ⟨heq, hpos⟩, rfl⟩

/-- The boundaries before an edit stay. -/
theorem IsBoundary.before_edit (h : IsBoundary (before ++ middle ++ after) pos)
    (hle : pos ≤ utf8Len before) (new : Str) : IsBoundary (before ++ new ++ after) pos := by
  rw [List.append_assoc] at h
  exact ((h.of_append hle).append new).append after

/-- The boundaries after an edit move along. -/
theorem IsBoundary.after_edit (h : IsBoundary (before ++ middle ++ after) pos)
    (hle : utf8Len before + utf8Len middle ≤ pos) (new : Str) :
    IsBoundary (before ++ new ++ after) (pos + utf8Len new - utf8Len middle) := by
  have hlen := utf8Len_append before middle
  have hafter := h.of_shift (by omega : utf8Len (before ++ middle) ≤ pos)
  have hshift := hafter.shift (before ++ new)
  rw [utf8Len_append, hlen] at hshift
  have heq : utf8Len before + utf8Len new + (pos - (utf8Len before + utf8Len middle)) =
      pos + utf8Len new - utf8Len middle := by omega
  rwa [heq] at hshift

theorem slice_before_edit {text : Str} (h : slice (before ++ middle ++ after) start stop = some text)
    (hle : stop ≤ utf8Len before) (new : Str) :
    slice (before ++ new ++ after) start stop = some text := by
  obtain ⟨left, right, heq, rfl, rfl⟩ := slice_eq_some.1 h
  rw [List.append_assoc before] at heq
  obtain ⟨rest, rfl, -⟩ := append_split heq.symm (by rwa [utf8Len_append])
  refine slice_eq_some.2 ⟨left, rest ++ new ++ after, ?_, rfl, rfl⟩
  simp only [List.append_assoc]

theorem slice_after_edit {text : Str} (h : slice (before ++ middle ++ after) start stop = some text)
    (hle : utf8Len before + utf8Len middle ≤ start) (new : Str) :
    slice (before ++ new ++ after) (start + utf8Len new - utf8Len middle)
      (stop + utf8Len new - utf8Len middle) = some text := by
  obtain ⟨left, right, heq, rfl, rfl⟩ := slice_eq_some.1 h
  rw [List.append_assoc left] at heq
  obtain ⟨rest, rfl, rfl⟩ := append_split heq (by rwa [utf8Len_append])
  refine slice_eq_some.2 ⟨before ++ new ++ rest, right, ?_, ?_, ?_⟩
  · simp only [List.append_assoc]
  · simp only [utf8Len_append]
    omega
  · simp only [utf8Len_append]
    omega

end Codex.Text
