import Codex.Text.Str

/-!
# Lines of a text

`splitNl` cuts a text at its newlines into the terminated lines and the
unterminated rest; `unlines` puts them back. `lines` is `str::lines`: a line
ends at `\n` or `\r\n`, the last ending is optional, and a carriage return that
ends the text stays. `joinNl` is `lines.join("\n")`.
-/

namespace Codex.Text

open List

def splitNl : Str → List Str × Str
  | [] => ([], [])
  | c :: s =>
    match splitNl s with
    | (ls, r) =>
      if c = '\n' then ([] :: ls, r)
      else match ls with
        | [] => ([], c :: r)
        | l :: ls => ((c :: l) :: ls, r)

/-- Terminated lines followed by an unterminated rest. -/
def unlines : List Str → Str → Str
  | [], r => r
  | l :: ls, r => l ++ '\n' :: unlines ls r

@[simp] theorem splitNl_nil : splitNl [] = ([], []) := rfl

theorem splitNl_cons (c : Char) (s : Str) :
    splitNl (c :: s) =
      if c = '\n' then ([] :: (splitNl s).1, (splitNl s).2)
      else match (splitNl s).1 with
        | [] => ([], c :: (splitNl s).2)
        | l :: ls => ((c :: l) :: ls, (splitNl s).2) := rfl

@[simp] theorem unlines_nil (r : Str) : unlines [] r = r := rfl

theorem unlines_cons (l : Str) (ls : List Str) (r : Str) :
    unlines (l :: ls) r = l ++ '\n' :: unlines ls r := rfl

/-- `str::lines`. -/
def lines (s : Str) : List Str :=
  (splitNl s).1.map stripCr ++ if (splitNl s).2 = [] then [] else [(splitNl s).2]

/-- `lines.join("\n")`. -/
def joinNl : List Str → Str
  | [] => []
  | [l] => l
  | l :: l' :: ls => l ++ '\n' :: joinNl (l' :: ls)

/-! ## Splitting and joining -/

theorem unlines_splitNl (s : Str) : unlines (splitNl s).1 (splitNl s).2 = s := by
  induction s with
  | nil => rfl
  | cons c s ih =>
    simp only [splitNl_cons]
    split
    · next h => simp [unlines_cons, ih, h]
    · next h =>
      split
      · next hl =>
        rw [hl] at ih
        simpa [unlines_cons] using ih
      · next l ls hl =>
        rw [hl] at ih
        simp only [unlines_cons] at ih
        simp [unlines_cons, ih]

variable {l s r : Str} {ls : List Str}

theorem splitNl_line (hl : '\n' ∉ l) :
    splitNl (l ++ '\n' :: s) = (l :: (splitNl s).1, (splitNl s).2) := by
  induction l with
  | nil => simp [splitNl_cons]
  | cons c l ih =>
    have hc : c ≠ '\n' := fun e => hl (by simp [e])
    rw [cons_append, splitNl_cons, ih (fun h => hl (mem_cons_of_mem _ h))]
    simp [hc]

theorem splitNl_of_not_mem (hr : '\n' ∉ r) : splitNl r = ([], r) := by
  induction r with
  | nil => rfl
  | cons c r ih =>
    have hc : c ≠ '\n' := fun e => hr (by simp [e])
    rw [splitNl_cons, ih (fun h => hr (mem_cons_of_mem _ h))]
    simp [hc]

theorem splitNl_unlines (hls : ∀ l ∈ ls, '\n' ∉ l) (hr : '\n' ∉ r) :
    splitNl (unlines ls r) = (ls, r) := by
  induction ls with
  | nil => exact splitNl_of_not_mem hr
  | cons l ls ih =>
    rw [unlines_cons, splitNl_line (hls l (by simp)), ih (fun l' h => hls l' (by simp [h]))]

theorem not_mem_splitNl (s : Str) : (∀ l ∈ (splitNl s).1, '\n' ∉ l) ∧ '\n' ∉ (splitNl s).2 := by
  induction s with
  | nil => simp
  | cons c s ih =>
    simp only [splitNl_cons]
    split
    · exact ⟨fun l hl => by
        rcases mem_cons.1 hl with rfl | hl
        · simp
        · exact ih.1 l hl, ih.2⟩
    · next hc =>
      split
      · next h => exact ⟨by simp, by simpa [Ne.symm hc] using ih.2⟩
      · next l ls h =>
        rw [h] at ih
        refine ⟨fun l' hl => ?_, ih.2⟩
        rcases mem_cons.1 hl with rfl | hl
        · simpa [Ne.symm hc] using ih.1 l (by simp)
        · exact ih.1 l' (by simp [hl])

theorem mem_newline_iff (s : Str) : '\n' ∈ s ↔ (splitNl s).1 ≠ [] := by
  constructor
  · intro h he
    have hs := unlines_splitNl s
    rw [he, unlines_nil] at hs
    have hr := (not_mem_splitNl s).2
    rw [hs] at hr
    exact hr h
  · intro h
    obtain ⟨l, ls, he⟩ := exists_cons_of_ne_nil h
    rw [← unlines_splitNl s, he, unlines_cons]
    simp

theorem unlines_append_right (ls : List Str) (r t : Str) : unlines ls (r ++ t) = unlines ls r ++ t := by
  induction ls with
  | nil => rfl
  | cons l ls ih => simp [unlines_cons, ih]

theorem unlines_append (ls ls' : List Str) (r : Str) :
    unlines (ls ++ ls') r = unlines ls (unlines ls' r) := by
  induction ls with
  | nil => rfl
  | cons l ls ih => simp [unlines_cons, ih]

theorem joinNl_concat (ls : List Str) (r : Str) : joinNl (ls ++ [r]) = unlines ls r := by
  induction ls with
  | nil => rfl
  | cons l ls ih =>
    cases ls with
    | nil => rfl
    | cons l' ls =>
      rw [cons_append, cons_append, joinNl, ← cons_append, ih]
      rfl

theorem lines_unlines (hls : ∀ l ∈ ls, '\n' ∉ l) (hr : '\n' ∉ r) (hne : r ≠ []) :
    lines (unlines ls r) = ls.map stripCr ++ [r] := by
  rw [lines, splitNl_unlines hls hr]
  simp [hne]

/-! ## Carriage returns -/

theorem stripCr_of_ne (h : s.getLast? ≠ some '\r') : stripCr s = s := by
  simp [stripCr, h]

/-- The lines of a file that ends with a newline. -/
theorem lines_terminated {ws : List Str}
    (h : ∀ w ∈ ws, '\n' ∉ w ∧ w.getLast? ≠ some '\r') : lines (unlines ws []) = ws := by
  rw [lines, splitNl_unlines (fun w hw => (h w hw).1) (by simp), if_pos rfl, append_nil]
  exact (map_congr_left fun w hw => stripCr_of_ne (h w hw).2).trans (map_id _)

theorem unlines_concat (ws : List Str) (line : Str) :
    unlines (ws ++ [line]) [] = unlines ws [] ++ line ++ ['\n'] := by
  rw [unlines_append, List.append_assoc, ← unlines_append_right]
  rfl

theorem stripCr_concat (s : Str) : stripCr (s ++ ['\r']) = s := by
  simp [stripCr]

/-- A line keeps its text, or loses one final carriage return. -/
theorem stripCr_cases (s : Str) : stripCr s = s ∧ s.getLast? ≠ some '\r' ∨ s = stripCr s ++ ['\r'] := by
  by_cases h : s.getLast? = some '\r'
  · right
    obtain ⟨t, rfl⟩ := getLast?_eq_some_iff.1 h
    rw [stripCr_concat]
  · exact .inl ⟨stripCr_of_ne h, h⟩

theorem mem_of_mem_stripCr {c : Char} (h : c ∈ stripCr s) : c ∈ s := by
  rcases stripCr_cases s with ⟨hs, -⟩ | hs
  · rwa [hs] at h
  · rw [hs]
    simp [h]

theorem trimEnd_concat_cr (s : Str) : trimEnd (s ++ ['\r']) = trimEnd s :=
  trimEnd_append_blank (by simp [Blank]; decide)

theorem trimEnd_stripCr (s : Str) : trimEnd (stripCr s) = trimEnd s := by
  rcases stripCr_cases s with ⟨hs, -⟩ | hs
  · rw [hs]
  · conv_rhs => rw [hs, trimEnd_concat_cr]

theorem trim_stripCr (s : Str) : trim (stripCr s) = trim s := by
  rw [trim, trimEnd_stripCr, trim]

/-! ## Trimming a text of several lines -/

theorem blank_newline_cons : Blank ('\n' :: s) ↔ Blank s := by
  have hn : isWhitespace '\n' = true := by decide
  simp [Blank, hn]

theorem blank_unlines (hls : ∀ l ∈ ls, Blank l) (hr : Blank r) : Blank (unlines ls r) := by
  induction ls with
  | nil => exact hr
  | cons l ls ih =>
    rw [unlines_cons, blank_append, blank_newline_cons]
    exact ⟨hls l (by simp), ih (fun l' h => hls l' (by simp [h]))⟩

theorem not_blank_unlines (hr : ¬ Blank r) : ¬ Blank (unlines ls r) := by
  induction ls with
  | nil => exact hr
  | cons l ls ih =>
    rw [unlines_cons, blank_append, blank_newline_cons]
    exact fun h => ih h.2

theorem trimEnd_unlines (hr : ¬ Blank r) : trimEnd (unlines ls r) = unlines ls (trimEnd r) := by
  induction ls with
  | nil => rfl
  | cons l ls ih =>
    have hb : ¬ Blank ('\n' :: unlines ls r) := by
      rw [blank_newline_cons]
      exact not_blank_unlines hr
    have hn : trimEnd ('\n' :: unlines ls r) = '\n' :: trimEnd (unlines ls r) :=
      trimEnd_append_of_not_blank (s := ['\n']) (not_blank_unlines hr)
    rw [unlines, trimEnd_append_of_not_blank hb, hn, ih, unlines_cons]

/-- Trimming a text whose first line and last line are not blank only trims these two. -/
theorem trim_unlines (hl : ¬ Blank l) (hr : ¬ Blank r) :
    trim (unlines (l :: ls) r) = unlines (trimStart l :: ls) (trimEnd r) := by
  rw [trim, trimEnd_unlines hr, unlines, trimStart_append_of_not_blank hl, unlines_cons]

/-- Blank lines at the end of a text are trimmed away with the last line ending. -/
theorem trim_unlines_blank {e : Str} {bs : List Str} (hl : ¬ Blank l) (he : ¬ Blank e)
    (hbs : ∀ b ∈ bs, Blank b) (hr : Blank r) :
    trim (unlines (l :: ls ++ e :: bs) r) = unlines (trimStart l :: ls) (trimEnd e) := by
  have htail : unlines (l :: ls ++ e :: bs) r =
      unlines (l :: ls) e ++ '\n' :: unlines bs r := by
    rw [unlines_append, ← unlines_append_right]
    rfl
  have hb : Blank ('\n' :: unlines bs r) := blank_newline_cons.2 (blank_unlines hbs hr)
  rw [htail, trim, trimEnd_append_blank hb, trimEnd_unlines he, unlines,
    trimStart_append_of_not_blank hl, unlines_cons]

end Codex.Text
