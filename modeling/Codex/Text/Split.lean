import Codex.Text.Str

/-!
# Cutting strings at separators

`str::split`: the parts between the characters that separate.
-/

namespace Codex.Text

open List

theorem splitOnP_join {p : Char → Bool} {sep : Char} (hsep : p sep = true) {part : Str}
    {parts : List Str} (h : ∀ l ∈ part :: parts, ∀ c ∈ l, p c = false) :
    (part ++ parts.flatMap (sep :: ·)).splitOnP p = part :: parts := by
  induction parts generalizing part with
  | nil =>
    rw [flatMap_nil, append_nil]
    exact splitOnP_eq_singleton (h part mem_cons_self)
  | cons next parts ih =>
    rw [flatMap_cons, cons_append,
      splitOnP_append_cons_of_forall_mem (h part mem_cons_self) sep hsep,
      ih fun l hl => h l (mem_cons_of_mem _ hl)]

theorem mem_splitOnP {p : Char → Bool} {s : Str} :
    ∀ part ∈ s.splitOnP p, ∀ c ∈ part, c ∈ s ∧ p c = false := by
  induction s with
  | nil =>
    intro part hpart c hc
    rw [splitOnP_nil, mem_singleton] at hpart
    rw [hpart] at hc
    cases hc
  | cons d s ih =>
    intro part hpart c hc
    rw [splitOnP_cons_eq_if_modifyHead] at hpart
    split at hpart
    · rcases mem_cons.1 hpart with rfl | hpart
      · cases hc
      · exact ⟨mem_cons_of_mem _ (ih part hpart c hc).1, (ih part hpart c hc).2⟩
    · next hd =>
      obtain ⟨first, rest, hsplit⟩ := exists_cons_of_ne_nil (splitOnP_ne_nil p s)
      rw [hsplit] at hpart ih
      rcases mem_cons.1 hpart with rfl | hpart
      · rcases mem_cons.1 hc with rfl | hc
        · exact ⟨mem_cons_self, by simpa using hd⟩
        · have h := ih first mem_cons_self c hc
          exact ⟨mem_cons_of_mem _ h.1, h.2⟩
      · have h := ih part (mem_cons_of_mem _ hpart) c hc
        exact ⟨mem_cons_of_mem _ h.1, h.2⟩

/-- A second part comes after a separator. -/
theorem splitOnP_eq_cons_cons {p : Char → Bool} {s first second : Str} {parts : List Str}
    (h : s.splitOnP p = first :: second :: parts) :
    ∃ sep rest, s = first ++ sep :: rest ∧ p sep = true := by
  induction s generalizing first with
  | nil =>
    rw [splitOnP_nil] at h
    cases h
  | cons c s ih =>
    rw [splitOnP_cons_eq_if_modifyHead] at h
    split at h
    · next hc =>
      rw [← (List.cons.inj h).1]
      exact ⟨c, s, rfl, hc⟩
    · obtain ⟨head, rest, hsplit⟩ := exists_cons_of_ne_nil (splitOnP_ne_nil p s)
      rw [hsplit] at h
      cases h
      obtain ⟨sep, rest, rfl, hsep⟩ := ih hsplit
      exact ⟨sep, rest, rfl, hsep⟩

end Codex.Text
