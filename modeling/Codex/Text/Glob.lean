import Codex.Text.Str

/-!
# Glob patterns

`*` matches any characters, `?` matches one, and every other character matches
itself up to ASCII case. There is no separator: `*` runs over dots. A pattern
without `*` and `?` is literal.
-/

namespace Codex.Text

open List

def globMatches : Str → Str → Bool
  | [], s => s.isEmpty
  | c :: p, s =>
    if c = '*' then s.tails.any (globMatches p)
    else
      match s with
      | [] => false
      | d :: s => (c = '?' || asciiLower c = asciiLower d) && globMatches p s

/-- No character of the pattern is a wildcard. -/
def Literal (p : Str) : Prop := ∀ c ∈ p, c ≠ '*' ∧ c ≠ '?'

instance (p : Str) : Decidable (Literal p) :=
  List.decidableBAll (fun c => c ≠ '*' ∧ c ≠ '?') p

/-! ## One character -/

theorem globMatches_cons (c : Char) (p s : Str) : globMatches (c :: p) s =
    if c = '*' then s.tails.any (globMatches p)
    else
      match s with
      | [] => false
      | d :: s => (c = '?' || asciiLower c = asciiLower d) && globMatches p s := rfl

variable {s p : Str}

theorem globMatches_nil : globMatches [] s = true ↔ s = [] := by
  exact List.isEmpty_iff

theorem globMatches_star :
    globMatches ('*' :: p) s = true ↔ ∃ a b, s = a ++ b ∧ globMatches p b = true := by
  simp only [globMatches_cons, if_true, any_eq_true, mem_tails]
  constructor
  · rintro ⟨b, ⟨a, rfl⟩, hb⟩
    exact ⟨a, b, rfl, hb⟩
  · rintro ⟨a, b, rfl, hb⟩
    exact ⟨b, ⟨a, rfl⟩, hb⟩

theorem globMatches_question :
    globMatches ('?' :: p) s = true ↔ ∃ d b, s = d :: b ∧ globMatches p b = true := by
  cases s with
  | nil => simp [globMatches_cons]
  | cons d s => simp [globMatches_cons]

theorem globMatches_char {c : Char} (hstar : c ≠ '*') (hq : c ≠ '?') :
    globMatches (c :: p) s = true ↔
      ∃ d b, s = d :: b ∧ asciiLower c = asciiLower d ∧ globMatches p b = true := by
  cases s with
  | nil => simp [globMatches_cons, hstar]
  | cons d s => simp [globMatches_cons, hstar, hq]

/-- A pattern in two parts matches the texts that split into matches of the parts. -/
theorem globMatches_append {q : Str} : globMatches (p ++ q) s = true ↔
      ∃ a b, s = a ++ b ∧ globMatches p a = true ∧ globMatches q b = true := by
  induction p generalizing s with
  | nil => simp [globMatches_nil]
  | cons c p ih =>
    rw [cons_append]
    by_cases hstar : c = '*'
    · subst hstar
      simp only [globMatches_star, ih]
      constructor
      · rintro ⟨a, _, rfl, b, r, rfl, hb, hr⟩
        exact ⟨a ++ b, r, by simp, ⟨a, b, rfl, hb⟩, hr⟩
      · rintro ⟨_, r, rfl, ⟨a, b, rfl, hb⟩, hr⟩
        exact ⟨a, b ++ r, by simp, b, r, rfl, hb, hr⟩
    · by_cases hq : c = '?'
      · subst hq
        simp only [globMatches_question, ih]
        constructor
        · rintro ⟨d, _, rfl, a, b, rfl, ha, hb⟩
          exact ⟨d :: a, b, rfl, ⟨d, a, rfl, ha⟩, hb⟩
        · rintro ⟨_, b, rfl, ⟨d, a, rfl, ha⟩, hb⟩
          exact ⟨d, a ++ b, rfl, a, b, rfl, ha, hb⟩
      · simp only [globMatches_char hstar hq, ih]
        constructor
        · rintro ⟨d, _, rfl, hd, a, b, rfl, ha, hb⟩
          exact ⟨d :: a, b, rfl, ⟨d, a, rfl, hd, ha⟩, hb⟩
        · rintro ⟨_, b, rfl, ⟨d, a, rfl, hd, ha⟩, hb⟩
          exact ⟨d, a ++ b, rfl, hd, a, b, rfl, ha, hb⟩

/-! ## Nonempty runs -/

/-- `?*` in front of a pattern takes any nonempty text. -/
theorem globMatches_question_star : globMatches ('?' :: '*' :: p) s = true ↔
      ∃ a b, s = a ++ b ∧ a ≠ [] ∧ globMatches p b = true := by
  simp only [globMatches_question, globMatches_star]
  constructor
  · rintro ⟨d, _, rfl, a, b, rfl, hb⟩
    exact ⟨d :: a, b, rfl, by simp, hb⟩
  · rintro ⟨a, b, rfl, ha, hb⟩
    obtain ⟨d, a, rfl⟩ := exists_cons_of_ne_nil ha
    exact ⟨d, a ++ b, rfl, a, b, rfl, hb⟩

/-- A pattern with a character other than `*` matches nonempty texts only. -/
theorem ne_nil_of_globMatches (hp : ∃ c ∈ p, c ≠ '*') (h : globMatches p s = true) : s ≠ [] := by
  induction p generalizing s with
  | nil => simp at hp
  | cons c p ih =>
    by_cases hstar : c = '*'
    · subst hstar
      obtain ⟨a, b, rfl, hb⟩ := globMatches_star.1 h
      have hp' : ∃ c ∈ p, c ≠ '*' := by simpa using hp
      simp [ih hp' hb]
    · rintro rfl
      simp [globMatches_cons, hstar] at h

/-! ## Literal patterns -/

/-- A literal pattern matches itself, up to case. -/
theorem globMatches_literal (hp : Literal p) :
    globMatches p s = true ↔ toAsciiLowercase s = toAsciiLowercase p := by
  induction p generalizing s with
  | nil => simp [globMatches_nil, toAsciiLowercase]
  | cons c p ih =>
    have hc := hp c (by simp)
    have hp' : Literal p := fun d hd => hp d (by simp [hd])
    rw [globMatches_char hc.1 hc.2]
    cases s with
    | nil => simp [toAsciiLowercase]
    | cons d s =>
      simp only [toAsciiLowercase, map_cons, List.cons.injEq] at ih ⊢
      constructor
      · rintro ⟨d', b, ⟨rfl, rfl⟩, hd, hb⟩
        exact ⟨hd.symm, (ih hp').1 hb⟩
      · rintro ⟨hd, hb⟩
        exact ⟨d, s, ⟨rfl, rfl⟩, hd.symm, (ih hp').2 hb⟩

end Codex.Text
