import Codex.Text.Str
import Mathlib.Data.Nat.Find

/-!
# Searching a text that is not complete

`str::find`, and what a search in a text says about the text with more behind
it. If the text does not contain the needle, all that has to be kept of it is
its longest suffix that begins the needle (`splitOnceStr_drop`).
-/

namespace Codex.Text

open List

variable {d s t a b p : Str}

/-- `s.find(d)`. -/
def find (s d : Str) : Option Nat := (splitOnceStr d s).map fun (before, _) => before.length

/-- `longest_suffix_prefix_len`: the length of the longest suffix of `s` that is a prefix of the
needle but not all of it. -/
def longestSuffixPrefixLen (s needle : Str) : Nat :=
  Nat.findGreatest (fun k => needle.take k <:+ s) (min s.length (needle.length - 1))

theorem splitOnceStr_take (h : splitOnceStr d s = some (a, b)) :
    s.take a.length = a ∧ s.drop (a.length + d.length) = b := by
  rw [splitOnceStr_eq h]
  constructor
  · rw [List.append_assoc, take_left']
    rfl
  · rw [← length_append, drop_left]

theorem splitOnceStr_cons (c : Char) (s : Str) :
    splitOnceStr d (c :: s) =
      if d <+: c :: s then some ([], (c :: s).drop d.length)
      else (splitOnceStr d s).map fun (a, b) => (c :: a, b) := by
  simp only [splitOnceStr]
  split
  · next r hr =>
    have heq := stripPrefix_eq_some.1 hr
    rw [if_pos ⟨r, heq.symm⟩, heq, drop_left]
  · next hr => rw [if_neg (stripPrefix_eq_none.1 hr)]

/-- The first occurrence stays the first when the text goes on. -/
theorem splitOnceStr_append (h : splitOnceStr d s = some (a, b)) (t : Str) :
    splitOnceStr d (s ++ t) = some (a, b ++ t) := by
  induction s generalizing a with
  | nil =>
    obtain ⟨r, hr, heq⟩ := Option.map_eq_some_iff.1 h
    cases heq
    have hd := stripPrefix_eq_some.1 hr
    obtain ⟨rfl, rfl⟩ := append_eq_nil_iff.1 hd.symm
    cases t with
    | nil => rfl
    | cons c t => rfl
  | cons c s ih =>
    rw [splitOnceStr_cons] at h
    rw [cons_append, splitOnceStr_cons]
    split at h
    · next hpre =>
      cases h
      have hlong : d <+: c :: (s ++ t) := hpre.trans ⟨t, rfl⟩
      rw [if_pos hlong, ← cons_append, drop_append_of_le_length hpre.length_le]
    · next hpre =>
      obtain ⟨⟨a', b'⟩, hs, heq⟩ := Option.map_eq_some_iff.1 h
      cases heq
      -- the needle fits into `s`, so it does not begin here with its end beyond the text
      have hlen : d.length ≤ s.length := by
        rw [splitOnceStr_eq hs]
        simp only [length_append]
        omega
      have hshort : ¬ d <+: c :: (s ++ t) := by
        intro hlong
        refine hpre (prefix_of_prefix_length_le hlong ⟨t, rfl⟩ ?_)
        rw [length_cons]
        omega
      rw [if_neg hshort, ih hs]
      rfl

/-- Characters at which the needle does not begin are passed over. -/
theorem splitOnceStr_skip (h : ∀ q r, p = q ++ r → r ≠ [] → ¬ d <+: r ++ s) :
    splitOnceStr d (p ++ s) = (splitOnceStr d s).map fun (a, b) => (p ++ a, b) := by
  induction p with
  | nil =>
    rw [nil_append]
    cases splitOnceStr d s with
    | none => rfl
    | some ab => rfl
  | cons c p ih =>
    have hhere : ¬ d <+: c :: (p ++ s) := h [] (c :: p) rfl (by simp)
    rw [cons_append, splitOnceStr_cons, if_neg hhere, ih]
    · cases splitOnceStr d s with
      | none => rfl
      | some ab => rfl
    · intro q r hp
      exact h (c :: q) r (by rw [hp, cons_append])

theorem not_prefix_of_splitOnceStr_none {q r : Str} (h : splitOnceStr d s = none) (hd : d ≠ [])
    (hs : s = q ++ r) : ¬ d <+: r := by
  induction s generalizing q with
  | nil =>
    obtain ⟨rfl, rfl⟩ := append_eq_nil_iff.1 hs.symm
    exact fun hpre => hd (prefix_nil.1 hpre)
  | cons c s ih =>
    rw [splitOnceStr_cons] at h
    split at h
    · cases h
    · next hpre =>
      cases q with
      | nil =>
        rw [nil_append] at hs
        exact hs ▸ hpre
      | cons e q =>
        rw [cons_append, List.cons.injEq] at hs
        exact ih (Option.map_eq_none_iff.1 h) hs.2

theorem longestSuffixPrefixLen_le (s needle : Str) : longestSuffixPrefixLen s needle ≤ s.length :=
  (Nat.findGreatest_le _).trans (min_le_left _ _)

theorem le_longestSuffixPrefixLen {r : Str} (hpre : r <+: d) (hsuf : r <:+ s)
    (hlt : r.length < d.length) : r.length ≤ longestSuffixPrefixLen s d := by
  apply Nat.le_findGreatest
  · have := hsuf.length_le
    omega
  · rwa [prefix_iff_eq_take.1 hpre] at hsuf

/-- **What has to be kept.** If `s` does not contain the needle, then in `s` with more behind it
the needle is found where it is found behind the longest suffix that begins it. -/
theorem splitOnceStr_drop (hd : d ≠ []) (h : splitOnceStr d s = none) (t : Str) :
    splitOnceStr d (s ++ t) =
      (splitOnceStr d (s.drop (s.length - longestSuffixPrefixLen s d) ++ t)).map fun (a, b) =>
        (s.take (s.length - longestSuffixPrefixLen s d) ++ a, b) := by
  have hkeep := longestSuffixPrefixLen_le s d
  generalize hcut : s.length - longestSuffixPrefixLen s d = cut
  have hsplit : s ++ t = s.take cut ++ (s.drop cut ++ t) := by
    rw [← List.append_assoc, take_append_drop]
  rw [hsplit]
  apply splitOnceStr_skip
  intro q r hq hr hpre
  have hs : s = q ++ (r ++ s.drop cut) := by
    rw [← List.append_assoc, ← hq, take_append_drop]
  rw [← List.append_assoc] at hpre
  by_cases hlen : d.length ≤ (r ++ s.drop cut).length
  · exact not_prefix_of_splitOnceStr_none h hd hs
      (prefix_of_prefix_length_le hpre ⟨t, rfl⟩ hlen)
  · push Not at hlen
    have hbegin : r ++ s.drop cut <+: d :=
      prefix_of_prefix_length_le ⟨t, rfl⟩ hpre hlen.le
    have hmax := le_longestSuffixPrefixLen hbegin ⟨q, hs.symm⟩ hlen
    have hpos := length_pos_iff.2 hr
    simp only [length_append, length_drop] at hmax
    omega

theorem splitOnceStr_drop_none (hd : d ≠ []) (h : splitOnceStr d s = none) :
    splitOnceStr d (s.drop (s.length - longestSuffixPrefixLen s d)) = none := by
  have hdrop := splitOnceStr_drop hd h []
  rw [append_nil, append_nil, h] at hdrop
  exact Option.map_eq_none_iff.1 hdrop.symm

end Codex.Text
