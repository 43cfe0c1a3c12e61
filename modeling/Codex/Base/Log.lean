import Mathlib.Data.List.Basic
import Mathlib.Data.Option.Basic

/-!
# Logs

A log grows at its end. `Since` is the past operator of temporal logic: an entry has
started something and no later entry has stopped it. `Justified` is what every entry
finds in the log before it. `StandsFor` is a history of numbered values, and `GrowsLast`
a list that is also written to in place at its last element.
-/

namespace Codex.Log

open List

variable {α : Type} {start stop : α → Prop} {due : List α → α → Prop} {log : List α} {x : α}

/-- Some entry is a `start`, and no later one a `stop`. -/
def Since (start stop : α → Prop) (log : List α) : Prop :=
  ∃ before entry after, log = before ++ entry :: after ∧ start entry ∧ ∀ y ∈ after, ¬ stop y

theorem since_concat (h : start x) : Since start stop (log ++ [x]) :=
  ⟨log, x, [], rfl, h, nofun⟩

theorem Since.concat (h : Since start stop log) (hx : ¬ stop x) : Since start stop (log ++ [x]) := by
  obtain ⟨before, entry, after, hlog, hentry, hafter⟩ := h
  refine ⟨before, entry, after ++ [x], ?_, hentry, ?_⟩
  · rw [hlog, List.append_assoc, cons_append]
  · intro y hy
    rcases mem_append.1 hy with hy | hy
    · exact hafter y hy
    · rw [mem_singleton.1 hy]
      exact hx

/-- Every entry is `due` after the ones before it. -/
def Justified (due : List α → α → Prop) (log : List α) : Prop :=
  ∀ before entry after, log = before ++ entry :: after → due before entry

theorem justified_nil : Justified due [] := by
  intro before entry after h
  cases before <;> cases h

theorem Justified.concat (h : Justified due log) (hx : due log x) : Justified due (log ++ [x]) := by
  intro before entry after hsplit
  rcases eq_nil_or_concat after with rfl | ⟨after, last, rfl⟩
  · obtain ⟨hbefore, hentry⟩ := append_inj' hsplit rfl
    cases hentry
    exact hbefore ▸ hx
  · have hsplit' : log ++ [x] = (before ++ entry :: after) ++ [last] := by
      rw [hsplit, List.append_assoc, cons_append, concat_eq_append]
    exact h before entry after (append_inj' hsplit' rfl).1

end Codex.Log

namespace Codex

/-! ## Revisions -/

section Revisions

variable {ν : Type} {history later : List ν} {revision : Option ℕ} {value other : Option ν}

/-- No revision stands for no value, and a revision for the value that it was
given to. -/
def StandsFor (history : List ν) : Option ℕ → Option ν → Prop
  | none, value => value = none
  | some revision, value => value.isSome ∧ history[revision]? = value

theorem StandsFor.unique (h : StandsFor history revision value)
    (hother : StandsFor history revision other) : value = other := by
  cases revision with
  | none => exact h.trans hother.symm
  | some revision => exact h.2.symm.trans hother.2

theorem StandsFor.mono (hgrow : history <+: later) (h : StandsFor history revision value) :
    StandsFor later revision value := by
  cases revision with
  | none => exact h
  | some revision =>
    obtain ⟨hsome, hvalue⟩ := h
    obtain ⟨rest, rfl⟩ := hgrow
    have hlt : revision < history.length := by
      rw [← hvalue] at hsome
      simpa using hsome
    exact ⟨hsome, by rw [List.getElem?_append_left hlt, hvalue]⟩

end Revisions

/-! ## Lists written at their end -/

variable {α : Type} {R : α → α → Prop} {l l' l'' : List α} {a a' : α}

/-- From `l` to `l'` only the last element changes, by `R`, and elements are added. -/
def GrowsLast (R : α → α → Prop) (l l' : List α) : Prop :=
  ∀ before a, l = before ++ [a] → ∃ a' after, l' = before ++ a' :: after ∧ R a a'

theorem growsLast_nil (R : α → α → Prop) (l : List α) : GrowsLast R [] l := by
  intro before a h
  exact absurd h.symm (List.append_ne_nil_of_right_ne_nil before (List.cons_ne_nil a []))

theorem growsLast_concat (h : R a a') (l after : List α) :
    GrowsLast R (l ++ [a]) (l ++ a' :: after) := by
  intro before b hsplit
  obtain ⟨rfl, hb⟩ := List.append_inj' hsplit rfl
  obtain rfl : a = b := List.singleton_inj.1 hb
  exact ⟨a', after, rfl, h⟩

theorem growsLast_append (hrefl : ∀ a, R a a) (l after : List α) : GrowsLast R l (l ++ after) := by
  rintro before a rfl
  exact ⟨a, after, List.append_assoc before [a] after, hrefl a⟩

theorem GrowsLast.refl (hrefl : ∀ a, R a a) (l : List α) : GrowsLast R l l := by
  have h := growsLast_append hrefl l []
  rwa [List.append_nil] at h

/-- What was settled stays settled, and the changes of the last element compose. -/
theorem GrowsLast.trans (htrans : ∀ {a b c}, R a b → R b c → R a c) (h : GrowsLast R l l')
    (h' : GrowsLast R l' l'') : GrowsLast R l l'' := by
  rintro before a rfl
  obtain ⟨b, after, rfl, hab⟩ := h before a rfl
  rcases List.eq_nil_or_concat after with rfl | ⟨rest, last, rfl⟩
  · obtain ⟨c, after', rfl, hbc⟩ := h' before b rfl
    exact ⟨c, after', rfl, htrans hab hbc⟩
  · have hsplit : before ++ b :: rest.concat last = (before ++ b :: rest) ++ [last] := by
      rw [List.concat_eq_append, List.append_assoc, List.cons_append]
    obtain ⟨c, after', rfl, -⟩ := h' _ _ hsplit
    exact ⟨b, rest ++ c :: after', by rw [List.append_assoc, List.cons_append], hab⟩

end Codex
