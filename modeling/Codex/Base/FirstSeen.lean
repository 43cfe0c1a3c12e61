import Mathlib.Data.List.Basic
import Mathlib.Data.List.Induction
import Mathlib.Data.List.Nodup

/-!
# Unions that keep what was seen first

A loop that pushes what it has not pushed before. It gives `List.eraseDups` of
all it has been given.
-/

namespace Codex

open List

variable {α : Type} [BEq α] [LawfulBEq α]

def pushNew (seen : List α) (a : α) : List α := if seen.contains a then seen else seen ++ [a]

theorem nodup_pushNew {seen : List α} (h : seen.Nodup) (a : α) : (pushNew seen a).Nodup := by
  unfold pushNew
  split
  · exact h
  · next hnew =>
    rw [nodup_append]
    refine ⟨h, nodup_singleton a, fun b hb c hc hbc => ?_⟩
    rw [mem_singleton.1 hc] at hbc
    exact hnew (contains_iff_mem.2 (hbc ▸ hb))

theorem eraseDups_concat (items : List α) (a : α) :
    (items ++ [a]).eraseDups = pushNew items.eraseDups a := by
  rw [eraseDups_append, pushNew]
  by_cases ha : a ∈ items
  · simp [ha, List.removeAll]
  · simp [ha, List.removeAll, eraseDups_cons]

theorem nodup_eraseDups (items : List α) : items.eraseDups.Nodup := by
  induction items using List.reverseRecOn with
  | nil => exact nodup_nil
  | append_singleton items a ih =>
    rw [eraseDups_concat]
    exact nodup_pushNew ih a

theorem eraseDups_of_nodup {items : List α} (h : items.Nodup) : items.eraseDups = items := by
  induction items using List.reverseRecOn with
  | nil => rfl
  | append_singleton items a ih =>
    obtain ⟨hitems, -, hdisjoint⟩ := nodup_append.1 h
    have hnew : a ∉ items := fun hmem => hdisjoint a hmem a (by simp) rfl
    rw [eraseDups_concat, ih hitems, pushNew, if_neg (mt contains_iff_mem.1 hnew)]

/-- Nothing new is left out, and nothing is pushed twice. -/
theorem foldl_pushNew (seen items : List α) :
    items.foldl pushNew seen.eraseDups = (seen ++ items).eraseDups := by
  induction items generalizing seen with
  | nil => rw [foldl_nil, append_nil]
  | cons a items ih =>
    rw [foldl_cons, ← eraseDups_concat, ih, List.append_assoc, singleton_append]

end Codex
