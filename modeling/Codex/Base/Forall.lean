import Mathlib.Data.List.Forall2

/-!
# Lists related element by element

A split of one of two related lists is a split of the other, and what the relation carries
along holds of any two elements of both.
-/

namespace Codex

variable {α β : Type} {R : α → β → Prop}

variable {l : List α} {l' : List β}

theorem forall₂_split_left {pre : List α} {a : α} {post : List α} (h : List.Forall₂ R l l')
    (hl : l = pre ++ a :: post) :
    ∃ pre' b post', l' = pre' ++ b :: post' ∧ List.Forall₂ R pre pre' ∧ R a b ∧
      List.Forall₂ R post post' := by
  subst hl
  induction pre generalizing l' with
  | nil =>
    cases h with
    | cons hab hrest => exact ⟨[], _, _, rfl, .nil, hab, hrest⟩
  | cons x pre ih =>
    cases h with
    | cons hx hrest =>
      obtain ⟨pre', b, post', rfl, hpre, hab, hpost⟩ := ih hrest
      exact ⟨_ :: pre', b, post', rfl, .cons hx hpre, hab, hpost⟩

theorem forall₂_split_right {pre' : List β} {b : β} {post' : List β} (h : List.Forall₂ R l l')
    (hl : l' = pre' ++ b :: post') :
    ∃ pre a post, l = pre ++ a :: post ∧ List.Forall₂ R pre pre' ∧ R a b ∧
      List.Forall₂ R post post' := by
  obtain ⟨pre, a, post, hl, hpre, hab, hpost⟩ := forall₂_split_left h.flip hl
  exact ⟨pre, a, post, hl, hpre.flip, hab, hpost.flip⟩

theorem forall₂_mem_left {a : α} (h : List.Forall₂ R l l') (ha : a ∈ l) : ∃ b ∈ l', R a b := by
  obtain ⟨pre, post, rfl⟩ := List.append_of_mem ha
  obtain ⟨pre', b, post', rfl, -, hab, -⟩ := forall₂_split_left h rfl
  exact ⟨b, by simp, hab⟩

theorem forall₂_mem_right {b : β} (h : List.Forall₂ R l l') (hb : b ∈ l') : ∃ a ∈ l, R a b :=
  forall₂_mem_left h.flip hb

theorem pairwise_of_forall₂ {S : α → α → Prop} {S' : β → β → Prop} (h : List.Forall₂ R l l')
    (hl : l.Pairwise S) (hcarry : ∀ a b a' b', R a a' → R b b' → S a b → S' a' b') :
    l'.Pairwise S' := by
  induction h with
  | nil => exact .nil
  | cons hfirst hrest ih =>
    obtain ⟨hhead, htail⟩ := List.pairwise_cons.1 hl
    refine List.pairwise_cons.2 ⟨fun b' hb' => ?_, ih htail⟩
    obtain ⟨b, hb, hR⟩ := forall₂_mem_right hrest hb'
    exact hcarry _ b _ b' hfirst hR (hhead b hb)

end Codex
