import Mathlib.Order.Bounds.Basic
import Mathlib.Data.Set.Finite.Lattice

/-!
# Tiers

A value is chosen from two tiers and a fallback: the greatest element of the
first tier, if that is empty of the second, and if both are empty the fallback.
`tierMax_union_bot_iff` says when more elements that are least can be added to
both tiers without changing the choice.
-/

namespace Codex

variable {α : Type} [LinearOrder α] {first second : Set α} {fallback d d' : α}

/-- The choice is `d`. -/
def TierMax (first second : Set α) (fallback d : α) : Prop :=
  IsGreatest first d ∨ (first = ∅ ∧ IsGreatest second d) ∨
    (first = ∅ ∧ second = ∅ ∧ d = fallback)

theorem tierMax_of_first (h : first ≠ ∅) :
    TierMax first second fallback d ↔ IsGreatest first d := by
  constructor
  · rintro (hd | ⟨he, -⟩ | ⟨he, -⟩)
    · exact hd
    · exact absurd he h
    · exact absurd he h
  · exact .inl

theorem tierMax_of_second (h : first = ∅) (h' : second ≠ ∅) :
    TierMax first second fallback d ↔ IsGreatest second d := by
  constructor
  · rintro (hd | ⟨-, hd⟩ | ⟨-, he, -⟩)
    · exact absurd h hd.nonempty.ne_empty
    · exact hd
    · exact absurd he h'
  · exact fun hd => .inr (.inl ⟨h, hd⟩)

theorem tierMax_of_fallback (h : first = ∅) (h' : second = ∅) :
    TierMax first second fallback d ↔ d = fallback := by
  constructor
  · rintro (hd | ⟨-, hd⟩ | ⟨-, -, hd⟩)
    · exact absurd h hd.nonempty.ne_empty
    · exact absurd h' hd.nonempty.ne_empty
    · exact hd
  · exact fun hd => .inr (.inr ⟨h, h', hd⟩)

theorem TierMax.unique (h : TierMax first second fallback d)
    (h' : TierMax first second fallback d') : d = d' := by
  by_cases h₁ : first = ∅
  · by_cases h₂ : second = ∅
    · rw [tierMax_of_fallback h₁ h₂] at h h'
      rw [h, h']
    · rw [tierMax_of_second h₁ h₂] at h h'
      exact h.unique h'
  · rw [tierMax_of_first h₁] at h h'
    exact h.unique h'

/-! ## Adding least elements -/

variable [OrderBot α]

theorem isGreatest_union_bot {s t : Set α} (hs : s ≠ ∅) (ht : t ⊆ {⊥}) :
    IsGreatest (s ∪ t) d ↔ IsGreatest s d := by
  obtain ⟨x, hx⟩ := Set.nonempty_iff_ne_empty.2 hs
  have hupper : d ∈ upperBounds (s ∪ t) ↔ d ∈ upperBounds s := by
    rw [upperBounds_union]
    refine ⟨fun h => h.1, fun h => ⟨h, fun y hy => ?_⟩⟩
    rw [ht hy]
    exact bot_le
  constructor
  · rintro ⟨hd | hd, hu⟩
    · exact ⟨hd, hupper.1 hu⟩
    · -- a least element that bounds `s` is in `s`
      have hbot : d = ⊥ := ht hd
      have hle : x ≤ d := hu (.inl hx)
      rw [hbot, le_bot_iff] at hle
      exact ⟨by rw [hbot, ← hle]; exact hx, hupper.1 hu⟩
  · exact fun h => ⟨.inl h.1, hupper.2 h.2⟩

theorem isGreatest_bot {s : Set α} (hne : s ≠ ∅) (h : s ⊆ {⊥}) :
    IsGreatest s d ↔ d = ⊥ := by
  obtain ⟨x, hx⟩ := Set.nonempty_iff_ne_empty.2 hne
  have hs : s = {⊥} := by
    refine Set.Subset.antisymm h ?_
    rintro _ rfl
    rw [← h hx]
    exact hx
  rw [hs]
  constructor
  · exact fun hd => hd.1
  · rintro rfl
    exact isGreatest_singleton

/-- **When least elements change nothing**: if the first tier is empty, then what is added to it
finds only least elements in the second, and what is added to the second finds some there. -/
theorem tierMax_union_bot_iff [Nontrivial α] {first' second' : Set α} (h₁ : first' ⊆ {⊥})
    (h₂ : second' ⊆ {⊥}) :
    (∀ fallback d, TierMax first second fallback d ↔
        TierMax (first ∪ first') (second ∪ second') fallback d) ↔
      (first = ∅ → (first' ≠ ∅ → second ≠ ∅ ∧ second ⊆ {⊥}) ∧ (second' ≠ ∅ → second ≠ ∅)) := by
  by_cases hfirst : first = ∅
  case neg =>
    have hunion : first ∪ first' ≠ ∅ := fun h => hfirst (Set.union_empty_iff.1 h).1
    refine iff_of_true (fun fallback d => ?_) (fun h => absurd h hfirst)
    rw [tierMax_of_first hfirst, tierMax_of_first hunion, isGreatest_union_bot hfirst h₁]
  subst hfirst
  simp only [Set.empty_union, true_implies]
  obtain ⟨t, ht⟩ := exists_ne (⊥ : α)
  by_cases hf : first' = ∅
  · subst hf
    simp only [ne_eq, not_true_eq_false, false_implies, true_and]
    by_cases hsecond : second = ∅
    · subst hsecond
      by_cases hs : second' = ∅
      · simp [hs]
      · refine iff_of_false (fun h => ?_) (fun h => h hs rfl)
        have hchoice := (h t t).1 ((tierMax_of_fallback rfl rfl).2 rfl)
        rw [Set.empty_union, tierMax_of_second rfl hs, isGreatest_bot hs h₂] at hchoice
        exact ht hchoice
    · have hunion : second ∪ second' ≠ ∅ := fun h => hsecond (Set.union_empty_iff.1 h).1
      refine iff_of_true (fun fallback d => ?_) (fun _ => hsecond)
      rw [tierMax_of_second rfl hsecond, tierMax_of_second rfl hunion,
        isGreatest_union_bot hsecond h₂]
  · have hright : ∀ fallback d, TierMax first' (second ∪ second') fallback d ↔ d = ⊥ :=
      fun fallback d => by rw [tierMax_of_first hf, isGreatest_bot hf h₁]
    simp only [hright]
    constructor
    · intro h
      have hsecond : second ≠ ∅ := by
        intro he
        exact ht ((h t t).1 ((tierMax_of_fallback rfl he).2 rfl))
      refine ⟨fun _ => ⟨hsecond, fun y hy => ?_⟩, fun _ => hsecond⟩
      -- the choice is least, and it bounds the second tier
      have hbot := (h t ⊥).2 rfl
      rw [tierMax_of_second rfl hsecond] at hbot
      exact le_bot_iff.1 (hbot.2 hy)
    · rintro ⟨h, -⟩ fallback d
      obtain ⟨hsecond, hbot⟩ := h hf
      rw [tierMax_of_second rfl hsecond, isGreatest_bot hsecond hbot]

end Codex
