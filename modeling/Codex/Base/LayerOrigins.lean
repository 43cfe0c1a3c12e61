import Codex.Base.Tree

/-!
# Where the scalars of a pile of layers come from

Layers with a name each. The origin of a written path is the highest layer with a
scalar that is written so. Origins describe the merged layers exactly when no
layer displaces a scalar of a lower one that is not supplied again above
(`describes_iff_undisplaced`).
-/

namespace Codex.Tree

open List

variable {κ α μ σ : Type} [DecidableEq κ] [DecidableEq σ] {render : Step κ → σ}
  {layers : List (μ × Tree κ α)} {path : List (Step κ)} {written : List σ}

/-- The layer has a scalar that is written so. -/
def supplies (render : Step κ → σ) (written : List σ) (layer : Tree κ α) : Bool :=
  layer.leafPaths.any fun path => path.map render = written

/-- The highest layer, which is the last one, that has a scalar written so. -/
def originOf (render : Step κ → σ) (layers : List (μ × Tree κ α)) (written : List σ) : Option μ :=
  (layers.reverse.find? fun layer => supplies render written layer.2).map Prod.fst

def merged (layers : List (μ × Tree κ α)) : Tree κ α := mergeAll (layers.map Prod.snd)

/-- Origins describe the merge: they have exactly one entry for each of its scalars, which names the
highest layer with that scalar. -/
structure Describes (render : Step κ → σ) (layers : List (μ × Tree κ α)) : Prop where
  entry : ∀ written, originOf render layers written ≠ none ↔
    ∃ path, leaf? path (merged layers) ≠ none ∧ path.map render = written
  once : ∀ path path', leaf? path (merged layers) ≠ none → leaf? path' (merged layers) ≠ none →
    path.map render = path'.map render → path = path'
  names : ∀ path, leaf? path (merged layers) ≠ none →
    ∃ below layer above, layers = below ++ layer :: above ∧ leaf? path layer.2 ≠ none ∧
      (∀ other ∈ above, leaf? path other.2 = none) ∧
      originOf render layers (path.map render) = some layer.1

/-- A scalar that no higher layer supplies is displaced by none of them. -/
def Undisplaced (render : Step κ → σ) (layers : List (μ × Tree κ α)) : Prop :=
  ∀ below layer above path, layers = below ++ layer :: above → path ∈ layer.2.leafPaths →
    (∀ other ∈ above, supplies render (path.map render) other.2 = false) →
    ∀ other ∈ above, displaces path other.2 = false

theorem undisplaced_nil : Undisplaced render ([] : List (μ × Tree κ α)) := by
  intro below layer above path hsplit
  cases below <;> cases hsplit

theorem undisplaced_cons (layer : μ × Tree κ α) (above : List (μ × Tree κ α)) :
    Undisplaced render (layer :: above) ↔
      (∀ path ∈ layer.2.leafPaths,
        (∀ other ∈ above, supplies render (path.map render) other.2 = false) →
          ∀ other ∈ above, displaces path other.2 = false) ∧
      Undisplaced render above := by
  constructor
  · intro h
    refine ⟨fun path => h [] layer above path rfl, ?_⟩
    exact fun below lower higher path hsplit => h (layer :: below) lower higher path (by rw [hsplit]; rfl)
  · rintro ⟨hfirst, hrest⟩ below lower higher path hsplit
    cases below with
    | nil =>
      obtain ⟨rfl, rfl⟩ := List.cons.inj hsplit
      exact hfirst path
    | cons first below =>
      obtain ⟨rfl, rfl⟩ := List.cons.inj hsplit
      exact hrest below lower higher path rfl

instance decidableUndisplaced : (layers : List (μ × Tree κ α)) → Decidable (Undisplaced render layers)
  | [] => .isTrue undisplaced_nil
  | layer :: above =>
    have := decidableUndisplaced above
    decidable_of_iff' _ (undisplaced_cons layer above)

theorem supplies_iff {layer : Tree κ α} (h : layer.distinctKeys = true) :
    supplies render written layer = true ↔
      ∃ path, leaf? path layer ≠ none ∧ path.map render = written := by
  simp [supplies, mem_leafPaths h]

omit [DecidableEq κ] in
theorem originOf_eq_some_iff {name : μ} :
    originOf render layers written = some name ↔
      ∃ below layer above, layers = below ++ layer :: above ∧
        supplies render written layer.2 = true ∧
        (∀ other ∈ above, supplies render written other.2 = false) ∧ layer.1 = name := by
  rw [originOf, Option.map_eq_some_iff]
  simp only [find?_eq_some_iff_append, Bool.not_eq_true']
  constructor
  · rintro ⟨layer, ⟨hlayer, above, below, hsplit, habove⟩, rfl⟩
    refine ⟨below.reverse, layer, above.reverse, ?_, hlayer, ?_, rfl⟩
    · rw [← reverse_reverse layers, hsplit]
      simp
    · exact fun other hother => habove other (mem_reverse.1 hother)
  · rintro ⟨below, layer, above, rfl, hlayer, habove, rfl⟩
    refine ⟨layer, ⟨hlayer, above.reverse, below.reverse, by simp, ?_⟩, rfl⟩
    exact fun other hother => habove other (mem_reverse.1 hother)

omit [DecidableEq κ] in
theorem originOf_append (top : μ × Tree κ α) :
    originOf render (layers ++ [top]) written =
      if supplies render written top.2 then some top.1 else originOf render layers written := by
  rw [originOf, reverse_append, reverse_singleton, singleton_append, find?_cons]
  cases supplies render written top.2 <;> rfl

theorem leaf?_merged (h : ∀ layer ∈ layers, layer.2.distinctKeys = true) :
    leaf? path (merged layers) ≠ none ↔
      ∃ below layer above, layers = below ++ layer :: above ∧ leaf? path layer.2 ≠ none ∧
        ∀ other ∈ above, leaf? path other.2 = none ∧ displaces path other.2 = false := by
  have htrees : ∀ t ∈ layers.map Prod.snd, t.distinctKeys = true := by
    simpa using fun t name hmem => h (name, t) hmem
  rw [merged, Option.ne_none_iff_exists']
  simp only [leaf?_mergeAll htrees]
  constructor
  · rintro ⟨a, below, t, above, hsplit, hleaf, habove⟩
    obtain ⟨below', rest, rfl, rfl, hrest⟩ := map_eq_append_iff.1 hsplit
    obtain ⟨layer, above', rfl, rfl, rfl⟩ := map_eq_cons_iff.1 hrest
    refine ⟨below', layer, above', rfl, by simp [hleaf], fun other hother => ?_⟩
    exact habove other.2 (mem_map_of_mem hother)
  · rintro ⟨below, layer, above, rfl, hleaf, habove⟩
    obtain ⟨a, ha⟩ := Option.ne_none_iff_exists'.1 hleaf
    refine ⟨a, below.map Prod.snd, layer.2, above.map Prod.snd, by simp, ha, fun t ht => ?_⟩
    obtain ⟨other, hother, rfl⟩ := mem_map.1 ht
    exact habove other hother

/-- Two places in one list. -/
theorem split_cases {β : Type} {below above below' above' : List β} {x x' : β}
    (h : below ++ x :: above = below' ++ x' :: above') :
    (x = x' ∧ above = above') ∨ x' ∈ above ∨ x ∈ above' := by
  induction below generalizing below' with
  | nil =>
    cases below' with
    | nil =>
      obtain ⟨rfl, rfl⟩ := List.cons.inj h
      exact .inl ⟨rfl, rfl⟩
    | cons y below' =>
      obtain ⟨-, rfl⟩ := List.cons.inj h
      exact .inr (.inl (by simp))
  | cons y below ih =>
    cases below' with
    | nil =>
      obtain ⟨-, rfl⟩ := List.cons.inj h
      exact .inr (.inr (by simp))
    | cons y' below' => exact ih (List.cons.inj h).2

/-- A scalar survives under layers that do not have it and do not displace it, so no scalar of theirs
is written like it. -/
theorem Renders.not_supplies (hrender : Renders render) {other : Tree κ α}
    (hkeys : other.distinctKeys = true) (hleaf : leaf? path other = none)
    (hdisplaces : displaces path other = false) :
    supplies render (path.map render) other = false := by
  rw [Bool.eq_false_iff, ne_eq, supplies_iff hkeys]
  rintro ⟨path', hleaf', heq⟩
  by_cases hpath : path = path'
  · exact hleaf' (hpath ▸ hleaf)
  · rw [hrender.displaces_of_leaf hleaf' heq.symm hpath] at hdisplaces
    cases hdisplaces

/-- The origin of a surviving scalar is the highest layer that has it. -/
theorem Renders.origin_of_merged (hrender : Renders render)
    (h : ∀ layer ∈ layers, layer.2.distinctKeys = true) (hpath : leaf? path (merged layers) ≠ none) :
    ∃ below layer above, layers = below ++ layer :: above ∧ leaf? path layer.2 ≠ none ∧
      (∀ other ∈ above, leaf? path other.2 = none) ∧
      originOf render layers (path.map render) = some layer.1 := by
  obtain ⟨below, layer, above, hsplit, hleaf, habove⟩ := (leaf?_merged h).1 hpath
  have hkeys : ∀ other ∈ layer :: above, other.2.distinctKeys = true := by
    intro other hother
    refine h other ?_
    rw [hsplit]
    exact mem_append_right _ hother
  refine ⟨below, layer, above, hsplit, hleaf, fun other hother => (habove other hother).1, ?_⟩
  refine originOf_eq_some_iff.2 ⟨below, layer, above, hsplit, ?_, fun other hother => ?_, rfl⟩
  · exact (supplies_iff (hkeys layer (by simp))).2 ⟨path, hleaf, rfl⟩
  · obtain ⟨hnone, hdisplaces⟩ := habove other hother
    exact hrender.not_supplies (hkeys other (by simp [hother])) hnone hdisplaces

omit [DecidableEq σ] in
/-- Surviving scalars at different places are written differently. -/
theorem Renders.merged_unique (hrender : Renders render)
    (h : ∀ layer ∈ layers, layer.2.distinctKeys = true) {path' : List (Step κ)}
    (hpath : leaf? path (merged layers) ≠ none) (hpath' : leaf? path' (merged layers) ≠ none)
    (heq : path.map render = path'.map render) : path = path' := by
  obtain ⟨below, layer, above, hsplit, hleaf, habove⟩ := (leaf?_merged h).1 hpath
  obtain ⟨below', layer', above', hsplit', hleaf', habove'⟩ := (leaf?_merged h).1 hpath'
  have hdisplaced {p p' : List (Step κ)} {t : Tree κ α} (ht : leaf? p' t ≠ none)
      (hpp : p.map render = p'.map render) (hp : displaces p t = false) : p = p' := by
    by_contra hne
    rw [hrender.displaces_of_leaf ht hpp hne] at hp
    cases hp
  rcases split_cases (hsplit.symm.trans hsplit') with ⟨rfl, rfl⟩ | hhigher | hlower
  · exact hrender.leaf_unique hleaf hleaf' heq
  · exact hdisplaced hleaf' heq (habove layer' hhigher).2
  · exact (hdisplaced hleaf heq.symm (habove' layer hlower).2).symm

/-- **Origins describe the merge if and only if no scalar is displaced without being supplied
again.** -/
theorem describes_iff_undisplaced (hrender : Renders render)
    (h : ∀ layer ∈ layers, layer.2.distinctKeys = true) :
    Describes render layers ↔ Undisplaced render layers := by
  constructor
  · intro hdescribes below layer above path hsplit hpath hfree
    have hlayer : layer ∈ layers := by simp [hsplit]
    have hleaf := (mem_leafPaths (h layer hlayer)).1 hpath
    have horigin : originOf render layers (path.map render) = some layer.1 :=
      originOf_eq_some_iff.2 ⟨below, layer, above, hsplit,
        (supplies_iff (h layer hlayer)).2 ⟨path, hleaf, rfl⟩, hfree, rfl⟩
    obtain ⟨path', hmerged, heq⟩ := (hdescribes.entry (path.map render)).1 (by simp [horigin])
    obtain ⟨below', layer', above', hsplit', hleaf', habove'⟩ := (leaf?_merged h).1 hmerged
    -- The surviving scalar that is written like this one belongs to the same layer.
    rcases split_cases (hsplit.symm.trans hsplit') with ⟨rfl, rfl⟩ | hhigher | hlower
    · obtain rfl := hrender.leaf_unique hleaf hleaf' heq.symm
      exact fun other hother => (habove' other hother).2
    · have hlayer' : layer' ∈ layers := by simp [hsplit']
      have hsupplies := (supplies_iff (h layer' hlayer')).2 ⟨path', hleaf', heq⟩
      rw [hfree layer' hhigher] at hsupplies
      cases hsupplies
    · obtain ⟨hnone, hdisplaces⟩ := habove' layer hlower
      have hnot := hrender.not_supplies (h layer hlayer) hnone hdisplaces
      rw [(supplies_iff (h layer hlayer)).2 ⟨path, hleaf, heq.symm⟩] at hnot
      cases hnot
  · intro hundisplaced
    refine ⟨fun written => ⟨fun horigin => ?_, ?_⟩, fun _ _ => hrender.merged_unique h,
      fun _ => hrender.origin_of_merged h⟩
    · obtain ⟨name, hname⟩ := Option.ne_none_iff_exists'.1 horigin
      obtain ⟨below, layer, above, hsplit, hsupplies, hfree, -⟩ := originOf_eq_some_iff.1 hname
      have hlayer : layer ∈ layers := by simp [hsplit]
      obtain ⟨path, hleaf, rfl⟩ := (supplies_iff (h layer hlayer)).1 hsupplies
      have hclear := hundisplaced below layer above path hsplit
        ((mem_leafPaths (h layer hlayer)).2 hleaf) hfree
      refine ⟨path, (leaf?_merged h).2 ⟨below, layer, above, hsplit, hleaf, ?_⟩, rfl⟩
      intro other hother
      refine ⟨?_, hclear other hother⟩
      by_contra hne
      have hmem : other ∈ layers := by simp [hsplit, hother]
      have hsupplies' : supplies render (path.map render) other.2 = true :=
        (supplies_iff (h other hmem)).2 ⟨path, hne, rfl⟩
      rw [hfree other hother] at hsupplies'
      cases hsupplies'
    · rintro ⟨path, hmerged, rfl⟩
      obtain ⟨-, layer, -, -, -, -, horigin⟩ := hrender.origin_of_merged h hmerged
      rw [horigin]
      exact Option.some_ne_none layer.1

end Codex.Tree
