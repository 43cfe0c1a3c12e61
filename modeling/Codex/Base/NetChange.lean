import Mathlib.Data.List.Nodup
import Mathlib.Data.Option.Basic
import Mathlib.Logic.Function.Basic

/-!
# The net change of a map

A tracker follows a partial map through a series of changes. It keeps the value
that a key had before its first change, and the value that it has now. A listing
of the tracked keys, in which a key that vanished may stand next to a key that
appeared, rewrites the first map into the last one.
-/

namespace Codex

open Function List

variable {κ ν : Type}

/-- The key has a first value or a present one. -/
def Touched (baseline current : κ → Option ν) (k : κ) : Prop := baseline k ≠ none ∨ current k ≠ none

/-- What the tracker knows of a map that was `initial` and is now `now`. -/
structure Tracks (initial now baseline current : κ → Option ν) : Prop where
  baseline_eq : ∀ {k}, Touched baseline current k → baseline k = initial k
  current_eq : ∀ {k}, Touched baseline current k → current k = now k
  unchanged : ∀ {k}, ¬Touched baseline current k → now k = initial k

theorem tracks_nothing (initial : κ → Option ν) :
    Tracks initial initial (fun _ => none) fun _ => none where
  baseline_eq h := absurd rfl (h.elim id id)
  current_eq h := absurd rfl (h.elim id id)
  unchanged _ := rfl

variable {initial now baseline current : κ → Option ν} {k j : κ}

theorem not_touched : ¬Touched baseline current k ↔ baseline k = none ∧ current k = none := by
  unfold Touched
  rw [not_or, not_not, not_not]

theorem Tracks.touched_of_ne (h : Tracks initial now baseline current) (hk : now k ≠ initial k) :
    Touched baseline current k := by
  by_contra hcon
  exact hk (h.unchanged hcon)

section Set

variable [DecidableEq κ]

/-- One key changes. Its value goes into the baseline when it was not touched. -/
theorem Tracks.set {baseline' : κ → Option ν} (h : Tracks initial now baseline current) (k : κ)
    (v : Option ν) (hframe : ∀ j, j ≠ k → baseline' j = baseline j)
    (hkeep : Touched baseline current k → baseline' k = baseline k)
    (hcapture : ¬Touched baseline current k → baseline' k = now k) :
    Tracks initial (update now k v) baseline' (update current k v) := by
  have hother : ∀ {j}, j ≠ k → (Touched baseline' (update current k v) j ↔
      Touched baseline current j) := by
    intro j hj
    unfold Touched
    rw [hframe j hj, update_of_ne hj]
  have hself : baseline' k = initial k := by
    by_cases hk : Touched baseline current k
    · rw [hkeep hk, h.baseline_eq hk]
    · rw [hcapture hk, h.unchanged hk]
  refine ⟨fun {j} hj => ?_, fun {j} hj => ?_, fun {j} hj => ?_⟩
  · by_cases hjk : j = k
    · rw [hjk, hself]
    · rw [hframe j hjk, h.baseline_eq ((hother hjk).1 hj)]
  · by_cases hjk : j = k
    · rw [hjk, update_self, update_self]
    · rw [update_of_ne hjk, update_of_ne hjk, h.current_eq ((hother hjk).1 hj)]
  · by_cases hjk : j = k
    · rw [hjk, not_touched, update_self] at hj
      rw [hjk, update_self, ← hself, hj.1, hj.2]
    · rw [update_of_ne hjk]
      exact h.unchanged fun hcon => hj ((hother hjk).2 hcon)

end Set

/-! ## Listings -/

/-- The keys that a listing mentions. A pair of a key with itself mentions it once. -/
def mentions [DecidableEq κ] (pairs : List (κ × κ)) : List κ :=
  pairs.flatMap fun (left, right) => if left = right then [left] else [left, right]

/-- Rewrites the baseline content of `left` to the current content of `right`: the
baseline is what the map holds, and nothing is overwritten by a rename. -/
def rewritePair [DecidableEq κ] [DecidableEq ν] (baseline current : κ → Option ν)
    (files : κ → Option ν) : κ × κ → Option (κ → Option ν)
  | (left, right) =>
    if files left = baseline left ∧ (left = right ∨ files right = none) then
      some (update (update files left none) right (current right))
    else none

/-- `renames` pairs a key that vanished with one that appeared in its place. -/
structure Renames (baseline current : κ → Option ν) (renames : κ → Option κ) : Prop where
  vanished : ∀ {origin dest}, renames origin = some dest →
    baseline origin ≠ none ∧ current origin = none
  appeared : ∀ {origin dest}, renames origin = some dest →
    baseline dest = none ∧ current dest ≠ none
  injective : ∀ {origin origin' dest}, renames origin = some dest → renames origin' = some dest →
    origin = origin'

variable {renames : κ → Option κ} {lefts : List κ}

theorem Renames.ne (h : Renames baseline current renames) {origin dest : κ}
    (hd : renames origin = some dest) : origin ≠ dest := by
  rintro rfl
  exact (h.vanished hd).1 (h.appeared hd).1

/-- A key that vanished did not appear. -/
theorem Renames.not_dest (h : Renames baseline current renames) {origin dest other : κ}
    (hd : renames origin = some dest) : renames other ≠ some origin := fun hcon =>
  (h.appeared hcon).2 (h.vanished hd).2

/-- Each left key next to its new place, or to itself. -/
def listing (renames : κ → Option κ) (lefts : List κ) : List (κ × κ) :=
  lefts.map fun left => (left, (renames left).getD left)

theorem listing_cons (renames : κ → Option κ) (left : κ) (lefts : List κ) :
    listing renames (left :: lefts) =
      (left, (renames left).getD left) :: listing renames lefts := rfl

section Listing

variable [DecidableEq κ]

theorem mentions_listing (h : Renames baseline current renames) (lefts : List κ) :
    mentions (listing renames lefts) = lefts.flatMap fun left => left :: (renames left).toList := by
  unfold mentions listing
  rw [flatMap_map]
  refine flatMap_congr fun left _ => ?_
  cases hd : renames left with
  | none => exact if_pos rfl
  | some dest => exact if_neg (h.ne hd)

theorem mem_mentions_listing (h : Renames baseline current renames) :
    k ∈ mentions (listing renames lefts) ↔
      k ∈ lefts ∨ ∃ left ∈ lefts, renames left = some k := by
  rw [mentions_listing h]
  simp only [mem_flatMap, mem_cons, Option.mem_toList]
  constructor
  · rintro ⟨left, hleft, rfl | hd⟩
    · exact .inl hleft
    · exact .inr ⟨left, hleft, hd⟩
  · rintro (hleft | ⟨left, hleft, hd⟩)
    · exact ⟨k, hleft, .inl rfl⟩
    · exact ⟨left, hleft, .inr hd⟩

/-- No key is mentioned twice. -/
theorem nodup_mentions_listing (h : Renames baseline current renames) (hnodup : lefts.Nodup)
    (hlefts : ∀ left ∈ lefts, ∀ origin, renames origin ≠ some left) :
    (mentions (listing renames lefts)).Nodup := by
  induction lefts with
  | nil => exact nodup_nil
  | cons left lefts ih =>
    have hcons : mentions (listing renames (left :: lefts)) =
        left :: ((renames left).toList ++ mentions (listing renames lefts)) := by
      rw [mentions_listing h, mentions_listing h, flatMap_cons]
      rfl
    have hrest := ih (nodup_cons.1 hnodup).2 fun l hl => hlefts l (mem_cons_of_mem _ hl)
    have hleft : left ∉ mentions (listing renames lefts) := by
      rw [mem_mentions_listing h]
      rintro (hmem | ⟨other, -, hother⟩)
      · exact (nodup_cons.1 hnodup).1 hmem
      · exact hlefts left mem_cons_self other hother
    rw [hcons]
    cases hd : renames left with
    | none => exact nodup_cons.2 ⟨hleft, hrest⟩
    | some dest =>
      have hdest : dest ∉ mentions (listing renames lefts) := by
        rw [mem_mentions_listing h]
        rintro (hmem | ⟨other, hother, hother'⟩)
        · exact hlefts dest (mem_cons_of_mem _ hmem) left hd
        · exact (nodup_cons.1 hnodup).1 (h.injective hd hother' ▸ hother)
      refine nodup_cons.2 ⟨?_, nodup_cons.2 ⟨hdest, hrest⟩⟩
      exact fun hmem => (mem_cons.1 hmem).elim (h.ne hd) hleft

/-- The listing of all keys that were touched and are not in the place of another. -/
theorem mem_mentions_iff_touched (h : Renames baseline current renames)
    (hlefts : ∀ k, k ∈ lefts ↔ Touched baseline current k ∧ ∀ origin, renames origin ≠ some k) :
    k ∈ mentions (listing renames lefts) ↔ Touched baseline current k := by
  rw [mem_mentions_listing h]
  constructor
  · rintro (hleft | ⟨left, -, hd⟩)
    · exact ((hlefts k).1 hleft).1
    · exact .inr (h.appeared hd).2
  · intro hk
    by_cases hdest : ∃ origin, renames origin = some k
    · obtain ⟨origin, hd⟩ := hdest
      exact .inr ⟨origin, (hlefts origin).2 ⟨.inl (h.vanished hd).1, fun _ => h.not_dest hd⟩, hd⟩
    · exact .inl ((hlefts k).2 ⟨hk, fun origin hd => hdest ⟨origin, hd⟩⟩)

variable {left right : κ} {pairs : List (κ × κ)}

theorem mem_mentions_cons :
    k ∈ mentions ((left, right) :: pairs) ↔ k = left ∨ k = right ∨ k ∈ mentions pairs := by
  unfold mentions
  rw [flatMap_cons]
  show k ∈ (if left = right then [left] else [left, right]) ++ _ ↔ _
  split
  · next heq => simp [heq]
  · simp

theorem nodup_mentions_cons (h : (mentions ((left, right) :: pairs)).Nodup) :
    left ∉ mentions pairs ∧ right ∉ mentions pairs ∧ (mentions pairs).Nodup := by
  have hcons : mentions ((left, right) :: pairs) =
      (if left = right then [left] else [left, right]) ++ mentions pairs := flatMap_cons
  rw [hcons] at h
  split at h
  · next heq =>
    obtain ⟨hleft, hrest⟩ := nodup_cons.1 h
    exact ⟨hleft, heq ▸ hleft, hrest⟩
  · obtain ⟨hleft, hrest⟩ := nodup_cons.1 h
    obtain ⟨hright, hrest⟩ := nodup_cons.1 hrest
    exact ⟨fun hmem => hleft (mem_cons_of_mem _ hmem), hright, hrest⟩

variable [DecidableEq ν]

/-- A pair sets the keys it mentions to their current content. -/
theorem rewritePair_eq {files : κ → Option ν} (hleft : files left = baseline left)
    (hright : files right = baseline right)
    (hrename : left ≠ right →
      current left = none ∧ baseline right = none) :
    rewritePair baseline current files (left, right) =
      some fun k => if k = left ∨ k = right then current k else files k := by
  have hguard : files left = baseline left ∧ (left = right ∨ files right = none) := by
    refine ⟨hleft, or_iff_not_imp_left.2 fun hne => ?_⟩
    rw [hright, (hrename hne).2]
  show (if _ then _ else _) = _
  rw [if_pos hguard]
  refine congrArg some (funext fun k => ?_)
  by_cases hk : k = right
  · rw [hk, update_self, if_pos (.inr rfl)]
  · rw [update_of_ne hk]
    by_cases hk' : k = left
    · rw [hk', update_self, if_pos (.inl rfl), (hrename fun h => hk (hk'.trans h)).1]
    · rw [update_of_ne hk', if_neg (not_or.2 ⟨hk', hk⟩)]

/-- Pairs that mention no key twice rewrite each key they mention, from its
baseline to its current content. -/
theorem foldlM_rewritePair
    (hrenames : ∀ left right, (left, right) ∈ pairs → left ≠ right →
      current left = none ∧ baseline right = none)
    (hnodup : (mentions pairs).Nodup) :
    ∀ files : κ → Option ν, (∀ k ∈ mentions pairs, files k = baseline k) →
      pairs.foldlM (rewritePair baseline current) files =
        some fun k => if k ∈ mentions pairs then current k else files k := by
  induction pairs with
  | nil =>
    intro files _
    show some files = _
    simp [mentions]
  | cons pair pairs ih =>
    intro files hfiles
    obtain ⟨left, right⟩ := pair
    obtain ⟨hleft, hright, hrest⟩ := nodup_mentions_cons hnodup
    rw [foldlM_cons, rewritePair_eq (hfiles left (mem_mentions_cons.2 (.inl rfl)))
      (hfiles right (mem_mentions_cons.2 (.inr (.inl rfl))))
      (hrenames left right mem_cons_self)]
    show pairs.foldlM _ _ = _
    rw [ih (fun l r hmem => hrenames l r (mem_cons_of_mem _ hmem)) hrest]
    · refine congrArg some (funext fun k => ?_)
      simp only [mem_mentions_cons]
      by_cases hk : k ∈ mentions pairs
      · rw [if_pos hk, if_pos (.inr (.inr hk))]
      · rw [if_neg hk]
        simp only [hk, or_false]
    · intro k hk
      have hne : ¬(k = left ∨ k = right) := by
        rintro (rfl | rfl)
        · exact hleft hk
        · exact hright hk
      rw [if_neg hne]
      exact hfiles k (mem_mentions_cons.2 (.inr (.inr hk)))

/-- **A listing of the touched keys rewrites the first map into the last.** -/
theorem Tracks.rewrite (h : Tracks initial now baseline current)
    (hrenames : Renames baseline current renames)
    (hnodup : (mentions (listing renames lefts)).Nodup)
    (hmem : ∀ k, k ∈ mentions (listing renames lefts) ↔ Touched baseline current k) :
    (listing renames lefts).foldlM (rewritePair baseline current) initial = some now := by
  have hpairs : ∀ left right, (left, right) ∈ listing renames lefts → left ≠ right →
      current left = none ∧ baseline right = none := by
    intro left right hpair hne
    obtain ⟨left, -, heq⟩ := mem_map.1 hpair
    cases hd : renames left with
    | none =>
      rw [hd] at heq
      cases heq
      exact absurd rfl hne
    | some dest =>
      rw [hd] at heq
      cases heq
      exact ⟨(hrenames.vanished hd).2, (hrenames.appeared hd).1⟩
  rw [foldlM_rewritePair hpairs hnodup]
  · refine congrArg some (funext fun k => ?_)
    split
    · next hk => exact h.current_eq ((hmem k).1 hk)
    · next hk => exact (h.unchanged fun hcon => hk ((hmem k).2 hcon)).symm
  · exact fun k hk => (h.baseline_eq ((hmem k).1 hk)).symm

end Listing

end Codex
