import Codex.Config.Toml

/-!
# Overrides of the command line

`build_cli_overrides_layer` (`config/src/overrides.rs`) puts every `-c key.path=value`
into one document, the last one on top. A value goes in as a whole, and what is in its
way is replaced by a table: `leaf?_buildCliOverridesLayer` says which scalars are left.
-/

namespace Codex.Config

open List Codex.Text

/-- The table that an override is put into. A value of another shape is replaced by an empty one. -/
def overriddenTable : TomlValue → List (Str × TomlValue)
  | .table table => table
  | _ => []

/-- The override at the segments of its path. -/
def overrideAt (value : TomlValue) : List Str → TomlValue → TomlValue
  | [], root => root
  | [segment], root => .table (Entries.insert segment value (overriddenTable root))
  | segment :: next :: rest, root =>
    let table := overriddenTable root
    let current := (Entries.get? segment table).getD (.table [])
    .table (Entries.insert segment (overrideAt value (next :: rest) current) table)

def applyTomlOverride (root : TomlValue) (path : Str) (value : TomlValue) : TomlValue :=
  overrideAt value (path.splitOn '.') root

def buildCliOverridesLayer (cliOverrides : List (Str × TomlValue)) : TomlValue :=
  cliOverrides.foldl (fun root override => applyTomlOverride root override.1 override.2) (.table [])

/-! ## Paths and overrides -/

/-- What is left of a path below the segments. -/
def below? : List Str → List (Step Str) → Option (List (Step Str))
  | [], path => some path
  | segment :: segments, .key k :: path => if k = segment then below? segments path else none
  | _ :: _, _ => none

/-- An override at the segments replaces what is at the path, or an array or scalar on the way. -/
def replaces : List Str → List (Step Str) → Bool
  | segment :: segments, .key k :: path => if k = segment then replaces segments path else false
  | _, _ => true

variable {value root : TomlValue} {path : List (Step Str)} {segment k : Str} {segments : List Str}

theorem leaf?_empty (path : List (Step Str)) : Tree.leaf? path (.table [] : TomlValue) = none := by
  cases path with
  | nil => rfl
  | cons step path => cases step <;> rfl

/-- Only a table has something below a key. -/
theorem leaf?_key (root : TomlValue) :
    Tree.leaf? (.key k :: path) root =
      (Entries.get? k (overriddenTable root)).bind (Tree.leaf? path) := by
  cases root <;> rfl

theorem leaf?_insert (table : List (Str × TomlValue)) (inner : TomlValue) :
    Tree.leaf? (.key k :: path) (.table (Entries.insert segment inner table)) =
      if k = segment then Tree.leaf? path inner
      else (Entries.get? k table).bind (Tree.leaf? path) := by
  rw [Tree.leaf?_step, Tree.child?_table_key, Entries.get?_insert]
  by_cases hk : k = segment
  · rw [if_pos hk, if_pos hk, Option.bind_some]
  · rw [if_neg hk, if_neg hk]

/-- **One override.** A scalar is one of the value, or one that was there and is not replaced. -/
theorem leaf?_overrideAt (hsegments : segments ≠ []) :
    Tree.leaf? path (overrideAt value segments root) =
      match below? segments path with
      | some rest => Tree.leaf? rest value
      | none => if replaces segments path then none else Tree.leaf? path root := by
  induction segments generalizing root path with
  | nil => exact absurd rfl hsegments
  | cons segment segments ih =>
    cases path with
    | nil => cases segments <;> rfl
    | cons step path =>
      cases step with
      | index i => cases segments <;> rfl
      | key k =>
        cases segments with
        | nil =>
          rw [overrideAt, leaf?_insert, ← leaf?_key]
          by_cases hk : k = segment
          · rw [if_pos hk, below?, if_pos hk, below?]
          · rw [if_neg hk, below?, if_neg hk, replaces, if_neg hk]
            rfl
        | cons next rest =>
          rw [overrideAt, leaf?_insert]
          by_cases hk : k = segment
          · rw [if_pos hk, below?, if_pos hk, replaces, if_pos hk, ih (cons_ne_nil _ _),
              leaf?_key, hk]
            cases Entries.get? segment (overriddenTable root) with
            | none => rw [Option.getD_none, leaf?_empty, Option.bind_none]
            | some current => rfl
          · rw [if_neg hk, below?, if_neg hk, replaces, if_neg hk, ← leaf?_key]
            rfl

/-- What is at the path of an override or below it is replaced. -/
theorem replaces_of_below? {rest : List (Step Str)} (h : below? segments path = some rest) :
    replaces segments path = true := by
  induction segments generalizing path with
  | nil => rfl
  | cons segment segments ih =>
    cases path with
    | nil => rfl
    | cons step path =>
      cases step with
      | index i => rfl
      | key k =>
        rw [below?] at h
        rw [replaces]
        by_cases hk : k = segment
        · rw [if_pos hk] at h ⊢
          exact ih h
        · rw [if_neg hk] at h
          cases h

theorem splitOn_ne_nil (path : Str) : path.splitOn '.' ≠ [] := List.splitOn_ne_nil _ _

/-- **A scalar of the document is one of the last override that touches its path.** The override is
given at the path or above it, and no later one is, or goes through it. -/
theorem leaf?_buildCliOverridesLayer (cliOverrides : List (Str × TomlValue))
    (path : List (Step Str)) (a : Rollout.Carried) :
    Tree.leaf? path (buildCliOverridesLayer cliOverrides) = some a ↔
      ∃ before override after rest, cliOverrides = before ++ override :: after ∧
        below? (override.1.splitOn '.') path = some rest ∧ Tree.leaf? rest override.2 = some a ∧
        ∀ later ∈ after, replaces (later.1.splitOn '.') path = false := by
  induction cliOverrides using List.reverseRecOn with
  | nil =>
    constructor
    · intro h
      rw [buildCliOverridesLayer, foldl_nil, leaf?_empty] at h
      cases h
    · rintro ⟨before, override, after, rest, hsplit, -⟩
      cases before <;> cases hsplit
  | append_singleton cliOverrides last ih =>
    rw [buildCliOverridesLayer, foldl_append, foldl_cons, foldl_nil,
      applyTomlOverride, leaf?_overrideAt (splitOn_ne_nil _), ← buildCliOverridesLayer]
    constructor
    · intro h
      cases hbelow : below? (last.1.splitOn '.') path with
      | some rest =>
        rw [hbelow] at h
        exact ⟨cliOverrides, last, [], rest, rfl, hbelow, h, forall_mem_nil _⟩
      | none =>
        rw [hbelow] at h
        dsimp only at h
        by_cases hreplaces : replaces (last.1.splitOn '.') path = true
        · rw [if_pos hreplaces] at h
          cases h
        · rw [if_neg hreplaces] at h
          obtain ⟨before, override, after, rest, rfl, hrest, hleaf, hafter⟩ := ih.1 h
          refine ⟨before, override, after ++ [last], rest, by simp, hrest, hleaf, ?_⟩
          intro later hlater
          rcases mem_append.1 hlater with hlater | hlater
          · exact hafter later hlater
          · rw [mem_singleton.1 hlater]
            exact Bool.eq_false_iff.2 hreplaces
    · rintro ⟨before, override, after, rest, hsplit, hrest, hleaf, hafter⟩
      rcases eq_nil_or_concat after with rfl | ⟨after, final, rfl⟩
      · obtain ⟨-, hlast⟩ := append_inj' hsplit rfl
        obtain rfl : last = override := singleton_inj.1 hlast
        rw [hrest]
        exact hleaf
      · have hsplit' : cliOverrides ++ [last] = (before ++ override :: after) ++ [final] := by
          rw [hsplit, List.append_assoc, cons_append]
          simp
        obtain ⟨rfl, hlast⟩ := append_inj' hsplit' rfl
        obtain rfl : last = final := singleton_inj.1 hlast
        have hlast : replaces (last.1.splitOn '.') path = false := hafter last (by simp)
        have hbelow : below? (last.1.splitOn '.') path = none := by
          by_contra hsome
          obtain ⟨rest', hrest'⟩ := Option.ne_none_iff_exists'.1 hsome
          rw [replaces_of_below? hrest'] at hlast
          cases hlast
        rw [hbelow]
        dsimp only
        rw [hlast, if_neg Bool.false_ne_true]
        exact ih.2 ⟨before, override, after, rest, rfl, hrest, hleaf,
          fun later hlater => hafter later (by simp [hlater])⟩

/-- A later override with a longer path takes the scalar away. -/
example : Tree.leaf? [.key "a".toList]
    (buildCliOverridesLayer
      [("a".toList, .scalar "1".toList), ("a.b".toList, .scalar "2".toList)]) = none := by
  decide

end Codex.Config
