import Codex.ExecPolicy.PolicySpec

/-!
# Managed rules over user rules

`load_exec_policy` lays the managed requirements over the rules of the user with
`merge_overlay`. The rules of both are then looked up together, but an exact
match of one side hides the file name matches of the other, and a host
executable of the user can withhold a name from a managed rule.
`mergeOverlay_keeps_managed_iff` says exactly when no managed rule is weakened.
-/

namespace Codex.ExecPolicy

open Codex.Text
open Codex.Permissions (AbsolutePathBuf Host Path fromAbsolutePath)

variable {user managed : Policy} {host : Host} {cmd : List Str} {fallback : List Str → Decision}

/-! ## The tiers of the combined policy -/

theorem ruleDecisions_mergeOverlay (user managed : Policy) (program : Str) (cmd : List Str) :
    (user.mergeOverlay managed).ruleDecisions program cmd =
      user.ruleDecisions program cmd ∪ managed.ruleDecisions program cmd := by
  ext d
  unfold Policy.ruleDecisions Policy.mergeOverlay
  simp only [MultiMap.entries_extend, List.mem_append, Set.mem_union, Set.mem_ofPred_eq, or_and_right,
    exists_or]

theorem exactDecisions_mergeOverlay (user managed : Policy) (cmd : List Str) :
    decisions ((user.mergeOverlay managed).exactMatches cmd) =
      decisions (user.exactMatches cmd) ∪ decisions (managed.exactMatches cmd) := by
  cases cmd with
  | nil =>
    rw [exactMatches_nil, exactMatches_nil, exactMatches_nil, decisions_eq_empty.2 rfl,
      Set.union_empty]
  | cons first args =>
    rw [decisions_exactMatches, decisions_exactMatches, decisions_exactMatches,
      ruleDecisions_mergeOverlay]

/-- The managed policy says nothing about the name of the command's program, and the host
executables of the user leave the program out. -/
def Withheld (user managed : Policy) (host : Host) (cmd : List Str) : Prop :=
  ∃ basename program, Policy.resolveProgram host cmd = some (basename, program) ∧
    managed.hostExecutablesByName basename = none ∧ user.withholds basename program = true

theorem withholds_mergeOverlay (user managed : Policy) (basename : Str)
    (program : AbsolutePathBuf) :
    (user.mergeOverlay managed).withholds basename program =
      match managed.hostExecutablesByName basename with
      | some _ => managed.withholds basename program
      | none => user.withholds basename program := by
  have htable : (user.mergeOverlay managed).hostExecutablesByName basename =
      (managed.hostExecutablesByName basename).or (user.hostExecutablesByName basename) := rfl
  unfold Policy.withholds
  rw [htable]
  cases managed.hostExecutablesByName basename <;> rfl

theorem hostMatches_of_withheld (h : Withheld user managed host cmd) :
    (user.mergeOverlay managed).matchHostExecutableRules host cmd = [] := by
  obtain ⟨basename, program, hres, hnone, hwith⟩ := h
  rw [← decisions_eq_empty, decisions_hostMatches hres, withholds_mergeOverlay, hnone]
  exact if_pos hwith

/-- A file name match of the managed policy that is not withheld is a match of the combined one. -/
theorem hostDecisions_subset (h : ¬ Withheld user managed host cmd) :
    decisions (managed.matchHostExecutableRules host cmd) ⊆
      decisions ((user.mergeOverlay managed).matchHostExecutableRules host cmd) := by
  cases hres : Policy.resolveProgram host cmd with
  | none =>
    rw [hostMatches_of_unresolved hres, decisions_eq_empty.2 rfl]
    exact Set.empty_subset _
  | some resolved =>
    obtain ⟨basename, program⟩ := resolved
    rw [decisions_hostMatches hres, decisions_hostMatches hres, withholds_mergeOverlay,
      ruleDecisions_mergeOverlay]
    by_cases hm : managed.withholds basename program = true
    · rw [if_pos hm]
      exact Set.empty_subset _
    · rw [if_neg hm]
      have hcombined : ¬ (match managed.hostExecutablesByName basename with
          | some _ => managed.withholds basename program
          | none => user.withholds basename program) = true := by
        intro hwith
        split at hwith
        · exact hm hwith
        · next hnone => exact h ⟨basename, program, hres, hnone, hwith⟩
      rw [if_neg hcombined]
      exact Set.subset_union_right

/-! ## The combined decision -/

/-- No rule and no host executable of the user stands before the managed rules of the command, or
what does stand before them is as strict. -/
def Unweakened (user managed : Policy) (host : Host) (cmd : List Str)
    (fallback : List Str → Decision) : Prop :=
  managed.exactMatches cmd ≠ [] ∨ managed.matchHostExecutableRules host cmd = [] ∨
    if user.exactMatches cmd = [] then
      ¬ Withheld user managed host cmd ∨
        ∀ m ∈ managed.matchHostExecutableRules host cmd, m.decision ≤ fallback cmd
    else
      ∃ u ∈ user.exactMatches cmd,
        ∀ m ∈ managed.matchHostExecutableRules host cmd, m.decision ≤ u.decision

/-- The managed rules that match the command bound its combined decision from below. -/
def KeepsManaged (user managed : Policy) (host : Host) (cmd : List Str)
    (fallback : List Str → Decision) : Prop :=
  ∃ evaluation, (user.mergeOverlay managed).checkWithOptions host cmd fallback resolving =
      some evaluation ∧
    ∀ m ∈ managed.matchesForCommandWithOptions host cmd none resolving,
      m.decision ≤ evaluation.decision

theorem keepsManaged_iff {d : Decision}
    (hd : TierMax (decisions ((user.mergeOverlay managed).exactMatches cmd))
      (decisions ((user.mergeOverlay managed).matchHostExecutableRules host cmd))
      (fallback cmd) d) :
    KeepsManaged user managed host cmd fallback ↔
      ∀ m ∈ managed.matchedRules host cmd resolving, m.decision ≤ d := by
  obtain ⟨evaluation, heval, htier⟩ :=
    checkWithOptions_spec (user.mergeOverlay managed) host cmd fallback
  obtain rfl := hd.unique htier
  constructor
  · rintro ⟨evaluation', heval', hle⟩
    rw [heval] at heval'
    cases heval'
    exact hle
  · exact fun hle => ⟨evaluation, heval, hle⟩

/-- **The combined policy is at least as strict as the managed one exactly when nothing of the
user's stands before a managed rule that matches by file name.** -/
theorem mergeOverlay_keeps_managed_iff (user managed : Policy) (host : Host) (cmd : List Str)
    (fallback : List Str → Decision) :
    KeepsManaged user managed host cmd fallback ↔ Unweakened user managed host cmd fallback := by
  obtain ⟨evaluation, -, htier⟩ :=
    checkWithOptions_spec (user.mergeOverlay managed) host cmd fallback
  rw [keepsManaged_iff htier, matchedRules_eq]
  rw [exactDecisions_mergeOverlay] at htier
  unfold Unweakened
  by_cases hexact : managed.exactMatches cmd = []
  case neg =>
    rw [if_neg hexact]
    refine iff_of_true (fun m hm => ?_) (.inl hexact)
    have hne : decisions (user.exactMatches cmd) ∪ decisions (managed.exactMatches cmd) ≠ ∅ :=
      fun h => hexact (decisions_eq_empty.1 (Set.union_empty_iff.1 h).2)
    rw [tierMax_of_first hne] at htier
    exact htier.2 (.inr ⟨m, hm, rfl⟩)
  rw [if_pos hexact]
  rw [decisions_eq_empty.2 hexact, Set.union_empty] at htier
  by_cases hhost : managed.matchHostExecutableRules host cmd = []
  · refine iff_of_true (fun m hm => ?_) (.inr (.inl hhost))
    rw [hhost] at hm
    exact absurd hm List.not_mem_nil
  simp only [hexact, hhost, ne_eq, not_true_eq_false, false_or]
  split
  · next huser =>
    by_cases hwith : Withheld user managed host cmd
    · -- the name is withheld, and the fallback decides
      rw [tierMax_of_fallback (decisions_eq_empty.2 huser)
        (decisions_eq_empty.2 (hostMatches_of_withheld hwith))] at htier
      rw [htier]
      exact ⟨.inr, fun h => h.resolve_left (not_not.2 hwith)⟩
    · refine iff_of_true (fun m hm => ?_) (.inl hwith)
      have hmem := hostDecisions_subset hwith ⟨m, hm, rfl⟩
      rw [tierMax_of_second (decisions_eq_empty.2 huser) (Set.nonempty_iff_ne_empty.1 ⟨_, hmem⟩)]
        at htier
      exact htier.2 hmem
  · next huser =>
    rw [tierMax_of_first (decisions_eq_empty.not.2 huser)] at htier
    obtain ⟨⟨u, hu, hud⟩, hbound⟩ := htier
    constructor
    · intro h
      exact ⟨u, hu, fun m hm => hud ▸ h m hm⟩
    · rintro ⟨u', hu', hle⟩ m hm
      exact le_trans (hle m hm) (hbound ⟨u', hu', rfl⟩)

/-! ## A user rule before a managed one -/

def wordsRule (tokens : List String) (decision : Decision) : Str × PrefixRule :=
  let words := tokens.map String.toList
  (words.headD [], ⟨⟨words.headD [], words.tail.map .single⟩, decision, none⟩)

/-- A host without a home directory, at the root. -/
def bareHost : Host where
  home := none
  tmpdirVar := none
  currentDir := some []
  symlinkMetadata _ := none
  canonicalize _ := none
  pathExists _ := false
  isDir _ := false
  isFile _ := false
  readToString _ := none

def gitPush : List Str := ["/usr/bin/git".toList, "push".toList]

def allowFullPath : Policy := { rulesByProgram := ⟨[wordsRule ["/usr/bin/git"] .allow]⟩ }

def promptGit : Policy := { rulesByProgram := ⟨[wordsRule ["git"] .prompt]⟩ }

/-- The managed policy prompts for `git`; with the user's rule for the full path, it is allowed. -/
theorem user_rule_weakens_managed :
    ¬ KeepsManaged allowFullPath promptGit bareHost gitPush (fun _ => .forbidden) := by
  rintro ⟨evaluation, heval, hle⟩
  have hcombined : ((allowFullPath.mergeOverlay promptGit).checkWithOptions bareHost gitPush
      (fun _ => .forbidden) resolving).map (·.decision) = some .allow := by
    decide +kernel
  rw [heval, Option.map_some, Option.some_inj] at hcombined
  have hmanaged : (promptGit.matchesForCommandWithOptions bareHost gitPush none resolving).map
      RuleMatch.decision = [.prompt] := by
    decide +kernel
  obtain ⟨m, hm, hmd⟩ : ∃ m ∈ promptGit.matchesForCommandWithOptions bareHost gitPush none
      resolving, m.decision = .prompt := List.mem_map.1 (hmanaged ▸ List.mem_singleton_self _)
  have hprompt := hle m hm
  rw [hmd, hcombined] at hprompt
  exact absurd hprompt (by decide)

end Codex.ExecPolicy
