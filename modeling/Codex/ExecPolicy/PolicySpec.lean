import Codex.Base.Tiers
import Codex.ExecPolicy.Policy

/-!
# What a policy decides

The decision of a policy is a choice from two tiers (`Codex.Base.Tiers`): the
rules under the first token of the command, and the rules under the file name of
its program. The lemmas here say which decisions each tier holds.
-/

namespace Codex.ExecPolicy

open Codex.Text
open Codex.Permissions (AbsolutePathBuf Host Path fromAbsolutePath)

instance : OrderBot Decision where
  bot := .allow
  bot_le := Decision.allow_le

instance : Nontrivial Decision := ⟨.allow, .prompt, by decide⟩

variable {policy : Policy} {host : Host} {cmd cmd' : List Str} {rule : PrefixRule} {d : Decision}
  {fallback : List Str → Decision}

/-! ## Patterns -/

/-- The rule matches the command. -/
def PrefixRule.Applies (rule : PrefixRule) (cmd : List Str) : Prop := (rule.matches cmd).isSome

theorem all_zip_iff {tokens : List PatternToken} {args : List Str}
    (h : tokens.length = args.length) :
    (tokens.zip args).all (fun p => p.1.matches p.2) = true ↔
      List.Forall₂ (fun token arg => token.matches arg = true) tokens args := by
  induction tokens generalizing args with
  | nil =>
    obtain rfl := List.length_eq_zero_iff.1 h.symm
    simp
  | cons token tokens ih =>
    cases args with
    | nil => cases h
    | cons arg args =>
      rw [List.zip_cons_cons, List.all_cons, Bool.and_eq_true, List.forall₂_cons,
        ih (Nat.succ.inj h)]

/-- **A rule matches the commands that start with its pattern.** -/
theorem applies_iff : rule.Applies cmd ↔ ∃ args more, cmd = rule.pattern.first :: (args ++ more) ∧
    List.Forall₂ (fun token arg => token.matches arg = true) rule.pattern.rest args := by
  obtain ⟨⟨first, rest⟩, decision, justification⟩ := rule
  unfold PrefixRule.Applies PrefixRule.matches PrefixPattern.matchesPrefix
  rw [Option.isSome_map]
  dsimp only
  constructor
  · intro h
    by_cases hlen : cmd.length < rest.length + 1 ∨ cmd.head? ≠ some first
    · rw [if_pos hlen] at h
      cases h
    · rw [if_neg hlen] at h
      obtain ⟨hlen, hhead⟩ := not_or.1 hlen
      cases cmd with
      | nil => exact absurd (Nat.succ_pos _) hlen
      | cons c args =>
        obtain rfl : c = first := by simpa using not_not.1 hhead
        have hle : rest.length ≤ args.length := by
          simp only [List.length_cons] at hlen
          omega
        split at h
        · next hall =>
          rw [all_zip_iff (by simp [hle])] at hall
          exact ⟨args.take rest.length, args.drop rest.length, by simp, hall⟩
        · cases h
  · rintro ⟨args, more, rfl, hall⟩
    have hlen : rest.length = args.length := hall.length_eq
    have hnot : ¬ ((first :: (args ++ more)).length < rest.length + 1 ∨
        (first :: (args ++ more)).head? ≠ some first) := by
      rw [not_or]
      refine ⟨?_, by simp⟩
      simp only [List.length_cons, List.length_append]
      omega
    rw [if_neg hnot, List.tail_cons, hlen, List.take_left, if_pos ((all_zip_iff hlen).2 hall)]
    rfl

theorem PrefixRule.Applies.mono (h : rule.Applies cmd) (hp : cmd <+: cmd') : rule.Applies cmd' := by
  obtain ⟨args, more, rfl, hall⟩ := applies_iff.1 h
  obtain ⟨tail, rfl⟩ := hp
  exact applies_iff.2 ⟨args, more ++ tail, by simp, hall⟩

theorem decision_of_matches {m : RuleMatch} (h : rule.matches cmd = some m) :
    m.decision = rule.decision := by
  obtain ⟨_, -, rfl⟩ := Option.map_eq_some_iff.1 h
  rfl

/-! ## The two tiers -/

/-- The decisions of the matches. -/
def decisions (matched : List RuleMatch) : Set Decision := {d | ∃ m ∈ matched, m.decision = d}

theorem decisions_eq_empty {matched : List RuleMatch} : decisions matched = ∅ ↔ matched = [] := by
  constructor
  · intro h
    rw [List.eq_nil_iff_forall_not_mem]
    intro m hm
    exact Set.notMem_empty m.decision (h ▸ ⟨m, hm, rfl⟩)
  · rintro rfl
    ext d
    simp [decisions]

theorem decisions_nonempty {matched : List RuleMatch} :
    (decisions matched).Nonempty ↔ matched ≠ [] :=
  Set.nonempty_iff_ne_empty.trans decisions_eq_empty.not

/-- What `match_exact_rules` finds, without the distinction of an empty command. -/
def Policy.exactMatches (policy : Policy) (cmd : List Str) : List RuleMatch :=
  (policy.matchExactRules cmd).getD []

theorem mem_decisions_filterMap {rules : List PrefixRule} :
    (∃ m ∈ rules.filterMap (fun rule => rule.matches cmd), m.decision = d) ↔
      ∃ rule ∈ rules, rule.Applies cmd ∧ rule.decision = d := by
  constructor
  · rintro ⟨m, hm, rfl⟩
    obtain ⟨rule, hrule, hmatch⟩ := List.mem_filterMap.1 hm
    exact ⟨rule, hrule, Option.isSome_iff_exists.2 ⟨m, hmatch⟩, (decision_of_matches hmatch).symm⟩
  · rintro ⟨rule, hrule, happ, rfl⟩
    obtain ⟨m, hmatch⟩ := Option.isSome_iff_exists.1 happ
    exact ⟨m, List.mem_filterMap.2 ⟨rule, hrule, hmatch⟩, decision_of_matches hmatch⟩

/-- The decisions of the rules under a program that match the command. -/
def Policy.ruleDecisions (policy : Policy) (program : Str) (cmd : List Str) : Set Decision :=
  {d | ∃ rule, (program, rule) ∈ policy.rulesByProgram.entries ∧ rule.Applies cmd ∧
    rule.decision = d}

theorem exactMatches_cons (policy : Policy) (first : Str) (args : List Str) :
    policy.exactMatches (first :: args) =
      ((policy.rulesByProgram.entries.filter (·.1 = first)).map Prod.snd).filterMap
        fun rule => rule.matches (first :: args) := by
  rw [← MultiMap.getD_getVec]
  unfold Policy.exactMatches Policy.matchExactRules
  rw [List.head?_cons, Option.map_some, Option.getD_some]
  cases policy.rulesByProgram.getVec first <;> rfl

theorem decisions_exactMatches (policy : Policy) (first : Str) (args : List Str) :
    decisions (policy.exactMatches (first :: args)) =
      policy.ruleDecisions first (first :: args) := by
  ext d
  show (∃ m ∈ policy.exactMatches (first :: args), m.decision = d) ↔ _
  rw [exactMatches_cons, mem_decisions_filterMap]
  simp only [← MultiMap.getD_getVec, MultiMap.mem_getVec]
  rfl

theorem exactMatches_nil (policy : Policy) : policy.exactMatches [] = [] := rfl

theorem decision_withResolvedProgram (program : AbsolutePathBuf) (m : RuleMatch) :
    (m.withResolvedProgram program).decision = m.decision := by
  cases m <;> rfl

theorem decisions_hostMatches {basename : Str} {program : AbsolutePathBuf}
    (hres : Policy.resolveProgram host cmd = some (basename, program)) :
    decisions (policy.matchHostExecutableRules host cmd) =
      if policy.withholds basename program then ∅
      else policy.ruleDecisions basename (basename :: cmd.tail) := by
  unfold Policy.matchHostExecutableRules
  rw [hres]
  have hnone : decisions [] = ∅ := decisions_eq_empty.2 rfl
  simp only
  split
  · next hget =>
    rw [hnone]
    split
    · rfl
    · refine (Set.eq_empty_of_forall_notMem ?_).symm
      rintro d ⟨rule, hrule, -⟩
      exact MultiMap.getVec_eq_none.1 hget rule hrule
  · next rules hget =>
    have hmem : ∀ rule, rule ∈ rules ↔ (basename, rule) ∈ policy.rulesByProgram.entries := by
      intro rule
      rw [← MultiMap.mem_getVec, hget, Option.getD_some]
    split
    · exact hnone
    · ext d
      show (∃ m ∈ List.map _ _, RuleMatch.decision m = d) ↔ _
      simp only [List.mem_map, exists_exists_and_eq_and, decision_withResolvedProgram]
      rw [mem_decisions_filterMap]
      simp only [hmem]
      rfl

theorem hostMatches_of_unresolved (hres : Policy.resolveProgram host cmd = none) :
    policy.matchHostExecutableRules host cmd = [] := by
  unfold Policy.matchHostExecutableRules
  rw [hres]

/-! ## Evaluation -/

/-- The options with which commands are checked. -/
def resolving : MatchOptions := ⟨true⟩

theorem getD_filter_isEmpty (l : List RuleMatch) : ((some l).filter (!·.isEmpty)).getD [] = l := by
  cases l <;> rfl

theorem matchedRules_eq (policy : Policy) (host : Host) (cmd : List Str) :
    policy.matchedRules host cmd resolving =
      if policy.exactMatches cmd = [] then policy.matchHostExecutableRules host cmd
      else policy.exactMatches cmd := by
  unfold Policy.matchedRules Policy.exactMatches
  cases policy.matchExactRules cmd with
  | none => exact getD_filter_isEmpty _
  | some exact =>
    cases exact with
    | nil => exact getD_filter_isEmpty _
    | cons m l => rfl

theorem matches_some_eq (policy : Policy) (host : Host) (cmd : List Str)
    (fallback : List Str → Decision) :
    policy.matchesForCommandWithOptions host cmd (some fallback) resolving =
      if policy.matchedRules host cmd resolving = [] then
        [.heuristicsRuleMatch cmd (fallback cmd)]
      else policy.matchedRules host cmd resolving := by
  unfold Policy.matchesForCommandWithOptions
  simp only [List.isEmpty_iff]

theorem fromMatches_spec {matched : List RuleMatch} (h : matched ≠ []) :
    ∃ d, Evaluation.fromMatches matched = some ⟨d, matched⟩ ∧ IsGreatest (decisions matched) d := by
  unfold Evaluation.fromMatches
  cases hmax : (matched.map RuleMatch.decision).max? with
  | none => exact absurd (by simpa using hmax) h
  | some d =>
    obtain ⟨hmem, hle⟩ := List.max?_eq_some_iff.1 hmax
    refine ⟨d, rfl, List.mem_map.1 hmem, ?_⟩
    rintro _ ⟨m, hm, rfl⟩
    exact hle _ (List.mem_map_of_mem hm)

/-- **Every command is decided**: by the strictest of the rules under its first token, else of
those under its program's file name, else by the fallback. -/
theorem checkWithOptions_spec (policy : Policy) (host : Host) (cmd : List Str)
    (fallback : List Str → Decision) :
    ∃ evaluation, policy.checkWithOptions host cmd fallback resolving = some evaluation ∧
      TierMax (decisions (policy.exactMatches cmd))
        (decisions (policy.matchHostExecutableRules host cmd)) (fallback cmd)
        evaluation.decision := by
  unfold Policy.checkWithOptions
  rw [matches_some_eq, matchedRules_eq]
  by_cases hexact : policy.exactMatches cmd = []
  · rw [if_pos hexact]
    by_cases hhost : policy.matchHostExecutableRules host cmd = []
    · rw [if_pos hhost]
      refine ⟨⟨fallback cmd, _⟩, rfl, ?_⟩
      rw [tierMax_of_fallback (decisions_eq_empty.2 hexact) (decisions_eq_empty.2 hhost)]
    · rw [if_neg hhost]
      obtain ⟨d, hd, hmax⟩ := fromMatches_spec hhost
      refine ⟨_, hd, ?_⟩
      rwa [tierMax_of_second (decisions_eq_empty.2 hexact) (decisions_eq_empty.not.2 hhost)]
  · rw [if_neg hexact, if_neg hexact]
    obtain ⟨d, hd, hmax⟩ := fromMatches_spec hexact
    refine ⟨_, hd, ?_⟩
    rwa [tierMax_of_first (decisions_eq_empty.not.2 hexact)]

/-! ## Several commands -/

theorem matchesForCommand_ne_nil (policy : Policy) (host : Host) (cmd : List Str)
    (fallback : List Str → Decision) (options : MatchOptions) :
    policy.matchesForCommandWithOptions host cmd (some fallback) options ≠ [] := by
  unfold Policy.matchesForCommandWithOptions
  dsimp only
  split
  · exact List.cons_ne_nil _ _
  · next hne => exact fun hnil => hne (List.isEmpty_iff.2 hnil)

/-- What one command is decided, under any options. -/
theorem checkWithOptions_isGreatest (policy : Policy) (host : Host) (cmd : List Str)
    (fallback : List Str → Decision) (options : MatchOptions) :
    ∃ d, (policy.checkWithOptions host cmd fallback options).map (·.decision) = some d ∧
      IsGreatest (decisions (policy.matchesForCommandWithOptions host cmd (some fallback) options))
        d := by
  obtain ⟨d, heval, hd⟩ := fromMatches_spec (matchesForCommand_ne_nil policy host cmd fallback options)
  refine ⟨d, ?_, hd⟩
  unfold Policy.checkWithOptions
  rw [heval]
  rfl

/-- **Several commands are decided as the one that is decided most strictly.** -/
theorem checkMultiple_isGreatest {commands : List (List Str)} (policy : Policy) (host : Host)
    (fallback : List Str → Decision) (options : MatchOptions) (hne : commands ≠ []) :
    ∃ evaluation, policy.checkMultipleWithOptions host commands fallback options = some evaluation ∧
      IsGreatest {d | ∃ cmd ∈ commands,
        (policy.checkWithOptions host cmd fallback options).map (·.decision) = some d}
        evaluation.decision := by
  obtain ⟨first, rest, rfl⟩ := List.exists_cons_of_ne_nil hne
  have hflat : ((first :: rest).flatMap fun cmd =>
      policy.matchesForCommandWithOptions host cmd (some fallback) options) ≠ [] := by
    rw [List.flatMap_cons]
    exact fun hnil => matchesForCommand_ne_nil policy host first fallback options
      (List.append_eq_nil_iff.1 hnil).1
  obtain ⟨d, heval, ⟨m, hm, hmd⟩, hle⟩ := fromMatches_spec hflat
  refine ⟨_, heval, ?_, ?_⟩
  · -- the strictest match belongs to a command, and is the strictest there
    obtain ⟨cmd, hcmd, hmatch⟩ := List.mem_flatMap.1 hm
    obtain ⟨d', hcheck, hgreatest⟩ := checkWithOptions_isGreatest policy host cmd fallback options
    refine ⟨cmd, hcmd, hcheck.trans (congrArg some ?_)⟩
    refine le_antisymm ?_ (hmd ▸ hgreatest.2 ⟨m, hmatch, rfl⟩)
    obtain ⟨m', hm', rfl⟩ := hgreatest.1
    exact hle ⟨m', List.mem_flatMap.2 ⟨cmd, hcmd, hm'⟩, rfl⟩
  · rintro d' ⟨cmd, hcmd, hcheck⟩
    obtain ⟨d'', hcheck', ⟨m', hm', hmd'⟩, -⟩ :=
      checkWithOptions_isGreatest policy host cmd fallback options
    obtain rfl : d'' = d' := Option.some_inj.1 (hcheck'.symm.trans hcheck)
    exact hmd' ▸ hle ⟨m', List.mem_flatMap.2 ⟨cmd, hcmd, hm'⟩, rfl⟩

end Codex.ExecPolicy
