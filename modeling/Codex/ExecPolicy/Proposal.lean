import Codex.ExecPolicy.AmendmentRun
import Codex.Text.Split

/-!
# Requested amendments

`derive_requested_execpolicy_amendment_from_prefix_rule` proposes a prefix rule
that a request asks for when the policy with the rule would allow all commands
of the request. Once the proposal is accepted, `append_amendment_and_update` adds the
rule, unless the policy allows the rule's own tokens already.
-/

namespace Codex.ExecPolicy

open Codex.Text
open Codex.Permissions (AbsolutePathBuf Host Path Component fromAbsolutePath normalizePath
  maybeExpandHomeDirectory)

/-! ## Proposals -/

def bannedPrefixSuggestions : List (List Str) :=
  [words ["python3"], words ["python3", "-"], words ["python3", "-c"], words ["python"],
    words ["python", "-"], words ["python", "-c"], words ["py"], words ["py", "-3"],
    words ["pythonw"], words ["pyw"], words ["pypy"], words ["pypy3"], words ["git"],
    words ["bash"], words ["bash", "-lc"], words ["sh"], words ["sh", "-c"], words ["sh", "-lc"],
    words ["zsh"], words ["zsh", "-lc"], words ["/bin/zsh"], words ["/bin/zsh", "-lc"],
    words ["/bin/bash"], words ["/bin/bash", "-lc"], words ["pwsh"], words ["pwsh", "-Command"],
    words ["pwsh", "-c"], words ["powershell"], words ["powershell", "-Command"],
    words ["powershell", "-c"], words ["powershell.exe"], words ["powershell.exe", "-Command"],
    words ["powershell.exe", "-c"], words ["env"], words ["sudo"], words ["node"],
    words ["node", "-e"], words ["perl"], words ["perl", "-e"], words ["ruby"],
    words ["ruby", "-e"], words ["php"], words ["php", "-r"], words ["lua"], words ["lua", "-e"],
    words ["osascript"]]

def prefixRuleWouldApproveAllCommands (host : Host) (policy : Policy) (prefixRule : List Str)
    (commands : List (List Str)) (fallback : List Str → Decision) (options : MatchOptions) : Bool :=
  match policy.addPrefixRule prefixRule .allow with
  | .error _ => false
  | .ok policyWithPrefixRule => commands.all fun command =>
      (policyWithPrefixRule.checkWithOptions host command fallback options).any
        (·.decision = .allow)

def deriveRequestedExecpolicyAmendmentFromPrefixRule (host : Host) (prefixRule : Option (List Str))
    (matchedRules : List RuleMatch) (policy : Policy) (commands : List (List Str))
    (fallback : List Str → Decision) (options : MatchOptions) : Option (List Str) :=
  match prefixRule with
  | none => none
  | some prefixRule =>
    if prefixRule.isEmpty then none
    else if bannedPrefixSuggestions.any (prefixRule = ·) then none
    else if matchedRules.any isPolicyMatch then none
    else if prefixRuleWouldApproveAllCommands host policy prefixRule commands fallback options then
      some prefixRule
    else none

variable {host : Host} {policy : Policy} {fallback : List Str → Decision} {cmd command : List Str}
  {commands : List (List Str)} {evaluation : Evaluation} {st : PolicyManager}

theorem addPrefixRule_allow (hne : command ≠ []) :
    policy.addPrefixRule command .allow = .ok (policy.amend command) := by
  obtain ⟨first, rest, rfl⟩ := List.exists_cons_of_ne_nil hne
  rfl

/-- What a proposal says: the commands match no rule, and the rule would have all of them allowed. -/
theorem derive_eq_some {prefixRule : Option (List Str)} {matched : List RuleMatch}
    {options : MatchOptions} (h : deriveRequestedExecpolicyAmendmentFromPrefixRule host prefixRule
      matched policy commands fallback options = some command) :
    prefixRule = some command ∧ command ≠ [] ∧ (∀ m ∈ matched, isPolicyMatch m = false) ∧
      ∀ cmd ∈ commands, ∃ evaluation,
        (policy.amend command).checkWithOptions host cmd fallback options = some evaluation ∧
          evaluation.decision = .allow := by
  unfold deriveRequestedExecpolicyAmendmentFromPrefixRule at h
  cases prefixRule with
  | none => cases h
  | some prefixRule =>
    dsimp only at h
    split at h
    · cases h
    · next hempty =>
      split at h
      · cases h
      · split at h
        · cases h
        · next hmatched =>
          split at h
          · next happroves =>
            obtain rfl := Option.some_inj.1 h
            have hne : prefixRule ≠ [] := fun hnil => hempty (List.isEmpty_iff.2 hnil)
            refine ⟨rfl, hne, ?_, fun cmd hcmd => ?_⟩
            · simpa using hmatched
            · unfold prefixRuleWouldApproveAllCommands at happroves
              rw [addPrefixRule_allow hne, List.all_eq_true] at happroves
              obtain ⟨evaluation, heval, hallow⟩ := Option.any_eq_true _ _ |>.1 (happroves cmd hcmd)
              exact ⟨evaluation, heval, of_decide_eq_true hallow⟩
          · cases h

/-! ## Commands without a rule -/

/-- No rule of the policy matches the command. -/
def Unmatched (host : Host) (policy : Policy) (cmd : List Str) : Prop :=
  policy.exactMatches cmd = [] ∧ policy.matchHostExecutableRules host cmd = []

theorem isPolicyMatch_of_matches {rule : PrefixRule} {m : RuleMatch} (h : rule.matches cmd = some m) :
    isPolicyMatch m = true := by
  obtain ⟨_, -, rfl⟩ := Option.map_eq_some_iff.1 h
  rfl

theorem isPolicyMatch_of_mem_exactMatches {m : RuleMatch} (h : m ∈ policy.exactMatches cmd) :
    isPolicyMatch m = true := by
  unfold Policy.exactMatches Policy.matchExactRules at h
  cases hhead : cmd.head? with
  | none => simp [hhead] at h
  | some first =>
    cases hrules : policy.rulesByProgram.getVec first with
    | none => simp [hhead, hrules] at h
    | some rules =>
      simp only [hhead, hrules, Option.map_some, Option.getD_some] at h
      obtain ⟨rule, -, hmatch⟩ := List.mem_filterMap.1 h
      exact isPolicyMatch_of_matches hmatch

theorem isPolicyMatch_of_mem_hostMatches {m : RuleMatch}
    (h : m ∈ policy.matchHostExecutableRules host cmd) : isPolicyMatch m = true := by
  unfold Policy.matchHostExecutableRules at h
  split at h
  · cases h
  · split at h
    · cases h
    · split at h
      · cases h
      · obtain ⟨m', hm', rfl⟩ := List.mem_map.1 h
        obtain ⟨rule, -, hmatch⟩ := List.mem_filterMap.1 hm'
        obtain ⟨_, -, rfl⟩ := Option.map_eq_some_iff.1 hmatch
        rfl

/-- An evaluation without a match of the policy: no command has a rule. -/
theorem unmatched_of_evaluation
    (heval : policy.checkMultipleWithOptions host commands fallback resolving = some evaluation)
    (hnone : ∀ m ∈ evaluation.matchedRules, isPolicyMatch m = false) :
    ∀ cmd ∈ commands, Unmatched host policy cmd := by
  intro cmd hcmd
  have hmatched : evaluation.matchedRules = commands.flatMap fun cmd =>
      policy.matchesForCommandWithOptions host cmd (some fallback) resolving := by
    unfold Policy.checkMultipleWithOptions Evaluation.fromMatches at heval
    obtain ⟨d, -, rfl⟩ := Option.map_eq_some_iff.1 heval
    rfl
  have hno : ∀ m ∈ policy.matchesForCommandWithOptions host cmd (some fallback) resolving,
      isPolicyMatch m = false := by
    intro m hm
    refine hnone m ?_
    rw [hmatched]
    exact List.mem_flatMap.2 ⟨cmd, hcmd, hm⟩
  rw [matches_some_eq, matchedRules_eq] at hno
  by_cases hexact : policy.exactMatches cmd = []
  · refine ⟨hexact, ?_⟩
    rw [if_pos hexact] at hno
    by_contra hhost
    rw [if_neg hhost] at hno
    obtain ⟨m, hm⟩ := List.exists_mem_of_ne_nil _ hhost
    exact absurd (hno m hm) (by simp [isPolicyMatch_of_mem_hostMatches hm])
  · rw [if_neg hexact, if_neg hexact] at hno
    obtain ⟨m, hm⟩ := List.exists_mem_of_ne_nil _ hexact
    exact absurd (hno m hm) (by simp [isPolicyMatch_of_mem_exactMatches hm])

theorem check_of_unmatched (fallback : List Str → Decision) (h : Unmatched host policy cmd) :
    (policy.checkWithOptions host cmd fallback resolving).map (·.decision) = some (fallback cmd) := by
  obtain ⟨evaluation, heval, htier⟩ := checkWithOptions_spec policy host cmd fallback
  rw [tierMax_of_fallback (decisions_eq_empty.2 h.1) (decisions_eq_empty.2 h.2)] at htier
  rw [heval, Option.map_some, htier]

/-- The commands are allowed if each of them is. -/
theorem checkMultiple_allow_iff (hne : commands ≠ []) :
    (policy.checkMultipleWithOptions host commands fallback resolving).map (·.decision) = some .allow ↔
      ∀ cmd ∈ commands,
        (policy.checkWithOptions host cmd fallback resolving).map (·.decision) = some .allow := by
  obtain ⟨evaluation, heval, hmem, hle⟩ :=
    checkMultiple_isGreatest policy host fallback resolving hne
  rw [heval, Option.map_some, Option.some_inj]
  constructor
  · intro hallow cmd hcmd
    obtain ⟨d, hd, -⟩ := checkWithOptions_isGreatest policy host cmd fallback resolving
    have hd_le : d ≤ .allow := hallow ▸ hle ⟨cmd, hcmd, hd⟩
    rw [hd, le_antisymm hd_le (Decision.allow_le d)]
  · intro hall
    obtain ⟨cmd, hcmd, hcheck⟩ := hmem
    exact Option.some_inj.1 (hcheck.symm.trans (hall cmd hcmd))

/-! ## Acceptance -/

/-- The program of the command, read as a path, has another file name than it is written. -/
def Renamed (host : Host) (command : List Str) : Prop :=
  ∃ basename program, Policy.resolveProgram host command = some (basename, program) ∧
    command.head? ≠ some basename

/-- A command without a rule that the amended policy allows and the fallback does not is matched by
the new rule. -/
theorem new_rule_matches (hcmd : Unmatched host policy cmd) (hfallback : fallback cmd ≠ .allow)
    (hallow : ∃ evaluation,
      (policy.amend command).checkWithOptions host cmd fallback resolving = some evaluation ∧
        evaluation.decision = .allow) :
    ByToken (allowEntry command) cmd ∨ ByName host policy (allowEntry command) cmd := by
  by_contra hneither
  obtain ⟨htoken, hname⟩ := not_or.1 hneither
  have hgrow := policy.extends_amend command
  have hentry : ∀ entry ∈ (policy.amend command).rulesByProgram.entries,
      entry ∉ policy.rulesByProgram.entries → entry = allowEntry command :=
    fun entry hmem hnot => (Policy.mem_amend.1 hmem).resolve_left hnot
  have hexact : (policy.amend command).exactMatches cmd = [] := by
    refine decisions_eq_empty.1 (Set.eq_empty_of_forall_notMem fun d hd => ?_)
    rw [hgrow.exactDecisions, decisions_eq_empty.2 hcmd.1, Set.empty_union] at hd
    obtain ⟨entry, hmem, hnot, hb, -⟩ := hd
    exact htoken (hentry entry hmem hnot ▸ hb)
  have hhost : (policy.amend command).matchHostExecutableRules host cmd = [] := by
    refine decisions_eq_empty.1 (Set.eq_empty_of_forall_notMem fun d hd => ?_)
    rw [hgrow.hostDecisions, decisions_eq_empty.2 hcmd.2, Set.empty_union] at hd
    obtain ⟨entry, hmem, hnot, hb, -⟩ := hd
    exact hname (hentry entry hmem hnot ▸ hb)
  obtain ⟨evaluation, heval, hdecision⟩ := hallow
  have hcheck := check_of_unmatched fallback ⟨hexact, hhost⟩
  rw [heval, Option.map_some, Option.some_inj, hdecision] at hcheck
  exact hfallback hcheck.symm

/-- Where the policy allows the new rule's tokens but has no rule for a command that the new rule
matches, the tokens are allowed through a program of another name. -/
theorem renamed_of_skipped (hne : command ≠ []) (hcmd : Unmatched host policy cmd)
    (hallowed : alreadyAllowed host policy command = true)
    (hnew : ByToken (allowEntry command) cmd ∨ ByName host policy (allowEntry command) cmd) :
    (∃ program, Policy.resolveProgram host cmd = some (command.headD [], program)) ∧
      Renamed host command := by
  obtain ⟨first, rest, rfl⟩ := List.exists_cons_of_ne_nil hne
  rcases hnew with htoken | hname
  · have hprefixed := (byToken_allowEntry hne).1 htoken
    rcases alreadyAllowed_cases hallowed with hexact | hhost
    · exact absurd hcmd.1 (exactMatches_mono hne hprefixed hexact)
    · exact absurd hcmd.2 (hostMatches_mono hne hprefixed hhost)
  · obtain ⟨basename, program, hres, hwith, hprefixed⟩ := (byName_allowEntry hne).1 hname
    obtain ⟨rfl, -⟩ := List.cons_prefix_cons.1 hprefixed
    refine ⟨⟨program, hres⟩, ?_⟩
    rcases alreadyAllowed_cases hallowed with hexact | hhost
    · -- the rules under the written name match the command by name
      obtain ⟨⟨name, rule⟩, hmem, hhead, happ⟩ := exactMatches_ne_nil.1 hexact
      obtain rfl : first = name := Option.some_inj.1 hhead
      refine absurd hcmd.2 (hostMatches_ne_nil.2 ⟨_, hmem, program, hres, hwith, ?_⟩)
      exact happ.mono hprefixed
    · obtain ⟨⟨name, rule⟩, hmem, program', hres', hwith', happ⟩ := hostMatches_ne_nil.1 hhost
      refine ⟨name, program', hres', fun hsame => ?_⟩
      obtain rfl : first = name := Option.some_inj.1 hsame
      refine absurd hcmd.2 (hostMatches_ne_nil.2 ⟨_, hmem, program, hres, hwith, ?_⟩)
      exact happ.mono hprefixed

/-! ## Names -/

/-- A name as file systems have them. -/
def ProperName (name : Str) : Prop :=
  name ≠ [] ∧ name ≠ ".".toList ∧ name ≠ "..".toList ∧ '/' ∉ name

/-- The directories of the host have proper names. -/
structure ProperNames (host : Host) : Prop where
  home : ∀ home, host.home = some home → ∀ name, .normal name ∈ home.components → ProperName name
  currentDir : ∀ dir, host.currentDir = some dir → ∀ name ∈ dir, ProperName name

theorem mem_normalizePath {base : AbsolutePathBuf} {components : List Component} {name : Str}
    (h : name ∈ normalizePath base components) : name ∈ base ∨ .normal name ∈ components := by
  induction components generalizing base with
  | nil => exact .inl h
  | cons component components ih =>
    rcases ih h with hbase | hrest
    · cases component with
      | curDir => exact .inl hbase
      | parentDir => exact .inl (List.dropLast_subset _ hbase)
      | normal other =>
        rcases List.mem_append.1 hbase with hbase | hlast
        · exact .inl hbase
        · rw [List.mem_singleton.1 hlast]
          exact .inr List.mem_cons_self
    · exact .inr (List.mem_cons_of_mem _ hrest)

theorem properName_of_mem_parse {s name : Str} (h : .normal name ∈ (Path.parse s).components) :
    ProperName name := by
  unfold Path.parse at h
  rcases List.mem_append.1 h with hfront | hnames
  · split at hfront
    · cases List.mem_singleton.1 hfront
    · cases hfront
  · obtain ⟨segment, hsegment, hparse⟩ := List.mem_map.1 hnames
    obtain ⟨hmem, hkept⟩ := List.mem_filter.1 hsegment
    rw [decide_eq_true_eq] at hkept
    unfold Component.parse at hparse
    split at hparse
    · cases hparse
    · next hdots =>
      cases hparse
      refine ⟨hkept.1, hkept.2, hdots, fun hslash => ?_⟩
      have hsep := (mem_splitOnP name hmem '/' hslash).2
      simp at hsep

/-- The file name of a program is proper. -/
theorem properName_of_resolveProgram (hhost : ProperNames host) {basename : Str}
    {program : AbsolutePathBuf} (h : Policy.resolveProgram host cmd = some (basename, program)) :
    ProperName basename := by
  obtain ⟨first, -, h⟩ := Option.bind_eq_some_iff.1 h
  obtain ⟨path, hpath, h⟩ := Option.bind_eq_some_iff.1 h
  obtain ⟨name, hname, h⟩ := Option.bind_eq_some_iff.1 h
  cases h
  have hmem : basename ∈ program := List.mem_of_getLast? hname
  have hexpanded : ∀ name, .normal name ∈
      (maybeExpandHomeDirectory host (Path.parse first)).components → ProperName name := by
    intro name hname
    unfold maybeExpandHomeDirectory at hname
    split at hname
    · next other rest home hparse hhome =>
      split at hname
      · rcases List.mem_append.1 hname with hdir | hrest
        · exact hhost.home home hhome name hdir
        · refine properName_of_mem_parse (s := first) ?_
          rw [hparse]
          exact List.mem_cons_of_mem _ hrest
      · exact properName_of_mem_parse hname
    · exact properName_of_mem_parse hname
  unfold fromAbsolutePath at hpath
  dsimp only at hpath
  split at hpath
  · obtain rfl := Option.some_inj.1 hpath
    rcases mem_normalizePath hmem with hbase | hnormal
    · cases hbase
    · exact hexpanded basename hnormal
  · obtain ⟨dir, hdir, rfl⟩ := Option.map_eq_some_iff.1 hpath
    rcases mem_normalizePath hmem with hbase | hnormal
    · exact hhost.currentDir dir hdir basename hbase
    · exact hexpanded basename hnormal

theorem parse_of_properName {name : Str} (h : ProperName name) :
    Path.parse name = ⟨false, [.normal name]⟩ := by
  obtain ⟨hne, hdot, hdots, hslash⟩ := h
  have hsplit : name.splitOn '/' = [name] := by
    refine List.splitOnP_eq_singleton fun c hc => ?_
    rw [beq_eq_false_iff_ne]
    rintro rfl
    exact hslash hc
  have hroot : name.head? ≠ some '/' := fun hhead => hslash (List.mem_of_mem_head? hhead)
  have hsome : some name ≠ some ".".toList := fun heq => hdot (Option.some_inj.1 heq)
  unfold Path.parse
  simp only [hsplit, List.head?_cons, if_neg hsome, List.nil_append]
  have hparse : Component.parse name = .normal name := if_neg hdots
  rw [List.filter_cons_of_pos (by simpa using ⟨hne, hdot⟩), List.filter_nil, List.map_singleton,
    hparse, decide_eq_false hroot]

/-- A proper name resolves to a file of its own name, except for the one that
stands for the home directory. -/
theorem not_renamed_of_properName {first : Str} {rest : List Str} (h : ProperName first)
    (htilde : first ≠ "~".toList) : ¬Renamed host (first :: rest) := by
  rintro ⟨basename, program, hres, hne⟩
  obtain ⟨path, hpath, hres⟩ := Option.bind_eq_some_iff.1 hres
  obtain ⟨name, hname, hres⟩ := Option.bind_eq_some_iff.1 hres
  cases hres
  have hexpand : maybeExpandHomeDirectory host ⟨false, [.normal first]⟩ =
      ⟨false, [.normal first]⟩ := by
    unfold maybeExpandHomeDirectory
    split
    · next heq _ =>
      cases heq
      exact if_neg htilde
    · rfl
  unfold fromAbsolutePath at hpath
  rw [parse_of_properName h, hexpand] at hpath
  obtain ⟨dir, -, rfl⟩ := Option.map_eq_some_iff.1 hpath
  have hlast : (normalizePath dir [.normal first]).getLast? = some first := List.getLast?_concat
  exact hne (hlast.symm.trans hname)

/-! ## The result -/

/-- **When an accepted proposal allows the commands it was made for**: unless
the policy allows the rule's own tokens already, through a program whose file name is not the
first token, and the fallback does not allow every command. On a host whose directories have
proper names, the first token is then `~`. -/
theorem accepted_proposal_allows_iff {prefixRule : Option (List Str)} {file : Str}
    (hne : commands ≠ [])
    (heval : policy.checkMultipleWithOptions host commands fallback resolving = some evaluation)
    (hproposed : deriveRequestedExecpolicyAmendmentFromPrefixRule host prefixRule
      evaluation.matchedRules policy commands fallback resolving = some command)
    (haccepted : appendAmendmentAndUpdate host ⟨file, policy⟩ command = .ok st) :
    ((st.policy.checkMultipleWithOptions host commands fallback resolving).map (·.decision) =
        some .allow ↔
      ¬(Renamed host command ∧ alreadyAllowed host policy command = true ∧
        ∃ cmd ∈ commands, fallback cmd ≠ .allow)) ∧
    (ProperNames host → alreadyAllowed host policy command = true →
      (∃ cmd ∈ commands, fallback cmd ≠ .allow) → command.head? = some "~".toList) := by
  obtain ⟨-, hcommand, hnone, happroves⟩ := derive_eq_some hproposed
  have hunmatched := unmatched_of_evaluation heval hnone
  obtain ⟨-, -, hpolicy⟩ := appendAmendmentAndUpdate_eq_ok haccepted
  have hskipped : alreadyAllowed host policy command = true → ∀ cmd ∈ commands, fallback cmd ≠ .allow →
      (∃ program, Policy.resolveProgram host cmd = some (command.headD [], program)) ∧
        Renamed host command := by
    intro hallowed cmd hcmd hfallback
    have hnew := new_rule_matches (hunmatched cmd hcmd) hfallback (happroves cmd hcmd)
    exact renamed_of_skipped hcommand (hunmatched cmd hcmd) hallowed hnew
  refine ⟨?_, ?_⟩
  · rw [checkMultiple_allow_iff hne, hpolicy]
    dsimp only
    by_cases hallowed : alreadyAllowed host policy command = true
    · rw [if_pos hallowed]
      have hfallback : ∀ cmd ∈ commands,
          (policy.checkWithOptions host cmd fallback resolving).map (·.decision) =
            some (fallback cmd) := fun cmd hcmd => check_of_unmatched fallback (hunmatched cmd hcmd)
      constructor
      · rintro hall ⟨-, -, cmd, hcmd, hdenied⟩
        have hallow := hall cmd hcmd
        rw [hfallback cmd hcmd, Option.some_inj] at hallow
        exact hdenied hallow
      · intro hnot cmd hcmd
        rw [hfallback cmd hcmd, Option.some_inj]
        by_contra hdenied
        exact hnot ⟨(hskipped hallowed cmd hcmd hdenied).2, hallowed, cmd, hcmd, hdenied⟩
    · rw [if_neg hallowed]
      refine iff_of_true (fun cmd hcmd => ?_) fun hall => hallowed hall.2.1
      obtain ⟨evaluation, hcheck, hallow⟩ := happroves cmd hcmd
      rw [hcheck, Option.map_some, hallow]
  · rintro hhost hallowed ⟨cmd, hcmd, hdenied⟩
    obtain ⟨⟨program, hres⟩, hrenamed⟩ := hskipped hallowed cmd hcmd hdenied
    obtain ⟨first, rest, rfl⟩ := List.exists_cons_of_ne_nil hcommand
    by_contra htilde
    refine not_renamed_of_properName (properName_of_resolveProgram hhost hres) ?_ hrenamed
    exact fun heq => htilde (congrArg some heq)

/-- A rule for `cargo test` is proposed and accepted, and the command it was made for is allowed. -/
theorem accepted_proposal_allows_cargo_test :
    ∃ st, appendAmendmentAndUpdate bareHost ⟨[], {}⟩ (words ["cargo", "test"]) = .ok st ∧
      (st.policy.checkMultipleWithOptions bareHost [words ["cargo", "test", "--all"]]
        (fun _ => .prompt) resolving).map (·.decision) = some .allow := by
  have heval : ∃ evaluation : Evaluation, ({} : Policy).checkMultipleWithOptions bareHost
      [words ["cargo", "test", "--all"]] (fun _ => .prompt) resolving = some evaluation ∧
      deriveRequestedExecpolicyAmendmentFromPrefixRule bareHost (some (words ["cargo", "test"]))
        evaluation.matchedRules {} [words ["cargo", "test", "--all"]] (fun _ => .prompt) resolving =
          some (words ["cargo", "test"]) := ⟨_, rfl, by decide +kernel⟩
  obtain ⟨evaluation, heval, hproposed⟩ := heval
  refine ⟨_, rfl, (accepted_proposal_allows_iff (List.cons_ne_nil _ _) heval hproposed rfl).1.2 ?_⟩
  rintro ⟨-, hallowed, -⟩
  exact absurd hallowed (by decide +kernel)

/-! ## A rule for the home directory -/

def homeHost : Host :=
  { bareHost with home := some ⟨true, [.normal "home".toList, .normal "user".toList]⟩ }

def allowUser : Policy := { rulesByProgram := ⟨[wordsRule ["user"] .allow]⟩ }

/-- The rule `~` is proposed for a program `/bin/~`. The policy allows `~` already, which it reads as
the home directory `/home/user`, so that nothing is added, and the program stays without a rule. -/
theorem accepted_proposal_prompts :
    ¬∀ (host : Host) (policy : Policy) (commands : List (List Str)) (fallback : List Str → Decision)
      (prefixRule : Option (List Str)) (evaluation : Evaluation) (command : List Str) (file : Str)
      (st : PolicyManager), commands ≠ [] →
      policy.checkMultipleWithOptions host commands fallback resolving = some evaluation →
      deriveRequestedExecpolicyAmendmentFromPrefixRule host prefixRule evaluation.matchedRules policy
        commands fallback resolving = some command →
      appendAmendmentAndUpdate host ⟨file, policy⟩ command = .ok st →
      (st.policy.checkMultipleWithOptions host commands fallback resolving).map (·.decision) =
        some .allow := by
  intro hall
  have hstart : ∃ evaluation st, allowUser.checkMultipleWithOptions homeHost [words ["/bin/~"]]
        (fun _ => .prompt) resolving = some evaluation ∧
      deriveRequestedExecpolicyAmendmentFromPrefixRule homeHost (some (words ["~"]))
        evaluation.matchedRules allowUser [words ["/bin/~"]] (fun _ => .prompt) resolving =
          some (words ["~"]) ∧
      appendAmendmentAndUpdate homeHost ⟨[], allowUser⟩ (words ["~"]) = .ok st ∧
      (st.policy.checkMultipleWithOptions homeHost [words ["/bin/~"]] (fun _ => .prompt)
        resolving).map (·.decision) = some .prompt :=
    ⟨_, { file := terminated [] ++ amendmentLine (words ["~"]) ++ ['\n'], policy := allowUser },
      rfl, by decide +kernel, rfl, by decide +kernel⟩
  obtain ⟨evaluation, st, heval, hproposed, haccepted, hprompt⟩ := hstart
  have hallow := hall homeHost allowUser _ _ _ evaluation _ [] st (List.cons_ne_nil _ _) heval
    hproposed haccepted
  rw [hprompt] at hallow
  exact absurd hallow (by decide)

end Codex.ExecPolicy
