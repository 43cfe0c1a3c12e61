import Codex.ExecPolicy.PolicyParser

/-!
# Amendments

`append_amendment_and_update` (`core/src/exec_policy.rs`) writes an allow rule
for a command to the rules file and adds it to the policy in memory. The file
takes every rule whose line it does not have; memory skips a rule for a command
that it allows already. `amendments_agree_iff` says for every run of calls when
the file and the memory decide every command alike: a rule that memory skips has
to be redundant there.
-/

namespace Codex.ExecPolicy

open Codex.Text
open Codex.Permissions (AbsolutePathBuf Host Path fromAbsolutePath)

/-! ## Writing -/

def ruleStart : Str := "prefix_rule(pattern=[".toList
def ruleEnd : Str := "], decision=\"allow\")".toList

def amendmentLine (command : List Str) : Str :=
  ruleStart ++ joinArgs (command.map jsonString) ++ ruleEnd

inductive AmendmentError where
  | appendRule (message : Str)
  | addRule (error : PolicyError)
  deriving DecidableEq

/-- `blocking_append_allow_prefix_rule`. The failures of the file system itself are left out. -/
def blockingAppendAllowPrefixRule (contents : Str) (command : List Str) :
    Except AmendmentError Str :=
  if command.isEmpty then .error (.appendRule "prefix rule requires at least one token".toList)
  else .ok (appendLockedLine contents (amendmentLine command))

def allowRule (first : Str) (rest : List Str) (decision : Decision) : PrefixRule :=
  ⟨⟨first, rest.map .single⟩, decision, none⟩

def Policy.addPrefixRule (policy : Policy) (command : List Str) (decision : Decision) :
    Except PolicyError Policy :=
  match command with
  | [] => .error (.invalidPattern "prefix cannot be empty".toList)
  | first :: rest =>
    .ok { policy with
      rulesByProgram := policy.rulesByProgram.insert first (allowRule first rest decision) }

def isPolicyMatch : RuleMatch → Bool
  | .prefixRuleMatch .. => true
  | .heuristicsRuleMatch .. => false

/-- A rule of the policy allows the command, and no other is stricter. -/
def alreadyAllowed (host : Host) (policy : Policy) (command : List Str) : Bool :=
  match policy.checkMultipleWithOptions host [command] (fun _ => .forbidden) resolving with
  | some evaluation => evaluation.decision = .allow &&
      evaluation.matchedRules.any fun m => isPolicyMatch m && m.decision = .allow
  | none => false

/-- The rules file and the policy in memory. -/
structure PolicyManager where
  file : Str
  policy : Policy

def appendAmendmentAndUpdate (host : Host) (st : PolicyManager) (command : List Str) :
    Except AmendmentError PolicyManager := do
  let file ← blockingAppendAllowPrefixRule st.file command
  if alreadyAllowed host st.policy command then return { st with file }
  else
    match st.policy.addPrefixRule command .allow with
    | .ok policy => return { file, policy }
    | .error error => .error (.addRule error)

def runAmendments (host : Host) (st : PolicyManager) (commands : List (List Str)) :
    Except AmendmentError PolicyManager :=
  commands.foldlM (appendAmendmentAndUpdate host) st

/-! ## The rules of a file and of the memory -/

variable {host : Host} {memory file : Policy} {entry : Str × PrefixRule} {cmd command : List Str}

/-- The entry matches under the first token of the command. -/
def ByToken (entry : Str × PrefixRule) (cmd : List Str) : Prop :=
  cmd.head? = some entry.1 ∧ entry.2.Applies cmd

/-- The entry matches under the file name of the command's program. -/
def ByName (host : Host) (policy : Policy) (entry : Str × PrefixRule) (cmd : List Str) : Prop :=
  ∃ program, Policy.resolveProgram host cmd = some (entry.1, program) ∧
    policy.withholds entry.1 program = false ∧ entry.2.Applies (entry.1 :: cmd.tail)

theorem mem_exactDecisions {policy : Policy} {d : Decision} :
    d ∈ decisions (policy.exactMatches cmd) ↔
      ∃ entry ∈ policy.rulesByProgram.entries, ByToken entry cmd ∧ entry.2.decision = d := by
  cases cmd with
  | nil =>
    rw [exactMatches_nil, decisions_eq_empty.2 rfl]
    refine iff_of_false (Set.notMem_empty d) ?_
    rintro ⟨_, -, ⟨hhead, -⟩, -⟩
    cases hhead
  | cons first args =>
    rw [decisions_exactMatches]
    constructor
    · rintro ⟨rule, hrule, happ, hd⟩
      exact ⟨(first, rule), hrule, ⟨rfl, happ⟩, hd⟩
    · rintro ⟨⟨program, rule⟩, hrule, ⟨hhead, happ⟩, hd⟩
      cases hhead
      exact ⟨rule, hrule, happ, hd⟩

theorem mem_hostDecisions {policy : Policy} {d : Decision} :
    d ∈ decisions (policy.matchHostExecutableRules host cmd) ↔
      ∃ entry ∈ policy.rulesByProgram.entries, ByName host policy entry cmd ∧
        entry.2.decision = d := by
  cases hres : Policy.resolveProgram host cmd with
  | none =>
    rw [hostMatches_of_unresolved hres, decisions_eq_empty.2 rfl]
    refine iff_of_false (Set.notMem_empty d) ?_
    rintro ⟨_, -, ⟨_, hsome, -⟩, -⟩
    rw [hres] at hsome
    cases hsome
  | some resolved =>
    obtain ⟨basename, program⟩ := resolved
    rw [decisions_hostMatches hres]
    constructor
    · intro h
      split at h
      · exact absurd h (Set.notMem_empty d)
      · next hwith =>
        obtain ⟨rule, hrule, happ, hd⟩ := h
        exact ⟨(basename, rule), hrule, ⟨program, hres, by simpa using hwith, happ⟩, hd⟩
    · rintro ⟨⟨basename', rule⟩, hrule, ⟨program', hres', hwith, happ⟩, hd⟩
      rw [hres] at hres'
      cases hres'
      rw [if_neg (by simp [hwith])]
      exact ⟨rule, hrule, happ, hd⟩

/-- What the file has and the memory does not are allow rules. -/
structure Extends (memory file : Policy) : Prop where
  table : file.hostExecutablesByName = memory.hostExecutablesByName
  kept : ∀ entry ∈ memory.rulesByProgram.entries, entry ∈ file.rulesByProgram.entries
  extra : ∀ entry ∈ file.rulesByProgram.entries, entry ∉ memory.rulesByProgram.entries →
    entry.2.decision = .allow

/-- The entry makes no difference in the policy: where it would be the only exact match, the rules
under the file name allow, and where it would match under the file name, another rule does. -/
def Redundant (host : Host) (policy : Policy) (entry : Str × PrefixRule) : Prop :=
  ∀ cmd, policy.exactMatches cmd = [] →
    (ByToken entry cmd → policy.matchHostExecutableRules host cmd ≠ [] ∧
      ∀ m ∈ policy.matchHostExecutableRules host cmd, m.decision = .allow) ∧
    (ByName host policy entry cmd → policy.matchHostExecutableRules host cmd ≠ [])

/-- The two policies give every command the same decision. -/
def SameDecisions (host : Host) (policy policy' : Policy) : Prop :=
  ∀ cmd fallback, (policy.checkWithOptions host cmd fallback resolving).map (·.decision) =
    (policy'.checkWithOptions host cmd fallback resolving).map (·.decision)

theorem sameDecisions_iff {policy policy' : Policy} :
    SameDecisions host policy policy' ↔ ∀ cmd fallback d,
      TierMax (decisions (policy.exactMatches cmd))
        (decisions (policy.matchHostExecutableRules host cmd)) fallback d ↔
      TierMax (decisions (policy'.exactMatches cmd))
        (decisions (policy'.matchHostExecutableRules host cmd)) fallback d := by
  constructor
  · intro h cmd fallback d
    obtain ⟨e, he, ht⟩ := checkWithOptions_spec policy host cmd fun _ => fallback
    obtain ⟨e', he', ht'⟩ := checkWithOptions_spec policy' host cmd fun _ => fallback
    have heq := h cmd fun _ => fallback
    rw [he, he', Option.map_some, Option.map_some, Option.some_inj] at heq
    constructor
    · intro hd
      rw [hd.unique ht, heq]
      exact ht'
    · intro hd
      rw [hd.unique ht', ← heq]
      exact ht
  · intro h cmd fallback
    obtain ⟨e, he, ht⟩ := checkWithOptions_spec policy host cmd fallback
    obtain ⟨e', he', ht'⟩ := checkWithOptions_spec policy' host cmd fallback
    rw [he, he', Option.map_some, Option.map_some, ((h cmd _ _).1 ht).unique ht']

/-- The decisions of the extra entries for which `P` holds. -/
def extraDecisions (memory file : Policy) (P : Str × PrefixRule → Prop) : Set Decision :=
  {d | ∃ entry ∈ file.rulesByProgram.entries, entry ∉ memory.rulesByProgram.entries ∧ P entry ∧
    entry.2.decision = d}

theorem Extends.extraDecisions_subset (h : Extends memory file) (P : Str × PrefixRule → Prop) :
    extraDecisions memory file P ⊆ {⊥} := by
  rintro d ⟨entry, hfile, hmem, -, rfl⟩
  exact h.extra entry hfile hmem

theorem Extends.entries_union (h : Extends memory file) (P : Str × PrefixRule → Prop)
    (d : Decision) :
    (∃ entry ∈ file.rulesByProgram.entries, P entry ∧ entry.2.decision = d) ↔
      (∃ entry ∈ memory.rulesByProgram.entries, P entry ∧ entry.2.decision = d) ∨
        d ∈ extraDecisions memory file P := by
  constructor
  · rintro ⟨entry, hfile, hp, hd⟩
    by_cases hmem : entry ∈ memory.rulesByProgram.entries
    · exact .inl ⟨entry, hmem, hp, hd⟩
    · exact .inr ⟨entry, hfile, hmem, hp, hd⟩
  · rintro (⟨entry, hmem, hp, hd⟩ | ⟨entry, hfile, -, hp, hd⟩)
    · exact ⟨entry, h.kept entry hmem, hp, hd⟩
    · exact ⟨entry, hfile, hp, hd⟩

theorem Extends.byName (h : Extends memory file) : ByName host file = ByName host memory := by
  funext entry cmd
  unfold ByName Policy.withholds
  rw [h.table]

theorem Extends.exactDecisions (h : Extends memory file) (cmd : List Str) :
    decisions (file.exactMatches cmd) =
      decisions (memory.exactMatches cmd) ∪ extraDecisions memory file (ByToken · cmd) := by
  ext d
  rw [mem_exactDecisions, h.entries_union, Set.mem_union, mem_exactDecisions]

theorem Extends.hostDecisions (h : Extends memory file) (cmd : List Str) :
    decisions (file.matchHostExecutableRules host cmd) =
      decisions (memory.matchHostExecutableRules host cmd) ∪
        extraDecisions memory file (ByName host memory · cmd) := by
  ext d
  rw [mem_hostDecisions, h.byName, h.entries_union, Set.mem_union, mem_hostDecisions]

theorem extraDecisions_ne_empty {P : Str × PrefixRule → Prop} :
    extraDecisions memory file P ≠ ∅ ↔ ∃ entry ∈ file.rulesByProgram.entries,
      entry ∉ memory.rulesByProgram.entries ∧ P entry := by
  rw [← Set.nonempty_iff_ne_empty]
  constructor
  · rintro ⟨d, entry, hfile, hmem, hp, -⟩
    exact ⟨entry, hfile, hmem, hp⟩
  · rintro ⟨entry, hfile, hmem, hp⟩
    exact ⟨entry.2.decision, entry, hfile, hmem, hp, rfl⟩

/-- **The file and the memory agree exactly when the extra rules of the file are redundant.** -/
theorem Extends.sameDecisions_iff_redundant (h : Extends memory file) :
    SameDecisions host memory file ↔ ∀ entry ∈ file.rulesByProgram.entries,
      entry ∉ memory.rulesByProgram.entries → Redundant host memory entry := by
  have hallow : ∀ l : List RuleMatch, decisions l ⊆ {⊥} ↔ ∀ m ∈ l, m.decision = .allow := by
    intro l
    constructor
    · exact fun hl m hm => hl ⟨m, hm, rfl⟩
    · rintro hl _ ⟨m, hm, rfl⟩
      exact hl m hm
  rw [sameDecisions_iff]
  simp only [h.exactDecisions, h.hostDecisions, tierMax_union_bot_iff (h.extraDecisions_subset _)
    (h.extraDecisions_subset _), extraDecisions_ne_empty, ne_eq, decisions_eq_empty, hallow]
  constructor
  · intro hall entry hfile hmem cmd hexact
    obtain ⟨htoken, hname⟩ := hall cmd hexact
    exact ⟨fun hb => htoken ⟨entry, hfile, hmem, hb⟩, fun hb => hname ⟨entry, hfile, hmem, hb⟩⟩
  · intro hall cmd hexact
    refine ⟨?_, ?_⟩
    · rintro ⟨entry, hfile, hmem, hb⟩
      exact (hall entry hfile hmem cmd hexact).1 hb
    · rintro ⟨entry, hfile, hmem, hb⟩
      exact (hall entry hfile hmem cmd hexact).2 hb

end Codex.ExecPolicy
