import Codex.Base.MultiMap
import Codex.ExecPolicy.NetworkRule
import Codex.Permissions.Path
import Mathlib.Order.Lattice
import Mathlib.Order.RelClasses

/-!
# Command policies

The prefix rules of `execpolicy` (`rule.rs`, `policy.rs`): a rule matches the
commands that start with its pattern, and of the rules that match a command the
strictest decides. Rules are looked up under the first token of the command; if
none matches there, under the file name of the program it resolves to. A table
of host executables can restrict a name to some paths.
-/

namespace Codex.ExecPolicy

open Codex.Text
open Codex.Permissions (AbsolutePathBuf Host Path fromAbsolutePath)

/-! ## Decisions -/

/-- Decisions are ordered as they are declared. -/
def Decision.strictness : Decision → ℕ
  | .allow => 0
  | .prompt => 1
  | .forbidden => 2

theorem Decision.strictness_injective : Function.Injective Decision.strictness := by
  intro a b h
  cases a <;> cases b <;> first | rfl | exact absurd h (by decide)

instance : LinearOrder Decision := LinearOrder.lift' Decision.strictness
  Decision.strictness_injective

theorem Decision.allow_le (d : Decision) : .allow ≤ d := Nat.zero_le d.strictness

/-! ## Rules -/

inductive PatternToken where
  | single (expected : Str)
  | alts (alternatives : List Str)
  deriving DecidableEq

def PatternToken.matches (token : PatternToken) (cmdToken : Str) : Bool :=
  match token with
  | .single expected => expected = cmdToken
  | .alts alternatives => alternatives.any (· = cmdToken)

def PatternToken.alternatives : PatternToken → List Str
  | .single expected => [expected]
  | .alts alternatives => alternatives

structure PrefixPattern where
  first : Str
  rest : List PatternToken
  deriving DecidableEq

def PrefixPattern.matchesPrefix (pattern : PrefixPattern) (cmd : List Str) : Option (List Str) :=
  let patternLength := pattern.rest.length + 1
  if cmd.length < patternLength ∨ cmd.head? ≠ some pattern.first then none
  else if (pattern.rest.zip (cmd.tail.take pattern.rest.length)).all fun p => p.1.matches p.2 then
    some (cmd.take patternLength)
  else none

inductive RuleMatch where
  | prefixRuleMatch (matchedPrefix : List Str) (decision : Decision)
      (resolvedProgram : Option AbsolutePathBuf) (justification : Option Str)
  | heuristicsRuleMatch (command : List Str) (decision : Decision)
  deriving DecidableEq

def RuleMatch.decision : RuleMatch → Decision
  | .prefixRuleMatch _ decision _ _ => decision
  | .heuristicsRuleMatch _ decision => decision

def RuleMatch.withResolvedProgram (program : AbsolutePathBuf) : RuleMatch → RuleMatch
  | .prefixRuleMatch matchedPrefix decision _ justification =>
    .prefixRuleMatch matchedPrefix decision (some program) justification
  | .heuristicsRuleMatch command decision => .heuristicsRuleMatch command decision

structure PrefixRule where
  pattern : PrefixPattern
  decision : Decision
  justification : Option Str
  deriving DecidableEq

def PrefixRule.program (rule : PrefixRule) : Str := rule.pattern.first

def PrefixRule.matches (rule : PrefixRule) (cmd : List Str) : Option RuleMatch :=
  (rule.pattern.matchesPrefix cmd).map fun matchedPrefix =>
    .prefixRuleMatch matchedPrefix rule.decision none rule.justification

/-! ## Policies -/

structure Policy where
  rulesByProgram : MultiMap Str PrefixRule := {}
  networkRules : List NetworkRule := []
  hostExecutablesByName : Str → Option (List AbsolutePathBuf) := fun _ => none

structure MatchOptions where
  resolveHostExecutables : Bool := false
  deriving DecidableEq

/-- `executable_path_lookup_key`, on Unix. -/
def executablePathLookupKey (program : AbsolutePathBuf) : Option Str := program.getLast?

namespace Policy

def mergeOverlay (policy overlay : Policy) : Policy where
  rulesByProgram := policy.rulesByProgram.extend overlay.rulesByProgram
  networkRules := policy.networkRules ++ overlay.networkRules
  hostExecutablesByName name :=
    (overlay.hostExecutablesByName name).or (policy.hostExecutablesByName name)

def matchExactRules (policy : Policy) (cmd : List Str) : Option (List RuleMatch) :=
  cmd.head?.map fun first =>
    ((policy.rulesByProgram.getVec first).map fun rules =>
      rules.filterMap fun rule => rule.matches cmd).getD []

/-- The program of a command, as a path and by its file name. -/
def resolveProgram (host : Host) (cmd : List Str) : Option (Str × AbsolutePathBuf) := do
  let first ← cmd.head?
  let program ← fromAbsolutePath host (Path.parse first)
  let basename ← executablePathLookupKey program
  return (basename, program)

/-- The table has the name, but not with this path. -/
def withholds (policy : Policy) (basename : Str) (program : AbsolutePathBuf) : Bool :=
  match policy.hostExecutablesByName basename with
  | some paths => !paths.any (· = program)
  | none => false

def matchHostExecutableRules (policy : Policy) (host : Host) (cmd : List Str) : List RuleMatch :=
  match resolveProgram host cmd with
  | none => []
  | some (basename, program) =>
    match policy.rulesByProgram.getVec basename with
    | none => []
    | some rules =>
      if policy.withholds basename program then []
      else (rules.filterMap fun rule => rule.matches (basename :: cmd.tail)).map
        (RuleMatch.withResolvedProgram program)

/-- The rules that match; those under the file name count if there are no exact ones. -/
def matchedRules (policy : Policy) (host : Host) (cmd : List Str) (options : MatchOptions) :
    List RuleMatch :=
  (((policy.matchExactRules cmd).filter (!·.isEmpty)).or
    (if options.resolveHostExecutables then
      (some (policy.matchHostExecutableRules host cmd)).filter (!·.isEmpty)
    else none)).getD []

def matchesForCommandWithOptions (policy : Policy) (host : Host) (cmd : List Str)
    (heuristicsFallback : Option (List Str → Decision)) (options : MatchOptions) :
    List RuleMatch :=
  match heuristicsFallback with
  | some fallback =>
    if (policy.matchedRules host cmd options).isEmpty then
      [.heuristicsRuleMatch cmd (fallback cmd)]
    else policy.matchedRules host cmd options
  | none => policy.matchedRules host cmd options

end Policy

structure Evaluation where
  decision : Decision
  matchedRules : List RuleMatch
  deriving DecidableEq

/-- `Evaluation::from_matches`; there is no evaluation of an empty list, where the code panics. -/
def Evaluation.fromMatches (matchedRules : List RuleMatch) : Option Evaluation :=
  (matchedRules.map RuleMatch.decision).max?.map fun decision => ⟨decision, matchedRules⟩

def Policy.checkWithOptions (policy : Policy) (host : Host) (cmd : List Str)
    (heuristicsFallback : List Str → Decision) (options : MatchOptions) : Option Evaluation :=
  Evaluation.fromMatches
    (policy.matchesForCommandWithOptions host cmd (some heuristicsFallback) options)

def Policy.checkMultipleWithOptions (policy : Policy) (host : Host) (commands : List (List Str))
    (heuristicsFallback : List Str → Decision) (options : MatchOptions) : Option Evaluation :=
  Evaluation.fromMatches (commands.flatMap fun cmd =>
    policy.matchesForCommandWithOptions host cmd (some heuristicsFallback) options)

end Codex.ExecPolicy
