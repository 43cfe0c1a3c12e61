import Codex.Base.InsertAll
import Codex.ExecPolicy.PolicySpec
import Codex.ExecPolicy.RulesFile

/-!
# The policy parser

`execpolicy/src/parser.rs`: a rules file is a Starlark module that calls the
builtins `prefix_rule`, `network_rule` and `host_executable`, and these fill a
builder. The evaluation of Starlark is a parameter that gives the calls in their
order; so is the shell splitting of examples. The builtins themselves are
modelled with their errors, except for the places in the file that the errors of
examples are tagged with.
-/

namespace Codex.ExecPolicy

open Codex.Text
open Codex.Permissions (AbsolutePathBuf Host Path Component fromAbsolutePath)

/-! ## Values and calls -/

/-- A Starlark value, as far as the builtins look at it. -/
inductive Value where
  | str (s : Str)
  | list (items : List Value)
  | other (typeName : Str)

def Value.unpackStr : Value → Option Str
  | .str s => some s
  | _ => none

def Value.getType : Value → Str
  | .str _ => "string".toList
  | .list _ => "list".toList
  | .other typeName => typeName

inductive BuiltinCall where
  | prefixRule (pattern : List Value) (decision : Option Str) (matches' : Option (List Value))
      (notMatch : Option (List Value)) (justification : Option Str)
  | networkRule (args : RuleArgs)
  | hostExecutable (name : Str) (paths : List Value)

/-- The builtin calls that the evaluation of a file makes, if it succeeds. -/
abbrev StarlarkModule := Str → Option (List BuiltinCall)

inductive PolicyError where
  | starlark
  | rule (error : Error)
  | invalidPattern (message : Str)
  | invalidExample (message : Str)
  | exampleDidNotMatch (rules : List PrefixRule) (examples : List (List Str))
  | exampleDidMatch (rule : RuleMatch) (failed : List Str)
  deriving DecidableEq

/-! ## Arguments -/

def unpackAlternative (value : Value) : Except PolicyError Str :=
  match value.unpackStr with
  | some s => .ok s
  | none => .error (.invalidPattern
      ("pattern alternative must be a string (got ".toList ++ value.getType ++ ")".toList))

def parsePatternToken (value : Value) : Except PolicyError PatternToken :=
  match value with
  | .str s => .ok (.single s)
  | .list items => do
    let tokens ← items.mapM unpackAlternative
    match tokens with
    | [] => .error (.invalidPattern "pattern alternatives cannot be empty".toList)
    | [single] => .ok (.single single)
    | _ => .ok (.alts tokens)
  | .other typeName => .error (.invalidPattern
      ("pattern element must be a string or list of strings (got ".toList ++ typeName ++
        ")".toList))

/-- `parse_pattern`, with the split of the first token that `prefix_rule` does on its result. -/
def parsePattern (pattern : List Value) : Except PolicyError (PatternToken × List PatternToken) := do
  let tokens ← pattern.mapM parsePatternToken
  match tokens with
  | [] => .error (.invalidPattern "pattern cannot be empty".toList)
  | first :: rest => .ok (first, rest)

def unpackExampleToken (value : Value) : Except PolicyError Str :=
  match value.unpackStr with
  | some s => .ok s
  | none => .error (.invalidExample
      ("example tokens must be strings (got ".toList ++ value.getType ++ ")".toList))

variable (shlexSplit : Str → Option (List Str)) (host : Host)

def parseExample (value : Value) : Except PolicyError (List Str) :=
  match value with
  | .str raw =>
    match shlexSplit raw with
    | none => .error (.invalidExample "example string has invalid shell syntax".toList)
    | some [] => .error (.invalidExample "example cannot be an empty string".toList)
    | some tokens => .ok tokens
  | .list items => do
    let tokens ← items.mapM unpackExampleToken
    if tokens.isEmpty then .error (.invalidExample "example cannot be an empty list".toList)
    else .ok tokens
  | .other typeName => .error (.invalidExample
      ("example must be a string or list of strings (got ".toList ++ typeName ++ ")".toList))

def parseExamples (examples : Option (List Value)) : Except PolicyError (List (List Str)) :=
  match examples with
  | none => .ok []
  | some values => values.mapM (parseExample shlexSplit)

def parseDecision (decision : Option Str) : Except PolicyError Decision :=
  match decision with
  | some raw => (Decision.parse raw).mapError .rule
  | none => .ok .allow

/-- `Path::file_name`. -/
def fileName (path : Path) : Option Str :=
  match path.components.getLast? with
  | some (.normal name) => some name
  | _ => none

/-- `components().count()`: the root is a component too. -/
def componentCount (path : Path) : ℕ := path.components.length + if path.hasRoot then 1 else 0

def validateHostExecutableName (name : Str) : Except PolicyError Unit :=
  let path := Path.parse name
  if name.isEmpty then
    .error (.rule (.invalidRule "host_executable name cannot be empty".toList))
  else if componentCount path ≠ 1 ∨ fileName path ≠ some name then
    .error (.rule (.invalidRule
      ("host_executable name must be a bare executable name (got ".toList ++ name ++ ")".toList)))
  else .ok ()

def basenameMessage (raw name : Str) : Str :=
  "host_executable path `".toList ++ raw ++ "` must have basename `".toList ++ name ++ "`".toList

/-- The error of `current_dir` where the directory is gone. -/
def currentDirError : Str := "No such file or directory (os error 2)".toList

/-- One round of the loop over the paths of `host_executable`. -/
def parseHostPath (name : Str) (value : Value) : Except PolicyError AbsolutePathBuf :=
  match value.unpackStr with
  | none => .error (.rule (.invalidRule
      ("host_executable paths must be strings (got ".toList ++ value.getType ++ ")".toList)))
  | some raw =>
    let path := Path.parse raw
    if !path.hasRoot then
      .error (.rule (.invalidRule
        ("host_executable paths must be absolute (got ".toList ++ raw ++ ")".toList)))
    else
      match fromAbsolutePath host path with
      | none => .error (.rule (.invalidRule
          ("invalid absolute path `".toList ++ raw ++ "`: ".toList ++ currentDirError)))
      | some path =>
        if executablePathLookupKey path = some name then .ok path
        else .error (.rule (.invalidRule (basenameMessage raw name)))

/-! ## The builder -/

structure PendingExampleValidation where
  rules : List PrefixRule
  matches' : List (List Str)
  notMatches : List (List Str)
  deriving DecidableEq

structure PolicyBuilder where
  rulesByProgram : MultiMap Str PrefixRule := {}
  networkRules : List NetworkRule := []
  hostExecutablesByName : Str → Option (List AbsolutePathBuf) := fun _ => none
  pendingExampleValidations : List PendingExampleValidation := []

namespace PolicyBuilder

def addRule (builder : PolicyBuilder) (rule : PrefixRule) : PolicyBuilder :=
  { builder with rulesByProgram := builder.rulesByProgram.insert rule.program rule }

def addHostExecutable (builder : PolicyBuilder) (name : Str) (paths : List AbsolutePathBuf) :
    PolicyBuilder :=
  { builder with
    hostExecutablesByName := Function.update builder.hostExecutablesByName name (some paths) }

def build (builder : PolicyBuilder) : Policy where
  rulesByProgram := builder.rulesByProgram
  networkRules := builder.networkRules
  hostExecutablesByName := builder.hostExecutablesByName

end PolicyBuilder

/-- The builtin `prefix_rule`: one rule for each alternative of the first token. -/
def prefixRule (builder : PolicyBuilder) (pattern : List Value) (decision : Option Str)
    (matches' notMatch : Option (List Value)) (justification : Option Str) :
    Except PolicyError PolicyBuilder := do
  let decision ← parseDecision decision
  if justificationOk justification then
    let (first, rest) ← parsePattern pattern
    let matches' ← parseExamples shlexSplit matches'
    let notMatches ← parseExamples shlexSplit notMatch
    let rules := first.alternatives.map fun head => ⟨⟨head, rest⟩, decision, justification⟩
    let builder := { builder with
      pendingExampleValidations := builder.pendingExampleValidations ++
        [⟨rules, matches', notMatches⟩] }
    return rules.foldl PolicyBuilder.addRule builder
  else .error (.rule (.invalidRule justificationMessage))

/-- The builtin `host_executable`. -/
def hostExecutable (builder : PolicyBuilder) (name : Str) (paths : List Value) :
    Except PolicyError PolicyBuilder := do
  validateHostExecutableName name
  let parsed ← paths.mapM (parseHostPath host name)
  return builder.addHostExecutable name (pushUnique [] parsed)

def applyCall (builder : PolicyBuilder) (call : BuiltinCall) : Except PolicyError PolicyBuilder :=
  match call with
  | .prefixRule pattern decision matches' notMatch justification =>
    prefixRule shlexSplit builder pattern decision matches' notMatch justification
  | .networkRule args =>
    match networkRule args with
    | .ok rule => .ok { builder with networkRules := builder.networkRules ++ [rule] }
    | .error error => .error (.rule error)
  | .hostExecutable name paths => hostExecutable host builder name paths

/-! ## Examples -/

def validateNotMatchExamples (policy : Policy) (notMatches : List (List Str)) :
    Except PolicyError Unit :=
  match notMatches with
  | [] => .ok ()
  | failed :: rest =>
    match policy.matchesForCommandWithOptions host failed none resolving with
    | rule :: _ => .error (.exampleDidMatch rule failed)
    | [] => validateNotMatchExamples policy rest

def validateMatchExamples (policy : Policy) (rules : List PrefixRule)
    (examples : List (List Str)) : Except PolicyError Unit :=
  let unmatched := examples.filter fun example_ =>
    (policy.matchesForCommandWithOptions host example_ none resolving).isEmpty
  if unmatched.isEmpty then .ok () else .error (.exampleDidNotMatch rules unmatched)

/-- One round of `validate_pending_examples_from`: the rules of the call against its examples. -/
def validatePending (table : Str → Option (List AbsolutePathBuf))
    (validation : PendingExampleValidation) : Except PolicyError Unit := do
  let policy : Policy :=
    { rulesByProgram := validation.rules.foldl (fun rules rule => rules.insert rule.program rule) {}
      hostExecutablesByName := table }
  validateNotMatchExamples host policy validation.notMatches
  validateMatchExamples host policy validation.rules validation.matches'

def validatePendingExamples (builder : PolicyBuilder) : Except PolicyError Unit :=
  builder.pendingExampleValidations.forM (validatePending host builder.hostExecutablesByName)

variable (eval : StarlarkModule)

/-- `PolicyParser::parse` on one file, and `build`. -/
def parsePolicy (contents : Str) : Except PolicyError Policy :=
  match eval contents with
  | none => .error .starlark
  | some calls => do
    let builder ← calls.foldlM (applyCall shlexSplit host) {}
    validatePendingExamples host builder
    return builder.build

end Codex.ExecPolicy
