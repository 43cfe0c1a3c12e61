import Codex.Base.Except
import Codex.ExecPolicy.NetworkRule
import Codex.Text.Json
import Codex.Text.Lines

/-!
# The rules file

`append_network_rule_and_update` writes a rule to the rules file
(`execpolicy/src/amend.rs`) and adds it to the policy in memory
(`core/src/exec_policy.rs`). The file keeps one line for each rule; a line that
is already there is not written again. `readRules` reads the file back: Starlark
evaluates each line to a call of the `network_rule` builtin of
`execpolicy/src/parser.rs`.
-/

namespace Codex.ExecPolicy

open Codex.Text

/-! ## Writing -/

/-- The spelling of a decision in the rules file. -/
def Decision.ruleString : Decision → Str
  | .allow => "allow".toList
  | .prompt => "prompt".toList
  | .forbidden => "deny".toList

/-- `args.join(", ")`. -/
def joinArgs : List Str → Str
  | [] => []
  | [a] => a
  | a :: b :: l => a ++ [',', ' '] ++ joinArgs (b :: l)

theorem newline_not_mem_joinArgs {l : List Str} (h : ∀ a ∈ l, '\n' ∉ a) : '\n' ∉ joinArgs l := by
  have hsep : '\n' ∉ [',', ' '] := by decide
  induction l with
  | nil => simp [joinArgs]
  | cons a l ih =>
    cases l with
    | nil => exact h a (by simp)
    | cons b l =>
      rw [joinArgs, List.mem_append, List.mem_append, not_or, not_or]
      exact ⟨⟨h a (by simp), hsep⟩, ih fun x hx => h x (by simp [hx])⟩

/-- The strings of a rule as they are serialised. -/
structure RuleArgs where
  host : Str
  protocol : Str
  decision : Str
  justification : Option Str
  deriving DecidableEq

def ruleOpen : Str := "network_rule(".toList
def hostKey : Str := "host=".toList
def protocolKey : Str := "protocol=".toList
def decisionKey : Str := "decision=".toList
def justificationKey : Str := "justification=".toList

def RuleArgs.line (args : RuleArgs) : Str :=
  ruleOpen ++
    joinArgs ([hostKey ++ jsonString args.host, protocolKey ++ jsonString args.protocol,
      decisionKey ++ jsonString args.decision] ++
      (args.justification.map fun j => justificationKey ++ jsonString j).toList) ++
    [')']

def endsWithNewline (contents : Str) : Bool := contents.getLast? == some '\n'

/-- `append_locked_line`, on the contents of the file. -/
def appendLockedLine (contents line : Str) : Str :=
  if line ∈ lines contents then contents
  else
    let contents :=
      if !contents.isEmpty && !endsWithNewline contents then contents ++ ['\n'] else contents
    contents ++ line ++ ['\n']

/-- A call of `append_network_rule_and_update`. -/
structure NetworkRuleCall where
  host : Str
  protocol : NetworkRuleProtocol
  decision : Decision
  justification : Option Str
  deriving DecidableEq

/-- What a call serialises, given its normalised host. -/
def NetworkRuleCall.args (call : NetworkRuleCall) (host : Str) : RuleArgs where
  host := host
  protocol := call.protocol.asPolicyString
  decision := call.decision.ruleString
  justification := call.justification

inductive UpdateError where
  | appendRule (message : Str)
  | addRule (error : Error)
  deriving DecidableEq

/-- `blocking_append_network_rule`. The failures of the file system itself are left out. -/
def blockingAppendNetworkRule (contents : Str) (call : NetworkRuleCall) : Except UpdateError Str :=
  match normalizeNetworkRuleHost call.host with
  | .error (.invalidRule message) | .error (.invalidDecision message) =>
    .error (.appendRule ("invalid network rule: ".toList ++ message))
  | .ok host =>
    if justificationOk call.justification then .ok (appendLockedLine contents (call.args host).line)
    else .error (.appendRule ("invalid network rule: ".toList ++ justificationMessage))

/-- The rules file and the network rules of the policy in memory. -/
structure ManagerState where
  file : Str := []
  rules : List NetworkRule := []
  deriving DecidableEq

def appendNetworkRuleAndUpdate (st : ManagerState) (call : NetworkRuleCall) :
    Except UpdateError ManagerState := do
  let file ← blockingAppendNetworkRule st.file call
  match addNetworkRule st.rules call.host call.protocol call.decision call.justification with
  | .ok rules => return { file, rules }
  | .error error => .error (.addRule error)

/-- A sequence of calls. -/
def runCalls (st : ManagerState) (calls : List NetworkRuleCall) : Except UpdateError ManagerState :=
  calls.foldlM appendNetworkRuleAndUpdate st

/-! ## Reading -/

def parseNetworkRuleDecision (raw : Str) : Except Error Decision :=
  if raw = "deny".toList then .ok .forbidden else Decision.parse raw

/-- The `network_rule` builtin. -/
def networkRule (args : RuleArgs) : Except Error NetworkRule := do
  let protocol ← NetworkRuleProtocol.parse args.protocol
  let decision ← parseNetworkRuleDecision args.decision
  if justificationOk args.justification then
    let host ← normalizeNetworkRuleHost args.host
    return { host, protocol, decision, justification := args.justification }
  else .error (.invalidRule justificationMessage)

/-- Starlark: the arguments of the `network_rule` call on a line, if it is one. -/
abbrev Starlark := Str → Option RuleArgs

def readRule (eval : Starlark) (line : Str) : Except Error NetworkRule :=
  match eval line with
  | some args => networkRule args
  | none => .error (.invalidRule "not a network_rule call".toList)

def readRules (eval : Starlark) (contents : Str) : Except Error (List NetworkRule) :=
  (lines contents).mapM (readRule eval)

end Codex.ExecPolicy
