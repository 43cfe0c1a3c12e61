import Codex.Text.Str

/-!
# Network rules

The network part of `execpolicy`: hosts are normalised (`rule.rs`), rules are
appended to the policy, and `compiled_network_domains` (`policy.rs`) turns them
into a list of allowed and a list of denied hosts. The other parts of a policy
(prefix rules and host executables) play no role here.
-/

namespace Codex.ExecPolicy

open Codex.Text

inductive Decision where
  | allow
  | prompt
  | forbidden
  deriving DecidableEq

inductive NetworkRuleProtocol where
  | http
  | https
  | socks5Tcp
  | socks5Udp
  deriving DecidableEq

inductive Error where
  | invalidRule (message : Str)
  | invalidDecision (raw : Str)
  deriving DecidableEq

structure NetworkRule where
  host : Str
  protocol : NetworkRuleProtocol
  decision : Decision
  justification : Option Str
  deriving DecidableEq

/-! ## Spellings -/

def Decision.parse (raw : Str) : Except Error Decision :=
  if raw = "allow".toList then .ok .allow
  else if raw = "prompt".toList then .ok .prompt
  else if raw = "forbidden".toList then .ok .forbidden
  else .error (.invalidDecision raw)

def NetworkRuleProtocol.parse (raw : Str) : Except Error NetworkRuleProtocol :=
  if raw = "http".toList then .ok .http
  else if raw = "https".toList ∨ raw = "https_connect".toList ∨ raw = "http-connect".toList then
    .ok .https
  else if raw = "socks5_tcp".toList then .ok .socks5Tcp
  else if raw = "socks5_udp".toList then .ok .socks5Udp
  else .error (.invalidRule
    ("network_rule protocol must be one of http, https, socks5_tcp, socks5_udp (got ".toList ++
      raw ++ ")".toList))

def NetworkRuleProtocol.asPolicyString : NetworkRuleProtocol → Str
  | .http => "http".toList
  | .https => "https".toList
  | .socks5Tcp => "socks5_tcp".toList
  | .socks5Udp => "socks5_udp".toList

/-! ## Hosts -/

/-- Non-empty and digits only. -/
def isPort (port : Str) : Bool := !port.isEmpty && port.all isAsciiDigit

/-- The host without brackets and without a port. -/
def stripBracketsAndPort (raw host : Str) : Except Error Str :=
  match host with
  | '[' :: stripped =>
    match splitOnce ']' stripped with
    | none =>
      .error (.invalidRule "network_rule host has an invalid bracketed IPv6 literal".toList)
    | some (inside, rest) =>
      let portOk := match rest with
        | ':' :: port => isPort port
        | _ => false
      if !rest.isEmpty && !portOk then
        .error (.invalidRule ("network_rule host contains an unsupported suffix: ".toList ++ raw))
      else .ok inside
  | _ =>
    if host.count ':' = 1 then
      match rsplitOnce ':' host with
      | some (candidate, port) =>
        if !candidate.isEmpty && isPort port then .ok candidate else .ok host
      | none => .ok host
    else .ok host

def normalizeNetworkRuleHost (raw : Str) : Except Error Str :=
  let host := trim raw
  if host.isEmpty then .error (.invalidRule "network_rule host cannot be empty".toList)
  else if "://".toList <:+: host ∨ '/' ∈ host ∨ '?' ∈ host ∨ '#' ∈ host then
    .error (.invalidRule
      "network_rule host must be a hostname or IP literal (without scheme or path)".toList)
  else do
    let host ← stripBracketsAndPort raw host
    let normalized := toAsciiLowercase (trim (trimEndDots host))
    if normalized.isEmpty then
      .error (.invalidRule "network_rule host cannot be empty".toList)
    else if '*' ∈ normalized then
      .error (.invalidRule
        "network_rule host must be a specific host; wildcards are not allowed".toList)
    else if normalized.any isWhitespace then
      .error (.invalidRule "network_rule host cannot contain whitespace".toList)
    else .ok normalized

/-! ## Rules -/

def justificationMessage : Str := "justification cannot be empty".toList

/-- A justification that is given is not blank. -/
def justificationOk (justification : Option Str) : Bool :=
  justification.all fun raw => !(trim raw).isEmpty

/-- `Policy::add_network_rule`, on the network rules of the policy. -/
def addNetworkRule (rules : List NetworkRule) (host : Str) (protocol : NetworkRuleProtocol)
    (decision : Decision) (justification : Option Str) : Except Error (List NetworkRule) := do
  let host ← normalizeNetworkRuleHost host
  if justificationOk justification then return rules ++ [⟨host, protocol, decision, justification⟩]
  else .error (.invalidRule justificationMessage)

def upsertDomain (entries : List Str) (host : Str) : List Str :=
  entries.filter (· ≠ host) ++ [host]

/-- The body of the loop of `compiled_network_domains`: the allowed and the denied hosts. -/
def compileRule (acc : List Str × List Str) (rule : NetworkRule) : List Str × List Str :=
  match rule.decision with
  | .allow => (upsertDomain acc.1 rule.host, acc.2.filter (· ≠ rule.host))
  | .forbidden => (acc.1.filter (· ≠ rule.host), upsertDomain acc.2 rule.host)
  | .prompt => acc

def compiledNetworkDomains (rules : List NetworkRule) : List Str × List Str :=
  rules.foldl compileRule ([], [])

end Codex.ExecPolicy
