import Codex.Text.Glob

/-!
# Host patterns

`network-proxy/src/policy.rs`. A pattern of the config is read in two ways. The
matcher reads it with `normalizePattern` (ports, brackets and trailing dots are
stripped) and `expandDomainPattern`, and compiles globs. The check against the
managed config reads it with `DomainPattern.parseForConstraints`, which asks
`url::Host::parse`, and compares patterns with `DomainPattern.allows`.

`hostParse` stands for `url::Host::parse` followed by `to_string`, and
`buildsGlob` for whether `globset` accepts the text of a glob.
-/

namespace Codex.NetworkProxy

open Codex.Text

/-! ## IP literals

The recognisers of `core::net`, each returning what is left of the text. -/

def hexDigit (c : Char) : Option Nat :=
  if isAsciiDigit c then some (c.toNat - '0'.toNat)
  else if 'a' ≤ c && c ≤ 'f' then some (c.toNat - 'a'.toNat + 10)
  else if 'A' ≤ c && c ≤ 'F' then some (c.toNat - 'A'.toNat + 10)
  else none

def decDigit (c : Char) : Option Nat :=
  if isAsciiDigit c then some (c.toNat - '0'.toNat) else none

def readNumber (digit : Char → Option Nat) (radix maxDigits max : Nat) (allowZeroPrefix : Bool)
    (s : Str) : Option Str :=
  let digits := s.takeWhile fun c => (digit c).isSome
  let value := digits.foldl (fun n c => n * radix + (digit c).getD 0) 0
  if digits.isEmpty || maxDigits < digits.length || max < value then none
  else if !allowZeroPrefix && digits.head? = some '0' && 1 < digits.length then none
  else some (s.drop digits.length)

/-- Every element but the first follows a separator. -/
def readSeparator (sep : Char) (index : Nat) (inner : Str → Option Str) (s : Str) : Option Str :=
  if index = 0 then inner s
  else
    match s with
    | [] => none
    | c :: s => if c = sep then inner s else none

def readOctet (s : Str) : Option Str := readNumber decDigit 10 3 255 false s

def readIpv4Addr (s : Str) : Option Str := do
  let s ← readSeparator '.' 0 readOctet s
  let s ← readSeparator '.' 1 readOctet s
  let s ← readSeparator '.' 2 readOctet s
  readSeparator '.' 3 readOctet s

/-- `read_groups`, `remaining` groups from the one with number `index` on: how many were read,
whether the last two were an IPv4 address, and the rest. -/
def readGroups (index : Nat) : Nat → Str → Nat × Bool × Str
  | 0, s => (index, false, s)
  | remaining + 1, s =>
    let ipv4 := if 0 < remaining then readSeparator ':' index readIpv4Addr s else none
    match ipv4 with
    | some s => (index + 2, true, s)
    | none =>
      match readSeparator ':' index (readNumber hexDigit 16 4 65535 true) s with
      | some s => readGroups (index + 1) remaining s
      | none => (index, false, s)

def readIpv6Addr (s : Str) : Option Str :=
  match readGroups 0 8 s with
  | (8, _, s) => some s
  | (_, true, _) => none
  | (headSize, false, ':' :: ':' :: s) =>
    let (_, _, s) := readGroups 0 (8 - (headSize + 1)) s
    some s
  | _ => none

/-- `host.parse::<IpAddr>().is_ok()`. -/
def isIpAddr (s : Str) : Bool :=
  match readIpv4Addr s with
  | some rest => rest.isEmpty
  | none => readIpv6Addr s = some []

example : isIpAddr "fe80::1".toList = true := by decide

/-! ## Hosts -/

/-- The two delimiters of a scope, in the order they are tried. -/
def normalizeIpLiteral (host : Str) : Option Str :=
  if isIpAddr host then some host
  else
    match splitOnceStr ['%', '2', '5'] host with
    | some (ip, scope) => if isIpAddr ip then some (ip ++ '%' :: scope) else percent
    | none => percent
where
  percent : Option Str :=
    match splitOnce '%' host with
    | some (ip, scope) => if isIpAddr ip then some (ip ++ '%' :: scope) else none
    | none => none

def normalizeDnsHostOrIpLiteral (host : Str) : Str :=
  let host := trimEndDots (toAsciiLowercase host)
  (normalizeIpLiteral host).getD host

/-- The part between a leading `[` and the first `]`. -/
def bracketed (host : Str) : Option Str :=
  if host.head? = some '[' then (splitOnce ']' host).map (·.1.tail) else none

/-- A host without its brackets, or without a port when there is exactly one `:`. -/
def stripPort (host : Str) : Str :=
  match bracketed host with
  | some inside => inside
  | none => if host.count ':' = 1 then host.takeWhile (· ≠ ':') else host

def normalizeHost (host : Str) : Str := normalizeDnsHostOrIpLiteral (stripPort (trim host))

/-- `Host::parse`: a host that is not empty after normalisation. -/
def Host.parse (input : Str) : Option Str :=
  let normalized := normalizeHost input
  if normalized.isEmpty then none else some normalized

/-! ## Patterns -/

/-- The prefix `**.`. -/
def apexPrefix : Str := ['*', '*', '.']

/-- The prefix `*.`. -/
def subdomainPrefix : Str := ['*', '.']

def normalizePattern (pattern : Str) : Str :=
  let pattern := trim pattern
  if pattern = ['*'] then ['*']
  else
    match stripPrefix pattern apexPrefix, stripPrefix pattern subdomainPrefix with
    | some domain, _ => apexPrefix ++ normalizeHost domain
    | none, some domain => subdomainPrefix ++ normalizeHost domain
    | none, none => normalizeHost pattern

inductive DomainPattern where
  | apexAndSubdomains (domain : Str)
  | subdomainsOnly (domain : Str)
  | exact (domain : Str)
  deriving DecidableEq

def parseDomain (domain : Str) (build : Str → DomainPattern) : DomainPattern :=
  let domain := trim domain
  if domain.isEmpty then .exact [] else build domain

def DomainPattern.parse (input : Str) : DomainPattern :=
  let input := trim input
  if input.isEmpty then .exact []
  else
    match stripPrefix input apexPrefix, stripPrefix input subdomainPrefix with
    | some domain, _ => parseDomain domain .apexAndSubdomains
    | none, some domain => parseDomain domain .subdomainsOnly
    | none, none => .exact input

/-- `?*.` in front of a domain: a nonempty text and a dot. -/
def subdomainGlob (domain : Str) : Str := '?' :: '*' :: '.' :: domain

def expandDomainPattern (pattern : Str) : List Str :=
  match DomainPattern.parse pattern with
  | .exact domain => [domain]
  | .subdomainsOnly domain => [subdomainGlob domain]
  | .apexAndSubdomains domain => [domain, subdomainGlob domain]

def isGlobalWildcardDomainPattern (pattern : Str) : Bool :=
  (expandDomainPattern (normalizePattern pattern)).any (· = ['*'])

/-! ## Globs -/

/-- A compiled set is the list of the globs it was built from. -/
abbrev GlobSet := List Str

def GlobSet.isMatch (set : GlobSet) (host : Str) : Bool := set.any fun glob => globMatches glob host

inductive GlobalWildcard where
  | allow
  | reject
  deriving DecidableEq

inductive GlobError where
  | unsupportedGlobalWildcard
  | invalidGlob (candidate : Str)
  deriving DecidableEq

def GlobError.message : GlobError → Str
  | .unsupportedGlobalWildcard =>
    ("unsupported global wildcard domain pattern \"*\"; use exact hosts or scoped wildcards " ++
      "like *.example.com or **.example.com").toList
  | .invalidGlob candidate => "invalid glob pattern: ".toList ++ candidate

/-- The candidates of one pattern: those seen before are skipped. -/
def addGlobs (buildsGlob : Str → Bool) (set : GlobSet) (candidates : List Str) :
    Except GlobError GlobSet :=
  candidates.foldlM (fun set candidate =>
    if candidate ∈ set then .ok set
    else if buildsGlob candidate then .ok (set ++ [candidate])
    else .error (.invalidGlob candidate)) set

def compileGlobsetWithPolicy (buildsGlob : Str → Bool) (globalWildcard : GlobalWildcard)
    (patterns : List Str) : Except GlobError GlobSet :=
  patterns.foldlM (fun set pattern =>
    if globalWildcard = .reject && isGlobalWildcardDomainPattern pattern then
      .error .unsupportedGlobalWildcard
    else addGlobs buildsGlob set (expandDomainPattern (normalizePattern pattern))) []

def compileAllowlistGlobset (buildsGlob : Str → Bool) (patterns : List Str) :
    Except GlobError GlobSet :=
  compileGlobsetWithPolicy buildsGlob .allow patterns

def compileDenylistGlobset (buildsGlob : Str → Bool) (patterns : List Str) :
    Except GlobError GlobSet :=
  compileGlobsetWithPolicy buildsGlob .reject patterns

/-! ## Comparing patterns -/

/-- The text inside brackets that enclose the whole domain. -/
def unbracketed (domain : Str) : Str :=
  if domain.head? = some '[' && domain.getLast? = some ']' then domain.tail.dropLast else domain

def parseDomainForConstraints (hostParse : Str → Option Str) (domain : Str) : Str :=
  let domain := trimEndDots (trim domain)
  if domain.isEmpty then []
  else
    let host := unbracketed domain
    if '*' ∈ host ∨ '?' ∈ host ∨ '%' ∈ host then domain
    else (hostParse host).getD []

def DomainPattern.parseForConstraints (hostParse : Str → Option Str) (input : Str) :
    DomainPattern :=
  let input := trim input
  if input.isEmpty then .exact []
  else
    match stripPrefix input apexPrefix, stripPrefix input subdomainPrefix with
    | some domain, _ => .apexAndSubdomains (parseDomainForConstraints hostParse domain)
    | none, some domain => .subdomainsOnly (parseDomainForConstraints hostParse domain)
    | none, none => .exact (parseDomainForConstraints hostParse input)

def normalizeDomain (domain : Str) : Str := toAsciiLowercase (trimEndDots domain)

def domainEq (left right : Str) : Bool := normalizeDomain left = normalizeDomain right

def isSubdomainOrEqual (child parent : Str) : Bool :=
  let child := normalizeDomain child
  let parent := normalizeDomain parent
  child = parent || ('.' :: parent).isSuffixOf child

def isStrictSubdomain (child parent : Str) : Bool :=
  let child := normalizeDomain child
  let parent := normalizeDomain parent
  child ≠ parent && ('.' :: parent).isSuffixOf child

def DomainPattern.allows : DomainPattern → DomainPattern → Bool
  | .exact domain, .exact candidate => domainEq candidate domain
  | .exact _, _ => false
  | .subdomainsOnly domain, .exact candidate => isStrictSubdomain candidate domain
  | .subdomainsOnly domain, .subdomainsOnly candidate => isSubdomainOrEqual candidate domain
  | .subdomainsOnly domain, .apexAndSubdomains candidate => isStrictSubdomain candidate domain
  | .apexAndSubdomains domain, .exact candidate => isSubdomainOrEqual candidate domain
  | .apexAndSubdomains domain, .subdomainsOnly candidate => isSubdomainOrEqual candidate domain
  | .apexAndSubdomains domain, .apexAndSubdomains candidate => isSubdomainOrEqual candidate domain

end Codex.NetworkProxy
