import Codex.NetworkProxy.Policy
import Codex.Text.Utf8Validate

/-!
# Providers of credentials

`network-proxy/src/credential_broker/providers.rs` and its `github` and `openai`: which
variables of an environment hold credentials, to which hosts they belong, and the dummy
values that stand for them. `rama_http` is a parameter, and the random generator is what it
draws at every index.
-/

namespace Codex.NetworkProxy

open Codex.Text

/-- `HeaderValue` of `rama_http`. -/
structure HeaderCodec (η : Type) where
  fromStr : Str → Option η
  toStr : η → Option Str

/-- The codec that accepts visible ASCII. -/
def visibleAsciiCodec : HeaderCodec Str where
  fromStr value := if value.all fun c => 32 ≤ c.toNat && c.toNat < 127 then some value else none
  toStr value := some value

/-- `HeaderMap` of `rama_http`: the values under a name. -/
def HeaderMap (η : Type) := Str → List η

def authorization : Str := "authorization".toList

section

variable {η : Type}

def HeaderMap.get (headers : HeaderMap η) (name : Str) : Option η := (headers name).head?

def HeaderMap.insert (headers : HeaderMap η) (name : Str) (value : η) : HeaderMap η :=
  Function.update headers name [value]

end

abbrev Env := Str → Option Str

def Env.insert (env : Env) (key value : Str) : Env := Function.update env key (some value)

def Env.remove (env : Env) (key : Str) : Env := Function.update env key none

/-! ## Dummy values -/

def dummyAlphanumeric : Str :=
  "ABCDEFGHIJKLMNOPQRSTUVWXYZabcdefghijklmnopqrstuvwxyz0123456789".toList

/-- What the random generator gives for each index of a dummy value. -/
abbrev Draws := ℕ → Fin 62

/-- `u8::is_ascii_alphanumeric`. -/
def isAlphanumericByte (byte : ℕ) : Bool :=
  0x30 ≤ byte && byte ≤ 0x39 || 0x41 ≤ byte && byte ≤ 0x5A || 0x61 ≤ byte && byte ≤ 0x7A

def drawnChar (draw : Fin 62) : Char := dummyAlphanumeric.get draw

/-- The body of the loop of `shaped_dummy_value`. -/
def dummyChar (realValue : Str) (draws : Draws) (index : ℕ) : Char :=
  match (asBytes realValue)[index]? with
  | some template =>
    if !isAlphanumericByte template then Char.ofNat template else drawnChar (draws index)
  | none => drawnChar (draws index)

def targetLen (realValue before : Str) (minimumLen : ℕ) : ℕ :=
  max (max (asBytes realValue).length minimumLen) ((asBytes before).length + 16)

def shapedDummyValue (realValue before : Str) (minimumLen : ℕ) (draws : Draws) : Str :=
  before ++ (List.range' (asBytes before).length
    (targetLen realValue before minimumLen - (asBytes before).length)).map
      (dummyChar realValue draws)

/-! ## GitHub -/

def ghHostEnvVar : Str := "GH_HOST".toList

def githubTokenPrefixes : List Str :=
  ["github_pat_".toList, "ghp_".toList, "gho_".toList, "ghu_".toList, "ghs_".toList, "ghr_".toList]

def githubTokenMinLen : ℕ := 40

def githubCloudTokenEnvVars : List Str := ["GH_TOKEN".toList, "GITHUB_TOKEN".toList]

def githubEnterpriseTokenEnvVars : List Str :=
  ["GH_ENTERPRISE_TOKEN".toList, "GITHUB_ENTERPRISE_TOKEN".toList]

def githubCloudHosts : List Str := ["api.github.com".toList, "github.com".toList]

def githubCloudHostSuffixes : List Str := [".ghe.com".toList]

def githubTokenPrefix (value : Str) : Str :=
  (githubTokenPrefixes.find? fun before => before.isPrefixOf value).getD "ghp_".toList

/-! ## OpenAI -/

def openaiApiKeyEnvVars : List Str := ["OPENAI_API_KEY".toList]

def openaiApiKeyMinLen : ℕ := 51

def openaiApiHost : Str := "api.openai.com".toList

def openaiApiKeyPrefix (value : Str) : Str :=
  match stripPrefix value "sk-".toList with
  | none => "sk-".toList
  | some suffix =>
    if suffix.contains '-' then value.take ((suffix.takeWhile (· ≠ '-')).length + 4)
    else "sk-".toList

/-! ## Providers -/

inductive CredentialHostBinding
  | exactHost (host : Str)
  | hostPattern (exactHosts suffixes : List Str)
  deriving DecidableEq

def CredentialHostBinding.matchesHost (host : Str) : CredentialHostBinding → Bool
  | .exactHost expectedHost => host = expectedHost
  | .hostPattern exactHosts suffixes => exactHosts.contains host || suffixes.any (·.isSuffixOf host)

/-- `CREDENTIAL_PROVIDERS`; the broker compares them by their addresses. -/
inductive CredentialProvider
  | github
  | openai
  deriving DecidableEq

structure CredentialSource where
  envVars : List Str
  hostBinding : Env → Option CredentialHostBinding

def githubCloudBinding (_ : Env) : Option CredentialHostBinding :=
  some (.hostPattern githubCloudHosts githubCloudHostSuffixes)

def githubCloudHost (host : Str) : Bool :=
  githubCloudHosts.contains host || githubCloudHostSuffixes.any (·.isSuffixOf host)

def githubHostHint (env : Env) : Option Str :=
  ((env ghHostEnvVar).map normalizeHost).filter fun host => !host.isEmpty

def githubEnterpriseBinding (env : Env) : Option CredentialHostBinding :=
  ((githubHostHint env).filter fun host => !githubCloudHost host).map .exactHost

def openaiHostBinding (_ : Env) : Option CredentialHostBinding := some (.exactHost openaiApiHost)

namespace CredentialProvider

def all : List CredentialProvider := [github, openai]

def contextEnvVars : CredentialProvider → List Str
  | github => [ghHostEnvVar]
  | openai => []

def sources : CredentialProvider → List CredentialSource
  | github =>
    [⟨githubCloudTokenEnvVars, githubCloudBinding⟩,
      ⟨githubEnterpriseTokenEnvVars, githubEnterpriseBinding⟩]
  | openai => [⟨openaiApiKeyEnvVars, openaiHostBinding⟩]

/-- The beginning that a dummy value has in common with the kind of credential. -/
def valuePrefix : CredentialProvider → Str → Str
  | github => githubTokenPrefix
  | openai => openaiApiKeyPrefix

def minimumLen : CredentialProvider → ℕ
  | github => githubTokenMinLen
  | openai => openaiApiKeyMinLen

def dummyValue (provider : CredentialProvider) (realValue : Str) (draws : Draws) : Str :=
  shapedDummyValue realValue (provider.valuePrefix realValue) provider.minimumLen draws

variable {η : Type}

/-- `request_header`, the same for both providers. -/
def requestHeader (_ : CredentialProvider) (headers : HeaderMap η) : Option η :=
  headers.get authorization

/-- `request_header_value`, the same for both providers. -/
def requestHeaderValue (http : HeaderCodec η) (_ : CredentialProvider) (value : Str) : Option η :=
  http.fromStr ("Bearer ".toList ++ value)

/-- `insert_request_header`, the same for both providers. -/
def insertRequestHeader (_ : CredentialProvider) (headers : HeaderMap η) (value : η) :
    HeaderMap η :=
  headers.insert authorization value

end CredentialProvider

def credentialBrokerEnvKeys : List Str :=
  CredentialProvider.all.flatMap CredentialProvider.contextEnvVars ++
    (CredentialProvider.all.flatMap CredentialProvider.sources).flatMap CredentialSource.envVars

end Codex.NetworkProxy
