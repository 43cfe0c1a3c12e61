import Codex.Text.Base64
import Codex.Text.Percent
import Codex.Text.Split

/-!
# Path URIs

A `PathUri` is a `file:` URL without NUL bytes in its path and without the
`localhost` authority. A path that has no such URL is kept as opaque bytes: the
reserved path `/%00/bad/path/` and the bytes in Base64. Credentials, port, query and
fragment are absent from the URLs here, since nothing that builds one sets them.

The `url` crate is a parameter: how its path-segment setter encodes a segment, and
which host `set_host` makes of a name. `Documented` says what the paths rely on. Two
URLs are equal to the crate when their texts are, and a URL without a host has the
text of one with an empty host.
-/

namespace Codex.NativePath

open List Codex.Text

inductive PathConvention where
  | posix
  | windows
  deriving DecidableEq

def nul : Char := Char.ofNat 0

/-- A `file:` URL: its host, and its path segments as they are spelled. -/
structure FileUrl where
  host : Option Str
  segments : List Str
  deriving DecidableEq

def FileUrl.path (url : FileUrl) : Str := url.segments.flatMap ('/' :: ·)

def fileScheme : Str := "file://".toList

def FileUrl.asStr (url : FileUrl) : Str := fileScheme ++ (url.host.getD [] ++ url.path)

/-- No host and no segment of a URL has a slash. -/
structure FileUrl.WellFormed (url : FileUrl) : Prop where
  host : ∀ host ∈ url.host, '/' ∉ host
  segments : ∀ segment ∈ url.segments, '/' ∉ segment

variable {url : FileUrl} {pathBytes : List ℕ}

/-- A URL is cut into its host and its segments again. -/
theorem FileUrl.WellFormed.split (h : url.WellFormed) :
    (url.host.getD [] ++ url.path).splitOnP (· == '/') = url.host.getD [] :: url.segments := by
  refine splitOnP_join rfl (forall_mem_cons.2 ⟨?_, ?_⟩)
  · intro c hc
    cases hhost : url.host with
    | none =>
      rw [hhost] at hc
      cases hc
    | some host =>
      rw [hhost] at hc
      exact beq_false_of_ne fun heq => h.host host hhost (heq ▸ hc)
  · exact fun segment hmem c hc => beq_false_of_ne fun heq => h.segments segment hmem (heq ▸ hc)

/-- URLs with one text differ at most in an empty host. -/
theorem eq_of_asStr_eq {url' : FileUrl} (h : url.WellFormed) (h' : url'.WellFormed)
    (hempty : url.host = some [] ↔ url'.host = some []) (heq : url.asStr = url'.asStr) :
    url = url' := by
  have hsplit := h.split
  rw [append_cancel_left heq, h'.split] at hsplit
  obtain ⟨hname, hsegments⟩ := List.cons.inj hsplit
  obtain ⟨host, segments⟩ := url
  obtain ⟨host', segments'⟩ := url'
  dsimp only at hname hsegments hempty
  rw [FileUrl.mk.injEq]
  refine ⟨?_, hsegments.symm⟩
  cases host with
  | none =>
    cases host' with
    | none => rfl
    | some name =>
      -- the name would be empty, which only both hosts are
      have hnil : name = [] := hname
      rw [hnil] at hempty
      cases hempty.2 rfl
  | some name =>
    cases host' with
    | none =>
      have hnil : [] = name := hname
      rw [← hnil] at hempty
      cases hempty.1 rfl
    | some name' => exact congrArg some hname.symm

def decodeNativeSegment (segment : Str) : Str := fromUtf8Lossy (decodeBinary (asBytes segment))

structure UrlCrate where
  encodeSegment : Str → Str
  setHost : Str → Option Str

/-- What is relied on of the crate: an encoded segment decodes to itself, an accepted host
keeps its name up to letter case, and the host it became is accepted as it is. -/
structure UrlCrate.Documented (crate : UrlCrate) : Prop where
  decode_encodeSegment : ∀ segment, decodeNativeSegment (crate.encodeSegment segment) = segment
  encodeSegment_nil : crate.encodeSegment [] = []
  setHost_letterCase : ∀ {name host}, crate.setHost name = some host →
    toAsciiLowercase host = toAsciiLowercase name
  setHost_canonical : ∀ {name host}, crate.setHost name = some host →
    crate.setHost host = some host

/-- `path_segments_mut().clear().extend(segments)`: a path is never without a segment. -/
def UrlCrate.setSegments (crate : UrlCrate) (segments : List Str) : List Str :=
  if segments = [] then [[]] else segments.map crate.encodeSegment

/-! ## Opaque paths -/

def badPathUriPrefix : Str := "file:///%00/bad/path/".toList

def badPath : Str := "/%00/bad/path/".toList

theorem badPathUriPrefix_eq : badPathUriPrefix = fileScheme ++ badPath := rfl

/-- The original path bytes of a canonical bad-path URI. -/
def decodeBadPathUri (url : FileUrl) : Option (List ℕ) := do
  let encodedPath ← stripPrefix url.asStr badPathUriPrefix
  if encodedPath = [] ∨ '/' ∈ encodedPath then none
  else
    let pathBytes ← decodeBase64 encodedPath
    if encodeBase64 pathBytes = encodedPath then some pathBytes else none

def badPathUrl (pathBytes : List ℕ) : FileUrl :=
  ⟨none, ["%00".toList, "bad".toList, "path".toList, encodeBase64 pathBytes]⟩

/-! ## Validation -/

inductive PathUriParseError where
  | invalidFileUriPath (path : Str)
  deriving DecidableEq

def localhost : Str := "localhost".toList

/-- `validate_file_url`: a NUL in the path is for bad-path URIs only. -/
def FileUrl.Valid (url : FileUrl) : Prop :=
  0 ∈ decodeBinary (asBytes url.path) → (decodeBadPathUri url).isSome = true

instance (url : FileUrl) : Decidable url.Valid := inferInstanceAs (Decidable (_ → _))

/-- `set_host(None)` takes the name off and leaves the URL an empty host: its text is that of a
URL without a host, but `host_str` still gives one. -/
def withoutLocalhostAuthority (url : FileUrl) : FileUrl :=
  if url.host = some localhost then { url with host := some [] } else url

@[ext]
structure PathUri where
  url : FileUrl
  host_ne : url.host ≠ some localhost
  deriving DecidableEq

theorem withoutLocalhostAuthority_host (url : FileUrl) :
    (withoutLocalhostAuthority url).host ≠ some localhost := by
  unfold withoutLocalhostAuthority
  split
  · exact fun h => absurd (Option.some.inj h) (by decide)
  · next h => exact h

/-- `PathUri::try_from`. -/
def PathUri.tryFrom (url : FileUrl) : Except PathUriParseError PathUri :=
  if url.Valid then .ok ⟨withoutLocalhostAuthority url, withoutLocalhostAuthority_host url⟩
  else .error (.invalidFileUriPath url.asStr)

/-- A Base64 text always makes a valid bad-path URI, so the error is never met. -/
def PathUri.fromOpaquePathBytes (pathBytes : List ℕ) : Option PathUri :=
  (PathUri.tryFrom (badPathUrl pathBytes)).toOption

def PathUri.opaqueFallbackBytes (uri : PathUri) : Option (List ℕ) := decodeBadPathUri uri.url

/-! ## NUL in a path -/

def slash : ℕ := 0x2F

/-- A path is decoded segment by segment. -/
theorem decodeBinary_segments (before : List ℕ) (segments : List Str) :
    decodeBinary (before ++ asBytes (segments.flatMap ('/' :: ·))) =
      decodeBinary before ++ segments.flatMap fun segment =>
        slash :: decodeBinary (asBytes segment) := by
  induction segments generalizing before with
  | nil => simp [asBytes]
  | cons segment segments ih =>
    rw [flatMap_cons, flatMap_cons, cons_append, asBytes_ascii (by decide),
      asBytes_append]
    refine (decodeBinary_append_cons (by decide) (by decide) before _).trans ?_
    rw [ih]
    rfl

theorem nul_of_zero_mem_path (h : 0 ∈ decodeBinary (asBytes url.path)) :
    ∃ segment ∈ url.segments, nul ∈ decodeNativeSegment segment := by
  have hpath := decodeBinary_segments [] url.segments
  rw [nil_append, show decodeBinary [] = [] from rfl, nil_append] at hpath
  rw [FileUrl.path, hpath, mem_flatMap] at h
  obtain ⟨segment, hmem, h⟩ := h
  refine ⟨segment, hmem, nul_mem_utf8Decode ?_ none nofun⟩
  exact (mem_cons.1 h).resolve_left (by decide)

/-- A bad-path URI has a NUL in its path, whatever its segments: this is what keeps it apart
from the path of a file. -/
theorem zero_mem_path_of_decodeBadPathUri (hhost : ∀ host ∈ url.host, '/' ∉ host)
    (h : decodeBadPathUri url = some pathBytes) : 0 ∈ decodeBinary (asBytes url.path) := by
  obtain ⟨encodedPath, hstrip, -⟩ := Option.bind_eq_some_iff.1 h
  have hstr : url.host.getD [] ++ url.path = badPath ++ encodedPath := by
    have hasStr := stripPrefix_eq_some.1 hstrip
    rw [FileUrl.asStr, badPathUriPrefix_eq, List.append_assoc] at hasStr
    exact append_cancel_left hasStr
  have hpath : url.path = badPath ++ encodedPath := by
    cases hurl : url.host with
    | none => simpa [hurl] using hstr
    | some host =>
      rw [hurl] at hstr
      cases host with
      | nil => exact hstr
      | cons c host =>
        have hc : c = '/' := (List.cons.inj hstr).1
        exact absurd (hc ▸ mem_cons_self) (hhost _ hurl)
  have hbytes : asBytes (badPath ++ encodedPath) =
      slash :: percent :: 0x30 :: 0x30 :: slash :: (asBytes ("bad/path/".toList ++ encodedPath)) := by
    rw [asBytes_append]
    rfl
  rw [hpath, hbytes]
  simp [decodeBinary, unescape, fromHexDigit, slash, percent]

theorem nul_of_decodeBadPathUri (hhost : ∀ host ∈ url.host, '/' ∉ host)
    (h : decodeBadPathUri url = some pathBytes) :
    ∃ segment ∈ url.segments, nul ∈ decodeNativeSegment segment :=
  nul_of_zero_mem_path (zero_mem_path_of_decodeBadPathUri hhost h)

theorem decodeBadPathUri_badPathUrl (hne : pathBytes ≠ []) (hlt : ∀ byte ∈ pathBytes, byte < 256) :
    decodeBadPathUri (badPathUrl pathBytes) = some pathBytes := by
  have hstr : (badPathUrl pathBytes).asStr = badPathUriPrefix ++ encodeBase64 pathBytes := by
    have hpath : (badPathUrl pathBytes).path = badPath ++ encodeBase64 pathBytes := by
      unfold badPathUrl FileUrl.path badPath
      generalize encodeBase64 pathBytes = encodedPath
      simp
    rw [badPathUriPrefix_eq, FileUrl.asStr, hpath, List.append_assoc]
    rfl
  unfold decodeBadPathUri
  rw [hstr, stripPrefix_append]
  simp [encodeBase64_ne_nil hne, slash_notMem_encodeBase64, decodeBase64_encodeBase64 hlt]

/-- Every path has an opaque form, and its bytes are in it. -/
theorem fromOpaquePathBytes_eq (hne : pathBytes ≠ []) (hlt : ∀ byte ∈ pathBytes, byte < 256) :
    ∃ uri, PathUri.fromOpaquePathBytes pathBytes = some uri ∧
      uri.opaqueFallbackBytes = some pathBytes := by
  have hbad := decodeBadPathUri_badPathUrl hne hlt
  have hvalid : (badPathUrl pathBytes).Valid := fun _ => by rw [hbad]; rfl
  refine ⟨⟨badPathUrl pathBytes, nofun⟩, ?_, hbad⟩
  unfold PathUri.fromOpaquePathBytes PathUri.tryFrom
  rw [if_pos hvalid]
  rfl

/-- A URL whose segments have no NUL is valid. -/
theorem tryFrom_eq (h : ∀ segment ∈ url.segments, nul ∉ decodeNativeSegment segment) :
    PathUri.tryFrom url =
      .ok ⟨withoutLocalhostAuthority url, withoutLocalhostAuthority_host url⟩ := by
  refine if_pos fun hzero => ?_
  obtain ⟨segment, hmem, hnul⟩ := nul_of_zero_mem_path hzero
  exact absurd hnul (h segment hmem)

end Codex.NativePath
