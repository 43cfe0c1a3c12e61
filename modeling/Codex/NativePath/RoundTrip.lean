import Codex.NativePath.Render

/-!
# Native paths through URIs

Which native paths come back from their URI. Every POSIX path, every drive path and every
opaque rooted path does. A UNC path does when a share is left after `.` and `..` are
resolved, unless its host is `localhost`: the URI then loses the name of the host after
the parser has chosen the UNC form, and is rendered as a UNC path of an empty host.
-/

namespace Codex.NativePath

open List Codex.Text

/-! ## Segments of a URI -/

/-- The segments that a path of these segments has: an empty path has one empty segment. -/
def shown (segments : List Str) : List Str := if segments = [] then [[]] else segments

theorem shown_ne_nil (segments : List Str) : shown segments ≠ [] := by
  unfold shown
  split
  · exact nofun
  · next h => exact h

variable {segments : List Str}

theorem mem_shown {segment : Str} (h : segment ∈ shown segments) :
    segment = [] ∨ segment ∈ segments := by
  unfold shown at h
  split at h
  · exact Or.inl (mem_singleton.1 h)
  · exact Or.inr h

theorem shown_cons (segment : Str) (segments : List Str) :
    shown (segment :: segments) = segment :: segments := if_neg nofun

theorem mem_normalizeSegments {convention : PathConvention} {host : Option Str} {segment : Str}
    (h : segment ∈ normalizeSegments convention host segments) :
    segment = [] ∨ segment ∈ segments := by
  have hkept := walk_kept convention.anchorDepth segments
  unfold normalizeSegments at h
  dsimp only at h
  split at h
  · rcases mem_append.1 h with h | h
    · exact Or.inr (hkept.mem segment h)
    · exact Or.inl (mem_singleton.1 h)
  · exact Or.inr (hkept.mem segment h)

/-- What holds of every character of the segments holds of those that are kept. -/
theorem normalized_free (convention : PathConvention) (host : Option Str) {P : Char → Prop}
    (h : ∀ segment ∈ segments, ∀ c ∈ segment, P c) :
    ∀ segment ∈ normalizeSegments convention host segments, ∀ c ∈ segment, P c := by
  intro segment hmem c hc
  rcases mem_normalizeSegments hmem with rfl | hmem
  · cases hc
  · exact h segment hmem c hc

theorem shown_free {P : Char → Prop} (h : ∀ segment ∈ segments, ∀ c ∈ segment, P c) :
    ∀ segment ∈ shown segments, ∀ c ∈ segment, P c := by
  intro segment hmem c hc
  rcases mem_shown hmem with rfl | hmem
  · cases hc
  · exact h segment hmem c hc

theorem nul_notMem_normalizeSegments {convention : PathConvention} {host : Option Str}
    (hnul : ∀ segment ∈ segments, nul ∉ segment) :
    ∀ segment ∈ normalizeSegments convention host segments, nul ∉ segment := by
  intro segment hmem
  rcases mem_normalizeSegments hmem with rfl | hmem
  · exact nofun
  · exact hnul segment hmem

theorem nul_notMem_join {sep : Char} (hsep : nul ≠ sep) {first : Str} {parts : List Str}
    (h : ∀ part ∈ first :: parts, nul ∉ part) : nul ∉ first ++ parts.flatMap (sep :: ·) := by
  rw [mem_append, mem_flatMap, not_or]
  refine ⟨h first mem_cons_self, ?_⟩
  rintro ⟨part, hpart, hmem⟩
  exact h part (mem_cons_of_mem _ hpart) ((mem_cons.1 hmem).resolve_left hsep)

theorem setSegments_cons (crate : UrlCrate) (segment : Str) (segments : List Str) :
    crate.setSegments (segment :: segments) =
      crate.encodeSegment segment :: segments.map crate.encodeSegment := if_neg nofun

section Documented

variable {crate : UrlCrate} (hdoc : crate.Documented)
include hdoc

theorem setSegments_eq (segments : List Str) :
    crate.setSegments segments = (shown segments).map crate.encodeSegment := by
  unfold UrlCrate.setSegments shown
  split
  · rw [map_cons, hdoc.encodeSegment_nil, map_nil]
  · rfl

theorem map_decode_setSegments (segments : List Str) :
    (crate.setSegments segments).map decodeNativeSegment = shown segments := by
  rw [setSegments_eq hdoc, map_map]
  exact (map_congr_left fun s _ => hdoc.decode_encodeSegment s).trans (map_id _)

theorem flatMap_decode_setSegments (c : Char) (segments : List Str) :
    ((crate.setSegments segments).flatMap fun segment => c :: decodeNativeSegment segment) =
      (shown segments).flatMap (c :: ·) := by
  rw [← map_decode_setSegments hdoc, flatMap_map]

variable {segments tail components : List Str} {host name rest path drive share : Str}
  {uri : PathUri}

theorem nul_notMem_setSegments (h : ∀ segment ∈ segments, nul ∉ segment) :
    ∀ segment ∈ crate.setSegments segments, nul ∉ decodeNativeSegment segment := by
  intro segment hmem
  have hshown : decodeNativeSegment segment ∈ shown segments := by
    rw [← map_decode_setSegments hdoc]
    exact mem_map_of_mem hmem
  rcases mem_shown hshown with hnil | hmem
  · rw [hnil]
    exact nofun
  · exact h _ hmem

theorem pathUriFromSegments_none (convention : PathConvention)
    (hnul : ∀ segment ∈ segments, nul ∉ segment) :
    ∃ uri, pathUriFromSegments crate convention none segments = some uri ∧
      uri.url = ⟨none, crate.setSegments (normalizeSegments convention none segments)⟩ := by
  refine ⟨⟨⟨none, _⟩, nofun⟩, ?_, rfl⟩
  simp only [pathUriFromSegments, Option.bind_eq_bind, Option.bind_some]
  rw [tryFrom_eq (nul_notMem_setSegments hdoc (nul_notMem_normalizeSegments hnul))]
  rfl

theorem pathUriFromSegments_host (convention : PathConvention)
    (hhost : crate.setHost name = some host) (hnul : ∀ segment ∈ segments, nul ∉ segment) :
    ∃ uri, pathUriFromSegments crate convention (some name) segments = some uri ∧
      uri.url = withoutLocalhostAuthority
        ⟨some host, crate.setSegments (normalizeSegments convention (some name) segments)⟩ := by
  refine ⟨⟨_, withoutLocalhostAuthority_host _⟩, ?_, rfl⟩
  simp only [pathUriFromSegments, hhost, Option.map_some, Option.bind_eq_bind, Option.bind_some]
  rw [tryFrom_eq (nul_notMem_setSegments hdoc (nul_notMem_normalizeSegments hnul))]
  rfl

/-- A URI that was made of segments is not opaque. -/
theorem opaqueFallbackBytes_eq_none (hsegments : uri.url.segments = crate.setSegments segments)
    (hnul : ∀ segment ∈ segments, nul ∉ segment) (hhost : ∀ host ∈ uri.url.host, '/' ∉ host) :
    uri.opaqueFallbackBytes = none := by
  cases hbytes : uri.opaqueFallbackBytes with
  | none => rfl
  | some pathBytes =>
    obtain ⟨segment, hmem, hbad⟩ := nul_of_decodeBadPathUri hhost hbytes
    rw [hsegments] at hmem
    exact absurd hbad (nul_notMem_setSegments hdoc hnul segment hmem)

/-! ## POSIX -/

omit hdoc in
theorem roundTrips_opaquePosix (hparse : parsePosixPath crate ('/' :: rest) = some uri)
    (huri : PathUri.fromOpaquePathBytes (asBytes ('/' :: rest)) = some uri) :
    RoundTrips crate .posix uri := by
  have hbytes : asBytes ('/' :: rest) = slash :: asBytes rest := asBytes_ascii (by decide) rest
  have hne : asBytes ('/' :: rest) ≠ [] := by
    rw [hbytes]
    exact nofun
  obtain ⟨opaqueUri, hopaqueUri, hfallback⟩ := fromOpaquePathBytes_eq hne (asBytes_lt _)
  rw [hopaqueUri] at huri
  cases huri
  refine ⟨'/' :: rest, _, ?_, toPathUri_eq_ok.2 hparse, rfl⟩
  rw [fromPathUri_of_some hfallback]
  simp only [renderOpaqueFallback, fromUtf8Lossy_asBytes]
  rw [hbytes]
  rfl

omit hdoc in
theorem shown_normalizeSegments_posix (segments : List Str) :
    shown (normalizeSegments .posix none (shown (normalizeSegments .posix none segments))) =
      shown (normalizeSegments .posix none segments) := by
  by_cases hnil : normalizeSegments .posix none segments = []
  · rw [hnil]
    rfl
  · have hshown : shown (normalizeSegments .posix none segments) =
        normalizeSegments .posix none segments := if_neg hnil
    rw [hshown, normalizeSegments_idem .posix none none rfl, hshown]

/-- **Every POSIX path comes back.** -/
theorem roundTrips_posix (h : parsePosixPath crate path = some uri) :
    RoundTrips crate .posix uri := by
  obtain ⟨rest, hstrip, hparse⟩ := Option.bind_eq_some_iff.1 h
  have hpath : path = '/' :: rest := stripPrefix_eq_some.1 hstrip
  subst hpath
  split at hparse
  · exact roundTrips_opaquePosix h hparse
  next hnul =>
  have hsplit : ∀ segment ∈ rest.splitOn '/', ∀ c ∈ segment, c ∈ rest ∧ (c == '/') = false := by
    rw [splitOn_eq_splitOnP]
    exact mem_splitOnP
  generalize rest.splitOn '/' = segments at hparse hsplit
  have hfree : ∀ segment ∈ segments, nul ∉ segment :=
    fun segment hmem hc => hnul (hsplit segment hmem nul hc).1
  obtain ⟨_, hfrom, hurl⟩ := pathUriFromSegments_none hdoc .posix hfree
  rw [hfrom] at hparse
  cases hparse
  have hopaqueUri : uri.opaqueFallbackBytes = none :=
    opaqueFallbackBytes_eq_none hdoc (by rw [hurl]) (nul_notMem_normalizeSegments hfree)
      (by rw [hurl]; exact nofun)
  -- the text that is rendered, and the segments it is cut into
  obtain ⟨first, parts, hshown⟩ :=
    exists_cons_of_ne_nil (shown_ne_nil (normalizeSegments .posix none segments))
  have hcomponent := shown_free (normalized_free .posix none hsplit)
  have hidem := shown_normalizeSegments_posix segments
  rw [hshown] at hcomponent hidem
  have hcut : (first ++ parts.flatMap ('/' :: ·)).splitOn '/' = first :: parts := by
    rw [splitOn_eq_splitOnP]
    exact splitOnP_join rfl fun segment hmem c hc => (hcomponent segment hmem c hc).2
  have hrendered : fromPathUri uri .posix = .ok ('/' :: (first ++ parts.flatMap ('/' :: ·))) := by
    rw [fromPathUri_posix hopaqueUri, renderPosixPath, hurl, flatMap_decode_setSegments hdoc, hshown]
    rfl
  refine ⟨_, uri, hrendered, toPathUri_eq_ok.2 ?_, rfl⟩
  have hagain : ∀ segment ∈ first :: parts, nul ∉ segment :=
    fun segment hmem hc => hnul (hcomponent segment hmem nul hc).1
  have hfree' : nul ∉ first ++ parts.flatMap ('/' :: ·) := nul_notMem_join (by decide) hagain
  obtain ⟨_, hfrom', hurl'⟩ := pathUriFromSegments_none hdoc .posix hagain
  simp only [PathUri.fromAbsoluteNativePath, parsePosixPath, stripPrefix, if_true,
    Option.bind_eq_bind, Option.bind_some, if_neg hfree', hcut, hfrom']
  rw [Option.some.injEq]
  apply PathUri.ext
  rw [hurl', hurl, setSegments_eq hdoc, setSegments_eq hdoc, hidem, hshown]

/-! ## Opaque Windows paths -/

omit hdoc in
theorem windowsOpaquePathUri_eq (hne : path ≠ []) : ∃ uri, windowsOpaquePathUri path = some uri ∧
      uri.opaqueFallbackBytes = some ((encodeUtf16 path).flatMap toLeBytes) := by
  refine fromOpaquePathBytes_eq (fun h => ?_) (windowsOpaqueBytes_lt path)
  have hback := fromLeBytes_toLeBytes (encodeUtf16 path)
  rw [h] at hback
  have hpath := fromUtf16Lossy_encodeUtf16 path
  rw [← hback] at hpath
  exact hne hpath.symm

omit hdoc in
/-- An opaque path comes back exactly when it is rooted. -/
theorem roundTrips_opaqueWindows_iff (hne : path ≠ [])
    (hparse : parseWindowsPath crate path = some uri)
    (huri : windowsOpaquePathUri path = some uri) :
    RoundTrips crate .windows uri ↔ hasDriveRoot path = true ∨ hasUncRoot path = true := by
  obtain ⟨_, hopaqueUri, hbytes⟩ := windowsOpaquePathUri_eq hne
  rw [hopaqueUri] at huri
  cases huri
  have hrendered := fromPathUri_of_some hbytes .windows
  simp only [renderOpaqueFallback, renderWindowsOpaqueFallback_eq] at hrendered
  rw [← Bool.or_eq_true]
  cases hroot : hasDriveRoot path || hasUncRoot path with
  | true =>
    rw [hroot] at hrendered
    exact iff_of_true ⟨path, _, hrendered, toPathUri_eq_ok.2 hparse, rfl⟩ rfl
  | false =>
    rw [hroot] at hrendered
    exact iff_of_false (not_roundTrips_of_error hrendered) Bool.false_ne_true

/-! ## Drives -/

omit hdoc in
theorem isWindowsDrive_iff : isWindowsDrive drive = true ↔
    ∃ letter, isAsciiAlphabetic letter = true ∧ drive = [letter, ':'] := by
  constructor
  · intro h
    match drive, h with
    | [letter, colon], h =>
      simp only [isWindowsDrive, Bool.and_eq_true, beq_iff_eq] at h
      exact ⟨letter, h.1, by rw [h.2]⟩
  · rintro ⟨letter, hletter, rfl⟩
    simp [isWindowsDrive, hletter]

omit hdoc in
theorem isWindowsSeparator_alphabetic {letter : Char} (h : isAsciiAlphabetic letter = true) :
    isWindowsSeparator letter = false := by
  rw [← isWideAlphabetic_toNat] at h
  rw [← isWideSeparator_toNat]
  simp only [isWideAlphabetic, Bool.or_eq_true, Bool.and_eq_true, decide_eq_true_eq] at h
  simp only [isWideSeparator, Bool.or_eq_false_iff, beq_eq_false_iff_ne]
  omega

omit hdoc in
/-- A drive that something follows is closed. -/
theorem closeDriveRoot_drive (hdrive : isWindowsDrive drive = true) (htail : tail ≠ []) :
    closeDriveRoot (drive ++ tail.flatMap ('\\' :: ·)) =
      drive ++ tail.flatMap ('\\' :: ·) := by
  obtain ⟨letter, -, rfl⟩ := isWindowsDrive_iff.1 hdrive
  obtain ⟨part, tail, rfl⟩ := exists_cons_of_ne_nil htail
  rfl

omit hdoc in
theorem hasDriveRoot_iff : hasDriveRoot path = true ↔
    ∃ letter sep rest, path = letter :: ':' :: sep :: rest ∧ isAsciiAlphabetic letter = true ∧
      isWindowsSeparator sep = true := by
  constructor
  · intro h
    match path, h with
    | letter :: colon :: sep :: rest, h =>
      simp only [hasDriveRoot, Bool.and_eq_true, beq_iff_eq] at h
      exact ⟨letter, sep, rest, by rw [h.1.2], h.1.1, h.2⟩
  · rintro ⟨letter, sep, rest, rfl, hletter, hsep⟩
    simp [hasDriveRoot, hletter, hsep]

omit hdoc in
theorem usesNamespace_drive {letter : Char} (h : isAsciiAlphabetic letter = true) (rest : Str) :
    usesNamespace (letter :: rest) = false := by
  match rest with
  | [] => rfl
  | [_] => rfl
  | [_, _] => rfl
  | _ :: _ :: _ :: _ =>
    simp only [usesNamespace, isWindowsSeparator_alphabetic h, Bool.false_and]

/-- The text of a drive and the components below it is parsed to these. -/
theorem parseWindowsPath_drive {parts : List Str} (hdrive : isWindowsDrive drive = true)
    (hparts : parts ≠ [])
    (hfree : ∀ part ∈ parts, ∀ c ∈ part, c ≠ nul ∧ isWindowsSeparator c = false) :
    ∃ uri, parseWindowsPath crate (drive ++ parts.flatMap ('\\' :: ·)) = some uri ∧
      uri.url = ⟨none, crate.setSegments (normalizeSegments .windows none (drive :: parts))⟩ := by
  obtain ⟨letter, hletter, rfl⟩ := isWindowsDrive_iff.1 hdrive
  obtain ⟨first, parts, rfl⟩ := exists_cons_of_ne_nil hparts
  have hnul : ∀ part ∈ first :: parts, nul ∉ part :=
    fun part hmem hc => (hfree part hmem nul hc).1 rfl
  have hdriveFree : nul ∉ [letter, ':'] := by
    intro hmem
    rcases mem_cons.1 hmem with h | h
    · rw [← h] at hletter
      exact absurd hletter (by decide)
    · exact absurd h (by decide)
  have htext : nul ∉ [letter, ':'] ++ (first :: parts).flatMap ('\\' :: ·) :=
    nul_notMem_join (by decide) (forall_mem_cons.2 ⟨hdriveFree, hnul⟩)
  have hroot : hasDriveRoot ([letter, ':'] ++ (first :: parts).flatMap ('\\' :: ·)) = true :=
    hasDriveRoot_iff.2 ⟨letter, '\\', _, rfl, hletter, rfl⟩
  have hcut : (first ++ parts.flatMap ('\\' :: ·)).splitOnP isWindowsSeparator = first :: parts :=
    splitOnP_join rfl fun part hmem c hc => (hfree part hmem c hc).2
  obtain ⟨uri, hfrom, hurl⟩ :=
    pathUriFromSegments_none hdoc .windows (forall_mem_cons.2 ⟨hdriveFree, hnul⟩)
  refine ⟨uri, ?_, hurl⟩
  unfold parseWindowsPath
  rw [if_neg, if_pos hroot]
  · show pathUriFromSegments crate .windows none ([letter, ':'] ::
      (first ++ parts.flatMap ('\\' :: ·)).splitOnP isWindowsSeparator) = some uri
    rw [hcut, hfrom]
  · rw [cons_append, usesNamespace_drive hletter, Bool.false_or, decide_eq_true_eq]
    exact htext

/-- **A URI of a drive and something below it comes back.** -/
theorem roundTrips_drive (hurl : uri.url = ⟨none, crate.setSegments (drive :: tail)⟩)
    (hdrive : isWindowsDrive drive = true) (htail : tail ≠ [])
    (hfree : ∀ part ∈ drive :: tail, ∀ c ∈ part, c ≠ nul ∧ isWindowsSeparator c = false)
    (hidem : normalizeSegments .windows none (drive :: tail) = drive :: tail) :
    RoundTrips crate .windows uri := by
  have hnul : ∀ part ∈ drive :: tail, nul ∉ part :=
    fun part hmem hc => (hfree part hmem nul hc).1 rfl
  have hopaqueUri : uri.opaqueFallbackBytes = none :=
    opaqueFallbackBytes_eq_none hdoc (by rw [hurl]) hnul (by rw [hurl]; exact nofun)
  have hrendered : fromPathUri uri .windows = .ok (drive ++ tail.flatMap ('\\' :: ·)) := by
    rw [← closeDriveRoot_drive hdrive htail, fromPathUri_windows hopaqueUri]
    simp only [renderWindowsPath, hurl, setSegments_cons,
      hdoc.decode_encodeSegment, hdrive, if_true, flatMap_map]
  obtain ⟨uri', hparse, hurl'⟩ :=
    parseWindowsPath_drive hdoc hdrive htail (forall_mem_cons.1 hfree).2
  have hsame : uri' = uri := by
    apply PathUri.ext
    rw [hurl', hurl, hidem]
  exact ⟨_, uri', hrendered, toPathUri_eq_ok.2 hparse, congrArg PathUri.toStr hsame⟩

/-! ## UNC paths -/

omit hdoc in
theorem hasUncRoot_iff : hasUncRoot path = true ↔
    ∃ first second rest, path = first :: second :: rest ∧ isWindowsSeparator first = true ∧
      isWindowsSeparator second = true := by
  constructor
  · intro h
    match path, h with
    | first :: second :: rest, h =>
      simp only [hasUncRoot, Bool.and_eq_true] at h
      exact ⟨first, second, rest, rfl, h.1, h.2⟩
  · rintro ⟨first, second, rest, rfl, hfirst, hsecond⟩
    simp [hasUncRoot, hfirst, hsecond]

omit hdoc in
theorem hasDriveRoot_of_hasUncRoot (h : hasUncRoot path = true) : hasDriveRoot path = false := by
  obtain ⟨first, second, rest, rfl, hfirst, -⟩ := hasUncRoot_iff.1 h
  refine Bool.eq_false_iff.2 fun hdrive => ?_
  obtain ⟨letter, _, _, heq, hletter, -⟩ := hasDriveRoot_iff.1 hdrive
  rw [(List.cons.inj heq).1, isWindowsSeparator_alphabetic hletter] at hfirst
  cases hfirst

/-- The host of a UNC path and the components after it. -/
def uncComponents (path : Str) : Option (Str × List Str) :=
  if usesNamespace path || decide (nul ∈ path) || !hasUncRoot path then none
  else
    match (path.drop 2).splitOnP isWindowsSeparator with
    | name :: components => some (name, components)
    | [] => none

omit hdoc in
theorem uncComponents_eq_some : uncComponents path = some (name, components) ↔
      (usesNamespace path || decide (nul ∈ path)) = false ∧ hasUncRoot path = true ∧
        (path.drop 2).splitOnP isWindowsSeparator = name :: components := by
  unfold uncComponents
  cases usesNamespace path || decide (nul ∈ path) with
  | true => simp
  | false =>
    cases hasUncRoot path with
    | false => simp
    | true =>
      obtain ⟨first, rest, hsplit⟩ :=
        exists_cons_of_ne_nil (splitOnP_ne_nil isWindowsSeparator (path.drop 2))
      simp [hsplit]

omit hdoc in
theorem parseWindowsPath_unc (h : uncComponents path = some (name, share :: components))
    (hname : name ≠ []) (hshare : share ≠ []) : parseWindowsPath crate path =
      (pathUriFromSegments crate .windows (some name) (share :: components)).or
        (windowsOpaquePathUri path) := by
  obtain ⟨hplain, hroot, hsplit⟩ := uncComponents_eq_some.1 h
  unfold parseWindowsPath
  simp only [hplain, hasDriveRoot_of_hasUncRoot hroot, hroot, hsplit, hname, hshare, if_true]
  simp

omit hdoc in
/-- The forms of a Windows path. -/
theorem parseWindowsPath_cases (h : parseWindowsPath crate path = some uri) :
    ((usesNamespace path || decide (nul ∈ path)) = true ∧ windowsOpaquePathUri path = some uri) ∨
    ((usesNamespace path || decide (nul ∈ path)) = false ∧ hasDriveRoot path = true ∧
      pathUriFromSegments crate .windows none
        (path.take 2 :: (path.drop 3).splitOnP isWindowsSeparator) = some uri) ∨
    ∃ name share components, uncComponents path = some (name, share :: components) ∧ name ≠ [] ∧
      share ≠ [] := by
  unfold parseWindowsPath at h
  split at h
  · next hplain => exact Or.inl ⟨hplain, h⟩
  next hplain =>
  have hplain := Bool.eq_false_iff.2 hplain
  split at h
  · next hdrive => exact Or.inr (Or.inl ⟨hplain, hdrive, h⟩)
  split at h
  · next hroot =>
    split at h
    · next name share components hsplit =>
      split at h
      · cases h
      · next hne =>
        rw [Bool.or_eq_true, decide_eq_true_eq, decide_eq_true_eq, not_or] at hne
        exact Or.inr (Or.inr ⟨name, share, components,
          uncComponents_eq_some.2 ⟨hplain, hroot, hsplit⟩, hne.1, hne.2⟩)
    · cases h
  · cases h

omit hdoc in
theorem asciiLower_eq_iff_of_not_alphabetic {c d : Char} (hd : isAsciiAlphabetic d = false) :
    asciiLower c = d ↔ c = d := by
  rw [← isWideAlphabetic_toNat] at hd
  simp only [isWideAlphabetic, Bool.or_eq_false_iff, Bool.and_eq_false_iff,
    decide_eq_false_iff_not] at hd
  rcases asciiLower_cases c with ⟨h, -⟩ | ⟨_, _, h⟩
  · rw [h]
  · -- the lower case of a letter is a letter
    constructor
    · rintro rfl
      omega
    · rintro rfl
      omega

omit hdoc in
theorem mem_of_letterCase (h : toAsciiLowercase host = toAsciiLowercase name) {c : Char}
    (hc : isAsciiAlphabetic c = false) (hmem : c ∈ host) : c ∈ name := by
  have hlower : c ∈ toAsciiLowercase name := by
    rw [← h, toAsciiLowercase, mem_map]
    exact ⟨c, hmem, (asciiLower_eq_iff_of_not_alphabetic hc).2 rfl⟩
  obtain ⟨d, hd, heq⟩ := mem_map.1 hlower
  rwa [← (asciiLower_eq_iff_of_not_alphabetic hc).1 heq]

/-- A name that can stand for a host: not empty, free of NUL and separators, and not the device
namespace `.` or the verbatim namespace `?`. -/
structure HostName (name : Str) : Prop where
  ne_nil : name ≠ []
  free : ∀ c ∈ name, c ≠ nul ∧ isWindowsSeparator c = false
  ne_dot : name ≠ ['.']
  ne_mark : name ≠ ['?']

omit hdoc in
theorem HostName.letterCase (h : HostName name)
    (hcase : toAsciiLowercase host = toAsciiLowercase name) : HostName host := by
  have hlength : host.length = name.length := by
    have hlength := congrArg List.length hcase
    rwa [toAsciiLowercase, toAsciiLowercase, length_map, length_map] at hlength
  have hone : ∀ c, isAsciiAlphabetic c = false → host = [c] → name = [c] := by
    rintro c hc rfl
    obtain ⟨d, rfl⟩ := length_eq_one_iff.1 hlength.symm
    have hmem := mem_of_letterCase hcase hc mem_cons_self
    rw [mem_singleton.1 hmem]
  refine ⟨?_, ?_, ?_, ?_⟩
  · rintro rfl
    exact h.ne_nil (length_eq_zero_iff.1 hlength.symm)
  · intro c hmem
    by_cases hc : isAsciiAlphabetic c = true
    · refine ⟨?_, isWindowsSeparator_alphabetic hc⟩
      rintro rfl
      exact absurd hc (by decide)
    · exact h.free c (mem_of_letterCase hcase (Bool.eq_false_iff.2 hc) hmem)
  · exact fun heq => h.ne_dot (hone '.' (by decide) heq)
  · exact fun heq => h.ne_mark (hone '?' (by decide) heq)

omit hdoc in
theorem usesNamespace_unc {first second sep : Char} (hname : name ≠ [])
    (hfirst : isWindowsSeparator first = true) (hsecond : isWindowsSeparator second = true)
    (hsep : isWindowsSeparator sep = true) (hfree : ∀ c ∈ name, isWindowsSeparator c = false) :
    usesNamespace (first :: second :: (name ++ sep :: rest)) = false ↔
      name ≠ ['.'] ∧ name ≠ ['?'] := by
  match name, hname with
  | [c], _ => simp [usesNamespace, hfirst, hsecond, hsep]
  | c :: d :: name, _ =>
    have hd : isWindowsSeparator d = false := hfree d (by simp)
    simp [usesNamespace, hd]

omit hdoc in
/-- What is known of the host and the components of a UNC path. -/
theorem hostName_of_uncComponents (h : uncComponents path = some (name, share :: components))
    (hname : name ≠ []) :
    HostName name ∧ ∀ part ∈ share :: components, ∀ c ∈ part, c ≠ nul ∧ isWindowsSeparator c = false := by
  obtain ⟨hplain, hroot, hsplit⟩ := uncComponents_eq_some.1 h
  obtain ⟨first, second, rest, rfl, hfirst, hsecond⟩ := hasUncRoot_iff.1 hroot
  rw [Bool.or_eq_false_iff, decide_eq_false_iff_not] at hplain
  have hfree : ∀ part ∈ name :: share :: components, ∀ c ∈ part,
      c ≠ nul ∧ isWindowsSeparator c = false := by
    intro part hpart c hc
    rw [← hsplit] at hpart
    obtain ⟨hmem, hsep⟩ := mem_splitOnP part hpart c hc
    refine ⟨?_, hsep⟩
    rintro rfl
    exact hplain.2 (mem_cons_of_mem _ (mem_cons_of_mem _ hmem))
  obtain ⟨sep, tail, htail, hsep⟩ := splitOnP_eq_cons_cons hsplit
  have hrest : rest = name ++ sep :: tail := htail
  have hnamespace := hplain.1
  rw [hrest, usesNamespace_unc hname hfirst hsecond hsep
    fun c hc => (hfree name mem_cons_self c hc).2] at hnamespace
  exact ⟨⟨hname, hfree name mem_cons_self, hnamespace.1, hnamespace.2⟩,
    fun part hpart => hfree part (mem_cons_of_mem _ hpart)⟩

omit hdoc in
/-- The text of a host and components below it is cut into these. -/
theorem uncComponents_text {parts : List Str} (hhost : HostName host) (hparts : parts ≠ [])
    (hfree : ∀ part ∈ parts, ∀ c ∈ part, c ≠ nul ∧ isWindowsSeparator c = false) :
    uncComponents ('\\' :: '\\' :: (host ++ parts.flatMap ('\\' :: ·))) = some (host, parts) := by
  have hcut : (host ++ parts.flatMap ('\\' :: ·)).splitOnP isWindowsSeparator = host :: parts := by
    refine splitOnP_join rfl (forall_mem_cons.2 ⟨fun c hc => (hhost.free c hc).2, ?_⟩)
    exact fun part hmem c hc => (hfree part hmem c hc).2
  have hnul : nul ∉ host ++ parts.flatMap ('\\' :: ·) := by
    refine nul_notMem_join (by decide) (forall_mem_cons.2 ⟨fun hc => ?_, ?_⟩)
    · exact (hhost.free nul hc).1 rfl
    · exact fun part hmem hc => (hfree part hmem nul hc).1 rfl
  have hplain : usesNamespace ('\\' :: '\\' :: (host ++ parts.flatMap ('\\' :: ·))) = false := by
    obtain ⟨part, parts, rfl⟩ := exists_cons_of_ne_nil hparts
    exact (usesNamespace_unc hhost.ne_nil rfl rfl rfl fun c hc => (hhost.free c hc).2).2
      ⟨hhost.ne_dot, hhost.ne_mark⟩
  refine uncComponents_eq_some.2 ⟨?_, rfl, hcut⟩
  rw [hplain, Bool.false_or, decide_eq_false_iff_not, mem_cons, mem_cons, not_or, not_or]
  exact ⟨by decide, by decide, hnul⟩

theorem renderWindowsPath_host (hurl : uri.url = ⟨some host, crate.setSegments segments⟩)
    (hshown : shown segments = share :: tail) : renderWindowsPath uri =
      if share = [] then .error (incompatibleConvention uri .windows)
      else .ok ('\\' :: '\\' :: (host ++ (share :: tail).flatMap ('\\' :: ·))) := by
  simp only [renderWindowsPath, hurl, setSegments_eq hdoc, hshown, map_cons,
    hdoc.decode_encodeSegment, flatMap_map]
  cases host <;> rfl

/-- **A URI with a host comes back exactly when it has a share.** -/
theorem roundTrips_host_iff (hhost : HostName host) (hset : crate.setHost host = some host)
    (hurl : uri.url = ⟨some host, crate.setSegments segments⟩)
    (hfree : ∀ part ∈ segments, ∀ c ∈ part, c ≠ nul ∧ isWindowsSeparator c = false)
    (hidem : normalizeSegments .windows (some host) segments = segments) :
    RoundTrips crate .windows uri ↔ ∃ share tail, segments = share :: tail ∧ share ≠ [] := by
  have hnul : ∀ part ∈ segments, nul ∉ part :=
    fun part hmem hc => (hfree part hmem nul hc).1 rfl
  have hopaqueUri : uri.opaqueFallbackBytes = none := by
    refine opaqueFallbackBytes_eq_none hdoc (by rw [hurl]) hnul ?_
    rw [hurl]
    rintro _ ⟨⟩
    exact fun hc => absurd (hhost.free _ hc).2 (by decide)
  have hlocal : host ≠ localhost := fun h => uri.host_ne (by rw [hurl, h])
  obtain ⟨share, tail, hshown⟩ := exists_cons_of_ne_nil (shown_ne_nil segments)
  have hrendered := (fromPathUri_windows hopaqueUri).trans (renderWindowsPath_host hdoc hurl hshown)
  by_cases hshare : share = []
  · -- without a share there is no text
    rw [if_pos hshare] at hrendered
    refine iff_of_false (not_roundTrips_of_error hrendered) ?_
    rintro ⟨share', tail', rfl, hne⟩
    rw [shown_cons] at hshown
    exact hne ((List.cons.inj hshown).1.trans hshare)
  · rw [if_neg hshare] at hrendered
    obtain rfl : segments = share :: tail := by
      unfold shown at hshown
      split at hshown
      · exact absurd (List.cons.inj hshown).1.symm hshare
      · exact hshown
    refine iff_of_true ⟨_, uri, hrendered, toPathUri_eq_ok.2 ?_, rfl⟩ ⟨share, tail, rfl, hshare⟩
    have hcut := uncComponents_text hhost (cons_ne_nil share tail) hfree
    obtain ⟨uri', hfrom, hurl'⟩ := pathUriFromSegments_host hdoc .windows hset hnul
    refine (parseWindowsPath_unc hcut hhost.ne_nil hshare).trans ?_
    rw [hfrom, Option.some_or, Option.some.injEq]
    apply PathUri.ext
    rw [hurl', hurl, hidem, withoutLocalhostAuthority, if_neg]
    exact fun h => hlocal (Option.some.inj h)

omit hdoc in
/-- A UNC path of an empty host is not read. -/
theorem parseWindowsPath_emptyHost (hnul : nul ∉ rest) :
    parseWindowsPath crate ('\\' :: '\\' :: '\\' :: rest) = none := by
  have hnamespace : usesNamespace ('\\' :: '\\' :: '\\' :: rest) = false := by
    cases rest with
    | nil => rfl
    | cons c rest => simp [usesNamespace]
  have hplain : (usesNamespace ('\\' :: '\\' :: '\\' :: rest) ||
      decide (nul ∈ '\\' :: '\\' :: '\\' :: rest)) = false := by
    rw [hnamespace, Bool.false_or, decide_eq_false_iff_not]
    simp only [mem_cons, not_or]
    exact ⟨by decide, by decide, by decide, hnul⟩
  have hsplit : ('\\' :: rest).splitOnP isWindowsSeparator =
      [] :: rest.splitOnP isWindowsSeparator :=
    splitOnP_append_cons_of_forall_mem (forall_mem_nil _) '\\' rfl rest
  have hroot : hasUncRoot ('\\' :: '\\' :: '\\' :: rest) = true := rfl
  unfold parseWindowsPath
  rw [if_neg (Bool.eq_false_iff.1 hplain), if_neg (by simp [hasDriveRoot]), if_pos hroot]
  simp only [drop_succ_cons, drop_zero, hsplit]
  cases rest.splitOnP isWindowsSeparator <;> rfl

/-- **A URI that has lost its host does not come back.** -/
theorem not_roundTrips_emptyHost (hurl : uri.url = ⟨some [], crate.setSegments segments⟩)
    (hnul : ∀ part ∈ segments, nul ∉ part) : ¬ RoundTrips crate .windows uri := by
  have hopaqueUri : uri.opaqueFallbackBytes = none := by
    refine opaqueFallbackBytes_eq_none hdoc (by rw [hurl]) hnul ?_
    rw [hurl]
    rintro _ ⟨⟩
    exact not_mem_nil
  obtain ⟨share, tail, hshown⟩ := exists_cons_of_ne_nil (shown_ne_nil segments)
  have hrendered := (fromPathUri_windows hopaqueUri).trans (renderWindowsPath_host hdoc hurl hshown)
  split at hrendered
  · exact not_roundTrips_of_error hrendered
  · have hfree : nul ∉ share ++ tail.flatMap ('\\' :: ·) := by
      refine nul_notMem_join (by decide) fun part hmem => ?_
      rw [← hshown] at hmem
      rcases mem_shown hmem with rfl | hmem
      · exact not_mem_nil
      · exact hnul part hmem
    rw [roundTrips_of_ok hrendered]
    rintro ⟨again, hagain, -⟩
    have hnone : PathUri.fromAbsoluteNativePath crate _ .windows = none :=
      parseWindowsPath_emptyHost hfree
    rw [toPathUri_eq_ok, nil_append, flatMap_cons, cons_append, hnone] at hagain
    cases hagain

/-! ## The paths that come back -/

/-- The paths that come back: under Windows a path is rooted, and a UNC path whose host is
accepted names a share of a host that is not `localhost`. -/
def ComesBack (crate : UrlCrate) : PathConvention → Str → Prop
  | .posix, _ => True
  | .windows, path =>
    (hasDriveRoot path = true ∨ hasUncRoot path = true) ∧
      ∀ name components host, uncComponents path = some (name, components) →
        crate.setHost name = some host →
        host ≠ localhost ∧ ∃ component ∈ components, isName component = true

omit hdoc in
theorem normalizeSegments_host (host : Str) (segments : List Str) :
    normalizeSegments .windows (some host) segments =
      (walk 1 segments).normalizedSegments ++
        if segments.getLast? = some [] then [[]] else [] := by
  have htrailing := walk_hasTrailingSeparator 1 segments
  unfold normalizeSegments
  dsimp only
  rw [show PathConvention.windows.anchorDepth = 1 from rfl, htrailing]
  by_cases h : segments.getLast? = some []
  · simp [h]
  · simp [h]

omit hdoc in
theorem isName_drive (h : isWindowsDrive drive = true) : isName drive = true := by
  obtain ⟨letter, hletter, rfl⟩ := isWindowsDrive_iff.1 h
  refine isName_iff.2 ⟨nofun, nofun, fun heq => ?_⟩
  have hcolon : ':' = '.' := (List.cons.inj (List.cons.inj heq).2).1
  exact absurd hcolon (by decide)

omit hdoc in
/-- A drive path keeps its drive and something after it. -/
theorem normalizeSegments_driveRoot (hdrive : isName drive = true) (components : List Str) :
    ∃ tail, normalizeSegments .windows none (drive :: components) = drive :: tail ∧ tail ≠ [] := by
  have hfirst : (drive :: components).dropWhile (fun component => !isName component) =
      drive :: components := by
    rw [dropWhile_cons_of_neg]
    simp [hdrive]
  obtain ⟨names, hwalk⟩ := walk_first_name hfirst
  have hdepth : (walk 1 (drive :: components)).depth = names.length + 1 := by
    rw [(walk_kept 1 (drive :: components)).depth_eq, hwalk]
    rfl
  refine ⟨names ++ if (walk 1 (drive :: components)).hasTrailingSeparator = true ∨ names = []
    then [[]] else [], ?_, ?_⟩
  · unfold normalizeSegments
    dsimp only
    rw [show PathConvention.windows.anchorDepth = 1 from rfl, hwalk, hdepth]
    split <;> split <;> simp_all
  · split
    · simp
    · next h => simp_all

theorem roundTrips_driveRoot
    (hplain : (usesNamespace path || decide (nul ∈ path)) = false)
    (hroot : hasDriveRoot path = true)
    (hfrom : pathUriFromSegments crate .windows none
      (path.take 2 :: (path.drop 3).splitOnP isWindowsSeparator) = some uri) :
    RoundTrips crate .windows uri := by
  obtain ⟨letter, sep, rest, rfl, hletter, hsep⟩ := hasDriveRoot_iff.1 hroot
  rw [Bool.or_eq_false_iff, decide_eq_false_iff_not] at hplain
  have hdrive : isWindowsDrive [letter, ':'] = true := isWindowsDrive_iff.2 ⟨letter, hletter, rfl⟩
  have hname := isName_drive hdrive
  have hletterFree : ∀ c ∈ [letter, ':'], c ≠ nul ∧ isWindowsSeparator c = false := by
    intro c hc
    refine ⟨fun h => hplain.2 ?_, ?_⟩
    · rw [← h, mem_cons, mem_cons]
      rcases mem_cons.1 hc with rfl | hc
      · exact Or.inl rfl
      · exact Or.inr (Or.inl (mem_singleton.1 hc))
    · rcases mem_cons.1 hc with rfl | hc
      · exact isWindowsSeparator_alphabetic hletter
      · rw [mem_singleton.1 hc]
        rfl
  have hfree : ∀ part ∈ [letter, ':'] :: rest.splitOnP isWindowsSeparator, ∀ c ∈ part,
      c ≠ nul ∧ isWindowsSeparator c = false := by
    refine forall_mem_cons.2 ⟨hletterFree, fun part hpart c hc => ?_⟩
    obtain ⟨hmem, hsep⟩ := mem_splitOnP part hpart c hc
    refine ⟨fun h => hplain.2 ?_, hsep⟩
    rw [← h]
    exact mem_cons_of_mem _ (mem_cons_of_mem _ (mem_cons_of_mem _ hmem))
  change pathUriFromSegments crate .windows none
    ([letter, ':'] :: rest.splitOnP isWindowsSeparator) = some uri at hfrom
  generalize rest.splitOnP isWindowsSeparator = components at hfrom hfree
  have hnul : ∀ part ∈ [letter, ':'] :: components, nul ∉ part :=
    fun part hmem hc => (hfree part hmem nul hc).1 rfl
  obtain ⟨_, hfrom', hurl⟩ := pathUriFromSegments_none hdoc .windows hnul
  rw [hfrom'] at hfrom
  cases hfrom
  obtain ⟨tail, hnormalized, htail⟩ := normalizeSegments_driveRoot hname components
  have hmem := normalized_free .windows none hfree
  have hidem := normalizeSegments_idem .windows none none rfl ([letter, ':'] :: components)
  rw [hnormalized] at hurl hmem hidem
  exact roundTrips_drive hdoc hurl hdrive htail hmem hidem

omit hdoc in
theorem normalizeSegments_share_iff (name : Str) (components : List Str) :
    (∃ share tail, normalizeSegments .windows (some name) components = share :: tail ∧
      share ≠ []) ↔ ∃ component ∈ components, isName component = true := by
  have hhost := normalizeSegments_host name components
  cases hfirst : components.dropWhile (fun component => !isName component) with
  | nil =>
    have hnone : ∀ component ∈ components, isName component = false := by
      intro component hmem
      simpa using dropWhile_eq_nil_iff.1 hfirst component hmem
    rw [(walk_no_names hnone).2, nil_append] at hhost
    refine iff_of_false ?_ ?_
    · rintro ⟨share, tail, hshare, hne⟩
      rw [hhost] at hshare
      split at hshare
      · exact hne (List.cons.inj hshare).1.symm
      · cases hshare
    · rintro ⟨component, hmem, hname⟩
      rw [hnone component hmem] at hname
      cases hname
  | cons first rest =>
    obtain ⟨names, hwalk⟩ := walk_first_name hfirst
    have hkept := walk_kept 1 components
    rw [hwalk, cons_append] at hhost
    have hfirstName : isName first = true := hkept.isName first (by rw [hwalk]; exact mem_cons_self)
    refine iff_of_true ⟨first, _, hhost, (isName_iff.1 hfirstName).1⟩ ⟨first, ?_, hfirstName⟩
    exact hkept.mem first (by rw [hwalk]; exact mem_cons_self)

/-- A UNC path comes back when its host is no URL host, and otherwise when it names a share of a
host that keeps its name. -/
theorem roundTrips_unc_iff (hunc : uncComponents path = some (name, share :: components))
    (hname : name ≠ []) (hshare : share ≠ []) (hparse : parseWindowsPath crate path = some uri) :
    RoundTrips crate .windows uri ↔ ComesBack crate .windows path := by
  obtain ⟨-, hroot, -⟩ := uncComponents_eq_some.1 hunc
  obtain ⟨hhostName, hfree⟩ := hostName_of_uncComponents hunc hname
  have hnul : ∀ part ∈ share :: components, nul ∉ part :=
    fun part hmem hc => (hfree part hmem nul hc).1 rfl
  have hor : some uri = _ := hparse.symm.trans (parseWindowsPath_unc hunc hname hshare)
  cases hset : crate.setHost name with
  | none =>
    have hnone : pathUriFromSegments crate .windows (some name) (share :: components) = none := by
      simp [pathUriFromSegments, hset]
    rw [hnone, Option.none_or] at hor
    have hne : path ≠ [] := by
      rintro rfl
      cases hroot
    rw [roundTrips_opaqueWindows_iff hne hparse hor.symm]
    refine ⟨fun h => ⟨h, ?_⟩, fun h => h.1⟩
    intro name' _ host hunc' hset'
    rw [hunc] at hunc'
    cases hunc'
    rw [hset] at hset'
    cases hset'
  | some host =>
    obtain ⟨_, hfrom, hurl⟩ := pathUriFromSegments_host hdoc .windows hset hnul
    rw [hfrom, Option.some_or] at hor
    cases hor
    have hcomes : ComesBack crate .windows path ↔
        host ≠ localhost ∧ ∃ component ∈ share :: components, isName component = true := by
      refine ⟨fun h => h.2 _ _ _ hunc hset, fun h => ⟨Or.inr hroot, ?_⟩⟩
      intro name' _ host' hunc' hset'
      rw [hunc] at hunc'
      cases hunc'
      rw [hset] at hset'
      cases hset'
      exact h
    rw [hcomes]
    by_cases hlocal : host = localhost
    · rw [withoutLocalhostAuthority, if_pos (congrArg some hlocal)] at hurl
      refine iff_of_false ?_ fun h => h.1 hlocal
      exact not_roundTrips_emptyHost hdoc hurl (nul_notMem_normalizeSegments hnul)
    · rw [withoutLocalhostAuthority, if_neg (fun h => hlocal (Option.some.inj h))] at hurl
      have hhost := hhostName.letterCase (hdoc.setHost_letterCase hset)
      rw [roundTrips_host_iff hdoc hhost (hdoc.setHost_canonical hset) hurl
        (normalized_free _ _ hfree) (normalizeSegments_idem .windows (some name) (some host) rfl _),
        normalizeSegments_share_iff name (share :: components)]
      exact ⟨fun h => ⟨hlocal, h⟩, fun h => h.2⟩

/-- **Which native paths come back from their URI.** -/
theorem native_path_comes_back_iff {convention : PathConvention} {path : Str} {uri : PathUri}
    (h : PathUri.fromAbsoluteNativePath crate path convention = some uri) :
    RoundTrips crate convention uri ↔ ComesBack crate convention path := by
  cases convention with
  | posix => exact iff_of_true (roundTrips_posix hdoc h) trivial
  | windows =>
    change parseWindowsPath crate path = some uri at h
    rcases parseWindowsPath_cases h with ⟨hplain, hopaqueUri⟩ | ⟨hplain, hroot, hfrom⟩ |
      ⟨name, share, components, hunc, hname, hshare⟩
    · have hne : path ≠ [] := by
        rintro rfl
        cases hplain
      rw [roundTrips_opaqueWindows_iff hne h hopaqueUri]
      refine ⟨fun hroot => ⟨hroot, ?_⟩, fun hcomes => hcomes.1⟩
      intro name components host hunc
      rw [(uncComponents_eq_some.1 hunc).1] at hplain
      cases hplain
    · refine iff_of_true (roundTrips_driveRoot hdoc hplain hroot hfrom) ⟨Or.inl hroot, ?_⟩
      intro name components host hunc
      have hnone := hasDriveRoot_of_hasUncRoot (uncComponents_eq_some.1 hunc).2.1
      rw [hroot] at hnone
      cases hnone
    · exact roundTrips_unc_iff hdoc hunc hname hshare h

end Documented

/-! ## A concrete crate -/

/-- The bytes that the path-segment setter of a `file:` URL encodes, besides those that are not
ASCII. -/
def specialPathSegment (byte : ℕ) : Bool :=
  byte < 0x20 || byte == 0x7F ||
    byte ∈ [0x20, 0x22, 0x23, 0x25, 0x2F, 0x3C, 0x3E, 0x3F, 0x5C, 0x60, 0x7B, 0x7D]

def isHostChar (c : Char) : Bool := isAsciiAlphabetic c || isAsciiDigit c || c == '-' || c == '.'

/-- Hosts of ASCII letters, digits, `-` and `.` are accepted, in lower case. -/
def asciiCrate : UrlCrate where
  encodeSegment := utf8PercentEncode specialPathSegment
  setHost name :=
    if name ≠ [] ∧ name.all isHostChar = true then some (toAsciiLowercase name) else none

theorem isHostChar_asciiLower {c : Char} (h : isHostChar c = true) :
    isHostChar (asciiLower c) = true := by
  rcases asciiLower_cases c with ⟨hsame, -⟩ | ⟨_, _, hlower⟩
  · rwa [hsame]
  · have halpha : isAsciiAlphabetic (asciiLower c) = true := by
      rw [← isWideAlphabetic_toNat]
      simp only [isWideAlphabetic, Bool.or_eq_true, Bool.and_eq_true, decide_eq_true_eq]
      omega
    simp [isHostChar, halpha]

theorem asciiCrate_documented : asciiCrate.Documented where
  decode_encodeSegment segment := decodeBinary_utf8PercentEncode (by decide) segment
  encodeSegment_nil := rfl
  setHost_letterCase := by
    intro name host h
    obtain ⟨-, h⟩ := Option.ite_none_right_eq_some.1 h
    cases h
    exact (lowered_toAsciiLowercase name).eq
  setHost_canonical := by
    intro name host h
    obtain ⟨⟨hne, hall⟩, h⟩ := Option.ite_none_right_eq_some.1 h
    cases h
    refine (if_pos ⟨?_, ?_⟩).trans (congrArg some (lowered_toAsciiLowercase name).eq)
    · exact fun hnil => hne (map_eq_nil_iff.1 hnil)
    · refine all_eq_true.2 fun c hc => ?_
      obtain ⟨d, hd, rfl⟩ := mem_map.1 hc
      exact isHostChar_asciiLower (all_eq_true.1 hall d hd)

def serverPath : Str := "\\\\Server\\share\\a\\..\\x y".toList

def serverUri : PathUri where
  url := ⟨some "server".toList, ["share".toList, "x%20y".toList]⟩
  host_ne := by decide +kernel

/-- A UNC path whose host is written in capitals has the canonical host in its URI. -/
theorem native_path_comes_back_server :
    asciiCrate.Documented ∧
    PathUri.fromAbsoluteNativePath asciiCrate serverPath .windows = some serverUri ∧
    serverUri.toStr = "file://server/share/x%20y".toList ∧
    RoundTrips asciiCrate .windows serverUri := by
  have hparse : PathUri.fromAbsoluteNativePath asciiCrate serverPath .windows = some serverUri := by
    decide +kernel
  have hunc : uncComponents serverPath =
      some ("Server".toList, ["share".toList, "a".toList, "..".toList, "x y".toList]) := by
    decide +kernel
  have hset : asciiCrate.setHost "Server".toList = some "server".toList := by decide +kernel
  have hcomes : ComesBack asciiCrate .windows serverPath := by
    refine ⟨by decide +kernel, fun name components host hunc' hset' => ?_⟩
    rw [hunc] at hunc'
    cases hunc'
    rw [hset] at hset'
    cases hset'
    exact ⟨by decide +kernel, _, mem_cons_self, by decide +kernel⟩
  exact ⟨asciiCrate_documented, hparse, by decide +kernel,
    (native_path_comes_back_iff asciiCrate_documented hparse).2 hcomes⟩

/-- `\\localhost\C:\x` becomes `file:///C:/x` with an empty host and is rendered as `\\\C:\x`,
which is no Windows path, and `\\server\..` becomes `file://server/`, which has no share. -/
theorem localhost_share_lost :
    asciiCrate.Documented ∧
    (∃ uri, PathUri.fromAbsoluteNativePath asciiCrate "\\\\localhost\\C:\\x".toList .windows =
      some uri ∧ uri.toStr = "file:///C:/x".toList ∧ ¬ RoundTrips asciiCrate .windows uri) ∧
    ∃ uri, PathUri.fromAbsoluteNativePath asciiCrate "\\\\server\\..".toList .windows = some uri ∧
      uri.toStr = "file://server/".toList ∧ ¬ RoundTrips asciiCrate .windows uri := by
  refine ⟨asciiCrate_documented, ⟨⟨⟨some [], ["C:".toList, "x".toList]⟩, by decide +kernel⟩,
      by decide +kernel, by decide +kernel, ?_⟩,
    ⟨⟨⟨some "server".toList, [[]]⟩, by decide +kernel⟩, by decide +kernel, by decide +kernel, ?_⟩⟩
  · have hurl : (⟨some [], ["C:".toList, "x".toList]⟩ : FileUrl) =
        ⟨some [], asciiCrate.setSegments ["C:".toList, "x".toList]⟩ := by decide +kernel
    exact not_roundTrips_emptyHost asciiCrate_documented hurl (by decide +kernel)
  · have hrendered : (fromPathUri ⟨⟨some "server".toList, [[]]⟩, by decide +kernel⟩ .windows).isOk =
        false := by decide +kernel
    rintro ⟨text, again, htext, -⟩
    rw [htext] at hrendered
    cases hrendered

end Codex.NativePath
