import Codex.NativePath.Uri

/-!
# Parsing native paths

`from_absolute_native_path` for both conventions. A path is cut at its separators and
walked: `.` and `..` are resolved without leaving the root, the drive or the share, and
a separator at the end is kept. Windows device namespaces, paths with a NUL and UNC hosts
that are no URL hosts become opaque.
-/

namespace Codex.NativePath

open List Codex.Text

def isWindowsSeparator (c : Char) : Bool := c == '\\' || c == '/'

def isAsciiAlphabetic (c : Char) : Bool := ('a' ≤ c && c ≤ 'z') || ('A' ≤ c && c ≤ 'Z')

/-! ## The walk -/

/-- The locals of the loop in `path_uri_from_segments`. -/
structure Walk where
  depth : ℕ := 0
  normalizedSegments : List Str := []
  hasTrailingSeparator : Bool := false
  deriving DecidableEq

def Walk.visit (anchorDepth : ℕ) (walk : Walk) (segment : Str) : Walk :=
  if segment = [] then { walk with hasTrailingSeparator := true }
  else if segment = ['.'] then { walk with hasTrailingSeparator := false }
  else if segment = ['.', '.'] then
    if anchorDepth < walk.depth then
      ⟨walk.depth - 1, walk.normalizedSegments.dropLast, false⟩
    else { walk with hasTrailingSeparator := false }
  else ⟨walk.depth + 1, walk.normalizedSegments ++ [segment], false⟩

def walk (anchorDepth : ℕ) (segments : List Str) : Walk :=
  segments.foldl (Walk.visit anchorDepth) {}

def PathConvention.anchorDepth : PathConvention → ℕ
  | .posix => 0
  | .windows => 1

/-- The segments of the URI: a drive keeps its root separator. -/
def normalizeSegments (convention : PathConvention) (host : Option Str) (segments : List Str) :
    List Str :=
  let w := walk convention.anchorDepth segments
  if w.hasTrailingSeparator ||
      (convention = .windows && host.isNone && w.depth = convention.anchorDepth) then
    w.normalizedSegments ++ [[]]
  else w.normalizedSegments

section Crate

variable (crate : UrlCrate)

def pathUriFromSegments (convention : PathConvention) (host : Option Str) (segments : List Str) :
    Option PathUri := do
  let urlHost ← match host with
    | none => some none
    | some host => (crate.setHost host).map some
  (PathUri.tryFrom ⟨urlHost, crate.setSegments (normalizeSegments convention host segments)⟩).toOption

/-! ## The parsers -/

def parsePosixPath (path : Str) : Option PathUri := do
  let path ← stripPrefix path ['/']
  if nul ∈ path then PathUri.fromOpaquePathBytes (asBytes ('/' :: path))
  else pathUriFromSegments crate .posix none (path.splitOn '/')

/-- A device or verbatim namespace, `\\.\` or `\\?\`. -/
def usesNamespace : Str → Bool
  | first :: second :: character :: separator :: _ =>
    isWindowsSeparator first && isWindowsSeparator second && isWindowsSeparator separator &&
      (character == '.' || character == '?')
  | _ => false

def hasDriveRoot : Str → Bool
  | drive :: colon :: separator :: _ =>
    isAsciiAlphabetic drive && colon == ':' && isWindowsSeparator separator
  | _ => false

def hasUncRoot : Str → Bool
  | first :: second :: _ => isWindowsSeparator first && isWindowsSeparator second
  | _ => false

/-- `u16::to_le_bytes`. -/
def toLeBytes (unit : ℕ) : List ℕ := [unit % 256, unit / 256]

def windowsOpaquePathUri (path : Str) : Option PathUri :=
  PathUri.fromOpaquePathBytes ((encodeUtf16 path).flatMap toLeBytes)

def parseWindowsPath (path : Str) : Option PathUri :=
  if usesNamespace path || nul ∈ path then windowsOpaquePathUri path
  else if hasDriveRoot path then
    pathUriFromSegments crate .windows none
      (path.take 2 :: (path.drop 3).splitOnP isWindowsSeparator)
  else if hasUncRoot path then
    match (path.drop 2).splitOnP isWindowsSeparator with
    | host :: share :: components =>
      if host = [] || share = [] then none
      else
        (pathUriFromSegments crate .windows (some host) (share :: components)).or
          (windowsOpaquePathUri path)
    | _ => none
  else none

def PathUri.fromAbsoluteNativePath (path : Str) : PathConvention → Option PathUri
  | .posix => parsePosixPath crate path
  | .windows => parseWindowsPath crate path

end Crate

/-! ## What the walk leaves -/

/-- A component that names something: not empty, not `.` and not `..`. -/
def isName (component : Str) : Bool :=
  component ≠ [] && component ≠ ['.'] && component ≠ ['.', '.']

theorem isName_iff {component : Str} :
    isName component = true ↔ component ≠ [] ∧ component ≠ ['.'] ∧ component ≠ ['.', '.'] := by
  simp [isName, and_assoc]

theorem component_cases (component : Str) :
    component = [] ∨ component = ['.'] ∨ component = ['.', '.'] ∨ isName component = true := by
  rw [isName_iff]
  tauto

theorem visit_name {anchorDepth : ℕ} {w : Walk} {segment : Str} (h : isName segment = true) :
    w.visit anchorDepth segment = ⟨w.depth + 1, w.normalizedSegments ++ [segment], false⟩ := by
  obtain ⟨h1, h2, h3⟩ := isName_iff.1 h
  rw [Walk.visit, if_neg h1, if_neg h2, if_neg h3]

theorem visit_hasTrailingSeparator (anchorDepth : ℕ) (w : Walk) (segment : Str) :
    (w.visit anchorDepth segment).hasTrailingSeparator = decide (segment = []) := by
  unfold Walk.visit
  split_ifs with h1 h2 h3 h4
  · simp [h1]
  all_goals simp [h1]

/-- The depth counts the segments kept, and these are names from among the segments walked. -/
structure Walk.Kept (segments : List Str) (w : Walk) : Prop where
  depth_eq : w.depth = w.normalizedSegments.length
  isName : ∀ name ∈ w.normalizedSegments, isName name = true
  mem : ∀ name ∈ w.normalizedSegments, name ∈ segments

variable {segments names : List Str}

theorem Walk.Kept.visit {w : Walk} (h : w.Kept segments) (anchorDepth : ℕ) {segment : Str}
    (hmem : segment ∈ segments) : (w.visit anchorDepth segment).Kept segments := by
  unfold Walk.visit
  split_ifs with h1 h2 h3 h4
  · exact { h with }
  · exact { h with }
  · refine ⟨?_, fun name hname => h.isName name (mem_of_mem_dropLast hname),
      fun name hname => h.mem name (mem_of_mem_dropLast hname)⟩
    rw [length_dropLast, h.depth_eq]
  · exact { h with }
  · refine ⟨?_, ?_, ?_⟩
    · rw [length_append, h.depth_eq]
      rfl
    · intro name hname
      rcases mem_append.1 hname with hname | hname
      · exact h.isName name hname
      · rw [mem_singleton.1 hname]
        exact isName_iff.2 ⟨h1, h2, h3⟩
    · intro name hname
      rcases mem_append.1 hname with hname | hname
      · exact h.mem name hname
      · rwa [mem_singleton.1 hname]

theorem walk_kept (anchorDepth : ℕ) (segments : List Str) :
    (walk anchorDepth segments).Kept segments := by
  have hfold : ∀ (rest : List Str) (w : Walk), (∀ segment ∈ rest, segment ∈ segments) →
      w.Kept segments → (rest.foldl (Walk.visit anchorDepth) w).Kept segments := by
    intro rest
    induction rest with
    | nil => exact fun w _ h => h
    | cons segment rest ih =>
      intro w hmem h
      rw [foldl_cons]
      exact ih _ (fun s hs => hmem s (mem_cons_of_mem _ hs))
        (h.visit anchorDepth (hmem segment mem_cons_self))
  exact hfold segments {} (fun _ h => h) ⟨rfl, nofun, nofun⟩

theorem walk_hasTrailingSeparator (anchorDepth : ℕ) (segments : List Str) :
    (walk anchorDepth segments).hasTrailingSeparator = decide (segments.getLast? = some []) := by
  rcases eq_nil_or_concat segments with rfl | ⟨before, segment, rfl⟩
  · rfl
  · rw [concat_eq_append, walk, foldl_append, foldl_cons, foldl_nil,
      visit_hasTrailingSeparator, getLast?_append, getLast?_singleton]
    simp

theorem foldl_visit_names (h : ∀ name ∈ names, isName name = true) (anchorDepth : ℕ) (w : Walk)
    (hw : w.hasTrailingSeparator = false) : names.foldl (Walk.visit anchorDepth) w =
      ⟨w.depth + names.length, w.normalizedSegments ++ names, false⟩ := by
  induction names generalizing w with
  | nil =>
    cases w
    simp_all
  | cons name names ih =>
    rw [forall_mem_cons] at h
    rw [foldl_cons, visit_name h.1, ih h.2 _ rfl]
    simp [Nat.add_assoc, Nat.add_comm 1]

/-- What was normalised is left as it is. -/
theorem walk_names (h : ∀ name ∈ names, isName name = true) (anchorDepth : ℕ) :
    walk anchorDepth names = ⟨names.length, names, false⟩ := by
  have hfold := foldl_visit_names h anchorDepth {} rfl
  simpa [walk] using hfold

theorem walk_names_trailing (h : ∀ name ∈ names, isName name = true) (anchorDepth : ℕ) :
    walk anchorDepth (names ++ [[]]) = ⟨names.length, names, true⟩ := by
  rw [walk, foldl_append, ← walk, walk_names h]
  rfl

/-- The first name is the anchor: `..` takes back the names after it, and never the anchor. -/
theorem foldl_visit_anchor (anchor : Str) (rest : List Str) (names : List Str) (trailing : Bool) :
    ∃ names' trailing', rest.foldl (Walk.visit 1) ⟨names.length + 1, anchor :: names, trailing⟩ =
      ⟨names'.length + 1, anchor :: names', trailing'⟩ := by
  induction rest generalizing names trailing with
  | nil => exact ⟨names, trailing, rfl⟩
  | cons component rest ih =>
    rw [foldl_cons]
    rcases component_cases component with rfl | rfl | rfl | hname
    · exact ih names true
    · exact ih names false
    · cases names using List.reverseRecOn with
      | nil => exact ih [] false
      | append_singleton names name =>
        have hvisit : Walk.visit 1 ⟨(names ++ [name]).length + 1, anchor :: (names ++ [name]), trailing⟩
            ['.', '.'] = ⟨names.length + 1, anchor :: names, false⟩ := by
          have hdrop : (anchor :: (names ++ [name])).dropLast = anchor :: names := by
            rw [← cons_append, dropLast_concat]
          simp [Walk.visit, hdrop]
        rw [hvisit]
        exact ih names false
    · rw [visit_name hname]
      have hrest := ih (names ++ [component]) false
      rwa [length_append] at hrest

/-- Without a name there is nothing to keep, and nothing to take back. -/
theorem walk_no_names (h : ∀ segment ∈ segments, isName segment = false) :
    (walk 1 segments).depth = 0 ∧ (walk 1 segments).normalizedSegments = [] := by
  obtain ⟨hdepth, hnames, hmem⟩ := walk_kept 1 segments
  have hnil : (walk 1 segments).normalizedSegments = [] := by
    refine eq_nil_iff_forall_not_mem.2 fun name hname => ?_
    have hfalse := h name (hmem name hname)
    rw [hnames name hname] at hfalse
    cases hfalse
  rw [hdepth, hnil]
  exact ⟨rfl, rfl⟩

/-- **What the walk keeps below a drive or a share**: the first name, whatever is taken back after
it. -/
theorem walk_first_name {rest : List Str} {anchor : Str}
    (h : segments.dropWhile (fun segment => !isName segment) = anchor :: rest) :
    ∃ names, (walk 1 segments).normalizedSegments = anchor :: names := by
  have happend : (segments.takeWhile fun segment => !isName segment) ++ anchor :: rest =
      segments := by
    rw [← h]
    exact takeWhile_append_dropWhile
  have hanchor : isName anchor = true := by
    have hhead := head?_dropWhile_not (fun segment => !isName segment) segments
    rw [h] at hhead
    simpa using hhead
  obtain ⟨hdepth, hnil⟩ : (walk 1 (segments.takeWhile fun segment => !isName segment)).depth = 0 ∧
      (walk 1 (segments.takeWhile fun segment => !isName segment)).normalizedSegments = [] :=
    walk_no_names fun segment hmem => by simpa using mem_takeWhile_imp hmem
  obtain ⟨names, trailing, hwalk⟩ := foldl_visit_anchor anchor rest [] false
  refine ⟨names, ?_⟩
  rw [← happend, walk, foldl_append, foldl_cons, visit_name hanchor, ← walk, hdepth, hnil]
  exact congrArg Walk.normalizedSegments hwalk

/-- Normalising twice is normalising once, under the host the segments were normalised for. -/
theorem normalizeSegments_idem (convention : PathConvention) (host host' : Option Str)
    (hhost : host.isNone = host'.isNone) (segments : List Str) :
    normalizeSegments convention host' (normalizeSegments convention host segments) =
      normalizeSegments convention host segments := by
  obtain ⟨hdepth, hnames, -⟩ := walk_kept convention.anchorDepth segments
  unfold normalizeSegments
  dsimp only
  split
  · rw [walk_names_trailing hnames]
    rfl
  · next h =>
    rw [walk_names hnames]
    rw [Bool.or_eq_true, not_or] at h
    rw [if_neg]
    dsimp only
    rw [← hdepth, ← hhost, Bool.false_or]
    exact h.2

end Codex.NativePath
