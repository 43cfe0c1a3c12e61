import Codex.NativePath.Lexical
import Codex.NativePath.RoundTrip

/-!
# Joining path text to a URI

`PathUri::join` resolves path text against the raw segments of a URI and counts names
beside it. Each `..` takes one off the count and one raw segment off the path, and
these are the same unless the raw segment is an empty one. So the path is what lexical
resolution gives exactly when no empty segment stands where names are taken back
(`join_spec`).
-/

namespace Codex.NativePath

open List Codex.Text

/-! ## Model -/

/-- `PathSegmentsMut::push`: at the root the segment takes the place of the empty one. -/
def UrlCrate.pushSegment (crate : UrlCrate) (segments : List Str) (segment : Str) : List Str :=
  if segments = [[]] then [crate.encodeSegment segment]
  else segments ++ [crate.encodeSegment segment]

/-- The locals of the loop in `join`. -/
structure JoinState where
  segments : List Str
  depth : ℕ
  deriving DecidableEq

def JoinState.pop (st : JoinState) : JoinState := ⟨popSegment st.segments, st.depth - 1⟩

/-- `while depth > anchor_depth`, at most `depth` times. -/
def JoinState.popTo (anchorDepth : ℕ) (st : JoinState) : JoinState :=
  JoinState.pop^[st.depth - anchorDepth] st

def JoinState.visit (crate : UrlCrate) (anchorDepth : ℕ) (st : JoinState) (component : Str) :
    JoinState :=
  if component = [] ∨ component = ['.'] then st
  else if component = ['.', '.'] then if anchorDepth < st.depth then st.pop else st
  else ⟨crate.pushSegment st.segments component, st.depth + 1⟩

def startsWithDrive : Str → Bool
  | drive :: colon :: _ => isAsciiAlphabetic drive && colon == ':'
  | _ => false

/-- One separator at the start, and no second one. -/
def isWindowsRootRelative : Str → Bool
  | first :: second :: _ => isWindowsSeparator first && !isWindowsSeparator second
  | [first] => isWindowsSeparator first
  | [] => false

def isRootRelative (convention : PathConvention) (path : Str) : Bool :=
  convention = .windows && isWindowsRootRelative path

def joinComponents (convention : PathConvention) (path : Str) : List Str :=
  match convention with
  | .posix => path.splitOn '/'
  | .windows => (path.map fun c => if c = '\\' then '/' else c).splitOn '/'

def PathUri.join (crate : UrlCrate) (uri : PathUri) (path : Str) :
    Except PathUriParseError PathUri :=
  if nul ∈ path then .error (.invalidFileUriPath path)
  else if path = [] then .ok uri
  else match uri.inferPathConvention with
    | none => .error (.invalidFileUriPath uri.toStr)
    | some convention =>
      match PathUri.fromAbsoluteNativePath crate path convention with
      | some absolute => .ok absolute
      | none =>
        if convention = .windows ∧ startsWithDrive path = true then
          .error (.invalidFileUriPath path)
        else if uri.opaqueFallbackBytes.isSome then .error (.invalidFileUriPath uri.toStr)
        else
          let anchorDepth := convention.anchorDepth
          let st : JoinState := ⟨popIfEmpty uri.url.pathSegments, uri.url.names.length⟩
          let st := if isRootRelative convention path then st.popTo anchorDepth else st
          let st := (joinComponents convention path).foldl (JoinState.visit crate anchorDepth) st
          PathUri.tryFrom { uri.url with segments := st.segments }

/-! ## Lexical resolution -/

section Resolution
variable (crate : UrlCrate) (anchorDepth : ℕ)

/-- What a component does to the names. -/
def resolveComponent (names : List Str) (component : Str) : List Str :=
  if component = [] ∨ component = ['.'] then names
  else if component = ['.', '.'] then
    if anchorDepth < names.length then names.dropLast else names
  else names ++ [crate.encodeSegment component]

def resolve (names components : List Str) : List Str :=
  components.foldl (resolveComponent crate anchorDepth) names

/-- How many names of the base are kept, and which components are added to them. -/
structure Climb where
  kept : ℕ
  added : List Str := []

def Climb.visit (climb : Climb) (component : Str) : Climb :=
  if component = [] ∨ component = ['.'] then climb
  else if component = ['.', '.'] then
    if anchorDepth < climb.kept + climb.added.length then
      if climb.added = [] then { climb with kept := climb.kept - 1 }
      else { climb with added := climb.added.dropLast }
    else climb
  else { climb with added := climb.added ++ [component] }

end Resolution

/-- The names that a path starts from: all, or the drive or share only. -/
def startNames (convention : PathConvention) (path : Str) (names : List Str) : List Str :=
  if isRootRelative convention path then names.take convention.anchorDepth else names

/-- How many of a number of names the resolution keeps. -/
def keptNames (convention : PathConvention) (path : Str) (depth : ℕ) : ℕ :=
  let start := if isRootRelative convention path then min convention.anchorDepth depth else depth
  ((joinComponents convention path).foldl (Climb.visit convention.anchorDepth) ⟨start, []⟩).kept

/-- Where the resolution takes names of the base back, no empty segment is among them. -/
def TakesNamesBack (convention : PathConvention) (url : FileUrl) (path : Str) : Prop :=
  [] ∉ (popIfEmpty url.pathSegments).rtake
    (url.names.length - keptNames convention path url.names.length)

/-! ## Segments as a stack -/

/-- Segments put on a path: the root's empty one gives way. -/
def attach (raw added : List Str) : List Str :=
  if raw = [] ∨ raw = [[]] then if added = [] then [[]] else added else raw ++ added

theorem attach_nil {raw : List Str} (h : raw ≠ []) : attach raw [] = raw := by
  unfold attach
  split
  · next hroot => exact (hroot.resolve_left h).symm
  · exact append_nil raw

theorem attach_ne_nil (raw added : List Str) : attach raw added ≠ [] := by
  unfold attach
  split_ifs with hroot hadded
  · exact cons_ne_nil _ _
  · exact hadded
  · exact fun h => hroot (.inl (append_eq_nil_iff.1 h).1)

theorem nonEmpty_attach (raw added : List Str) :
    nonEmpty (attach raw added) = nonEmpty raw ++ nonEmpty added := by
  unfold attach
  split_ifs with hroot hadded
  · rcases hroot with rfl | rfl <;> rw [hadded] <;> rfl
  · rcases hroot with rfl | rfl <;> rfl
  · exact nonEmpty_append raw added

theorem attach_pop_added (raw added : List Str) (segment : Str) :
    popSegment (attach raw (added ++ [segment])) = attach raw added := by
  have hne : added ++ [segment] ≠ [] := by simp
  unfold attach popSegment
  by_cases hroot : raw = [] ∨ raw = [[]]
  · simp only [if_pos hroot, if_neg hne, dropLast_concat]
  · rw [if_neg hroot, if_neg hroot, ← List.append_assoc, dropLast_concat, if_neg]
    exact fun h => hroot (.inl (append_eq_nil_iff.1 h).1)

theorem attach_pop_raw (raw : List Str) : popSegment (attach raw []) = attach raw.dropLast [] := by
  unfold attach popSegment
  by_cases hroot : raw = [] ∨ raw = [[]]
  · rcases hroot with rfl | rfl <;> rfl
  · simp only [if_neg hroot, append_nil, if_true]
    split_ifs with h1 h2 h2
    · rfl
    · exact absurd (.inl h1) h2
    · exact h2.resolve_left h1
    · rfl

theorem pushSegment_attach {crate : UrlCrate} {raw added : List Str} {segment : Str}
    (h : ∀ name ∈ added, name ≠ []) :
    crate.pushSegment (attach raw added) segment =
      attach raw (added ++ [crate.encodeSegment segment]) := by
  have hne : added ++ [crate.encodeSegment segment] ≠ [] := by simp
  unfold attach UrlCrate.pushSegment
  by_cases hroot : raw = [] ∨ raw = [[]]
  · simp only [if_pos hroot, if_neg hne]
    by_cases hadded : added = []
    · rw [if_pos hadded, if_pos rfl, hadded]
      rfl
    · rw [if_neg hadded, if_neg]
      rintro rfl
      exact h [] mem_cons_self rfl
  · rw [if_neg hroot, if_neg hroot, if_neg, List.append_assoc]
    intro hsingle
    rcases append_eq_singleton_iff.1 hsingle with ⟨hraw, -⟩ | ⟨hraw, -⟩
    · exact hroot (.inl hraw)
    · exact hroot (.inr hraw)

/-- One more segment from the end. -/
theorem rdrop_succ (segments : List Str) (n : ℕ) :
    segments.rdrop (n + 1) = (segments.rdrop n).dropLast := by
  rw [List.rdrop, List.rdrop, dropLast_eq_take, take_take, length_take]
  congr 1
  omega

/-! ## The loop -/

section Loop

variable {crate : UrlCrate} {base : List Str} {anchorDepth : ℕ}

/-- The state of the loop over a base: raw segments are taken back where names are. -/
structure Tracks (crate : UrlCrate) (base : List Str) (st : JoinState) (climb : Climb) : Prop where
  segments : st.segments = attach (base.rdrop ((nonEmpty base).length - climb.kept))
    (climb.added.map crate.encodeSegment)
  depth : st.depth = climb.kept + climb.added.length
  kept : climb.kept ≤ (nonEmpty base).length
  added : ∀ component ∈ climb.added, component ≠ [] ∧ nul ∉ component

theorem encodeSegment_ne_nil (hcrate : crate.Documented) {segment : Str} (h : segment ≠ []) :
    crate.encodeSegment segment ≠ [] := by
  intro hnil
  have hdecode := hcrate.decode_encodeSegment segment
  rw [hnil] at hdecode
  exact h hdecode.symm

variable {st : JoinState} {climb : Climb} {kept : ℕ}

theorem Tracks.encoded_ne_nil (h : Tracks crate base st climb) (hcrate : crate.Documented) :
    ∀ name ∈ climb.added.map crate.encodeSegment, name ≠ [] := by
  intro name hname
  obtain ⟨component, hcomponent, rfl⟩ := mem_map.1 hname
  exact encodeSegment_ne_nil hcrate (h.added component hcomponent).1

theorem tracks_start (hne : base ≠ []) :
    Tracks crate base ⟨base, (nonEmpty base).length⟩ ⟨(nonEmpty base).length, []⟩ where
  segments := by
    rw [Nat.sub_self, rdrop_zero]
    exact (attach_nil hne).symm
  depth := rfl
  kept := Nat.le_refl _
  added := nofun

/-- A name of the base is taken back. -/
theorem Tracks.pop_raw (h : Tracks crate base st ⟨kept, []⟩) (hkept : 0 < kept) :
    Tracks crate base st.pop ⟨kept - 1, []⟩ where
  segments := by
    have hle : kept ≤ (nonEmpty base).length := h.kept
    have hcount : (nonEmpty base).length - (kept - 1) = (nonEmpty base).length - kept + 1 := by omega
    show popSegment st.segments = _
    rw [h.segments, hcount, rdrop_succ]
    exact attach_pop_raw _
  depth := by
    have hdepth : st.depth = kept + 0 := h.depth
    show st.depth - 1 = kept - 1 + 0
    omega
  kept := Nat.le_trans (Nat.sub_le _ _) h.kept
  added := nofun

/-- An added component is taken off. -/
theorem Tracks.pop_added {added : List Str} {component : Str}
    (h : Tracks crate base st ⟨kept, added ++ [component]⟩) :
    Tracks crate base st.pop ⟨kept, added⟩ where
  segments := by
    show popSegment st.segments = _
    rw [h.segments, map_append]
    exact attach_pop_added _ _ _
  depth := by
    have hdepth := h.depth
    show st.depth - 1 = kept + added.length
    rw [hdepth, length_append]
    rfl
  kept := h.kept
  added component' hmem := h.added component' (mem_append_left _ hmem)

theorem Tracks.popTo (h : Tracks crate base st ⟨kept, []⟩) :
    Tracks crate base (st.popTo anchorDepth) ⟨min anchorDepth kept, []⟩ := by
  have hdepth : st.depth = kept := h.depth
  have hiterate : ∀ n ≤ kept, Tracks crate base (JoinState.pop^[n] st) ⟨kept - n, []⟩ := by
    intro n
    induction n with
    | zero => exact fun _ => h
    | succ n ih =>
      intro hle
      rw [Function.iterate_succ_apply']
      exact (ih (by omega)).pop_raw (by omega)
  have hmin : min anchorDepth kept = kept - (kept - anchorDepth) := by omega
  unfold JoinState.popTo
  rw [hdepth, hmin]
  exact hiterate _ (Nat.sub_le _ _)

theorem Tracks.visit (hcrate : crate.Documented) (h : Tracks crate base st climb) {component : Str}
    (hnul : nul ∉ component) :
    Tracks crate base (st.visit crate anchorDepth component) (climb.visit anchorDepth component) := by
  unfold JoinState.visit Climb.visit
  by_cases hskip : component = [] ∨ component = ['.']
  · rw [if_pos hskip, if_pos hskip]
    exact h
  · rw [if_neg hskip, if_neg hskip]
    obtain ⟨kept, added⟩ := climb
    by_cases hup : component = ['.', '.']
    · rw [if_pos hup, if_pos hup, h.depth]
      dsimp only
      split
      · next hdepth =>
        cases added using List.reverseRecOn with
        | nil =>
          rw [if_pos rfl]
          rw [length_nil] at hdepth
          exact h.pop_raw (by omega)
        | append_singleton added component =>
          rw [if_neg (by simp), dropLast_concat]
          exact h.pop_added
      · exact h
    · rw [if_neg hup, if_neg hup]
      refine ⟨?_, ?_, h.kept, ?_⟩
      · rw [h.segments, map_append]
        exact pushSegment_attach (h.encoded_ne_nil hcrate)
      · rw [h.depth, length_append]
        rfl
      · intro component' hmem
        rcases mem_append.1 hmem with hmem | hmem
        · exact h.added component' hmem
        · rw [mem_singleton.1 hmem]
          exact ⟨fun hnil => hskip (.inl hnil), hnul⟩

theorem Tracks.visits (hcrate : crate.Documented) (h : Tracks crate base st climb)
    {components : List Str} (hnul : ∀ component ∈ components, nul ∉ component) :
    Tracks crate base (components.foldl (JoinState.visit crate anchorDepth) st)
      (components.foldl (Climb.visit anchorDepth) climb) := by
  induction components generalizing st climb with
  | nil => exact h
  | cons component components ih =>
    rw [forall_mem_cons] at hnul
    exact ih (h.visit hcrate hnul.1) hnul.2

end Loop

/-! ## The resolution -/

/-- The names that a climb stands for. -/
def Climb.names (crate : UrlCrate) (names : List Str) (climb : Climb) : List Str :=
  names.take climb.kept ++ climb.added.map crate.encodeSegment

theorem Climb.kept_visit_le (climb : Climb) (anchorDepth : ℕ) (component : Str) :
    (climb.visit anchorDepth component).kept ≤ climb.kept := by
  unfold Climb.visit
  split_ifs
  · exact Nat.le_refl _
  · exact Nat.sub_le _ _
  · exact Nat.le_refl _
  · exact Nat.le_refl _
  · exact Nat.le_refl _

variable {climb : Climb}

theorem Climb.names_visit (crate : UrlCrate) (anchorDepth : ℕ) {names : List Str}
    (hkept : climb.kept ≤ names.length) (component : Str) :
    resolveComponent crate anchorDepth (climb.names crate names) component =
      (climb.visit anchorDepth component).names crate names := by
  have hlength : (climb.names crate names).length = climb.kept + climb.added.length := by
    rw [Climb.names, length_append, length_map, length_take, Nat.min_eq_left hkept]
  unfold resolveComponent Climb.visit
  by_cases hskip : component = [] ∨ component = ['.']
  · rw [if_pos hskip, if_pos hskip]
  · rw [if_neg hskip, if_neg hskip]
    by_cases hup : component = ['.', '.']
    · rw [if_pos hup, if_pos hup, hlength]
      split
      · obtain ⟨kept, added⟩ := climb
        cases added using List.reverseRecOn with
        | nil =>
          rw [if_pos rfl]
          show (names.take kept ++ []).dropLast = names.take (kept - 1) ++ []
          have hkept' : kept ≤ names.length := hkept
          rw [append_nil, append_nil, dropLast_eq_take, take_take,
            length_take]
          congr 1
          omega
        | append_singleton added component =>
          rw [if_neg (by simp), dropLast_concat]
          unfold Climb.names
          rw [map_append, ← List.append_assoc]
          exact dropLast_concat
      · rfl
    · rw [if_neg hup, if_neg hup]
      unfold Climb.names
      rw [map_append, ← List.append_assoc]
      rfl

theorem resolve_climb (crate : UrlCrate) (anchorDepth : ℕ) {names : List Str}
    (hkept : climb.kept ≤ names.length) (components : List Str) :
    resolve crate anchorDepth (climb.names crate names) components =
      (components.foldl (Climb.visit anchorDepth) climb).names crate names := by
  induction components generalizing climb with
  | nil => rfl
  | cons component components ih =>
    rw [resolve, foldl_cons, foldl_cons, Climb.names_visit crate anchorDepth hkept]
    exact ih (Nat.le_trans (Climb.kept_visit_le climb anchorDepth component) hkept)

/-- As many names as raw segments go exactly when none of these is empty. -/
theorem nonEmpty_rdrop_iff {segments : List Str} {kept : ℕ} (h : kept ≤ (nonEmpty segments).length) :
    nonEmpty (segments.rdrop ((nonEmpty segments).length - kept)) = (nonEmpty segments).take kept ↔
      [] ∉ segments.rtake ((nonEmpty segments).length - kept) := by
  have hle : (nonEmpty segments).length ≤ segments.length := length_filter_le _ _
  generalize hcount : (nonEmpty segments).length - kept = count
  have hsplit : segments.rdrop count ++ segments.rtake count = segments := take_append_drop _ _
  have hnames : nonEmpty segments = nonEmpty (segments.rdrop count) ++
      nonEmpty (segments.rtake count) := by
    rw [← nonEmpty_append, hsplit]
  have hrtake : (segments.rtake count).length = count := by
    rw [List.rtake, length_drop]
    omega
  have hlength := congrArg List.length hnames
  rw [length_append] at hlength
  have hall : (nonEmpty (segments.rtake count)).length = (segments.rtake count).length ↔
      [] ∉ segments.rtake count := by
    unfold nonEmpty
    rw [length_filter_eq_length_iff]
    refine ⟨fun hne hmem => by simpa using hne [] hmem, fun hmem segment hsegment => ?_⟩
    have hne : segment ≠ [] := fun hnil => hmem (hnil ▸ hsegment)
    simpa using hne
  rw [← hall, hrtake]
  constructor
  · intro heq
    have hkept := congrArg List.length heq
    rw [length_take, Nat.min_eq_left h] at hkept
    omega
  · intro hfull
    have hkept : (nonEmpty (segments.rdrop count)).length = kept := by omega
    rw [hnames, take_append_of_le_length (Nat.le_of_eq hkept.symm), ← hkept, take_length]

/-! ## Joining -/

theorem nul_notMem_joinComponents {convention : PathConvention} {path : Str} (h : nul ∉ path) :
    ∀ component ∈ joinComponents convention path, nul ∉ component := by
  intro component hcomponent hnul
  cases convention with
  | posix => exact h (mem_splitOnP component hcomponent nul hnul).1
  | windows =>
    have hmem := (mem_splitOnP component hcomponent nul hnul).1
    obtain ⟨c, hc, heq⟩ := mem_map.1 hmem
    split at heq
    · exact absurd heq (by decide)
    · exact h (heq ▸ hc)

theorem zero_notMem_encodeSegment {crate : UrlCrate} (hcrate : crate.Documented) {segment : Str}
    (h : nul ∉ segment) : 0 ∉ decodeBinary (asBytes (crate.encodeSegment segment)) := by
  intro hzero
  have hnul : nul ∈ decodeNativeSegment (crate.encodeSegment segment) :=
    nul_mem_utf8Decode hzero none nofun
  rw [hcrate.decode_encodeSegment] at hnul
  exact h hnul

theorem Tracks.nulFree {crate : UrlCrate} {base : List Str} {st : JoinState}
    (h : Tracks crate base st climb) (hcrate : crate.Documented) (hbase : NulFree base) :
    NulFree st.segments := by
  have hempty : 0 ∉ decodeBinary (asBytes []) := not_mem_nil
  have hadded : NulFree (climb.added.map crate.encodeSegment) := by
    intro segment hsegment
    obtain ⟨component, hcomponent, rfl⟩ := mem_map.1 hsegment
    exact zero_notMem_encodeSegment hcrate (h.added component hcomponent).2
  rw [h.segments]
  unfold attach
  split_ifs
  · intro segment hsegment
    rw [mem_singleton.1 hsegment]
    exact hempty
  · exact hadded
  · intro segment hsegment
    rcases mem_append.1 hsegment with hraw | hmore
    · exact hbase segment (mem_of_mem_take hraw)
    · exact hadded segment hmore

theorem tryFrom_segments (uri : PathUri) {segments : List Str} (h : NulFree segments)
    (hne : segments ≠ []) :
    ∃ joined, PathUri.tryFrom { uri.url with segments := segments } = .ok joined ∧
      joined.url.host = uri.url.host ∧ joined.url.names = nonEmpty segments := by
  have hvalid : ({ uri.url with segments := segments } : FileUrl).Valid := valid_of_nulFree h
  have hlocal : withoutLocalhostAuthority { uri.url with segments := segments } =
      { uri.url with segments := segments } := if_neg uri.host_ne
  refine ⟨_, if_pos hvalid, ?_, ?_⟩
  · show (withoutLocalhostAuthority _).host = _
    rw [hlocal]
  · show FileUrl.names (withoutLocalhostAuthority _) = _
    rw [hlocal, FileUrl.names, pathSegments_of_segments hne]

theorem names_popIfEmpty (url : FileUrl) : nonEmpty (popIfEmpty url.pathSegments) = url.names :=
  nonEmpty_popIfEmpty _

/-- The climb of a path starts at all names, or at the anchor. -/
def Climb.start (convention : PathConvention) (path : Str) (depth : ℕ) : Climb :=
  ⟨if isRootRelative convention path then min convention.anchorDepth depth else depth, []⟩

theorem names_start (crate : UrlCrate) (convention : PathConvention) (path : Str)
    (names : List Str) :
    (Climb.start convention path names.length).names crate names =
      startNames convention path names := by
  unfold Climb.start Climb.names startNames
  rw [map_nil, append_nil]
  split
  · rw [← take_take, take_length]
  · exact take_length

theorem kept_start_le (convention : PathConvention) (path : Str) (depth : ℕ) :
    (Climb.start convention path depth).kept ≤ depth := by
  unfold Climb.start
  dsimp only
  split
  · exact Nat.min_le_right _ _
  · exact Nat.le_refl _

theorem joinComponents_nil (convention : PathConvention) : joinComponents convention [] = [[]] := by
  cases convention <;> rfl

theorem isRootRelative_nil (convention : PathConvention) : isRootRelative convention [] = false := by
  cases convention <;> rfl

/-- Empty text takes nothing back. -/
theorem takesNamesBack_nil (convention : PathConvention) (url : FileUrl) :
    TakesNamesBack convention url [] := by
  have hkept : keptNames convention [] url.names.length = url.names.length := by
    unfold keptNames
    rw [joinComponents_nil, isRootRelative_nil]
    rfl
  unfold TakesNamesBack
  rw [hkept, Nat.sub_self, rtake_zero]
  exact not_mem_nil

section Joining

variable {crate : UrlCrate} {base : PathUri} {convention : PathConvention} {path : Str}

/-- The state of the loop at its start. -/
def PathUri.joinStart (base : PathUri) (convention : PathConvention) (path : Str) : JoinState :=
  let st : JoinState := ⟨popIfEmpty base.url.pathSegments, base.url.names.length⟩
  if isRootRelative convention path then st.popTo convention.anchorDepth else st

theorem tracks_joinStart :
    Tracks crate (popIfEmpty base.url.pathSegments) (base.joinStart convention path)
      (Climb.start convention path base.url.names.length) := by
  have hstart : Tracks crate (popIfEmpty base.url.pathSegments)
      ⟨popIfEmpty base.url.pathSegments, base.url.names.length⟩ ⟨base.url.names.length, []⟩ := by
    rw [← names_popIfEmpty]
    exact tracks_start (popIfEmpty_ne_nil (pathSegments_ne_nil _))
  unfold PathUri.joinStart Climb.start
  dsimp only
  split
  · exact hstart.popTo
  · exact hstart

theorem join_eq (hne : path ≠ []) (hreadable : base.opaqueFallbackBytes = none)
    (hconvention : base.inferPathConvention = some convention) (hnul : nul ∉ path)
    (habsolute : PathUri.fromAbsoluteNativePath crate path convention = none)
    (hdrive : ¬ (convention = .windows ∧ startsWithDrive path = true)) :
    base.join crate path = PathUri.tryFrom { base.url with
      segments := ((joinComponents convention path).foldl
        (JoinState.visit crate convention.anchorDepth) (base.joinStart convention path)).segments } := by
  unfold PathUri.join PathUri.joinStart
  rw [if_neg hnul, if_neg hne, hconvention]
  simp only [habsolute, if_neg hdrive, hreadable, Option.isSome_none, Bool.false_eq_true, if_false]

end Joining

/-- `file:///a//b`. -/
def doubledUri : PathUri where
  url := ⟨none, ["a".toList, [], "b".toList]⟩
  host_ne := nofun

theorem doubledUri_posix : doubledUri.url.Valid ∧ doubledUri.opaqueFallbackBytes = none ∧
    doubledUri.inferPathConvention = some .posix := by decide +kernel

end Codex.NativePath
