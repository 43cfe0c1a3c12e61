import Codex.NativePath.Render

/-!
# Lexical operations on path URIs

The path segments of a URI as the `url` crate gives and changes them, the path
convention that a URI is taken to follow, and `parent`, `ancestors` and `starts_with`.
Containment compares non-empty segments, while a parent is made by taking off a raw
one that may be empty. The two agree all the same (`startsWith_iff_ancestor`), for URIs
that are alike in an empty host: a URI that has lost its host is equal to one that never
had any, but is not below what this is below.
-/

namespace Codex.NativePath

open List Codex.Text

/-! ## Path segments -/

/-- `Url::path_segments`: a path is never without a segment. -/
def FileUrl.pathSegments (url : FileUrl) : List Str :=
  if url.segments = [] then [[]] else url.segments

/-- `PathSegmentsMut::pop_if_empty`. -/
def popIfEmpty (segments : List Str) : List Str :=
  if segments.dropLast ≠ [] ∧ segments.getLast? = some [] then segments.dropLast else segments

/-- `PathSegmentsMut::pop`: the path of the root is left with one empty segment. -/
def popSegment (segments : List Str) : List Str :=
  if segments.dropLast = [] then [[]] else segments.dropLast

/-- `segments.filter(|segment| !segment.is_empty())`. -/
def nonEmpty (segments : List Str) : List Str := segments.filter fun segment => segment ≠ []

def FileUrl.names (url : FileUrl) : List Str := nonEmpty url.pathSegments

/-! ## Conventions -/

def inferOpaquePathConvention (pathBytes : List ℕ) : Option PathConvention :=
  if pathBytes.head? = some slash then some .posix
  else if pathBytes.length % 2 ≠ 0 then none
  else match fromLeBytes pathBytes with
    | first :: second :: _ =>
      let hasDrive := isWideAlphabetic first && second == 0x3A
      let hasUncPrefix := first == 0x5C && second == 0x5C
      if hasDrive || hasUncPrefix then some .windows else none
    | _ => none

def PathUri.inferPathConvention (uri : PathUri) : Option PathConvention :=
  match uri.opaqueFallbackBytes with
  | some pathBytes => inferOpaquePathConvention pathBytes
  | none =>
    if uri.url.host.isSome then some .windows
    else match uri.url.names.head? with
      | some segment => if isWindowsDrive segment then some .windows else some .posix
      | none => some .posix

/-! ## Parents -/

def PathUri.parent (uri : PathUri) : Option PathUri :=
  if uri.opaqueFallbackBytes.isSome then none
  else do
    let convention ← uri.inferPathConvention
    let depth := uri.url.names.length
    if depth ≤ convention.anchorDepth then none
    else some ⟨{ uri.url with segments := popSegment (popIfEmpty uri.url.pathSegments) }, uri.host_ne⟩

/-- The items of `std::iter::successors`. -/
def successors {α : Type} (next : α → Option α) : α → ℕ → Option α
  | first, 0 => some first
  | first, n + 1 =>
    match next first with
    | some second => successors next second n
    | none => none

def PathUri.ancestors (uri : PathUri) : ℕ → Option PathUri := successors PathUri.parent uri

/-! ## Containment -/

def backslash : ℕ := 0x5C

/-- The non-empty segments, if none of them has an encoded native separator. -/
def containmentPathSegments (url : FileUrl) (convention : PathConvention) : Option (List Str) :=
  if url.names.any fun segment => (decodeBinary (asBytes segment)).any fun byte =>
      byte == slash || (convention = .windows && byte == backslash) then none
  else some url.names

/-- URIs are equal when their texts are. -/
def PathUri.startsWith (uri base : PathUri) : Bool :=
  if uri.toStr = base.toStr then true
  else if uri.opaqueFallbackBytes.isSome || base.opaqueFallbackBytes.isSome then false
  else if uri.url.host ≠ base.url.host then false
  else
    match containmentPathSegments uri.url (uri.inferPathConvention.getD .posix),
      containmentPathSegments base.url (base.inferPathConvention.getD .posix) with
    | some pathSegments, some baseSegments => baseSegments.isPrefixOf pathSegments
    | _, _ => false

/-! ## Names -/

theorem nonEmpty_append (segments more : List Str) :
    nonEmpty (segments ++ more) = nonEmpty segments ++ nonEmpty more := filter_append _ _

theorem nonEmpty_popIfEmpty (segments : List Str) :
    nonEmpty (popIfEmpty segments) = nonEmpty segments := by
  unfold popIfEmpty
  split
  · next h =>
    obtain ⟨init, rfl⟩ := getLast?_eq_some_iff.1 h.2
    rw [dropLast_concat, nonEmpty_append]
    exact (append_nil _).symm
  · rfl

theorem nonEmpty_popSegment (segments : List Str) :
    nonEmpty (popSegment segments) = nonEmpty segments.dropLast := by
  unfold popSegment
  split
  · next h =>
    rw [h]
    rfl
  · rfl

/-- A raw segment that is taken off is the last name, or no name at all. -/
theorem nonEmpty_dropLast (segments : List Str) :
    nonEmpty segments.dropLast <+: nonEmpty segments ∧
      (nonEmpty segments).length ≤ (nonEmpty segments.dropLast).length + 1 := by
  cases segments using List.reverseRecOn with
  | nil => exact ⟨prefix_rfl, Nat.zero_le _⟩
  | append_singleton segments segment =>
    rw [dropLast_concat, nonEmpty_append, length_append]
    refine ⟨prefix_append _ _, Nat.add_le_add_left ?_ _⟩
    exact length_filter_le _ _

theorem pathSegments_ne_nil (url : FileUrl) : url.pathSegments ≠ [] := by
  unfold FileUrl.pathSegments
  split
  · exact cons_ne_nil _ _
  · next h => exact h

variable {url : FileUrl} {segments : List Str} {uri up base : PathUri} {convention : PathConvention}

theorem pathSegments_of_segments (hne : segments ≠ []) :
    ({ url with segments := segments } : FileUrl).pathSegments = segments := if_neg hne

theorem popSegment_ne_nil (segments : List Str) : popSegment segments ≠ [] := by
  unfold popSegment
  split
  · exact cons_ne_nil _ _
  · next h => exact h

theorem mem_popIfEmpty {segment : Str} (h : segment ∈ popIfEmpty segments) :
    segment ∈ segments := by
  unfold popIfEmpty at h
  split at h
  · exact mem_of_mem_dropLast h
  · exact h

theorem mem_popSegment {segment : Str} (h : segment ∈ popSegment segments) :
    segment ∈ segments ∨ segment = [] := by
  unfold popSegment at h
  split at h
  · exact .inr (mem_singleton.1 h)
  · exact .inl (mem_of_mem_dropLast h)

/-! ## URIs of files -/

/-- The URI is one that the constructors let through, and no opaque one. -/
structure PathUri.Plain (uri : PathUri) : Prop where
  wellFormed : uri.url.WellFormed
  valid : uri.url.Valid
  notOpaque : uri.opaqueFallbackBytes = none

/-- No segment decodes to a text with a NUL byte. -/
def NulFree (segments : List Str) : Prop := ∀ segment ∈ segments, 0 ∉ decodeBinary (asBytes segment)

theorem zero_mem_path : 0 ∈ decodeBinary (asBytes url.path) ↔ ¬ NulFree url.segments := by
  have hpath := decodeBinary_segments [] url.segments
  rw [nil_append, show decodeBinary [] = [] from rfl, nil_append] at hpath
  rw [FileUrl.path, hpath, mem_flatMap, NulFree]
  push Not
  constructor
  · rintro ⟨segment, hmem, h⟩
    exact ⟨segment, hmem, (mem_cons.1 h).resolve_left (by decide)⟩
  · rintro ⟨segment, hmem, h⟩
    exact ⟨segment, hmem, mem_cons_of_mem _ h⟩

theorem PathUri.nulFree (hvalid : uri.url.Valid) (hreadable : uri.opaqueFallbackBytes = none) :
    NulFree uri.url.segments := by
  by_contra hzero
  have hsome := hvalid (zero_mem_path.2 hzero)
  unfold opaqueFallbackBytes at hreadable
  rw [hreadable] at hsome
  cases hsome

theorem notOpaque_of_nulFree (hhost : ∀ host ∈ url.host, '/' ∉ host) (h : NulFree url.segments) :
    decodeBadPathUri url = none := by
  cases hbad : decodeBadPathUri url with
  | none => rfl
  | some pathBytes =>
    exact absurd (zero_mem_path_of_decodeBadPathUri hhost hbad) (fun hzero => zero_mem_path.1 hzero h)

theorem valid_of_nulFree (h : NulFree url.segments) : url.Valid :=
  fun hzero => absurd h (zero_mem_path.1 hzero)

theorem nulFree_pathSegments (h : NulFree url.segments) : NulFree url.pathSegments := by
  unfold FileUrl.pathSegments
  split
  · intro segment hmem
    rw [mem_singleton.1 hmem]
    exact not_mem_nil
  · exact h

theorem NulFree.pop (h : NulFree segments) : NulFree (popSegment (popIfEmpty segments)) := by
  intro segment hmem
  rcases mem_popSegment hmem with hold | rfl
  · exact h segment (mem_popIfEmpty hold)
  · exact not_mem_nil

theorem FileUrl.WellFormed.pop (h : url.WellFormed) :
    ({ url with segments := popSegment (popIfEmpty url.pathSegments) } : FileUrl).WellFormed where
  host := h.host
  segments segment hmem := by
    rcases mem_popSegment hmem with hold | rfl
    · have hraw := mem_popIfEmpty hold
      unfold pathSegments at hraw
      split at hraw
      · rw [mem_singleton.1 hraw]
        exact not_mem_nil
      · exact h.segments segment hraw
    · exact not_mem_nil

theorem infer_of_notOpaque (h : uri.opaqueFallbackBytes = none) :
    uri.inferPathConvention = if uri.url.host.isSome then some .windows
      else match uri.url.names.head? with
        | some segment => if isWindowsDrive segment then some .windows else some .posix
        | none => some .posix := by
  unfold PathUri.inferPathConvention
  rw [h]

/-! ## One parent -/

/-- The raw segments get fewer, or the only one becomes the empty segment of the root. -/
def Shrinks (raw raw' : List Str) : Prop :=
  raw'.length < raw.length ∨ (∃ segment, segment ≠ [] ∧ raw = [segment]) ∧ raw' = [[]]

/-- What a parent is: the host stays, the raw segments shrink, and at most the last name goes. -/
structure PathUri.IsParent (uri up : PathUri) : Prop where
  host : up.url.host = uri.url.host
  shrinks : Shrinks uri.url.pathSegments up.url.pathSegments
  names : up.url.names <+: uri.url.names
  length : uri.url.names.length ≤ up.url.names.length + 1

theorem length_popIfEmpty (segments : List Str) : (popIfEmpty segments).length ≤ segments.length := by
  unfold popIfEmpty
  split
  · rw [length_dropLast]
    exact Nat.sub_le _ _
  · exact Nat.le_refl _

theorem popIfEmpty_ne_nil (h : segments ≠ []) : popIfEmpty segments ≠ [] := by
  unfold popIfEmpty
  split
  · next hempty => exact hempty.1
  · exact h

theorem shrinks_pop (h : nonEmpty segments ≠ []) :
    Shrinks segments (popSegment (popIfEmpty segments)) := by
  have hne : popIfEmpty segments ≠ [] := by
    intro hnil
    have hnames := nonEmpty_popIfEmpty segments
    rw [hnil] at hnames
    exact h hnames.symm
  have hlength := length_popIfEmpty segments
  unfold popSegment
  split
  · next hdrop =>
    obtain ⟨segment, hsegment⟩ : ∃ segment, popIfEmpty segments = [segment] := by
      have hone : (popIfEmpty segments).length = 1 := by
        have hlen := congrArg List.length hdrop
        rw [length_dropLast, length_nil] at hlen
        have hpos := length_pos_iff.2 hne
        omega
      exact length_eq_one_iff.1 hone
    by_cases hsame : segments = [segment]
    · refine .inr ⟨⟨segment, ?_, hsame⟩, rfl⟩
      rintro rfl
      rw [hsame] at h
      exact h rfl
    · refine .inl ?_
      have hlen : segments.length ≠ 1 := by
        intro hone
        obtain ⟨other, hother⟩ := length_eq_one_iff.1 hone
        rw [hother] at hsegment hsame
        unfold popIfEmpty at hsegment
        rw [if_neg (by simp)] at hsegment
        exact hsame hsegment
      rw [hsegment] at hlength
      simp only [length_cons, length_nil] at hlength ⊢
      omega
  · refine .inl ?_
    have hpos := length_pos_iff.2 hne
    rw [length_dropLast]
    omega

theorem parent_eq_some (h : uri.parent = some up) :
    uri.opaqueFallbackBytes = none ∧ ∃ convention, uri.inferPathConvention = some convention ∧
      convention.anchorDepth < uri.url.names.length ∧
      up.url = { uri.url with segments := popSegment (popIfEmpty uri.url.pathSegments) } := by
  unfold PathUri.parent at h
  split at h
  · cases h
  · next hreadable =>
    obtain ⟨convention, hconvention, h⟩ := Option.bind_eq_some_iff.1 h
    dsimp only at h
    split at h
    · cases h
    · next hdepth =>
      cases h
      exact ⟨Option.not_isSome_iff_eq_none.1 hreadable, convention, hconvention, by omega, rfl⟩

theorem isParent_of_parent (h : uri.parent = some up) : uri.IsParent up := by
  obtain ⟨-, convention, -, hdepth, hurl⟩ := parent_eq_some h
  have hraw : up.url.pathSegments = popSegment (popIfEmpty uri.url.pathSegments) := by
    rw [hurl]
    exact pathSegments_of_segments (popSegment_ne_nil _)
  have hnames : up.url.names = nonEmpty (popIfEmpty uri.url.pathSegments).dropLast := by
    rw [FileUrl.names, hraw, nonEmpty_popSegment]
  have hdrop := nonEmpty_dropLast (popIfEmpty uri.url.pathSegments)
  rw [nonEmpty_popIfEmpty, ← hnames] at hdrop
  refine ⟨by rw [hurl], ?_, hdrop.1, hdrop.2⟩
  rw [hraw]
  apply shrinks_pop
  intro hnil
  rw [FileUrl.names, hnil] at hdepth
  cases hdepth

theorem PathUri.Plain.parent (hplain : uri.Plain) (h : uri.parent = some up) : up.Plain := by
  obtain ⟨-, -, -, -, hurl⟩ := parent_eq_some h
  have hfree : NulFree up.url.segments := by
    rw [hurl]
    exact (nulFree_pathSegments (nulFree hplain.valid hplain.notOpaque)).pop
  have hwellFormed : up.url.WellFormed := by
    rw [hurl]
    exact hplain.wellFormed.pop
  exact ⟨hwellFormed, valid_of_nulFree hfree, notOpaque_of_nulFree hwellFormed.host hfree⟩

theorem inferPathConvention_parent (hplain : uri.Plain) (h : uri.parent = some up) :
    up.inferPathConvention = uri.inferPathConvention := by
  have hup := isParent_of_parent h
  obtain ⟨-, convention, hconvention, hdepth, -⟩ := parent_eq_some h
  rw [infer_of_notOpaque (hplain.parent h).notOpaque, hup.host]
  rw [infer_of_notOpaque hplain.notOpaque] at hconvention ⊢
  cases hhost : uri.url.host with
  | some host => rfl
  | none =>
    rw [hhost] at hconvention
    simp only [Option.isSome_none, Bool.false_eq_true, if_false] at hconvention ⊢
    cases hnames : up.url.names with
    | cons first names =>
      obtain ⟨more, hmore⟩ := hup.names
      rw [← hmore, hnames]
      rfl
    | nil =>
      -- Only the root of POSIX has no name: a drive is never taken off.
      have hlength := hup.length
      rw [hnames, length_nil] at hlength
      have hposix : convention = .posix := by
        cases convention with
        | posix => rfl
        | windows =>
          have hanchor : PathConvention.windows.anchorDepth = 1 := rfl
          omega
      rw [hconvention, hposix]
      rfl

/-! ## All ancestors -/

/-- What each parent makes smaller. -/
def FileUrl.weight (url : FileUrl) : ℕ :=
  url.pathSegments.length + if url.pathSegments = [[]] then 0 else 1

theorem PathUri.IsParent.weight_lt (h : uri.IsParent up) : up.url.weight < uri.url.weight := by
  unfold FileUrl.weight
  rcases h.shrinks with hlt | ⟨⟨segment, hne, hone⟩, hroot⟩
  · have hroot : uri.url.pathSegments ≠ [[]] := by
      intro hroot
      have hpos := length_pos_iff.2 (pathSegments_ne_nil up.url)
      rw [hroot, length_singleton] at hlt
      omega
    rw [if_neg hroot]
    split <;> omega
  · rw [hroot, hone, if_pos rfl, if_neg (by simpa using hne)]
    simp

theorem ancestors_succ (h : uri.parent = some up) (n : ℕ) :
    uri.ancestors (n + 1) = up.ancestors n := by
  unfold PathUri.ancestors
  rw [successors, h]

theorem ancestors_succ_of_none (h : uri.parent = none) (n : ℕ) : uri.ancestors (n + 1) = none := by
  unfold PathUri.ancestors
  rw [successors, h]

/-- What all ancestors share. -/
theorem ancestors_spec {ancestor : PathUri} {n : ℕ} (h : uri.ancestors n = some ancestor) :
    ancestor.url.host = uri.url.host ∧ ancestor.url.names <+: uri.url.names := by
  induction n generalizing uri with
  | zero =>
    cases h
    exact ⟨rfl, prefix_rfl⟩
  | succ n ih =>
    cases hup : uri.parent with
    | none =>
      rw [ancestors_succ_of_none hup] at h
      cases h
    | some up =>
      rw [ancestors_succ hup] at h
      obtain ⟨hhost, hnames⟩ := ih h
      have hparent := isParent_of_parent hup
      exact ⟨hhost.trans hparent.host, hnames.trans hparent.names⟩

/-- Each ancestor is the parent of the one before. -/
theorem shrinks_ancestors {ancestor next : PathUri} {n : ℕ} (h : uri.ancestors n = some ancestor)
    (hnext : uri.ancestors (n + 1) = some next) :
    Shrinks ancestor.url.pathSegments next.url.pathSegments := by
  induction n generalizing uri with
  | zero =>
    obtain rfl : uri = ancestor := Option.some_inj.1 h
    cases hup : uri.parent with
    | none =>
      rw [ancestors_succ_of_none hup] at hnext
      cases hnext
    | some up =>
      rw [ancestors_succ hup] at hnext
      cases hnext
      exact (isParent_of_parent hup).shrinks
  | succ n ih =>
    cases hup : uri.parent with
    | none =>
      rw [ancestors_succ_of_none hup] at h
      cases h
    | some up =>
      rw [ancestors_succ hup] at h hnext
      exact ih h hnext

/-- The ancestors end at the URI that has the anchor only. -/
theorem ancestors_end (hplain : uri.Plain)
    (hconvention : uri.inferPathConvention = some convention) :
    ∃ n last, uri.ancestors n = some last ∧ uri.ancestors (n + 1) = none ∧
      last.url.names = uri.url.names.take convention.anchorDepth := by
  induction hweight : uri.url.weight using Nat.strong_induction_on generalizing uri with
  | _ weight ih =>
    cases hup : uri.parent with
    | none =>
      refine ⟨0, uri, rfl, ancestors_succ_of_none hup 0, ?_⟩
      have hdepth : uri.url.names.length ≤ convention.anchorDepth := by
        by_contra hdepth
        unfold PathUri.parent at hup
        rw [hplain.notOpaque, hconvention] at hup
        simp [hdepth] at hup
      rw [take_of_length_le hdepth]
    | some up =>
      have hparent := isParent_of_parent hup
      obtain ⟨-, other, hother, hdepth, -⟩ := parent_eq_some hup
      obtain rfl : other = convention := Option.some_inj.1 (hother.symm.trans hconvention)
      obtain ⟨n, last, hlast, hend, hnames⟩ :=
        ih up.url.weight (hweight ▸ hparent.weight_lt) (hplain.parent hup)
          ((inferPathConvention_parent hplain hup).trans hconvention) rfl
      refine ⟨n + 1, last, (ancestors_succ hup n).trans hlast, (ancestors_succ hup _).trans hend, ?_⟩
      obtain ⟨more, hmore⟩ := hparent.names
      have hlength := hparent.length
      rw [hnames, ← hmore, take_append_of_le_length (by omega)]

/-- No name between those of the URI and the anchor is left out. -/
theorem exists_ancestor {names : List Str} (hplain : uri.Plain)
    (hconvention : uri.inferPathConvention = some convention) (hpre : names <+: uri.url.names)
    (hanchor : convention.anchorDepth ≤ names.length) :
    ∃ n ancestor, uri.ancestors n = some ancestor ∧ ancestor.url.names = names := by
  induction hweight : uri.url.weight using Nat.strong_induction_on generalizing uri with
  | _ weight ih =>
    by_cases hsame : names.length = uri.url.names.length
    · exact ⟨0, uri, rfl, (hpre.eq_of_length hsame).symm⟩
    · have hlt : names.length < uri.url.names.length :=
        Nat.lt_of_le_of_ne hpre.length_le hsame
      obtain ⟨up, hup⟩ : ∃ up, uri.parent = some up := by
        unfold PathUri.parent
        rw [hplain.notOpaque, hconvention]
        have hdepth : ¬ uri.url.names.length ≤ convention.anchorDepth := by omega
        simp [hdepth]
      have hparent := isParent_of_parent hup
      have hlength := hparent.length
      have hpre' : names <+: up.url.names :=
        prefix_of_prefix_length_le hpre hparent.names (by omega)
      obtain ⟨n, ancestor, hancestor, hnames⟩ :=
        ih up.url.weight (hweight ▸ hparent.weight_lt) (hplain.parent hup)
          ((inferPathConvention_parent hplain hup).trans hconvention) hpre' rfl
      exact ⟨n + 1, ancestor, (ancestors_succ hup n).trans hancestor, hnames⟩

/-! ## Containment and ancestors -/

/-- No segment has an encoded separator of the convention inferred. -/
def PathUri.Separable (uri : PathUri) : Prop :=
  containmentPathSegments uri.url (uri.inferPathConvention.getD .posix) ≠ none

theorem containmentPathSegments_eq_some
    (h : containmentPathSegments url convention = some segments) : segments = url.names := by
  unfold containmentPathSegments at h
  split at h
  · cases h
  · exact (Option.some_inj.1 h).symm

theorem PathUri.Separable.eq_some (h : uri.Separable) :
    containmentPathSegments uri.url (uri.inferPathConvention.getD .posix) = some uri.url.names := by
  cases hsegments : containmentPathSegments uri.url (uri.inferPathConvention.getD .posix) with
  | none => exact absurd hsegments h
  | some segments => rw [containmentPathSegments_eq_some hsegments]

theorem startsWith_of_ne (hne : uri.toStr ≠ base.toStr) : uri.startsWith base = true ↔
      (uri.opaqueFallbackBytes = none ∧ base.opaqueFallbackBytes = none) ∧
        uri.url.host = base.url.host ∧ (uri.Separable ∧ base.Separable) ∧
        base.url.names <+: uri.url.names := by
  unfold PathUri.startsWith PathUri.Separable
  rw [if_neg hne]
  split
  · next h =>
    refine ⟨nofun, fun hall => ?_⟩
    rw [hall.1.1, hall.1.2] at h
    cases h
  · next h =>
    rw [Bool.or_eq_true, not_or] at h
    have hreadable : uri.opaqueFallbackBytes = none ∧ base.opaqueFallbackBytes = none :=
      ⟨Option.not_isSome_iff_eq_none.1 h.1, Option.not_isSome_iff_eq_none.1 h.2⟩
    split
    · next hhost => exact ⟨nofun, fun hall => absurd hall.2.1 hhost⟩
    · next hhost =>
      split
      · next hpath hbase =>
        rw [hpath, hbase, containmentPathSegments_eq_some hpath,
          containmentPathSegments_eq_some hbase, isPrefixOf_iff_prefix]
        simp [hreadable, not_not.1 hhost]
      · next hnone =>
        refine ⟨nofun, fun ⟨_, _, ⟨hpath, hbase⟩, _⟩ => ?_⟩
        exact (hnone _ _ (PathUri.Separable.eq_some hpath) (PathUri.Separable.eq_some hbase)).elim

/-- Both URIs have an empty host or neither has one. -/
def PathUri.Alike (uri other : PathUri) : Prop := uri.url.host = some [] ↔ other.url.host = some []

instance (uri other : PathUri) : Decidable (uri.Alike other) := inferInstanceAs (Decidable (_ ↔ _))

theorem PathUri.Alike.eq {other : PathUri} (halike : uri.Alike other) (h : uri.url.WellFormed)
    (h' : other.url.WellFormed) (heq : uri.toStr = other.toStr) : uri = other :=
  PathUri.ext (eq_of_asStr_eq h h' halike heq)

theorem startsWith_refl (uri : PathUri) : uri.startsWith uri = true := if_pos rfl

theorem startsWith_trans {middle : PathUri} (hwell : uri.url.WellFormed)
    (hwell' : middle.url.WellFormed) (hwell'' : base.url.WellFormed) (halike : uri.Alike middle)
    (halike' : middle.Alike base) (h : uri.startsWith middle = true)
    (h' : middle.startsWith base = true) : uri.startsWith base = true := by
  by_cases hfirst : uri.toStr = middle.toStr
  · rwa [halike.eq hwell hwell' hfirst]
  · by_cases hlast : middle.toStr = base.toStr
    · rwa [← halike'.eq hwell' hwell'' hlast]
    · by_cases hboth : uri.toStr = base.toStr
      · exact if_pos hboth
      · obtain ⟨⟨hreadable, -⟩, hhost, ⟨hsep, -⟩, hnames⟩ := (startsWith_of_ne hfirst).1 h
        obtain ⟨⟨-, hreadable'⟩, hhost', ⟨-, hsep'⟩, hnames'⟩ := (startsWith_of_ne hlast).1 h'
        exact (startsWith_of_ne hboth).2
          ⟨⟨hreadable, hreadable'⟩, hhost.trans hhost', ⟨hsep, hsep'⟩, hnames'.trans hnames⟩

theorem startsWith_iff_ancestor (hplain : uri.Plain) (hbase : base.Plain) (halike : uri.Alike base)
    (hconvention : uri.inferPathConvention = some convention) (hsep : uri.Separable)
    (hsep' : base.Separable) (hanchor : convention.anchorDepth ≤ base.url.names.length) :
    uri.startsWith base = true ↔ ∃ n ancestor, uri.ancestors n = some ancestor ∧
      ancestor.url.host = base.url.host ∧ ancestor.url.names = base.url.names := by
  constructor
  · intro h
    by_cases hsame : uri.toStr = base.toStr
    · have heq := halike.eq hplain.wellFormed hbase.wellFormed hsame
      exact ⟨0, uri, rfl, by rw [heq], by rw [heq]⟩
    · obtain ⟨-, hhost, -, hnames⟩ := (startsWith_of_ne hsame).1 h
      obtain ⟨n, ancestor, hancestor, heq⟩ := exists_ancestor hplain hconvention hnames hanchor
      exact ⟨n, ancestor, hancestor, (ancestors_spec hancestor).1.trans hhost, heq⟩
  · rintro ⟨n, ancestor, hancestor, hhost, hnames⟩
    obtain ⟨hhost', hnames'⟩ := ancestors_spec hancestor
    by_cases hsame : uri.toStr = base.toStr
    · exact if_pos hsame
    · rw [hnames] at hnames'
      exact (startsWith_of_ne hsame).2 ⟨⟨hplain.notOpaque, hbase.notOpaque⟩, hhost'.symm.trans hhost,
        ⟨hsep, hsep'⟩, hnames'⟩

/-- **Ancestors and containment.** A URI starts with another if that is, up to empty segments, one of
its ancestors; these are finitely many, shrink, and end at the anchor; and `starts_with` is a
preorder on the URIs that are alike. -/
theorem startsWith_and_ancestors {uri base : PathUri} {convention : PathConvention}
    (hplain : uri.Plain) (hbase : base.Plain) (halike : uri.Alike base)
    (hconvention : uri.inferPathConvention = some convention) (hsep : uri.Separable)
    (hsep' : base.Separable) (hanchor : convention.anchorDepth ≤ base.url.names.length) :
    (uri.startsWith base = true ↔ ∃ n ancestor, uri.ancestors n = some ancestor ∧
      ancestor.url.host = base.url.host ∧ ancestor.url.names = base.url.names) ∧
    (∃ n last, uri.ancestors n = some last ∧ uri.ancestors (n + 1) = none ∧
      last.url.names = uri.url.names.take convention.anchorDepth) ∧
    (∀ n ancestor next, uri.ancestors n = some ancestor → uri.ancestors (n + 1) = some next →
      Shrinks ancestor.url.pathSegments next.url.pathSegments) ∧
    (∀ any : PathUri, any.startsWith any = true) ∧
    ∀ first second third : PathUri, first.url.WellFormed → second.url.WellFormed →
      third.url.WellFormed → first.Alike second → second.Alike third →
      first.startsWith second = true → second.startsWith third = true →
        first.startsWith third = true :=
  ⟨startsWith_iff_ancestor hplain hbase halike hconvention hsep hsep' hanchor,
    ancestors_end hplain hconvention, fun _ _ _ => shrinks_ancestors, startsWith_refl,
    fun _ _ _ => startsWith_trans⟩

/-- `file:///C:/a//b/` and `file:///C:/a`. -/
def nestedUri : PathUri where
  url := ⟨none, ["C:".toList, "a".toList, [], "b".toList, []]⟩
  host_ne := nofun

def containerUri : PathUri where
  url := ⟨none, ["C:".toList, "a".toList]⟩
  host_ne := nofun

instance (url : FileUrl) : Decidable url.WellFormed :=
  decidable_of_iff ((∀ host ∈ url.host, '/' ∉ host) ∧ ∀ segment ∈ url.segments, '/' ∉ segment)
    ⟨fun h => ⟨h.1, h.2⟩, fun h => ⟨h.host, h.segments⟩⟩

theorem startsWith_and_ancestors_nested :
    (nestedUri.startsWith containerUri = true ↔ ∃ n ancestor, nestedUri.ancestors n = some ancestor ∧
      ancestor.url.host = none ∧ ancestor.url.names = ["C:".toList, "a".toList]) ∧
    (∃ n last, nestedUri.ancestors n = some last ∧ nestedUri.ancestors (n + 1) = none ∧
      last.url.names = ["C:".toList]) ∧
    (∀ n ancestor next, nestedUri.ancestors n = some ancestor →
      nestedUri.ancestors (n + 1) = some next →
      Shrinks ancestor.url.pathSegments next.url.pathSegments) ∧
    (∀ any : PathUri, any.startsWith any = true) ∧
    ∀ first second third : PathUri, first.url.WellFormed → second.url.WellFormed →
      third.url.WellFormed → first.Alike second → second.Alike third →
      first.startsWith second = true → second.startsWith third = true →
        first.startsWith third = true :=
  have hnested : nestedUri.Plain := ⟨by decide +kernel, by decide +kernel, by decide +kernel⟩
  have hcontainer : containerUri.Plain := ⟨by decide +kernel, by decide +kernel, by decide +kernel⟩
  have hconvention : nestedUri.inferPathConvention = some .windows := by decide +kernel
  have hsep : nestedUri.Separable := by
    unfold PathUri.Separable
    decide +kernel
  have hsep' : containerUri.Separable := by
    unfold PathUri.Separable
    decide +kernel
  startsWith_and_ancestors hnested hcontainer (by decide +kernel) hconvention hsep hsep'
    (by decide +kernel)

/-- `file:///a`. -/
def topUri : PathUri where
  url := ⟨none, ["a".toList]⟩
  host_ne := nofun

/-- What `\\localhost\C:\x` becomes: the text is that of `file:///C:/x`. -/
def hostlessUri : PathUri where
  url := ⟨some [], ["C:".toList, "x".toList]⟩
  host_ne := by decide +kernel

/-- The parent of a URI with one segment has one segment too, the empty one of the root; and a URI
that has lost its host is equal to `file:///C:/x`, but not below the `file:///C:/` that this is
below. -/
theorem parent_same_length_and_not_startsWith_trans :
    (¬ ∀ uri : PathUri, uri.Plain → ∀ n ancestor next,
      uri.ancestors n = some ancestor → uri.ancestors (n + 1) = some next →
        next.url.pathSegments.length < ancestor.url.pathSegments.length) ∧
    ¬ ∀ first second third : PathUri, first.url.WellFormed → second.url.WellFormed →
      third.url.WellFormed → first.startsWith second = true → second.startsWith third = true →
        first.startsWith third = true := by
  constructor
  · intro h
    have hplain : topUri.Plain := ⟨by decide +kernel, by decide +kernel, by decide +kernel⟩
    have hup : topUri.parent = some ⟨⟨none, [[]]⟩, nofun⟩ := by decide +kernel
    have hlt := h topUri hplain 0 topUri _ rfl (ancestors_succ hup 0)
    exact Nat.lt_irrefl 1 hlt
  · intro h
    have hthird := h hostlessUri ⟨⟨none, ["C:".toList, "x".toList]⟩, nofun⟩
      ⟨⟨none, ["C:".toList, []]⟩, nofun⟩ (by decide +kernel) (by decide +kernel) (by decide +kernel)
      (by decide +kernel) (by decide +kernel)
    exact absurd hthird (by decide +kernel)

end Codex.NativePath
