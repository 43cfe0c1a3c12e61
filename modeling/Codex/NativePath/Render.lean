import Codex.NativePath.Parse

/-!
# Rendering path URIs

`LegacyAppPathString::from_path_uri`: the native text of a URI under a convention. A URI
whose shape does not fit the convention is refused: a host under POSIX, and under Windows
a host without a share or a path without a drive.
-/

namespace Codex.NativePath

open List Codex.Text

inductive LegacyAppPathStringError where
  | opaqueFallback (path : Str)
  | incompatibleConvention (path : Str) (convention : PathConvention)
  | invalidNativePath (path : Str) (convention : Option PathConvention)
  deriving DecidableEq

def PathUri.toStr (uri : PathUri) : Str := uri.url.asStr

def incompatibleConvention (uri : PathUri) (convention : PathConvention) :
    LegacyAppPathStringError :=
  .incompatibleConvention uri.toStr convention

/-! ## Opaque paths -/

/-- `chunks_exact(2)` read by `u16::from_le_bytes`. -/
def fromLeBytes : List ℕ → List ℕ
  | low :: high :: rest => (low + 256 * high) :: fromLeBytes rest
  | _ => []

def isWideSeparator (unit : ℕ) : Bool := unit == 0x5C || unit == 0x2F

def hasWideDriveRoot : List ℕ → Bool
  | drive :: colon :: separator :: _ =>
    ((0x41 ≤ drive && drive ≤ 0x5A) || (0x61 ≤ drive && drive ≤ 0x7A)) && colon == 0x3A &&
      isWideSeparator separator
  | _ => false

def hasWideNamespaceOrUncRoot : List ℕ → Bool
  | first :: second :: _ => isWideSeparator first && isWideSeparator second
  | _ => false

def renderWindowsOpaqueFallback (pathBytes : List ℕ) : Option Str :=
  if pathBytes.length % 2 ≠ 0 then none
  else
    let pathWide := fromLeBytes pathBytes
    if hasWideDriveRoot pathWide || hasWideNamespaceOrUncRoot pathWide then
      some (fromUtf16Lossy pathWide)
    else none

def renderOpaqueFallback (uri : PathUri) (pathBytes : List ℕ) (convention : PathConvention) :
    Except LegacyAppPathStringError Str :=
  let rendered := match convention with
    | .posix => if pathBytes.head? = some slash then some (fromUtf8Lossy pathBytes) else none
    | .windows => renderWindowsOpaqueFallback pathBytes
  match rendered with
  | some text => .ok text
  | none => .error (.opaqueFallback uri.toStr)

/-! ## File paths -/

def renderPosixPath (uri : PathUri) : Except LegacyAppPathStringError Str :=
  if uri.url.host.isSome then .error (incompatibleConvention uri .posix)
  else .ok (uri.url.segments.flatMap fun segment => '/' :: decodeNativeSegment segment)

def isWindowsDrive : Str → Bool
  | [drive, colon] => isAsciiAlphabetic drive && colon == ':'
  | _ => false

/-- Both `file:///C:` and `file:///C:/` are the drive's root, never the drive-relative `C:`. -/
def closeDriveRoot (rendered : Str) : Str :=
  match rendered with
  | [first, colon] => if first.toNat < 0x80 && colon == ':' then rendered ++ ['\\'] else rendered
  | _ => rendered

def renderWindowsPath (uri : PathUri) : Except LegacyAppPathStringError Str :=
  let below (segments : List Str) : Str :=
    segments.flatMap fun segment => '\\' :: decodeNativeSegment segment
  match uri.url.host, uri.url.segments with
  | _, [] => .error (incompatibleConvention uri .windows)
  | some host, share :: segments =>
    let share := decodeNativeSegment share
    if share = [] then .error (incompatibleConvention uri .windows)
    else .ok (closeDriveRoot ('\\' :: '\\' :: (host ++ '\\' :: (share ++ below segments))))
  | none, drive :: segments =>
    let drive := decodeNativeSegment drive
    if isWindowsDrive drive then .ok (closeDriveRoot (drive ++ below segments))
    else .error (incompatibleConvention uri .windows)

def fromPathUri (uri : PathUri) (convention : PathConvention) :
    Except LegacyAppPathStringError Str :=
  match uri.opaqueFallbackBytes with
  | some pathBytes => renderOpaqueFallback uri pathBytes convention
  | none =>
    match convention with
    | .posix => renderPosixPath uri
    | .windows => renderWindowsPath uri

def toPathUri (crate : UrlCrate) (text : Str) (convention : PathConvention) :
    Except LegacyAppPathStringError PathUri :=
  match PathUri.fromAbsoluteNativePath crate text convention with
  | some uri => .ok uri
  | none => .error (.invalidNativePath text (some convention))

/-- The URI is rendered, and its text is parsed to an equal URI. -/
def RoundTrips (crate : UrlCrate) (convention : PathConvention) (uri : PathUri) : Prop :=
  ∃ text again, fromPathUri uri convention = .ok text ∧
    toPathUri crate text convention = .ok again ∧ again.toStr = uri.toStr

variable {crate : UrlCrate} {convention : PathConvention} {uri : PathUri}

theorem roundTrips_of_ok {text : Str} (h : fromPathUri uri convention = .ok text) :
    RoundTrips crate convention uri ↔
      ∃ again, toPathUri crate text convention = .ok again ∧ again.toStr = uri.toStr := by
  constructor
  · rintro ⟨text', again, htext, hagain⟩
    rw [h] at htext
    cases htext
    exact ⟨again, hagain⟩
  · rintro ⟨again, hagain⟩
    exact ⟨text, again, h, hagain⟩

theorem not_roundTrips_of_error {error : LegacyAppPathStringError}
    (h : fromPathUri uri convention = .error error) : ¬ RoundTrips crate convention uri := by
  rintro ⟨text, again, htext, -⟩
  rw [h] at htext
  cases htext

theorem toPathUri_eq_ok {text : Str} : toPathUri crate text convention = .ok uri ↔
      PathUri.fromAbsoluteNativePath crate text convention = some uri := by
  unfold toPathUri
  split
  · next h => simp [h]
  · next h => simp [h]

theorem fromPathUri_of_some {pathBytes : List ℕ} (h : uri.opaqueFallbackBytes = some pathBytes)
    (convention : PathConvention) :
    fromPathUri uri convention = renderOpaqueFallback uri pathBytes convention := by
  delta fromPathUri
  rw [h]

theorem fromPathUri_posix (h : uri.opaqueFallbackBytes = none) :
    fromPathUri uri .posix = renderPosixPath uri := by
  delta fromPathUri
  rw [h]

theorem fromPathUri_windows (h : uri.opaqueFallbackBytes = none) :
    fromPathUri uri .windows = renderWindowsPath uri := by
  delta fromPathUri
  rw [h]

/-! ## Opaque paths are read back -/

theorem fromLeBytes_toLeBytes (units : List ℕ) : fromLeBytes (units.flatMap toLeBytes) = units := by
  induction units with
  | nil => rfl
  | cons unit units ih =>
    rw [flatMap_cons, toLeBytes, cons_append, cons_append, nil_append,
      fromLeBytes, ih, show unit % 256 + 256 * (unit / 256) = unit by omega]

theorem utf16Units_lt (c : Char) : ∀ unit ∈ utf16Units c, unit < 0x10000 := by
  have hvalid := toNat_valid c
  unfold utf16Units
  intro unit hunit
  split_ifs at hunit <;> simp only [mem_cons, not_mem_nil, or_false] at hunit <;> omega

theorem windowsOpaqueBytes_lt (path : Str) :
    ∀ byte ∈ (encodeUtf16 path).flatMap toLeBytes, byte < 256 := by
  intro byte hbyte
  obtain ⟨unit, hunit, hbyte⟩ := mem_flatMap.1 hbyte
  obtain ⟨c, -, hc⟩ := mem_flatMap.1 hunit
  have hlt := utf16Units_lt c unit hc
  simp only [toLeBytes, mem_cons, not_mem_nil, or_false] at hbyte
  omega

theorem encodeUtf16_small {c : Char} (h : c.toNat < 0x10000) (s : Str) :
    encodeUtf16 (c :: s) = c.toNat :: encodeUtf16 s := by
  rw [encodeUtf16, flatMap_cons, utf16Units, if_pos h]
  rfl

theorem encodeUtf16_large {c : Char} (h : ¬ c.toNat < 0x10000) (s : Str) :
    ∃ high low, encodeUtf16 (c :: s) = high :: low :: encodeUtf16 s ∧ 0xD800 ≤ high := by
  rw [encodeUtf16, flatMap_cons, utf16Units, if_neg h]
  exact ⟨_, _, rfl, by omega⟩

/-- The tests hold of the first elements, one each. -/
def leads {α : Type} : List (α → Bool) → List α → Bool
  | [], _ => true
  | _ :: _, [] => false
  | test :: tests, x :: xs => test x && leads tests xs

/-- Tests that no surrogate passes see the characters in the units. -/
theorem leads_encodeUtf16 {tests : List (ℕ → Bool)}
    (h : ∀ test ∈ tests, ∀ unit, 0xD800 ≤ unit → test unit = false) (s : Str) :
    leads tests (encodeUtf16 s) = leads (tests.map fun test c => test c.toNat) s := by
  induction tests generalizing s with
  | nil => cases s <;> rfl
  | cons test tests ih =>
    rw [forall_mem_cons] at h
    match s with
    | [] => rfl
    | c :: s =>
      by_cases hc : c.toNat < 0x10000
      · rw [encodeUtf16_small hc, leads, ih h.2]
        rfl
      · obtain ⟨high, low, hunits, hhigh⟩ := encodeUtf16_large hc s
        rw [hunits, leads, map_cons, leads, h.1 high hhigh, h.1 c.toNat (by omega),
          Bool.false_and, Bool.false_and]

theorem isWideSeparator_large {unit : ℕ} (h : 0xD800 ≤ unit) : isWideSeparator unit = false := by
  simp only [isWideSeparator, Bool.or_eq_false_iff, beq_eq_false_iff_ne]
  omega

def isWideAlphabetic (unit : ℕ) : Bool :=
  (0x41 ≤ unit && unit ≤ 0x5A) || (0x61 ≤ unit && unit ≤ 0x7A)

theorem isWideSeparator_toNat (c : Char) : isWideSeparator c.toNat = isWindowsSeparator c := by
  rw [Bool.eq_iff_iff]
  simp only [isWideSeparator, isWindowsSeparator, Bool.or_eq_true, beq_iff_eq, ← Char.toNat_inj]
  rfl

theorem isWideAlphabetic_toNat (c : Char) : isWideAlphabetic c.toNat = isAsciiAlphabetic c := by
  rw [Bool.eq_iff_iff]
  simp only [isWideAlphabetic, isAsciiAlphabetic, Bool.or_eq_true, Bool.and_eq_true,
    decide_eq_true_eq, Char.le_def, UInt32.le_iff_toNat_le]
  exact Or.comm

theorem isWideColon_toNat (c : Char) : (c.toNat == 0x3A) = (c == ':') := by
  rw [Bool.eq_iff_iff, beq_iff_eq, beq_iff_eq, ← Char.toNat_inj]
  rfl

theorem hasWideNamespaceOrUncRoot_encodeUtf16 (path : Str) :
    hasWideNamespaceOrUncRoot (encodeUtf16 path) = hasUncRoot path := by
  have hwide : ∀ units, hasWideNamespaceOrUncRoot units =
      leads [isWideSeparator, isWideSeparator] units := by
    intro units
    match units with
    | [] => rfl
    | [_] => simp [hasWideNamespaceOrUncRoot, leads]
    | _ :: _ :: _ => simp [hasWideNamespaceOrUncRoot, leads]
  rw [hwide, leads_encodeUtf16]
  · match path with
    | [] => rfl
    | [_] => simp [hasUncRoot, leads]
    | _ :: _ :: _ => simp [hasUncRoot, leads, isWideSeparator_toNat]
  · simp only [forall_mem_cons]
    exact ⟨fun unit h => isWideSeparator_large h, fun unit h => isWideSeparator_large h, nofun⟩

theorem hasWideDriveRoot_encodeUtf16 (path : Str) :
    hasWideDriveRoot (encodeUtf16 path) = hasDriveRoot path := by
  have hwide : ∀ units, hasWideDriveRoot units =
      leads [isWideAlphabetic, (· == 0x3A), isWideSeparator] units := by
    intro units
    match units with
    | [] => rfl
    | [_] => simp [hasWideDriveRoot, leads]
    | [_, _] => simp [hasWideDriveRoot, leads]
    | _ :: _ :: _ :: _ => simp [hasWideDriveRoot, leads, isWideAlphabetic, Bool.and_assoc]
  rw [hwide, leads_encodeUtf16]
  · match path with
    | [] => rfl
    | [_] => simp [hasDriveRoot, leads]
    | [_, _] => simp [hasDriveRoot, leads]
    | _ :: _ :: _ :: _ =>
      simp only [map_cons, map_nil, hasDriveRoot, leads, isWideAlphabetic_toNat,
        isWideColon_toNat, isWideSeparator_toNat, Bool.and_true, Bool.and_assoc]
  · simp only [forall_mem_cons, isWideAlphabetic, Bool.or_eq_false_iff, Bool.and_eq_false_iff,
      decide_eq_false_iff_not, beq_eq_false_iff_ne]
    refine ⟨fun unit h => ?_, fun unit h => ?_, fun unit h => isWideSeparator_large h, nofun⟩ <;>
      omega

/-- The text a Windows path is opaque for is rendered when it is rooted, and refused otherwise. -/
theorem renderWindowsOpaqueFallback_eq (path : Str) :
    renderWindowsOpaqueFallback ((encodeUtf16 path).flatMap toLeBytes) =
      if hasDriveRoot path || hasUncRoot path then some path else none := by
  have heven : ((encodeUtf16 path).flatMap toLeBytes).length % 2 = 0 := by
    generalize encodeUtf16 path = units
    induction units with
    | nil => rfl
    | cons unit units ih =>
      rw [flatMap_cons, length_append, toLeBytes]
      simp only [length_cons, length_nil]
      omega
  unfold renderWindowsOpaqueFallback
  rw [if_neg (by omega)]
  simp only [fromLeBytes_toLeBytes, hasWideDriveRoot_encodeUtf16,
    hasWideNamespaceOrUncRoot_encodeUtf16, fromUtf16Lossy_encodeUtf16]

end Codex.NativePath
