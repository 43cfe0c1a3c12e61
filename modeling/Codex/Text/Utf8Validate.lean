import Codex.Text.Utf

/-!
# Validated UTF-8

`std::str::from_utf8`: a text, or the place where the bytes stop being one. An error without
a length says that the bytes end inside a character.
-/

namespace Codex.Text

/-- `Utf8Error`. -/
structure Utf8Error where
  validUpTo : ℕ
  errorLen : Option ℕ
  deriving DecidableEq

/-- Validation from between two characters, or inside a sequence of which `read` bytes are read. -/
def utf8Validate (validUpTo : ℕ) : Option (Utf8Sequence × ℕ) → List ℕ → Except Utf8Error Str
  | none, [] => .ok []
  | some _, [] => .error ⟨validUpTo, none⟩
  | none, byte :: bytes =>
    match (utf8Lead byte).2 with
    | some sequence => utf8Validate validUpTo (some (sequence, 1)) bytes
    | none =>
      if byte < 0x80 then (Char.ofNat byte :: ·) <$> utf8Validate (validUpTo + 1) none bytes
      else .error ⟨validUpTo, some 1⟩
  | some (sequence, read), byte :: bytes =>
    if sequence.lower ≤ byte && byte ≤ sequence.upper then
      let codePoint := sequence.codePoint * 0x40 + (byte - 0x80)
      if sequence.needed ≤ 1 then
        (Char.ofNat codePoint :: ·) <$> utf8Validate (validUpTo + (read + 1)) none bytes
      else
        utf8Validate validUpTo (some (⟨sequence.needed - 1, codePoint, 0x80, 0xBF⟩, read + 1)) bytes
    else .error ⟨validUpTo, some read⟩

/-- `std::str::from_utf8`. -/
def fromUtf8 (bytes : List ℕ) : Except Utf8Error Str := utf8Validate 0 none bytes

variable {sequence : Utf8Sequence} {tail : List ℕ} {c : Char} {error : Utf8Error}

/-! ## A text is valid -/

theorem utf8Validate_tail (h : Utf8Tail sequence tail c) (validUpTo read : ℕ) (bytes : List ℕ) :
    utf8Validate validUpTo (some (sequence, read)) (tail ++ bytes) =
      (c :: ·) <$> utf8Validate (validUpTo + (read + tail.length)) none bytes := by
  induction h generalizing read with
  | last hneeded hbyte =>
    simp only [List.cons_append, List.nil_append, utf8Validate, hbyte, decide_true, Bool.and_self,
      if_true, hneeded, le_refl, List.length_singleton]
  | more hneeded hbyte _ ih =>
    simp only [List.cons_append, utf8Validate, hbyte, decide_true, Bool.and_self, if_true,
      Nat.not_le.2 hneeded, if_false, ih, List.length_cons]
    rw [Nat.add_assoc read, Nat.add_comm 1]

theorem utf8Validate_cons (validUpTo : ℕ) (c : Char) (bytes : List ℕ) :
    utf8Validate validUpTo none (utf8Bytes c ++ bytes) =
      (c :: ·) <$> utf8Validate (validUpTo + (utf8Bytes c).length) none bytes := by
  rcases utf8Bytes_cases c with ⟨hone, hbytes⟩ | ⟨lead, sequence, tail, hbytes, hlead, htail⟩
  · have hlead : (utf8Lead c.toNat).2 = none := by rw [utf8Lead, if_pos hone]
    rw [hbytes, List.cons_append, utf8Validate, hlead]
    dsimp only
    rw [if_pos hone, Char.ofNat_toNat]
    rfl
  · rw [hbytes, List.cons_append, utf8Validate, hlead]
    dsimp only
    rw [utf8Validate_tail htail, List.length_cons, Nat.add_comm 1]

theorem utf8Validate_asBytes (validUpTo : ℕ) (s : Str) (bytes : List ℕ) :
    utf8Validate validUpTo none (asBytes s ++ bytes) =
      (s ++ ·) <$> utf8Validate (validUpTo + (asBytes s).length) none bytes := by
  induction s generalizing validUpTo with
  | nil =>
    show utf8Validate validUpTo none bytes = _ <$> utf8Validate validUpTo none bytes
    cases utf8Validate validUpTo none bytes <;> rfl
  | cons c s ih =>
    rw [asBytes_cons, List.append_assoc, utf8Validate_cons, ih, List.length_append, Nat.add_assoc]
    cases utf8Validate (validUpTo + ((utf8Bytes c).length + (asBytes s).length)) none bytes <;> rfl

/-- The bytes of a text are that text. -/
theorem fromUtf8_asBytes (s : Str) : fromUtf8 (asBytes s) = .ok s := by
  have h := utf8Validate_asBytes 0 s []
  rw [List.append_nil] at h
  rw [fromUtf8, h]
  show Except.ok (s ++ []) = _
  rw [List.append_nil]

/-! ## What is valid is a text -/

theorem utf8Lead_needed {lead : ℕ} (h : (utf8Lead lead).2 = some sequence) :
    1 ≤ sequence.needed ∧ sequence.needed ≤ 3 := by
  have hcases := utf8Lead_cases h
  omega

theorem Utf8Tail.of_one (h : Utf8Tail sequence tail c) (hneeded : sequence.needed = 1) :
    ∃ byte, tail = [byte] ∧ sequence.lower ≤ byte ∧ byte ≤ sequence.upper ∧
      c = Char.ofNat (sequence.codePoint * 0x40 + (byte - 0x80)) := by
  cases h with
  | last _ hbyte => exact ⟨_, rfl, hbyte.1, hbyte.2, rfl⟩
  | more hmore => omega

theorem Utf8Tail.of_more (h : Utf8Tail sequence tail c) (hneeded : 1 < sequence.needed) :
    ∃ byte bytes, tail = byte :: bytes ∧ sequence.lower ≤ byte ∧ byte ≤ sequence.upper ∧
      Utf8Tail ⟨sequence.needed - 1, sequence.codePoint * 0x40 + (byte - 0x80), 0x80, 0xBF⟩
        bytes c := by
  cases h with
  | last hlast => omega
  | more _ hbyte htail => exact ⟨_, _, rfl, hbyte.1, hbyte.2, htail⟩

theorem toNat_ofNat_valid {n : ℕ} (h : n < 0xD800 ∨ 0xDFFF < n ∧ n < 0x110000) :
    (Char.ofNat n).toNat = n := by
  rw [Char.ofNat, dif_pos (show n.isValidChar from h)]
  rfl

/-- A lead and what it asks for are the bytes of the character. -/
theorem utf8Bytes_of_lead {lead : ℕ} (hlead : (utf8Lead lead).2 = some sequence)
    (htail : Utf8Tail sequence tail c) : utf8Bytes c = lead :: tail := by
  obtain ⟨hlower, hupper, hcases⟩ := utf8Lead_cases hlead
  rcases hcases with ⟨hneeded, hle, hge, hpoint⟩ | ⟨hneeded, hle, hge, hpoint, hfirst, hlast⟩ |
    ⟨hneeded, hle, hge, hpoint, hfirst, hlast⟩
  · obtain ⟨b, rfl, hb, hb', hc⟩ := htail.of_one hneeded
    generalize hn : sequence.codePoint * 0x40 + (b - 0x80) = n at hc
    rw [hc, utf8Bytes, toNat_ofNat_valid (by omega)]
    rw [if_neg (by omega), if_pos (by omega)]
    refine List.cons_eq_cons.2 ⟨?_, List.cons_eq_cons.2 ⟨?_, rfl⟩⟩ <;> omega
  · obtain ⟨b, bytes, rfl, hb, hb', htail⟩ := htail.of_more (by omega)
    obtain ⟨b₁, rfl, hb₁, hb₁', hc⟩ := htail.of_one (by dsimp only; omega)
    dsimp only at hb₁ hb₁' hc
    generalize hn : (sequence.codePoint * 0x40 + (b - 0x80)) * 0x40 + (b₁ - 0x80) = n at hc
    rw [hc, utf8Bytes, toNat_ofNat_valid (by omega)]
    rw [if_neg (by omega), if_neg (by omega), if_pos (by omega)]
    refine List.cons_eq_cons.2 ⟨?_, List.cons_eq_cons.2 ⟨?_, List.cons_eq_cons.2 ⟨?_, rfl⟩⟩⟩ <;> omega
  · obtain ⟨b, bytes, rfl, hb, hb', htail⟩ := htail.of_more (by omega)
    obtain ⟨b₁, bytes, rfl, hb₁, hb₁', htail⟩ := htail.of_more (by dsimp only; omega)
    obtain ⟨b₂, rfl, hb₂, hb₂', hc⟩ := htail.of_one (by dsimp only; omega)
    dsimp only at hb₁ hb₁' hb₂ hb₂' hc
    generalize hn : ((sequence.codePoint * 0x40 + (b - 0x80)) * 0x40 + (b₁ - 0x80)) * 0x40 +
      (b₂ - 0x80) = n at hc
    rw [hc, utf8Bytes, toNat_ofNat_valid (by omega)]
    rw [if_neg (by omega), if_neg (by omega), if_neg (by omega)]
    refine List.cons_eq_cons.2 ⟨?_, List.cons_eq_cons.2 ⟨?_, List.cons_eq_cons.2 ⟨?_,
      List.cons_eq_cons.2 ⟨?_, rfl⟩⟩⟩⟩ <;> omega

theorem map_eq_error {α β : Type} {f : α → β} {x : Except Utf8Error α} :
    f <$> x = .error error ↔ x = .error error := by
  cases x with
  | error e => exact ⟨fun h => by cases h; rfl, fun h => by cases h; rfl⟩
  | ok a => exact ⟨nofun, nofun⟩

theorem utf8Bytes_ne_nil (c : Char) : utf8Bytes c ≠ [] := by
  rcases utf8Bytes_cases c with ⟨-, hbytes⟩ | ⟨lead, sequence, tail, hbytes, -⟩
  · rw [hbytes]
    exact List.cons_ne_nil _ _
  · rw [hbytes]
    exact List.cons_ne_nil _ _

/-- What invalidates the bytes does so whatever comes after. -/
theorem utf8Validate_append {start : Option (Utf8Sequence × ℕ)} {validUpTo u n : ℕ}
    {bytes : List ℕ} (rest : List ℕ)
    (h : utf8Validate validUpTo start bytes = .error ⟨u, some n⟩) :
    utf8Validate validUpTo start (bytes ++ rest) = .error ⟨u, some n⟩ := by
  induction bytes generalizing start validUpTo with
  | nil => cases start <;> cases h
  | cons byte bytes ih =>
    rw [List.cons_append]
    cases start with
    | none =>
      unfold utf8Validate at h ⊢
      split at h
      · exact ih h
      · split at h
        · next hascii =>
          rw [if_pos hascii]
          exact map_eq_error.2 (ih (map_eq_error.1 h))
        · next hascii =>
          rw [if_neg hascii]
          exact h
    | some start =>
      obtain ⟨sequence, read⟩ := start
      unfold utf8Validate at h ⊢
      dsimp only at h ⊢
      split at h
      · next hbyte =>
        rw [if_pos hbyte]
        split at h
        · next hlast =>
          rw [if_pos hlast]
          exact map_eq_error.2 (ih (map_eq_error.1 h))
        · next hlast =>
          rw [if_neg hlast]
          exact ih h
      · next hbyte =>
        rw [if_neg hbyte]
        exact h

/-- A sequence is completed, broken off by a byte, or the bytes end before it does. -/
theorem utf8Validate_sequence (hneeded : 1 ≤ sequence.needed) (bytes : List ℕ) :
    (∃ tail c rest, bytes = tail ++ rest ∧ Utf8Tail sequence tail c) ∨
    (∀ validUpTo read, ∃ n,
      utf8Validate validUpTo (some (sequence, read)) bytes = .error ⟨validUpTo, some n⟩) ∨
    bytes.length < sequence.needed ∧ ∀ validUpTo read,
      utf8Validate validUpTo (some (sequence, read)) bytes = .error ⟨validUpTo, none⟩ := by
  induction bytes generalizing sequence with
  | nil => exact Or.inr (Or.inr ⟨hneeded, fun _ _ => rfl⟩)
  | cons byte bytes ih =>
    by_cases hbyte : sequence.lower ≤ byte ∧ byte ≤ sequence.upper
    · by_cases hlast : sequence.needed = 1
      · exact Or.inl ⟨[byte], _, bytes, rfl, Utf8Tail.last hlast hbyte⟩
      · have hmore : 1 < sequence.needed := by omega
        have hstep : ∀ validUpTo read, utf8Validate validUpTo (some (sequence, read)) (byte :: bytes) =
            utf8Validate validUpTo (some (⟨sequence.needed - 1,
              sequence.codePoint * 0x40 + (byte - 0x80), 0x80, 0xBF⟩, read + 1)) bytes := by
          intro validUpTo read
          simp only [utf8Validate, hbyte, decide_true, Bool.and_self, if_true,
            Nat.not_le.2 hmore, if_false]
        have hnext : 1 ≤ (Utf8Sequence.mk (sequence.needed - 1)
            (sequence.codePoint * 0x40 + (byte - 0x80)) 0x80 0xBF).needed := Nat.le_pred_of_lt hmore
        rcases ih hnext with
          ⟨tail, c, rest, rfl, htail⟩ | hbroken | ⟨hlen, hend⟩
        · exact Or.inl ⟨byte :: tail, c, rest, rfl, Utf8Tail.more hmore hbyte htail⟩
        · refine Or.inr (Or.inl fun validUpTo read => ?_)
          rw [hstep]
          exact hbroken validUpTo (read + 1)
        · refine Or.inr (Or.inr ⟨?_, fun validUpTo read => ?_⟩)
          · rw [List.length_cons]
            exact Nat.add_lt_of_lt_sub hlen
          · rw [hstep]
            exact hend validUpTo (read + 1)
    · refine Or.inr (Or.inl fun validUpTo read => ⟨read, ?_⟩)
      simp only [utf8Validate, Bool.and_eq_true, decide_eq_true_eq, hbyte, if_false]

/-- **Bytes are a text and what is left: nothing, the beginning of a character, or an error.** -/
theorem utf8Validate_spec (validUpTo : ℕ) (bytes : List ℕ) :
    ∃ text rest, bytes = asBytes text ++ rest ∧
      (rest = [] ∧ utf8Validate validUpTo none bytes = .ok text ∨
        ∃ errorLen, utf8Validate validUpTo none bytes =
            .error ⟨validUpTo + (asBytes text).length, errorLen⟩ ∧
          (errorLen = none →
            rest.length ≤ 3 ∧ ∀ v, utf8Validate v none rest = .error ⟨v, none⟩)) := by
  induction hn : bytes.length using Nat.strong_induction_on generalizing validUpTo bytes with
  | _ n ih =>
    subst hn
    cases bytes with
    | nil => exact ⟨[], [], rfl, Or.inl ⟨rfl, rfl⟩⟩
    | cons byte bytes =>
      by_cases hchar : ∃ c bytes', byte :: bytes = utf8Bytes c ++ bytes'
      · obtain ⟨c, bytes', hbytes⟩ := hchar
        have hpos : 0 < (utf8Bytes c).length := List.length_pos_of_ne_nil (utf8Bytes_ne_nil c)
        have hlt : bytes'.length < (byte :: bytes).length := by
          rw [hbytes, List.length_append]
          omega
        obtain ⟨text, rest, hrest, hspec⟩ :=
          ih bytes'.length hlt (validUpTo + (utf8Bytes c).length) bytes' rfl
        rw [hbytes, utf8Validate_cons, hrest]
        refine ⟨c :: text, rest, ?_, ?_⟩
        · rw [asBytes_cons, List.append_assoc]
        · rw [← hrest]
          rcases hspec with ⟨hnil, hok⟩ | ⟨errorLen, herror, hlen⟩
          · rw [hok]
            exact Or.inl ⟨hnil, rfl⟩
          · rw [herror, asBytes_cons, List.length_append, ← Nat.add_assoc]
            exact Or.inr ⟨errorLen, rfl, hlen⟩
      · refine ⟨[], byte :: bytes, rfl, Or.inr ?_⟩
        cases hlead : (utf8Lead byte).2 with
        | none =>
          have hascii : ¬byte < 0x80 := fun hone => by
            refine hchar ⟨Char.ofNat byte, bytes, ?_⟩
            rw [utf8Bytes, toNat_ofNat_valid (by omega), if_pos hone]
            rfl
          rw [utf8Validate, hlead]
          dsimp only
          rw [if_neg hascii]
          exact ⟨some 1, rfl, nofun⟩
        | some sequence =>
          have hneeded := utf8Lead_needed hlead
          rw [utf8Validate, hlead]
          dsimp only
          rcases utf8Validate_sequence hneeded.1 bytes with
            ⟨tail, c, bytes', hbytes, htail⟩ | hbroken | ⟨hlen, hend⟩
          · refine absurd ⟨c, bytes', ?_⟩ hchar
            rw [utf8Bytes_of_lead hlead htail, hbytes]
            rfl
          · obtain ⟨n, hbroken⟩ := hbroken validUpTo 1
            exact ⟨some n, hbroken, nofun⟩
          · refine ⟨none, hend validUpTo 1, fun _ => ⟨?_, fun v => ?_⟩⟩
            · rw [List.length_cons]
              omega
            · rw [utf8Validate, hlead]
              exact hend v 1

theorem fromUtf8_spec (bytes : List ℕ) :
    ∃ text rest, bytes = asBytes text ++ rest ∧
      (rest = [] ∧ fromUtf8 bytes = .ok text ∨
        ∃ errorLen, fromUtf8 bytes = .error ⟨(asBytes text).length, errorLen⟩ ∧
          (errorLen = none → rest.length ≤ 3 ∧ fromUtf8 rest = .error ⟨0, none⟩)) := by
  obtain ⟨text, rest, hbytes, hspec⟩ := utf8Validate_spec 0 bytes
  refine ⟨text, rest, hbytes, ?_⟩
  rcases hspec with hok | ⟨errorLen, herror, hrest⟩
  · exact Or.inl hok
  · rw [Nat.zero_add] at herror
    exact Or.inr ⟨errorLen, herror, fun hnone => ⟨(hrest hnone).1, (hrest hnone).2 0⟩⟩

/-- No text begins with invalid bytes. -/
theorem ne_asBytes_of_error {bytes : List ℕ} {u n : ℕ} (h : fromUtf8 bytes = .error ⟨u, some n⟩)
    (rest : List ℕ) (s : Str) : bytes ++ rest ≠ asBytes s := by
  intro heq
  have herror : fromUtf8 (bytes ++ rest) = .error ⟨u, some n⟩ := utf8Validate_append rest h
  rw [heq, fromUtf8_asBytes] at herror
  cases herror

theorem eq_nil_of_asBytes {s : Str} (h : asBytes s = []) : s = [] := by
  cases s with
  | nil => rfl
  | cons c s =>
    rw [asBytes_cons] at h
    exact absurd (List.append_eq_nil_iff.1 h).1 (utf8Bytes_ne_nil c)

/-- Behind the bytes of a text are those of the rest of it. -/
theorem exists_of_asBytes_append {t s : Str} {rest : List ℕ} (h : asBytes t ++ rest = asBytes s) :
    ∃ s', s = t ++ s' ∧ rest = asBytes s' := by
  have hok := fromUtf8_asBytes s
  rw [← h, fromUtf8, utf8Validate_asBytes] at hok
  cases hrest : utf8Validate (0 + (asBytes t).length) none rest with
  | error error =>
    rw [hrest] at hok
    cases hok
  | ok s' =>
    rw [hrest] at hok
    cases hok
    rw [asBytes_append] at h
    exact ⟨s', rfl, List.append_cancel_left h⟩

end Codex.Text
