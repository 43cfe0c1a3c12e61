import Codex.Text.Str

/-!
# Nicknames of agents

`reserve_agent_nickname` (`core/src/agent/registry.rs`) picks a name that is not in
use. When all are in use it forgets them and counts the reset, and from then on the
ordinal of the count stands behind each name. That ordinal alone keeps a nickname
apart from those given out before a reset (`formatAgentNickname_inj`).
-/

namespace Codex.Agents

open List Codex.Text

/-! ## Model -/

def ordinalSuffix (value : ℕ) : Str :=
  if 11 ≤ value % 100 ∧ value % 100 ≤ 13 then "th".toList
  else match value % 10 with
    | 1 => "st".toList
    | 2 => "nd".toList
    | 3 => "rd".toList
    | _ => "th".toList

def formatAgentNickname (name : Str) : ℕ → Str
  | 0 => name
  | resetCount@(_ + 1) =>
    let value := resetCount + 1
    name ++ " the ".toList ++ Nat.toDigits 10 value ++ ordinalSuffix value

/-- The fields of `ActiveAgents` that nicknames are taken from. -/
structure NicknamePool where
  usedAgentNicknames : List Str := []
  nicknameResetCount : ℕ := 0
  deriving DecidableEq

/-- `choose(&mut rand::rng())`: the element that the random number falls on. -/
def choose (random : ℕ) (names : List Str) : Option Str := names[random % names.length]?

namespace NicknamePool

def insert (pool : NicknamePool) (agentNickname : Str) : NicknamePool :=
  { pool with usedAgentNicknames := pool.usedAgentNicknames.insert agentNickname }

/-- All names are free again. -/
def reset (pool : NicknamePool) : NicknamePool := ⟨[], pool.nicknameResetCount + 1⟩

def availableNames (pool : NicknamePool) (names : List Str) : List Str :=
  (names.map fun name => formatAgentNickname name pool.nicknameResetCount).filter
    fun name => !pool.usedAgentNicknames.contains name

def reserveAgentNickname (random : ℕ) (names : List Str) (preferred : Option Str)
    (pool : NicknamePool) : Option Str × NicknamePool :=
  match preferred with
  | some preferred => (some preferred, pool.insert preferred)
  | none =>
    if names = [] then (none, pool)
    else match choose random (pool.availableNames names) with
      | some agentNickname => (some agentNickname, pool.insert agentNickname)
      | none =>
        match choose random names with
        | some name =>
          let agentNickname := formatAgentNickname name pool.reset.nicknameResetCount
          (some agentNickname, pool.reset.insert agentNickname)
        | none => (none, pool.reset)

/-- The nicknames that a run of calls without a preference gives out, one random number a call. -/
def reserveAll (names : List Str) : List ℕ → NicknamePool → List Str
  | [], _ => []
  | random :: randoms, pool =>
    let (agentNickname, pool) := pool.reserveAgentNickname random names none
    agentNickname.toList ++ reserveAll names randoms pool

end NicknamePool

/-! ## The ordinal -/

theorem ordinalSuffix_mem (value : ℕ) :
    ordinalSuffix value ∈ ["st".toList, "nd".toList, "rd".toList, "th".toList] := by
  unfold ordinalSuffix
  split
  · decide
  · split <;> decide

theorem ordinalSuffix_letters (value : ℕ) :
    ((ordinalSuffix value).all fun c => !c.isDigit && c != ' ') = true := by
  have hall : ∀ suffix ∈ ["st".toList, "nd".toList, "rd".toList, "th".toList],
      (suffix.all fun c => !c.isDigit && c != ' ') = true := by decide
  exact hall _ (ordinalSuffix_mem value)

def ordinal (value : ℕ) : Str := Nat.toDigits 10 value ++ ordinalSuffix value

theorem takeWhile_ordinal (value : ℕ) :
    (ordinal value).takeWhile Char.isDigit = Nat.toDigits 10 value := by
  have hdigits : ∀ c ∈ Nat.toDigits 10 value, c.isDigit = true := fun c hc =>
    Nat.isDigit_of_mem_toDigits (by decide) (by decide) hc
  have hletters : (ordinalSuffix value).takeWhile Char.isDigit = [] := by
    cases hsuffix : ordinalSuffix value with
    | nil => rfl
    | cons c suffix =>
      have hall := ordinalSuffix_letters value
      rw [hsuffix, all_cons, Bool.and_eq_true, Bool.and_eq_true] at hall
      exact takeWhile_cons_of_neg (by simpa using hall.1.1)
  rw [ordinal, takeWhile_append_of_pos hdigits, hletters, append_nil]

theorem ordinal_inj {value value' : ℕ} (h : ordinal value = ordinal value') : value = value' := by
  have hdigits : Nat.toDigits 10 value = Nat.toDigits 10 value' := by
    rw [← takeWhile_ordinal, h, takeWhile_ordinal]
  rw [← Nat.ofDigitChars_ten_toDigits (n := value), hdigits, Nat.ofDigitChars_ten_toDigits]

theorem space_notMem_ordinal (value : ℕ) : ' ' ∉ ordinal value := by
  intro h
  rcases mem_append.1 h with h | h
  · exact absurd (Nat.isDigit_of_mem_toDigits (by decide) (by decide) h) (by decide)
  · have hall := all_eq_true.1 (ordinalSuffix_letters value) ' ' h
    exact absurd hall (by decide)

/-! ## Formatted nicknames -/

theorem formatAgentNickname_succ (name : Str) (count : ℕ) :
    formatAgentNickname name (count + 1) = name ++ " the ".toList ++ ordinal (count + 2) := by
  rw [ordinal, ← List.append_assoc]
  rfl

/-- What stands behind the last space. -/
theorem takeWhile_reverse_format (name : Str) (count : ℕ) :
    (formatAgentNickname name (count + 1)).reverse.takeWhile (fun c => c != ' ') =
      (ordinal (count + 2)).reverse := by
  have hthe : " the ".toList.reverse = ' ' :: "eht ".toList := rfl
  have hall : ∀ c ∈ (ordinal (count + 2)).reverse, (c != ' ') = true := by
    intro c hc
    rw [bne_iff_ne]
    rintro rfl
    exact space_notMem_ordinal _ (mem_reverse.1 hc)
  rw [formatAgentNickname_succ, reverse_append, reverse_append, hthe,
    cons_append, takeWhile_append_of_pos hall,
    takeWhile_cons_of_neg (by decide), append_nil]

theorem the_infix_format (name : Str) (count : ℕ) :
    " the ".toList <:+: formatAgentNickname name (count + 1) := by
  rw [formatAgentNickname_succ]
  exact infix_append _ _ _

theorem formatAgentNickname_inj {name name' : Str} {count count' : ℕ}
    (hname : ¬ " the ".toList <:+: name) (hname' : ¬ " the ".toList <:+: name')
    (h : formatAgentNickname name count = formatAgentNickname name' count') : count = count' := by
  cases count with
  | zero =>
    cases count' with
    | zero => rfl
    | succ count' =>
      have hthe := the_infix_format name' count'
      rw [← h] at hthe
      exact absurd hthe hname
  | succ count =>
    cases count' with
    | zero =>
      have hthe := the_infix_format name count
      rw [h] at hthe
      exact absurd hthe hname'
    | succ count' =>
      have hlast := takeWhile_reverse_format name count
      rw [h, takeWhile_reverse_format, reverse_inj] at hlast
      have hvalue := ordinal_inj hlast
      omega

/-! ## Runs -/

namespace NicknamePool

variable {names : List Str} {pool : NicknamePool} {given : List Str}

/-- Every nickname given out has a count that is not to come, and one with the present count is in
use. -/
def Covers (names : List Str) (pool : NicknamePool) (given : List Str) : Prop :=
  ∀ nickname ∈ given, ∃ name ∈ names, ∃ count ≤ pool.nicknameResetCount,
    nickname = formatAgentNickname name count ∧
      (count = pool.nicknameResetCount → nickname ∈ pool.usedAgentNicknames)

theorem choose_mem {random : ℕ} {name : Str} (h : choose random names = some name) :
    name ∈ names := mem_of_getElem? h

theorem choose_isSome (random : ℕ) (h : names ≠ []) : ∃ name, choose random names = some name := by
  have hlt : random % names.length < names.length :=
    Nat.mod_lt _ (length_pos_iff.2 h)
  exact ⟨names[random % names.length], getElem?_eq_getElem hlt⟩

/-- A nickname is taken from those not in use, or is the first after a reset. -/
theorem reserveAgentNickname_cases (random : ℕ) (hne : names ≠ []) (pool : NicknamePool) :
    ∃ name ∈ names, ∃ pool', (pool' = pool ∨ pool' = pool.reset) ∧
      formatAgentNickname name pool'.nicknameResetCount ∉ pool'.usedAgentNicknames ∧
      pool.reserveAgentNickname random names none =
        (some (formatAgentNickname name pool'.nicknameResetCount),
          pool'.insert (formatAgentNickname name pool'.nicknameResetCount)) := by
  unfold reserveAgentNickname
  rw [if_neg hne]
  cases havailable : choose random (pool.availableNames names) with
  | some nickname =>
    obtain ⟨hmem, hunused⟩ := mem_filter.1 (choose_mem havailable)
    obtain ⟨name, hname, rfl⟩ := mem_map.1 hmem
    exact ⟨name, hname, pool, .inl rfl, by simpa using hunused, rfl⟩
  | none =>
    obtain ⟨name, hchosen⟩ := choose_isSome random hne
    refine ⟨name, choose_mem hchosen, pool.reset, .inr rfl, not_mem_nil, ?_⟩
    simp only [hchosen]

theorem Covers.reset (h : Covers names pool given) : Covers names pool.reset given := by
  intro nickname hnickname
  obtain ⟨name, hname, count, hcount, hformat, -⟩ := h nickname hnickname
  refine ⟨name, hname, count, Nat.le_succ_of_le hcount, hformat, fun heq => ?_⟩
  rw [heq] at hcount
  exact absurd hcount (Nat.not_succ_le_self _)

theorem Covers.insert (h : Covers names pool given) {name : Str} (hname : name ∈ names) :
    Covers names (pool.insert (formatAgentNickname name pool.nicknameResetCount))
      (formatAgentNickname name pool.nicknameResetCount :: given) := by
  intro nickname hnickname
  rcases mem_cons.1 hnickname with rfl | hnickname
  · exact ⟨name, hname, _, Nat.le_refl _, rfl, fun _ => mem_insert_self⟩
  · obtain ⟨name', hname', count, hcount, hformat, hused⟩ := h nickname hnickname
    exact ⟨name', hname', count, hcount, hformat, fun heq => mem_insert_of_mem (hused heq)⟩

theorem Covers.notMem (h : Covers names pool given) (hthe : ∀ name ∈ names, ¬ " the ".toList <:+: name)
    {name : Str} (hname : name ∈ names)
    (hunused : formatAgentNickname name pool.nicknameResetCount ∉ pool.usedAgentNicknames) :
    formatAgentNickname name pool.nicknameResetCount ∉ given := by
  intro hmem
  obtain ⟨name', hname', count, -, hformat, hused⟩ := h _ hmem
  have hcount := formatAgentNickname_inj (hthe name hname) (hthe name' hname') hformat
  exact hunused (hused hcount.symm)

/-- The nicknames of a run are new, and no two of them are the same. -/
theorem Covers.reserveAll (hthe : ∀ name ∈ names, ¬ " the ".toList <:+: name) (hne : names ≠ [])
    (randoms : List ℕ) (h : Covers names pool given) :
    (reserveAll names randoms pool).Nodup ∧
      ∀ nickname ∈ reserveAll names randoms pool, nickname ∉ given := by
  induction randoms generalizing pool given with
  | nil => exact ⟨nodup_nil, nofun⟩
  | cons random randoms ih =>
    obtain ⟨name, hname, pool', hpool', hunused, hreserve⟩ :=
      reserveAgentNickname_cases random hne pool
    have hcovers : Covers names pool' given := by
      rcases hpool' with rfl | rfl
      · exact h
      · exact h.reset
    obtain ⟨hnodup, hlater⟩ := ih (hcovers.insert hname)
    simp only [NicknamePool.reserveAll, hreserve, Option.toList_some, singleton_append]
    refine ⟨nodup_cons.2 ⟨fun hmem => hlater _ hmem mem_cons_self, hnodup⟩, ?_⟩
    intro nickname hnickname
    rcases mem_cons.1 hnickname with rfl | hnickname
    · exact hcovers.notMem hthe hname hunused
    · exact fun hgiven => hlater nickname hnickname (mem_cons_of_mem _ hgiven)

/-- **No nickname is given out twice**, from any pool and whatever the resets in between. -/
theorem nodup_reserveAll (hne : names ≠ []) (hthe : ∀ name ∈ names, ¬ " the ".toList <:+: name)
    (randoms : List ℕ) (pool : NicknamePool) : (reserveAll names randoms pool).Nodup := by
  have hstart : Covers names pool [] := nofun
  exact (hstart.reserveAll hthe hne randoms).1

theorem nodup_reserveAll_plato :
    reserveAll ["Plato".toList, "Kant".toList] [0, 7, 1, 4] {} =
      ["Plato".toList, "Kant".toList, "Kant the 2nd".toList, "Plato the 2nd".toList] ∧
    (reserveAll ["Plato".toList, "Kant".toList] [0, 7, 1, 4] {}).Nodup :=
  ⟨by decide +kernel, nodup_reserveAll (by decide) (by decide +kernel) _ _⟩

end NicknamePool

end Codex.Agents
