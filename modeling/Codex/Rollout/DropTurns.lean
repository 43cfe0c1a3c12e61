import Codex.Rollout.Boundaries

/-!
# Dropping turns in two steps

A rollback cuts the history at an instruction boundary and trims the context in
front of it. The second of two rollbacks sees the items that the first one left,
and cuts where one rollback of both numbers would have cut: the trimming looks at
what is in front of the cut only (`dropLastNUserTurns_add`).
-/

namespace Codex.Rollout

open List

variable {rules : TextRules} {snapshot items : List ResponseItem} {first cut limit : ℕ}

/-! ## Trimming -/

theorem trimPreTurnContextUpdates_le (snapshot : List ResponseItem) (first cut : ℕ) :
    (trimPreTurnContextUpdates rules snapshot first cut).1 ≤ cut := by
  induction cut with
  | zero => exact le_rfl
  | succ cut ih =>
    unfold trimPreTurnContextUpdates
    split
    · split
      · split
        · exact Nat.le_succ_of_le ih
        · split
          · exact Nat.le_succ_of_le ih
          · exact le_rfl
      · exact le_rfl
    · exact le_rfl

theorem le_trimPreTurnContextUpdates (h : first ≤ cut) :
    first ≤ (trimPreTurnContextUpdates rules snapshot first cut).1 := by
  induction cut with
  | zero => exact h
  | succ cut ih =>
    unfold trimPreTurnContextUpdates
    split
    · next hlt =>
      have ih := ih (Nat.le_of_lt_succ hlt)
      split
      · split
        · exact ih
        · split
          · exact ih
          · exact h
      · exact h
    · exact h

/-- What is behind the cut is not looked at. -/
theorem trimPreTurnContextUpdates_take (h : cut ≤ limit) :
    trimPreTurnContextUpdates rules (snapshot.take limit) first cut =
      trimPreTurnContextUpdates rules snapshot first cut := by
  induction cut with
  | zero => rfl
  | succ cut ih =>
    have hitem : (snapshot.take limit)[cut]? = snapshot[cut]? := getElem?_take_of_lt h
    unfold trimPreTurnContextUpdates
    rw [hitem, ih (Nat.le_of_succ_le h)]

theorem trimPreTurnContextUpdates_first :
    (trimPreTurnContextUpdates rules snapshot first first).1 = first := by
  exact Nat.le_antisymm (trimPreTurnContextUpdates_le _ _ _) (le_trimPreTurnContextUpdates le_rfl)

/-! ## Where the history is cut -/

/-- The cut before the trimming. -/
def boundaryCut (positions : List ℕ) (first numTurns : ℕ) : ℕ :=
  if positions.length ≤ numTurns then first else positions.getD (positions.length - numTurns) 0

theorem dropLastNUserTurns_nil (history : ContextManager) (numTurns : ℕ)
    (h : userMessagePositions rules history.items = []) :
    (history.dropLastNUserTurns rules numTurns).items = history.items := by
  unfold ContextManager.dropLastNUserTurns
  dsimp only
  rw [h]
  split <;> rfl

theorem dropLastNUserTurns_zero (history : ContextManager) :
    history.dropLastNUserTurns rules 0 = history := if_pos rfl

variable {rest : List ℕ}

theorem dropLastNUserTurns_cons (history : ContextManager) {numTurns : ℕ} (hpos : 0 < numTurns)
    (h : userMessagePositions rules history.items = first :: rest) :
    (history.dropLastNUserTurns rules numTurns).items =
      history.items.take (trimPreTurnContextUpdates rules history.items first
        (boundaryCut (first :: rest) first numTurns)).1 := by
  unfold ContextManager.dropLastNUserTurns
  rw [if_neg (Nat.ne_of_gt hpos)]
  dsimp only
  rw [h]
  dsimp only
  unfold ContextManager.replace boundaryCut
  rfl

/-! ## What is left -/

theorem length_boundaries (items : List ResponseItem) :
    (boundaries rules items).length = (userMessagePositions rules items).length := by
  rw [userMessagePositions, length_findIdxs, countP_eq_length_filter]
  rfl

/-- The positions that a rollback leaves are the oldest. -/
theorem userMessagePositions_dropLastNUserTurns (history : ContextManager) (numTurns : ℕ)
    (hprefixed : (history.dropLastNUserTurns rules numTurns).items = history.items.take limit) :
    userMessagePositions rules (history.items.take limit) =
      (userMessagePositions rules history.items).take
        ((userMessagePositions rules history.items).length - numTurns) := by
  have hboundaries : boundaries rules (history.dropLastNUserTurns rules numTurns).items = _ :=
    boundaries_dropLastNUserTurns history numTurns
  have hlength := congrArg List.length hboundaries
  rw [hprefixed, length_take, Nat.min_eq_left (Nat.sub_le _ _), length_boundaries,
    length_boundaries] at hlength
  unfold userMessagePositions at hlength ⊢
  rw [length_findIdxs] at hlength
  rw [findIdxs_take, hlength]

theorem boundaryCut_mem {numTurns : ℕ} (hpos : 0 < numTurns) :
    boundaryCut (first :: rest) first numTurns ∈ first :: rest := by
  unfold boundaryCut
  split
  · exact mem_cons_self
  · next hsome =>
    have hlt : (first :: rest).length - numTurns < (first :: rest).length := by omega
    rw [getD_eq_getElem?_getD, getElem?_eq_getElem hlt, Option.getD_some]
    exact getElem_mem hlt

theorem first_le_of_mem {pos : ℕ} (hfirst : userMessagePositions rules items = first :: rest)
    (hmem : pos ∈ first :: rest) : first ≤ pos := by
  have hsorted : (first :: rest).Pairwise (· < ·) := hfirst ▸ pairwise_findIdxs
  rcases mem_cons.1 hmem with rfl | hmem
  · exact le_rfl
  · exact Nat.le_of_lt (rel_of_pairwise_cons hsorted hmem)

/-- Cutting twice is cutting once, as long as the first cut leaves a boundary. -/
theorem boundaryCut_take {m n : ℕ} (hpos : 0 < n) (hm : m < (first :: rest).length) :
    boundaryCut ((first :: rest).take ((first :: rest).length - m)) first n =
      boundaryCut (first :: rest) first (m + n) := by
  unfold boundaryCut
  rw [length_take, Nat.min_eq_left (Nat.sub_le _ _)]
  by_cases hall : (first :: rest).length ≤ m + n
  · rw [if_pos hall, if_pos (by omega)]
  · rw [if_neg hall, if_neg (by omega), getD_eq_getElem?_getD, getD_eq_getElem?_getD,
      getElem?_take_of_lt (by omega), Nat.sub_sub]

/-- **Dropping `m` and then `n` turns leaves what dropping `m + n` leaves.** -/
theorem items_dropLastNUserTurns_add (history : ContextManager) (m n : ℕ) :
    ((history.dropLastNUserTurns rules m).dropLastNUserTurns rules n).items =
      (history.dropLastNUserTurns rules (m + n)).items := by
  rcases Nat.eq_zero_or_pos m with rfl | hm
  · rw [Nat.zero_add, dropLastNUserTurns_zero]
  rcases Nat.eq_zero_or_pos n with rfl | hn
  · rw [Nat.add_zero, dropLastNUserTurns_zero]
  cases hpositions : userMessagePositions rules history.items with
  | nil =>
    have hleft := dropLastNUserTurns_nil history m hpositions
    rw [dropLastNUserTurns_nil _ n (by rw [hleft, hpositions]), hleft,
      dropLastNUserTurns_nil history _ hpositions]
  | cons first rest =>
    have hfirst := dropLastNUserTurns_cons history hm hpositions
    have hleft := userMessagePositions_dropLastNUserTurns history m hfirst
    rw [hpositions, ← hfirst] at hleft
    rw [dropLastNUserTurns_cons history (Nat.add_pos_left hm n) hpositions]
    by_cases hall : (first :: rest).length ≤ m
    · -- No boundary is left, and the second rollback does nothing.
      rw [Nat.sub_eq_zero_of_le hall, take_zero] at hleft
      rw [dropLastNUserTurns_nil _ n hleft, hfirst, boundaryCut, boundaryCut, if_pos hall,
        if_pos (Nat.le_add_right_of_le hall)]
    · have hhead : (first :: rest).take ((first :: rest).length - m) =
          first :: rest.take ((first :: rest).length - m - 1) := by
        have hsucc : (first :: rest).length - m = (first :: rest).length - m - 1 + 1 := by omega
        conv_lhs => rw [hsucc, take_succ_cons]
      rw [hhead] at hleft
      have hcut := boundaryCut_take hn (Nat.not_le.1 hall)
      rw [hhead] at hcut
      have hlt : boundaryCut (first :: rest) first (m + n) <
          (history.dropLastNUserTurns rules m).items.length := by
        have hmem : boundaryCut (first :: rest.take ((first :: rest).length - m - 1)) first n ∈ _ :=
          boundaryCut_mem hn
        rw [hcut, ← hleft] at hmem
        exact Nat.add_zero _ ▸ lt_add_of_mem_findIdxs _ hmem
      rw [dropLastNUserTurns_cons _ hn hleft, hcut, hfirst, take_take]
      rw [hfirst, length_take] at hlt
      rw [trimPreTurnContextUpdates_take (by omega), Nat.min_eq_left]
      exact (trimPreTurnContextUpdates_le _ _ _).trans (by omega)

/-! ## One rollback -/

theorem takeWhile_eq_take_first (hfirst : userMessagePositions rules items = first :: rest) :
    items.takeWhile (fun item => !isUserTurnBoundary rules item) = items.take first := by
  have hpos : 0 < (items.findIdxs (isUserTurnBoundary rules)).length := by
    rw [show items.findIdxs (isUserTurnBoundary rules) = first :: rest from hfirst]
    exact Nat.succ_pos _
  have hindex := getElem_zero_findIdxs_eq_findIdx hpos
  simp only [show items.findIdxs (isUserTurnBoundary rules) = first :: rest from hfirst,
    getElem_cons_zero] at hindex
  rw [takeWhile_eq_take_findIdx_not, hindex]
  simp only [Bool.not_not]

theorem dropLastNUserTurns_prefix (rules : TextRules) (history : ContextManager) (numTurns : ℕ) :
    (history.dropLastNUserTurns rules numTurns).items <+: history.items ∧
      history.items.takeWhile (fun item => !isUserTurnBoundary rules item) <+:
        (history.dropLastNUserTurns rules numTurns).items := by
  rcases Nat.eq_zero_or_pos numTurns with rfl | hpos
  · rw [dropLastNUserTurns_zero]
    exact ⟨prefix_rfl, takeWhile_prefix _⟩
  cases hpositions : userMessagePositions rules history.items with
  | nil =>
    rw [dropLastNUserTurns_nil history _ hpositions]
    exact ⟨prefix_rfl, takeWhile_prefix _⟩
  | cons first rest =>
    rw [dropLastNUserTurns_cons history hpos hpositions, takeWhile_eq_take_first hpositions]
    refine ⟨List.take_prefix _ _, take_prefix_take_left ?_⟩
    exact le_trimPreTurnContextUpdates (first_le_of_mem hpositions (boundaryCut_mem hpos))

variable (rules) in
/-- **Rollbacks add up**: two of them leave what one of both numbers leaves, a prefix of the history
with everything before the first boundary and all but the dropped boundaries. -/
theorem dropLastNUserTurns_add (history : ContextManager) (m n : ℕ) :
    let left := ((history.dropLastNUserTurns rules m).dropLastNUserTurns rules n).items
    left = (history.dropLastNUserTurns rules (m + n)).items ∧
      left <+: history.items ∧
      history.items.takeWhile (fun item => !isUserTurnBoundary rules item) <+: left ∧
      left.countP (isUserTurnBoundary rules) =
        history.items.countP (isUserTurnBoundary rules) - (m + n) := by
  intro left
  have hadd : left = (history.dropLastNUserTurns rules (m + n)).items :=
    items_dropLastNUserTurns_add history m n
  obtain ⟨hprefixed, hbefore⟩ := dropLastNUserTurns_prefix rules history (m + n)
  rw [hadd]
  refine ⟨rfl, hprefixed, hbefore, ?_⟩
  have hboundaries : boundaries rules (history.dropLastNUserTurns rules (m + n)).items = _ :=
    boundaries_dropLastNUserTurns history (m + n)
  have hlength := congrArg List.length hboundaries
  rw [length_take, Nat.min_eq_left (Nat.sub_le _ _)] at hlength
  rw [countP_eq_length_filter, countP_eq_length_filter]
  exact hlength

end Codex.Rollout
