import Mathlib.Data.List.Basic
import Mathlib.Data.List.Nodup
import Mathlib.Logic.Equiv.Basic

/-!
# Ids from a counter

Ids stand in blocks. Some come from outside and the others are numbered by a
counter. While ids are put into blocks, no block has an id twice and no numbered id
stands twice in all (`Grows.numbered`). A counter that is set back has to be past
the numbers that are left (`Numbered.reset`). The count of the ids that are left is,
if new numbers go to the last block only (`Grows.counted`, `Counted.reset`). Ids
that are drawn, not counted, are the same up to a renaming (`exists_renaming`).
-/

namespace Codex.FreshIds

open List

variable {α : Type} {number : α → Option ℕ} {next : ℕ} {blocks blocks' : List (List α)} {id : α}

/-- No block has an id twice, and no numbered id stands twice in all. -/
structure Distinct (number : α → Option ℕ) (blocks : List (List α)) : Prop where
  each : ∀ block ∈ blocks, block.Nodup
  once : (blocks.flatten.filter fun id => (number id).isSome).Nodup

/-- The counter is past the numbers. -/
def Below (number : α → Option ℕ) (next : ℕ) (blocks : List (List α)) : Prop :=
  ∀ id ∈ blocks.flatten, ∀ n ∈ number id, n < next

structure Numbered (number : α → Option ℕ) (next : ℕ) (blocks : List (List α)) : Prop extends
    Distinct number blocks where
  below : Below number next blocks

/-- An id that has a number has one below the counter, and stands nowhere yet. -/
def Admits (number : α → Option ℕ) (next : ℕ) (blocks : List (List α)) (id : α) : Prop :=
  ∀ n ∈ number id, n < next ∧ id ∉ blocks.flatten

/-- The blocks are the same up to empty ones. -/
def Same (blocks blocks' : List (List α)) : Prop :=
  (blocks.filter fun block => !block.isEmpty) = blocks'.filter fun block => !block.isEmpty

theorem Same.refl (blocks : List (List α)) : Same blocks blocks := rfl

theorem Same.symm (h : Same blocks blocks') : Same blocks' blocks := Eq.symm h

theorem Same.trans {blocks'' : List (List α)} (h : Same blocks blocks')
    (h' : Same blocks' blocks'') : Same blocks blocks'' := Eq.trans h h'

theorem same_concat_nil (blocks : List (List α)) : Same blocks (blocks ++ [[]]) := by
  simp [Same]

theorem Same.flatten (h : Same blocks blocks') : blocks.flatten = blocks'.flatten := by
  rw [← flatten_filter_not_isEmpty, h, flatten_filter_not_isEmpty]

theorem Same.mem (h : Same blocks blocks') {block : List α} (hne : block ≠ []) :
    block ∈ blocks ↔ block ∈ blocks' := by
  have hkeep : (!block.isEmpty) = true := by simpa using hne
  have hmem : block ∈ (blocks.filter fun block => !block.isEmpty) ↔
      block ∈ blocks'.filter fun block => !block.isEmpty := by rw [h]
  simpa only [mem_filter, hkeep, and_true] using hmem

theorem Distinct.same (h : Distinct number blocks) (hsame : Same blocks blocks') :
    Distinct number blocks' := by
  refine ⟨fun block hblock => ?_, hsame.flatten ▸ h.once⟩
  by_cases hne : block = []
  · rw [hne]
    exact nodup_nil
  · exact h.each block ((hsame.mem hne).2 hblock)

theorem Numbered.same (h : Numbered number next blocks) (hsame : Same blocks blocks') :
    Numbered number next blocks' := by
  refine ⟨h.toDistinct.same hsame, fun id hid => h.below id ?_⟩
  rwa [hsame.flatten]

theorem admits_outside (h : number id = none) : Admits number next blocks id := by
  intro n hn
  rw [h] at hn
  cases hn

theorem numbered_nil : Numbered number next [] := ⟨⟨nofun, nodup_nil⟩, nofun⟩

/-! ## The counter moves -/

/-- The next id may be put anywhere. -/
theorem Numbered.advance (h : Numbered number next blocks) (hid : number id = some next) :
    Numbered number (next + 1) blocks ∧ Admits number (next + 1) blocks id := by
  refine ⟨⟨h.toDistinct, fun other hother n hn => ?_⟩, fun n hn => ?_⟩
  · exact Nat.lt_succ_of_lt (h.below other hother n hn)
  · rw [hid, Option.mem_some_iff] at hn
    refine ⟨hn ▸ Nat.lt_succ_self _, fun hmem => ?_⟩
    exact Nat.lt_irrefl next (h.below id hmem next hid)

/-- Blocks are taken off, and the counter set back to a number that is past what is left. -/
theorem Numbered.reset {next' : ℕ} {removed : List (List α)}
    (h : Numbered number next (blocks ++ removed)) (hbelow : Below number next' blocks) :
    Numbered number next' blocks := by
  have honce := h.once
  rw [flatten_append, filter_append] at honce
  exact ⟨⟨fun block hblock => h.each block (mem_append_left _ hblock), honce.of_append_left⟩,
    hbelow⟩

/-! ## An id is put into a block -/

variable [DecidableEq α] {before after : List (List α)} {block : List α}

/-- The block with the id, at its end if it is new. -/
def put (id : α) (block : List α) : List α := if id ∈ block then block else block ++ [id]

theorem put_of_notMem (h : id ∉ block) : put id block = block ++ [id] := if_neg h

theorem Numbered.put (h : Numbered number next (before ++ block :: after))
    (hadmits : Admits number next (before ++ block :: after) id) :
    Numbered number next (before ++ put id block :: after) := by
  by_cases hold : id ∈ block
  · rw [FreshIds.put, if_pos hold]
    exact h
  · rw [put_of_notMem hold]
    have hflat : (before ++ block :: after).flatten =
        (before.flatten ++ block) ++ after.flatten := by simp
    have hflat' : (before ++ (block ++ [id]) :: after).flatten =
        (before.flatten ++ block) ++ id :: after.flatten := by simp
    have honce := h.once
    refine ⟨⟨fun other hother => ?_, ?_⟩, fun other hother n hn => ?_⟩
    · rcases mem_append.1 hother with hother | hother
      · exact h.each other (mem_append_left _ hother)
      · rcases mem_cons.1 hother with rfl | hother
        · have hblock := h.each block (mem_append_right _ mem_cons_self)
          exact nodup_append'.2 ⟨hblock, nodup_singleton _, by simpa using hold⟩
        · exact h.each other (mem_append_right _ (mem_cons_of_mem _ hother))
    · rw [hflat, filter_append] at honce
      rw [hflat', filter_append, filter_cons]
      split
      · next hsome =>
        obtain ⟨n, hn⟩ := Option.isSome_iff_exists.1 hsome
        rw [nodup_middle, nodup_cons]
        refine ⟨fun hmem => ?_, honce⟩
        rw [← filter_append, ← hflat] at hmem
        exact (hadmits n hn).2 (mem_filter.1 hmem).1
      · exact honce
    · rw [hflat', mem_append, mem_cons] at hother
      rcases hother with hother | rfl | hother
      · exact h.below other (hflat ▸ mem_append_left _ hother) n hn
      · exact (hadmits n hn).1
      · exact h.below other (hflat ▸ mem_append_right _ hother) n hn

/-! ## Growth -/

/-- Ids are put into blocks. A new number goes to the last block, unless `late` holds. -/
inductive Grows (number : α → Option ℕ) (late : Prop) :
    ℕ → List (List α) → ℕ → List (List α) → Prop where
  | same {next : ℕ} {blocks blocks' : List (List α)} (h : Same blocks blocks') :
      Grows number late next blocks next blocks'
  | outside {next : ℕ} {id : α} {before after : List (List α)} {block : List α}
      (h : number id = none) :
      Grows number late next (before ++ block :: after) next (before ++ put id block :: after)
  | fresh {next : ℕ} {id : α} {before after : List (List α)} {block : List α}
      (h : number id = some next) (hplace : after = [] ∨ late) :
      Grows number late next (before ++ block :: after) (next + 1) (before ++ put id block :: after)
  | trans {next next' next'' : ℕ} {blocks blocks' blocks'' : List (List α)}
      (h : Grows number late next blocks next' blocks')
      (h' : Grows number late next' blocks' next'' blocks'') :
      Grows number late next blocks next'' blocks''

theorem Grows.mono {late late' : Prop} {next' : ℕ}
    (h : Grows number late next blocks next' blocks') (himp : late → late') :
    Grows number late' next blocks next' blocks' := by
  induction h with
  | same hsame => exact .same hsame
  | outside hid => exact .outside hid
  | fresh hid hplace => exact .fresh hid (hplace.imp_right himp)
  | trans _ _ ih ih' => exact ih.trans ih'

theorem Grows.numbered {late : Prop} {next' : ℕ}
    (h : Grows number late next blocks next' blocks') (hb : Numbered number next blocks) :
    Numbered number next' blocks' := by
  induction h with
  | same hsame => exact hb.same hsame
  | outside hid => exact hb.put (admits_outside hid)
  | fresh hid =>
    obtain ⟨hnext, hadmits⟩ := hb.advance hid
    exact hnext.put hadmits
  | trans _ _ ih ih' => exact ih' (ih hb)

/-! ## Numbers and counts -/

/-- In no first blocks is a number above the count of their ids. -/
structure Counted (number : α → Option ℕ) (next : ℕ) (blocks : List (List α)) : Prop where
  covers : ∀ first, first <+: blocks → Below number (first.flatten.length + 1) first
  next : next ≤ blocks.flatten.length + 1

omit [DecidableEq α] in
theorem counted_nil : Counted number 1 ([] : List (List α)) := by
  refine ⟨fun first hfirst => ?_, Nat.le_refl _⟩
  rw [prefix_nil.1 hfirst]
  exact nofun

omit [DecidableEq α] in
theorem Same.exists_prefix (h : Same blocks blocks') {first' : List (List α)}
    (hfirst : first' <+: blocks') : ∃ first, first <+: blocks ∧ Same first first' := by
  have hkept := hfirst.filter fun block => !block.isEmpty
  rw [← h] at hkept
  obtain ⟨first, hpre, hsame⟩ := prefix_filter_iff.1 hkept
  exact ⟨first, hpre, hsame.symm⟩

omit [DecidableEq α] in
theorem Counted.same (h : Counted number next blocks) (hsame : Same blocks blocks') :
    Counted number next blocks' := by
  refine ⟨fun first' hfirst' id hid n hn => ?_, hsame.flatten ▸ h.next⟩
  obtain ⟨first, hfirst, hflat⟩ := hsame.exists_prefix hfirst'
  rw [← hflat.flatten] at hid ⊢
  exact h.covers first hfirst id hid n hn

/-- The first blocks after an id is put into one: that one is still to come, or among them. -/
theorem prefix_put {first : List (List α)} (h : first <+: before ++ put id block :: after) :
    first <+: before ++ block :: after ∨
      ∃ rest, rest <+: after ∧ first = before ++ put id block :: rest := by
  rcases prefix_or_prefix_of_prefix h (prefix_append before _) with
    hbefore | ⟨rest, rfl⟩
  · exact .inl (hbefore.trans (prefix_append _ _))
  · rw [prefix_append_right_inj] at h
    cases rest with
    | nil => exact .inl (by simp)
    | cons other rest =>
      obtain ⟨rfl, hrest⟩ := cons_prefix_cons.1 h
      exact .inr ⟨rest, hrest, rfl⟩

theorem mem_put {other : α} : other ∈ put id block ↔ other ∈ block ∨ other = id := by
  unfold put
  split
  · next hid =>
    refine ⟨.inl, ?_⟩
    rintro (hother | rfl)
    · exact hother
    · exact hid
  · simp

theorem length_put_le (id : α) (block : List α) : block.length ≤ (put id block).length := by
  unfold put
  split
  · exact Nat.le_refl _
  · simp

theorem mem_flatten_put {other : α} (h : other ∈ (before ++ put id block :: after).flatten) :
    other = id ∨ other ∈ (before ++ block :: after).flatten := by
  simp only [flatten_append, flatten_cons, mem_append, mem_put] at h ⊢
  tauto

theorem length_flatten_put_le (id : α) (before : List (List α)) (block : List α)
    (after : List (List α)) :
    (before ++ block :: after).flatten.length ≤
      (before ++ put id block :: after).flatten.length := by
  simp only [flatten_append, flatten_cons, length_append]
  have hlength := length_put_le id block
  omega

theorem Counted.outside (h : Counted number next (before ++ block :: after))
    (hid : number id = none) : Counted number next (before ++ put id block :: after) := by
  refine ⟨fun first hfirst other hother n hn => ?_, Nat.le_trans h.next ?_⟩
  · rcases prefix_put hfirst with hold | ⟨rest, hrest, rfl⟩
    · exact h.covers first hold other hother n hn
    · have hfirst : before ++ block :: rest <+: before ++ block :: after := by simpa using hrest
      rcases mem_flatten_put hother with rfl | hother
      · rw [hid] at hn
        cases hn
      · have hcovered := h.covers _ hfirst other hother n hn
        have hlength := length_flatten_put_le id before block rest
        omega
  · exact Nat.succ_le_succ (length_flatten_put_le id before block after)

/-- The next number in the last block. -/
theorem Counted.fresh (h : Counted number next (before ++ [block]))
    (hbelow : Below number next (before ++ [block])) (hid : number id = some next) :
    Counted number (next + 1) (before ++ [put id block]) := by
  have hnew : id ∉ block := fun hmem =>
    Nat.lt_irrefl next (hbelow id (by simp [hmem]) next hid)
  have hlength : (before ++ [put id block]).flatten.length =
      (before ++ [block]).flatten.length + 1 := by
    simp [put_of_notMem hnew, Nat.add_assoc]
  have hnext := h.next
  refine ⟨fun first hfirst other hother n hn => ?_, by omega⟩
  rcases prefix_put hfirst with hold | ⟨rest, hrest, rfl⟩
  · exact h.covers first hold other hother n hn
  · obtain rfl := prefix_nil.1 hrest
    rcases mem_flatten_put hother with rfl | hother
    · rw [hid, Option.mem_some_iff] at hn
      omega
    · have hcovered := h.covers _ prefix_rfl other hother n hn
      omega

theorem Grows.counted {late : Prop} {next' : ℕ}
    (h : Grows number late next blocks next' blocks') (hlate : ¬ late)
    (hb : Numbered number next blocks) (hc : Counted number next blocks) :
    Counted number next' blocks' := by
  induction h with
  | same hsame => exact hc.same hsame
  | outside hid => exact hc.outside hid
  | fresh hid hplace =>
    obtain rfl := hplace.resolve_right hlate
    exact hc.fresh hb.below hid
  | trans hfirst _ ih ih' => exact ih' (hfirst.numbered hb) (ih hb hc)

omit [DecidableEq α] in
/-- The counter may be set back to the count of the ids that are left. -/
theorem Counted.reset {removed : List (List α)} (h : Counted number next (blocks ++ removed)) :
    Counted number (blocks.flatten.length + 1) blocks :=
  ⟨fun first hfirst => h.covers first (hfirst.trans (prefix_append _ _)), Nat.le_refl _⟩

/-! ## Drawn ids -/

/-- The ids of one draw are those of another one under a renaming of all ids. -/
theorem exists_renaming {drawn drawn' : List α} (hlength : drawn.length = drawn'.length)
    (h : drawn.Nodup) (h' : drawn'.Nodup) :
    ∃ σ : Equiv.Perm α, drawn.map σ = drawn' ∧ ∀ id, id ∉ drawn → id ∉ drawn' → σ id = id := by
  induction drawn generalizing drawn' with
  | nil =>
    obtain rfl := length_eq_zero_iff.1 hlength.symm
    exact ⟨Equiv.refl α, rfl, fun _ _ _ => rfl⟩
  | cons first drawn ih =>
    obtain ⟨first', drawn', rfl⟩ := exists_cons_of_length_eq_add_one hlength.symm
    rw [nodup_cons] at h h'
    obtain ⟨σ, hmap, hfix⟩ := ih (Nat.succ.inj hlength) h.2 h'.2
    refine ⟨σ.trans (Equiv.swap (σ first) first'), ?_, fun id hid hid' => ?_⟩
    · rw [map_cons, Equiv.trans_apply, Equiv.swap_apply_left, cons_eq_cons]
      refine ⟨rfl, Eq.trans (map_congr_left fun id hid => ?_) hmap⟩
      have hin : σ id ∈ drawn' := hmap ▸ mem_map_of_mem hid
      refine Equiv.swap_apply_of_ne_of_ne ?_ (ne_of_mem_of_not_mem hin h'.1)
      exact fun heq => h.1 (σ.injective heq ▸ hid)
    · rw [mem_cons, not_or] at hid hid'
      have hsame : σ id = id := hfix id hid.2 hid'.2
      rw [Equiv.trans_apply, hsame]
      refine Equiv.swap_apply_of_ne_of_ne (fun heq => hid.1 ?_) hid'.1
      exact σ.injective (hsame.trans heq)

end Codex.FreshIds
