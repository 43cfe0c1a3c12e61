import Codex.Base.UndoStack

/-!
# A stack of blocks and the stack of their elements

A log pushes blocks and undoes the newest. One reader keeps blocks and takes an
undo of `n` to mean `n` blocks, another keeps the elements of the blocks and takes
it to mean `n` elements. They agree at every point of a log if and only if every
undo finds as many elements in its blocks as it takes elements off
(`agree_iff_wholeBlocks`).
-/

namespace Codex

open List

variable {β : Type} {log : List (LogEntry (List β))}

/-- One entry, for the reader that keeps blocks. -/
def blockStep (blocks : List (List β)) : LogEntry (List β) → List (List β)
  | .push block => blocks ++ [block]
  | .undo n => blocks.take (blocks.length - n)

/-- One entry, for the reader that keeps elements. -/
def flatStep (flat : List β) : LogEntry (List β) → List β
  | .push block => flat ++ block
  | .undo n => flat.take (flat.length - n)

def blocksOf (log : List (LogEntry (List β))) : List (List β) := log.foldl blockStep []

def flatOf (log : List (LogEntry (List β))) : List β := log.foldl flatStep []

/-- The newest `n` blocks hold `n` elements, or all of them if there are fewer. -/
def WholeUndo (blocks : List (List β)) (n : ℕ) : Prop :=
  (blocks.drop (blocks.length - n)).flatten.length = min n blocks.flatten.length

/-- Every undo of the log takes whole blocks off. -/
def WholeBlocks (log : List (LogEntry (List β))) : Prop :=
  ∀ init n, init ++ [.undo n] <+: log → WholeUndo (blocksOf init) n

theorem blocksOf_concat (entry : LogEntry (List β)) :
    blocksOf (log ++ [entry]) = blockStep (blocksOf log) entry := by
  simp [blocksOf]

theorem flatOf_concat (entry : LogEntry (List β)) :
    flatOf (log ++ [entry]) = flatStep (flatOf log) entry := by
  simp [flatOf]

theorem mem_blocksOf {block : List β} (h : block ∈ blocksOf log) : .push block ∈ log := by
  induction log using List.reverseRecOn with
  | nil => cases h
  | append_singleton log entry ih =>
    rw [blocksOf_concat] at h
    cases entry with
    | push pushed =>
      rcases mem_append.1 h with h | h
      · exact mem_append_left _ (ih h)
      · rw [mem_singleton.1 h]
        exact mem_append_right _ mem_cons_self
    | undo n => exact mem_append_left _ (ih (mem_of_mem_take h))

theorem mem_flatOf {b : β} (h : b ∈ flatOf log) : ∃ block, .push block ∈ log ∧ b ∈ block := by
  induction log using List.reverseRecOn with
  | nil => cases h
  | append_singleton log entry ih =>
    rw [flatOf_concat] at h
    cases entry with
    | push pushed =>
      rcases mem_append.1 h with h | h
      · obtain ⟨block, hblock, hb⟩ := ih h
        exact ⟨block, mem_append_left _ hblock, hb⟩
      · exact ⟨pushed, mem_append_right _ mem_cons_self, h⟩
    | undo n =>
      obtain ⟨block, hblock, hb⟩ := ih (mem_of_mem_take h)
      exact ⟨block, mem_append_left _ hblock, hb⟩

theorem flatten_split (blocks : List (List β)) (n : ℕ) :
    blocks.flatten = (blocks.take n).flatten ++ (blocks.drop n).flatten := by
  rw [← flatten_append, take_append_drop]

/-- The blocks that are left have as many elements as are left. -/
theorem wholeUndo_iff {blocks : List (List β)} {n : ℕ} :
    WholeUndo blocks n ↔
      blocks.flatten.length - n = (blocks.take (blocks.length - n)).flatten.length := by
  have hlength := congrArg List.length (flatten_split blocks (blocks.length - n))
  rw [length_append] at hlength
  unfold WholeUndo
  omega

theorem WholeUndo.flatten_take {blocks : List (List β)} {n : ℕ} (h : WholeUndo blocks n) :
    blocks.flatten.take (blocks.flatten.length - n) =
      (blocks.take (blocks.length - n)).flatten := by
  rw [wholeUndo_iff.1 h]
  nth_rewrite 1 [flatten_split blocks (blocks.length - n)]
  exact take_left

theorem WholeBlocks.mono {init : List (LogEntry (List β))} (h : WholeBlocks log)
    (hinit : init <+: log) : WholeBlocks init :=
  fun pre n hpre => h pre n (hpre.trans hinit)

theorem flatOf_eq (h : WholeBlocks log) : flatOf log = (blocksOf log).flatten := by
  induction log using List.reverseRecOn with
  | nil => rfl
  | append_singleton log entry ih =>
    rw [flatOf_concat, blocksOf_concat, ih (h.mono (prefix_append _ _))]
    cases entry with
    | push block => simp [flatStep, blockStep]
    | undo n => exact (h log n (prefix_refl _)).flatten_take

/-- **The readers keep as many elements at every point of a log if and only if every undo takes
whole blocks off.** -/
theorem agree_iff_wholeBlocks :
    (∀ init, init <+: log → (flatOf init).length = (blocksOf init).flatten.length) ↔
      WholeBlocks log := by
  constructor
  · intro h
    induction log using List.reverseRecOn with
    | nil =>
      intro init n hinit
      simp at hinit
    | append_singleton log entry ih =>
      have hlog : WholeBlocks log :=
        ih fun init hinit => h init (hinit.trans (prefix_append _ _))
      intro init n hinit
      rcases prefix_concat_iff.1 hinit with heq | hshort
      · obtain ⟨rfl, hentry⟩ := append_inj' heq rfl
        cases hentry
        have hlength := h (init ++ [.undo n]) (prefix_refl _)
        rw [flatOf_concat, blocksOf_concat, flatOf_eq hlog] at hlength
        simp only [flatStep, blockStep, length_take] at hlength
        exact wholeUndo_iff.2 (by omega)
      · exact hlog init n hshort
  · intro h init hinit
    rw [flatOf_eq (h.mono hinit)]

end Codex
