import Mathlib.Algebra.Group.Nat.Defs
import Mathlib.Data.List.DropRight
import Mathlib.Data.List.Induction

/-!
# A buffer for the head and the tail of an output

`HeadTailBuffer` (`core/src/unified_exec/head_tail_buffer.rs`) keeps the first and the
last bytes of what is pushed, each half in the chunks it came in, and counts what it
drops in between. What it holds depends on the bytes alone, and not on the chunks
(`headTailBuffer_eq`).
-/

namespace Codex.Truncation

open List

abbrev Bytes := List UInt8

/-- `usize::saturating_add`. -/
def saturatingAdd (a b : ℕ) : ℕ := min (a + b) (2 ^ 64 - 1)

theorem saturatingAdd_eq {a b : ℕ} (h : a + b < 2 ^ 64) : saturatingAdd a b = a + b := by
  unfold saturatingAdd
  omega

structure HeadTailBuffer where
  maxBytes : ℕ
  headBudget : ℕ
  tailBudget : ℕ
  head : List Bytes := []
  tail : List Bytes := []
  headBytes : ℕ := 0
  tailBytes : ℕ := 0
  omittedBytes : ℕ := 0
  deriving DecidableEq

/-- The loop of `trim_tail_to_budget`: the chunks, the count of the tail and the omitted bytes. -/
def trimTail (excess tailBytes omittedBytes : ℕ) : List Bytes → List Bytes × ℕ × ℕ
  | [] => ([], tailBytes, omittedBytes)
  | front :: rest =>
    if excess = 0 then (front :: rest, tailBytes, omittedBytes)
    else if front.length ≤ excess then
      trimTail (excess - front.length) (tailBytes - front.length)
        (saturatingAdd omittedBytes front.length) rest
    else
      (front.drop excess :: rest, tailBytes - excess, saturatingAdd omittedBytes excess)

namespace HeadTailBuffer

def new (maxBytes : ℕ) : HeadTailBuffer where
  maxBytes := maxBytes
  headBudget := maxBytes / 2
  tailBudget := maxBytes - maxBytes / 2

def retainedBytes (buffer : HeadTailBuffer) : ℕ := saturatingAdd buffer.headBytes buffer.tailBytes

def trimTailToBudget (buffer : HeadTailBuffer) : HeadTailBuffer :=
  let (tail, tailBytes, omittedBytes) :=
    trimTail (buffer.tailBytes - buffer.tailBudget) buffer.tailBytes buffer.omittedBytes buffer.tail
  { buffer with tail, tailBytes, omittedBytes }

def pushToTail (buffer : HeadTailBuffer) (chunk : Bytes) : HeadTailBuffer :=
  if buffer.tailBudget = 0 then
    { buffer with omittedBytes := saturatingAdd buffer.omittedBytes chunk.length }
  else if buffer.tailBudget ≤ chunk.length then
    let kept := chunk.drop (chunk.length - buffer.tailBudget)
    let dropped := chunk.length - kept.length
    { buffer with
      omittedBytes := saturatingAdd (saturatingAdd buffer.omittedBytes buffer.tailBytes) dropped
      tail := [kept]
      tailBytes := kept.length }
  else
    trimTailToBudget { buffer with
      tailBytes := saturatingAdd buffer.tailBytes chunk.length
      tail := buffer.tail ++ [chunk] }

def pushChunk (buffer : HeadTailBuffer) (chunk : Bytes) : HeadTailBuffer :=
  if buffer.maxBytes = 0 then
    { buffer with omittedBytes := saturatingAdd buffer.omittedBytes chunk.length }
  else if buffer.headBytes < buffer.headBudget then
    let remainingHead := buffer.headBudget - buffer.headBytes
    if chunk.length ≤ remainingHead then
      { buffer with
        headBytes := saturatingAdd buffer.headBytes chunk.length
        head := buffer.head ++ [chunk] }
    else
      let headPart := chunk.take remainingHead
      let tailPart := chunk.drop remainingHead
      if headPart.isEmpty then buffer.pushToTail tailPart
      else
        pushToTail { buffer with
          headBytes := saturatingAdd buffer.headBytes headPart.length
          head := buffer.head ++ [headPart] } tailPart
  else buffer.pushToTail chunk

def toBytes (buffer : HeadTailBuffer) : Bytes := buffer.head.flatten ++ buffer.tail.flatten

def drainChunks (buffer : HeadTailBuffer) : List Bytes × HeadTailBuffer :=
  (buffer.head ++ buffer.tail,
    { buffer with head := [], tail := [], headBytes := 0, tailBytes := 0, omittedBytes := 0 })

end HeadTailBuffer

/-! ## Runs -/

inductive BufferOp where
  | pushChunk (chunk : Bytes)
  | drainChunks

def HeadTailBuffer.step (buffer : HeadTailBuffer) : BufferOp → HeadTailBuffer
  | .pushChunk chunk => buffer.pushChunk chunk
  | .drainChunks => buffer.drainChunks.2

def HeadTailBuffer.run (maxBytes : ℕ) (ops : List BufferOp) : HeadTailBuffer :=
  ops.foldl HeadTailBuffer.step (.new maxBytes)

/-- The bytes that were pushed since the last drain. -/
def pushedBytes (ops : List BufferOp) : Bytes :=
  ops.foldl (fun pushed op =>
    match op with
    | .pushChunk chunk => pushed ++ chunk
    | .drainChunks => []) []

/-! ## The tail -/

theorem trimTail_eq (tailBytes : ℕ) {tail : List Bytes} {excess omittedBytes : ℕ}
    (hexcess : excess ≤ tail.flatten.length) (hfits : omittedBytes + excess < 2 ^ 64) :
    ∃ trimmed, trimTail excess tailBytes omittedBytes tail =
        (trimmed, tailBytes - excess, omittedBytes + excess) ∧
      trimmed.flatten = tail.flatten.drop excess := by
  induction tail generalizing excess tailBytes omittedBytes with
  | nil =>
    obtain rfl : excess = 0 := Nat.le_zero.1 hexcess
    exact ⟨[], rfl, rfl⟩
  | cons front rest ih =>
    rw [flatten_cons, length_append] at hexcess
    unfold trimTail
    by_cases hzero : excess = 0
    · rw [if_pos hzero, hzero]
      exact ⟨front :: rest, rfl, rfl⟩
    rw [if_neg hzero]
    by_cases hfront : front.length ≤ excess
    · -- the whole front goes, and the loop goes on behind it
      rw [if_pos hfront, saturatingAdd_eq (by omega)]
      have hexcess' : excess - front.length ≤ rest.flatten.length := by omega
      have hfits' : omittedBytes + front.length + (excess - front.length) < 2 ^ 64 := by omega
      obtain ⟨trimmed, hrun, hflatten⟩ := ih (tailBytes - front.length) hexcess' hfits'
      refine ⟨trimmed, ?_, ?_⟩
      · rw [hrun]
        congr 2 <;> omega
      · rw [hflatten, flatten_cons, drop_append, drop_eq_nil_of_le hfront]
        rfl
    · rw [if_neg hfront, saturatingAdd_eq hfits]
      refine ⟨_, rfl, ?_⟩
      rw [flatten_cons, flatten_cons, drop_append,
        Nat.sub_eq_zero_of_le (show excess ≤ front.length by omega), drop_zero]

/-- The tail of a buffer holds the last bytes of `rest`, as many as its budget allows. -/
structure HeadTailBuffer.TailHolds (buffer : HeadTailBuffer) (rest : Bytes) : Prop where
  tail : buffer.tail.flatten = rest.rtake buffer.tailBudget
  tailBytes : buffer.tailBytes = min rest.length buffer.tailBudget
  omittedBytes : buffer.omittedBytes = rest.length - buffer.tailBudget

variable {buffer : HeadTailBuffer} {rest pushed chunk : Bytes} {maxBytes : ℕ} {ops : List BufferOp}

theorem rtake_append_of_le (h : maxBytes ≤ chunk.length) :
    (rest ++ chunk).rtake maxBytes = chunk.rtake maxBytes := by
  unfold List.rtake
  rw [length_append, drop_append, drop_eq_nil_of_le (by omega), nil_append]
  congr 1
  omega

theorem rtake_append_of_ge (h : chunk.length ≤ maxBytes) :
    (rest ++ chunk).rtake maxBytes = rest.rtake (maxBytes - chunk.length) ++ chunk := by
  unfold List.rtake
  rw [length_append, drop_append]
  have hchunk : rest.length + chunk.length - maxBytes - rest.length = 0 := by omega
  rw [hchunk, drop_zero]
  congr 2
  omega

/-- The last bytes of the last bytes. -/
theorem drop_rtake (rest : Bytes) {maxBytes excess : ℕ} (h : excess ≤ maxBytes) :
    (rest.rtake maxBytes).drop (min rest.length maxBytes - (maxBytes - excess)) =
      rest.rtake (maxBytes - excess) := by
  unfold List.rtake
  rw [drop_drop]
  congr 1
  omega

/-- What is pushed to the tail takes the place of its oldest bytes. -/
theorem HeadTailBuffer.TailHolds.pushToTail (h : buffer.TailHolds rest)
    (hfits : (rest ++ chunk).length < 2 ^ 64) :
    (buffer.pushToTail chunk).TailHolds (rest ++ chunk) ∧
      ∃ tail tailBytes omittedBytes, buffer.pushToTail chunk =
        { buffer with tail, tailBytes, omittedBytes } := by
  rw [length_append] at hfits
  have htailBytes := h.tailBytes
  have homitted := h.omittedBytes
  unfold HeadTailBuffer.pushToTail
  by_cases hnone : buffer.tailBudget = 0
  · rw [if_pos hnone]
    refine ⟨⟨?_, ?_, ?_⟩, buffer.tail, buffer.tailBytes, _, rfl⟩
    · show buffer.tail.flatten = (rest ++ chunk).rtake buffer.tailBudget
      rw [h.tail, hnone]
      simp [List.rtake]
    · show buffer.tailBytes = min (rest ++ chunk).length buffer.tailBudget
      omega
    · show saturatingAdd buffer.omittedBytes chunk.length =
        (rest ++ chunk).length - buffer.tailBudget
      rw [saturatingAdd_eq (by omega), length_append]
      omega
  rw [if_neg hnone]
  by_cases hlong : buffer.tailBudget ≤ chunk.length
  · rw [if_pos hlong]
    have hkept : (chunk.drop (chunk.length - buffer.tailBudget)).length = buffer.tailBudget := by
      rw [length_drop]
      omega
    refine ⟨⟨?_, ?_, ?_⟩, _, _, _, rfl⟩
    · rw [rtake_append_of_le hlong]
      exact append_nil _
    · show (chunk.drop _).length = min (rest ++ chunk).length buffer.tailBudget
      rw [hkept, length_append]
      omega
    · show saturatingAdd (saturatingAdd buffer.omittedBytes buffer.tailBytes)
        (chunk.length - (chunk.drop _).length) = (rest ++ chunk).length - buffer.tailBudget
      have hall : saturatingAdd buffer.omittedBytes buffer.tailBytes = rest.length := by
        rw [saturatingAdd_eq (by omega)]
        omega
      rw [hkept, hall, saturatingAdd_eq (by omega), length_append]
      omega
  · rw [if_neg hlong]
    have hcount : saturatingAdd buffer.tailBytes chunk.length = buffer.tailBytes + chunk.length :=
      saturatingAdd_eq (by omega)
    have hflatten : (buffer.tail ++ [chunk]).flatten = rest.rtake buffer.tailBudget ++ chunk := by
      rw [flatten_append, flatten_singleton, h.tail]
    have hlength : (rest.rtake buffer.tailBudget).length = min rest.length buffer.tailBudget := by
      rw [List.rtake, length_drop]
      omega
    have hexcess : buffer.tailBytes + chunk.length - buffer.tailBudget ≤
        (rest.rtake buffer.tailBudget).length := by omega
    have hfits' : buffer.omittedBytes + (buffer.tailBytes + chunk.length - buffer.tailBudget) <
        2 ^ 64 := by omega
    obtain ⟨trimmed, htrim, htrimmed⟩ := trimTail_eq (buffer.tailBytes + chunk.length)
      (Nat.le_trans hexcess (hflatten ▸ (prefix_append _ chunk).length_le)) hfits'
    unfold trimTailToBudget
    dsimp only
    rw [hcount, htrim]
    refine ⟨⟨?_, ?_, ?_⟩, _, _, _, rfl⟩
    · show trimmed.flatten = (rest ++ chunk).rtake buffer.tailBudget
      have hkept := drop_rtake rest (Nat.le_of_not_le hlong)
      rw [htrimmed, hflatten, rtake_append_of_ge (by omega), drop_append,
        Nat.sub_eq_zero_of_le hexcess, drop_zero, ← hkept]
      congr 2
      omega
    · show buffer.tailBytes + chunk.length - _ = min (rest ++ chunk).length buffer.tailBudget
      rw [length_append]
      omega
    · show buffer.omittedBytes + _ = (rest ++ chunk).length - buffer.tailBudget
      rw [length_append]
      omega

/-! ## The whole buffer -/

/-- The buffer has seen the bytes `pushed`. -/
structure HeadTailBuffer.Holds (buffer : HeadTailBuffer) (pushed : Bytes) : Prop where
  head : buffer.head.flatten = pushed.take buffer.headBudget
  headBytes : buffer.headBytes = min pushed.length buffer.headBudget
  rest : buffer.TailHolds (pushed.drop buffer.headBudget)

/-- The two budgets share the capacity. -/
structure HeadTailBuffer.Budgets (buffer : HeadTailBuffer) (capacity : ℕ) : Prop where
  maxBytes : buffer.maxBytes = capacity
  headBudget : buffer.headBudget = capacity / 2
  tailBudget : buffer.tailBudget = capacity - capacity / 2

theorem trimTailToBudget_budgets (h : buffer.Budgets maxBytes) :
    buffer.trimTailToBudget.Budgets maxBytes := ⟨h.maxBytes, h.headBudget, h.tailBudget⟩

theorem pushToTail_budgets (h : buffer.Budgets maxBytes) :
    (buffer.pushToTail chunk).Budgets maxBytes := by
  unfold HeadTailBuffer.pushToTail
  split
  · exact ⟨h.maxBytes, h.headBudget, h.tailBudget⟩
  split
  · exact ⟨h.maxBytes, h.headBudget, h.tailBudget⟩
  · exact trimTailToBudget_budgets ⟨h.maxBytes, h.headBudget, h.tailBudget⟩

theorem pushChunk_budgets (h : buffer.Budgets maxBytes) :
    (buffer.pushChunk chunk).Budgets maxBytes := by
  unfold HeadTailBuffer.pushChunk
  split
  · exact ⟨h.maxBytes, h.headBudget, h.tailBudget⟩
  split
  · dsimp only
    split
    · exact ⟨h.maxBytes, h.headBudget, h.tailBudget⟩
    split
    · exact pushToTail_budgets h
    · exact pushToTail_budgets ⟨h.maxBytes, h.headBudget, h.tailBudget⟩
  · exact pushToTail_budgets h

theorem run_budgets (maxBytes : ℕ) (ops : List BufferOp) :
    (HeadTailBuffer.run maxBytes ops).Budgets maxBytes := by
  induction ops using List.reverseRecOn with
  | nil => exact ⟨rfl, rfl, rfl⟩
  | append_singleton ops op ih =>
    unfold HeadTailBuffer.run at ih ⊢
    rw [foldl_append]
    cases op with
    | pushChunk chunk => exact pushChunk_budgets ih
    | drainChunks => exact ⟨ih.maxBytes, ih.headBudget, ih.tailBudget⟩

/-- Pushing to the tail does not touch the head. -/
theorem HeadTailBuffer.Holds.pushToTail (h : buffer.Holds pushed)
    (hfull : buffer.headBudget ≤ pushed.length) (hfits : (pushed ++ chunk).length < 2 ^ 64) :
    (buffer.pushToTail chunk).Holds (pushed ++ chunk) := by
  have hdrop : (pushed ++ chunk).drop buffer.headBudget =
      pushed.drop buffer.headBudget ++ chunk := drop_append_of_le_length hfull
  have hlength : (pushed.drop buffer.headBudget ++ chunk).length ≤ (pushed ++ chunk).length :=
    hdrop ▸ (drop_sublist _ _).length_le
  obtain ⟨hrest, tail, tailBytes, omittedBytes, heq⟩ :=
    h.rest.pushToTail (Nat.lt_of_le_of_lt hlength hfits)
  rw [heq] at hrest ⊢
  refine ⟨?_, ?_, hdrop ▸ hrest⟩
  · show buffer.head.flatten = (pushed ++ chunk).take buffer.headBudget
    rw [take_append_of_le_length hfull, h.head]
  · show buffer.headBytes = min (pushed ++ chunk).length buffer.headBudget
    have hcount := h.headBytes
    rw [length_append]
    omega

/-- What still fits the head leaves the tail as it is. -/
theorem HeadTailBuffer.Holds.pushHead (h : buffer.Holds pushed)
    (hroom : pushed.length + chunk.length ≤ buffer.headBudget)
    (hfits : (pushed ++ chunk).length < 2 ^ 64) :
    HeadTailBuffer.Holds { buffer with
      headBytes := saturatingAdd buffer.headBytes chunk.length
      head := buffer.head ++ [chunk] } (pushed ++ chunk) := by
  have hcount := h.headBytes
  have hlength : (pushed ++ chunk).length = pushed.length + chunk.length := length_append
  have hnone : pushed.drop buffer.headBudget = [] := drop_eq_nil_of_le (by omega)
  have hnone' : (pushed ++ chunk).drop buffer.headBudget = [] := drop_eq_nil_of_le (by omega)
  refine ⟨?_, ?_, ?_⟩
  · show (buffer.head ++ [chunk]).flatten = (pushed ++ chunk).take buffer.headBudget
    rw [flatten_append, flatten_singleton, h.head, take_of_length_le (by omega),
      take_of_length_le (by omega)]
  · show saturatingAdd buffer.headBytes chunk.length =
      min (pushed ++ chunk).length buffer.headBudget
    rw [saturatingAdd_eq (by omega), hlength]
    omega
  · have hrest := h.rest
    rw [hnone] at hrest
    show HeadTailBuffer.TailHolds _ ((pushed ++ chunk).drop buffer.headBudget)
    rw [hnone']
    exact ⟨hrest.tail, hrest.tailBytes, hrest.omittedBytes⟩

theorem HeadTailBuffer.Holds.pushChunk (h : buffer.Holds pushed) (hbudgets : buffer.Budgets maxBytes)
    (hfits : (pushed ++ chunk).length < 2 ^ 64) :
    (buffer.pushChunk chunk).Holds (pushed ++ chunk) := by
  have hcount := h.headBytes
  have hhead := hbudgets.headBudget
  have htail := hbudgets.tailBudget
  unfold HeadTailBuffer.pushChunk
  by_cases hzero : buffer.maxBytes = 0
  · -- nothing is kept, as by a tail without a budget
    have hnone : buffer.tailBudget = 0 := by
      rw [htail, ← hbudgets.maxBytes, hzero]
    rw [if_pos hzero]
    have hpushed := h.pushToTail (by rw [hhead, ← hbudgets.maxBytes, hzero]; exact Nat.zero_le _)
      hfits
    unfold HeadTailBuffer.pushToTail at hpushed
    rwa [if_pos hnone] at hpushed
  rw [if_neg hzero]
  by_cases hroom : buffer.headBytes < buffer.headBudget
  · rw [if_pos hroom]
    dsimp only
    by_cases hshort : chunk.length ≤ buffer.headBudget - buffer.headBytes
    · rw [if_pos hshort]
      exact h.pushHead (by omega) hfits
    · rw [if_neg hshort]
      have hsplit : pushed ++ chunk = (pushed ++ chunk.take (buffer.headBudget - buffer.headBytes)) ++
          chunk.drop (buffer.headBudget - buffer.headBytes) := by
        rw [List.append_assoc, take_append_drop]
      have hpart : (chunk.take (buffer.headBudget - buffer.headBytes)).length =
          buffer.headBudget - buffer.headBytes := length_take_of_le (by omega)
      have hsome : (chunk.take (buffer.headBudget - buffer.headBytes)).isEmpty = false := by
        rw [isEmpty_eq_false_iff, ← length_pos_iff]
        omega
      rw [hsome, if_neg Bool.false_ne_true, hsplit]
      rw [hsplit, length_append] at hfits
      have hfilled := h.pushHead (show pushed.length + (chunk.take _).length ≤ _ by
        rw [hpart]; omega) (by omega)
      refine hfilled.pushToTail ?_ (by rw [length_append]; exact hfits)
      show buffer.headBudget ≤ (pushed ++ chunk.take _).length
      rw [length_append]
      omega
  · rw [if_neg hroom]
    exact h.pushToTail (by omega) hfits

theorem pushedBytes_concat (ops : List BufferOp) (chunk : Bytes) :
    pushedBytes (ops ++ [.pushChunk chunk]) = pushedBytes ops ++ chunk := by
  unfold pushedBytes
  rw [foldl_append]
  rfl

theorem run_holds (maxBytes : ℕ) (ops : List BufferOp) (h : (pushedBytes ops).length < 2 ^ 64) :
    (HeadTailBuffer.run maxBytes ops).Holds (pushedBytes ops) := by
  have hempty : ∀ budgets : HeadTailBuffer, HeadTailBuffer.Holds { budgets with
      head := [], tail := [], headBytes := 0, tailBytes := 0, omittedBytes := 0 } [] := by
    intro budgets
    refine ⟨take_nil.symm, (Nat.zero_min _).symm, ?_⟩
    rw [drop_nil]
    exact ⟨rtake_nil _ |>.symm, (Nat.zero_min _).symm, (Nat.zero_sub _).symm⟩
  induction ops using List.reverseRecOn with
  | nil => exact hempty (.new maxBytes)
  | append_singleton ops op ih =>
    cases op with
    | pushChunk chunk =>
      rw [pushedBytes_concat] at h ⊢
      have hbefore := ih (by rw [length_append] at h; omega)
      unfold HeadTailBuffer.run
      rw [foldl_append]
      exact hbefore.pushChunk (run_budgets maxBytes ops) h
    | drainChunks =>
      unfold HeadTailBuffer.run pushedBytes
      rw [foldl_append, foldl_append]
      exact hempty _

/-! ## What is kept -/

section Kept

variable (h : buffer.Holds pushed) (hbudgets : buffer.Budgets maxBytes)

include h hbudgets

theorem HeadTailBuffer.Holds.toBytes_eq : buffer.toBytes =
    if pushed.length ≤ maxBytes then pushed
    else pushed.take (maxBytes / 2) ++ pushed.rtake (maxBytes - maxBytes / 2) := by
  have hrest : buffer.tail.flatten = (pushed.drop (maxBytes / 2)).drop
      (pushed.length - maxBytes / 2 - (maxBytes - maxBytes / 2)) := by
    rw [h.rest.tail, List.rtake, length_drop, hbudgets.headBudget, hbudgets.tailBudget]
  unfold toBytes
  rw [h.head, hbudgets.headBudget, hrest]
  split
  · next hle =>
    have hall : pushed.length - maxBytes / 2 - (maxBytes - maxBytes / 2) = 0 := by omega
    rw [hall, drop_zero, take_append_drop]
  · next hgt =>
    rw [drop_drop, List.rtake]
    congr 2
    omega

theorem HeadTailBuffer.Holds.omittedBytes_eq :
    buffer.omittedBytes = pushed.length - maxBytes := by
  rw [h.rest.omittedBytes, hbudgets.headBudget, hbudgets.tailBudget, length_drop]
  omega

theorem HeadTailBuffer.Holds.retainedBytes_eq (hfits : pushed.length < 2 ^ 64) :
    buffer.retainedBytes = min pushed.length maxBytes := by
  have hhead := h.headBytes
  have htail := h.rest.tailBytes
  rw [hbudgets.headBudget] at hhead
  rw [hbudgets.headBudget, hbudgets.tailBudget, length_drop] at htail
  unfold retainedBytes
  rw [saturatingAdd_eq (by omega)]
  omega

end Kept

/-- **The bytes alone decide**: what fits is kept; of more the first half of the capacity and the
last rest of it are, and the omitted bytes are counted. How the bytes were cut does not show. -/
theorem headTailBuffer_eq (maxBytes : ℕ) (ops : List BufferOp)
    (h : (pushedBytes ops).length < 2 ^ 64) :
    (HeadTailBuffer.run maxBytes ops).toBytes =
      (if (pushedBytes ops).length ≤ maxBytes then pushedBytes ops
        else (pushedBytes ops).take (maxBytes / 2) ++
          (pushedBytes ops).rtake (maxBytes - maxBytes / 2)) ∧
    (HeadTailBuffer.run maxBytes ops).omittedBytes =
      (pushedBytes ops).length - (HeadTailBuffer.run maxBytes ops).retainedBytes ∧
    ∀ ops', pushedBytes ops' = pushedBytes ops →
      (HeadTailBuffer.run maxBytes ops').toBytes = (HeadTailBuffer.run maxBytes ops).toBytes ∧
      (HeadTailBuffer.run maxBytes ops').omittedBytes =
        (HeadTailBuffer.run maxBytes ops).omittedBytes := by
  have hholds := run_holds maxBytes ops h
  have hbudgets := run_budgets maxBytes ops
  refine ⟨hholds.toBytes_eq hbudgets, ?_, fun ops' hsame => ?_⟩
  · rw [hholds.omittedBytes_eq hbudgets, hholds.retainedBytes_eq hbudgets h]
    omega
  · have hholds' := run_holds maxBytes ops' (hsame ▸ h)
    have hbudgets' := run_budgets maxBytes ops'
    rw [hsame] at hholds'
    rw [hholds.toBytes_eq hbudgets, hholds'.toBytes_eq hbudgets', hholds.omittedBytes_eq hbudgets,
      hholds'.omittedBytes_eq hbudgets']
    exact ⟨rfl, rfl⟩

/-- Ten bytes are room for five at the head and five at the tail. -/
theorem headTailBuffer_eq_ten :
    (HeadTailBuffer.run 10 [.pushChunk [99], .drainChunks, .pushChunk [0, 1, 2, 3, 4, 5, 6, 7, 8, 9],
      .pushChunk [97, 98]]).toBytes = [0, 1, 2, 3, 4, 7, 8, 9, 97, 98] :=
  (headTailBuffer_eq 10 [.pushChunk [99], .drainChunks, .pushChunk [0, 1, 2, 3, 4, 5, 6, 7, 8, 9],
    .pushChunk [97, 98]] (by decide)).1.trans (by decide)

end Codex.Truncation
