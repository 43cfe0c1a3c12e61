import Mathlib.Data.List.Basic

/-!
# Readers of a stream that arrives in chunks

A reader takes a stream piece by piece and gives out a part of its result at
each piece and the rest at the end. `Reader.run_eq` is the rule by which the
result does not depend on the pieces: it suffices to say, for each state, what
the reader still gives out on a remaining stream (`Meaning`).
-/

namespace Codex

/-- `push` takes a piece, `finish` the end of the stream, and `glue` joins two results. -/
structure Reader (σ α ω : Type) where
  push : σ → List α → σ × ω
  finish : σ → ω
  glue : ω → ω → ω

namespace Reader

variable {σ α ω : Type}

/-- All that is given out on the pieces and at the end. -/
def run (reader : Reader σ α ω) : σ → List (List α) → ω
  | s, [] => reader.finish s
  | s, piece :: pieces =>
    reader.glue (reader.push s piece).2 (reader.run (reader.push s piece).1 pieces)

/-- `mean s rest` is what the reader in state `s` gives out in all on the stream `rest`, for the
states of which `Inv` holds. Results are compared through `view`. -/
structure Meaning {ω' : Type} (reader : Reader σ α ω) (Inv : σ → Prop) (view : ω → ω')
    (glue : ω' → ω' → ω') (mean : σ → List α → ω') : Prop where
  view_glue : ∀ a b, view (reader.glue a b) = glue (view a) (view b)
  finish : ∀ s, Inv s → view (reader.finish s) = mean s []
  keep : ∀ s piece, Inv s → Inv (reader.push s piece).1
  push : ∀ s piece rest, Inv s →
    glue (view (reader.push s piece).2) (mean (reader.push s piece).1 rest) = mean s (piece ++ rest)

/-- **The pieces do not matter.** -/
theorem run_eq {ω' : Type} {reader : Reader σ α ω} {Inv : σ → Prop} {view : ω → ω'}
    {glue : ω' → ω' → ω'} {mean : σ → List α → ω'} (h : reader.Meaning Inv view glue mean) {s : σ}
    (hs : Inv s) (pieces : List (List α)) : view (reader.run s pieces) = mean s pieces.flatten := by
  induction pieces generalizing s with
  | nil => exact h.finish s hs
  | cons piece pieces ih =>
    rw [run, h.view_glue, ih (h.keep s piece hs), h.push s piece _ hs, List.flatten_cons]

end Reader

end Codex
