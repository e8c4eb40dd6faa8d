import EsSensor.Library.Batches
import EsSensor.Library.FifoChain

/-!
Blocks that collect messages until a batch is complete and then send on what the
batch gives. Such a block works batch by batch as long as every batch is
acceptable to it, and its state is the leftover.
-/
namespace EsSensor.CollectingBlock

open Batches FifoChain

variable {σ M : Type}

/-- `state` is the state of the block that holds the given messages. -/
structure Collects (b : Block σ M) (n : ℕ) (state : List M → σ) (Ok : List M → Prop)
    (emit : List M → List M) : Prop where
  init : b.init = state []
  keep : ∀ held m, held.length + 1 < n → b.step (state held) m = (state (held ++ [m]), [])
  full : ∀ held m, held.length + 1 = n → Ok (held ++ [m]) →
    b.step (state held) m = (state [], emit (held ++ [m]))

theorem Collects.run {b : Block σ M} {n : ℕ} {state : List M → σ} {Ok : List M → Prop}
    {emit : List M → List M} (hb : Collects b n state Ok emit) (hn : 1 ≤ n) (ms : List M)
    (hok : ∀ batch ∈ batches n ms, Ok batch) :
    b.stateAfter ms = state (leftover n ms) ∧ b.outputs ms = (batches n ms).flatMap emit := by
  induction ms using List.reverseRecOn with
  | nil => exact ⟨by simp [hb.init], by simp⟩
  | append_singleton ms m ih =>
    have hinitial := batches_isPrefix hn (List.prefix_append ms [m])
    obtain ⟨hstate, houts⟩ := ih (fun batch hbatch => hok batch (hinitial.subset hbatch))
    rw [b.stateAfter_concat, b.outputs_concat, hstate, houts]
    rcases concat_cases hn ms m with ⟨hfull, hbatches, hleft⟩ | ⟨hlt, hbatches, hleft⟩
    · rw [hb.full _ m hfull (hok _ (by simp [hbatches])), hbatches, hleft]
      simp
    · rw [hb.keep _ m hlt, hbatches, hleft]
      simp

end EsSensor.CollectingBlock
