/-
  TomasuloCpu.Lib.Ranking — progress by a rank that goes down.

  A state may have several ranks; a step that does not reach the goal leads to a state with
  a smaller one (`eventually`).
-/
import Mathlib.Logic.Function.Iterate

namespace TomasuloCpu

namespace Ranking

variable {σ : Type} (next : σ → σ) (Ranked : σ → Nat → Prop) (Goal : σ → Prop)

/-- The goal is reached in no more steps than the rank. -/
theorem eventually (hstep : ∀ s r, Ranked s r → Goal s ∨ ∃ r' < r, Ranked (next s) r') {s : σ} {r : Nat}
    (h : Ranked s r) : ∃ k ≤ r, Goal (next^[k] s) := by
  induction r using Nat.strongRecOn generalizing s with
  | _ r ih =>
    rcases hstep s r h with hgoal | ⟨r', hlt, h'⟩
    · exact ⟨0, Nat.zero_le r, hgoal⟩
    · obtain ⟨k, hk, hgoal⟩ := ih r' hlt h'
      refine ⟨k + 1, by omega, ?_⟩
      rw [Function.iterate_succ_apply]
      exact hgoal

end Ranking

end TomasuloCpu
