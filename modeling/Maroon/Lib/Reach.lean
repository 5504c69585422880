import Mathlib.Data.Finset.Insert
import Mathlib.Logic.Relation

/-!
# Goals that can be reached

What a system can reach, step by step, when it is free to choose its steps.
`I` is what is known of every state on the way.  Goals that can be reached one
at a time, without losing another, can be reached together (`reach_all`).  A
goal can be reached if a measure can be lowered as long as it is not there
(`reach_of_measure`).
-/

namespace Lib

open Relation

variable {σ : Type} {step : σ → σ → Prop}

/-- What every step keeps holds after any number of them. -/
theorem invariant_of_steps (I : σ → Prop) (keep : ∀ {s s'}, I s → step s s' → I s') {s s' : σ}
    (h : ReflTransGen step s s') (init : I s) : I s' := by
  induction h with
  | refl => exact init
  | tail _ hstep ih => exact keep ih hstep

theorem reach_all {ι : Type} {I : σ → Prop} {Goal : ι → σ → Prop} {targets : Finset ι}
    (each : ∀ i ∈ targets, ∀ s, I s → ∃ s', ReflTransGen step s s' ∧ I s' ∧ Goal i s' ∧
      ∀ j, Goal j s → Goal j s') {s : σ} (init : I s) :
    ∃ s', ReflTransGen step s s' ∧ I s' ∧ ∀ i ∈ targets, Goal i s' := by
  induction targets using Finset.cons_induction with
  | empty => exact ⟨s, .refl, init, by simp⟩
  | cons i targets _ ih =>
      obtain ⟨s₁, hrun₁, hI₁, hgoals⟩ := ih fun j hj => each j (Finset.mem_cons_of_mem hj)
      obtain ⟨s₂, hrun₂, hI₂, hgoal, hkept⟩ := each i (Finset.mem_cons_self i targets) s₁ hI₁
      refine ⟨s₂, hrun₁.trans hrun₂, hI₂, fun j hj => ?_⟩
      rcases Finset.mem_cons.mp hj with rfl | hj
      · exact hgoal
      · exact hkept j (hgoals j hj)

theorem reach_of_measure {I Goal : σ → Prop} (measure : σ → ℕ)
    (round : ∀ s, I s → ∃ s', ReflTransGen step s s' ∧ I s' ∧
      (Goal s' ∨ measure s' < measure s)) {s : σ} (init : I s) :
    ∃ s', ReflTransGen step s s' ∧ I s' ∧ Goal s' := by
  induction hm : measure s using Nat.strong_induction_on generalizing s with
  | _ m ih =>
      obtain ⟨s₁, hrun₁, hI₁, hgoal | hlt⟩ := round s init
      · exact ⟨s₁, hrun₁, hI₁, hgoal⟩
      · obtain ⟨s₂, hrun₂, hI₂, hgoal⟩ := ih _ (hm ▸ hlt) hI₁ rfl
        exact ⟨s₂, hrun₁.trans hrun₂, hI₂, hgoal⟩

end Lib
