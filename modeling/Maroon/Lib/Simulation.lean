import Maroon.Lib.Reach

/-!
# Forward simulation

A relation `R` between the states of two systems is a forward simulation when
each step of the first is matched by some steps of the second, none allowed,
that lead to related states again.  Then each run of the first is matched by a
run of the second (`Simulates.run`).  So what the second can never reach is out
of reach of the first, and what the first can reach is within that of the second.

A simulation may rely on an invariant of the first system that was proved on its
own: `Inv` is assumed of the state before the step.
-/

namespace Lib

open Relation

variable {α β : Type} {step : α → α → Prop} {step' : β → β → Prop}

/-- Each step from a state with the invariant is matched from a related state. -/
def Simulates (step : α → α → Prop) (step' : β → β → Prop) (Inv : α → Prop)
    (R : α → β → Prop) : Prop :=
  ∀ a a' b, Inv a → R a b → step a a' → ∃ b', ReflTransGen step' b b' ∧ R a' b'

namespace Simulates

variable {Inv : α → Prop} {R : α → β → Prop}

theorem run (h : Simulates step step' Inv R) (keep : ∀ {a a'}, Inv a → step a a' → Inv a')
    {a a' : α} {b : β} (hrun : ReflTransGen step a a') (inv : Inv a) (hR : R a b) :
    ∃ b', ReflTransGen step' b b' ∧ R a' b' := by
  induction hrun with
  | refl => exact ⟨b, .refl, hR⟩
  | tail hbefore hstep ih =>
      obtain ⟨b₁, hb₁, hR₁⟩ := ih
      obtain ⟨b₂, hb₂, hR₂⟩ := h _ _ _ (invariant_of_steps Inv keep hbefore inv) hR₁ hstep
      exact ⟨b₂, hb₁.trans hb₂, hR₂⟩

end Simulates

end Lib
