import Maroon.Lib.Outcome

/-!
# While loops

`whileLoop cond body` runs `body` as long as `cond` holds, with a bound on the
number of rounds.  Four rules describe it.  `whileLoop_ok` is the rule of
partial correctness, `whileLoop_total` adds a variant and gives termination,
`whileLoop_panic` finds the round that panicked, and `whileLoop_stuck` says that
a round that changes nothing never ends.  A loop terminates when some amount of
fuel makes it return, and it diverges when no amount does.
-/

namespace Lib

open Outcome

variable {P σ : Type}

/-- `while cond { body }` with at most `fuel` evaluations of `cond`. -/
def whileLoop (cond : σ → Outcome P Bool) (body : σ → Outcome P σ) :
    Nat → σ → Outcome P σ
  | 0, _ => .outOfFuel
  | fuel + 1, s => do
      if ← cond s then
        let s' ← body s
        whileLoop cond body fuel s'
      else
        pure s

/-- One round of a loop whose condition holds. -/
theorem whileLoop_true {cond : σ → Outcome P Bool} {body : σ → Outcome P σ} {s : σ}
    (h : cond s = .ok true) (fuel : Nat) :
    whileLoop cond body (fuel + 1) s = body s >>= whileLoop cond body fuel := by
  simp [whileLoop, h]

/-- A loop whose condition fails is over. -/
theorem whileLoop_false {cond : σ → Outcome P Bool} {body : σ → Outcome P σ} {s : σ}
    (h : cond s = .ok false) (fuel : Nat) :
    whileLoop cond body (fuel + 1) s = .ok s := by
  simp [whileLoop, h]

/-- Partial correctness.  A loop that returns ends in its invariant with a
condition that fails. -/
theorem whileLoop_ok {cond : σ → Outcome P Bool} {body : σ → Outcome P σ} (I : σ → Prop)
    (preserve : ∀ s s', I s → cond s = .ok true → body s = .ok s' → I s') :
    ∀ {fuel : Nat} {s s' : σ}, whileLoop cond body fuel s = .ok s' → I s →
      I s' ∧ cond s' = .ok false
  | 0, s, s', h, _ => by simp [whileLoop] at h
  | fuel + 1, s, s', h, hI => by
      simp only [whileLoop, bind_eq_ok] at h
      obtain ⟨b, hb, h⟩ := h
      cases b with
      | true =>
          simp only [if_true, bind_eq_ok] at h
          obtain ⟨t, ht, h⟩ := h
          exact whileLoop_ok I preserve h (preserve s t hI hb ht)
      | false =>
          simp only [Bool.false_eq_true, if_false, pure_eq, Outcome.ok.injEq] at h
          subst h
          exact ⟨hI, hb⟩

/-- Total correctness.  A loop whose rounds keep an invariant and lower a
variant returns within as many rounds as the variant says. -/
theorem whileLoop_total {cond : σ → Outcome P Bool} {body : σ → Outcome P σ}
    (I : σ → Prop) (variant : σ → Nat)
    (decided : ∀ s, I s → ∃ b, cond s = .ok b)
    (round : ∀ s, I s → cond s = .ok true →
      ∃ s', body s = .ok s' ∧ I s' ∧ variant s' < variant s) :
    ∀ {fuel : Nat} {s : σ}, I s → variant s < fuel →
      ∃ s', whileLoop cond body fuel s = .ok s'
  | 0, s, _, hv => absurd hv (Nat.not_lt_zero _)
  | fuel + 1, s, hI, hv => by
      obtain ⟨b, hb⟩ := decided s hI
      cases b with
      | true =>
          obtain ⟨t, ht, hIt, hlt⟩ := round s hI hb
          obtain ⟨s', hs'⟩ :=
            whileLoop_total I variant decided round hIt (show variant t < fuel by omega)
          exact ⟨s', by rw [whileLoop_true hb, ht, ok_bind, hs']⟩
      | false => exact ⟨s, whileLoop_false hb fuel⟩

/-- A loop that panics does so in its condition or in a round, at a state of its
invariant. -/
theorem whileLoop_panic {cond : σ → Outcome P Bool} {body : σ → Outcome P σ} (I : σ → Prop)
    (preserve : ∀ s s', I s → cond s = .ok true → body s = .ok s' → I s') {reason : P} :
    ∀ {fuel : Nat} {s : σ}, whileLoop cond body fuel s = .panic reason → I s →
      ∃ t, I t ∧ (cond t = .panic reason ∨ cond t = .ok true ∧ body t = .panic reason)
  | 0, s, h, _ => by simp [whileLoop] at h
  | fuel + 1, s, h, hI => by
      simp only [whileLoop, bind_eq_panic] at h
      rcases h with hc | ⟨b, hc, h⟩
      · exact ⟨s, hI, Or.inl hc⟩
      · cases b with
        | true =>
            simp only [if_true, bind_eq_panic] at h
            rcases h with hb | ⟨t, ht, h⟩
            · exact ⟨s, hI, Or.inr ⟨hc, hb⟩⟩
            · exact whileLoop_panic I preserve h (preserve s t hI hc ht)
        | false => simp at h

/-- A loop whose round leaves the state as it is never returns. -/
theorem whileLoop_stuck {cond : σ → Outcome P Bool} {body : σ → Outcome P σ} {s : σ}
    (hc : cond s = .ok true) (hb : body s = .ok s) :
    ∀ fuel, whileLoop cond body fuel s = .outOfFuel
  | 0 => rfl
  | fuel + 1 => by rw [whileLoop_true hc, hb, ok_bind, whileLoop_stuck hc hb fuel]

end Lib
