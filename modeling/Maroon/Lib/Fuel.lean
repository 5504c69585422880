import Maroon.Lib.Loop

/-!
# Computations that settle

A computation that takes fuel stands for a program that does not.  It *settles*
when some amount of fuel makes it end and more fuel changes nothing.  What the
program does is then what the computation does with enough fuel: it returns or
it panics.  A computation is shown to settle from its parts, in order: what
takes no fuel, sequences, `for` loops, and `while` loops with a variant.
-/

namespace Lib

open Outcome

variable {P α β σ : Type}

/-- Some fuel is enough, and more fuel changes nothing. -/
structure Settles (f : Nat → Outcome P α) : Prop where
  stable : ∀ {fuel fuel' : Nat}, fuel ≤ fuel' → f fuel ≠ .outOfFuel → f fuel' = f fuel
  ends : ∃ fuel, f fuel ≠ .outOfFuel

namespace Settles

variable {f : Nat → Outcome P α}

/-- What takes no fuel settles when it ends. -/
theorem const {x : Outcome P α} (h : x ≠ .outOfFuel) : Settles fun _ => x where
  stable _ _ := rfl
  ends := ⟨0, h⟩

/-- What was returned is returned with any more fuel. -/
theorem ok_of_le (h : Settles f) {fuel fuel' : Nat} {a : α} (ha : f fuel = .ok a)
    (hle : fuel ≤ fuel') : f fuel' = .ok a := by
  rw [h.stable hle (by simp [ha]), ha]

/-- A computation that settles returns or panics. -/
theorem returns_or_panics (h : Settles f) :
    (∃ fuel a, f fuel = .ok a) ∨ ∃ fuel reason, f fuel = .panic reason := by
  obtain ⟨fuel, hends⟩ := h.ends
  cases hf : f fuel with
  | ok a => exact Or.inl ⟨fuel, a, hf⟩
  | panic reason => exact Or.inr ⟨fuel, reason, hf⟩
  | outOfFuel => exact absurd hf hends

/-- It does not do both. -/
theorem not_panic_of_ok (h : Settles f) {fuel fuel' : Nat} {a : α} {reason : P}
    (ha : f fuel = .ok a) : f fuel' ≠ .panic reason := by
  intro hp
  have hmax : f (max fuel fuel') = .ok a := h.ok_of_le ha (Nat.le_max_left _ _)
  have hmax' := h.stable (Nat.le_max_right fuel fuel') (by simp [hp])
  rw [hmax, hp] at hmax'
  cases hmax'

theorem returns (h : Settles f) (hno : ∀ fuel reason, f fuel ≠ .panic reason) :
    ∃ fuel a, f fuel = .ok a := by
  cases h.returns_or_panics with
  | inl hok => exact hok
  | inr hpanic =>
      obtain ⟨fuel, reason, hpanic⟩ := hpanic
      exact absurd hpanic (hno fuel reason)

theorem bind {g : Nat → α → Outcome P β} (hf : Settles f)
    (hg : ∀ fuel a, f fuel = .ok a → Settles fun fuel' => g fuel' a) :
    Settles fun fuel => f fuel >>= g fuel where
  stable := by
    intro fuel fuel' hle hne
    have hne' : f fuel ≠ .outOfFuel := by
      intro hout
      exact hne (by simp [hout])
    simp only [hf.stable hle hne']
    cases ha : f fuel with
    | ok a =>
        rw [ha, ok_bind] at hne
        exact (hg fuel a ha).stable hle hne
    | panic reason => rfl
    | outOfFuel => exact absurd ha hne'
  ends := by
    obtain ⟨fuel, hends⟩ := hf.ends
    cases ha : f fuel with
    | ok a =>
        obtain ⟨fuel', hends'⟩ := (hg fuel a ha).ends
        refine ⟨max fuel fuel', ?_⟩
        rw [hf.ok_of_le ha (Nat.le_max_left _ _), ok_bind,
          (hg fuel a ha).stable (Nat.le_max_right _ _) hends']
        exact hends'
    | panic reason => exact ⟨fuel, by simp [ha]⟩
    | outOfFuel => exact absurd ha hends

/-- A `for` loop settles when its rounds do. -/
theorem foldlM {step : Nat → σ → α → Outcome P σ} {l : List α}
    (h : ∀ a ∈ l, ∀ s, Settles fun fuel => step fuel s a) (s : σ) :
    Settles fun fuel => l.foldlM (step fuel) s := by
  induction l generalizing s with
  | nil => exact const (by simp)
  | cons a l ih =>
      simp only [List.foldlM_cons]
      exact (h a (by simp) s).bind fun _ t _ =>
        ih (fun b hb => h b (List.mem_cons_of_mem a hb)) t

/-- A `while` loop settles when each round ends and lowers a variant. -/
theorem whileLoop {cond : σ → Outcome P Bool} {body : σ → Outcome P σ} (variant : σ → Nat)
    (decided : ∀ s, cond s ≠ .outOfFuel) (ended : ∀ s, body s ≠ .outOfFuel)
    (round : ∀ s s', cond s = .ok true → body s = .ok s' → variant s' < variant s) (s : σ) :
    Settles fun fuel => whileLoop cond body fuel s where
  stable := by
    intro fuel
    induction fuel generalizing s with
    | zero => exact fun _ hne => absurd rfl hne
    | succ fuel ih =>
        intro fuel' hle hne
        cases fuel' with
        | zero => exact absurd hle (Nat.not_succ_le_zero fuel)
        | succ fuel' =>
            simp only [Lib.whileLoop] at hne ⊢
            cases hc : cond s with
            | ok b =>
                cases b with
                | true =>
                    cases hb : body s with
                    | ok t =>
                        simp only [hc, hb, ok_bind, if_true] at hne ⊢
                        exact ih t (Nat.le_of_succ_le_succ hle) hne
                    | panic reason => rfl
                    | outOfFuel => exact absurd hb (ended s)
                | false => rfl
            | panic reason => rfl
            | outOfFuel => exact absurd hc (decided s)
  ends := by
    induction hv : variant s using Nat.strongRecOn generalizing s with
    | ind v ih =>
        cases hc : cond s with
        | ok b =>
            cases b with
            | true =>
                cases hb : body s with
                | ok t =>
                    obtain ⟨fuel, hends⟩ := ih (variant t) (hv ▸ round s t hc hb) t rfl
                    refine ⟨fuel + 1, ?_⟩
                    rwa [whileLoop_true hc, hb, ok_bind]
                | panic reason => exact ⟨1, by simp [whileLoop_true hc, hb]⟩
                | outOfFuel => exact absurd hb (ended s)
            | false => exact ⟨1, by simp [whileLoop_false hc]⟩
        | panic reason => exact ⟨1, by simp [Lib.whileLoop, hc]⟩
        | outOfFuel => exact absurd hc (decided s)

end Settles

end Lib
