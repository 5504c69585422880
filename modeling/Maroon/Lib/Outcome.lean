import Mathlib.Data.List.Basic

/-!
# Outcomes of a checked computation

A computation of a language with checked arithmetic and unbounded loops ends in
one of three ways.  It returns a value, it panics for some reason, or it is
still running when the fuel given to its loops is used up.  Programs are
written in `do` notation.  A `for` loop over a list is `List.foldlM`, and the
rules below (`foldlM_split` and its two weaker forms for what holds when the loop
returns, `foldlM_total` for why it returns) are how such a loop is reasoned
about.
-/

namespace Lib

/-- How a computation ends.  `P` is the type of panics. -/
inductive Outcome (P : Type) (α : Type) where
  | ok (value : α)
  | panic (reason : P)
  | outOfFuel
deriving DecidableEq, Repr

namespace Outcome

variable {P α β σ : Type}

/-- Sequencing.  A panic or a lack of fuel ends the whole computation. -/
protected def bind : Outcome P α → (α → Outcome P β) → Outcome P β
  | .ok a, f => f a
  | .panic reason, _ => .panic reason
  | .outOfFuel, _ => .outOfFuel

instance : Monad (Outcome P) where
  pure := .ok
  bind := Outcome.bind

@[simp] theorem pure_eq (a : α) : (pure a : Outcome P α) = .ok a := rfl

@[simp] theorem ok_bind (a : α) (f : α → Outcome P β) :
    ((Outcome.ok a : Outcome P α) >>= f) = f a := rfl

@[simp] theorem panic_bind (reason : P) (f : α → Outcome P β) :
    ((Outcome.panic reason : Outcome P α) >>= f) = .panic reason := rfl

@[simp] theorem outOfFuel_bind (f : α → Outcome P β) :
    ((Outcome.outOfFuel : Outcome P α) >>= f) = .outOfFuel := rfl

instance : LawfulMonad (Outcome P) :=
  LawfulMonad.mk' (Outcome P)
    (by intro α x; cases x <;> rfl)
    (fun _ _ => rfl)
    (by intro α β γ x f g; cases x <;> rfl)

/-- A sequence returns exactly when its first part does and the rest does on
the value of the first. -/
theorem bind_eq_ok {x : Outcome P α} {f : α → Outcome P β} {b : β} :
    (x >>= f) = .ok b ↔ ∃ a, x = .ok a ∧ f a = .ok b := by
  cases x with
  | ok a => simp
  | panic reason => simp
  | outOfFuel => simp

/-- A sequence panics when its first part does or the rest does. -/
theorem bind_eq_panic {x : Outcome P α} {f : α → Outcome P β} {reason : P} :
    (x >>= f) = .panic reason ↔
      x = .panic reason ∨ ∃ a, x = .ok a ∧ f a = .panic reason := by
  cases x with
  | ok a => simp
  | panic reason' => simp
  | outOfFuel => simp

/-- A sequence ends when both parts do. -/
theorem bind_ne_outOfFuel {x : Outcome P α} {f : α → Outcome P β} (hx : x ≠ .outOfFuel)
    (hf : ∀ a, f a ≠ .outOfFuel) : (x >>= f) ≠ .outOfFuel := by
  cases x with
  | ok a => exact hf a
  | panic reason => simp
  | outOfFuel => exact absurd rfl hx

/-- What holds after a `for` loop that returned.  `I` relates the elements
already visited to the state reached, and a round knows where in the list it
is. -/
theorem foldlM_split {step : σ → α → Outcome P σ} (I : List α → σ → Prop)
    {l : List α} {s s' : σ} (h : l.foldlM step s = .ok s') (init : I [] s)
    (preserve : ∀ done a rest t t', l = done ++ a :: rest → I done t → step t a = .ok t' →
      I (done ++ [a]) t') : I l s' := by
  have key : ∀ (rest done : List α) (t : σ), l = done ++ rest →
      rest.foldlM step t = .ok s' → I done t → I (done ++ rest) s' := by
    intro rest
    induction rest with
    | nil =>
        intro done t _ hr hI
        simp only [List.foldlM_nil, pure_eq, Outcome.ok.injEq] at hr
        subst hr
        simpa using hI
    | cons a rest ih =>
        intro done t hl hr hI
        rw [List.foldlM_cons, bind_eq_ok] at hr
        obtain ⟨t', ht, hr⟩ := hr
        have hround := preserve done a rest t t' hl hI ht
        have hrest := ih (done ++ [a]) t' (by simpa using hl) hr hround
        simpa using hrest
  simpa using key l [] s rfl h init

/-- The form of `foldlM_split` for rounds that do not depend on where they
are. -/
theorem foldlM_ok {step : σ → α → Outcome P σ} (I : List α → σ → Prop)
    {l : List α} {s s' : σ} (h : l.foldlM step s = .ok s') (init : I [] s)
    (preserve : ∀ done a t t', I done t → step t a = .ok t' → I (done ++ [a]) t') :
    I l s' :=
  foldlM_split I h init fun done a _ t t' _ => preserve done a t t'

/-- The form of `foldlM_split` whose invariant does not look at the elements
already visited. -/
theorem foldlM_invariant {step : σ → α → Outcome P σ} (I : σ → Prop)
    {l : List α} {s s' : σ} (h : l.foldlM step s = .ok s') (init : I s)
    (preserve : ∀ a ∈ l, ∀ t t', I t → step t a = .ok t' → I t') : I s' :=
  foldlM_split (fun _ => I) h init fun _ a _ t t' hl => preserve a (by simp [hl]) t t'

/-- What every round that returns says about its element. -/
theorem foldlM_forall {step : σ → α → Outcome P σ} {p : α → Prop} {l : List α} {s s' : σ}
    (h : l.foldlM step s = .ok s') (round : ∀ {a t t'}, step t a = .ok t' → p a) :
    ∀ a ∈ l, p a := by
  refine foldlM_ok (fun done _ => ∀ a ∈ done, p a) h (by simp) ?_
  intro done a t t' hdone hstep b hb
  cases List.mem_append.mp hb with
  | inl hold => exact hdone b hold
  | inr hnew => exact List.mem_singleton.mp hnew ▸ round hstep

/-- A `for` loop that panics does so in one of its rounds, from a state of the
invariant. -/
theorem foldlM_panic {step : σ → α → Outcome P σ} (I : σ → Prop) {l : List α} {reason : P}
    (preserve : ∀ a ∈ l, ∀ t t', I t → step t a = .ok t' → I t') :
    ∀ {s : σ}, l.foldlM step s = .panic reason → I s →
      ∃ a ∈ l, ∃ t, I t ∧ step t a = .panic reason := by
  induction l with
  | nil => exact fun h => by simp at h
  | cons a l ih =>
      intro s h hI
      rw [List.foldlM_cons, bind_eq_panic] at h
      cases h with
      | inl hfirst => exact ⟨a, by simp, s, hI, hfirst⟩
      | inr hrest =>
          obtain ⟨t, ht, hrest⟩ := hrest
          obtain ⟨b, hb, hround⟩ :=
            ih (fun b hb => preserve b (List.mem_cons_of_mem a hb)) hrest
              (preserve a (by simp) s t hI ht)
          exact ⟨b, List.mem_cons_of_mem a hb, hround⟩

/-- A `for` loop ends when every round does. -/
theorem foldlM_ne_outOfFuel {step : σ → α → Outcome P σ} {l : List α}
    (h : ∀ a ∈ l, ∀ t, step t a ≠ .outOfFuel) (s : σ) : l.foldlM step s ≠ .outOfFuel := by
  induction l generalizing s with
  | nil => simp
  | cons a l ih =>
      rw [List.foldlM_cons]
      exact bind_ne_outOfFuel (h a (by simp) s) fun t =>
        ih (fun b hb => h b (List.mem_cons_of_mem a hb)) t

/-- A `for` loop returns when every round does from every state of the
invariant. -/
theorem foldlM_total {step : σ → α → Outcome P σ} (I : σ → Prop) {l : List α}
    (round : ∀ a ∈ l, ∀ t, I t → ∃ t', step t a = .ok t' ∧ I t') :
    ∀ {s : σ}, I s → ∃ s', l.foldlM step s = .ok s' ∧ I s' := by
  induction l with
  | nil => exact fun {s} hs => ⟨s, by simp, hs⟩
  | cons a l ih =>
      intro s hs
      obtain ⟨t, ht, hI⟩ := round a (by simp) s hs
      obtain ⟨s', hs', hI'⟩ :=
        ih (fun b hb => round b (List.mem_cons_of_mem a hb)) hI
      exact ⟨s', by rw [List.foldlM_cons, ht, ok_bind, hs'], hI'⟩

end Outcome

end Lib
