import Mathlib.Data.List.Basic

/-!
# Hash chains

A chain of entries, each of which is hashed together with the digest of the one
before it.  `input x prev` is what is hashed for the entry `x` after the digest
`prev`, and `head` is the digest of the last entry.

The head and the length of a chain determine all its entries, as long as the
digests of what was really hashed do not collide (`eq_of_head_eq`).
-/

namespace Lib

/-- Two lists of inputs on which a digest does not collide. -/
def NoCollision {β δ : Type} (digest : β → δ) (l l' : List β) : Prop :=
  ∀ b ∈ l, ∀ b' ∈ l', digest b = digest b' → b = b'

namespace HashChain

variable {α β δ : Type} (digest : β → δ) (input : α → Option δ → β)

/-- The digest of the last entry, or the one before the chain. -/
def head (prev : Option δ) : List α → Option δ
  | [] => prev
  | x :: l => head (some (digest (input x prev))) l

/-- All that is hashed along the chain. -/
def inputs (prev : Option δ) : List α → List β
  | [] => []
  | x :: l => input x prev :: inputs (some (digest (input x prev))) l

@[simp] theorem head_snoc (prev : Option δ) (l : List α) (x : α) :
    head digest input prev (l ++ [x]) =
      some (digest (input x (head digest input prev l))) := by
  induction l generalizing prev with
  | nil => rfl
  | cons y l ih => exact ih _

variable {digest input}

/-- Chains of one length with the same head are equal, and so is what comes
before them.  `Valid` is what is known of the entries. -/
theorem eq_of_head_eq {Valid : α → Prop}
    (inj : ∀ {x x' prev prev'}, Valid x → Valid x' → prev.isSome = prev'.isSome →
      input x prev = input x' prev' → prev = prev' ∧ x = x') {l l' : List α} :
    ∀ {prev prev' : Option δ}, l.length = l'.length → prev.isSome = prev'.isSome →
      (∀ x ∈ l, Valid x) → (∀ x ∈ l', Valid x) →
      NoCollision digest (inputs digest input prev l) (inputs digest input prev' l') →
      head digest input prev l = head digest input prev' l' → prev = prev' ∧ l = l' := by
  induction l generalizing l' with
  | nil =>
      intro prev prev' hlen _ _ _ _ hhead
      cases l' with
      | nil => exact ⟨hhead, rfl⟩
      | cons x' l' => cases hlen
  | cons x l ih =>
      intro prev prev' hlen hsome hvalid hvalid' hno hhead
      cases l' with
      | nil => cases hlen
      | cons x' l' =>
          -- the chains after the first entries are equal, and so are their digests
          obtain ⟨hdigest, hrest⟩ := @ih l' (some (digest (input x prev)))
            (some (digest (input x' prev'))) (Nat.succ.inj hlen) rfl
            (fun y hy => hvalid y (List.mem_cons_of_mem x hy))
            (fun y hy => hvalid' y (List.mem_cons_of_mem x' hy))
            (fun b hb b' hb' =>
              hno b (List.mem_cons_of_mem _ hb) b' (List.mem_cons_of_mem _ hb')) hhead
          have hinput := hno _ List.mem_cons_self _ List.mem_cons_self (Option.some.inj hdigest)
          obtain ⟨hprev, hx⟩ := inj (hvalid x List.mem_cons_self)
            (hvalid' x' List.mem_cons_self) hsome hinput
          exact ⟨hprev, by rw [hx, hrest]⟩

end HashChain

end Lib
