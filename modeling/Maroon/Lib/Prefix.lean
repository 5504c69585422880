import Mathlib.Data.Nat.Find
import Mathlib.Data.Set.Basic
import Mathlib.Order.Bounds.Basic

/-!
# Contiguous prefixes

A block of `size` numbers starts at `base`, and a set holds some of them.
`Held S base o` says that the set holds the first `o + 1` of them.
`IsPrefixEnd S base size o` says that `o` is the last offset up to which the
set holds the block without a gap.  The end is unique, it exists as soon as the
first number is held, and it only moves up as the set grows.
-/

namespace Lib

/-- The numbers at offsets `0` to `o` of the block at `base` are all in `S`. -/
def Held (S : Set ℕ) (base o : ℕ) : Prop := ∀ i ≤ o, base + i ∈ S

namespace Held

variable {S S' : Set ℕ} {base o o' : ℕ}

theorem of_le (h : Held S base o) (hle : o' ≤ o) : Held S base o' :=
  fun i hi => h i (hi.trans hle)

theorem mono (h : Held S base o) (hS : S ⊆ S') : Held S' base o :=
  fun i hi => hS (h i hi)

theorem zero_iff : Held S base 0 ↔ base ∈ S := by
  constructor
  · intro h
    simpa using h 0 le_rfl
  · intro h i hi
    rw [Nat.le_zero.mp hi]
    exact h

theorem base_mem (h : Held S base o) : base ∈ S := by
  simpa using h 0 (Nat.zero_le _)

end Held

/-- The last offset of a block of `size` numbers that is held with all before
it. -/
structure IsPrefixEnd (S : Set ℕ) (base size o : ℕ) : Prop where
  lt : o < size
  held : Held S base o
  gap : o + 1 < size → base + (o + 1) ∉ S

namespace IsPrefixEnd

variable {S S' : Set ℕ} {base size o o' : ℕ}

/-- An offset that is held is not past the end. -/
theorem le_of_held (h : IsPrefixEnd S base size o) (hk : Held S base o') (hlt : o' < size) :
    o' ≤ o := by
  by_contra hgt
  exact h.gap (by omega) (hk (o + 1) (by omega))

theorem unique (h : IsPrefixEnd S base size o) (h' : IsPrefixEnd S base size o') : o = o' :=
  le_antisymm (h'.le_of_held h.held h.lt) (h.le_of_held h'.held h'.lt)

/-- A larger set has no smaller end. -/
theorem mono (h : IsPrefixEnd S base size o) (h' : IsPrefixEnd S' base size o')
    (hS : S ⊆ S') : o ≤ o' :=
  h'.le_of_held (h.held.mono hS) h.lt

/-- The end only depends on the numbers of the block. -/
theorem congr (h : IsPrefixEnd S base size o)
    (hS : ∀ i < size, base + i ∈ S ↔ base + i ∈ S') : IsPrefixEnd S' base size o where
  lt := h.lt
  held i hi := (hS i (hi.trans_lt h.lt)).mp (h.held i hi)
  gap hlt hmem := h.gap hlt ((hS _ hlt).mpr hmem)

/-- Where the last number of the block is missing, the end is the greatest
offset that is held, of any size. -/
theorem isGreatest_held (h : IsPrefixEnd S base size o) (hlast : base + (size - 1) ∉ S) :
    IsGreatest {k | Held S base k} o := by
  refine ⟨h.held, fun k hk => ?_⟩
  have hlt : k < size := by
    by_contra hge
    exact hlast (hk (size - 1) (by omega))
  exact h.le_of_held hk hlt

/-- A block whose first number is held has an end. -/
theorem exists_of_mem (hsize : 0 < size) (hbase : base ∈ S) :
    ∃ o, IsPrefixEnd S base size o := by
  classical
  by_cases hgap : ∃ k, base + k ∉ S
  · have hfirst : base + Nat.find hgap ∉ S := Nat.find_spec hgap
    have hbelow : ∀ k < Nat.find hgap, base + k ∈ S := fun k hk =>
      not_not.mp (Nat.find_min hgap hk)
    have hpos : Nat.find hgap ≠ 0 := by
      intro hzero
      rw [hzero, Nat.add_zero] at hfirst
      exact hfirst hbase
    cases Nat.lt_or_ge (Nat.find hgap) size with
    | inl hlt =>
        refine ⟨Nat.find hgap - 1, by omega, fun i hi => hbelow i (by omega), fun _ => ?_⟩
        rwa [Nat.sub_add_cancel (Nat.pos_of_ne_zero hpos)]
    | inr hge =>
        exact ⟨size - 1, by omega, fun i hi => hbelow i (by omega), fun hlt => by omega⟩
  · have hall : ∀ k, base + k ∈ S := fun k => not_not.mp fun hk => hgap ⟨k, hk⟩
    exact ⟨size - 1, by omega, fun i _ => hall i, fun hlt => by omega⟩

/-- The end exists exactly when the first number is held. -/
theorem exists_iff (hsize : 0 < size) : (∃ o, IsPrefixEnd S base size o) ↔ base ∈ S :=
  ⟨fun ⟨_, h⟩ => h.held.base_mem, exists_of_mem hsize⟩

end IsPrefixEnd

end Lib
