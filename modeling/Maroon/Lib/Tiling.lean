import Mathlib.Data.List.Range
import Mathlib.Data.List.Nodup
import Mathlib.Data.List.Count

/-!
# Lists of intervals that tile a block

`Tiles left right start l next` says that the closed intervals of `l` follow
each other without a gap, from `start` up to the number before `next`.  Their
numbers, in the order of the list, are then the numbers of the block.

`Separated left right l` says that the intervals of `l` are ascending and do
not touch.  No list of intervals has the same numbers and is shorter.
-/

namespace Lib

/-- A block is a prefix of a longer one. -/
theorem range'_prefix {start m n : ℕ} (h : m ≤ n) :
    List.range' start m <+: List.range' start n := by
  refine ⟨List.range' (start + m) (n - m), ?_⟩
  rw [List.range'_append_1, Nat.add_sub_cancel' h]

section Tiles

variable {α : Type} {left right : α → ℕ}

/-- Consecutive closed intervals from `start` up to the number before `next`. -/
def Tiles (left right : α → ℕ) : ℕ → List α → ℕ → Prop
  | start, [], next => start = next
  | start, i :: l, next => left i = start ∧ left i ≤ right i ∧ Tiles left right (right i + 1) l next

namespace Tiles

theorem nil (start : ℕ) : Tiles left right start [] start := rfl

theorem append {l l' : List α} {middle next : ℕ} : ∀ {start : ℕ},
    Tiles left right start l middle → Tiles left right middle l' next →
      Tiles left right start (l ++ l') next := by
  induction l with
  | nil =>
      intro start h h'
      cases h
      exact h'
  | cons i l ih =>
      intro start h h'
      exact ⟨h.1, h.2.1, ih h.2.2 h'⟩

/-- One more interval at the end. -/
theorem snoc {l : List α} {i : α} {start next : ℕ} (h : Tiles left right start l next)
    (hleft : left i = next) (hle : left i ≤ right i) :
    Tiles left right start (l ++ [i]) (right i + 1) :=
  h.append ⟨hleft, hle, rfl⟩

theorem le {l : List α} {next : ℕ} :
    ∀ {start : ℕ}, Tiles left right start l next → start ≤ next := by
  induction l with
  | nil => exact fun h => le_of_eq h
  | cons i l ih =>
      intro start h
      have hrest := ih h.2.2
      have hleft := h.1
      have hle := h.2.1
      omega

/-- An empty block has no interval. -/
theorem eq_nil {l : List α} {start : ℕ} (h : Tiles left right start l start) : l = [] := by
  cases l with
  | nil => rfl
  | cons i l =>
      have hrest := h.2.2.le
      have hleft := h.1
      have hle := h.2.1
      omega

/-- The numbers of the intervals are those of the block, in order. -/
theorem flatMap_range' {l : List α} {next : ℕ} : ∀ {start : ℕ}, Tiles left right start l next →
    l.flatMap (fun i => List.range' (left i) (right i + 1 - left i)) =
      List.range' start (next - start) := by
  induction l with
  | nil =>
      intro start h
      cases h
      simp
  | cons i l ih =>
      intro start h
      obtain ⟨rfl, hle, hrest⟩ := h
      have hnext := hrest.le
      have hsplit : next - left i = (right i + 1 - left i) + (next - (right i + 1)) := by
        omega
      have hstart : left i + 1 * (right i + 1 - left i) = right i + 1 := by
        omega
      rw [List.flatMap_cons, ih hrest, hsplit, ← List.range'_append, hstart]

end Tiles

end Tiles

section Separated

variable {α : Type} {left right : α → ℕ}

/-- Ascending closed intervals with a number left out between any two. -/
structure Separated (left right : α → ℕ) (l : List α) : Prop where
  le : ∀ i ∈ l, left i ≤ right i
  apart : l.Pairwise fun i j => right i + 1 < left j

/-- The number after an interval is in none of them. -/
theorem Separated.succ_right {l : List α} (h : Separated left right l) {i j : α} (hi : i ∈ l)
    (hj : j ∈ l) : ¬ (left j ≤ right i + 1 ∧ right i + 1 ≤ right j) := by
  obtain ⟨m, hm, rfl⟩ := List.getElem_of_mem hi
  obtain ⟨n, hn, rfl⟩ := List.getElem_of_mem hj
  have hle := h.le _ hi
  rcases lt_trichotomy m n with hlt | rfl | hgt
  · have hgap := List.pairwise_iff_getElem.mp h.apart m n hm hn hlt
    omega
  · omega
  · have hgap := List.pairwise_iff_getElem.mp h.apart n m hn hm hgt
    omega

/-- No list of intervals with the same numbers is shorter. -/
theorem Separated.length_le {l l' : List α} (h : Separated left right l)
    (hsame : ∀ n, (∃ i ∈ l, left i ≤ n ∧ n ≤ right i) ↔ ∃ i ∈ l', left i ≤ n ∧ n ≤ right i) :
    l.length ≤ l'.length := by
  cases l with
  | nil => exact Nat.zero_le _
  | cons first rest =>
      have : Nonempty α := ⟨first⟩
      have hcover : ∀ i ∈ first :: rest, ∃ k ∈ l', left k ≤ left i ∧ left i ≤ right k :=
        fun i hi => (hsame (left i)).mp ⟨i, hi, le_rfl, h.le i hi⟩
      choose! cover hmem hbelow habove using hcover
      -- one interval cannot cover two, for it would have the number between them
      have hnd : ((first :: rest).map cover).Nodup := by
        refine List.pairwise_map.mpr (h.apart.imp_of_mem fun {i j} hi hj hij heq => ?_)
        have hle := h.le i hi
        have hleft := hbelow i hi
        have hright := habove j hj
        rw [← heq] at hright
        obtain ⟨k, hk, hin⟩ := (hsame (right i + 1)).mpr
          ⟨cover i, hmem i hi, by omega, by omega⟩
        exact h.succ_right hi hk hin
      have hsub : (first :: rest).map cover ⊆ l' := by
        intro k hk
        obtain ⟨i, hi, rfl⟩ := List.mem_map.mp hk
        exact hmem i hi
      have hlen := (List.subperm_of_subset hnd hsub).length_le
      rwa [List.length_map] at hlen

end Separated

end Lib
