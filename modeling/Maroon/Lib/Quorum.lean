import Mathlib.Data.List.Sort
import Mathlib.Data.List.Perm.Basic
import Maroon.Lib.HashMap

/-!
# Values that a quorum of keys reaches

A map from members to values in a linear order is read as a vote.  A member
*reaches* `v` when its value is at least `v`.  The greatest value that `n`
members reach is the entry at index `n - 1` of the values in descending order
(`IsQuorumMax.of_sorted`).  It is unique, and it does not go down when a value
goes up, when a member joins or when a smaller quorum is asked for
(`IsQuorumMax.mono`).
-/

namespace Lib

/-! ## The entries of a descending list -/

section Sorted

variable {α : Type} [LinearOrder α]

/-- The entries of a list in descending order. -/
def descending (l : List α) : List α := l.insertionSort (· ≥ ·)

theorem descending_perm (l : List α) : (descending l).Perm l :=
  List.perm_insertionSort _ l

theorem descending_length (l : List α) : (descending l).length = l.length :=
  (descending_perm l).length_eq

theorem descending_sorted (l : List α) : (descending l).Pairwise (· ≥ ·) :=
  List.pairwise_insertionSort _ l

/-- At least `i + 1` entries reach the one at index `i`. -/
theorem succ_le_countP_of_descending {l : List α} {i : Nat} {v : α}
    (h : (descending l)[i]? = some v) : i + 1 ≤ l.countP (v ≤ ·) := by
  obtain ⟨hi, hv⟩ := List.getElem?_eq_some_iff.mp h
  have hsorted := List.pairwise_iff_getElem.mp (descending_sorted l)
  have hall : ∀ w ∈ (descending l).take (i + 1), v ≤ w := by
    intro w hw
    obtain ⟨j, hj, rfl⟩ := List.mem_take_iff_getElem.mp hw
    have hji : j ≤ i := by omega
    rcases Nat.lt_or_eq_of_le hji with hlt | rfl
    · exact hv ▸ hsorted j i (by omega) hi hlt
    · exact le_of_eq hv.symm
  calc i + 1 = ((descending l).take (i + 1)).length := by
        rw [List.length_take]
        omega
    _ = ((descending l).take (i + 1)).countP (v ≤ ·) := by
        rw [List.countP_eq_length.mpr]
        simpa using hall
    _ ≤ (descending l).countP (v ≤ ·) := (List.take_sublist _ _).countP_le
    _ = l.countP (v ≤ ·) := (descending_perm l).countP_eq _

/-- At most `i` entries are above the one at index `i`. -/
theorem countP_lt_le_of_descending {l : List α} {i : Nat} {v : α}
    (h : (descending l)[i]? = some v) : l.countP (v < ·) ≤ i := by
  obtain ⟨hi, hv⟩ := List.getElem?_eq_some_iff.mp h
  have hsorted := List.pairwise_iff_getElem.mp (descending_sorted l)
  have hnone : ∀ w ∈ (descending l).drop i, ¬ v < w := by
    intro w hw
    obtain ⟨j, hj, rfl⟩ := List.mem_drop_iff_getElem.mp hw
    rcases Nat.eq_zero_or_pos j with rfl | hpos
    · simp [hv]
    · exact not_lt.mpr (hv ▸ hsorted i (i + j) hi (by omega) (by omega))
  calc l.countP (v < ·) = (descending l).countP (v < ·) :=
        ((descending_perm l).countP_eq _).symm
    _ = ((descending l).take i ++ (descending l).drop i).countP (v < ·) := by
        rw [List.take_append_drop]
    _ = ((descending l).take i).countP (v < ·) := by
        have hzero : ((descending l).drop i).countP (v < ·) = 0 :=
          List.countP_eq_zero.mpr (by simpa using hnone)
        rw [List.countP_append, hzero, Nat.add_zero]
    _ ≤ ((descending l).take i).length := List.countP_le_length
    _ ≤ i := by
        rw [List.length_take]
        omega

end Sorted

/-! ## Quorums -/

variable {K V : Type} [DecidableEq K] [LinearOrder V]

/-- The members whose value is at least `v`. -/
def reach (m : HashMap K V) (v : V) : Finset K :=
  m.keys.filter fun k => (m.lookup k).any fun w => v ≤ w

theorem mem_reach {m : HashMap K V} {v : V} {k : K} :
    k ∈ reach m v ↔ ∃ w, m.lookup k = some w ∧ v ≤ w := by
  rw [reach, Finset.mem_filter, Finmap.mem_keys, HashMap.mem_iff_lookup]
  constructor
  · intro h
    obtain ⟨⟨w, hw⟩, hany⟩ := h
    exact ⟨w, hw, by simpa [hw] using hany⟩
  · intro h
    obtain ⟨w, hw, hle⟩ := h
    exact ⟨⟨w, hw⟩, by simpa [hw] using hle⟩

theorem reach_anti (m : HashMap K V) {v w : V} (h : v ≤ w) : reach m w ⊆ reach m v := by
  intro k hk
  obtain ⟨u, hu, hle⟩ := mem_reach.mp hk
  exact mem_reach.mpr ⟨u, hu, h.trans hle⟩

/-- Counting the values of an enumeration counts the members. -/
theorem countP_eq_card_reach {entries : List (K × V)} {m : HashMap K V}
    (h : Enumerates entries m) (v : V) :
    (entries.map Prod.snd).countP (v ≤ ·) = (reach m v).card := by
  have hnd : ((entries.filter (v ≤ ·.2)).map Prod.fst).Nodup :=
    h.nodup.sublist (List.filter_sublist.map _)
  have hset : reach m v = ((entries.filter (v ≤ ·.2)).map Prod.fst).toFinset := by
    ext k
    rw [mem_reach, List.mem_toFinset, List.mem_map]
    constructor
    · intro h
      obtain ⟨w, hw, hle⟩ := h
      exact ⟨(k, w), List.mem_filter.mpr ⟨h.mem_iff.mpr hw, by simpa using hle⟩, rfl⟩
    · intro h
      obtain ⟨⟨k', w⟩, hin, rfl⟩ := h
      obtain ⟨hin, hle⟩ := List.mem_filter.mp hin
      exact ⟨w, h.mem_iff.mp hin, by simpa using hle⟩
  rw [hset, List.toFinset_card_of_nodup hnd, List.length_map, List.countP_map,
    List.countP_eq_length_filter]
  rfl

/-- The greatest value that `n` members reach. -/
structure IsQuorumMax (m : HashMap K V) (n : Nat) (v : V) : Prop where
  /-- A quorum reaches it. -/
  reached : n ≤ (reach m v).card
  /-- No quorum reaches more. -/
  greatest : ∀ w, n ≤ (reach m w).card → w ≤ v

namespace IsQuorumMax

theorem isGreatest {m : HashMap K V} {n : Nat} {v : V} (h : IsQuorumMax m n v) :
    IsGreatest {w | n ≤ (reach m w).card} v :=
  ⟨h.reached, fun w hw => h.greatest w hw⟩

theorem unique {m : HashMap K V} {n : Nat} {v w : V} (hv : IsQuorumMax m n v)
    (hw : IsQuorumMax m n w) : v = w :=
  le_antisymm (hw.greatest v hv.reached) (hv.greatest w hw.reached)

/-- The entry at index `n - 1` of the values in descending order. -/
theorem of_sorted {entries : List (K × V)} {m : HashMap K V} {n : Nat} {v : V}
    (h : Enumerates entries m) (hn : 0 < n)
    (hv : (descending (entries.map Prod.snd))[n - 1]? = some v) : IsQuorumMax m n v where
  reached := by
    have hcount := succ_le_countP_of_descending hv
    rw [countP_eq_card_reach h] at hcount
    omega
  greatest := by
    intro w hw
    by_contra hlt
    rw [not_le] at hlt
    have hcount := countP_lt_le_of_descending hv
    have hmono : (entries.map Prod.snd).countP (w ≤ ·) ≤
        (entries.map Prod.snd).countP (v < ·) :=
      List.countP_mono_left fun u _ hu => by
        simpa using lt_of_lt_of_le hlt (by simpa using hu)
    rw [countP_eq_card_reach h] at hmono
    omega

/-- Votes that reach more, with a quorum that is no larger, agree on more. -/
theorem mono {m m' : HashMap K V} {n n' : Nat} {v v' : V} (hv : IsQuorumMax m n v)
    (hv' : IsQuorumMax m' n' v') (hn : n' ≤ n)
    (hm : ∀ k w, m.lookup k = some w → ∃ w', m'.lookup k = some w' ∧ w ≤ w') : v ≤ v' := by
  refine hv'.greatest v (hn.trans (hv.reached.trans (Finset.card_le_card ?_)))
  intro k hk
  obtain ⟨w, hw, hle⟩ := mem_reach.mp hk
  obtain ⟨w', hw', hle'⟩ := hm k w hw
  exact mem_reach.mpr ⟨w', hw', hle.trans hle'⟩

/-- When every member has the same value, that value is the agreement. -/
theorem of_const {m : HashMap K V} {n : Nat} {v : V} (hn : 0 < n) (hcard : n ≤ m.keys.card)
    (hconst : ∀ k w, m.lookup k = some w → w = v) : IsQuorumMax m n v where
  reached := by
    refine hcard.trans (Finset.card_le_card fun k hk => ?_)
    obtain ⟨w, hw⟩ := HashMap.mem_iff_lookup.mp (Finmap.mem_keys.mp hk)
    exact mem_reach.mpr ⟨w, hw, (hconst k w hw).ge⟩
  greatest := by
    intro w hw
    obtain ⟨k, hk⟩ := Finset.card_pos.mp (hn.trans_le hw)
    obtain ⟨u, hu, hle⟩ := mem_reach.mp hk
    exact hle.trans (hconst k u hu).le

end IsQuorumMax

end Lib
