import Mathlib.Data.Finset.Range
import Mathlib.Data.Finset.Card
import Maroon.Epoch

/-!
# The linear log

A linearizer consumes the epochs one by one.  `LogLineriazer` sorts the
intervals of an epoch and appends their ids to one sequence.

The log does not depend on the order in which an epoch lists its intervals
(`newEpoch_perm`), and where these share no id, each epoch appends an ascending
part (`Apart.elementsOf_ascending`).
-/

namespace Maroon

open Lib Outcome

class Linearizer (L : Type) where
  /-- `fuel` bounds the loops over the ids of an interval. -/
  newEpoch (fuel : Nat) (self : L) (epoch : Epoch) : Outcome Panic L

structure LogLineriazer where
  sequence : List Nat
deriving DecidableEq, Repr

namespace LogLineriazer

def new : LogLineriazer where
  sequence := []

/-- `increments.iter().map(|i| i.ids_count()).sum()` -/
def newElementsCount (increments : List U64BlobIdClosedInterval) : Outcome Panic Nat :=
  increments.foldlM (fun sum interval => do
    let count ← interval.idsCount
    u64Add sum count) 0

def newEpoch (fuel : Nat) (self : LogLineriazer) (epoch : Epoch) :
    Outcome Panic LogLineriazer := do
  let increments := epoch.increments.insertionSort U64BlobIdClosedInterval.le
  -- `App.Overallocates` is when the vector cannot reserve that many
  let _ ← newElementsCount increments
  let sequence ← increments.foldlM (fun sequence interval => do
    let ids ← interval.iter fuel
    pure (sequence ++ ids)) self.sequence
  pure { sequence }

instance : Linearizer LogLineriazer where
  newEpoch := newEpoch

/-- The count is the number of ids.  It is there when no interval is empty and
the number fits. -/
theorem newElementsCount_ok {increments : List U64BlobIdClosedInterval} {count : Nat} :
    newElementsCount increments = .ok count ↔ (∀ i ∈ increments, i.left ≤ i.right) ∧
      (increments.flatMap U64BlobIdClosedInterval.ids).length < u64Bound ∧
      count = (increments.flatMap U64BlobIdClosedInterval.ids).length := by
  have key : ∀ (l : List U64BlobIdClosedInterval) (sum : Nat), sum < u64Bound →
      (l.foldlM (fun sum interval => do
        let count ← interval.idsCount
        u64Add sum count) sum = .ok count ↔ (∀ i ∈ l, i.left ≤ i.right) ∧
          sum + (l.flatMap U64BlobIdClosedInterval.ids).length < u64Bound ∧
          count = sum + (l.flatMap U64BlobIdClosedInterval.ids).length) := by
    intro l
    induction l with
    | nil =>
        intro sum hsum
        simp [hsum, eq_comm]
    | cons i l ih =>
        intro sum hsum
        rw [List.foldlM_cons, bind_eq_ok, List.flatMap_cons, List.length_append,
          List.forall_mem_cons]
        constructor
        · intro h
          obtain ⟨sum', hsum', h⟩ := h
          obtain ⟨c, hc, hadd⟩ := bind_eq_ok.mp hsum'
          obtain ⟨hle, -, rfl⟩ := U64BlobIdClosedInterval.idsCount_ok.mp hc
          obtain ⟨hlt, rfl⟩ := u64Add_ok.mp hadd
          obtain ⟨hle', hlt', rfl⟩ := (ih _ hlt).mp h
          exact ⟨⟨hle, hle'⟩, by omega, by omega⟩
        · intro h
          obtain ⟨⟨hle, hle'⟩, hlt, rfl⟩ := h
          refine ⟨sum + i.ids.length, bind_eq_ok.mpr ⟨_,
            U64BlobIdClosedInterval.idsCount_ok.mpr ⟨hle, by omega, rfl⟩,
            u64Add_ok.mpr ⟨by omega, rfl⟩⟩, ?_⟩
          exact (ih _ (by omega)).mpr ⟨hle', by omega, by omega⟩
  have hkey := key increments 0 (by decide)
  rwa [Nat.zero_add] at hkey

/-- Disjoint intervals that stay below the last `u64` have fewer ids than there
are `u64` values. -/
theorem ids_length_lt {increments : List U64BlobIdClosedInterval}
    (hnd : (increments.flatMap U64BlobIdClosedInterval.ids).Nodup)
    (hlt : ∀ i ∈ increments, i.right + 1 < u64Bound) :
    (increments.flatMap U64BlobIdClosedInterval.ids).length < u64Bound := by
  have hsub : (increments.flatMap U64BlobIdClosedInterval.ids).toFinset ⊆
      Finset.range (u64Bound - 1) := by
    intro id hid
    obtain ⟨i, hi, hid⟩ := List.mem_flatMap.mp (List.mem_toFinset.mp hid)
    have hright := hlt i hi
    have hidle := (U64BlobIdClosedInterval.mem_ids.mp hid).2
    rw [Finset.mem_range]
    omega
  have hcard := Finset.card_le_card hsub
  rw [List.toFinset_card_of_nodup hnd, Finset.card_range] at hcard
  exact hcard.trans_lt (by decide)

/-- What an epoch adds to the log. -/
def elementsOf (increments : List U64BlobIdClosedInterval) : List Nat :=
  (increments.insertionSort U64BlobIdClosedInterval.le).flatMap U64BlobIdClosedInterval.ids

theorem newEpoch_ok {fuel : Nat} {self self' : LogLineriazer} {epoch : Epoch}
    (hle : ∀ i ∈ epoch.increments, i.left ≤ i.right) (h : newEpoch fuel self epoch = .ok self') :
    self'.sequence = self.sequence ++ elementsOf epoch.increments := by
  obtain ⟨-, -, h⟩ := bind_eq_ok.mp h
  obtain ⟨sequence, hfold, h⟩ := bind_eq_ok.mp h
  cases h
  refine foldlM_ok (fun done sequence =>
    (∀ i ∈ done, i ∈ epoch.increments) →
      sequence = self.sequence ++ done.flatMap U64BlobIdClosedInterval.ids)
    hfold (by simp) ?_ (fun i hi => (List.perm_insertionSort _ _).mem_iff.mp hi)
  intro done i sequence sequence' ih hstep hsub
  obtain ⟨ids, hids, hstep⟩ := bind_eq_ok.mp hstep
  cases hstep
  have hi := hsub i (List.mem_append_right _ (List.mem_singleton.mpr rfl))
  rw [U64BlobIdClosedInterval.iter_ok (hle i hi) hids,
    ih fun j hj => hsub j (List.mem_append_left _ hj), List.flatMap_append, List.append_assoc]
  simp

/-- An epoch that was appended had a count. -/
theorem newEpoch_count {fuel : Nat} {self self' : LogLineriazer} {epoch : Epoch}
    (h : newEpoch fuel self epoch = .ok self') : (∀ i ∈ epoch.increments, i.left ≤ i.right) ∧
      (epoch.increments.flatMap U64BlobIdClosedInterval.ids).length < u64Bound := by
  have hperm := List.perm_insertionSort U64BlobIdClosedInterval.le epoch.increments
  obtain ⟨count, hcount, -⟩ := bind_eq_ok.mp h
  obtain ⟨hle, hlt, -⟩ := newElementsCount_ok.mp hcount
  exact ⟨fun i hi => hle i (hperm.mem_iff.mpr hi),
    (hperm.flatMap_right U64BlobIdClosedInterval.ids).length_eq ▸ hlt⟩

/-- An epoch with a count is appended, given fuel for the longest interval. -/
theorem newEpoch_total {fuel : Nat} {self : LogLineriazer} {epoch : Epoch}
    (hle : ∀ i ∈ epoch.increments, i.left ≤ i.right)
    (hcount : (epoch.increments.flatMap U64BlobIdClosedInterval.ids).length < u64Bound)
    (hlt : ∀ i ∈ epoch.increments, i.right + 1 < u64Bound)
    (hfuel : ∀ i ∈ epoch.increments, i.right + 1 - i.left < fuel) :
    newEpoch fuel self epoch = .ok ⟨self.sequence ++ elementsOf epoch.increments⟩ := by
  have hperm := List.perm_insertionSort U64BlobIdClosedInterval.le epoch.increments
  have hmem : ∀ {i}, i ∈ epoch.increments.insertionSort U64BlobIdClosedInterval.le →
      i ∈ epoch.increments := fun hi => hperm.mem_iff.mp hi
  have hsorted : newElementsCount (epoch.increments.insertionSort U64BlobIdClosedInterval.le) =
      .ok _ :=
    newElementsCount_ok.mpr ⟨fun i hi => hle i (hmem hi),
      (hperm.flatMap_right U64BlobIdClosedInterval.ids).length_eq ▸ hcount, rfl⟩
  have hround : ∀ i ∈ epoch.increments.insertionSort U64BlobIdClosedInterval.le,
      ∀ sequence : List Nat, True → ∃ sequence', (do
        let ids ← i.iter fuel
        pure (sequence ++ ids) : Outcome Panic (List Nat)) = .ok sequence' ∧ True := by
    intro i hi sequence _
    refine ⟨sequence ++ i.ids, ?_, trivial⟩
    rw [U64BlobIdClosedInterval.iter_total (hle i (hmem hi)) (hlt i (hmem hi))
      (hfuel i (hmem hi))]
    rfl
  obtain ⟨sequence, hfold, -⟩ := foldlM_total (fun _ => True) hround (s := self.sequence) trivial
  have hepoch : newEpoch fuel self epoch = .ok ⟨sequence⟩ :=
    bind_eq_ok.mpr ⟨_, hsorted, bind_eq_ok.mpr ⟨sequence, hfold, rfl⟩⟩
  rw [hepoch, ← newEpoch_ok hle hepoch]

/-! ## The log and the order of the intervals -/

/-- The order in which an epoch lists its intervals makes no difference. -/
theorem newEpoch_perm {epoch epoch' : Epoch} (h : epoch.increments.Perm epoch'.increments)
    (fuel : Nat) (self : LogLineriazer) : newEpoch fuel self epoch = newEpoch fuel self epoch' := by
  have hsorted := List.pairwise_insertionSort U64BlobIdClosedInterval.le epoch.increments
  have hsorted' := List.pairwise_insertionSort U64BlobIdClosedInterval.le epoch'.increments
  have hperm := (List.perm_insertionSort U64BlobIdClosedInterval.le epoch.increments).trans
    (h.trans (List.perm_insertionSort U64BlobIdClosedInterval.le epoch'.increments).symm)
  rw [newEpoch, newEpoch, hperm.eq_of_pairwise' hsorted hsorted']

/-- Intervals that share no id and stay below the last `u64`. -/
structure Apart (increments : List U64BlobIdClosedInterval) : Prop where
  le : ∀ i ∈ increments, i.left ≤ i.right
  lt : ∀ i ∈ increments, i.right + 1 < u64Bound
  disjoint : increments.Pairwise fun i j => i.ids.Disjoint j.ids

theorem Apart.nodup {increments : List U64BlobIdClosedInterval} (h : Apart increments) :
    (increments.flatMap U64BlobIdClosedInterval.ids).Nodup :=
  List.nodup_flatMap.mpr ⟨fun i _ => i.ids_nodup, h.disjoint⟩

/-- Sorted by their left ends, intervals that share no id follow each other. -/
theorem Apart.elementsOf_ascending {increments : List U64BlobIdClosedInterval}
    (h : Apart increments) : (elementsOf increments).Pairwise (· < ·) := by
  have hperm := List.perm_insertionSort U64BlobIdClosedInterval.le increments
  have hdisjoint := (hperm.pairwise_iff fun hij => List.disjoint_comm.mp hij).mpr h.disjoint
  have hsorted := List.pairwise_insertionSort U64BlobIdClosedInterval.le increments
  refine List.pairwise_flatMap.mpr ⟨fun i _ => List.pairwise_lt_range', ?_⟩
  refine (hsorted.and hdisjoint).imp_of_mem fun {i j} hi hj hij id hid id' hid' => ?_
  have hle := h.le i (hperm.mem_iff.mp hi)
  have hle' := h.le j (hperm.mem_iff.mp hj)
  have hleft : i.left ≤ j.left := by
    cases hij.1 with
    | inl hlt => exact hlt.le
    | inr heq => exact heq.1.le
  -- the left end of the later interval would be an id of both
  have hnot : ¬ j.left ≤ i.right := fun hright =>
    hij.2 (U64BlobIdClosedInterval.mem_ids.mpr ⟨hleft, hright⟩)
      (U64BlobIdClosedInterval.mem_ids.mpr ⟨le_rfl, hle'⟩)
  rw [U64BlobIdClosedInterval.mem_ids] at hid hid'
  omega

theorem mem_elementsOf {increments : List U64BlobIdClosedInterval} {id : Nat} :
    id ∈ elementsOf increments ↔ ∃ i ∈ increments, i.left ≤ id ∧ id ≤ i.right := by
  simp only [elementsOf, List.mem_flatMap, List.mem_insertionSort,
    U64BlobIdClosedInterval.mem_ids]

/-- The epochs of a history, one after the other. -/
def newEpochs (fuel : Nat) (self : LogLineriazer) (epochs : List Epoch) :
    Outcome Panic LogLineriazer :=
  epochs.foldlM (newEpoch fuel) self

theorem newEpochs_perm {epochs epochs' : List Epoch}
    (h : List.Forall₂ (fun e e' => e.increments.Perm e'.increments) epochs epochs')
    (fuel : Nat) : ∀ self, newEpochs fuel self epochs = newEpochs fuel self epochs' := by
  induction h with
  | nil => exact fun _ => rfl
  | cons hperm _ ih =>
      intro self
      simp only [newEpochs, List.foldlM_cons, newEpoch_perm hperm] at ih ⊢
      congr 1
      funext self'
      exact ih self'

theorem newEpochs_total {epochs : List Epoch} (h : ∀ epoch ∈ epochs, Apart epoch.increments)
    {fuel : Nat} (hfuel : u64Bound ≤ fuel) : ∀ self, newEpochs fuel self epochs =
      .ok ⟨self.sequence ++ epochs.flatMap fun epoch => elementsOf epoch.increments⟩ := by
  induction epochs with
  | nil => exact fun self => by simp [newEpochs]
  | cons epoch epochs ih =>
      intro self
      have hapart := h epoch List.mem_cons_self
      have hepoch : newEpoch fuel self epoch =
          .ok ⟨self.sequence ++ elementsOf epoch.increments⟩ :=
        newEpoch_total hapart.le (ids_length_lt hapart.nodup hapart.lt) hapart.lt fun i hi => by
          have := hapart.lt i hi
          omega
      have hrest := ih (fun e he => h e (List.mem_cons_of_mem epoch he))
        ⟨self.sequence ++ elementsOf epoch.increments⟩
      rw [newEpochs, List.foldlM_cons, hepoch, ok_bind, ← newEpochs, hrest, List.flatMap_cons,
        List.append_assoc]

/-- Two histories with the same intervals epoch by epoch give the same log, and
each epoch appends its ids in ascending order, each once. -/
theorem log_determined {epochs epochs' : List Epoch}
    (hperm : List.Forall₂ (fun e e' => e.increments.Perm e'.increments) epochs epochs')
    (self : LogLineriazer) :
    (∀ fuel, newEpochs fuel self epochs = newEpochs fuel self epochs') ∧
      ((∀ epoch ∈ epochs, Apart epoch.increments) →
        (∀ fuel, u64Bound ≤ fuel → newEpochs fuel self epochs =
          .ok ⟨self.sequence ++ epochs.flatMap fun epoch => elementsOf epoch.increments⟩) ∧
        ∀ epoch ∈ epochs, (elementsOf epoch.increments).Pairwise (· < ·) ∧
          ∀ id, id ∈ elementsOf epoch.increments ↔
            ∃ i ∈ epoch.increments, i.left ≤ id ∧ id ≤ i.right) := by
  refine ⟨fun fuel => newEpochs_perm hperm fuel self, fun hapart => ⟨fun fuel hfuel => ?_, ?_⟩⟩
  · exact newEpochs_total hapart hfuel self
  · exact fun epoch hepoch => ⟨(hapart epoch hepoch).elementsOf_ascending, fun _ => mem_elementsOf⟩

theorem log_determined_swapped :
    newEpochs u64Bound new [⟨[⟨0, 1⟩, ⟨2, 3⟩], Vector.replicate 32 0⟩] = .ok ⟨[0, 1, 2, 3]⟩ := by
  have hperm : List.Forall₂ (fun e e' : Epoch => e.increments.Perm e'.increments)
      [⟨[⟨2, 3⟩, ⟨0, 1⟩], Vector.replicate 32 0⟩] [⟨[⟨0, 1⟩, ⟨2, 3⟩], Vector.replicate 32 0⟩] :=
    .cons (List.Perm.swap _ _ _) .nil
  have hapart : Apart [⟨2, 3⟩, ⟨0, 1⟩] := by
    refine ⟨by decide, by decide, List.pairwise_pair.mpr fun id hid hid' => ?_⟩
    simp only [U64BlobIdClosedInterval.mem_ids] at hid hid'
    omega
  obtain ⟨hsame, hlog⟩ := log_determined hperm new
  obtain ⟨hall, -⟩ := hlog (by simpa using hapart)
  rw [← hsame, hall u64Bound le_rfl]
  rfl

end LogLineriazer

end Maroon
