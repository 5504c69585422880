import Maroon.App.Effects

/-!
# The increments of an epoch

A commit tick makes an interval for each range whose consensus offset is past
the start of its increment (`incrementOf`), in the order in which the consensus
offsets are visited.  The start is the offset after the commited one, or 0.

The hash of an epoch is taken over the intervals as they were visited.
`hash_order_iff` says when it does not depend on that order: when all ranges
that advance give the same interval.  Where every offset is one of its range,
that is one range at most (`oneIncrement_iff`).
-/

namespace Maroon

open Lib Outcome

/-! ## Increments -/

section Increments

variable {commitedOffsets : HashMap Nat Nat}

/-- The interval that a commit tick makes of an entry. -/
def incrementOf (commitedOffsets : HashMap Nat Nat) (entry : Nat × Nat) :
    Option U64BlobIdClosedInterval :=
  if nextOffset commitedOffsets entry.1 < entry.2 then
    some ⟨idOf entry.1 (nextOffset commitedOffsets entry.1), idOf entry.1 entry.2⟩
  else none

/-- The `u64` operations on an entry do not overflow. -/
def Representable (commitedOffsets : HashMap Nat Nat) (entry : Nat × Nat) : Prop :=
  nextOffset commitedOffsets entry.1 < u64Bound ∧
    (nextOffset commitedOffsets entry.1 < entry.2 → idOf entry.1 entry.2 < u64Bound)

theorem incrementOf_eq_some {entry : Nat × Nat} {i : U64BlobIdClosedInterval} :
    incrementOf commitedOffsets entry = some i ↔
      nextOffset commitedOffsets entry.1 < entry.2 ∧
        i = ⟨idOf entry.1 (nextOffset commitedOffsets entry.1), idOf entry.1 entry.2⟩ := by
  rw [incrementOf]
  split
  next h => simp [h, eq_comm]
  next h => simp [h]

theorem increments_valid (commitedOffsets : HashMap Nat Nat) (order : List (Nat × Nat)) :
    ∀ i ∈ order.filterMap (incrementOf commitedOffsets), i.left ≤ i.right := by
  intro i hi
  obtain ⟨entry, -, hinc⟩ := List.mem_filterMap.mp hi
  obtain ⟨hadv, rfl⟩ := incrementOf_eq_some.mp hinc
  simp only [idOf]
  omega

/-- A commited offset that a range can have leaves room for the next one. -/
theorem representable_of_lt {entry : Nat × Nat}
    (hcommited : ∀ r o, commitedOffsets.lookup r = some o → o < singleBlobSize)
    (hlt : nextOffset commitedOffsets entry.1 < entry.2 → idOf entry.1 entry.2 < u64Bound) :
    Representable commitedOffsets entry := by
  constructor
  · rw [nextOffset]
    cases hc : commitedOffsets.lookup entry.1 with
    | none => simp [u64Bound]
    | some c =>
        have hlt := hcommited _ c hc
        simp only [singleBlobSize] at hlt
        simp only [u64Bound]
        omega
  · exact hlt

/-- A round adds 1 to the commited offset first, and panics if that does not
fit. -/
private theorem incrementRange_eq (entry : Nat × Nat)
    (increments : List U64BlobIdClosedInterval) :
    incrementRange commitedOffsets increments entry =
      if nextOffset commitedOffsets entry.1 < u64Bound then
        if nextOffset commitedOffsets entry.1 ≥ entry.2 then pure increments
        else do
          let interval ← U64BlobIdClosedInterval.newFromRangeAndOffsets entry.1
            (nextOffset commitedOffsets entry.1) entry.2
          pure (increments ++ [interval])
      else .panic .overflow := by
  rw [incrementRange, nextOffset]
  cases hlook : commitedOffsets.lookup entry.1 with
  | some prev =>
      simp only [u64Add]
      split
      next => rfl
      next => rfl
  | none => rfl

theorem incrementRange_ok {entry : Nat × Nat}
    {increments increments' : List U64BlobIdClosedInterval} :
    incrementRange commitedOffsets increments entry = .ok increments' ↔
      Representable commitedOffsets entry ∧
        increments' = increments ++ (incrementOf commitedOffsets entry).toList := by
  rw [incrementRange_eq, Representable, incrementOf]
  split
  next hlt =>
    split
    next hge =>
      rw [if_neg (by omega)]
      simp only [hlt, true_and, Option.toList_none, List.append_nil, pure_eq, Outcome.ok.injEq]
      exact ⟨fun h => ⟨fun hadv => absurd hadv (by omega), h.symm⟩, fun h => h.2.symm⟩
    next hadv =>
      have hadv' : nextOffset commitedOffsets entry.1 < entry.2 := by omega
      rw [if_pos hadv', bind_eq_ok]
      simp only [U64BlobIdClosedInterval.newFromRangeAndOffsets_ok, pure_eq, Outcome.ok.injEq]
      constructor
      · intro h
        obtain ⟨interval, ⟨-, hid, rfl⟩, rfl⟩ := h
        exact ⟨⟨hlt, fun _ => hid⟩, rfl⟩
      · intro h
        obtain ⟨⟨-, hid⟩, rfl⟩ := h
        exact ⟨_, ⟨hadv'.le, hid hadv', rfl⟩, rfl⟩
  next hge =>
    simp only [hge, false_and, reduceCtorEq]

/-- The increments in the order of the entries. -/
theorem calculateEpochIncrements_ok {order : List (Nat × Nat)}
    {increments : List U64BlobIdClosedInterval} :
    calculateEpochIncrements order commitedOffsets = .ok increments ↔
      (∀ entry ∈ order, Representable commitedOffsets entry) ∧
        increments = order.filterMap (incrementOf commitedOffsets) := by
  have key : ∀ (order : List (Nat × Nat)) (done : List U64BlobIdClosedInterval),
      order.foldlM (incrementRange commitedOffsets) done = .ok increments ↔
        (∀ entry ∈ order, Representable commitedOffsets entry) ∧
          increments = done ++ order.filterMap (incrementOf commitedOffsets) := by
    intro order
    induction order with
    | nil => simp [eq_comm]
    | cons entry order ih =>
        intro done
        rw [List.foldlM_cons, bind_eq_ok, List.forall_mem_cons, and_assoc]
        have hcons : (entry :: order).filterMap (incrementOf commitedOffsets) =
            (incrementOf commitedOffsets entry).toList ++
              order.filterMap (incrementOf commitedOffsets) := by
          cases hinc : incrementOf commitedOffsets entry with
          | none => simp [hinc]
          | some i => simp [hinc]
        constructor
        · intro h
          obtain ⟨done', hdone', hrest⟩ := h
          obtain ⟨hrep, rfl⟩ := incrementRange_ok.mp hdone'
          rw [ih, List.append_assoc, ← hcons] at hrest
          exact ⟨hrep, hrest⟩
        · intro h
          obtain ⟨hrep, hrest⟩ := h
          refine ⟨_, incrementRange_ok.mpr ⟨hrep, rfl⟩, ?_⟩
          rw [ih, List.append_assoc, ← hcons]
          exact hrest
  exact key order []

end Increments

/-! ## The hash and the order of the entries -/

/-- All ranges that advance give the same interval. -/
def OneIncrement (commitedOffsets consensusOffset : HashMap Nat Nat) : Prop :=
  ∀ r o r' o', consensusOffset.lookup r = some o → consensusOffset.lookup r' = some o' →
    nextOffset commitedOffsets r < o → nextOffset commitedOffsets r' < o' →
    idOf r (nextOffset commitedOffsets r) = idOf r' (nextOffset commitedOffsets r') ∧
      idOf r o = idOf r' o'

/-- With offsets that belong to their range, one range advances at most. -/
theorem oneIncrement_iff {commitedOffsets consensusOffset : HashMap Nat Nat}
    (h : ∀ r o, consensusOffset.lookup r = some o → o < singleBlobSize) :
    OneIncrement commitedOffsets consensusOffset ↔
      ∀ r o r' o', consensusOffset.lookup r = some o → consensusOffset.lookup r' = some o' →
        nextOffset commitedOffsets r < o → nextOffset commitedOffsets r' < o' → r = r' := by
  constructor
  · intro hone r o r' o' ho ho' hadv hadv'
    have hid := (hone r o r' o' ho ho' hadv hadv').2
    calc r = idOf r o / singleBlobSize := (idOf_div (h r o ho)).symm
      _ = idOf r' o' / singleBlobSize := by rw [hid]
      _ = r' := idOf_div (h r' o' ho')
  · intro hone r o r' o' ho ho' hadv hadv'
    cases hone r o r' o' ho ho' hadv hadv'
    cases ho.symm.trans ho'
    exact ⟨rfl, rfl⟩

/-- Any entry can be visited first. -/
private theorem exists_order {consensusOffset : HashMap Nat Nat} {r o : Nat}
    (h : consensusOffset.lookup r = some o) :
    ∃ rest, Enumerates ((r, o) :: rest) consensusOffset := by
  obtain ⟨order, horder⟩ := Enumerates.exists_entries consensusOffset
  exact ⟨_, horder.of_perm (List.perm_cons_erase (horder.mem_iff.mpr h)).symm⟩

/-- The bytes that are hashed do not depend on the order of the entries, exactly
when all ranges that advance give the same interval. -/
theorem hash_order_iff (commitedOffsets consensusOffset : HashMap Nat Nat)
    (prevHash : Option Hash) :
    (∀ order order' increments increments',
        Enumerates order consensusOffset → Enumerates order' consensusOffset →
        calculateEpochIncrements order commitedOffsets = .ok increments →
        calculateEpochIncrements order' commitedOffsets = .ok increments' →
        Epoch.hashInput increments prevHash = Epoch.hashInput increments' prevHash) ↔
      ((∀ r o, consensusOffset.lookup r = some o → Representable commitedOffsets (r, o)) →
        OneIncrement commitedOffsets consensusOffset) := by
  constructor
  · intro h hrep r o r' o' ho ho' hadv hadv'
    have hid := (hrep r o ho).2 hadv
    have hid' := (hrep r' o' ho').2 hadv'
    obtain ⟨rest, horder⟩ := exists_order ho
    obtain ⟨rest', horder'⟩ := exists_order ho'
    have hall : ∀ {order}, Enumerates order consensusOffset →
        calculateEpochIncrements order commitedOffsets =
          .ok (order.filterMap (incrementOf commitedOffsets)) := fun horder =>
      calculateEpochIncrements_ok.mpr ⟨fun e he => hrep e.1 e.2 (horder.mem_iff.mp he), rfl⟩
    have hbytes := h _ _ _ _ horder horder' (hall horder) (hall horder')
    rw [List.filterMap_cons_some (incrementOf_eq_some.mpr ⟨hadv, rfl⟩),
      List.filterMap_cons_some (incrementOf_eq_some.mpr ⟨hadv', rfl⟩)] at hbytes
    have heq := Epoch.hashInput_cons_inj
      ⟨by simp only [idOf] at *; omega, hid⟩ ⟨by simp only [idOf] at *; omega, hid'⟩ hbytes
    exact ⟨congrArg U64BlobIdClosedInterval.left heq, congrArg U64BlobIdClosedInterval.right heq⟩
  · intro h order order' increments increments' horder horder' hinc hinc'
    obtain ⟨hrep, rfl⟩ := calculateEpochIncrements_ok.mp hinc
    obtain ⟨-, rfl⟩ := calculateEpochIncrements_ok.mp hinc'
    have hone := h fun r o ho => hrep (r, o) (horder.mem_iff.mpr ho)
    have hperm := (horder.perm horder').filterMap (incrementOf commitedOffsets)
    have hsame : ∀ i ∈ order.filterMap (incrementOf commitedOffsets),
        ∀ j ∈ order.filterMap (incrementOf commitedOffsets), i = j := by
      intro i hi j hj
      obtain ⟨e, he, hei⟩ := List.mem_filterMap.mp hi
      obtain ⟨e', he', hej⟩ := List.mem_filterMap.mp hj
      obtain ⟨hadv, rfl⟩ := incrementOf_eq_some.mp hei
      obtain ⟨hadv', rfl⟩ := incrementOf_eq_some.mp hej
      obtain ⟨hleft, hright⟩ := hone _ _ _ _ (horder.mem_iff.mp he) (horder.mem_iff.mp he')
        hadv hadv'
      rw [hleft, hright]
    have hany : ∀ l : List U64BlobIdClosedInterval, l.Pairwise fun _ _ => True :=
      fun l => List.pairwise_of_forall fun _ _ => trivial
    rw [hperm.eq_of_pairwise (fun i j hi hj _ _ => hsame i hi j (hperm.mem_iff.mpr hj))
      (hany _) (hany _)]

/-- Two ranges that advance by one offset each: the hash sees the two orders. -/
theorem hash_order_matters : ¬ ∀ (commitedOffsets consensusOffset : HashMap Nat Nat)
    (prevHash : Option Hash) (order order' : List (Nat × Nat))
    (increments increments' : List U64BlobIdClosedInterval),
      Enumerates order consensusOffset → Enumerates order' consensusOffset →
      calculateEpochIncrements order commitedOffsets = .ok increments →
      calculateEpochIncrements order' commitedOffsets = .ok increments' →
      Epoch.hashInput increments prevHash = Epoch.hashInput increments' prevHash := by
  intro h
  have horder : Enumerates [(1, 1), (0, 1)]
      (((∅ : HashMap Nat Nat).insert 0 1).insert 1 1) :=
    (Enumerates.singleton 0 1).insert (by decide) 1
  have hbytes := h ∅ _ none _ _ _ _ horder (horder.of_perm (List.Perm.swap _ _ _)) rfl rfl
  revert hbytes
  decide

end Maroon
