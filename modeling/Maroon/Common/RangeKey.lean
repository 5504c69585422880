import Mathlib.Algebra.Group.Nat.Defs
import Mathlib.Data.List.Sort
import Mathlib.Data.List.Range
import Maroon.Lib.Loop

/-!
# Ranges, offsets and blob ids

An id of 64 bits is a range of `2 ^ 30` ids and an offset in it.  The source
wraps `u64` in `KeyRange`, `KeyOffset` and `UniqueU64BlobId`.  Here all three
are naturals, called `range`, `offset` and `id`, and every `u64` operation of
the source is a checked one that panics where its result does not fit, as it
does in the build that is deployed.

`idOf` is the id of a pair as a plain number.  The encoder returns it when it
fits (`uniqueBlobIdFromRangeAndOffset_ok`).  The decoder refuses every id above
`maxBlockIndex * singleBlobSize`.  Of the last range it accepts offset 0 only
(`accepted_iff`).
-/

namespace Maroon

open Lib Outcome

/-! ## Panics and checked arithmetic -/

/-- The reasons for which the source panics, but for a `Vec` that would be too
long, which is `App.Overallocates`. -/
inductive Panic where
  /-- A `u64` or `usize` operation whose result does not fit. -/
  | overflow
  /-- "never do it": an interval with its right end before its left end. -/
  | neverDoIt
  /-- "interval too large: would overflow when adding 1" -/
  | intervalTooLarge
  /-- "index can't be more than {MAX_BLOCK_INDEX}" -/
  | indexTooLarge
  /-- "out of range": an id above the last one the decoder accepts. -/
  | outOfRange
  /-- An index outside of a vector. -/
  | indexOutOfBounds
  /-- "self peer id should exist here. Otherwise it's stupid" -/
  | selfPeerIdMissing
deriving DecidableEq, Repr

/-- The first number that is not a `u64`. -/
def u64Bound : Nat := 2 ^ 64

/-- `a + b` on `u64`. -/
def u64Add (a b : Nat) : Outcome Panic Nat :=
  if a + b < u64Bound then .ok (a + b) else .panic .overflow

/-- `a - b` on `u64`. -/
def u64Sub (a b : Nat) : Outcome Panic Nat :=
  if b ≤ a then .ok (a - b) else .panic .overflow

/-- `a * b` on `u64`. -/
def u64Mul (a b : Nat) : Outcome Panic Nat :=
  if a * b < u64Bound then .ok (a * b) else .panic .overflow

theorem u64Add_ok {a b c : Nat} : u64Add a b = .ok c ↔ a + b < u64Bound ∧ c = a + b := by
  by_cases h : a + b < u64Bound <;> simp [u64Add, h, eq_comm]

theorem u64Sub_ok {a b c : Nat} : u64Sub a b = .ok c ↔ b ≤ a ∧ c = a - b := by
  by_cases h : b ≤ a <;> simp [u64Sub, h, eq_comm]

theorem u64Mul_ok {a b c : Nat} : u64Mul a b = .ok c ↔ a * b < u64Bound ∧ c = a * b := by
  by_cases h : a * b < u64Bound <;> simp [u64Mul, h, eq_comm]

/-! ## Keys -/

/-- `SINGLE_BLOB_SIZE`, the number of ids in a range. -/
def singleBlobSize : Nat := 2 ^ 30

/-- `MAX_BLOCK_INDEX`, the index of the last range. -/
def maxBlockIndex : Nat := 2 ^ 34 - 1

/-- The range of an id. -/
def rangeFromUniqueBlobId (globalKey : Nat) : Outcome Panic Nat :=
  if globalKey > maxBlockIndex * singleBlobSize then .panic .outOfRange
  else .ok (globalKey / singleBlobSize)

/-- The range of an id and the offset in it. -/
def rangeOffsetFromUniqueBlobId (globalKey : Nat) :
    Outcome Panic (Nat × Nat) := do
  let range ← rangeFromUniqueBlobId globalKey
  pure (range, globalKey % singleBlobSize)

/-- The id at an offset of a range. -/
def uniqueBlobIdFromRangeAndOffset (range offset : Nat) :
    Outcome Panic Nat := do
  let base ← u64Mul range singleBlobSize
  u64Add base offset

/-! ## Closed intervals of ids -/

/-- `[a,b] = {x ∈ ℕ | a <= x <= b}` -/
structure U64BlobIdClosedInterval where
  left : Nat
  right : Nat
deriving DecidableEq, Repr

namespace U64BlobIdClosedInterval

def new (left right : Nat) : Outcome Panic U64BlobIdClosedInterval :=
  if right < left then .panic .neverDoIt else .ok ⟨left, right⟩

def newFromRangeAndOffsets (range left right : Nat) :
    Outcome Panic U64BlobIdClosedInterval := do
  let l ← uniqueBlobIdFromRangeAndOffset range left
  let r ← uniqueBlobIdFromRangeAndOffset range right
  new l r

/-- The number of ids, as a `usize` of 64 bits. -/
def idsCount (self : U64BlobIdClosedInterval) : Outcome Panic Nat := do
  let diff ← u64Sub self.right self.left
  if diff + 1 < u64Bound then pure (diff + 1) else .panic .intervalTooLarge

def startId (self : U64BlobIdClosedInterval) : Nat := self.left

def endId (self : U64BlobIdClosedInterval) : Nat := self.right

/-- What a `for` loop over the iterator sees.  The state is the captured
`current` and the ids yielded so far; `current` moves on before its old value
is yielded. -/
def iter (fuel : Nat) (self : U64BlobIdClosedInterval) :
    Outcome Panic (List Nat) := do
  let (_, yielded) ← whileLoop
    (fun (current, _) => pure (decide (current ≤ self.right)))
    (fun (current, yielded) => do
      let next ← u64Add current 1
      pure (next, yielded ++ [current]))
    fuel (self.left, [])
  pure yielded

/-- The derived order: by the left end, then by the right end. -/
def le (i j : U64BlobIdClosedInterval) : Prop :=
  i.left < j.left ∨ i.left = j.left ∧ i.right ≤ j.right

instance : DecidableRel le := fun i j =>
  inferInstanceAs (Decidable (i.left < j.left ∨ i.left = j.left ∧ i.right ≤ j.right))

/-- The ids of an interval, in ascending order. -/
def ids (self : U64BlobIdClosedInterval) : List Nat :=
  List.range' self.left (self.right + 1 - self.left)

end U64BlobIdClosedInterval

/-- The interval of a whole range. -/
def fullIntervalForRange (range : Nat) : Outcome Panic U64BlobIdClosedInterval := do
  if range > maxBlockIndex then .panic .indexTooLarge
  else
    let l ← u64Mul range singleBlobSize
    let base ← u64Mul range singleBlobSize
    let next ← u64Add base singleBlobSize
    let r ← u64Sub next 1
    U64BlobIdClosedInterval.new l r

/-! ## Ids as numbers -/

/-- The id of a pair, with no bound on it. -/
def idOf (range offset : Nat) : Nat :=
  range * singleBlobSize + offset

/-- An id that `range_from_unique_blob_id` accepts. -/
def Accepted (id : Nat) : Prop := ∃ range, rangeFromUniqueBlobId id = .ok range

/-- A pair that a node can advertise: an offset of the range whose id is
accepted. -/
structure Advertisable (range offset : Nat) : Prop where
  lt : offset < singleBlobSize
  accepted : Accepted (idOf range offset)

theorem idOf_add (range offset i : Nat) :
    idOf range (offset + i) = idOf range offset + i := by
  simp only [idOf]
  omega

theorem idOf_zero_add (range offset : Nat) :
    idOf range 0 + offset = idOf range offset := by
  simp only [idOf]
  omega

theorem idOf_div {range offset : Nat} (h : offset < singleBlobSize) :
    idOf range offset / singleBlobSize = range := by
  simp only [idOf, singleBlobSize] at *
  omega

theorem idOf_mod {range offset : Nat} (h : offset < singleBlobSize) :
    idOf range offset % singleBlobSize = offset := by
  simp only [idOf, singleBlobSize] at *
  omega

theorem idOf_div_mod (id : Nat) :
    idOf (id / singleBlobSize) (id % singleBlobSize) = id := by
  exact Nat.div_add_mod' id singleBlobSize

theorem singleBlobSize_pos : 0 < singleBlobSize := by decide

theorem rangeFromUniqueBlobId_ok {id range : Nat} :
    rangeFromUniqueBlobId id = .ok range ↔
      id ≤ maxBlockIndex * singleBlobSize ∧ range = id / singleBlobSize := by
  by_cases h : id > maxBlockIndex * singleBlobSize
  · simp [rangeFromUniqueBlobId, h]
  · simp [rangeFromUniqueBlobId, h, eq_comm, Nat.le_of_not_gt h]

theorem accepted_iff {id : Nat} :
    Accepted id ↔ id ≤ maxBlockIndex * singleBlobSize := by
  constructor
  · intro h
    obtain ⟨range, h⟩ := h
    exact (rangeFromUniqueBlobId_ok.mp h).1
  · exact fun h => ⟨_, rangeFromUniqueBlobId_ok.mpr ⟨h, rfl⟩⟩

instance : DecidablePred Accepted := fun _ => decidable_of_iff _ accepted_iff.symm

theorem Accepted.lt {id : Nat} (h : Accepted id) : id + 1 < u64Bound := by
  rw [accepted_iff] at h
  simp only [maxBlockIndex, singleBlobSize] at h
  simp only [u64Bound]
  omega

theorem Accepted.of_le {id id' : Nat} (h : Accepted id) (hle : id' ≤ id) :
    Accepted id' := by
  rw [accepted_iff] at *
  exact hle.trans h

theorem rangeOffsetFromUniqueBlobId_ok {id : Nat} {p : Nat × Nat} :
    rangeOffsetFromUniqueBlobId id = .ok p ↔
      Accepted id ∧ p = (id / singleBlobSize, id % singleBlobSize) := by
  rw [rangeOffsetFromUniqueBlobId, bind_eq_ok, accepted_iff]
  constructor
  · intro h
    obtain ⟨range, hr, hp⟩ := h
    obtain ⟨hle, rfl⟩ := rangeFromUniqueBlobId_ok.mp hr
    exact ⟨hle, (Outcome.ok.inj hp).symm⟩
  · intro h
    obtain ⟨hle, rfl⟩ := h
    exact ⟨_, rangeFromUniqueBlobId_ok.mpr ⟨hle, rfl⟩, rfl⟩

theorem uniqueBlobIdFromRangeAndOffset_ok {range offset id : Nat} :
    uniqueBlobIdFromRangeAndOffset range offset = .ok id ↔
      idOf range offset < u64Bound ∧ id = idOf range offset := by
  rw [uniqueBlobIdFromRangeAndOffset, idOf, bind_eq_ok]
  constructor
  · intro h
    obtain ⟨base, hb, hid⟩ := h
    obtain ⟨-, rfl⟩ := u64Mul_ok.mp hb
    exact u64Add_ok.mp hid
  · intro h
    exact ⟨_, u64Mul_ok.mpr ⟨by omega, rfl⟩, u64Add_ok.mpr h⟩

/-! ## Operations that take no fuel -/

theorem u64Add_ends (a b : Nat) : u64Add a b ≠ .outOfFuel := by
  by_cases h : a + b < u64Bound <;> simp [u64Add, h]

theorem u64Sub_ends (a b : Nat) : u64Sub a b ≠ .outOfFuel := by
  by_cases h : b ≤ a <;> simp [u64Sub, h]

theorem u64Mul_ends (a b : Nat) : u64Mul a b ≠ .outOfFuel := by
  by_cases h : a * b < u64Bound <;> simp [u64Mul, h]

theorem uniqueBlobIdFromRangeAndOffset_ends (range offset : Nat) :
    uniqueBlobIdFromRangeAndOffset range offset ≠ .outOfFuel :=
  bind_ne_outOfFuel (u64Mul_ends _ _) fun _ => u64Add_ends _ _

theorem rangeFromUniqueBlobId_ends (id : Nat) : rangeFromUniqueBlobId id ≠ .outOfFuel := by
  by_cases h : id > maxBlockIndex * singleBlobSize <;> simp [rangeFromUniqueBlobId, h]

theorem rangeOffsetFromUniqueBlobId_ends (id : Nat) :
    rangeOffsetFromUniqueBlobId id ≠ .outOfFuel :=
  bind_ne_outOfFuel (rangeFromUniqueBlobId_ends id) fun _ => by simp

namespace Advertisable

variable {range offset : Nat}

theorem idOf_lt (h : Advertisable range offset) : idOf range offset < u64Bound := by
  have := h.accepted.lt
  omega

theorem of_le (h : Advertisable range offset) {offset' : Nat} (hle : offset' ≤ offset) :
    Advertisable range offset' where
  lt := hle.trans_lt h.lt
  accepted := h.accepted.of_le (by simp only [idOf]; omega)

end Advertisable

/-! ## Intervals as lists of ids -/

namespace U64BlobIdClosedInterval

theorem new_ok {left right : Nat} {i : U64BlobIdClosedInterval} :
    new left right = .ok i ↔ left ≤ right ∧ i = ⟨left, right⟩ := by
  by_cases h : right < left
  · simp [new, h]
  · simp [new, h, eq_comm, Nat.le_of_not_gt h]

theorem newFromRangeAndOffsets_ok {range left right : Nat}
    {i : U64BlobIdClosedInterval} :
    newFromRangeAndOffsets range left right = .ok i ↔
      left ≤ right ∧ idOf range right < u64Bound ∧ i = ⟨idOf range left, idOf range right⟩ := by
  simp only [newFromRangeAndOffsets, bind_eq_ok, uniqueBlobIdFromRangeAndOffset_ok, new_ok]
  constructor
  · intro h
    obtain ⟨l, ⟨-, rfl⟩, r, ⟨hr, rfl⟩, hle, rfl⟩ := h
    exact ⟨by simp only [idOf] at hle; omega, hr, rfl⟩
  · intro h
    obtain ⟨hle, hr, rfl⟩ := h
    have hidle : idOf range left ≤ idOf range right := by
      simp only [idOf]
      omega
    exact ⟨_, ⟨by omega, rfl⟩, _, ⟨hr, rfl⟩, hidle, rfl⟩

theorem newFromRangeAndOffsets_ends (range left right : Nat) :
    newFromRangeAndOffsets range left right ≠ .outOfFuel := by
  refine bind_ne_outOfFuel (uniqueBlobIdFromRangeAndOffset_ends _ _) fun l =>
    bind_ne_outOfFuel (uniqueBlobIdFromRangeAndOffset_ends _ _) fun r => ?_
  by_cases h : r < l <;> simp [new, h]

instance : Std.Total le where
  total i j := by
    simp only [le]
    omega

instance : IsTrans U64BlobIdClosedInterval le where
  trans i j k hij hjk := by
    simp only [le] at *
    omega

instance : Std.Antisymm le where
  antisymm i j hij hji := by
    cases i with
    | mk left right =>
        cases j with
        | mk left' right' =>
            simp only [le, mk.injEq] at *
            omega

theorem mem_ids {i : U64BlobIdClosedInterval} {id : Nat} :
    id ∈ i.ids ↔ i.left ≤ id ∧ id ≤ i.right := by
  rw [ids, List.mem_range'_1]
  omega

theorem ids_nodup (i : U64BlobIdClosedInterval) : i.ids.Nodup := List.nodup_range'

theorem ids_length (i : U64BlobIdClosedInterval) : i.ids.length = i.right + 1 - i.left :=
  List.length_range'

theorem idsCount_ok {i : U64BlobIdClosedInterval} {count : Nat} :
    i.idsCount = .ok count ↔
      i.left ≤ i.right ∧ i.ids.length < u64Bound ∧ count = i.ids.length := by
  rw [idsCount, bind_eq_ok, ids_length]
  constructor
  · intro h
    obtain ⟨diff, hdiff, h⟩ := h
    obtain ⟨hle, rfl⟩ := u64Sub_ok.mp hdiff
    split at h
    next hlt =>
      cases h
      omega
    next => cases h
  · intro h
    obtain ⟨hle, hlt, rfl⟩ := h
    refine ⟨_, u64Sub_ok.mpr ⟨hle, rfl⟩, ?_⟩
    rw [if_pos (by omega), pure_eq, Outcome.ok.injEq]
    omega

theorem idsCount_ends (i : U64BlobIdClosedInterval) : i.idsCount ≠ .outOfFuel := by
  refine bind_ne_outOfFuel (u64Sub_ends _ _) fun diff => ?_
  by_cases h : diff + 1 < u64Bound <;> simp [h]

/-- What the iterator has yielded when `current` is reached. -/
private theorem range'_snoc {left current : Nat} (h : left ≤ current) :
    List.range' left (current + 1 - left) = List.range' left (current - left) ++ [current] := by
  rw [Nat.sub_add_comm h, List.range'_1_concat]
  congr 2
  omega

/-- An iteration that ends has yielded the ids of the interval. -/
theorem iter_ok {fuel : Nat} {i : U64BlobIdClosedInterval} {yielded : List Nat}
    (hle : i.left ≤ i.right) (h : i.iter fuel = .ok yielded) : yielded = i.ids := by
  obtain ⟨⟨current, out⟩, hloop, hout⟩ := bind_eq_ok.mp h
  obtain ⟨⟨hl, hr, hids⟩, hc⟩ := whileLoop_ok
    (fun s : Nat × List Nat =>
      i.left ≤ s.1 ∧ s.1 ≤ i.right + 1 ∧ s.2 = List.range' i.left (s.1 - i.left))
    (by
      rintro ⟨c, ys⟩ s' ⟨hl, hr, hys⟩ hc hb
      obtain ⟨next, hn, hb⟩ := bind_eq_ok.mp hb
      obtain ⟨-, rfl⟩ := u64Add_ok.mp hn
      cases hb
      simp only [pure_eq, Outcome.ok.injEq, decide_eq_true_eq] at hc
      refine ⟨by omega, by omega, ?_⟩
      simp only at hys ⊢
      rw [range'_snoc hl, hys])
    hloop ⟨le_rfl, by omega, by simp⟩
  simp only [pure_eq, Outcome.ok.injEq, decide_eq_false_iff_not] at hc hout hl hr hids
  rw [← hout, hids, ids]
  congr 1
  omega

/-- An iteration that stays below the last `u64` ends, given a round for each
id and one more. -/
theorem iter_total {fuel : Nat} {i : U64BlobIdClosedInterval}
    (hle : i.left ≤ i.right) (hlt : i.right + 1 < u64Bound)
    (hfuel : i.right + 1 - i.left < fuel) : i.iter fuel = .ok i.ids := by
  have hloop : ∃ s', whileLoop
      (fun (s : Nat × List Nat) => (pure (decide (s.1 ≤ i.right)) : Outcome Panic Bool))
      (fun s => do
        let next ← u64Add s.1 1
        pure (next, s.2 ++ [s.1])) fuel (i.left, []) = .ok s' := by
    refine whileLoop_total (fun _ => True) (fun s => i.right + 1 - s.1)
      (fun s _ => ⟨_, rfl⟩) ?_ trivial hfuel
    rintro ⟨c, ys⟩ - hc
    simp only [Outcome.ok.injEq, decide_eq_true_eq] at hc
    refine ⟨(c + 1, ys ++ [c]), ?_, trivial, by simp only; omega⟩
    rw [u64Add_ok.mpr ⟨show c + 1 < u64Bound by omega, rfl⟩]
    rfl
  obtain ⟨⟨current, out⟩, hloop⟩ := hloop
  have hiter : i.iter fuel = .ok out := bind_eq_ok.mpr ⟨(current, out), hloop, rfl⟩
  rw [hiter, iter_ok hle hiter]

end U64BlobIdClosedInterval

end Maroon
