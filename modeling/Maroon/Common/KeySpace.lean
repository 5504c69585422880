import Mathlib.Data.Prod.Lex
import Maroon.Common.RangeKey

/-!
# The space of ids

The declared space has `maxBlockIndex + 1` ranges of `singleBlobSize` offsets
each.  Its pairs in lexicographic order are the numbers of 64 bits in their
order (`Declared.of_lt`, `Declared.lt_iff`), and a range is a block of these
numbers (`mem_rangeIds`).

The source keeps this correspondence up to the last range.  There the decoder
compares with the first id of the range where it means the last one
(`pairs_and_ids`).  The full interval of that range is computed by way of
`2 ^ 64`, which is one too many (`fullInterval_exact`).
-/

namespace Maroon

open Lib Outcome

/-! ## Pairs -/

/-- A pair of the declared space. -/
structure Declared (range offset : Nat) : Prop where
  range_le : range ≤ maxBlockIndex
  offset_lt : offset < singleBlobSize

namespace Declared

variable {range offset range' offset' : Nat}

theorem idOf_lt (h : Declared range offset) : idOf range offset < u64Bound := by
  have hr := h.range_le
  have ho := h.offset_lt
  simp only [maxBlockIndex, singleBlobSize] at hr ho
  simp only [idOf, singleBlobSize, u64Bound]
  omega

/-- No id of the space overflows. -/
theorem encoded (h : Declared range offset) :
    uniqueBlobIdFromRangeAndOffset range offset = .ok (idOf range offset) :=
  uniqueBlobIdFromRangeAndOffset_ok.mpr ⟨h.idOf_lt, rfl⟩

/-- Every `u64` is the id of a pair. -/
theorem of_lt {id : Nat} (h : id < u64Bound) :
    Declared (id / singleBlobSize) (id % singleBlobSize) where
  range_le := by
    simp only [u64Bound] at h
    simp only [maxBlockIndex, singleBlobSize]
    omega
  offset_lt := Nat.mod_lt _ singleBlobSize_pos

/-- The order of the ids is that of the pairs. -/
theorem lt_iff (h : Declared range offset) (h' : Declared range' offset') :
    idOf range offset < idOf range' offset' ↔
      toLex (range, offset) < toLex (range', offset') := by
  have ho := h.offset_lt
  have ho' := h'.offset_lt
  rw [Prod.Lex.toLex_lt_toLex]
  simp only [idOf, singleBlobSize] at *
  omega

/-- The ids that the decoder accepts, as pairs. -/
theorem accepted_iff (h : Declared range offset) :
    Accepted (idOf range offset) ↔ range < maxBlockIndex ∨ offset = 0 := by
  have hr := h.range_le
  have ho := h.offset_lt
  rw [Maroon.accepted_iff]
  simp only [idOf, maxBlockIndex, singleBlobSize] at *
  omega

end Declared

/-! ## The decoder and the encoder -/

/-- The pair is what its id is decoded to. -/
def DecodesBack (range offset : Nat) : Prop :=
  ∃ id, uniqueBlobIdFromRangeAndOffset range offset = .ok id ∧
    rangeOffsetFromUniqueBlobId id = .ok (range, offset)

/-- The id is decoded to a pair of the space, and is what that pair is encoded
to. -/
def EncodesBack (id : Nat) : Prop :=
  ∃ range offset, rangeOffsetFromUniqueBlobId id = .ok (range, offset) ∧
    Declared range offset ∧ uniqueBlobIdFromRangeAndOffset range offset = .ok id

theorem Declared.decodesBack_iff {range offset : Nat} (h : Declared range offset) :
    DecodesBack range offset ↔ range < maxBlockIndex ∨ offset = 0 := by
  rw [← h.accepted_iff]
  constructor
  · intro hback
    obtain ⟨id, henc, hdec⟩ := hback
    obtain ⟨-, rfl⟩ := uniqueBlobIdFromRangeAndOffset_ok.mp henc
    exact (rangeOffsetFromUniqueBlobId_ok.mp hdec).1
  · intro hacc
    refine ⟨_, h.encoded, rangeOffsetFromUniqueBlobId_ok.mpr ⟨hacc, ?_⟩⟩
    rw [idOf_div h.offset_lt, idOf_mod h.offset_lt]

theorem encodesBack_iff {id : Nat} (h : id < u64Bound) : EncodesBack id ↔ Accepted id := by
  constructor
  · intro hback
    obtain ⟨range, offset, hdec, -⟩ := hback
    exact (rangeOffsetFromUniqueBlobId_ok.mp hdec).1
  · intro hacc
    have hdeclared := Declared.of_lt h
    refine ⟨_, _, rangeOffsetFromUniqueBlobId_ok.mpr ⟨hacc, rfl⟩, hdeclared, ?_⟩
    rw [hdeclared.encoded, idOf_div_mod]

/-- Encoding never overflows and keeps the order.  Pairs and ids correspond one
to one outside of the last range, and of that range at offset 0 only. -/
theorem pairs_and_ids {range offset : Nat} (h : Declared range offset) :
    (∃ id, uniqueBlobIdFromRangeAndOffset range offset = .ok id) ∧
      (DecodesBack range offset ↔ range < maxBlockIndex ∨ offset = 0) ∧
      (∀ id < u64Bound, EncodesBack id ↔ id ≤ maxBlockIndex * singleBlobSize) ∧
      ∀ range' offset', Declared range' offset' →
        ∃ id id', uniqueBlobIdFromRangeAndOffset range offset = .ok id ∧
          uniqueBlobIdFromRangeAndOffset range' offset' = .ok id' ∧
          (id < id' ↔ toLex (range, offset) < toLex (range', offset')) := by
  refine ⟨⟨_, h.encoded⟩, h.decodesBack_iff, fun id hid => ?_, fun range' offset' h' => ?_⟩
  · rw [encodesBack_iff hid, accepted_iff]
  · exact ⟨_, _, h.encoded, h'.encoded, h.lt_iff h'⟩

theorem pairs_and_ids_last : DecodesBack (maxBlockIndex - 1) (singleBlobSize - 1) ∧
    EncodesBack (maxBlockIndex * singleBlobSize) := by
  have hdeclared : Declared (maxBlockIndex - 1) (singleBlobSize - 1) :=
    ⟨Nat.sub_le _ _, Nat.sub_lt singleBlobSize_pos one_pos⟩
  obtain ⟨-, hpair, hids, -⟩ := pairs_and_ids hdeclared
  exact ⟨hpair.mpr (Or.inl (by decide)), (hids _ (by decide)).mpr le_rfl⟩

/-- Offset 1 of the last range has an id of 64 bits, and the decoder refuses
it. -/
theorem last_range_not_decoded : Declared maxBlockIndex 1 ∧
    uniqueBlobIdFromRangeAndOffset maxBlockIndex 1 = .ok (2 ^ 64 - 2 ^ 30 + 1) ∧
    rangeOffsetFromUniqueBlobId (2 ^ 64 - 2 ^ 30 + 1) = .panic .outOfRange ∧
    ¬ DecodesBack maxBlockIndex 1 ∧ ¬ EncodesBack (2 ^ 64 - 2 ^ 30 + 1) := by
  have hdeclared : Declared maxBlockIndex 1 := ⟨le_rfl, by decide⟩
  refine ⟨hdeclared, by decide, by decide, ?_, ?_⟩
  · rw [hdeclared.decodesBack_iff]
    decide
  · rw [encodesBack_iff (by decide), accepted_iff]
    decide

/-! ## Ranges as blocks of ids -/

/-- The ids of a range, by offset. -/
def rangeIds (range : Nat) : List Nat := (List.range singleBlobSize).map (idOf range)

theorem mem_rangeIds {range id : Nat} : id ∈ rangeIds range ↔ id / singleBlobSize = range := by
  rw [rangeIds, List.mem_map]
  constructor
  · intro h
    obtain ⟨offset, hoffset, rfl⟩ := h
    exact idOf_div (List.mem_range.mp hoffset)
  · rintro rfl
    exact ⟨id % singleBlobSize, List.mem_range.mpr (Nat.mod_lt _ singleBlobSize_pos),
      idOf_div_mod id⟩

theorem rangeIds_length (range : Nat) : (rangeIds range).length = singleBlobSize := by
  rw [rangeIds, List.length_map, List.length_range]

theorem rangeIds_ascending (range : Nat) : (rangeIds range).Pairwise (· < ·) := by
  rw [rangeIds, List.pairwise_map]
  refine List.pairwise_lt_range.imp fun hlt => ?_
  simp only [idOf]
  omega

/-- The interval of a range, as the documentation has it. -/
def rangeInterval (range : Nat) : U64BlobIdClosedInterval where
  left := idOf range 0
  right := idOf range (singleBlobSize - 1)

theorem rangeInterval_ids (range : Nat) : (rangeInterval range).ids = rangeIds range := by
  have hlen : idOf range (singleBlobSize - 1) + 1 - idOf range 0 = singleBlobSize := by
    simp only [idOf, singleBlobSize]
    omega
  rw [U64BlobIdClosedInterval.ids, rangeInterval, hlen, List.range'_eq_map_range, rangeIds]
  refine List.map_congr_left fun offset _ => ?_
  rw [idOf_zero_add]

/-! ## The full interval -/

/-- The last range is refused as well: its last id plus one does not fit. -/
theorem fullIntervalForRange_ok {range : Nat} {i : U64BlobIdClosedInterval} :
    fullIntervalForRange range = .ok i ↔ range < maxBlockIndex ∧ i = rangeInterval range := by
  have hends : idOf range 0 = range * singleBlobSize ∧
      idOf range (singleBlobSize - 1) = range * singleBlobSize + singleBlobSize - 1 := by
    simp only [idOf, singleBlobSize]
    omega
  have hfits : range * singleBlobSize + singleBlobSize < u64Bound ↔ range < maxBlockIndex := by
    simp only [singleBlobSize, maxBlockIndex, u64Bound]
    omega
  rw [fullIntervalForRange, rangeInterval, hends.1, hends.2]
  split
  next hgt =>
    simp only [reduceCtorEq, false_iff, not_and]
    intro hlt
    omega
  next hle =>
    simp only [bind_eq_ok, u64Mul_ok, u64Add_ok, u64Sub_ok, U64BlobIdClosedInterval.new_ok]
    constructor
    · intro h
      obtain ⟨l, ⟨-, rfl⟩, base, ⟨-, rfl⟩, next, ⟨hlt, rfl⟩, r, ⟨-, rfl⟩, -, rfl⟩ := h
      exact ⟨hfits.mp hlt, rfl⟩
    · intro h
      obtain ⟨hlt, rfl⟩ := h
      have hbound := hfits.mpr hlt
      have hpos := singleBlobSize_pos
      exact ⟨_, ⟨by omega, rfl⟩, _, ⟨by omega, rfl⟩, _, ⟨hbound, rfl⟩, _, ⟨by omega, rfl⟩,
        by omega, rfl⟩

/-- The full interval of a range is computed, and it is that range: the
iterator ends and yields the ids of the range, and there are as many as the
interval counts. -/
structure IsFullInterval (range : Nat) (i : U64BlobIdClosedInterval) : Prop where
  computed : fullIntervalForRange range = .ok i
  yields : ∃ enough, ∀ fuel ≥ enough, i.iter fuel = .ok (rangeIds range)
  counted : i.idsCount = .ok (rangeIds range).length

theorem isFullInterval {range : Nat} (h : range < maxBlockIndex) :
    IsFullInterval range (rangeInterval range) := by
  have hids := rangeInterval_ids range
  have hle : idOf range 0 ≤ idOf range (singleBlobSize - 1) := by
    simp only [idOf]
    omega
  have hlt : idOf range (singleBlobSize - 1) + 1 < u64Bound := by
    simp only [idOf, singleBlobSize, maxBlockIndex, u64Bound] at *
    omega
  refine ⟨fullIntervalForRange_ok.mpr ⟨h, rfl⟩, ?_, ?_⟩
  · refine ⟨idOf range (singleBlobSize - 1) + 2, fun fuel hfuel => ?_⟩
    rw [← hids]
    refine U64BlobIdClosedInterval.iter_total hle hlt ?_
    simp only [rangeInterval]
    omega
  · refine U64BlobIdClosedInterval.idsCount_ok.mpr ⟨hle, ?_, by rw [hids]⟩
    rw [hids, rangeIds_length]
    decide

/-- Full intervals are the ranges, except for the last one, which has none.
They are disjoint and cover the ids before the last range. -/
theorem fullInterval_exact (range : Nat) :
    ((∃ i, IsFullInterval range i ∧ (rangeIds range).Pairwise (· < ·) ∧
        (rangeIds range).length = singleBlobSize) ↔ range < maxBlockIndex) ∧
      (∀ range' i i', fullIntervalForRange range = .ok i → fullIntervalForRange range' = .ok i' →
        range ≠ range' → i.ids.Disjoint i'.ids) ∧
      ∀ id < u64Bound, (∃ range ≤ maxBlockIndex, ∃ i, fullIntervalForRange range = .ok i ∧
        id ∈ i.ids) ↔ id < maxBlockIndex * singleBlobSize := by
  refine ⟨?_, fun range' i i' h h' hne => ?_, fun id _ => ?_⟩
  · constructor
    · intro h
      obtain ⟨i, hfull, -⟩ := h
      exact (fullIntervalForRange_ok.mp hfull.computed).1
    · exact fun h => ⟨_, isFullInterval h, rangeIds_ascending range, rangeIds_length range⟩
  · obtain ⟨-, rfl⟩ := fullIntervalForRange_ok.mp h
    obtain ⟨-, rfl⟩ := fullIntervalForRange_ok.mp h'
    rw [rangeInterval_ids, rangeInterval_ids]
    intro id hid hid'
    exact hne ((mem_rangeIds.mp hid).symm.trans (mem_rangeIds.mp hid'))
  · rw [← Nat.div_lt_iff_lt_mul singleBlobSize_pos]
    constructor
    · intro h
      obtain ⟨r, -, i, hfull, hid⟩ := h
      obtain ⟨hlt, rfl⟩ := fullIntervalForRange_ok.mp hfull
      rw [rangeInterval_ids, mem_rangeIds] at hid
      exact hid ▸ hlt
    · intro h
      refine ⟨_, h.le, _, fullIntervalForRange_ok.mpr ⟨h, rfl⟩, ?_⟩
      rw [rangeInterval_ids, mem_rangeIds]

theorem fullInterval_exact_penultimate : (∃ i, IsFullInterval (maxBlockIndex - 1) i) ∧
    (rangeInterval (maxBlockIndex - 1)).ids.Disjoint (rangeInterval 0).ids ∧
    ∃ range ≤ maxBlockIndex, ∃ i, fullIntervalForRange range = .ok i ∧ 10 ∈ i.ids := by
  have hlt : maxBlockIndex - 1 < maxBlockIndex := by decide
  obtain ⟨hexact, hdisjoint, hcover⟩ := fullInterval_exact (maxBlockIndex - 1)
  obtain ⟨i, hfull, -⟩ := hexact.mpr hlt
  have hsecond := fullIntervalForRange_ok.mpr ⟨show 0 < maxBlockIndex by decide, rfl⟩
  exact ⟨⟨i, hfull⟩, hdisjoint 0 _ _ (fullIntervalForRange_ok.mpr ⟨hlt, rfl⟩) hsecond (by decide),
    (hcover 10 (by decide)).mpr (by decide)⟩

/-- The full interval of the last range is not refused, and overflows. -/
theorem last_range_overflows : fullIntervalForRange maxBlockIndex = .panic .overflow ∧
    ¬ ∃ i, IsFullInterval maxBlockIndex i := by
  refine ⟨by decide, fun h => ?_⟩
  obtain ⟨i, hfull⟩ := h
  exact absurd (fullIntervalForRange_ok.mp hfull.computed).1 (lt_irrefl _)

end Maroon
