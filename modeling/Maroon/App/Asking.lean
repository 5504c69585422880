import Maroon.App.Delays
import Maroon.Lib.Fuel
import Maroon.Lib.Tiling

/-!
# The delays of a node, exactly

`self_delays` returns when every offset that is ahead of the node's own is
`Scannable`, and it returns for no other table (`selfDelays_returns_iff`).  What
it returns is described by `ExactDelays`: the ids the node lacks up to the
greatest offset of each range, in the least number of intervals, those of one
range all for one peer that has that offset.
-/

namespace Maroon

open Lib Outcome

/-! ## The scan returns -/

/-- A range can be scanned up to an offset within 64 bits. -/
structure Scannable (range border : Nat) : Prop where
  idOf_lt : idOf range border < u64Bound
  succ_lt : border + 1 < u64Bound

theorem Scannable.of_le {range border offset : Nat} (h : Scannable range border)
    (hle : offset ≤ border) : Scannable range offset where
  idOf_lt := by
    have hlt := h.idOf_lt
    simp only [idOf] at *
    omega
  succ_lt := by
    have hlt := h.succ_lt
    omega

/-- Offsets of the ranges there are can be scanned up to. -/
theorem Scannable.of_lt {range offset : Nat} (hrange : range ≤ maxBlockIndex)
    (hlt : offset < singleBlobSize) : Scannable range offset where
  idOf_lt := by
    simp only [idOf, maxBlockIndex, singleBlobSize, u64Bound] at *
    omega
  succ_lt := by
    simp only [singleBlobSize, u64Bound] at *
    omega

namespace GapScan

variable {transactions : HashMap Nat Transaction} {range right : Nat} {scan scan' : GapScan}

theorem push_ends (scan : GapScan) (range : Nat) : scan.push range ≠ .outOfFuel :=
  bind_ne_outOfFuel (u64Sub_ends _ _) fun _ =>
    bind_ne_outOfFuel (U64BlobIdClosedInterval.newFromRangeAndOffsets_ends _ _ _) fun _ => by simp

theorem push_total (hlt : scan.leftBorder < scan.pointer) (hfit : Scannable range right)
    (hle : scan.pointer ≤ right + 1) : ∃ scan', scan.push range = .ok scan' := by
  have hfit' : Scannable range (scan.pointer - 1) := hfit.of_le (by omega)
  have hsub : u64Sub scan.pointer 1 = .ok (scan.pointer - 1) := u64Sub_ok.mpr ⟨by omega, rfl⟩
  have hinterval := U64BlobIdClosedInterval.newFromRangeAndOffsets_ok.mpr
    ⟨show scan.leftBorder ≤ scan.pointer - 1 by omega, hfit'.idOf_lt, rfl⟩
  exact ⟨_, bind_eq_ok.mpr ⟨_, hsub, bind_eq_ok.mpr ⟨_, hinterval, rfl⟩⟩⟩

theorem round_ends (transactions : HashMap Nat Transaction) (range : Nat) (scan : GapScan) :
    scan.round transactions range ≠ .outOfFuel := by
  have hmove : ∀ (pointer : Nat) (next : Nat → GapScan),
      (u64Add pointer 1 >>= fun pointer => pure (next pointer)) ≠ Outcome.outOfFuel :=
    fun _ _ => bind_ne_outOfFuel (u64Add_ends _ _) fun _ => by simp
  refine bind_ne_outOfFuel (uniqueBlobIdFromRangeAndOffset_ends _ _) fun id => ?_
  split
  next =>
    split
    next => exact bind_ne_outOfFuel (push_ends _ _) fun _ => hmove _ _
    next => exact bind_ne_outOfFuel (by simp) fun _ => hmove _ _
  next => exact hmove _ _

/-- A round that returned has encoded its offset and moved on. -/
theorem round_ok (h : scan.round transactions range = .ok scan') :
    Scannable range scan.pointer ∧ scan'.pointer = scan.pointer + 1 := by
  obtain ⟨id, hid, h⟩ := bind_eq_ok.mp h
  obtain ⟨hlt, rfl⟩ := uniqueBlobIdFromRangeAndOffset_ok.mp hid
  split at h
  next =>
    split at h
    next =>
      obtain ⟨pushed, hpush, h⟩ := bind_eq_ok.mp h
      obtain ⟨pointer, hpointer, h⟩ := bind_eq_ok.mp h
      obtain ⟨hsucc, rfl⟩ := u64Add_ok.mp hpointer
      cases h
      rw [push_ok hpush] at hsucc ⊢
      exact ⟨⟨hlt, hsucc⟩, rfl⟩
    next =>
      obtain ⟨same, hsame, h⟩ := bind_eq_ok.mp h
      cases hsame
      obtain ⟨pointer, hpointer, h⟩ := bind_eq_ok.mp h
      obtain ⟨hsucc, rfl⟩ := u64Add_ok.mp hpointer
      cases h
      exact ⟨⟨hlt, hsucc⟩, rfl⟩
  next =>
    obtain ⟨pointer, hpointer, h⟩ := bind_eq_ok.mp h
    obtain ⟨hsucc, rfl⟩ := u64Add_ok.mp hpointer
    cases h
    exact ⟨⟨hlt, hsucc⟩, rfl⟩

theorem round_total (transactions : HashMap Nat Transaction) (hle : scan.pointer ≤ right)
    (hfit : Scannable range right) : ∃ scan', scan.round transactions range = .ok scan' := by
  have hfit' := hfit.of_le hle
  have hid := uniqueBlobIdFromRangeAndOffset_ok.mpr ⟨hfit'.idOf_lt, rfl⟩
  have hnext : u64Add scan.pointer 1 = .ok (scan.pointer + 1) :=
    u64Add_ok.mpr ⟨hfit'.succ_lt, rfl⟩
  rw [round, hid, ok_bind]
  split
  next =>
    split
    next hlt =>
      obtain ⟨pushed, hpush⟩ := push_total hlt hfit (Nat.le_succ_of_le hle)
      have hsame : pushed.pointer = scan.pointer := by rw [push_ok hpush]
      exact ⟨_, bind_eq_ok.mpr ⟨pushed, hpush,
        bind_eq_ok.mpr ⟨_, hsame ▸ hnext, rfl⟩⟩⟩
    next => exact ⟨_, bind_eq_ok.mpr ⟨scan, rfl, bind_eq_ok.mpr ⟨_, hnext, rfl⟩⟩⟩
  next => exact ⟨_, bind_eq_ok.mpr ⟨_, hnext, rfl⟩⟩

end GapScan

section Scan

variable {transactions : HashMap Nat Transaction} {range left right : Nat}

theorem missingIntervals_settles (transactions : HashMap Nat Transaction)
    (range left right : Nat) :
    Settles fun fuel => missingIntervals fuel transactions range left right := by
  refine (Settles.whileLoop (fun scan : GapScan => right + 1 - scan.pointer) (fun _ => by simp)
    (GapScan.round_ends transactions range) ?_ _).bind fun _ scan _ => .const ?_
  · intro scan scan' hc hround
    have hle : scan.pointer ≤ right := of_decide_eq_true (Outcome.ok.inj hc)
    obtain ⟨-, hnext⟩ := GapScan.round_ok hround
    omega
  · split
    next => exact bind_ne_outOfFuel (GapScan.push_ends _ _) fun _ => by simp
    next => exact bind_ne_outOfFuel (by simp) fun _ => by simp

theorem missingIntervals_total (transactions : HashMap Nat Transaction) (hle : left ≤ right)
    (hfit : Scannable range right) : ∃ fuel intervals,
      missingIntervals fuel transactions range left right = .ok intervals := by
  have hloop : ∃ scan, whileLoop
      (fun scan : GapScan => (pure (decide (scan.pointer ≤ right)) : Outcome Panic Bool))
      (GapScan.round transactions range) (right + 2) ⟨left, left, []⟩ = .ok scan := by
    refine whileLoop_total (GapScan.Ok transactions range left right)
      (fun scan => right + 1 - scan.pointer) (fun _ _ => ⟨_, rfl⟩) ?_
      (.start (Nat.le_succ_of_le hle)) (by simp only; omega)
    intro scan hscan hc
    have hright : scan.pointer ≤ right := of_decide_eq_true (Outcome.ok.inj hc)
    obtain ⟨scan', hround⟩ := GapScan.round_total transactions hright hfit
    obtain ⟨-, hnext⟩ := GapScan.round_ok hround
    exact ⟨scan', hround, hscan.round hright hround, by omega⟩
  obtain ⟨scan, hloop⟩ := hloop
  obtain ⟨hok, -⟩ := whileLoop_ok (GapScan.Ok transactions range left right)
    (fun s s' hs hc hr => hs.round (of_decide_eq_true (Outcome.ok.inj hc)) hr) hloop
    (.start (Nat.le_succ_of_le hle))
  refine ⟨right + 2, ?_⟩
  rw [missingIntervals, hloop, ok_bind]
  split
  next hne =>
    obtain ⟨pushed, hpush⟩ := GapScan.push_total
      (lt_of_le_of_ne hok.border_le (Ne.symm hne)) hfit hok.pointer_le
    exact ⟨_, bind_eq_ok.mpr ⟨pushed, hpush, rfl⟩⟩
  next => exact ⟨_, rfl⟩

/-- A scan that returned has encoded its last offset. -/
theorem missingIntervals_scannable {fuel : Nat} {intervals : List U64BlobIdClosedInterval}
    (hle : left ≤ right)
    (h : missingIntervals fuel transactions range left right = .ok intervals) :
    Scannable range right := by
  obtain ⟨scan, hloop, -⟩ := bind_eq_ok.mp h
  obtain ⟨hreached, hend⟩ := whileLoop_ok
    (fun scan => scan.pointer = left ∨ ∃ offset, Scannable range offset ∧
      scan.pointer = offset + 1)
    (fun scan scan' _ _ hround => by
      obtain ⟨hfit, hnext⟩ := GapScan.round_ok hround
      exact Or.inr ⟨_, hfit, hnext⟩) hloop (Or.inl rfl)
  have hgt : ¬ scan.pointer ≤ right := of_decide_eq_false (Outcome.ok.inj hend)
  cases hreached with
  | inl hstart => omega
  | inr hlast =>
      obtain ⟨offset, hfit, hlast⟩ := hlast
      exact hfit.of_le (by omega)

end Scan

/-! ## The delays are computed -/

section Returns

variable {PeerId : Type} [DecidableEq PeerId] {transactions : HashMap Nat Transaction}
  {selfOffsets : HashMap Nat Nat}

theorem delaysOfRange_settles (transactions : HashMap Nat Transaction)
    (selfOffsets : HashMap Nat Nat) (entry : Nat × List (PeerId × Nat))
    (result : HashMap PeerId (List U64BlobIdClosedInterval)) :
    Settles fun fuel => delaysOfRange fuel transactions selfOffsets result entry := by
  obtain ⟨range, nodes⟩ := entry
  have hrest {left right : Nat} {record : List U64BlobIdClosedInterval →
      Outcome Panic (HashMap PeerId (List U64BlobIdClosedInterval))}
      (hrecord : ∀ intervals, record intervals ≠ .outOfFuel) :
      Settles fun fuel => missingIntervals fuel transactions range left right >>= record :=
    (missingIntervals_settles _ _ _ _).bind fun _ intervals _ => .const (hrecord intervals)
  simp only [delaysOfRange]
  cases maxByKey nodes with
  | none => exact .const (by simp)
  | some best =>
      cases selfOffsets.lookup range with
      | some current =>
          simp only
          split
          next => exact .const (by simp)
          next =>
            refine (Settles.const (u64Add_ends current 1)).bind fun _ left _ => hrest ?_
            intro intervals
            cases result.lookup best.1 <;> simp
      | none =>
          simp only
          split
          next => exact .const (by simp)
          next =>
            refine (Settles.const (by simp)).bind fun _ left _ => hrest ?_
            intro intervals
            cases result.lookup best.1 <;> simp

theorem selfDelays_settles (transactions : HashMap Nat Transaction)
    (selfOffsets : HashMap Nat Nat) (order : List (Nat × List (PeerId × Nat))) :
    Settles fun fuel => selfDelays fuel transactions selfOffsets order :=
  .foldlM (fun entry _ result => delaysOfRange_settles transactions selfOffsets entry result) ∅

/-- A round returns when the offsets that are ahead can be scanned up to. -/
theorem delaysOfRange_total (transactions : HashMap Nat Transaction) {range : Nat}
    {nodes : List (PeerId × Nat)}
    (hfit : ∀ e ∈ nodes, nextOffset selfOffsets range ≤ e.2 → Scannable range e.2)
    (result : HashMap PeerId (List U64BlobIdClosedInterval)) :
    ∃ fuel result', delaysOfRange fuel transactions selfOffsets result (range, nodes) =
      .ok result' := by
  simp only [delaysOfRange]
  cases hbest : maxByKey nodes with
  | none => exact ⟨0, _, rfl⟩
  | some best =>
      obtain ⟨peerId, border⟩ := best
      have hborder := hfit _ (maxByKey_some hbest).1
      cases hlook : selfOffsets.lookup range with
      | some current =>
          simp only [Option.any_some, ge_iff_le, decide_eq_true_eq]
          rw [nextOffset_some hlook] at hborder
          split
          next => exact ⟨0, _, rfl⟩
          next hbehind =>
            have hle : current + 1 ≤ border := by omega
            have hscan := hborder hle
            obtain ⟨fuel, intervals, hintervals⟩ :=
              missingIntervals_total transactions hle hscan
            have hsucc := hscan.succ_lt
            refine ⟨fuel, ?_⟩
            rw [u64Add_ok.mpr ⟨by omega, rfl⟩, ok_bind, hintervals, ok_bind]
            cases result.lookup peerId with
            | some ranges => exact ⟨_, rfl⟩
            | none => exact ⟨_, rfl⟩
      | none =>
          simp only [Option.any_none, Bool.false_eq_true, if_false]
          rw [nextOffset_none hlook] at hborder
          obtain ⟨fuel, intervals, hintervals⟩ :=
            missingIntervals_total transactions (Nat.zero_le _) (hborder (Nat.zero_le _))
          refine ⟨fuel, ?_⟩
          rw [pure_eq, ok_bind, hintervals, ok_bind]
          cases result.lookup peerId with
          | some ranges => exact ⟨_, rfl⟩
          | none => exact ⟨_, rfl⟩

/-- A round that returned has scanned up to every offset that is ahead. -/
theorem delaysOfRange_scannable {fuel range : Nat} {nodes : List (PeerId × Nat)}
    {result result' : HashMap PeerId (List U64BlobIdClosedInterval)}
    (h : delaysOfRange fuel transactions selfOffsets result (range, nodes) = .ok result') :
    ∀ e ∈ nodes, nextOffset selfOffsets range ≤ e.2 → Scannable range e.2 := by
  intro e he hahead
  rw [delaysOfRange] at h
  cases hbest : maxByKey nodes with
  | none =>
      cases nodes with
      | nil => simp at he
      | cons first rest => cases hbest
  | some best =>
      obtain ⟨peerId, border⟩ := best
      have hle : e.2 ≤ border := (maxByKey_some hbest).2 e he
      cases hlook : selfOffsets.lookup range with
      | some current =>
          simp only [hbest, hlook, Option.any_some, ge_iff_le, decide_eq_true_eq] at h
          rw [nextOffset_some hlook] at hahead
          rw [if_neg (by omega)] at h
          obtain ⟨left, hleft, h⟩ := bind_eq_ok.mp h
          obtain ⟨-, rfl⟩ := u64Add_ok.mp hleft
          obtain ⟨intervals, hintervals, -⟩ := bind_eq_ok.mp h
          exact (missingIntervals_scannable (hahead.trans hle) hintervals).of_le hle
      | none =>
          simp only [hbest, hlook, Option.any_none, Bool.false_eq_true, if_false] at h
          obtain ⟨left, hleft, h⟩ := bind_eq_ok.mp h
          cases hleft
          obtain ⟨intervals, hintervals, -⟩ := bind_eq_ok.mp h
          exact (missingIntervals_scannable (Nat.zero_le _) hintervals).of_le hle

end Returns

/-! ## Exact delays -/

section Exact

variable {PeerId : Type} [LinearOrder PeerId] {transactions : HashMap Nat Transaction}
  {selfOffsets : HashMap Nat Nat} {offsets : HashMap Nat (HashMap PeerId Nat)}
  {order : List (Nat × List (PeerId × Nat))}
  {delays : HashMap PeerId (List U64BlobIdClosedInterval)}

/-- Every offset that is ahead of the node's own can be scanned up to. -/
def AheadScannable (selfOffsets : HashMap Nat Nat) (offsets : HashMap Nat (HashMap PeerId Nat)) :
    Prop :=
  ∀ r p v, peerOffset offsets r p = some v → nextOffset selfOffsets r ≤ v → Scannable r v

/-- The delays are computed exactly when every offset that is ahead can be
scanned up to. -/
theorem selfDelays_returns_iff (transactions : HashMap Nat Transaction)
    (horder : EnumeratesNested order offsets) :
    (∃ fuel delays, selfDelays fuel transactions selfOffsets order = .ok delays) ↔
      AheadScannable selfOffsets offsets := by
  constructor
  · intro h r p v hv hahead
    obtain ⟨fuel, delays, h⟩ := h
    obtain ⟨peers, hpeers, hv⟩ := peerOffset_eq_some.mp hv
    obtain ⟨nodes, hnodes, henum⟩ := horder.complete hpeers
    have hrounds := foldlM_forall (p := fun entry : Nat × List (PeerId × Nat) =>
      ∀ e ∈ entry.2, nextOffset selfOffsets entry.1 ≤ e.2 → Scannable entry.1 e.2) h
      fun hround => delaysOfRange_scannable hround
    exact hrounds _ hnodes (p, v) (henum.mem_iff.mpr hv) hahead
  · intro h
    refine (selfDelays_settles transactions selfOffsets order).returns fun fuel reason hpanic => ?_
    obtain ⟨⟨range, nodes⟩, hin, result, -, hround⟩ :=
      foldlM_panic (fun _ => True) (fun _ _ _ _ _ _ => trivial) hpanic trivial
    obtain ⟨peers, hpeers, henum⟩ := horder.sound hin
    have hfit : ∀ e ∈ nodes, nextOffset selfOffsets range ≤ e.2 → Scannable range e.2 :=
      fun e he => h range e.1 e.2 (peerOffset_eq_some.mpr ⟨peers, hpeers, henum.mem_iff.mp he⟩)
    obtain ⟨fuel', result', hok⟩ := delaysOfRange_total transactions hfit result
    exact (delaysOfRange_settles transactions selfOffsets (range, nodes) result).not_panic_of_ok
      hok hround

/-- The intervals that start in a range. -/
def intervalsIn (range : Nat) (intervals : List U64BlobIdClosedInterval) :
    List U64BlobIdClosedInterval :=
  intervals.filter fun i => i.left / singleBlobSize = range

/-- An id that the node lacks, from its own offset of a range up to the greatest
offset that is recorded for the range. -/
def Missing (transactions : HashMap Nat Transaction) (selfOffsets : HashMap Nat Nat)
    (offsets : HashMap Nat (HashMap PeerId Nat)) (id : Nat) : Prop :=
  ∃ range peerId border o, Leads offsets range peerId border ∧
    nextOffset selfOffsets range ≤ o ∧ o ≤ border ∧ id = idOf range o ∧ id ∉ transactions

/-- What is to be requested from whom. -/
structure ExactDelays (transactions : HashMap Nat Transaction) (selfOffsets : HashMap Nat Nat)
    (offsets : HashMap Nat (HashMap PeerId Nat))
    (delays : HashMap PeerId (List U64BlobIdClosedInterval)) : Prop where
  /-- The missing ids, and no others. -/
  ids : ∀ id, (∃ peerId intervals, delays.lookup peerId = some intervals ∧
    ∃ i ∈ intervals, i.left ≤ id ∧ id ≤ i.right) ↔ Missing transactions selfOffsets offsets id
  inRange : ∀ {peerId intervals}, delays.lookup peerId = some intervals → ∀ i ∈ intervals,
    i.left ≤ i.right ∧ i.left / singleBlobSize = i.right / singleBlobSize
  /-- Those of one range are ascending and do not touch. -/
  separated : ∀ {peerId intervals}, delays.lookup peerId = some intervals → ∀ range,
    Separated U64BlobIdClosedInterval.left U64BlobIdClosedInterval.right
      (intervalsIn range intervals)
  /-- No fewer intervals have the same ids. -/
  minimal : ∀ {peerId intervals}, delays.lookup peerId = some intervals →
    ∀ range (intervals' : List U64BlobIdClosedInterval),
      (∀ id, (∃ i ∈ intervalsIn range intervals, i.left ≤ id ∧ id ≤ i.right) ↔
        ∃ i ∈ intervals', i.left ≤ id ∧ id ≤ i.right) →
      (intervalsIn range intervals).length ≤ intervals'.length
  /-- One peer is asked for all of a range, and it has the greatest offset. -/
  leader : ∀ {p p' intervals intervals'}, delays.lookup p = some intervals →
    delays.lookup p' = some intervals' → ∀ i ∈ intervals, ∀ i' ∈ intervals',
      i.left / singleBlobSize = i'.left / singleBlobSize →
      p = p' ∧ ∃ border, Leads offsets (i.left / singleBlobSize) p border

/-- The intervals of an ask lie in its range. -/
private theorem IsAsk.inRange {PeerId : Type} {nodes : List (PeerId × Nat)} {ask : Ask PeerId}
    (h : IsAsk transactions selfOffsets nodes ask) (hlt : ask.border < singleBlobSize)
    {i : U64BlobIdClosedInterval} (hi : i ∈ ask.intervals) : i.left ≤ i.right ∧
      i.left / singleBlobSize = ask.range ∧ i.right / singleBlobSize = ask.range := by
  obtain ⟨hbelow, hle, habove⟩ := h.gaps.bounds i hi
  have hfirst : idOf ask.range 0 ≤ i.left := by
    simp only [idOf] at *
    omega
  have hlast : i.right < idOf ask.range 0 + singleBlobSize := by
    simp only [idOf] at *
    omega
  simp only [idOf, singleBlobSize] at hfirst hlast ⊢
  omega

section Table

variable {asks : List (Ask PeerId)}

/-- An interval that is requested belongs to an ask. -/
private theorem exists_ask (hlook : ∀ peerId, delays.lookup peerId = askedOf asks peerId)
    {peerId : PeerId} {intervals : List U64BlobIdClosedInterval}
    (h : delays.lookup peerId = some intervals) {i : U64BlobIdClosedInterval}
    (hi : i ∈ intervals) : ∃ ask ∈ asks, ask.peerId = peerId ∧ i ∈ ask.intervals := by
  rw [hlook] at h
  rw [askedOf_eq_some h] at hi
  obtain ⟨ask, hmem, hi⟩ := List.mem_flatMap.mp hi
  obtain ⟨hmem, hpeer⟩ := List.mem_filter.mp hmem
  exact ⟨ask, hmem, of_decide_eq_true hpeer, hi⟩

/-- The intervals of one range that a peer is asked for are those of one ask. -/
private theorem intervalsIn_cases (hasks : Asks transactions selfOffsets order asks)
    (horder : EnumeratesNested order offsets)
    (hlt : ∀ ask ∈ asks, ask.border < singleBlobSize)
    (hlook : ∀ peerId, delays.lookup peerId = askedOf asks peerId) {peerId : PeerId}
    {intervals : List U64BlobIdClosedInterval} (h : delays.lookup peerId = some intervals)
    (range : Nat) : intervalsIn range intervals = [] ∨
      ∃ ask ∈ asks, intervalsIn range intervals = ask.intervals := by
  rw [hlook] at h
  have hclass : ∀ ask ∈ asks.filter fun ask => ask.peerId = peerId,
      ∀ i ∈ ask.intervals, i.left / singleBlobSize = ask.range := by
    intro ask hmem i hi
    have hmem' := (List.mem_filter.mp hmem).1
    obtain ⟨nodes, -, hisAsk⟩ := hasks.sound ask hmem'
    exact (hisAsk.inRange (hlt ask hmem') hi).2.1
  rw [askedOf_eq_some h, intervalsIn, filter_flatMap_of_class Ask.range _ hclass range]
  have hranges : ((asks.filter fun ask => ask.peerId = peerId).map Ask.range).Nodup :=
    (horder.nodup.sublist hasks.ranges).sublist (List.filter_sublist.map _)
  by_cases hasked : ∃ ask ∈ asks.filter fun ask => ask.peerId = peerId, ask.range = range
  · obtain ⟨ask, hmem, rfl⟩ := hasked
    refine Or.inr ⟨ask, (List.mem_filter.mp hmem).1, ?_⟩
    rw [filter_class_of_nodup hranges hmem, List.flatMap_singleton]
  · refine Or.inl ?_
    rw [List.filter_eq_nil_iff.mpr fun ask hmem hrange => ?_, List.flatMap_nil]
    exact hasked ⟨ask, hmem, of_decide_eq_true hrange⟩

/-- The intervals of one range that a peer is asked for do not touch. -/
private theorem intervalsIn_separated (hasks : Asks transactions selfOffsets order asks)
    (horder : EnumeratesNested order offsets)
    (hlt : ∀ ask ∈ asks, ask.border < singleBlobSize)
    (hlook : ∀ peerId, delays.lookup peerId = askedOf asks peerId) {peerId : PeerId}
    {intervals : List U64BlobIdClosedInterval} (h : delays.lookup peerId = some intervals)
    (range : Nat) : Separated U64BlobIdClosedInterval.left U64BlobIdClosedInterval.right
      (intervalsIn range intervals) := by
  rcases intervalsIn_cases hasks horder hlt hlook h range with hnil | ⟨ask, hmem, hask⟩
  · rw [hnil]
    exact ⟨by simp, .nil⟩
  · obtain ⟨nodes, -, hisAsk⟩ := hasks.sound ask hmem
    rw [hask]
    exact ⟨fun i hi => (hisAsk.gaps.bounds i hi).2.1, hisAsk.gaps.apart⟩

/-- The ids of an ask are missing ones. -/
private theorem IsAsk.missing {nodes : List (PeerId × Nat)} {ask : Ask PeerId}
    (h : IsAsk transactions selfOffsets nodes ask)
    (hleads : Leads offsets ask.range ask.peerId ask.border) {i : U64BlobIdClosedInterval}
    (hi : i ∈ ask.intervals) {id : Nat} (hid : i.left ≤ id ∧ id ≤ i.right) :
    Missing transactions selfOffsets offsets id := by
  have habsent : id ∈ ask.intervals.flatMap U64BlobIdClosedInterval.ids :=
    List.mem_flatMap.mpr ⟨i, hi, U64BlobIdClosedInterval.mem_ids.mpr hid⟩
  rw [h.gaps.ids, mem_absentIds] at habsent
  obtain ⟨⟨o, hlow, hhigh, rfl⟩, hnot⟩ := habsent
  exact ⟨ask.range, ask.peerId, ask.border, o, hleads, hlow, by omega, rfl, hnot⟩

end Table

theorem selfDelays_exact {fuel : Nat} (horder : EnumeratesNested order offsets)
    (h : selfDelays fuel transactions selfOffsets order = .ok delays)
    (hlt : ∀ {r p v}, peerOffset offsets r p = some v → v < singleBlobSize) :
    ExactDelays transactions selfOffsets offsets delays := by
  obtain ⟨asks, hasks, hlook⟩ := selfDelays_ok h
  have hborder : ∀ ask ∈ asks, Leads offsets ask.range ask.peerId ask.border ∧
      ask.border < singleBlobSize := by
    intro ask hmem
    obtain ⟨nodes, hnodes, hisAsk⟩ := hasks.sound ask hmem
    have hleads := hisAsk.leads horder hnodes
    exact ⟨hleads, hlt hleads.entry⟩
  have hseparated {peerId : PeerId} {intervals : List U64BlobIdClosedInterval}
      (hintervals : delays.lookup peerId = some intervals) (range : Nat) :=
    intervalsIn_separated hasks horder (fun ask hmem => (hborder ask hmem).2) hlook hintervals
      range
  constructor
  case ids =>
    intro id
    constructor
    · intro hasked
      obtain ⟨peerId, intervals, hintervals, i, hi, hid⟩ := hasked
      obtain ⟨ask, hmem, -, hin⟩ := exists_ask hlook hintervals hi
      obtain ⟨nodes, -, hisAsk⟩ := hasks.sound ask hmem
      exact hisAsk.missing (hborder ask hmem).1 hin hid
    · intro hmissing
      obtain ⟨range, q, border, o, hleads, hlow, hhigh, rfl, hnot⟩ := hmissing
      obtain ⟨peerId, border', intervals, hleads', hintervals, hcovers⟩ :=
        selfDelays_complete horder h hleads.entry (hlow.trans hhigh)
      obtain ⟨i, hi, hid⟩ :=
        hcovers o hlow (hhigh.trans (hleads'.greatest hleads.entry)) hnot
      exact ⟨peerId, intervals, hintervals, i, hi, U64BlobIdClosedInterval.mem_ids.mp hid⟩
  case inRange =>
    intro peerId intervals hintervals i hi
    obtain ⟨ask, hmem, -, hin⟩ := exists_ask hlook hintervals hi
    obtain ⟨nodes, -, hisAsk⟩ := hasks.sound ask hmem
    obtain ⟨hle, hleft, hright⟩ := hisAsk.inRange (hborder ask hmem).2 hin
    exact ⟨hle, hleft.trans hright.symm⟩
  case separated => exact hseparated
  case minimal =>
    exact fun hintervals range intervals' hsame =>
      (hseparated hintervals range).length_le hsame
  case leader =>
    intro p p' intervals intervals' hintervals hintervals' i hi i' hi' hrange
    obtain ⟨ask, hmem, rfl, hin⟩ := exists_ask hlook hintervals hi
    obtain ⟨ask', hmem', rfl, hin'⟩ := exists_ask hlook hintervals' hi'
    obtain ⟨nodes, -, hisAsk⟩ := hasks.sound ask hmem
    obtain ⟨nodes', -, hisAsk'⟩ := hasks.sound ask' hmem'
    have hdiv := (hisAsk.inRange (hborder ask hmem).2 hin).2.1
    have hdiv' := (hisAsk'.inRange (hborder ask' hmem').2 hin').2.1
    have heq : ask = ask' := List.inj_on_of_nodup_map (horder.nodup.sublist hasks.ranges)
      hmem hmem' (hdiv.symm.trans (hrange.trans hdiv'))
    subst heq
    exact ⟨rfl, ask.border, hdiv ▸ (hborder ask hmem).1⟩

/-- A peer that is asked leads a range of which the node has less. -/
theorem selfDelays_ahead {fuel : Nat} (horder : EnumeratesNested order offsets)
    (h : selfDelays fuel transactions selfOffsets order = .ok delays) {peerId : PeerId}
    {intervals : List U64BlobIdClosedInterval} (hreq : delays.lookup peerId = some intervals) :
    ∃ range border, Leads offsets range peerId border ∧ nextOffset selfOffsets range ≤ border := by
  obtain ⟨asks, hasks, hlook⟩ := selfDelays_ok h
  rw [hlook, askedOf] at hreq
  cases hown : asks.filter fun ask => ask.peerId = peerId with
  | nil => simp [hown] at hreq
  | cons ask rest =>
      have hin : ask ∈ asks.filter fun ask => ask.peerId = peerId := by simp [hown]
      obtain ⟨hmem, hpeer⟩ := List.mem_filter.mp hin
      cases of_decide_eq_true hpeer
      obtain ⟨nodes, hnodes, hisAsk⟩ := hasks.sound ask hmem
      exact ⟨ask.range, ask.border, hisAsk.leads horder hnodes, hisAsk.behind⟩

/-- With offsets that ranges can have, the delays are computed, and they are
exact. -/
theorem self_delays_exact (transactions : HashMap Nat Transaction) (selfOffsets : HashMap Nat Nat)
    (horder : EnumeratesNested order offsets) (hfit : ∀ r p v, peerOffset offsets r p = some v →
      r ≤ maxBlockIndex ∧ v < singleBlobSize) :
    ∃ delays, (∃ n, ∀ fuel ≥ n, selfDelays fuel transactions selfOffsets order = .ok delays) ∧
      ExactDelays transactions selfOffsets offsets delays := by
  have hscannable : AheadScannable selfOffsets offsets := by
    intro r p v hv _
    obtain ⟨hrange, hlt⟩ := hfit r p v hv
    exact .of_lt hrange hlt
  obtain ⟨n, delays, hdelays⟩ := (selfDelays_returns_iff transactions horder).mpr hscannable
  have hsettles := selfDelays_settles transactions selfOffsets order
  exact ⟨delays, ⟨n, fun fuel hfuel => hsettles.ok_of_le hdelays hfuel⟩,
    selfDelays_exact horder hdelays fun hv => (hfit _ _ _ hv).2⟩

/-- What a node that has the ids 0 and 2 of range 0 and the id 0 of range 1 hears
of peers 1 and 2. -/
def aheadOffsets : HashMap Nat (HashMap Nat Nat) :=
  ((∅ : HashMap Nat (HashMap Nat Nat)).insert 1 ((∅ : HashMap Nat Nat).insert 2 3) :
    HashMap Nat (HashMap Nat Nat)).insert 0 (((∅ : HashMap Nat Nat).insert 2 1).insert 1 4)

theorem aheadOffsets_enumerated :
    EnumeratesNested [(0, [(1, 4), (2, 1)]), (1, [(2, 3)])] aheadOffsets :=
  .insert (.insert .empty Finmap.notMem_empty (.singleton 2 3)) (by decide)
    (.insert (.singleton 2 1) (by decide) 4)

theorem self_delays_exact_behind : ∃ delays,
    (∃ n, ∀ fuel ≥ n, selfDelays fuel
      ((((∅ : HashMap Nat Transaction).insert 0 ⟨0, .created⟩).insert 2 ⟨2, .created⟩).insert
        singleBlobSize ⟨singleBlobSize, .created⟩)
      (((∅ : HashMap Nat Nat).insert 0 0).insert 1 0)
      [(0, [(1, 4), (2, 1)]), (1, [(2, 3)])] = .ok delays) ∧
    ExactDelays
      ((((∅ : HashMap Nat Transaction).insert 0 ⟨0, .created⟩).insert 2 ⟨2, .created⟩).insert
        singleBlobSize ⟨singleBlobSize, .created⟩)
      (((∅ : HashMap Nat Nat).insert 0 0).insert 1 0) aheadOffsets delays := by
  refine self_delays_exact _ _ aheadOffsets_enumerated fun r p v hv => ?_
  have hsmall : r ≤ 1 ∧ v ≤ 4 := by
    obtain ⟨peers, hpeers, hv⟩ := peerOffset_eq_some.mp hv
    simp only [aheadOffsets, HashMap.lookup_insert_some, Finmap.lookup_empty, reduceCtorEq,
      and_false, or_false] at hpeers
    rcases hpeers with ⟨rfl, rfl⟩ | ⟨-, rfl, rfl⟩
    · simp only [HashMap.lookup_insert_some, Finmap.lookup_empty, reduceCtorEq, and_false,
        or_false] at hv
      omega
    · simp only [HashMap.lookup_insert_some, Finmap.lookup_empty, reduceCtorEq, and_false,
        or_false] at hv
      omega
  simp only [maxBlockIndex, singleBlobSize]
  omega

end Exact

end Maroon
