import Maroon.App.Consensus
import Maroon.App.Increments
import Maroon.Lib.Tiling

/-!
# Commited epochs and the linear log

`Commit.range_cases` says what a commit tick does to one range: it appends one
interval, from the start of the increment to the consensus offset, and moves
the commited offset there, or it leaves the range as it is.  `Tiled` ties the
epochs, the commited offsets and the linear log together, and every run whose
`State` messages can come from a node keeps it (`epochs_tile_ranges`).

A range is left as it is when its consensus offset is at the start of its
increment, and so a single new offset waits for the next one to come
(`leaves_nothing_behind_iff`).
-/

namespace Maroon

open Lib Outcome

/-! ## Intervals of a range -/

namespace U64BlobIdClosedInterval

/-- Some id between the two ends is one of the range. -/
def Touches (i : U64BlobIdClosedInterval) (range : Nat) : Prop :=
  i.left / singleBlobSize ≤ range ∧ range ≤ i.right / singleBlobSize

instance (range : Nat) : DecidablePred fun i : U64BlobIdClosedInterval => i.Touches range :=
  fun i => inferInstanceAs
    (Decidable (i.left / singleBlobSize ≤ range ∧ range ≤ i.right / singleBlobSize))

/-- An interval between two offsets of a range touches that range only. -/
theorem touches_iff_of_bounds {i : U64BlobIdClosedInterval} {r o : Nat} (ho : o < singleBlobSize)
    (hleft : idOf r 0 ≤ i.left) (hle : i.left ≤ i.right) (hright : i.right ≤ idOf r o) (r' : Nat) :
    i.Touches r' ↔ r = r' := by
  have hdiv : i.left / singleBlobSize = r ∧ i.right / singleBlobSize = r := by
    simp only [idOf, singleBlobSize] at *
    omega
  rw [Touches, hdiv.1, hdiv.2]
  exact ⟨fun h => le_antisymm h.1 h.2, fun h => ⟨h.le, h.ge⟩⟩

/-- A nonempty interval of accepted ids of one range. -/
structure InRange (i : U64BlobIdClosedInterval) (range : Nat) : Prop where
  le : i.left ≤ i.right
  left_div : i.left / singleBlobSize = range
  right_div : i.right / singleBlobSize = range
  accepted : Accepted i.right

namespace InRange

variable {i : U64BlobIdClosedInterval} {range : Nat}

theorem touches_iff (h : i.InRange range) (range' : Nat) : i.Touches range' ↔ range = range' := by
  rw [Touches, h.left_div, h.right_div]
  exact ⟨fun ⟨hle, hge⟩ => le_antisymm hle hge, fun heq => ⟨heq.le, heq.ge⟩⟩

theorem length_le (h : i.InRange range) : i.right + 1 - i.left ≤ singleBlobSize := by
  have hleft := h.left_div
  have hright := h.right_div
  simp only [singleBlobSize] at *
  omega

theorem div_eq (h : i.InRange range) {id : Nat} (hid : id ∈ i.ids) :
    id / singleBlobSize = range := by
  obtain ⟨hleft, hright⟩ := mem_ids.mp hid
  refine le_antisymm ?_ ?_
  · rw [← h.right_div]
    exact Nat.div_le_div_right hright
  · rw [← h.left_div]
    exact Nat.div_le_div_right hleft

end InRange

end U64BlobIdClosedInterval

open U64BlobIdClosedInterval (Touches InRange)

/-- The intervals of a range in a chain of epochs. -/
def intervalsOf (epochs : List Epoch) (range : Nat) : List U64BlobIdClosedInterval :=
  (epochs.flatMap Epoch.increments).filter fun i => i.Touches range

theorem intervalsOf_append (epochs : List Epoch) (epoch : Epoch) (range : Nat) :
    intervalsOf (epochs ++ [epoch]) range =
      intervalsOf epochs range ++ epoch.increments.filter fun i => i.Touches range := by
  simp [intervalsOf]

/-- The ids of the log that are of a range. -/
def logOf (sequence : List Nat) (range : Nat) : List Nat :=
  sequence.filter fun id => id / singleBlobSize = range

/-- The ids of a range among those of intervals of one range each. -/
theorem logOf_flatMap_ids {l : List U64BlobIdClosedInterval} (h : ∀ i ∈ l, ∃ r, i.InRange r)
    (range : Nat) :
    logOf (l.flatMap U64BlobIdClosedInterval.ids) range =
      (l.filter fun i => i.Touches range).flatMap U64BlobIdClosedInterval.ids := by
  have hclass := filter_flatMap_of_class (l := l) (fun i => i.left / singleBlobSize)
    (fun id => id / singleBlobSize) (fun i hi id hid => by
      obtain ⟨r, hr⟩ := h i hi
      rw [hr.div_eq hid, hr.left_div]) range
  rw [logOf, hclass]
  congr 1
  refine List.filter_congr fun i hi => ?_
  obtain ⟨r, hr⟩ := h i hi
  simp only [hr.left_div, hr.touches_iff]

/-! ## The increments of a commit tick -/

section Increments

variable {commitedOffsets consensusOffset : HashMap Nat Nat} {order : List (Nat × Nat)}

theorem incrementOf_inRange {entry : Nat × Nat} {i : U64BlobIdClosedInterval}
    (h : incrementOf commitedOffsets entry = some i) (hadv : Advertisable entry.1 entry.2) :
    i.InRange entry.1 := by
  obtain ⟨hlt, rfl⟩ := incrementOf_eq_some.mp h
  exact ⟨by simp only [idOf]; omega, idOf_div (hlt.trans hadv.lt), idOf_div hadv.lt, hadv.accepted⟩

/-- The increments of a range: one if it advances, none otherwise. -/
theorem filter_touches_increments (horder : Enumerates order consensusOffset)
    (hadv : ∀ {r o}, consensusOffset.lookup r = some o → Advertisable r o) (range : Nat) :
    (order.filterMap (incrementOf commitedOffsets)).filter (fun i => i.Touches range) =
      ((consensusOffset.lookup range).bind
        fun offset => incrementOf commitedOffsets (range, offset)).toList := by
  have hentries : ∀ l : List (Nat × Nat), (∀ e ∈ l, Advertisable e.1 e.2) →
      (l.filterMap (incrementOf commitedOffsets)).filter (fun i => i.Touches range) =
        (l.filter fun e => e.1 = range).filterMap (incrementOf commitedOffsets) := by
    intro l
    induction l with
    | nil => exact fun _ => rfl
    | cons e l ih =>
        intro hl
        have hrest := ih fun e' he' => hl e' (List.mem_cons_of_mem e he')
        cases hinc : incrementOf commitedOffsets e with
        | none =>
            rw [List.filterMap_cons_none hinc, hrest, List.filter_cons]
            split
            next => rw [List.filterMap_cons_none hinc]
            next => rfl
        | some i =>
            have hiff := (incrementOf_inRange hinc (hl e List.mem_cons_self)).touches_iff range
            rw [List.filterMap_cons_some hinc, List.filter_cons, List.filter_cons, hrest]
            simp only [hiff]
            split
            next => rw [List.filterMap_cons_some hinc]
            next => rfl
  rw [hentries order fun e he => hadv (horder.mem_iff.mp he), horder.filter_key]
  cases consensusOffset.lookup range with
  | none => rfl
  | some offset =>
      simp only [Option.map_some, Option.toList_some, Option.bind_some]
      cases hinc : incrementOf commitedOffsets (range, offset) with
      | none => simp [hinc]
      | some i => simp [hinc]

theorem commitInterval_ok {i : U64BlobIdClosedInterval} {commitedOffsets' : HashMap Nat Nat} :
    commitInterval commitedOffsets i = .ok commitedOffsets' ↔ Accepted i.right ∧
      commitedOffsets' =
        commitedOffsets.insert (i.right / singleBlobSize) (i.right % singleBlobSize) := by
  rw [commitInterval, bind_eq_ok]
  constructor
  · intro h
    obtain ⟨p, hp, h⟩ := h
    obtain ⟨hacc, rfl⟩ := rangeOffsetFromUniqueBlobId_ok.mp hp
    cases h
    exact ⟨hacc, rfl⟩
  · intro h
    obtain ⟨hacc, rfl⟩ := h
    exact ⟨_, rangeOffsetFromUniqueBlobId_ok.mpr ⟨hacc, rfl⟩, rfl⟩

/-- Intervals that end in ids that can be decoded are all committed. -/
theorem foldlM_commitInterval_total {intervals : List U64BlobIdClosedInterval}
    (hacc : ∀ i ∈ intervals, Accepted i.right) (commitedOffsets : HashMap Nat Nat) :
    ∃ commitedOffsets', intervals.foldlM commitInterval commitedOffsets = .ok commitedOffsets' := by
  have hround : ∀ i ∈ intervals, ∀ t : HashMap Nat Nat, True →
      ∃ t', commitInterval t i = .ok t' ∧ True :=
    fun i hi t _ => ⟨_, commitInterval_ok.mpr ⟨hacc i hi, rfl⟩, trivial⟩
  obtain ⟨commitedOffsets', hfold, -⟩ :=
    foldlM_total (fun _ => True) hround (s := commitedOffsets) trivial
  exact ⟨commitedOffsets', hfold⟩

/-- The commited offset of a range is the end of its last interval. -/
theorem commitInterval_lookup {increments : List U64BlobIdClosedInterval}
    {commitedOffsets' : HashMap Nat Nat}
    (h : increments.foldlM commitInterval commitedOffsets = .ok commitedOffsets')
    (hin : ∀ i ∈ increments, ∃ r, i.InRange r) (range : Nat) :
    commitedOffsets'.lookup range =
      (((increments.filter fun i => i.Touches range).getLast?.map
        fun i => i.right % singleBlobSize).or (commitedOffsets.lookup range)) := by
  refine foldlM_ok (fun done t => (∀ i ∈ done, ∃ r, i.InRange r) →
    t.lookup range = (((done.filter fun i => i.Touches range).getLast?.map
      fun i => i.right % singleBlobSize).or (commitedOffsets.lookup range)))
    h (fun _ => rfl) ?_ hin
  intro done i t t' ih hstep hdone
  obtain ⟨-, rfl⟩ := commitInterval_ok.mp hstep
  have hold := ih fun j hj => hdone j (List.mem_append_left _ hj)
  obtain ⟨r, hr⟩ := hdone i (List.mem_append_right _ (List.mem_singleton.mpr rfl))
  rw [HashMap.lookup_insert_eq, hr.right_div, List.filter_append, List.filter_cons,
    List.filter_nil]
  simp only [hr.touches_iff, decide_eq_true_eq]
  split
  next heq =>
    rw [if_pos heq.symm]
    simp
  next hne =>
    rw [if_neg (Ne.symm hne), List.append_nil]
    exact hold

end Increments

/-! ## One commit tick -/

namespace App

section Tick

variable {PeerId : Type} [LinearOrder PeerId] {sha256 : Sha256}
  {order : List (Nat × Nat)} {increments : List U64BlobIdClosedInterval}

/-- The increments of a tick are intervals of one range each. -/
theorem inRange_of_increments {a : App PeerId LogLineriazer} (hv : a.Valid)
    (horder : Enumerates order a.consensusOffset)
    (hinc : calculateEpochIncrements order a.commitedOffsets = .ok increments) :
    ∀ i ∈ increments, ∃ r, i.InRange r := by
  obtain ⟨-, rfl⟩ := calculateEpochIncrements_ok.mp hinc
  intro i hi
  obtain ⟨e, he, hei⟩ := List.mem_filterMap.mp hi
  exact ⟨e.1, incrementOf_inRange hei (hv.consensus (horder.mem_iff.mp he))⟩

theorem increments_touches {a : App PeerId LogLineriazer} (hv : a.Valid)
    (horder : Enumerates order a.consensusOffset)
    (hinc : calculateEpochIncrements order a.commitedOffsets = .ok increments) (r : Nat) :
    increments.filter (fun i => i.Touches r) =
      ((a.consensusOffset.lookup r).bind
        fun o => incrementOf a.commitedOffsets (r, o)).toList := by
  obtain ⟨-, rfl⟩ := calculateEpochIncrements_ok.mp hinc
  exact filter_touches_increments horder hv.consensus r

/-- The part of an epoch's elements that belongs to a range. -/
theorem logOf_elementsOf {a : App PeerId LogLineriazer} (hv : a.Valid)
    (horder : Enumerates order a.consensusOffset)
    (hinc : calculateEpochIncrements order a.commitedOffsets = .ok increments) (r : Nat) :
    logOf (LogLineriazer.elementsOf increments) r =
      (increments.filter fun i => i.Touches r).flatMap U64BlobIdClosedInterval.ids := by
  have hperm := List.perm_insertionSort U64BlobIdClosedInterval.le increments
  have hin := inRange_of_increments hv horder hinc
  rw [LogLineriazer.elementsOf, logOf_flatMap_ids fun i hi => hin i (hperm.mem_iff.mp hi)]
  congr 1
  have hfilter := hperm.filter fun i => decide (i.Touches r)
  rw [increments_touches hv horder hinc] at hfilter ⊢
  generalize (a.consensusOffset.lookup r).bind
    (fun o => incrementOf a.commitedOffsets (r, o)) = increment at hfilter ⊢
  -- a range has one interval at most, so sorting cannot reorder its intervals
  cases increment with
  | none => exact List.perm_nil.mp hfilter
  | some i => exact List.perm_singleton.mp hfilter

/-- What a commit tick does to a range. -/
inductive RangeCommit (a a' : App PeerId LogLineriazer) (r : Nat) : Prop where
  | advanced (o : Nat) :
      a.consensusOffset.lookup r = some o →
      nextOffset a.commitedOffsets r < o →
      a'.commitedOffsets.lookup r = some o →
      intervalsOf a'.epochs r =
        intervalsOf a.epochs r ++ [⟨idOf r (nextOffset a.commitedOffsets r), idOf r o⟩] →
      logOf a'.linearizer.sequence r = logOf a.linearizer.sequence r ++
        U64BlobIdClosedInterval.ids ⟨idOf r (nextOffset a.commitedOffsets r), idOf r o⟩ →
      RangeCommit a a' r
  | kept :
      (∀ o, a.consensusOffset.lookup r = some o → o ≤ nextOffset a.commitedOffsets r) →
      a'.commitedOffsets.lookup r = a.commitedOffsets.lookup r →
      intervalsOf a'.epochs r = intervalsOf a.epochs r →
      logOf a'.linearizer.sequence r = logOf a.linearizer.sequence r →
      RangeCommit a a' r

theorem Commit.rangeCommit {a a' : App PeerId LogLineriazer} (hv : a.Valid)
    (horder : Enumerates order a.consensusOffset) (h : Commit sha256 order increments a a')
    (r : Nat) : RangeCommit a a' r := by
  have hin := inRange_of_increments hv horder h.calculated
  have htouch := increments_touches hv horder h.calculated r
  have hlookup := commitInterval_lookup h.commitedOffsets hin r
  have hepochs : a'.epochs = a.epochs ++ [Epoch.new sha256 increments a.prevHash] := by
    rw [h.frame]
  have hintervals : intervalsOf a'.epochs r =
      intervalsOf a.epochs r ++ increments.filter fun i => i.Touches r := by
    rw [hepochs, intervalsOf_append, Epoch.new_increments]
  obtain ⟨fuel, hlin⟩ := h.linearizer
  have hsequence := LogLineriazer.newEpoch_ok
    (fun i hi => by obtain ⟨r, hr⟩ := hin i hi; exact hr.le) hlin
  rw [Epoch.new_increments] at hsequence
  have hlog : logOf a'.linearizer.sequence r = logOf a.linearizer.sequence r ++
      (increments.filter fun i => i.Touches r).flatMap U64BlobIdClosedInterval.ids := by
    rw [← logOf_elementsOf hv horder h.calculated, hsequence, logOf, List.filter_append]
    rfl
  cases hinc : (a.consensusOffset.lookup r).bind
      fun o => incrementOf a.commitedOffsets (r, o) with
  | none =>
      rw [hinc, Option.toList_none] at htouch
      rw [htouch, List.append_nil] at hintervals
      rw [htouch, List.flatMap_nil, List.append_nil] at hlog
      rw [htouch] at hlookup
      refine .kept (fun o ho => ?_) (by simpa using hlookup) hintervals hlog
      rw [ho, Option.bind_some] at hinc
      by_contra hlt
      have hsome := incrementOf_eq_some.mpr
        ⟨show nextOffset a.commitedOffsets (r, o).1 < (r, o).2 by simpa using hlt, rfl⟩
      rw [hinc] at hsome
      cases hsome
  | some i =>
      rw [hinc, Option.toList_some] at htouch
      obtain ⟨o, ho, hi⟩ := Option.bind_eq_some_iff.mp hinc
      obtain ⟨hlt, rfl⟩ := incrementOf_eq_some.mp hi
      rw [htouch] at hintervals hlog hlookup
      refine .advanced o ho hlt ?_ hintervals (by simpa using hlog)
      simpa [idOf_mod (hv.consensus ho).lt] using hlookup

/-- The ids of the increments are distinct. -/
theorem increments_nodup {a : App PeerId LogLineriazer} (hv : a.Valid)
    (horder : Enumerates order a.consensusOffset)
    (hinc : calculateEpochIncrements order a.commitedOffsets = .ok increments) :
    (increments.flatMap U64BlobIdClosedInterval.ids).Nodup := by
  refine nodup_of_classes (fun id => id / singleBlobSize) fun r => ?_
  have hlog := logOf_flatMap_ids (inRange_of_increments hv horder hinc) r
  rw [logOf, increments_touches hv horder hinc] at hlog
  rw [hlog]
  cases (a.consensusOffset.lookup r).bind fun o => incrementOf a.commitedOffsets (r, o) with
  | none => simp
  | some i => simpa using U64BlobIdClosedInterval.ids_nodup i

/-- A commit tick returns, given fuel for the ids of a range. -/
theorem commit_total {a : App PeerId LogLineriazer} (hv : a.Valid)
    (hcommited : ∀ {r c}, a.commitedOffsets.lookup r = some c → Advertisable r c)
    (horder : Enumerates order a.consensusOffset) :
    ∃ a', ∀ fuel, singleBlobSize < fuel → a.commitEpochIfNeeded sha256 fuel order = .ok a' := by
  have hrep : ∀ entry ∈ order, Representable a.commitedOffsets entry := by
    intro entry hentry
    refine representable_of_lt (fun r c hc => (hcommited hc).lt) fun _ => ?_
    exact (hv.consensus (horder.mem_iff.mp hentry)).idOf_lt
  have hinc := calculateEpochIncrements_ok.mpr ⟨hrep, rfl⟩
  have hin := inRange_of_increments hv horder hinc
  have hacc : ∀ i ∈ order.filterMap (incrementOf a.commitedOffsets), Accepted i.right :=
    fun i hi => (hin i hi).elim fun r hr => hr.accepted
  obtain ⟨commitedOffsets, hfold⟩ := foldlM_commitInterval_total hacc a.commitedOffsets
  refine ⟨_, fun fuel hfuel => bind_eq_ok.mpr ⟨_, hinc, bind_eq_ok.mpr ⟨_,
    LogLineriazer.newEpoch_total (increments_valid _ _)
      (LogLineriazer.ids_length_lt (increments_nodup hv horder hinc) fun i hi => (hacc i hi).lt)
      (fun i hi => (hacc i hi).lt) fun i hi => ?_,
    bind_eq_ok.mpr ⟨commitedOffsets, hfold, rfl⟩⟩⟩⟩
  exact (hin i hi).elim fun r hr => hr.length_le.trans_lt hfuel

end Tick

/-! ## The epochs tile every range -/

/-- The epochs, the commited offsets and the linear log say the same. -/
structure Tiled {PeerId : Type} (a : App PeerId LogLineriazer) : Prop where
  tiles : ∀ r, Tiles U64BlobIdClosedInterval.left U64BlobIdClosedInterval.right (idOf r 0)
    (intervalsOf a.epochs r) (idOf r (nextOffset a.commitedOffsets r))
  log : ∀ r, logOf a.linearizer.sequence r =
    (intervalsOf a.epochs r).flatMap U64BlobIdClosedInterval.ids
  /-- The commited offsets can be computed from the epochs. -/
  replayed : (a.epochs.flatMap Epoch.increments).foldlM commitInterval ∅ = .ok a.commitedOffsets
  advertisable : ∀ {r c}, a.commitedOffsets.lookup r = some c → Advertisable r c

section Facts

variable {PeerId : Type} {a : App PeerId LogLineriazer} {peerId : PeerId} {params : Params}

theorem Tiled.new : (App.new peerId params).Tiled where
  tiles _ := rfl
  log _ := rfl
  replayed := rfl
  advertisable h := by simp [App.new] at h

/-- The log of a range is the block of ids up to the start of its next
increment. -/
theorem Tiled.log_eq (ht : a.Tiled) (r : Nat) : logOf a.linearizer.sequence r =
    List.range' (idOf r 0) (nextOffset a.commitedOffsets r) := by
  rw [ht.log]
  refine (ht.tiles r).flatMap_range'.trans ?_
  congr 1
  simp only [idOf]
  omega

theorem Tiled.mem_log (ht : a.Tiled) {r o : Nat} (hlt : o < nextOffset a.commitedOffsets r) :
    idOf r o ∈ a.linearizer.sequence := by
  have hin : idOf r o ∈ logOf a.linearizer.sequence r := by
    rw [ht.log_eq, List.mem_range'_1]
    simp only [idOf]
    omega
  exact (List.mem_filter.mp hin).1

theorem Tiled.nodup (ht : a.Tiled) : a.linearizer.sequence.Nodup := by
  refine nodup_of_classes (fun id => id / singleBlobSize) fun r => ?_
  have hlog := ht.log_eq r
  rw [logOf] at hlog
  rw [hlog]
  exact List.nodup_range'

/-- What the epochs and the log hold of a range that is commited up to an
offset, or that has nothing commited. -/
def HoldsUpTo (a : App PeerId LogLineriazer) (r : Nat) : Option Nat → Prop
  | some c =>
      Tiles U64BlobIdClosedInterval.left U64BlobIdClosedInterval.right (idOf r 0)
        (intervalsOf a.epochs r) (idOf r c + 1) ∧
      logOf a.linearizer.sequence r = (List.range (c + 1)).map (idOf r)
  | none => intervalsOf a.epochs r = [] ∧ logOf a.linearizer.sequence r = []

theorem Tiled.holdsUpTo (ht : a.Tiled) (r : Nat) :
    a.HoldsUpTo r (a.commitedOffsets.lookup r) := by
  have htiles := ht.tiles r
  have hlog := ht.log_eq r
  cases hc : a.commitedOffsets.lookup r with
  | some c =>
      rw [nextOffset_some hc] at htiles hlog
      rw [idOf_add] at htiles
      refine ⟨htiles, hlog.trans ?_⟩
      rw [List.range'_eq_map_range]
      exact List.map_congr_left fun o _ => idOf_zero_add r o
  | none =>
      rw [nextOffset_none hc] at htiles hlog
      exact ⟨htiles.eq_nil, hlog⟩

end Facts

variable {PeerId : Type} [LinearOrder PeerId] {sha256 : Sha256} {a a' : App PeerId LogLineriazer}
  {event : Event PeerId} {out : List (Outbox PeerId)} {peerId : PeerId} {params : Params}

theorem Tiled.commit {order : List (Nat × Nat)} {increments : List U64BlobIdClosedInterval}
    (ht : a.Tiled) (hv : a.Valid) (horder : Enumerates order a.consensusOffset)
    (h : Commit sha256 order increments a a') : a'.Tiled where
  tiles := by
    intro r
    cases h.rangeCommit hv horder r with
    | advanced o _ hlt hcommited hintervals _ =>
        rw [hintervals, nextOffset_some hcommited, idOf_add]
        exact (ht.tiles r).snoc rfl (by simp only [idOf]; omega)
    | kept _ hcommited hintervals _ =>
        rw [hintervals, nextOffset, hcommited]
        exact ht.tiles r
  log := by
    intro r
    cases h.rangeCommit hv horder r with
    | advanced o _ _ _ hintervals hlog =>
        rw [hintervals, hlog, ht.log, List.flatMap_append, List.flatMap_singleton]
    | kept _ _ hintervals hlog => rw [hintervals, hlog, ht.log]
  replayed := by
    rw [h.frame, List.flatMap_append, List.foldlM_append, ht.replayed, ok_bind]
    simpa using h.commitedOffsets
  advertisable := by
    intro r c hc
    cases h.rangeCommit hv horder r with
    | advanced o ho _ hcommited _ _ =>
        cases hc.symm.trans hcommited
        exact hv.consensus ho
    | kept _ hcommited _ _ => exact ht.advertisable (hcommited ▸ hc)

theorem Step.tiled (h : Step sha256 a event a' out) (ht : a.Tiled) (hv : a.Valid) :
    a'.Tiled := by
  by_cases htick : event = .commitTick
  · subst htick
    obtain ⟨order, increments, horder, hcommit⟩ := h.commit_tick
    exact ht.commit hv horder hcommit
  · obtain ⟨hcommited, hepochs, hlinearizer⟩ := h.commited_eq htick
    refine ⟨?_, ?_, ?_, ?_⟩
    · rw [hcommited, hepochs]
      exact ht.tiles
    · rw [hlinearizer, hepochs]
      exact ht.log
    · rw [hcommited, hepochs]
      exact ht.replayed
    · rw [hcommited]
      exact ht.advertisable

theorem Runs.tiled {events : List (Event PeerId)}
    (h : Runs sha256 (App.new peerId params) events a)
    (hev : ∀ event ∈ events, event.OffsetsAdvertisable) : a.Valid ∧ a.Tiled :=
  h.invariant Event.OffsetsAdvertisable (fun a => a.Valid ∧ a.Tiled)
    (fun hok hI hs => ⟨hs.valid hI.1 hok, hs.tiled hI.2 hI.1⟩) hev ⟨.new, .new⟩

/-- The epochs tile each range from its offset 0 to its commited offset, the
log has the ids of each range once and in order, and the commited offsets are
those that replaying the epochs gives. -/
theorem epochs_tile_ranges {events : List (Event PeerId)}
    (h : Runs sha256 (App.new peerId params) events a)
    (hev : ∀ event ∈ events, event.OffsetsAdvertisable) :
    (∀ r, a.HoldsUpTo r (a.commitedOffsets.lookup r)) ∧
      (a.epochs.flatMap Epoch.increments).foldlM commitInterval ∅ = .ok a.commitedOffsets ∧
      a.linearizer.sequence.Nodup := by
  obtain ⟨-, ht⟩ := h.tiled hev
  exact ⟨ht.holdsUpTo, ht.replayed, ht.nodup⟩

/-- A run with a commit, for offsets 0 to 5 of range 0. -/
theorem epochs_tile_heard : ∃ a : App Nat LogLineriazer,
    a.commitedOffsets.lookup 0 = some 5 ∧ a.HoldsUpTo 0 (a.commitedOffsets.lookup 0) := by
  let sha256 : Sha256 := fun _ => Vector.replicate 32 0
  obtain ⟨hrun, hev⟩ := heard_confirms sha256 5 7 ⟨by decide, by decide⟩ rfl rfl
  have hcommit : Step sha256
      { heardApp 5 with consensusOffset := (∅ : HashMap Nat Nat).insert 0 5 } .commitTick _ [] :=
    @Step.commit _ _ _ _ _ _ _ [(0, 5)] 7 (.singleton 0 5) rfl
  refine ⟨_, rfl, (epochs_tile_ranges (hrun.tail hcommit) fun event hevent => ?_).1 0⟩
  rcases List.mem_append.mp hevent with hheard | hcommit
  · exact hev event hheard
  · rw [List.mem_singleton.mp hcommit]
    trivial

/-! ## What a commit tick leaves behind -/

/-- The commit from `a` to `a'` took all that was confirmed of a range, up to
`c`. -/
def LeavesNothingBehind (a a' : App PeerId LogLineriazer) (r c : Nat) : Prop :=
  a'.commitedOffsets.lookup r =
      some (match a.commitedOffsets.lookup r with
        | some prev => max prev c
        | none => c) ∧
    ∀ o ≤ c, idOf r o ∈ a'.linearizer.sequence

/-- Exactly one offset of a range is confirmed and not commited. -/
def OneNewOffset (commitedOffsets : HashMap Nat Nat) (r c : Nat) : Prop :=
  match commitedOffsets.lookup r with
  | some prev => c = prev + 1
  | none => c = 0

theorem oneNewOffset_iff {commitedOffsets : HashMap Nat Nat} {r c : Nat} :
    OneNewOffset commitedOffsets r c ↔ c = nextOffset commitedOffsets r := by
  rw [OneNewOffset, nextOffset]
  cases commitedOffsets.lookup r with
  | some prev => exact Iff.rfl
  | none => exact Iff.rfl

/-- A commit leaves nothing of a range behind unless one offset alone is new. -/
theorem Commit.leavesNothingBehind_iff {order : List (Nat × Nat)}
    {increments : List U64BlobIdClosedInterval} (h : Commit sha256 order increments a a')
    (hv : a.Valid) (ht : a.Tiled) (horder : Enumerates order a.consensusOffset) {r c : Nat}
    (hc : a.consensusOffset.lookup r = some c) :
    LeavesNothingBehind a a' r c ↔ ¬ OneNewOffset a.commitedOffsets r c := by
  have ht' := ht.commit hv horder h
  rw [oneNewOffset_iff]
  cases h.rangeCommit hv horder r with
  | advanced o ho hlt hcommited _ _ =>
      cases ho.symm.trans hc
      have hmax : (match a.commitedOffsets.lookup r with
          | some prev => max prev c
          | none => c) = c := by
        cases hprev : a.commitedOffsets.lookup r with
        | some prev =>
            rw [nextOffset_some hprev] at hlt
            exact max_eq_right (by omega)
        | none => rfl
      refine ⟨fun _ => by omega, fun _ => ⟨by rw [hmax, hcommited], fun o ho => ?_⟩⟩
      exact ht'.mem_log (by rw [nextOffset_some hcommited]; omega)
  | kept hle hcommited _ _ =>
      have hc' := hle c hc
      rw [LeavesNothingBehind, hcommited]
      cases hprev : a.commitedOffsets.lookup r with
      | some prev =>
          rw [hprev] at hcommited
          rw [nextOffset_some hprev] at hc' ⊢
          constructor
          · rintro ⟨heq, -⟩ rfl
            simp at heq
          · intro hne
            constructor
            · exact congrArg some (max_eq_left (by omega)).symm
            · intro o ho
              exact ht'.mem_log (by rw [nextOffset_some hcommited]; omega)
      | none =>
          rw [nextOffset_none hprev] at hc' ⊢
          constructor
          · intro h
            obtain ⟨heq, -⟩ := h
            cases heq
          · intro hne
            omega

/-- In every state that a run reaches, a commit tick returns, and it leaves
nothing of a range behind unless one offset alone is new. -/
theorem leaves_nothing_behind_iff {events : List (Event PeerId)}
    (h : Runs sha256 (App.new peerId params) events a)
    (hev : ∀ event ∈ events, event.OffsetsAdvertisable) {order : List (Nat × Nat)}
    (horder : Enumerates order a.consensusOffset) {r c : Nat}
    (hc : a.consensusOffset.lookup r = some c) :
    ∃ a', (∀ fuel, singleBlobSize < fuel → a.commitEpochIfNeeded sha256 fuel order = .ok a') ∧
      (LeavesNothingBehind a a' r c ↔ ¬ OneNewOffset a.commitedOffsets r c) := by
  obtain ⟨hv, ht⟩ := h.tiled hev
  obtain ⟨a', hcommit⟩ := commit_total hv ht.advertisable horder
  obtain ⟨increments, hc'⟩ := commitEpochIfNeeded_ok (hcommit _ (Nat.lt_succ_self _))
  exact ⟨a', hcommit, hc'.leavesNothingBehind_iff hv ht horder hc⟩

/-- Two peers confirm offsets 0 to 5, and the commit takes them. -/
theorem leaves_nothing_behind_heard : ∃ a a' : App Nat LogLineriazer,
    a.consensusOffset.lookup 0 = some 5 ∧ LeavesNothingBehind a a' 0 5 := by
  let sha256 : Sha256 := fun _ => Vector.replicate 32 0
  obtain ⟨hrun, hev⟩ := heard_confirms sha256 5 7 ⟨by decide, by decide⟩ rfl rfl
  have hc : ((∅ : HashMap Nat Nat).insert 0 5).lookup 0 = some 5 := rfl
  obtain ⟨a', -, hiff⟩ := leaves_nothing_behind_iff hrun hev (.singleton 0 5) hc
  exact ⟨_, a', rfl, hiff.mpr (by simp [OneNewOffset, heardApp, App.new])⟩

/-- Two peers confirm offset 0 of a range, and the commit skips it. -/
theorem first_offset_left_behind : ¬ ∀ (sha256 : Sha256) (peerId : Nat) (params : Params)
    (events : List (Event Nat)) (a a' : App Nat LogLineriazer) (order : List (Nat × Nat))
    (fuel r c : Nat), Runs sha256 (App.new peerId params) events a →
      (∀ event ∈ events, event.OffsetsAdvertisable) → Enumerates order a.consensusOffset →
      a.consensusOffset.lookup r = some c → a.commitEpochIfNeeded sha256 fuel order = .ok a' →
      LeavesNothingBehind a a' r c := by
  intro h
  let sha256 : Sha256 := fun _ => Vector.replicate 32 0
  obtain ⟨hrun, hev⟩ := heard_confirms sha256 0 2 ⟨by decide, by decide⟩ rfl rfl
  have hbehind := h sha256 0 Params.default _ _ _ [(0, 0)] 0 0 0 hrun hev (.singleton 0 0) rfl rfl
  have hlook := hbehind.1
  cases hlook

end App

end Maroon
