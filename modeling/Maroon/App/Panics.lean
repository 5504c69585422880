import Maroon.App.AskedPeers
import Maroon.App.Answer
import Maroon.App.Commit
import Mathlib.Algebra.BigOperators.Group.Finset.Basic

/-!
# Steps that panic

`Panics` mirrors `Step`: a handler that panics, for some order of every map it
iterates over and some fuel for its loops.  `Overallocates` is about the two
vectors whose length is asked for beforehand: the answer to a request and the
log.  The handlers hold lists, which any number of ids fits into, so this panic
is not one of theirs.  `Fits` is the condition on the state and the event under
which neither happens.

Each handler but the one that answers requests settles, so that it panics
exactly when no fuel makes it return, and what makes it return is known.
-/

namespace Maroon

open Lib Outcome

/-! ## Handlers that settle -/

section Settle

variable {PeerId L : Type}

theorem scanForward_settles (transactions : HashMap Nat Transaction) (key : Nat) :
    Settles fun fuel => scanForward fuel transactions key := by
  refine Settles.whileLoop (fun key => u64Bound - key)
    (fun _ => bind_ne_outOfFuel (u64Add_ends _ _) fun _ => by simp) (fun _ => u64Add_ends _ _)
    (fun key key' _ hbody => ?_) key
  obtain ⟨hlt, rfl⟩ := u64Add_ok.mp hbody
  omega

theorem advanceOffset_settles (self : OffsetUpdate) (range start : Nat) :
    Settles fun fuel => advanceOffset fuel self range start :=
  (Settles.const (uniqueBlobIdFromRangeAndOffset_ends _ _)).bind fun _ _ _ =>
    (scanForward_settles _ _).bind fun _ _ _ => .const
      (bind_ne_outOfFuel (rangeOffsetFromUniqueBlobId_ends _) fun _ => by simp)

theorem updateRange_settles (entry : Nat × List Transaction) (self : OffsetUpdate) :
    Settles fun fuel => updateRange fuel self entry := by
  obtain ⟨range, txs⟩ := entry
  have hinsert : insertTxs self.transactions txs ≠ .outOfFuel :=
    foldlM_ne_outOfFuel (fun _ _ _ =>
      bind_ne_outOfFuel (rangeOffsetFromUniqueBlobId_ends _) fun _ => by simp) _
  refine (Settles.const hinsert).bind fun _ inserted _ => ?_
  obtain ⟨transactions, has0Tx⟩ := inserted
  simp only
  cases self.selfOffsets.lookup range with
  | some existing => exact advanceOffset_settles _ _ _
  | none =>
      cases has0Tx with
      | true => exact advanceOffset_settles _ _ _
      | false => exact .const (by simp)

theorem updateSelfOffsets_settles (selfOffsets : HashMap Nat Nat)
    (transactions : HashMap Nat Transaction) (order : List (Nat × List Transaction)) :
    Settles fun fuel => updateSelfOffsets fuel selfOffsets transactions order :=
  .foldlM (fun entry _ self => updateRange_settles entry self) _

theorem txsToRangeTxMap_ends (txs : List Transaction) : txsToRangeTxMap txs ≠ .outOfFuel := by
  refine foldlM_ne_outOfFuel (fun tx _ rangeMap => ?_) _
  refine bind_ne_outOfFuel (rangeFromUniqueBlobId_ends _) fun range => ?_
  cases rangeMap.lookup range with
  | some bucket => simp
  | none => simp

theorem handleNewTransaction_settles [DecidableEq PeerId] (a : App PeerId L)
    (order : List (Nat × List Transaction)) :
    Settles fun fuel => a.handleNewTransaction fuel order := by
  have hupdate : Settles fun fuel =>
      updateSelfOffset fuel a.selfOffsets a.transactions order := by
    refine (updateSelfOffsets_settles _ _ _).bind fun _ after _ => .const ?_
    split
    next => simp
    next => simp
  refine hupdate.bind fun _ update _ => .const ?_
  obtain ⟨after, last⟩ := update
  cases last with
  | some moved => simp
  | none => simp

theorem handleMissingTx_settles [DecidableEq PeerId] (a : App PeerId L)
    (order : List (Nat × List Transaction)) :
    Settles fun fuel => a.handleMissingTx fuel order :=
  (updateSelfOffsets_settles _ _ _).bind fun _ _ _ => .const (by simp)

theorem iter_settles (i : U64BlobIdClosedInterval) : Settles fun fuel => i.iter fuel := by
  refine (Settles.whileLoop (fun s : Nat × List Nat => i.right + 1 - s.1) (fun _ => by simp)
    (fun _ => bind_ne_outOfFuel (u64Add_ends _ _) fun _ => by simp) ?_ _).bind
    fun _ _ _ => .const (by simp)
  intro s s' hc hbody
  have hle : s.1 ≤ i.right := of_decide_eq_true (Outcome.ok.inj hc)
  obtain ⟨next, hnext, hbody⟩ := bind_eq_ok.mp hbody
  obtain ⟨-, rfl⟩ := u64Add_ok.mp hnext
  cases hbody
  simp only
  omega

theorem newElementsCount_ends (increments : List U64BlobIdClosedInterval) :
    LogLineriazer.newElementsCount increments ≠ .outOfFuel :=
  foldlM_ne_outOfFuel (fun i _ _ =>
    bind_ne_outOfFuel i.idsCount_ends fun _ => u64Add_ends _ _) _

theorem newEpoch_settles (self : LogLineriazer) (epoch : Epoch) :
    Settles fun fuel => LogLineriazer.newEpoch fuel self epoch := by
  have happend : ∀ (i : U64BlobIdClosedInterval) (sequence : List Nat),
      Settles fun fuel => (do
        let ids ← i.iter fuel
        pure (sequence ++ ids) : Outcome Panic (List Nat)) :=
    fun i _ => (iter_settles i).bind fun _ _ _ => .const (by simp)
  exact (Settles.const (newElementsCount_ends _)).bind fun _ _ _ =>
    (Settles.foldlM (fun i _ sequence => happend i sequence) _).bind fun _ _ _ => .const (by simp)

theorem calculateEpochIncrements_ends (order : List (Nat × Nat))
    (commitedOffsets : HashMap Nat Nat) :
    calculateEpochIncrements order commitedOffsets ≠ .outOfFuel := by
  refine foldlM_ne_outOfFuel (fun entry _ increments => ?_) _
  have hrest : ∀ start : Nat, (if start ≥ entry.2 then (pure increments) else do
      let interval ← U64BlobIdClosedInterval.newFromRangeAndOffsets entry.1 start entry.2
      pure (increments ++ [interval]) : Outcome Panic _) ≠ .outOfFuel := by
    intro start
    split
    next => simp
    next =>
      exact bind_ne_outOfFuel (U64BlobIdClosedInterval.newFromRangeAndOffsets_ends _ _ _)
        fun _ => by simp
  rw [incrementRange]
  cases commitedOffsets.lookup entry.1 with
  | some prev => exact bind_ne_outOfFuel (u64Add_ends _ _) fun _ => hrest _
  | none => exact hrest 0

theorem commitEpochIfNeeded_settles (sha256 : Sha256) (a : App PeerId LogLineriazer)
    (order : List (Nat × Nat)) :
    Settles fun fuel => a.commitEpochIfNeeded sha256 fuel order :=
  (Settles.const (calculateEpochIncrements_ends _ _)).bind fun _ _ _ =>
    (newEpoch_settles _ _).bind fun _ _ _ =>
      (Settles.const (foldlM_ne_outOfFuel (fun _ _ _ =>
        bind_ne_outOfFuel (rangeOffsetFromUniqueBlobId_ends _) fun _ => by simp) _)).bind
        fun _ _ _ => .const (by simp)

end Settle

/-! ## Messages that are handled to the end -/

section Handled

variable {PeerId L : Type}

/-- Batches are sorted by range when their ids are accepted. -/
theorem txsToRangeTxMap_no_panic_iff {txs : List Transaction} :
    (∀ reason, txsToRangeTxMap txs ≠ .panic reason) ↔ ∀ tx ∈ txs, Accepted tx.id := by
  constructor
  · intro hno
    cases hmap : txsToRangeTxMap txs with
    | ok rangeMap => exact (txsToRangeTxMap_ok hmap).1
    | panic reason => exact absurd hmap (hno reason)
    | outOfFuel => exact absurd hmap (txsToRangeTxMap_ends txs)
  · intro hacc reason hp
    obtain ⟨rangeMap, hmap⟩ := txsToRangeTxMap_total hacc
    rw [hmap] at hp
    cases hp

/-- A transaction that was stored is handled to the end. -/
theorem handleNewTransaction_of_updated [DecidableEq PeerId] {a : App PeerId L} {fuel : Nat}
    {order : List (Nat × List Transaction)} {after : OffsetUpdate}
    (h : updateSelfOffsets fuel a.selfOffsets a.transactions order = .ok after) :
    ∃ a', a.handleNewTransaction fuel order = .ok a' := by
  have hupdate : ∃ update,
      updateSelfOffset fuel a.selfOffsets a.transactions order = .ok update := by
    rw [updateSelfOffset, h, ok_bind]
    split
    next => exact ⟨_, rfl⟩
    next => exact ⟨_, rfl⟩
  obtain ⟨⟨update, last⟩, hupdate⟩ := hupdate
  rw [App.handleNewTransaction, hupdate, ok_bind]
  cases last with
  | some moved => exact ⟨_, rfl⟩
  | none => exact ⟨_, rfl⟩

/-- The loop over an interval adds 1 to stored ids only. -/
theorem answerInterval_not_panic {a : App PeerId L} (hacc : ∀ id ∈ a.transactions, Accepted id)
    {fuel : Nat} {response : List Transaction} {i : U64BlobIdClosedInterval} {reason : Panic} :
    a.answerInterval fuel response i ≠ .panic reason := by
  intro hp
  rcases bind_eq_panic.mp hp with hloop | ⟨state, -, hstate⟩
  · obtain ⟨⟨pointer, answered⟩, -, hround⟩ :=
      whileLoop_panic (fun _ => True) (fun _ _ _ _ _ => trivial) hloop trivial
    rcases hround with hcond | ⟨-, hbody⟩
    · cases hcond
    · rw [App.answerRound] at hbody
      cases hlook : a.transactions.lookup pointer with
      | none =>
          simp only [hlook] at hbody
          cases hbody
      | some tx =>
          have hpointer := hacc pointer (HashMap.mem_iff_lookup.mpr ⟨tx, hlook⟩)
          simp only [hlook, u64Add_ok.mpr ⟨hpointer.lt, rfl⟩, ok_bind] at hbody
          cases hbody
  · cases hstate

end Handled

/-! ## Panics -/

namespace App

variable {PeerId L : Type} [LinearOrder PeerId]

/-- A handler of the event can panic for a reason. -/
inductive Panics [Linearizer L] (sha256 : Sha256) :
    App PeerId L → Event PeerId → Panic → Prop where
  | recalculate {a : App PeerId L} {order : List (Nat × List (PeerId × Nat))} {reason : Panic} :
      EnumeratesNested order a.offsets →
      a.recalculateConsensusOffsets order = .panic reason →
      Panics sha256 a .advertiseTick reason
  | delays {a a' : App PeerId L} {order order' : List (Nat × List (PeerId × Nat))} {fuel : Nat}
      {reason : Panic} :
      EnumeratesNested order a.offsets →
      a.recalculateConsensusOffsets order = .ok a' →
      EnumeratesNested order' a'.offsets →
      selfDelays fuel a'.transactions a'.selfOffsets order' = .panic reason →
      Panics sha256 a .advertiseTick reason
  | commit {a : App PeerId L} {order : List (Nat × Nat)} {fuel : Nat} {reason : Panic} :
      Enumerates order a.consensusOffset →
      a.commitEpochIfNeeded sha256 fuel order = .panic reason →
      Panics sha256 a .commitTick reason
  | nodes {a : App PeerId L} {nodes : Finset PeerId} {order : List PeerId} {reason : Panic} :
      (order : Multiset PeerId) = nodes.val →
      a.handleNodes order = .panic reason →
      Panics sha256 a (.inbox (.nodes nodes)) reason
  | newTransactionRange {a : App PeerId L} {tx : Transaction} {reason : Panic} :
      txsToRangeTxMap [tx] = .panic reason →
      Panics sha256 a (.inbox (.newTransaction tx)) reason
  | newTransaction {a : App PeerId L} {tx : Transaction}
      {rangeMap : HashMap Nat (List Transaction)} {order : List (Nat × List Transaction)}
      {fuel : Nat} {reason : Panic} :
      txsToRangeTxMap [tx] = .ok rangeMap →
      Enumerates order rangeMap →
      a.handleNewTransaction fuel order = .panic reason →
      Panics sha256 a (.inbox (.newTransaction tx)) reason
  | missingTxRange {a : App PeerId L} {txs : List Transaction} {reason : Panic} :
      txsToRangeTxMap txs = .panic reason →
      Panics sha256 a (.inbox (.missingTx txs)) reason
  | missingTx {a : App PeerId L} {txs : List Transaction}
      {rangeMap : HashMap Nat (List Transaction)} {order : List (Nat × List Transaction)}
      {fuel : Nat} {reason : Panic} :
      txsToRangeTxMap txs = .ok rangeMap →
      Enumerates order rangeMap →
      a.handleMissingTx fuel order = .panic reason →
      Panics sha256 a (.inbox (.missingTx txs)) reason
  | requestMissingTxs {a : App PeerId L} {peerId : PeerId}
      {intervals : List U64BlobIdClosedInterval} {fuel : Nat} {reason : Panic} :
      a.handleRequestMissingTxs fuel peerId intervals = .panic reason →
      Panics sha256 a (.inbox (.requestMissingTxs peerId intervals)) reason

/-- The greatest `isize`, the most bytes that a `Vec` can ask for. -/
def isizeMax : Nat := 2 ^ 63 - 1

/-- The event makes the node ask for more bytes than that, and `Vec` panics with
"capacity overflow".  A transaction has 16 bytes and an id has 8. -/
inductive Overallocates : App PeerId LogLineriazer → Event PeerId → Prop where
  /-- `Vec::with_capacity` for the answer to a request. -/
  | withCapacity {a : App PeerId LogLineriazer} {peerId : PeerId}
      {intervals : List U64BlobIdClosedInterval} {capacity : Nat} :
      LogLineriazer.newElementsCount intervals = .ok capacity →
      isizeMax < capacity * 16 →
      Overallocates a (.inbox (.requestMissingTxs peerId intervals))
  /-- `Vec::reserve` for the log. -/
  | reserve {a : App PeerId LogLineriazer} {order : List (Nat × Nat)}
      {increments : List U64BlobIdClosedInterval} {newElementsCount : Nat} :
      Enumerates order a.consensusOffset →
      calculateEpochIncrements order a.commitedOffsets = .ok increments →
      LogLineriazer.newElementsCount (increments.insertionSort U64BlobIdClosedInterval.le) =
        .ok newElementsCount →
      isizeMax < (a.linearizer.sequence.length + newElementsCount) * 8 →
      Overallocates a .commitTick

/-- The handlers do not panic, unless the event is a set of nodes without the
node itself. -/
def HandlersPass [Linearizer L] (sha256 : Sha256) (a : App PeerId L) (event : Event PeerId) :
    Prop :=
  ∀ reason, Panics sha256 a event reason →
    ∃ nodes, event = .inbox (.nodes nodes) ∧ reason = .selfPeerIdMissing

/-- The event is handled without a panic, unless it is a set of nodes without the
node itself. -/
def NeverPanics (sha256 : Sha256) (a : App PeerId LogLineriazer) (event : Event PeerId) : Prop :=
  HandlersPass sha256 a event ∧ ¬ Overallocates a event

/-! ## Ticks -/

/-- The number of ids that a commit tick takes of a range. -/
def newOffsets (consensusOffset commitedOffsets : HashMap Nat Nat) (range : Nat) : Nat :=
  match consensusOffset.lookup range with
  | some offset =>
      if nextOffset commitedOffsets range < offset then
        offset + 1 - nextOffset commitedOffsets range
      else 0
  | none => 0

/-- What is to be committed can be decoded and counted. -/
structure CommitFits (consensusOffset commitedOffsets : HashMap Nat Nat) : Prop where
  accepted : ∀ {r o}, consensusOffset.lookup r = some o → nextOffset commitedOffsets r < o →
    Accepted (idOf r o)
  count_lt : ∑ r ∈ consensusOffset.keys, newOffsets consensusOffset commitedOffsets r < u64Bound

section Ticks

variable {sha256 : Sha256}

theorem advertise_iff [Linearizer L] (a : App PeerId L) :
    HandlersPass sha256 a .advertiseTick ↔ AheadScannable a.selfOffsets a.offsets := by
  constructor
  · intro h
    obtain ⟨order, horder⟩ := EnumeratesNested.exists_entries a.offsets
    obtain ⟨consensusOffset, hrec⟩ := recalculateConsensusOffsets_total horder
    refine (selfDelays_returns_iff a.transactions horder).mp ?_
    refine (selfDelays_settles a.transactions a.selfOffsets order).returns fun fuel reason hp => ?_
    obtain ⟨nodes, hevent, -⟩ := h reason (.delays horder hrec horder hp)
    cases hevent
  · intro hfit reason hp
    cases hp with
    | recalculate horder hrec =>
        obtain ⟨consensusOffset, hok⟩ := recalculateConsensusOffsets_total horder
        rw [hok] at hrec
        cases hrec
    | delays _ hrec horder hdelays =>
        obtain ⟨consensusOffset, -, rfl⟩ := recalculateConsensusOffsets_ok hrec
        obtain ⟨fuel, delays, hok⟩ :=
          (selfDelays_returns_iff a.transactions horder).mpr hfit
        exact absurd hdelays
          ((selfDelays_settles a.transactions a.selfOffsets _).not_panic_of_ok hok)

/-- The ids of the increments, counted by range. -/
theorem increments_length {order : List (Nat × Nat)} {consensusOffset : HashMap Nat Nat}
    (horder : Enumerates order consensusOffset) (commitedOffsets : HashMap Nat Nat) :
    ((order.filterMap (incrementOf commitedOffsets)).flatMap
      U64BlobIdClosedInterval.ids).length =
        ∑ r ∈ consensusOffset.keys, newOffsets consensusOffset commitedOffsets r := by
  have hlist : ∀ l : List (Nat × Nat), (∀ e ∈ l, consensusOffset.lookup e.1 = some e.2) →
      ((l.filterMap (incrementOf commitedOffsets)).flatMap U64BlobIdClosedInterval.ids).length =
        ((l.map Prod.fst).map (newOffsets consensusOffset commitedOffsets)).sum := by
    intro l
    induction l with
    | nil => simp
    | cons e l ih =>
        intro hl
        have hrest := ih fun e' he' => hl e' (List.mem_cons_of_mem e he')
        have hentry := hl e List.mem_cons_self
        rw [List.map_cons, List.map_cons, List.sum_cons, ← hrest, newOffsets, hentry]
        by_cases hadv : nextOffset commitedOffsets e.1 < e.2
        · have hinc : incrementOf commitedOffsets e =
              some ⟨idOf e.1 (nextOffset commitedOffsets e.1), idOf e.1 e.2⟩ :=
            incrementOf_eq_some.mpr ⟨hadv, rfl⟩
          simp only [List.filterMap_cons, hinc, List.flatMap_cons, List.length_append,
            U64BlobIdClosedInterval.ids_length, if_pos hadv, idOf]
          omega
        · have hinc : incrementOf commitedOffsets e = none := by simp [incrementOf, hadv]
          simp only [List.filterMap_cons, hinc, if_neg hadv, Nat.zero_add]
  have hkeys : consensusOffset.keys = (order.map Prod.fst).toFinset := by
    ext r
    rw [Finmap.mem_keys, List.mem_toFinset, horder.mem_keys_iff]
  rw [hlist order fun e he => horder.mem_iff.mp he, hkeys, List.sum_toFinset _ horder.nodup]

/-- The ends of the increments are the offsets that are taken. -/
theorem increments_accepted_iff {order : List (Nat × Nat)} {consensusOffset : HashMap Nat Nat}
    (horder : Enumerates order consensusOffset) (commitedOffsets : HashMap Nat Nat) :
    (∀ i ∈ order.filterMap (incrementOf commitedOffsets), Accepted i.right) ↔
      ∀ {r o}, consensusOffset.lookup r = some o → nextOffset commitedOffsets r < o →
        Accepted (idOf r o) := by
  constructor
  · intro hacc r o ho hadv
    exact hacc _ (List.mem_filterMap.mpr ⟨(r, o), horder.mem_iff.mpr ho,
      incrementOf_eq_some.mpr ⟨hadv, rfl⟩⟩)
  · intro hacc i hi
    obtain ⟨⟨r, o⟩, hin, hinc⟩ := List.mem_filterMap.mp hi
    obtain ⟨hadv, rfl⟩ := incrementOf_eq_some.mp hinc
    exact hacc (horder.mem_iff.mp hin) hadv

/-- Intervals that are committed end in ids that can be decoded. -/
theorem foldlM_commitInterval_accepted {intervals : List U64BlobIdClosedInterval}
    {commitedOffsets commitedOffsets' : HashMap Nat Nat}
    (h : intervals.foldlM commitInterval commitedOffsets = .ok commitedOffsets') :
    ∀ i ∈ intervals, Accepted i.right := by
  exact foldlM_forall h fun hstep => (commitInterval_ok.mp hstep).1

/-- Increments whose ends can be decoded are calculated. -/
theorem calculateEpochIncrements_of_accepted {order : List (Nat × Nat)}
    {consensusOffset commitedOffsets : HashMap Nat Nat}
    (horder : Enumerates order consensusOffset)
    (hcommited : ∀ r o, commitedOffsets.lookup r = some o → o < singleBlobSize)
    (hacc : ∀ {r o}, consensusOffset.lookup r = some o → nextOffset commitedOffsets r < o →
      Accepted (idOf r o)) :
    calculateEpochIncrements order commitedOffsets =
      .ok (order.filterMap (incrementOf commitedOffsets)) := by
  refine calculateEpochIncrements_ok.mpr ⟨fun entry hentry => ?_, rfl⟩
  refine representable_of_lt hcommited fun hadv => ?_
  have hlt := (hacc (horder.mem_iff.mp hentry) hadv).lt
  omega

/-- An epoch is committed when all that is taken can be decoded and counted. -/
theorem commitEpochIfNeeded_returns_iff {PeerId : Type} (sha256 : Sha256)
    {a : App PeerId LogLineriazer} {order : List (Nat × Nat)}
    (horder : Enumerates order a.consensusOffset)
    (hcommited : ∀ r o, a.commitedOffsets.lookup r = some o → o < singleBlobSize) :
    (∃ fuel a', a.commitEpochIfNeeded sha256 fuel order = .ok a') ↔
      CommitFits a.consensusOffset a.commitedOffsets := by
  have hright := increments_accepted_iff horder a.commitedOffsets
  constructor
  · intro h
    obtain ⟨fuel, a', h⟩ := h
    obtain ⟨increments, hcommit⟩ := commitEpochIfNeeded_ok h
    obtain ⟨-, rfl⟩ := calculateEpochIncrements_ok.mp hcommit.calculated
    obtain ⟨fuel', hepoch⟩ := hcommit.linearizer
    obtain ⟨-, hlt⟩ := LogLineriazer.newEpoch_count hepoch
    have hacc := foldlM_commitInterval_accepted hcommit.commitedOffsets
    exact ⟨hright.mp hacc, (increments_length horder a.commitedOffsets).symm ▸ hlt⟩
  · intro hfit
    have hacc := hright.mpr hfit.accepted
    have hincrements := calculateEpochIncrements_of_accepted horder hcommited hfit.accepted
    obtain ⟨commitedOffsets, hfold⟩ := foldlM_commitInterval_total hacc a.commitedOffsets
    have hcount := (increments_length horder a.commitedOffsets) ▸ hfit.count_lt
    refine ⟨u64Bound, _, bind_eq_ok.mpr ⟨_, hincrements,
      bind_eq_ok.mpr ⟨_, LogLineriazer.newEpoch_total (increments_valid _ _) hcount
        (fun i hi => (hacc i hi).lt) fun i hi => ?_,
        bind_eq_ok.mpr ⟨commitedOffsets, hfold, rfl⟩⟩⟩⟩
    have hlt := (hacc i hi).lt
    omega

theorem commit_iff {a : App PeerId LogLineriazer}
    (hcommited : ∀ r o, a.commitedOffsets.lookup r = some o → o < singleBlobSize) :
    HandlersPass sha256 a .commitTick ↔ CommitFits a.consensusOffset a.commitedOffsets := by
  constructor
  · intro h
    obtain ⟨order, horder⟩ := Enumerates.exists_entries a.consensusOffset
    refine (commitEpochIfNeeded_returns_iff sha256 horder hcommited).mp ?_
    refine (commitEpochIfNeeded_settles sha256 a order).returns fun fuel reason hp => ?_
    obtain ⟨nodes, hevent, -⟩ := h reason (.commit horder hp)
    cases hevent
  · intro hfit reason hp
    cases hp with
    | commit horder hcommit =>
        obtain ⟨fuel, a', hok⟩ :=
          (commitEpochIfNeeded_returns_iff sha256 horder hcommited).mpr hfit
        exact absurd hcommit ((commitEpochIfNeeded_settles sha256 a _).not_panic_of_ok hok)

end Ticks

/-! ## Messages -/

section Messages

variable [Linearizer L] {sha256 : Sha256} {a : App PeerId L}

theorem newTransaction_iff {tx : Transaction} (hs : StoreSound a.transactions a.selfOffsets) :
    HandlersPass sha256 a (.inbox (.newTransaction tx)) ↔ Accepted tx.id := by
  have hone : (∀ tx' ∈ [tx], Accepted tx'.id) ↔ Accepted tx.id := by simp
  rw [← hone, ← txsToRangeTxMap_no_panic_iff]
  constructor
  · intro h reason hp
    obtain ⟨nodes, hevent, -⟩ := h reason (.newTransactionRange hp)
    cases hevent
  · intro hno reason hp
    cases hp with
    | newTransactionRange hmap => exact absurd hmap (hno reason)
    | newTransaction hmap horder hhandle =>
        obtain ⟨after, hafter⟩ := updateSelfOffsets_total (.of_rangeMap hmap horder) hs le_rfl
        obtain ⟨a', hok⟩ := handleNewTransaction_of_updated hafter
        exact absurd hhandle ((handleNewTransaction_settles a _).not_panic_of_ok hok)

theorem missingTx_iff {txs : List Transaction} (hs : StoreSound a.transactions a.selfOffsets) :
    HandlersPass sha256 a (.inbox (.missingTx txs)) ↔ ∀ tx ∈ txs, Accepted tx.id := by
  rw [← txsToRangeTxMap_no_panic_iff]
  constructor
  · intro h reason hp
    obtain ⟨nodes, hevent, -⟩ := h reason (.missingTxRange hp)
    cases hevent
  · intro hno reason hp
    cases hp with
    | missingTxRange hmap => exact absurd hmap (hno reason)
    | missingTx hmap horder hhandle =>
        obtain ⟨after, hafter⟩ := updateSelfOffsets_total (.of_rangeMap hmap horder) hs le_rfl
        have hok : a.handleMissingTx scanFuel _ = .ok _ := bind_eq_ok.mpr ⟨after, hafter, rfl⟩
        exact absurd hhandle ((handleMissingTx_settles a _).not_panic_of_ok hok)

theorem requestMissingTxs_iff {peerId : PeerId} {intervals : List U64BlobIdClosedInterval}
    (hacc : ∀ id ∈ a.transactions, Accepted id) :
    HandlersPass sha256 a (.inbox (.requestMissingTxs peerId intervals)) ↔
      (∀ i ∈ intervals, i.left ≤ i.right) ∧
        (intervals.flatMap U64BlobIdClosedInterval.ids).length < u64Bound := by
  constructor
  · intro h
    cases hcount : LogLineriazer.newElementsCount intervals with
    | ok count =>
        obtain ⟨hle, hlt, -⟩ := LogLineriazer.newElementsCount_ok.mp hcount
        exact ⟨hle, hlt⟩
    | panic reason =>
        have hp : a.handleRequestMissingTxs 0 peerId intervals = .panic reason :=
          bind_eq_panic.mpr (Or.inl hcount)
        obtain ⟨nodes, hevent, -⟩ := h reason (.requestMissingTxs hp)
        cases hevent
    | outOfFuel => exact absurd hcount (newElementsCount_ends intervals)
  · intro hfit reason hp
    cases hp with
    | requestMissingTxs hhandle =>
        have hcount := LogLineriazer.newElementsCount_ok.mpr ⟨hfit.1, hfit.2, rfl⟩
        rcases bind_eq_panic.mp hhandle with hcapacity | ⟨count, -, hrest⟩
        · exact absurd (hcount.symm.trans hcapacity) (by simp)
        · rcases bind_eq_panic.mp hrest with hloop | ⟨response, -, hsend⟩
          · obtain ⟨i, -, response, -, hround⟩ :=
              foldlM_panic (fun _ => True) (fun _ _ _ _ _ _ => trivial) hloop trivial
            exact absurd hround (answerInterval_not_panic hacc)
          · cases hsend

theorem nodes_handlersPass (nodes : Finset PeerId) :
    HandlersPass sha256 a (.inbox (.nodes nodes)) := by
  intro reason hp
  cases hp with
  | nodes _ hhandle =>
      refine ⟨nodes, rfl, ?_⟩
      rcases bind_eq_panic.mp hhandle with horder | ⟨position, -, hrest⟩
      · rw [recalculateOrder] at horder
        split at horder
        next => cases horder
        next =>
          cases horder
          rfl
      · cases hrest

end Messages

/-! ## Allocations -/

section Allocations

variable {PeerId : Type} {a : App PeerId LogLineriazer}

/-- An answer that can be allocated has a length. -/
theorem length_lt_of_bytes {intervals : List U64BlobIdClosedInterval}
    (h : (intervals.flatMap U64BlobIdClosedInterval.ids).length * 16 ≤ isizeMax) :
    (intervals.flatMap U64BlobIdClosedInterval.ids).length < u64Bound := by
  simp only [isizeMax] at h
  simp only [u64Bound]
  omega

theorem not_overallocates_request_iff {peerId : PeerId}
    {intervals : List U64BlobIdClosedInterval} (hle : ∀ i ∈ intervals, i.left ≤ i.right)
    (hlt : (intervals.flatMap U64BlobIdClosedInterval.ids).length < u64Bound) :
    ¬ Overallocates a (.inbox (.requestMissingTxs peerId intervals)) ↔
      (intervals.flatMap U64BlobIdClosedInterval.ids).length * 16 ≤ isizeMax := by
  have hcount := LogLineriazer.newElementsCount_ok.mpr ⟨hle, hlt, rfl⟩
  rw [← not_lt, not_iff_not]
  constructor
  · intro h
    cases h with
    | withCapacity hcapacity hbytes =>
        cases hcount.symm.trans hcapacity
        exact hbytes
  · exact .withCapacity hcount

/-- The sorted increments have as many ids as the ranges have new offsets, in
whatever order the ranges were visited. -/
theorem newElementsCount_sorted {order : List (Nat × Nat)}
    {consensusOffset commitedOffsets : HashMap Nat Nat}
    (horder : Enumerates order consensusOffset)
    (hlt : ∑ r ∈ consensusOffset.keys, newOffsets consensusOffset commitedOffsets r < u64Bound) :
    LogLineriazer.newElementsCount ((order.filterMap (incrementOf commitedOffsets)).insertionSort
      U64BlobIdClosedInterval.le) =
        .ok (∑ r ∈ consensusOffset.keys, newOffsets consensusOffset commitedOffsets r) := by
  have hperm := List.perm_insertionSort U64BlobIdClosedInterval.le
    (order.filterMap (incrementOf commitedOffsets))
  have hlength := (hperm.flatMap_right U64BlobIdClosedInterval.ids).length_eq.trans
    (increments_length horder commitedOffsets)
  refine LogLineriazer.newElementsCount_ok.mpr ⟨fun i hi => ?_, hlength ▸ hlt, hlength.symm⟩
  exact increments_valid commitedOffsets order i (hperm.mem_iff.mp hi)

theorem not_overallocates_commit_iff
    (hcommited : ∀ r o, a.commitedOffsets.lookup r = some o → o < singleBlobSize)
    (hfit : CommitFits a.consensusOffset a.commitedOffsets) :
    ¬ Overallocates a .commitTick ↔
      (a.linearizer.sequence.length + ∑ r ∈ a.consensusOffset.keys,
        newOffsets a.consensusOffset a.commitedOffsets r) * 8 ≤ isizeMax := by
  rw [← not_lt, not_iff_not]
  constructor
  · intro h
    cases h with
    | reserve horder hincrements hcount hbytes =>
        obtain ⟨-, rfl⟩ := calculateEpochIncrements_ok.mp hincrements
        cases (newElementsCount_sorted horder hfit.count_lt).symm.trans hcount
        exact hbytes
  · intro hbytes
    obtain ⟨order, horder⟩ := Enumerates.exists_entries a.consensusOffset
    exact .reserve horder
      (calculateEpochIncrements_of_accepted horder hcommited hfit.accepted)
      (newElementsCount_sorted horder hfit.count_lt) hbytes

end Allocations

/-! ## Runs -/

section Runs

variable {sha256 : Sha256} {peerId : PeerId} {params : Params} {events : List (Event PeerId)}

/-- Every number that the handler of the event computes with can be represented,
and so can the bytes that it asks for. -/
def Fits (a : App PeerId LogLineriazer) : Event PeerId → Prop
  | .advertiseTick => AheadScannable a.selfOffsets a.offsets
  | .commitTick => CommitFits a.consensusOffset a.commitedOffsets ∧
      (a.linearizer.sequence.length + ∑ r ∈ a.consensusOffset.keys,
        newOffsets a.consensusOffset a.commitedOffsets r) * 8 ≤ isizeMax
  | .inbox (.newTransaction tx) => Accepted tx.id
  | .inbox (.missingTx txs) => ∀ tx ∈ txs, Accepted tx.id
  | .inbox (.requestMissingTxs _ intervals) => (∀ i ∈ intervals, i.left ≤ i.right) ∧
      (intervals.flatMap U64BlobIdClosedInterval.ids).length * 16 ≤ isizeMax
  | _ => True

theorem neverPanics_iff {a : App PeerId LogLineriazer}
    (hs : StoreSound a.transactions a.selfOffsets)
    (hcommited : ∀ r o, a.commitedOffsets.lookup r = some o → o < singleBlobSize)
    (event : Event PeerId) : NeverPanics sha256 a event ↔ a.Fits event := by
  cases event with
  | advertiseTick => exact (and_iff_left fun h => nomatch h).trans (advertise_iff a)
  | commitTick =>
      rw [NeverPanics, commit_iff hcommited]
      exact and_congr_right (not_overallocates_commit_iff hcommited)
  | request request => exact ⟨fun _ => trivial, fun _ => ⟨fun _ hp => (nomatch hp), nofun⟩⟩
  | inbox msg =>
      cases msg with
      | state p state => exact ⟨fun _ => trivial, fun _ => ⟨fun _ hp => (nomatch hp), nofun⟩⟩
      | nodes nodes => exact ⟨fun _ => trivial, fun _ => ⟨nodes_handlersPass nodes, nofun⟩⟩
      | newTransaction tx => exact (and_iff_left nofun).trans (newTransaction_iff hs)
      | requestMissingTxs p intervals =>
          rw [NeverPanics, requestMissingTxs_iff hs.accepted, and_assoc]
          refine and_congr_right fun hle => ⟨fun h => ?_, fun h => ?_⟩
          · exact (not_overallocates_request_iff hle h.1).mp h.2
          · have hlt := length_lt_of_bytes h
            exact ⟨hlt, (not_overallocates_request_iff hle hlt).mpr h⟩
      | missingTx txs => exact (and_iff_left nofun).trans (missingTx_iff hs)

/-- A commited offset is one of its range. -/
theorem Runs.commited_lt {a : App PeerId LogLineriazer}
    (h : Runs sha256 (App.new peerId params) events a) :
    ∀ r o, a.commitedOffsets.lookup r = some o → o < singleBlobSize := by
  refine h.invariant (fun _ => True)
    (fun a => ∀ r o, a.commitedOffsets.lookup r = some o → o < singleBlobSize) ?_ (by simp)
    (by simp [App.new])
  intro b c event out _ hb hstep
  by_cases htick : event = .commitTick
  · subst htick
    obtain ⟨order, increments, -, hcommit⟩ := hstep.commit_tick
    refine foldlM_invariant (fun t : HashMap Nat Nat =>
      ∀ r o, t.lookup r = some o → o < singleBlobSize) hcommit.commitedOffsets hb ?_
    intro i _ t t' ht hround r o ho
    obtain ⟨-, rfl⟩ := commitInterval_ok.mp hround
    rcases HashMap.lookup_insert_some.mp ho with ⟨-, rfl⟩ | ⟨-, hold⟩
    · exact Nat.mod_lt _ singleBlobSize_pos
    · exact ht r o hold
  · rw [(hstep.commited_eq htick).1]
    exact hb

/-- No event of a sequence makes a node panic exactly when each one fits the
state in which it comes. -/
theorem never_panics_iff (sha256 : Sha256) (peerId : PeerId) (params : Params)
    (events : List (Event PeerId)) :
    (∀ before event after (a : App PeerId LogLineriazer), events = before ++ event :: after →
      Runs sha256 (App.new peerId params) before a → NeverPanics sha256 a event) ↔
    ∀ before event after (a : App PeerId LogLineriazer), events = before ++ event :: after →
      Runs sha256 (App.new peerId params) before a → a.Fits event := by
  constructor
  · intro h before event after a heq hrun
    exact (neverPanics_iff hrun.storeSound hrun.commited_lt event).mp
      (h before event after a heq hrun)
  · intro h before event after a heq hrun
    exact (neverPanics_iff hrun.storeSound hrun.commited_lt event).mpr
      (h before event after a heq hrun)

/-- A peer reports an offset of a range that has no ids, and the next tick
overflows. -/
theorem far_range_panics : ¬ ∀ (sha256 : Sha256) (peerId : Nat) (params : Params)
    (events before after : List (Event Nat)) (event : Event Nat) (a : App Nat LogLineriazer),
      events = before ++ event :: after → Runs sha256 (App.new peerId params) before a →
      NeverPanics sha256 a event := by
  intro h
  let sha256 : Sha256 := fun _ => Vector.replicate 32 0
  let far : NodeState := { offsets := (∅ : HashMap Nat Nat).insert (2 ^ 63) 0 }
  have hstate : Step sha256 (App.new 0 Params.default) (.inbox (.state 1 far))
      ((App.new 0 Params.default).handleState 1 [(2 ^ 63, 0)]) [] :=
    .state (.singleton _ 0)
  have horder : EnumeratesNested [(2 ^ 63, [(1, 0)])]
      ((App.new 0 Params.default).handleState 1 [(2 ^ 63, 0)]).offsets :=
    .insert .empty Finmap.notMem_empty (.singleton 1 0)
  have hdelays : selfDelays 1 ∅ ∅ [(2 ^ 63, [(1, 0)])] = .panic .overflow := by
    rfl
  have hpanic : Panics sha256 ((App.new 0 Params.default).handleState 1 [(2 ^ 63, 0)])
      .advertiseTick .overflow :=
    .delays horder rfl horder hdelays
  obtain ⟨hhandlers, -⟩ := h sha256 0 Params.default _ [.inbox (.state 1 far)] []
    .advertiseTick _ rfl (.single hstate)
  obtain ⟨nodes, hevent, -⟩ := hhandlers .overflow hpanic
  cases hevent

end Runs

end App

end Maroon
