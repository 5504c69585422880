import Maroon.App.Views

/-!
# What a step can do

`Effect` sorts the steps by what they write.  An advertise tick writes the
consensus offsets, a commit tick what is committed, a `State` message the table
of peers, and a batch of transactions the store and the node's own entries in
that table.  Every other step leaves the state as it is.

A step of any kind handles a batch, which is empty unless the event brings
transactions (`Step.store`).  So the invariants of the store need no case
analysis over events.
-/

namespace Maroon

open Lib Outcome

/-- The transactions that an event brings. -/
def Event.txs {PeerId : Type} : Event PeerId → List Transaction
  | .inbox (.newTransaction tx) => [tx]
  | .inbox (.missingTx txs) => txs
  | _ => []

namespace App

/-! ## Handlers that returned -/

section Handlers

variable {PeerId L : Type} {a a' : App PeerId L}

theorem recalculateConsensusOffsets_ok {order : List (Nat × List (PeerId × Nat))}
    (h : a.recalculateConsensusOffsets order = .ok a') : ∃ consensusOffset,
      order.foldlM (recalculateRange a.params.consensusNodes) a.consensusOffset =
        .ok consensusOffset ∧ a' = { a with consensusOffset } := by
  obtain ⟨consensusOffset, hfold, h⟩ := bind_eq_ok.mp h
  cases h
  exact ⟨consensusOffset, hfold, rfl⟩

/-- The hash of the last epoch. -/
def prevHash (a : App PeerId L) : Option Hash := a.epochs.getLast?.map Epoch.hash

/-- What a commit tick computes on the way to its new state. -/
structure Commit [Linearizer L] (sha256 : Sha256) (order : List (Nat × Nat))
    (increments : List U64BlobIdClosedInterval) (before after : App PeerId L) : Prop where
  calculated : calculateEpochIncrements order before.commitedOffsets = .ok increments
  linearizer : ∃ fuel, Linearizer.newEpoch fuel before.linearizer
    (Epoch.new sha256 increments before.prevHash) = .ok after.linearizer
  commitedOffsets :
    increments.foldlM commitInterval before.commitedOffsets = .ok after.commitedOffsets
  frame : after = { before with
    linearizer := after.linearizer
    commitedOffsets := after.commitedOffsets
    epochs := before.epochs ++ [Epoch.new sha256 increments before.prevHash] }

theorem commitEpochIfNeeded_ok [Linearizer L] {sha256 : Sha256} {fuel : Nat}
    {order : List (Nat × Nat)} (h : a.commitEpochIfNeeded sha256 fuel order = .ok a') :
    ∃ increments, Commit sha256 order increments a a' := by
  obtain ⟨increments, hinc, h⟩ := bind_eq_ok.mp h
  obtain ⟨linearizer, hlin, h⟩ := bind_eq_ok.mp h
  obtain ⟨commitedOffsets, hcom, h⟩ := bind_eq_ok.mp h
  cases h
  exact ⟨increments, hinc, ⟨fuel, hlin⟩, hcom, rfl⟩

theorem handleNodes_ok [LinearOrder PeerId] {order : List PeerId}
    (h : a.handleNodes order = .ok a') : a' = a := by
  obtain ⟨-, -, h⟩ := bind_eq_ok.mp h
  cases h
  rfl

end Handlers

/-! ## Effects -/

variable {PeerId L : Type} [LinearOrder PeerId] [Linearizer L] {sha256 : Sha256}
  {a a' : App PeerId L} {event : Event PeerId} {out : List (Outbox PeerId)}

/-- What a step writes. -/
inductive Effect (sha256 : Sha256) : App PeerId L → Event PeerId → App PeerId L → Prop where
  | consensus {a : App PeerId L} {order : List (Nat × List (PeerId × Nat))}
      {consensusOffset : HashMap Nat Nat} :
      EnumeratesNested order a.offsets →
      order.foldlM (recalculateRange a.params.consensusNodes) a.consensusOffset =
        .ok consensusOffset →
      Effect sha256 a .advertiseTick { a with consensusOffset }
  | commit {a a' : App PeerId L} {order : List (Nat × Nat)}
      {increments : List U64BlobIdClosedInterval} :
      Enumerates order a.consensusOffset →
      Commit sha256 order increments a a' →
      Effect sha256 a .commitTick a'
  | state {a : App PeerId L} {peerId : PeerId} {state : NodeState} {order : List (Nat × Nat)} :
      Enumerates order state.offsets →
      Effect sha256 a (.inbox (.state peerId state))
        { a with offsets := recordAll a.offsets peerId order }
  | batch {a : App PeerId L} {event : Event PeerId} {order : List (Nat × List Transaction)}
      {after : OffsetUpdate} {fuel : Nat} :
      IsBatch event.txs order →
      updateSelfOffsets fuel a.selfOffsets a.transactions order = .ok after →
      Effect sha256 a event (a.afterBatch after)
  | quiet {a : App PeerId L} {event : Event PeerId} :
      event.txs = [] →
      Effect sha256 a event a

theorem Step.effect (h : Step sha256 a event a' out) : Effect sha256 a event a' := by
  cases h with
  | advertise horder hrec =>
      obtain ⟨consensusOffset, hfold, rfl⟩ := recalculateConsensusOffsets_ok hrec
      exact .consensus horder hfold
  | commit horder hcommit =>
      obtain ⟨increments, hcommit⟩ := commitEpochIfNeeded_ok hcommit
      exact .commit horder hcommit
  | request => exact .quiet rfl
  | @state peerId state order horder =>
      have heq : a.handleState peerId order =
          { a with offsets := recordAll a.offsets peerId order } := by
        rw [← handleState_offsets]
        rfl
      exact heq ▸ .state horder
  | nodes _ hnodes => exact handleNodes_ok hnodes ▸ .quiet rfl
  | newTransaction hmap horder hstep =>
      have hb := IsBatch.of_rangeMap hmap horder
      obtain ⟨after, hafter, rfl⟩ := handleNewTransaction_ok hb hstep
      exact .batch hb hafter
  | missingTx hmap horder hstep =>
      obtain ⟨after, hafter, rfl⟩ := handleMissingTx_ok hstep
      exact .batch (IsBatch.of_rangeMap hmap horder) hafter
  | requestMissingTxs => exact .quiet rfl

/-- What a commit tick computes. -/
theorem Step.commit_tick (h : Step sha256 a .commitTick a' out) : ∃ order increments,
    Enumerates order a.consensusOffset ∧ Commit sha256 order increments a a' := by
  cases h with
  | commit horder hcommit =>
      obtain ⟨increments, hcommit⟩ := commitEpochIfNeeded_ok hcommit
      exact ⟨_, increments, horder, hcommit⟩

/-! ## Frames -/

theorem Step.peerId_eq (h : Step sha256 a event a' out) : a'.peerId = a.peerId := by
  cases h.effect with
  | commit _ hcommit => rw [hcommit.frame]
  | _ => rfl

theorem Step.params_eq (h : Step sha256 a event a' out) : a'.params = a.params := by
  cases h.effect with
  | commit _ hcommit => rw [hcommit.frame]
  | _ => rfl

/-- The consensus offsets change at an advertise tick only. -/
theorem Step.consensusOffset_eq (h : Step sha256 a event a' out)
    (hne : event ≠ .advertiseTick) : a'.consensusOffset = a.consensusOffset := by
  cases h.effect with
  | consensus => exact absurd rfl hne
  | commit _ hcommit => rw [hcommit.frame]
  | _ => rfl

/-- What was committed changes at a commit tick only. -/
theorem Step.commited_eq (h : Step sha256 a event a' out) (hne : event ≠ .commitTick) :
    a'.commitedOffsets = a.commitedOffsets ∧ a'.epochs = a.epochs ∧
      a'.linearizer = a.linearizer := by
  cases h.effect with
  | commit => exact absurd rfl hne
  | _ => exact ⟨rfl, rfl, rfl⟩

/-! ## The store -/

theorem isBatch_nil : IsBatch [] [] where
  accepted := by simp
  nodup := by simp
  mem_iff := by simp [bucketOf, batchOf]

/-- Every step handles the transactions that its event brings as one batch. -/
theorem Step.store (h : Step sha256 a event a' out) : ∃ order after fuel,
    IsBatch event.txs order ∧
      updateSelfOffsets fuel a.selfOffsets a.transactions order = .ok after ∧
      a'.selfOffsets = after.selfOffsets ∧ a'.transactions = after.transactions := by
  have hnil : updateSelfOffsets 0 a.selfOffsets a.transactions [] =
      .ok ⟨a.selfOffsets, a.transactions, []⟩ := rfl
  cases h.effect with
  | consensus => exact ⟨[], _, 0, isBatch_nil, hnil, rfl, rfl⟩
  | commit _ hcommit =>
      rw [hcommit.frame]
      exact ⟨[], _, 0, isBatch_nil, hnil, rfl, rfl⟩
  | state => exact ⟨[], _, 0, isBatch_nil, hnil, rfl, rfl⟩
  | batch hb hafter => exact ⟨_, _, _, hb, hafter, rfl, rfl⟩
  | quiet htxs => exact ⟨[], _, 0, htxs ▸ isBatch_nil, hnil, rfl, rfl⟩

/-- A step adds the ids its event brings and nothing else. -/
theorem Step.heldIds_eq (h : Step sha256 a event a' out) :
    heldIds a'.transactions = heldAfter a.transactions event.txs := by
  obtain ⟨order, after, fuel, hb, hafter, -, htx⟩ := h.store
  rw [htx, updateSelfOffsets_heldIds hb hafter]

theorem Step.mem_transactions (h : Step sha256 a event a' out) {id : Nat} :
    id ∈ a'.transactions ↔ id ∈ a.transactions ∨ ∃ tx ∈ event.txs, tx.id = id := by
  rw [← mem_heldIds, h.heldIds_eq]
  rfl

/-- No step drops a transaction. -/
theorem Step.heldIds_subset (h : Step sha256 a event a' out) :
    heldIds a.transactions ⊆ heldIds a'.transactions := by
  rw [h.heldIds_eq]
  exact fun id hid => Or.inl hid

theorem Step.storeSound (h : Step sha256 a event a' out)
    (hs : StoreSound a.transactions a.selfOffsets) :
    StoreSound a'.transactions a'.selfOffsets := by
  obtain ⟨order, after, fuel, hb, hafter, hself, htx⟩ := h.store
  rw [hself, htx]
  exact updateSelfOffsets_sound hb hafter hs

/-- A step keeps the offsets exact unless it makes a scan cross. -/
theorem Step.storeExact (h : Step sha256 a event a' out)
    (hs : StoreSound a.transactions a.selfOffsets) (he : StoreExact a.transactions a.selfOffsets)
    (hcross : ∀ tx ∈ event.txs,
      ¬ Crosses (heldAfter a.transactions event.txs) (tx.id / singleBlobSize)) :
    StoreExact a'.transactions a'.selfOffsets := by
  obtain ⟨order, after, fuel, hb, hafter, hself, htx⟩ := h.store
  rw [hself, htx]
  exact updateSelfOffsets_exact hb hafter hs he hcross

/-! ## The table of peers -/

/-- Where an entry of the table comes from. -/
theorem Step.peerOffset_cases (h : Step sha256 a event a' out) {r v : Nat} {p : PeerId}
    (hv : peerOffset a'.offsets r p = some v) :
    peerOffset a.offsets r p = some v ∨
      p = a.peerId ∧ a'.selfOffsets.lookup r = some v ∨
      ∃ state, event = .inbox (.state p state) ∧ state.offsets.lookup r = some v := by
  cases h.effect with
  | consensus => exact Or.inl hv
  | commit _ hcommit =>
      rw [hcommit.frame] at hv
      exact Or.inl hv
  | state horder =>
      rcases peerOffset_recordAll hv with hold | ⟨rfl, hin⟩
      · exact Or.inl hold
      · exact Or.inr (Or.inr ⟨_, rfl, horder.mem_iff.mp hin⟩)
  | batch hb hafter =>
      rcases peerOffset_recordAll hv with hold | ⟨rfl, hin⟩
      · exact Or.inl hold
      · exact Or.inr (Or.inl ⟨rfl, (updateSelfOffsets_updatesOf hb hafter).lookup hin⟩)
  | quiet => exact Or.inl hv

/-- No step removes an entry of the table. -/
theorem Step.peerOffset_isSome (h : Step sha256 a event a' out) {r : Nat} {p : PeerId}
    (hv : (peerOffset a.offsets r p).isSome) : (peerOffset a'.offsets r p).isSome := by
  cases h.effect with
  | commit _ hcommit =>
      rw [hcommit.frame]
      exact hv
  | state => exact peerOffset_recordAll_isSome hv
  | batch => exact peerOffset_recordAll_isSome hv
  | _ => exact hv

/-- The node's own entries are its own offsets. -/
def OwnEntries (a : App PeerId L) : Prop :=
  ∀ r, peerOffset a.offsets r a.peerId = a.selfOffsets.lookup r

/-- A step keeps the own entries unless it is a `State` message in the node's
own name. -/
theorem Step.ownEntries (h : Step sha256 a event a' out) (ho : a.OwnEntries)
    (hself : ∀ state, event ≠ .inbox (.state a.peerId state)) : a'.OwnEntries := by
  cases h.effect with
  | consensus => exact ho
  | commit _ hcommit =>
      rw [hcommit.frame]
      exact ho
  | @state peerId state order horder =>
      intro r
      have hne : a.peerId ≠ peerId := by
        rintro rfl
        exact hself state rfl
      exact (peerOffset_recordAll_ne hne).trans (ho r)
  | @batch _ _ after _ hb hafter =>
      intro r
      have hupd := updateSelfOffsets_updatesOf hb hafter
      obtain ⟨hmem, hnot⟩ :=
        peerOffset_recordAll_self hupd.nodup a.offsets a.peerId r
      change peerOffset (recordAll a.offsets a.peerId after.updates) r a.peerId =
        after.selfOffsets.lookup r
      by_cases hr : r ∈ after.updates.map Prod.fst
      · obtain ⟨⟨r', v⟩, hin, rfl⟩ := List.mem_map.mp hr
        rw [hmem v hin, hupd.lookup hin]
      · rw [hnot hr, hupd.unchanged hr]
        exact ho r
  | quiet => exact ho

/-- Over a run without `State` messages in the node's own name, the own entries
follow the node's offsets. -/
theorem Runs.ownEntries {events : List (Event PeerId)} (h : Runs sha256 a events a')
    (ho : a.OwnEntries) (hself : ∀ state, .inbox (.state a.peerId state) ∉ events) :
    a'.peerId = a.peerId ∧ a'.OwnEntries := by
  refine h.invariant (fun event => ∀ state, event ≠ .inbox (.state a.peerId state))
    (fun b => b.peerId = a.peerId ∧ b.OwnEntries) ?_ ?_ ⟨rfl, ho⟩
  · rintro b c event out hne ⟨hid, hown⟩ hs
    exact ⟨hs.peerId_eq.trans hid, hs.ownEntries hown (hid ▸ hne)⟩
  · rintro event hevent state rfl
    exact hself state hevent

theorem new_ownEntries (peerId : PeerId) (params : Params) :
    (App.new peerId params).OwnEntries :=
  fun _ => rfl

end App

end Maroon
