import Maroon.App.Redelivery

/-!
# What a node knows does not depend on the order of its messages

A node keeps the last copy of each transaction, and the last offset that each
peer has advertised for each range.  So two runs that agree on these last words
end with the same transactions and the same offsets, however the messages were
ordered, cut into batches, repeated, or mixed with ticks (`knowledge_determined`).
-/

namespace Maroon

open Lib Outcome

/-! ## Last words -/

theorem lastCopy_append (txs txs' : List Transaction) (id : Nat) :
    lastCopy (txs ++ txs') id = (lastCopy txs' id).or (lastCopy txs id) := by
  rw [lastCopy, List.filter_append, List.getLast?_append, lastCopy, lastCopy]

theorem exists_lastCopy {txs : List Transaction} {tx : Transaction} (h : tx ∈ txs) :
    ∃ tx', lastCopy txs tx.id = some tx' := by
  have hin : tx ∈ txs.filter fun tx' => tx'.id = tx.id := List.mem_filter.mpr ⟨h, by simp⟩
  exact ⟨_, List.getLast?_eq_some_getLast (List.ne_nil_of_mem hin)⟩

/-- Where no two copies differ, the order does not matter. -/
theorem lastCopy_congr {txs txs' : List Transaction} (hmem : ∀ tx, tx ∈ txs ↔ tx ∈ txs')
    (hone : ∀ tx ∈ txs, ∀ tx' ∈ txs, tx.id = tx'.id → tx = tx') (id : Nat) :
    lastCopy txs id = lastCopy txs' id := by
  cases hlast : lastCopy txs id with
  | none =>
      cases hlast' : lastCopy txs' id with
      | none => rfl
      | some tx' =>
          obtain ⟨hin', rfl⟩ := lastCopy_eq_some hlast'
          obtain ⟨tx, htx⟩ := exists_lastCopy ((hmem tx').mpr hin')
          rw [hlast] at htx
          cases htx
  | some tx =>
      obtain ⟨hin, rfl⟩ := lastCopy_eq_some hlast
      obtain ⟨tx', hlast'⟩ := exists_lastCopy ((hmem tx).mp hin)
      obtain ⟨hin', hid⟩ := lastCopy_eq_some hlast'
      rw [hlast', hone tx hin tx' ((hmem tx').mpr hin') hid.symm]

section Advertised

variable {PeerId : Type} [DecidableEq PeerId]

/-- The offset that an event tells for a peer and a range. -/
def Event.advertised (peerId : PeerId) (range : Nat) : Event PeerId → Option Nat
  | .inbox (.state sender state) => if sender = peerId then state.offsets.lookup range else none
  | _ => none

/-- The last offset that some events tell for a peer and a range. -/
def lastAdvertised (events : List (Event PeerId)) (peerId : PeerId) (range : Nat) : Option Nat :=
  (events.filterMap (Event.advertised peerId range)).getLast?

theorem lastAdvertised_concat (events : List (Event PeerId)) (event : Event PeerId)
    (peerId : PeerId) (range : Nat) : lastAdvertised (events ++ [event]) peerId range =
      (event.advertised peerId range).or (lastAdvertised events peerId range) := by
  rw [lastAdvertised, lastAdvertised, List.filterMap_append, List.getLast?_append]
  cases hadv : event.advertised peerId range with
  | none => rw [List.filterMap_cons_none hadv, List.filterMap_nil, List.getLast?_nil]
  | some v => rw [List.filterMap_cons_some hadv, List.filterMap_nil, List.getLast?_singleton]

end Advertised

/-! ## Tables without empty rows -/

section Rows

variable {PeerId : Type} [LinearOrder PeerId] {offsets offsets' : HashMap Nat (HashMap PeerId Nat)}

/-- Every range of the table has an entry. -/
def NoEmptyRow (offsets : HashMap Nat (HashMap PeerId Nat)) : Prop :=
  ∀ r peers, offsets.lookup r = some peers → ∃ p v, peers.lookup p = some v

theorem NoEmptyRow.moveOffsetPointer (h : NoEmptyRow offsets) (peerId : PeerId)
    (newRange newOffset : Nat) :
    NoEmptyRow (moveOffsetPointer offsets peerId newRange newOffset) := by
  intro r peers hr
  have hself := peerOffset_moveOffsetPointer offsets peerId peerId newRange newOffset r
  rcases eq_or_ne r newRange with rfl | hne
  · rw [if_pos ⟨rfl, rfl⟩, peerOffset, hr, Option.bind_some] at hself
    exact ⟨peerId, newOffset, hself⟩
  · refine h r peers ?_
    unfold Maroon.moveOffsetPointer at hr
    split at hr
    next => rwa [Finmap.lookup_insert_of_ne _ hne] at hr
    next => rwa [Finmap.lookup_insert_of_ne _ hne] at hr

theorem NoEmptyRow.recordAll (h : NoEmptyRow offsets) (peerId : PeerId)
    (entries : List (Nat × Nat)) : NoEmptyRow (recordAll offsets peerId entries) := by
  induction entries generalizing offsets with
  | nil => exact h
  | cons entry entries ih => exact ih (h.moveOffsetPointer peerId entry.1 entry.2)

/-- A row that is in one table only would have an entry. -/
theorem NoEmptyRow.lookup_none (h : NoEmptyRow offsets')
    (hentries : ∀ r p, peerOffset offsets r p = peerOffset offsets' r p) {r : Nat}
    (hr : offsets.lookup r = none) : offsets'.lookup r = none := by
  cases hr' : offsets'.lookup r with
  | none => rfl
  | some peers =>
      obtain ⟨p, v, hv⟩ := h r peers hr'
      have hentry := hentries r p
      rw [peerOffset, hr, peerOffset, hr', Option.bind_some, hv] at hentry
      cases hentry

/-- Such tables are the same if their entries are. -/
theorem NoEmptyRow.ext (h : NoEmptyRow offsets) (h' : NoEmptyRow offsets')
    (hentries : ∀ r p, peerOffset offsets r p = peerOffset offsets' r p) : offsets = offsets' := by
  refine Finmap.ext_lookup fun r => ?_
  cases hr : offsets.lookup r with
  | none => exact (h'.lookup_none hentries hr).symm
  | some peers =>
      cases hr' : offsets'.lookup r with
      | none =>
          rw [h.lookup_none (fun r p => (hentries r p).symm) hr'] at hr
          cases hr
      | some peers' =>
          refine congrArg some (Finmap.ext_lookup fun p => ?_)
          have hentry := hentries r p
          rwa [peerOffset, hr, peerOffset, hr'] at hentry

end Rows

namespace App

/-! ## What a step leaves -/

section Step

variable {PeerId L : Type} [LinearOrder PeerId] [Linearizer L] {sha256 : Sha256}
  {a a' : App PeerId L} {event : Event PeerId} {out : List (Outbox PeerId)} {p : PeerId}

theorem Step.lookup_transactions (h : Step sha256 a event a' out) (id : Nat) :
    a'.transactions.lookup id = (lastCopy event.txs id).or (a.transactions.lookup id) := by
  obtain ⟨order, after, fuel, hb, hafter, -, htx⟩ := h.store
  rw [htx, updateSelfOffsets_lookup hb hafter]

/-- The entries of another peer change when it tells them. -/
theorem Step.peerOffset_other (h : Step sha256 a event a' out) (hne : p ≠ a.peerId) (r : Nat) :
    peerOffset a'.offsets r p = (event.advertised p r).or (peerOffset a.offsets r p) := by
  cases h with
  | advertise _ hrec =>
      obtain ⟨_, -, rfl⟩ := recalculateConsensusOffsets_ok hrec
      rfl
  | commit _ hcommit =>
      obtain ⟨_, hcommit⟩ := commitEpochIfNeeded_ok hcommit
      rw [hcommit.frame]
      rfl
  | @state sender state order horder =>
      rw [handleState_offsets]
      rcases eq_or_ne sender p with rfl | hsender
      · rw [peerOffset_recordAll_enumerates horder, Event.advertised, if_pos rfl]
      · rw [peerOffset_recordAll_ne hsender.symm, Event.advertised, if_neg hsender, Option.none_or]
  | nodes _ hnodes =>
      rw [handleNodes_ok hnodes]
      rfl
  | newTransaction hmap horder hstep =>
      obtain ⟨after, -, rfl⟩ := handleNewTransaction_ok (.of_rangeMap hmap horder) hstep
      exact peerOffset_recordAll_ne hne
  | missingTx hmap horder hstep =>
      obtain ⟨after, -, rfl⟩ := handleMissingTx_ok hstep
      exact peerOffset_recordAll_ne hne
  | _ => rfl

theorem Step.noEmptyRow (h : Step sha256 a event a' out) (hrows : NoEmptyRow a.offsets) :
    NoEmptyRow a'.offsets := by
  cases h.effect with
  | commit _ hcommit =>
      rw [hcommit.frame]
      exact hrows
  | state => exact hrows.recordAll _ _
  | batch => exact hrows.recordAll _ _
  | _ => exact hrows

end Step

/-! ## What a run leaves -/

variable {PeerId : Type} [LinearOrder PeerId] {sha256 : Sha256} {peerId p : PeerId}
  {params params' : Params} {events events' : List (Event PeerId)}
  {a a' : App PeerId LogLineriazer}

theorem Runs.lookup_transactions (h : Runs sha256 (App.new peerId params) events a) (id : Nat) :
    a.transactions.lookup id = lastCopy (events.flatMap Event.txs) id := by
  induction h with
  | refl => rfl
  | tail _ hstep ih =>
      rw [hstep.lookup_transactions, ih, List.flatMap_append, lastCopy_append,
        List.flatMap_singleton]

theorem Runs.peerId_eq (h : Runs sha256 (App.new peerId params) events a) : a.peerId = peerId :=
  h.invariant (fun _ => True) (fun a => a.peerId = peerId)
    (fun _ hid hstep => hstep.peerId_eq.trans hid) (by simp) rfl

theorem Runs.peerOffset_other (h : Runs sha256 (App.new peerId params) events a)
    (hne : p ≠ peerId) (r : Nat) :
    peerOffset a.offsets r p = lastAdvertised events p r := by
  induction h with
  | refl => rfl
  | tail hbefore hstep ih =>
      rw [hstep.peerOffset_other (hbefore.peerId_eq ▸ hne), ih, lastAdvertised_concat]

theorem Runs.noEmptyRow (h : Runs sha256 (App.new peerId params) events a) :
    NoEmptyRow a.offsets :=
  h.invariant (fun _ => True) (fun a => NoEmptyRow a.offsets)
    (fun _ hrows hstep => hstep.noEmptyRow hrows) (by simp) (by
      intro r peers hr
      cases hr)

/-- Two runs in which the same last copies of transactions came, and every other
peer advertised the same offsets last, end with the same transactions and
offsets. -/
theorem knowledge_determined (h : Runs sha256 (App.new peerId params) events a)
    (h' : Runs sha256 (App.new peerId params') events' a') (hlast : NoLast (receivedIds events))
    (hself : ∀ state, .inbox (.state peerId state) ∉ events)
    (hself' : ∀ state, .inbox (.state peerId state) ∉ events')
    (hcopies : ∀ id, lastCopy (events.flatMap Event.txs) id =
      lastCopy (events'.flatMap Event.txs) id)
    (hstates : ∀ p r, lastAdvertised events p r = lastAdvertised events' p r) :
    a.transactions = a'.transactions ∧ a.selfOffsets = a'.selfOffsets ∧
      a.offsets = a'.offsets := by
  have htransactions : a.transactions = a'.transactions := by
    refine Finmap.ext_lookup fun id => ?_
    rw [h.lookup_transactions, h'.lookup_transactions, hcopies]
  have hids : receivedIds events' = receivedIds events := by
    rw [← h.heldIds_eq, ← h'.heldIds_eq, htransactions]
  have hself_eq : a.selfOffsets = a'.selfOffsets :=
    (h.storeExact hlast).congr (h'.storeExact (hids ▸ hlast)) (by rw [htransactions])
  refine ⟨htransactions, hself_eq, h.noEmptyRow.ext h'.noEmptyRow fun r p => ?_⟩
  rcases eq_or_ne p peerId with rfl | hne
  · have hown := (h.ownEntries (new_ownEntries p params) hself).2 r
    have hown' := (h'.ownEntries (new_ownEntries p params') hself').2 r
    rw [h.peerId_eq] at hown
    rw [h'.peerId_eq] at hown'
    rw [hown, hown', hself_eq]
  · rw [h.peerOffset_other hne, h'.peerOffset_other hne, hstates]

/-- Two transactions that come one after the other in two messages, or in one. -/
theorem knowledge_determined_swapped : ∃ c c' : App Nat LogLineriazer,
    c.selfOffsets.lookup 0 = some 1 ∧ c'.epochs = [] ∧ c.transactions = c'.transactions ∧
      c.selfOffsets = c'.selfOffsets ∧ c.offsets = c'.offsets := by
  let sha256 : Sha256 := fun _ => Vector.replicate 32 0
  obtain ⟨b, c, hb, hc, hlook⟩ := swapped_steps sha256
  have hrun : Runs sha256 (App.new 0 Params.default) swappedEvents c := (Runs.single hb).tail hc
  have hbatch : Step sha256 (App.new 0 Params.default)
      (.inbox (.missingTx [⟨0, .created⟩, ⟨1, .created⟩])) _ [] :=
    @Step.missingTx _ _ _ _ _ _ _ _ _ [(0, [⟨0, .created⟩, ⟨1, .created⟩])] 2 rfl
      (.singleton 0 _) rfl
  refine ⟨c, _, hlook, rfl, knowledge_determined hrun (.single hbatch) swapped_noLast
    (by simp [swappedEvents]) (by simp) (fun id => ?_) fun p r => rfl⟩
  exact lastCopy_congr (by simp [swappedEvents, Event.txs, or_comm])
    (by simp [swappedEvents, Event.txs]) id

end App

end Maroon
