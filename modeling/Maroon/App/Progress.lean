import Maroon.App.Panics
import Maroon.Network.Alive

/-!
# Handlers that return

A handler may go through its maps in any order and takes some time for its
loops.  `Returns` says that it comes to its end whatever the order is.  Then the
application makes a step (`Returns.step`), and no order makes it panic
(`Returns.not_panics`).

`Admits` is the condition on the state and on the event under which this holds
of every handler (`Valid.returns`).  The handlers but one settle, so what does
not panic returns.  The handler that answers requests has to hold what it is
asked for.
-/

namespace Maroon

open Lib Outcome

namespace App

variable {PeerId : Type} {a : App PeerId LogLineriazer}

/-- The handler that answers requests panics in its first loop, if it does. -/
theorem answer_not_panic {peerId : PeerId} {intervals : List U64BlobIdClosedInterval}
    {fuel fuel' : Nat} {out : Outbox PeerId} {reason : Panic}
    (hacc : ∀ id ∈ a.transactions, Accepted id)
    (h : a.handleRequestMissingTxs fuel peerId intervals = .ok out) :
    a.handleRequestMissingTxs fuel' peerId intervals ≠ .panic reason := by
  intro hpanic
  obtain ⟨count, hcount, -⟩ := bind_eq_ok.mp h
  rcases bind_eq_panic.mp hpanic with hcapacity | ⟨count, -, hrest⟩
  · rw [hcount] at hcapacity
    cases hcapacity
  · rcases bind_eq_panic.mp hrest with hloop | ⟨response, -, hsend⟩
    · obtain ⟨i, -, response, -, hround⟩ :=
        foldlM_panic (fun _ => True) (fun _ _ _ _ _ _ => trivial) hloop trivial
      exact absurd hround (answerInterval_not_panic hacc)
    · cases hsend

/-- A batch that can be decoded is stored. -/
theorem batch_returns (hs : StoreSound a.transactions a.selfOffsets) {txs : List Transaction}
    (hacc : ∀ tx ∈ txs, Accepted tx.id) : ∃ rangeMap, txsToRangeTxMap txs = .ok rangeMap ∧
      ∀ order, Enumerates order rangeMap → ∃ after,
        updateSelfOffsets scanFuel a.selfOffsets a.transactions order = .ok after := by
  obtain ⟨rangeMap, hmap⟩ := txsToRangeTxMap_total hacc
  exact ⟨rangeMap, hmap, fun order horder =>
    updateSelfOffsets_total (.of_rangeMap hmap horder) hs le_rfl⟩

variable [LinearOrder PeerId] {sha256 : Sha256} {event : Event PeerId}

/-- The handler of the event comes to its end, in whatever order it goes through
its maps. -/
def Returns (sha256 : Sha256) (a : App PeerId LogLineriazer) : Event PeerId → Prop
  | .advertiseTick => ∀ order order', EnumeratesNested order a.offsets →
      EnumeratesNested order' a.offsets → ∃ consensusOffset fuel delays,
        a.recalculateConsensusOffsets order = .ok { a with consensusOffset } ∧
        selfDelays fuel a.transactions a.selfOffsets order' = .ok delays
  | .commitTick => ∀ order, Enumerates order a.consensusOffset →
      ∃ fuel a', a.commitEpochIfNeeded sha256 fuel order = .ok a'
  | .request _ => True
  | .inbox (.state _ _) => True
  | .inbox (.nodes nodes) => ∀ order : List PeerId, (order : Multiset PeerId) = nodes.val →
      a.handleNodes order = .ok a
  | .inbox (.newTransaction tx) => ∃ rangeMap, txsToRangeTxMap [tx] = .ok rangeMap ∧
      ∀ order, Enumerates order rangeMap → ∃ fuel a', a.handleNewTransaction fuel order = .ok a'
  | .inbox (.missingTx txs) => ∃ rangeMap, txsToRangeTxMap txs = .ok rangeMap ∧
      ∀ order, Enumerates order rangeMap → ∃ fuel a', a.handleMissingTx fuel order = .ok a'
  | .inbox (.requestMissingTxs peerId intervals) =>
      ∃ fuel out, a.handleRequestMissingTxs fuel peerId intervals = .ok out

theorem Returns.step (h : Returns sha256 a event) : ∃ a' out, Step sha256 a event a' out := by
  cases event with
  | advertiseTick =>
      obtain ⟨order, horder⟩ := EnumeratesNested.exists_entries a.offsets
      obtain ⟨consensusOffset, fuel, delays, hrec, hdelays⟩ := h order order horder horder
      obtain ⟨sends, hsends⟩ := Enumerates.exists_entries delays
      exact ⟨_, _, .advertise horder hrec horder hdelays hsends⟩
  | commitTick =>
      obtain ⟨order, horder⟩ := Enumerates.exists_entries a.consensusOffset
      obtain ⟨fuel, a', hcommit⟩ := h order horder
      exact ⟨a', _, .commit horder hcommit⟩
  | request request => exact ⟨a, _, .request⟩
  | inbox msg =>
      cases msg with
      | state peerId state =>
          obtain ⟨order, horder⟩ := Enumerates.exists_entries state.offsets
          exact ⟨_, _, .state horder⟩
      | nodes nodes =>
          have horder : (nodes.toList : Multiset PeerId) = nodes.val := Finset.coe_toList nodes
          exact ⟨a, _, .nodes horder (h _ horder)⟩
      | newTransaction tx =>
          obtain ⟨rangeMap, hmap, hhandle⟩ := h
          obtain ⟨order, horder⟩ := Enumerates.exists_entries rangeMap
          obtain ⟨fuel, a', hok⟩ := hhandle order horder
          exact ⟨a', _, .newTransaction hmap horder hok⟩
      | requestMissingTxs peerId intervals =>
          obtain ⟨fuel, out, hok⟩ := h
          exact ⟨a, _, .requestMissingTxs hok⟩
      | missingTx txs =>
          obtain ⟨rangeMap, hmap, hhandle⟩ := h
          obtain ⟨order, horder⟩ := Enumerates.exists_entries rangeMap
          obtain ⟨fuel, a', hok⟩ := hhandle order horder
          exact ⟨a', _, .missingTx hmap horder hok⟩

theorem Returns.not_panics (h : Returns sha256 a event)
    (hacc : ∀ id ∈ a.transactions, Accepted id) (reason : Panic) :
    ¬ Panics sha256 a event reason := by
  intro hp
  cases hp with
  | recalculate horder hrec =>
      obtain ⟨consensusOffset, hok⟩ := recalculateConsensusOffsets_total horder
      rw [hok] at hrec
      cases hrec
  | delays horder hrec horder' hdelays =>
      obtain ⟨consensusOffset, -, rfl⟩ := recalculateConsensusOffsets_ok hrec
      obtain ⟨-, fuel, delays, -, hok⟩ := h _ _ horder horder'
      exact (selfDelays_settles _ _ _).not_panic_of_ok hok hdelays
  | commit horder hcommit =>
      obtain ⟨fuel, a', hok⟩ := h _ horder
      exact (commitEpochIfNeeded_settles _ _ _).not_panic_of_ok hok hcommit
  | nodes horder hhandle =>
      rw [h _ horder] at hhandle
      cases hhandle
  | newTransactionRange hmap =>
      obtain ⟨rangeMap, hok, -⟩ := h
      rw [hok] at hmap
      cases hmap
  | newTransaction hmap horder hhandle =>
      obtain ⟨rangeMap, hok, hreturns⟩ := h
      obtain rfl := ok.inj (hok.symm.trans hmap)
      obtain ⟨fuel, a', hok⟩ := hreturns _ horder
      exact (handleNewTransaction_settles a _).not_panic_of_ok hok hhandle
  | missingTxRange hmap =>
      obtain ⟨rangeMap, hok, -⟩ := h
      rw [hok] at hmap
      cases hmap
  | missingTx hmap horder hhandle =>
      obtain ⟨rangeMap, hok, hreturns⟩ := h
      obtain rfl := ok.inj (hok.symm.trans hmap)
      obtain ⟨fuel, a', hok⟩ := hreturns _ horder
      exact (handleMissingTx_settles a _).not_panic_of_ok hok hhandle
  | requestMissingTxs hhandle =>
      obtain ⟨fuel, out, hok⟩ := h
      exact answer_not_panic hacc hok hhandle

/-- What the application has to know of an event before it can handle it. -/
def Admits (a : App PeerId LogLineriazer) : Event PeerId → Prop
  | .inbox (.nodes nodes) => a.peerId ∈ nodes
  | .inbox (.newTransaction tx) => Accepted tx.id
  | .inbox (.missingTx txs) => ∀ tx ∈ txs, Accepted tx.id
  | .inbox (.requestMissingTxs _ intervals) => (∀ i ∈ intervals, i.left ≤ i.right) ∧
      (∀ i ∈ intervals, Accepted i.right) ∧ a.HoldsAll intervals ∧
      (intervals.flatMap U64BlobIdClosedInterval.ids).Nodup
  | _ => True

theorem Valid.returns (hv : a.Valid)
    (hcommited : ∀ {r c}, a.commitedOffsets.lookup r = some c → Advertisable r c)
    (h : a.Admits event) : Returns sha256 a event := by
  cases event with
  | advertiseTick =>
      intro order order' horder horder'
      have hahead : AheadScannable a.selfOffsets a.offsets := by
        intro r p v hv' _
        have hadv := hv.recorded hv'
        have hlt := hadv.lt
        refine ⟨hadv.idOf_lt, ?_⟩
        simp only [singleBlobSize, u64Bound] at *
        omega
      obtain ⟨consensusOffset, n, delays, hrec, hdelays⟩ :=
        advertiseReturns hahead order order' horder horder'
      exact ⟨consensusOffset, n, delays, hrec, hdelays n le_rfl⟩
  | commitTick =>
      intro order horder
      obtain ⟨a', hok⟩ := commit_total hv hcommited horder
      exact ⟨_, a', hok _ (Nat.lt_succ_self _)⟩
  | request request => trivial
  | inbox msg =>
      cases msg with
      | state peerId state => trivial
      | nodes nodes =>
          intro order horder
          obtain ⟨position, hok⟩ := P2P.recalculateOrder_returns h horder
          exact bind_eq_ok.mpr ⟨position, hok, rfl⟩
      | newTransaction tx =>
          have hacc : Accepted tx.id := h
          have hone : ∀ tx' ∈ [tx], Accepted tx'.id := by simpa using hacc
          obtain ⟨rangeMap, hmap, hbatch⟩ := batch_returns hv.store hone
          refine ⟨rangeMap, hmap, fun order horder => ?_⟩
          obtain ⟨after, hafter⟩ := hbatch order horder
          obtain ⟨a', hok⟩ := handleNewTransaction_of_updated hafter
          exact ⟨_, a', hok⟩
      | requestMissingTxs peerId intervals =>
          obtain ⟨hle, hacc, hheld, hnodup⟩ := h
          have hlt : ∀ i ∈ intervals, i.right + 1 < u64Bound := fun i hi => (hacc i hi).lt
          have hfuel : ∀ i ∈ intervals, i.right + 1 - i.left < u64Bound := fun i hi =>
            (Nat.sub_le _ _).trans_lt (hlt i hi)
          exact ⟨_, _, handleRequestMissingTxs_total peerId hle hlt
            (LogLineriazer.ids_length_lt hnodup hlt) hheld hfuel⟩
      | missingTx txs =>
          obtain ⟨rangeMap, hmap, hbatch⟩ := batch_returns hv.store h
          refine ⟨rangeMap, hmap, fun order horder => ?_⟩
          obtain ⟨after, hafter⟩ := hbatch order horder
          exact ⟨_, _, bind_eq_ok.mpr ⟨after, hafter, rfl⟩⟩

end App

end Maroon
