import Mathlib.Data.Finset.Sort
import Maroon.App.Interface
import Maroon.Lib.Quorum
import Maroon.Linearizer
import Maroon.Network.Interface

/-!
# The application of a node

The state of a node and its handlers, in the order of the source.  A loop over
a hash map takes the entries as a list, in the order the loop visits them.  A
`while` loop takes its fuel.  `OffsetUpdate` is the state of the two maps that
`update_self_offsets` borrows, with the updates it has collected.

`handle_inbox_message` has one function for each branch here.  They are put
together again by the step relation.
-/

namespace Maroon

open Lib Outcome

structure App (PeerId L : Type) where
  params : Params
  peerId : PeerId
  /-- offsets for the current node -/
  selfOffsets : HashMap Nat Nat
  /-- offsets for all the nodes this one knows about(+ itself) -/
  offsets : HashMap Nat (HashMap PeerId Nat)
  /-- consensus offset that is collected from currently running nodes -/
  consensusOffset : HashMap Nat Nat
  /-- describes which offsets have been already commited and => where the
  current epoch starts; can be recalculated from `epochs` -/
  commitedOffsets : HashMap Nat Nat
  /-- all epochs -/
  epochs : List Epoch
  transactions : HashMap Nat Transaction
  linearizer : L

variable {PeerId L : Type}

def App.new (peerId : PeerId) (params : Params) : App PeerId LogLineriazer where
  params
  peerId
  selfOffsets := ∅
  offsets := ∅
  consensusOffset := ∅
  commitedOffsets := ∅
  epochs := []
  transactions := ∅
  linearizer := LogLineriazer.new

/-! ## Consensus offsets -/

/-- returns maximum offset among peers keeping in mind the `n_consensus` -/
def consensusMaximum (map : List (PeerId × Nat)) (nConsensus : ℕ+) :
    Outcome Panic (Option Nat) :=
  let n : Nat := nConsensus
  if map.length < n then pure none
  else
    let refs := descending (map.map Prod.snd)
    match refs[n - 1]? with
    | some max => pure (some max)
    | none => .panic .indexOutOfBounds

/-- One round of the loop over the ranges. -/
def recalculateRange (nConsensus : ℕ+) (consensusOffset : HashMap Nat Nat)
    (entry : Nat × List (PeerId × Nat)) : Outcome Panic (HashMap Nat Nat) := do
  let (k, v) := entry
  match ← consensusMaximum v nConsensus with
  | some max => pure (consensusOffset.insert k max)
  | none => pure consensusOffset

def App.recalculateConsensusOffsets (self : App PeerId L)
    (offsets : List (Nat × List (PeerId × Nat))) : Outcome Panic (App PeerId L) := do
  let consensusOffset ←
    offsets.foldlM (recalculateRange self.params.consensusNodes) self.consensusOffset
  pure { self with consensusOffset }

/-! ## Received transactions -/

/-- moves offset pointer for a particular peerID(node) -/
def moveOffsetPointer [DecidableEq PeerId] (offsets : HashMap Nat (HashMap PeerId Nat))
    (peerId : PeerId) (newRange newOffset : Nat) : HashMap Nat (HashMap PeerId Nat) :=
  match offsets.lookup newRange with
  | none => offsets.insert newRange ((∅ : HashMap PeerId Nat).insert peerId newOffset)
  | some mutRange => offsets.insert newRange (mutRange.insert peerId newOffset)

/-- One round of the loop that groups a batch. -/
def addToRangeMap (rangeMap : HashMap Nat (List Transaction)) (tx : Transaction) :
    Outcome Panic (HashMap Nat (List Transaction)) := do
  let range ← rangeFromUniqueBlobId tx.id
  match rangeMap.lookup range with
  | some bucket => pure (rangeMap.insert range (bucket ++ [tx]))
  | none => pure (rangeMap.insert range [tx])

def txsToRangeTxMap (txs : List Transaction) :
    Outcome Panic (HashMap Nat (List Transaction)) :=
  txs.foldlM addToRangeMap ∅

structure OffsetUpdate where
  selfOffsets : HashMap Nat Nat
  transactions : HashMap Nat Transaction
  updates : List (Nat × Nat)

/-- One round of the inner loop.  The flag is `has_0_tx`. -/
def insertTx (self : HashMap Nat Transaction × Bool) (tx : Transaction) :
    Outcome Panic (HashMap Nat Transaction × Bool) := do
  let (_, offset) ← rangeOffsetFromUniqueBlobId tx.id
  pure (self.1.insert tx.id tx, self.2 || offset == 0)

/-- The inner loop over the transactions of one range. -/
def insertTxs (transactions : HashMap Nat Transaction) (txs : List Transaction) :
    Outcome Panic (HashMap Nat Transaction × Bool) :=
  txs.foldlM insertTx (transactions, false)

/-- The `while` loop that moves `key` on to the last id held without a gap. -/
def scanForward (fuel : Nat) (transactions : HashMap Nat Transaction) (key : Nat) :
    Outcome Panic Nat :=
  whileLoop
    (fun key => do
      let next ← u64Add key 1
      pure (decide (next ∈ transactions)))
    (fun key => u64Add key 1)
    fuel key

/-- The end of a round: scan from `start` and record the offset reached. -/
def advanceOffset (fuel : Nat) (self : OffsetUpdate) (range start : Nat) :
    Outcome Panic OffsetUpdate := do
  let key ← uniqueBlobIdFromRangeAndOffset range start
  let key ← scanForward fuel self.transactions key
  let (_, newOffset) ← rangeOffsetFromUniqueBlobId key
  pure { self with
    selfOffsets := self.selfOffsets.insert range newOffset
    updates := self.updates ++ [(range, newOffset)] }

/-- One round of the outer loop. -/
def updateRange (fuel : Nat) (self : OffsetUpdate) (entry : Nat × List Transaction) :
    Outcome Panic OffsetUpdate := do
  let (range, txs) := entry
  let (transactions, has0Tx) ← insertTxs self.transactions txs
  let self := { self with transactions }
  match self.selfOffsets.lookup range with
  | some existingOffset => advanceOffset fuel self range existingOffset
  | none =>
      if has0Tx then
        advanceOffset fuel { self with selfOffsets := self.selfOffsets.insert range 0 } range 0
      else
        pure self

/-- inserts transactions, updates self_offset pointers if should
returns changed offsets if there are any -/
def updateSelfOffsets (fuel : Nat) (selfOffsets : HashMap Nat Nat)
    (transactions : HashMap Nat Transaction)
    (rangeTransactions : List (Nat × List Transaction)) : Outcome Panic OffsetUpdate :=
  rangeTransactions.foldlM (updateRange fuel) ⟨selfOffsets, transactions, []⟩

/-- wrapper around `update_self_offsets` -/
def updateSelfOffset (fuel : Nat) (selfOffsets : HashMap Nat Nat)
    (transactions : HashMap Nat Transaction)
    (rangeTransactions : List (Nat × List Transaction)) :
    Outcome Panic (OffsetUpdate × Option (Nat × Nat)) := do
  let self ← updateSelfOffsets fuel selfOffsets transactions rangeTransactions
  if self.updates.length == 0 then pure (self, none)
  else pure (self, self.updates.getLast?)

/-! ## Missing transactions -/

/-- `iter().max_by_key(|(_peer, v)| **v)`: of several maxima, the last one. -/
def maxByKey : List (PeerId × Nat) → Option (PeerId × Nat)
  | [] => none
  | entry :: entries => some (entries.foldl (fun best e => if best.2 ≤ e.2 then e else best) entry)

/-- The state of the scan in `self_delays`. -/
structure GapScan where
  pointer : Nat
  leftBorder : Nat
  newIntervals : List U64BlobIdClosedInterval

/-- Close the gap that ends before `pointer`. -/
def GapScan.push (self : GapScan) (range : Nat) : Outcome Panic GapScan := do
  let right ← u64Sub self.pointer 1
  let interval ←
    U64BlobIdClosedInterval.newFromRangeAndOffsets range self.leftBorder right
  pure { self with newIntervals := self.newIntervals ++ [interval] }

/-- One round of the scan over the offsets of a range. -/
def GapScan.round (transactions : HashMap Nat Transaction) (range : Nat) (self : GapScan) :
    Outcome Panic GapScan := do
  let id ← uniqueBlobIdFromRangeAndOffset range self.pointer
  if id ∈ transactions then
    let self ← if self.leftBorder < self.pointer then self.push range else pure self
    let pointer ← u64Add self.pointer 1
    pure { self with pointer, leftBorder := pointer }
  else
    let pointer ← u64Add self.pointer 1
    pure { self with pointer }

/-- The intervals of a range that are missing between the two borders. -/
def missingIntervals (fuel : Nat) (transactions : HashMap Nat Transaction)
    (range leftBorder rightBorder : Nat) : Outcome Panic (List U64BlobIdClosedInterval) := do
  let scan ← whileLoop (fun (scan : GapScan) => pure (decide (scan.pointer ≤ rightBorder)))
    (GapScan.round transactions range) fuel ⟨leftBorder, leftBorder, []⟩
  let scan ← if scan.pointer ≠ scan.leftBorder then scan.push range else pure scan
  pure scan.newIntervals

/-- One round of the loop over the ranges. -/
def delaysOfRange [DecidableEq PeerId] (fuel : Nat) (transactions : HashMap Nat Transaction)
    (selfOffsets : HashMap Nat Nat)
    (result : HashMap PeerId (List U64BlobIdClosedInterval))
    (entry : Nat × List (PeerId × Nat)) :
    Outcome Panic (HashMap PeerId (List U64BlobIdClosedInterval)) := do
  let (range, nodes) := entry
  match maxByKey nodes with
  | none => pure result
  | some (peerId, rightBorder) =>
      let current := selfOffsets.lookup range
      if current.any fun current => current ≥ rightBorder then pure result
      else
        let leftBorder ← match current with
          | some current => u64Add current 1
          | none => pure 0
        let newIntervals ← missingIntervals fuel transactions range leftBorder rightBorder
        match result.lookup peerId with
        | some ranges => pure (result.insert peerId (ranges ++ newIntervals))
        | none => pure (result.insert peerId newIntervals)

/-- calculates delays that current node (self_delays) has compare to other
nodes `offsets`
also uses transactions in order to reduce amount of requested transactions -/
def selfDelays [DecidableEq PeerId] (fuel : Nat) (transactions : HashMap Nat Transaction)
    (selfOffsets : HashMap Nat Nat) (offsets : List (Nat × List (PeerId × Nat))) :
    Outcome Panic (HashMap PeerId (List U64BlobIdClosedInterval)) :=
  offsets.foldlM (delaysOfRange fuel transactions selfOffsets) ∅

/-! ## Epochs -/

/-- One round of the loop over the ranges. -/
def incrementRange (commitedOffsets : HashMap Nat Nat)
    (increments : List U64BlobIdClosedInterval) (entry : Nat × Nat) :
    Outcome Panic (List U64BlobIdClosedInterval) := do
  let (range, offset) := entry
  let start ← match commitedOffsets.lookup range with
    | some prev => u64Add prev 1
    | none => pure 0
  if start ≥ offset then pure increments
  else
    let interval ← U64BlobIdClosedInterval.newFromRangeAndOffsets range start offset
    pure (increments ++ [interval])

def calculateEpochIncrements (consensusOffset : List (Nat × Nat))
    (commitedOffsets : HashMap Nat Nat) : Outcome Panic (List U64BlobIdClosedInterval) :=
  consensusOffset.foldlM (incrementRange commitedOffsets) []

/-- One round of the loop that moves the commited offsets. -/
def commitInterval (commitedOffsets : HashMap Nat Nat) (interval : U64BlobIdClosedInterval) :
    Outcome Panic (HashMap Nat Nat) := do
  let (range, newOffset) ← rangeOffsetFromUniqueBlobId interval.endId
  pure (commitedOffsets.insert range newOffset)

def App.commitEpochIfNeeded [Linearizer L] (sha256 : Sha256) (fuel : Nat)
    (self : App PeerId L) (consensusOffset : List (Nat × Nat)) :
    Outcome Panic (App PeerId L) := do
  let increments ← calculateEpochIncrements consensusOffset self.commitedOffsets
  let prevHash := self.epochs.getLast?.map Epoch.hash
  let newEpoch := Epoch.new sha256 increments prevHash
  let linearizer ← Linearizer.newEpoch fuel self.linearizer newEpoch
  let commitedOffsets ← newEpoch.increments.foldlM commitInterval self.commitedOffsets
  pure { self with linearizer, commitedOffsets, epochs := self.epochs ++ [newEpoch] }

/-! ## Messages -/

/-- The position of the node among the others.  The source only logs it. -/
def recalculateOrder [LinearOrder PeerId] (selfId : PeerId) (ids : List PeerId) :
    Outcome Panic Nat :=
  let peerIds := ids.insertionSort (· ≤ ·)
  match peerIds.findIdx? (· = selfId) with
  | some delayFactor => pure delayFactor
  | none => .panic .selfPeerIdMissing

namespace App

/-- One entry of a `State` message. -/
def recordState [DecidableEq PeerId] (offsets : HashMap Nat (HashMap PeerId Nat))
    (peerId : PeerId) (k v : Nat) : HashMap Nat (HashMap PeerId Nat) :=
  match offsets.lookup k with
  | some inMap => offsets.insert k (inMap.insert peerId v)
  | none => offsets.insert k ((∅ : HashMap PeerId Nat).insert peerId v)

/-- The `State` branch. -/
def handleState [DecidableEq PeerId] (self : App PeerId L) (peerId : PeerId)
    (state : List (Nat × Nat)) : App PeerId L :=
  { self with
    offsets := state.foldl (fun offsets (k, v) => recordState offsets peerId k v) self.offsets }

/-- The `Nodes` branch. -/
def handleNodes [LinearOrder PeerId] (self : App PeerId L) (nodes : List PeerId) :
    Outcome Panic (App PeerId L) := do
  let _ ← recalculateOrder self.peerId nodes
  pure self

/-- The `NewTransaction` branch, given the entries of the one-element batch. -/
def handleNewTransaction [DecidableEq PeerId] (fuel : Nat) (self : App PeerId L)
    (rangeTransactions : List (Nat × List Transaction)) : Outcome Panic (App PeerId L) := do
  let (update, last) ←
    updateSelfOffset fuel self.selfOffsets self.transactions rangeTransactions
  let self := { self with
    selfOffsets := update.selfOffsets, transactions := update.transactions }
  match last with
  | some (newRange, newOffset) =>
      pure { self with
        offsets := moveOffsetPointer self.offsets self.peerId newRange newOffset }
  | none => pure self

/-- The `MissingTx` branch, given the entries of the batch by range. -/
def handleMissingTx [DecidableEq PeerId] (fuel : Nat) (self : App PeerId L)
    (rangeTransactions : List (Nat × List Transaction)) : Outcome Panic (App PeerId L) := do
  let update ← updateSelfOffsets fuel self.selfOffsets self.transactions rangeTransactions
  pure { self with
    selfOffsets := update.selfOffsets
    transactions := update.transactions
    offsets := update.updates.foldl
      (fun offsets (newRange, newOffset) =>
        moveOffsetPointer offsets self.peerId newRange newOffset) self.offsets }

/-- One round of the `while` loop that answers an interval.  The state is the
pointer and the response so far. -/
def answerRound (self : App PeerId L) (state : Nat × List Transaction) :
    Outcome Panic (Nat × List Transaction) :=
  let (pointer, response) := state
  match self.transactions.lookup pointer with
  -- `continue` goes back to the test with the pointer where it was
  | none => pure (pointer, response)
  | some tx => do
      let next ← u64Add pointer 1
      pure (next, response ++ [tx])

/-- The `while` loop that answers one interval. -/
def answerInterval (fuel : Nat) (self : App PeerId L) (response : List Transaction)
    (interval : U64BlobIdClosedInterval) : Outcome Panic (List Transaction) := do
  let (_, response) ← whileLoop (fun (pointer, _) => pure (decide (pointer ≤ interval.endId)))
    self.answerRound fuel (interval.startId, response)
  pure response

/-- The `RequestMissingTxs` branch.  It does not write to the state. -/
def handleRequestMissingTxs (fuel : Nat) (self : App PeerId L) (peerId : PeerId)
    (intervals : List U64BlobIdClosedInterval) : Outcome Panic (Outbox PeerId) := do
  -- the capacity of the answer; `Overallocates` is when there is no such vector
  let _ ← intervals.foldlM (fun capacity interval => do
    let count ← interval.idsCount
    u64Add capacity count) 0
  let response ← intervals.foldlM (self.answerInterval fuel) []
  pure (.requestedTxsForPeer peerId response)

def handleRequest (self : App PeerId L) : Request → Response
  | .getState => .state
      { selfOffsets := self.selfOffsets, consensusOffset := self.consensusOffset }

end App

end Maroon
