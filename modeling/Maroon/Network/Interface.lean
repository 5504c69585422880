import Mathlib.Data.Finset.Basic
import Maroon.Common.RangeKey
import Maroon.Common.Transaction
import Maroon.Lib.HashMap

/-!
# Messages between the application and the network layer
-/

namespace Maroon

open Lib

/-- What a node tells the others about itself. -/
structure NodeState where
  offsets : HashMap Nat Nat

/-- Input for the network layer. -/
inductive Outbox (PeerId : Type) where
  | state (state : NodeState)
  | requestMissingTxs (peerId : PeerId) (intervals : List U64BlobIdClosedInterval)
  | requestedTxsForPeer (peerId : PeerId) (txs : List Transaction)

/-- Output of the network layer. -/
inductive Inbox (PeerId : Type) where
  | state (peerId : PeerId) (state : NodeState)
  | nodes (nodes : Finset PeerId)
  | newTransaction (tx : Transaction)
  | requestMissingTxs (peerId : PeerId) (intervals : List U64BlobIdClosedInterval)
  | missingTx (txs : List Transaction)

end Maroon
