import Mathlib.Data.PNat.Defs
import Maroon.Lib.HashMap

/-!
# Requests to the application and its parameters
-/

namespace Maroon

open Lib

inductive Request where
  | getState

structure CurrentOffsets where
  selfOffsets : HashMap Nat Nat
  consensusOffset : HashMap Nat Nat

inductive Response where
  | state (offsets : CurrentOffsets)

/-- The parameters that decide what a step does.  The periods of the two
tickers only decide when a tick comes, and a tick may come at any time here. -/
structure Params where
  /-- minimum amount of nodes that should have the same transactions(+ current
  one) in order to confirm them -/
  consensusNodes : ℕ+

namespace Params

protected def default : Params where
  consensusNodes := 2

end Params

end Maroon
