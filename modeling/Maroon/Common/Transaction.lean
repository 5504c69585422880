import Mathlib.Data.Nat.Notation

/-!
# Transactions
-/

namespace Maroon

inductive TxStatus where
  | created
  | pending
  | confirmed
  | finished
  | rejected
deriving DecidableEq, Repr

structure Transaction where
  id : Nat
  status : TxStatus
deriving DecidableEq, Repr

end Maroon
