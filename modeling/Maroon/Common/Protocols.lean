import Maroon.Common.RangeKey
import Maroon.Common.Transaction

/-!
# The request and response protocols

Three protocols run between two connected peers.  Gateways and nodes tell each
other their role (`meta_exchange`), a gateway hands a transaction to a node
(`gm_request_response`), and nodes ask each other for transactions they miss
(`m2m_request_response`).  An event of such a protocol is a message, or one of
the failures and confirmations that no handler looks at.
-/

namespace Maroon

/-- A message of a protocol.  A request comes with the channel for its
response. -/
inductive RequestResponseMessage (Req Res Channel : Type) where
  | request (request : Req) (channel : Channel)
  | response (response : Res)

inductive RequestResponseEvent (PeerId Req Res Channel : Type) where
  | message (peer : PeerId) (message : RequestResponseMessage Req Res Channel)
  | other

namespace MetaExchange

inductive Role where
  | gateway
  | node
deriving DecidableEq, Repr

structure Request where
  role : Role
deriving DecidableEq, Repr

structure Response where
  role : Role
deriving DecidableEq, Repr

abbrev Message (Channel : Type) := RequestResponseMessage Request Response Channel

abbrev Event (PeerId Channel : Type) := RequestResponseEvent PeerId Request Response Channel

/-- Both a request and a response say what their sender is. -/
def senderRole {Channel : Type} : Message Channel → Role
  | .request request _ => request.role
  | .response response => response.role

end MetaExchange

namespace GmRequestResponse

inductive Request where
  | newTransaction (tx : Transaction)
deriving DecidableEq, Repr

inductive Response where
  | acknowledged
  | rejected
deriving DecidableEq, Repr

abbrev Event (PeerId Channel : Type) := RequestResponseEvent PeerId Request Response Channel

end GmRequestResponse

namespace M2mRequestResponse

inductive Request where
  | getMissingTx (ranges : List U64BlobIdClosedInterval)
  | missingTx (txs : List Transaction)

inductive Response where
  | ack

abbrev Event (PeerId Channel : Type) := RequestResponseEvent PeerId Request Response Channel

end M2mRequestResponse

end Maroon
