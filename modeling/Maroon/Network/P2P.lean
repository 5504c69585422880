import Maroon.App.App
import Maroon.Common.Connections
import Maroon.Common.Protocols
import Maroon.Lib.Run

/-!
# The network layer of a node

`P2P::start_event_loop` waits for a message of the application or for an event
of the swarm and runs one handler.  `P2P.Event` says which of the two came.
A handler changes the two sets of alive peers, and what it does beside that is
a list of actions in the order of the source.  Logging is left out, and sending
to the application is taken to succeed.

Gossip messages travel as bytes.  `GossipJson` stands for the two functions
that encode and decode them.
-/

namespace Maroon

open Lib

/-! ## Messages -/

/-- This is the only information that nodes gossip to each other. -/
inductive GossipPayload where
  | state (state : NodeState)

structure GossipMessage (PeerId : Type) where
  peerId : PeerId
  payload : GossipPayload

/-- The encoding of gossip messages. -/
structure GossipJson (PeerId Bytes : Type) where
  toVec : GossipMessage PeerId → Option Bytes
  fromSlice : Bytes → Option (GossipMessage PeerId)

/-- What the behaviours of a node emit. -/
inductive MaroonEvent (PeerId Bytes Channel : Type) where
  | ping
  /-- A message that another peer gossiped. -/
  | gossipsub (data : Bytes)
  /-- Any other event of the gossip protocol. -/
  | gossipsubOther
  | requestResponse (event : GmRequestResponse.Event PeerId Channel)
  | metaExchange (event : MetaExchange.Event PeerId Channel)
  | m2mReqRes (event : M2mRequestResponse.Event PeerId Channel)

namespace P2P

/-- What the event loop can wake up for. -/
inductive Event (PeerId Bytes Channel : Type) where
  | outbox (msg : Outbox PeerId)
  | swarm (event : SwarmEvent PeerId (MaroonEvent PeerId Bytes Channel))

/-- What a handler asks of the application or of a behaviour of the swarm. -/
inductive Action (PeerId Bytes Channel : Type) where
  | toApp (msg : Inbox PeerId)
  | publish (data : Bytes)
  | metaExchangeRequest (peerId : PeerId) (request : MetaExchange.Request)
  | metaExchangeResponse (channel : Channel) (response : MetaExchange.Response)
  | gmResponse (channel : Channel) (response : GmRequestResponse.Response)
  | m2mRequest (peerId : PeerId) (request : M2mRequestResponse.Request)
  | m2mResponse (channel : Channel) (response : M2mRequestResponse.Response)

end P2P

/-- The sets that the event loop keeps, with the id of the node. -/
structure P2P (PeerId : Type) where
  peerId : PeerId
  alivePeerIds : Finset PeerId
  aliveGatewayIds : Finset PeerId

namespace P2P

variable {PeerId Bytes Channel : Type}

/-- The sets when the event loop starts. -/
def start (peerId : PeerId) : P2P PeerId where
  peerId
  alivePeerIds := {peerId}
  aliveGatewayIds := ∅

/-! ## Handlers -/

def handleReceiverOutbox (json : GossipJson PeerId Bytes) (peerId : PeerId) :
    Outbox PeerId → List (Action PeerId Bytes Channel)
  | .state state =>
      match json.toVec { peerId, payload := .state state } with
      | some bytes => [.publish bytes]
      | none => []
  | .requestMissingTxs peerId ranges => [.m2mRequest peerId (.getMissingTx ranges)]
  | .requestedTxsForPeer peerId missingTxs => [.m2mRequest peerId (.missingTx missingTxs)]

def handleM2mReqRes : M2mRequestResponse.Event PeerId Channel →
    List (Action PeerId Bytes Channel)
  | .message peer (.request (.getMissingTx ranges) channel) =>
      [.toApp (.requestMissingTxs peer ranges), .m2mResponse channel .ack]
  | .message _ (.request (.missingTx missingTxs) channel) =>
      [.toApp (.missingTx missingTxs), .m2mResponse channel .ack]
  | _ => []

def handleRequestResponse : GmRequestResponse.Event PeerId Channel →
    List (Action PeerId Bytes Channel)
  | .message _ (.request (.newTransaction tx) channel) =>
      [.toApp (.newTransaction tx), .gmResponse channel .acknowledged]
  | _ => []

variable [DecidableEq PeerId]

/-- The closure of `handle_meta_exchange`. -/
def insertByRole (self : P2P PeerId) (peer : PeerId) :
    MetaExchange.Role → P2P PeerId × List (Action PeerId Bytes Channel)
  | .gateway => ({ self with aliveGatewayIds := insert peer self.aliveGatewayIds }, [])
  | .node =>
      let alivePeerIds := insert peer self.alivePeerIds
      ({ self with alivePeerIds }, [.toApp (.nodes alivePeerIds)])

def handleMetaExchange (self : P2P PeerId) : MetaExchange.Event PeerId Channel →
    P2P PeerId × List (Action PeerId Bytes Channel)
  | .message peer (.response response) => self.insertByRole peer response.role
  | .message peer (.request request channel) =>
      let (self', actions) := self.insertByRole peer request.role
      (self', .metaExchangeResponse channel { role := .node } :: actions)
  | .other => (self, [])

def handleSwarmEvent (json : GossipJson PeerId Bytes) (self : P2P PeerId) :
    SwarmEvent PeerId (MaroonEvent PeerId Bytes Channel) →
      P2P PeerId × List (Action PeerId Bytes Channel)
  | .behaviour (.gossipsub data) =>
      match json.fromSlice data with
      | some { peerId, payload := .state state } => (self, [.toApp (.state peerId state)])
      | none => (self, [])
  | .behaviour (.metaExchange event) => self.handleMetaExchange event
  | .behaviour .ping => (self, [])
  | .behaviour (.requestResponse event) => (self, handleRequestResponse event)
  | .behaviour (.m2mReqRes event) => (self, handleM2mReqRes event)
  | .connectionEstablished peerId _ =>
      (self, [.metaExchangeRequest peerId { role := .node }])
  | .connectionClosed peerId _ =>
      let aliveGatewayIds := self.aliveGatewayIds.erase peerId
      if peerId ∈ self.alivePeerIds then
        let alivePeerIds := self.alivePeerIds.erase peerId
        ({ self with alivePeerIds, aliveGatewayIds }, [.toApp (.nodes alivePeerIds)])
      else
        ({ self with aliveGatewayIds }, [])
  | .outgoingConnectionError _ _ => (self, [])
  | _ => (self, [])

/-- One round of the event loop. -/
def round (json : GossipJson PeerId Bytes) (self : P2P PeerId) :
    Event PeerId Bytes Channel → P2P PeerId × List (Action PeerId Bytes Channel)
  | .outbox msg => (self, handleReceiverOutbox json self.peerId msg)
  | .swarm event => self.handleSwarmEvent json event

end P2P

end Maroon
