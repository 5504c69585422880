import Mathlib.Data.Nat.Notation
import Maroon.Lib.Handles

/-!
# Swarm events and open connections

A swarm reports what its behaviours received and which connections were opened
and closed.  It reports a connection under an id that no other open connection
to the peer has, and it reports once that the connection closed (`Reported`).
Two peers that dial each other have two connections at the same time.

`connectionsAfter` keeps the connections that are open by these reports.  No
handler reads it.  It is what the sets of the handlers are compared with.
-/

namespace Maroon

open Lib

abbrev ConnectionId := ℕ

/-- `B` is what the behaviours of the swarm emit. -/
inductive SwarmEvent (PeerId B : Type) where
  | behaviour (event : B)
  | connectionEstablished (peerId : PeerId) (connectionId : ConnectionId)
  | connectionClosed (peerId : PeerId) (connectionId : ConnectionId)
  | outgoingConnectionError (peerId : Option PeerId) (connectionId : ConnectionId)
  | other

abbrev Connections (PeerId : Type) := Finset (PeerId × ConnectionId)

variable {PeerId B : Type} [DecidableEq PeerId]

/-- The connections that are open after an event. -/
def connectionsAfter (connections : Connections PeerId) :
    SwarmEvent PeerId B → Connections PeerId
  | .connectionEstablished peerId connectionId => insert (peerId, connectionId) connections
  | .connectionClosed peerId connectionId => connections.erase (peerId, connectionId)
  | _ => connections

/-- What a swarm promises about its reports. -/
def Reported (connections : Connections PeerId) : SwarmEvent PeerId B → Prop
  | .connectionEstablished peerId connectionId => (peerId, connectionId) ∉ connections
  | .connectionClosed peerId connectionId => (peerId, connectionId) ∈ connections
  | _ => True

/-- The peers with at least one open connection. -/
abbrev connectedPeers (connections : Connections PeerId) : Finset PeerId := holders connections

end Maroon
