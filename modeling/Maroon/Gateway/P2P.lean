import Maroon.Common.Connections
import Maroon.Common.Protocols
import Maroon.Lib.Run

/-!
# The network layer of a gateway

The gateway keeps the set of peers it is connected to, and every request that it
takes from its channel goes to each of them.  A request is modelled with the
order in which the loop goes through the set.

`Session` adds the open connections to the set of the gateway.  The set is meant
to be the set of connected peers (`Session.Right`), and then a request goes to
each connected peer once (`Session.Right.broadcasts`).  The set is updated by
connection and used by peer.  It stays right in exactly the runs where a
connection that closes is the only one to its peer (`broadcasts_iff_closesOnly`).
-/

namespace Maroon

open Lib

namespace Gateway

/-- What the behaviours of a gateway emit. -/
inductive GatewayEvent (PeerId Channel : Type) where
  | ping
  | requestResponse (event : GmRequestResponse.Event PeerId Channel)
  | metaExchange (event : MetaExchange.Event PeerId Channel)

/-- What the event loop can wake up for. -/
inductive Event (PeerId Channel : Type) where
  | request (request : GmRequestResponse.Request) (order : List PeerId)
  | swarm (event : SwarmEvent PeerId (GatewayEvent PeerId Channel))

/-- What a round asks of the owner of the gateway or of a behaviour. -/
inductive Action (PeerId Channel : Type) where
  | toOwner (response : GmRequestResponse.Response)
  | gmRequest (peerId : PeerId) (request : GmRequestResponse.Request)
  | metaExchangeResponse (channel : Channel) (response : MetaExchange.Response)

/-- The set that the event loop keeps. -/
structure P2P (PeerId : Type) where
  maroonPeerIds : Finset PeerId

namespace P2P

variable {PeerId Channel : Type} [DecidableEq PeerId]

def start : P2P PeerId where
  maroonPeerIds := ∅

def handleSwarmEvent (self : P2P PeerId) : SwarmEvent PeerId (GatewayEvent PeerId Channel) →
    P2P PeerId × List (Action PeerId Channel)
  | .behaviour (.requestResponse (.message _ (.response response))) => (self, [.toOwner response])
  | .behaviour (.requestResponse _) => (self, [])
  | .behaviour (.metaExchange (.message _ (.request _ channel))) =>
      (self, [.metaExchangeResponse channel { role := .gateway }])
  | .behaviour (.metaExchange _) => (self, [])
  | .behaviour .ping => (self, [])
  | .connectionEstablished peerId _ =>
      ({ self with maroonPeerIds := insert peerId self.maroonPeerIds }, [])
  | .connectionClosed peerId _ =>
      ({ self with maroonPeerIds := self.maroonPeerIds.erase peerId }, [])
  | .outgoingConnectionError _ _ => (self, [])
  | .other => (self, [])

/-- One round of the event loop. -/
def round (self : P2P PeerId) : Event PeerId Channel → P2P PeerId × List (Action PeerId Channel)
  | .request request order => (self, order.map fun peerId => .gmRequest peerId request)
  | .swarm event => self.handleSwarmEvent event

end P2P

/-! ## Sessions -/

/-- The network layer of a gateway together with the connections that are open. -/
structure Session (PeerId : Type) where
  p2p : P2P PeerId
  connections : Connections PeerId

namespace Session

variable {PeerId Channel : Type} [DecidableEq PeerId]

def start : Session PeerId where
  p2p := P2P.start
  connections := ∅

def step (s : Session PeerId) (event : Event PeerId Channel) : Session PeerId where
  p2p := (s.p2p.round event).1
  connections :=
    match event with
    | .request _ _ => s.connections
    | .swarm event => connectionsAfter s.connections event

/-- What the swarm promises, and that the loop goes through the whole set. -/
def Promised (s : Session PeerId) : Event PeerId Channel → Prop
  | .request _ order => (order : Multiset PeerId) = s.p2p.maroonPeerIds.val
  | .swarm event => Reported s.connections event

/-- The gateway knows who is connected. -/
def Right (s : Session PeerId) : Prop :=
  s.p2p.maroonPeerIds = connectedPeers s.connections

/-- A request goes to every connected peer once, and to no other peer.  No other
event makes the gateway send a request. -/
def Broadcasts (s : Session PeerId) (event : Event PeerId Channel) : Prop :=
  match event with
  | .request request _ => ∃ recipients : List PeerId, recipients.Nodup ∧
      (∀ peerId, peerId ∈ recipients ↔ peerId ∈ connectedPeers s.connections) ∧
      (s.p2p.round event).2 = recipients.map fun peerId => .gmRequest peerId request
  | .swarm _ => ∀ peerId request, .gmRequest peerId request ∉ (s.p2p.round event).2

/-- A connection that closes is the only one to its peer. -/
def ClosesOnly (s : Session PeerId) : Event PeerId Channel → Prop
  | .swarm (.connectionClosed peerId connectionId) =>
      OnlyHandle s.connections peerId connectionId
  | _ => True

theorem handleSwarmEvent_sends_no_request (self : P2P PeerId)
    (event : SwarmEvent PeerId (GatewayEvent PeerId Channel)) (peerId : PeerId)
    (request : GmRequestResponse.Request) :
    .gmRequest peerId request ∉ (self.handleSwarmEvent event).2 := by
  unfold P2P.handleSwarmEvent
  split <;> simp

theorem behaviour_keeps_peers (self : P2P PeerId) (event : GatewayEvent PeerId Channel) :
    (self.handleSwarmEvent (.behaviour event)).1 = self := by
  cases event with
  | ping => rfl
  | requestResponse event =>
      cases event with
      | message peer message => cases message <;> rfl
      | other => rfl
  | metaExchange event =>
      cases event with
      | message peer message => cases message <;> rfl
      | other => rfl

/-- When the set is right, a request goes to each connected peer once. -/
theorem Right.broadcasts {s : Session PeerId} (hright : s.Right) (event : Event PeerId Channel)
    (h : s.Promised event) : s.Broadcasts event := by
  cases event with
  | request request order =>
      refine ⟨order, ?_, ?_, rfl⟩
      · rw [← Multiset.coe_nodup, show (order : Multiset PeerId) = _ from h]
        exact s.p2p.maroonPeerIds.nodup
      · intro peerId
        rw [← hright, ← Finset.mem_val, ← show (order : Multiset PeerId) = _ from h,
          Multiset.mem_coe]
  | swarm event => exact handleSwarmEvent_sends_no_request s.p2p event

/-- A round keeps the set right exactly when it does not close one of several
connections to a peer. -/
theorem Right.step_iff {s : Session PeerId} (hright : s.Right) (event : Event PeerId Channel)
    (h : s.Promised event) : (s.step event).Right ↔ s.ClosesOnly event := by
  cases event with
  | request request order => exact iff_of_true hright trivial
  | swarm event =>
      cases event with
      | behaviour event =>
          have hset : (s.step (.swarm (.behaviour event))).p2p.maroonPeerIds =
              s.p2p.maroonPeerIds := by
            rw [step, P2P.round, behaviour_keeps_peers]
          refine iff_of_true ?_ trivial
          rw [Right, hset]
          exact hright
      | connectionEstablished peerId connectionId =>
          refine iff_of_true ?_ trivial
          show insert peerId s.p2p.maroonPeerIds = holders (insert _ s.connections)
          rw [holders_insert, hright]
      | connectionClosed peerId connectionId =>
          have hkept : s.p2p.maroonPeerIds = holders s.connections ∩ holders s.connections :=
            hright.trans (Finset.inter_self _).symm
          have hclosed := dropped_iff (k := peerId) (h := connectionId) hkept
          rw [Finset.inter_eq_right.mpr holders_erase_subset, hright] at hclosed
          show s.p2p.maroonPeerIds.erase peerId = _ ↔ _
          rw [hright]
          exact hclosed.trans ⟨fun honly => honly (mem_holders.mpr ⟨_, h⟩), fun honly _ => honly⟩
      | outgoingConnectionError peerId connectionId => exact iff_of_true hright trivial
      | other => exact iff_of_true hright trivial

/-- In a run that keeps the promises of the swarm, every request reaches exactly
the connected peers and the set is right throughout exactly when no event closes
one of several connections to a peer. -/
theorem broadcasts_iff_closesOnly (events : List (Event PeerId Channel))
    (h : Along step Promised start events) :
    (Along step Broadcasts start events ∧ Throughout step Right (start : Session PeerId) events) ↔
      Along step ClosesOnly start events := by
  have hright : Throughout step Right (start : Session PeerId) events ↔
      Along step ClosesOnly start events := by
    refine throughout_iff_along (I := fun _ => True) (fun _ _ _ _ => trivial) ?_ h trivial rfl
    intro s event _ hgood hp
    exact Right.step_iff hgood event hp
  constructor
  · intro hall
    exact hright.mp hall.2
  · intro honly
    have hthroughout := hright.mpr honly
    exact ⟨hthroughout.along (fun s event hgood hp => hgood.broadcasts event hp) h, hthroughout⟩

/-- A node connects, gets a transaction and leaves. -/
def oneRequest : List (Event Nat Unit) :=
  [.swarm (.connectionEstablished 1 0),
   .request (.newTransaction { id := 0, status := .created }) [1],
   .swarm (.connectionClosed 1 0)]

theorem broadcasts_iff_closesOnly_oneRequest :
    Along step Promised start oneRequest ∧ Along step Broadcasts start oneRequest ∧
      Throughout step Right start oneRequest := by
  have hpromised : Along step Promised start oneRequest := by
    refine ⟨?_, rfl, ?_, trivial⟩
    · exact Finset.notMem_empty _
    · exact Finset.mem_singleton_self _
  refine ⟨hpromised, (broadcasts_iff_closesOnly oneRequest hpromised).mpr ?_⟩
  refine ⟨trivial, trivial, ?_, trivial⟩
  intro connectionId hin
  exact congrArg Prod.snd (Finset.mem_singleton.mp hin)

/-- A node that the gateway dialed twice loses one of the two connections before
a request comes. -/
def dialedTwice : List (Event Nat Unit) :=
  [.swarm (.connectionEstablished 1 0),
   .swarm (.connectionEstablished 1 1),
   .swarm (.connectionClosed 1 0),
   .request (.newTransaction { id := 0, status := .created }) []]

/-- The node is still connected and does not get the request. -/
theorem request_misses_connected_node :
    Along step Promised start dialedTwice ∧ ¬ Along step Broadcasts start dialedTwice := by
  constructor
  · refine ⟨?_, ?_, ?_, rfl, trivial⟩
    · exact Finset.notMem_empty _
    · show (1, 1) ∉ ({(1, 0)} : Finset (Nat × Nat))
      decide
    · show (1, 0) ∈ ({(1, 1), (1, 0)} : Finset (Nat × Nat))
      decide
  · intro h
    obtain ⟨recipients, -, hconnected, hsent⟩ := h.2.2.2.1
    have hin : 1 ∈ recipients := (hconnected 1).mpr (by decide)
    have hnone : recipients = [] := List.map_eq_nil_iff.mp hsent.symm
    rw [hnone] at hin
    cases hin

end Session

end Gateway

end Maroon
