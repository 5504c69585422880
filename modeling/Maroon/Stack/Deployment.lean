import Mathlib.Combinatorics.SimpleGraph.Basic
import Maroon.Gateway.Core
import Maroon.Lib.Simulation
import Maroon.Network.Causes
import Maroon.Stack.Node

/-!
# Nodes and gateways together

A deployment has the nodes, the gateways, the set of all that was ever handed to
the wire, and the network: the connections that are open, and what has been
lost.  The network may open and close connections and lose messages at any time,
and a publish that fails is one that the network loses at once.  What is not
lost can arrive at its addressee over a connection with the sender, any number of
times and in any order.  What a node gossips may reach any other node that has a
connection, since its neighbours pass it on.  The swarms report any connections,
but no one connects to itself.

A response goes to the peer that its request came from, so that peer stands for
the channel of the response.
-/

namespace Maroon

open Lib

/-- What is on the wire. -/
inductive Envelope (PeerId Bytes : Type) where
  | gossip (sender : PeerId) (data : Bytes)
  | metaExchangeRequest (sender receiver : PeerId) (request : MetaExchange.Request)
  | metaExchangeResponse (sender receiver : PeerId) (response : MetaExchange.Response)
  | gmRequest (sender receiver : PeerId) (request : GmRequestResponse.Request)
  | gmResponse (sender receiver : PeerId) (response : GmRequestResponse.Response)
  | m2mRequest (sender receiver : PeerId) (request : M2mRequestResponse.Request)
  | m2mResponse (sender receiver : PeerId) (response : M2mRequestResponse.Response)

variable {PeerId Bytes : Type}

/-- What an action of a node puts on the wire. -/
def P2P.Action.envelope (sender : PeerId) :
    P2P.Action PeerId Bytes PeerId → Option (Envelope PeerId Bytes)
  | .toApp _ => none
  | .publish data => some (.gossip sender data)
  | .metaExchangeRequest peerId request => some (.metaExchangeRequest sender peerId request)
  | .metaExchangeResponse peerId response => some (.metaExchangeResponse sender peerId response)
  | .gmResponse peerId response => some (.gmResponse sender peerId response)
  | .m2mRequest peerId request => some (.m2mRequest sender peerId request)
  | .m2mResponse peerId response => some (.m2mResponse sender peerId response)

/-- What an action of a gateway puts on the wire. -/
def Gateway.Action.envelope (sender : PeerId) :
    Gateway.Action PeerId PeerId → Option (Envelope PeerId Bytes)
  | .toOwner _ => none
  | .gmRequest peerId request => some (.gmRequest sender peerId request)
  | .metaExchangeResponse peerId response => some (.metaExchangeResponse sender peerId response)

structure Deployment (PeerId Bytes : Type) where
  node : PeerId → Node PeerId
  gateway : PeerId → Gateway PeerId
  sent : Set (Envelope PeerId Bytes)
  /-- What was sent and will not arrive any more. -/
  lost : Set (Envelope PeerId Bytes)
  /-- Who has an open connection with whom. -/
  links : SimpleGraph PeerId

/-- What can still arrive. -/
def Deployment.onWire (d : Deployment PeerId Bytes) : Set (Envelope PeerId Bytes) :=
  d.sent \ d.lost

/-! ## What arrives -/

/-- What the swarm of a node can report. -/
inductive Node.Arrives (d : Deployment PeerId Bytes) (receiver : PeerId) :
    SwarmEvent PeerId (MaroonEvent PeerId Bytes PeerId) → Prop where
  | ping : Arrives d receiver (.behaviour .ping)
  | gossipsub {sender : PeerId} {data : Bytes} :
      .gossip sender data ∈ d.onWire → sender ≠ receiver →
      (∃ neighbour, d.links.Adj neighbour receiver) →
      Arrives d receiver (.behaviour (.gossipsub data))
  | gossipsubOther : Arrives d receiver (.behaviour .gossipsubOther)
  | gmRequest {sender : PeerId} {request : GmRequestResponse.Request} :
      .gmRequest sender receiver request ∈ d.onWire → d.links.Adj sender receiver →
      Arrives d receiver
        (.behaviour (.requestResponse (.message sender (.request request sender))))
  | gmOther : Arrives d receiver (.behaviour (.requestResponse .other))
  | metaExchangeRequest {sender : PeerId} {request : MetaExchange.Request} :
      .metaExchangeRequest sender receiver request ∈ d.onWire → d.links.Adj sender receiver →
      Arrives d receiver
        (.behaviour (.metaExchange (.message sender (.request request sender))))
  | metaExchangeResponse {sender : PeerId} {response : MetaExchange.Response} :
      .metaExchangeResponse sender receiver response ∈ d.onWire → d.links.Adj sender receiver →
      Arrives d receiver (.behaviour (.metaExchange (.message sender (.response response))))
  | metaExchangeOther : Arrives d receiver (.behaviour (.metaExchange .other))
  | m2mRequest {sender : PeerId} {request : M2mRequestResponse.Request} :
      .m2mRequest sender receiver request ∈ d.onWire → d.links.Adj sender receiver →
      Arrives d receiver (.behaviour (.m2mReqRes (.message sender (.request request sender))))
  | m2mResponse {sender : PeerId} {response : M2mRequestResponse.Response} :
      .m2mResponse sender receiver response ∈ d.onWire → d.links.Adj sender receiver →
      Arrives d receiver (.behaviour (.m2mReqRes (.message sender (.response response))))
  | m2mOther : Arrives d receiver (.behaviour (.m2mReqRes .other))
  | connectionEstablished {peerId : PeerId} {connectionId : ConnectionId} :
      peerId ≠ receiver → Arrives d receiver (.connectionEstablished peerId connectionId)
  | connectionClosed {peerId : PeerId} {connectionId : ConnectionId} :
      peerId ≠ receiver → Arrives d receiver (.connectionClosed peerId connectionId)
  | outgoingConnectionError {peerId : Option PeerId} {connectionId : ConnectionId} :
      Arrives d receiver (.outgoingConnectionError peerId connectionId)
  | other : Arrives d receiver .other

/-- What the swarm of a gateway can report. -/
inductive Gateway.Arrives (d : Deployment PeerId Bytes) (receiver : PeerId) :
    SwarmEvent PeerId (Gateway.GatewayEvent PeerId PeerId) → Prop where
  | ping : Arrives d receiver (.behaviour .ping)
  | gmResponse {sender : PeerId} {response : GmRequestResponse.Response} :
      .gmResponse sender receiver response ∈ d.onWire → d.links.Adj sender receiver →
      Arrives d receiver (.behaviour (.requestResponse (.message sender (.response response))))
  | gmOther : Arrives d receiver (.behaviour (.requestResponse .other))
  | metaExchangeRequest {sender : PeerId} {request : MetaExchange.Request} :
      .metaExchangeRequest sender receiver request ∈ d.onWire → d.links.Adj sender receiver →
      Arrives d receiver
        (.behaviour (.metaExchange (.message sender (.request request sender))))
  | metaExchangeOther : Arrives d receiver (.behaviour (.metaExchange .other))
  | connectionEstablished {peerId : PeerId} {connectionId : ConnectionId} :
      peerId ≠ receiver → Arrives d receiver (.connectionEstablished peerId connectionId)
  | connectionClosed {peerId : PeerId} {connectionId : ConnectionId} :
      peerId ≠ receiver → Arrives d receiver (.connectionClosed peerId connectionId)
  | outgoingConnectionError {peerId : Option PeerId} {connectionId : ConnectionId} :
      Arrives d receiver (.outgoingConnectionError peerId connectionId)
  | other : Arrives d receiver .other

/-! ## Deployments -/

/-- Who takes part, and what the owners of the gateways hand over. -/
structure Setup (PeerId : Type) where
  nodes : Finset PeerId
  gateways : Finset PeerId
  params : Params
  submits : PeerId → GmRequestResponse.Request → Prop

/-- A step of one of the parties, or of the network between them. -/
inductive Move (PeerId Bytes : Type) where
  | node (peerId : PeerId) (label : Node.Label PeerId Bytes PeerId)
  | gateway (peerId : PeerId) (label : Gateway.Label PeerId PeerId)
  | network

namespace Deployment

/-- The deployment after more has been handed to the wire.  What was lost may be
sent once more. -/
def put (d : Deployment PeerId Bytes) (envelopes : Set (Envelope PeerId Bytes)) :
    Deployment PeerId Bytes :=
  { d with
    sent := d.sent ∪ envelopes
    lost := d.lost \ envelopes }

theorem mem_onWire_put {d : Deployment PeerId Bytes} {envelopes : Set (Envelope PeerId Bytes)}
    {envelope : Envelope PeerId Bytes} :
    envelope ∈ (d.put envelopes).onWire ↔ envelope ∈ d.onWire ∨ envelope ∈ envelopes := by
  by_cases hnew : envelope ∈ envelopes
  · simp [onWire, put, hnew]
  · simp [onWire, put, hnew]

variable [LinearOrder PeerId]

def new (setup : Setup PeerId) : Deployment PeerId Bytes where
  node peerId := Node.createStack peerId setup.params
  gateway _ := Gateway.new
  sent := ∅
  lost := ∅
  links := ⊥

/-- The deployment after a node has moved on to `n`. -/
def afterNode (d : Deployment PeerId Bytes) (p : PeerId) (n : Node PeerId)
    (actions : List (P2P.Action PeerId Bytes PeerId)) : Deployment PeerId Bytes :=
  { d.put {envelope | ∃ action ∈ actions, action.envelope p = some envelope} with
    node := Function.update d.node p n }

/-- The deployment after a gateway has moved on to `g`. -/
def afterGateway (d : Deployment PeerId Bytes) (p : PeerId) (g : Gateway PeerId)
    (actions : List (Gateway.Action PeerId PeerId)) : Deployment PeerId Bytes :=
  { d.put {envelope | ∃ action ∈ actions, action.envelope p = some envelope} with
    gateway := Function.update d.gateway p g }

/-- The deployment after the network has changed. -/
def afterNetwork (d : Deployment PeerId Bytes) (links : SimpleGraph PeerId)
    (lost : Set (Envelope PeerId Bytes)) : Deployment PeerId Bytes :=
  { d with links, lost }

@[simp] theorem afterNode_self (d : Deployment PeerId Bytes) (p : PeerId) (n : Node PeerId)
    (actions : List (P2P.Action PeerId Bytes PeerId)) : (d.afterNode p n actions).node p = n :=
  Function.update_self _ _ _

theorem afterNode_ne (d : Deployment PeerId Bytes) {p q : PeerId} (hne : q ≠ p)
    (n : Node PeerId) (actions : List (P2P.Action PeerId Bytes PeerId)) :
    (d.afterNode p n actions).node q = d.node q :=
  Function.update_of_ne hne _ _

/-- What holds of the node that moved, and of the others as they were. -/
theorem afterNode_forall {P : PeerId → Node PeerId → Prop} {d : Deployment PeerId Bytes}
    {p : PeerId} {n : Node PeerId} {actions : List (P2P.Action PeerId Bytes PeerId)}
    (hself : P p n) (hother : ∀ q, q ≠ p → P q (d.node q)) (q : PeerId) :
    P q ((d.afterNode p n actions).node q) := by
  rcases eq_or_ne q p with rfl | hne
  · rw [afterNode_self]
    exact hself
  · rw [afterNode_ne d hne]
    exact hother q hne

theorem mem_afterNode {d : Deployment PeerId Bytes} {p : PeerId} {n : Node PeerId}
    {actions : List (P2P.Action PeerId Bytes PeerId)} {envelope : Envelope PeerId Bytes} :
    envelope ∈ (d.afterNode p n actions).sent ↔
      envelope ∈ d.sent ∨ ∃ action ∈ actions, action.envelope p = some envelope := Iff.rfl

@[simp] theorem afterGateway_self (d : Deployment PeerId Bytes) (p : PeerId)
    (g : Gateway PeerId) (actions : List (Gateway.Action PeerId PeerId)) :
    (d.afterGateway p g actions).gateway p = g :=
  Function.update_self _ _ _

theorem afterGateway_ne (d : Deployment PeerId Bytes) {p q : PeerId} (hne : q ≠ p)
    (g : Gateway PeerId) (actions : List (Gateway.Action PeerId PeerId)) :
    (d.afterGateway p g actions).gateway q = d.gateway q :=
  Function.update_of_ne hne _ _

theorem afterGateway_node (d : Deployment PeerId Bytes) (p : PeerId) (g : Gateway PeerId)
    (actions : List (Gateway.Action PeerId PeerId)) : (d.afterGateway p g actions).node = d.node :=
  rfl

theorem afterGateway_forall {P : PeerId → Gateway PeerId → Prop} {d : Deployment PeerId Bytes}
    {p : PeerId} {g : Gateway PeerId} {actions : List (Gateway.Action PeerId PeerId)}
    (hself : P p g) (hother : ∀ q, q ≠ p → P q (d.gateway q)) (q : PeerId) :
    P q ((d.afterGateway p g actions).gateway q) := by
  rcases eq_or_ne q p with rfl | hne
  · rw [afterGateway_self]
    exact hself
  · rw [afterGateway_ne d hne]
    exact hother q hne

theorem mem_afterGateway {d : Deployment PeerId Bytes} {p : PeerId} {g : Gateway PeerId}
    {actions : List (Gateway.Action PeerId PeerId)} {envelope : Envelope PeerId Bytes} :
    envelope ∈ (d.afterGateway p g actions).sent ↔
      envelope ∈ d.sent ∨ ∃ action ∈ actions, action.envelope p = some envelope := Iff.rfl

/-- What can still arrive after a step of a node: what could, and what the node has
sent. -/
theorem mem_onWire_afterNode {d : Deployment PeerId Bytes} {p : PeerId} {n : Node PeerId}
    {actions : List (P2P.Action PeerId Bytes PeerId)} {envelope : Envelope PeerId Bytes} :
    envelope ∈ (d.afterNode p n actions).onWire ↔
      envelope ∈ d.onWire ∨ ∃ action ∈ actions, action.envelope p = some envelope :=
  mem_onWire_put

/-- One party makes one step, or the network does. -/
inductive Step (sha256 : Sha256) (json : GossipJson PeerId Bytes) (setup : Setup PeerId)
    (d : Deployment PeerId Bytes) : Move PeerId Bytes → Deployment PeerId Bytes → Prop where
  | node {p : PeerId} {label : Node.Label PeerId Bytes PeerId} {n : Node PeerId}
      {out : List (Outbox PeerId)} {actions : List (P2P.Action PeerId Bytes PeerId)} :
      p ∈ setup.nodes →
      (∀ event, label = .swarm event → Node.Arrives d p event) →
      Node.Step sha256 json (d.node p) label n out actions →
      Step sha256 json setup d (.node p label) (d.afterNode p n actions)
  | gateway {p : PeerId} {label : Gateway.Label PeerId PeerId} {g : Gateway PeerId}
      {actions : List (Gateway.Action PeerId PeerId)} :
      p ∈ setup.gateways →
      (∀ event, label = .p2p (.swarm event) → Gateway.Arrives d p event) →
      (∀ request, label = .send request → setup.submits p request) →
      Gateway.Step (d.gateway p) label g actions →
      Step sha256 json setup d (.gateway p label) (d.afterGateway p g actions)
  | network {links : SimpleGraph PeerId} {lost : Set (Envelope PeerId Bytes)} :
      d.lost ⊆ lost → Step sha256 json setup d .network (d.afterNetwork links lost)

/-- A step of a node whose state is known. -/
theorem Step.of_node {sha256 : Sha256} {json : GossipJson PeerId Bytes} {setup : Setup PeerId}
    {d : Deployment PeerId Bytes} {n n' : Node PeerId} {label : Node.Label PeerId Bytes PeerId}
    {out : List (Outbox PeerId)} {actions : List (P2P.Action PeerId Bytes PeerId)} (p : PeerId)
    (hp : p ∈ setup.nodes) (harrives : ∀ event, label = .swarm event → Node.Arrives d p event)
    (hnode : d.node p = n) (h : Node.Step sha256 json n label n' out actions) :
    Step sha256 json setup d (.node p label) (d.afterNode p n' actions) :=
  .node hp harrives (hnode ▸ h)

/-- A step of a gateway whose state is known. -/
theorem Step.of_gateway {sha256 : Sha256} {json : GossipJson PeerId Bytes} {setup : Setup PeerId}
    {d : Deployment PeerId Bytes} {g g' : Gateway PeerId} {label : Gateway.Label PeerId PeerId}
    {actions : List (Gateway.Action PeerId PeerId)} (p : PeerId) (hp : p ∈ setup.gateways)
    (harrives : ∀ event, label = .p2p (.swarm event) → Gateway.Arrives d p event)
    (hsubmits : ∀ request, label = .send request → setup.submits p request)
    (hgateway : d.gateway p = g) (h : Gateway.Step g label g' actions) :
    Step sha256 json setup d (.gateway p label) (d.afterGateway p g' actions) :=
  .gateway hp harrives hsubmits (hgateway ▸ h)

/-- Any number of steps of any parties and of the network. -/
def Steps (sha256 : Sha256) (json : GossipJson PeerId Bytes) (setup : Setup PeerId) :
    Deployment PeerId Bytes → Deployment PeerId Bytes → Prop :=
  Relation.ReflTransGen fun d d' => ∃ move, Step sha256 json setup d move d'

def Reachable (sha256 : Sha256) (json : GossipJson PeerId Bytes) (setup : Setup PeerId)
    (d : Deployment PeerId Bytes) : Prop :=
  Steps sha256 json setup (new setup) d

variable {sha256 : Sha256} {json : GossipJson PeerId Bytes} {setup : Setup PeerId}
  {d d' : Deployment PeerId Bytes} {move : Move PeerId Bytes}

theorem Reachable.step (h : Reachable sha256 json setup d)
    (hstep : Step sha256 json setup d move d') : Reachable sha256 json setup d' :=
  Relation.ReflTransGen.tail h ⟨move, hstep⟩

/-- What every step keeps holds in every state that the deployment reaches. -/
theorem Reachable.invariant (I : Deployment PeerId Bytes → Prop) (init : I (new setup))
    (step : ∀ {d d' move}, I d → Step sha256 json setup d move d' → I d')
    (h : Reachable sha256 json setup d) : I d :=
  invariant_of_steps I (fun hI ⟨_, hstep⟩ => step hI hstep) h init

/-! ## Steps of a node that runs -/

variable {p g : PeerId} {n n₁ : Node PeerId}

/-- The network layer handles what its swarm reports. -/
theorem Reachable.hears (h : Reachable sha256 json setup d) (hp : p ∈ setup.nodes)
    (hnode : d.node p = n) (hin : n.inbox.isOpen = true) (hout : n.outbox.isOpen = true)
    {event : SwarmEvent PeerId (MaroonEvent PeerId Bytes PeerId)}
    (harrives : Node.Arrives d p event) {p2p : P2P PeerId}
    {actions : List (P2P.Action PeerId Bytes PeerId)}
    (hround : n.p2p.round json (.swarm event) = (p2p, actions)) :
    Reachable sha256 json setup (d.afterNode p
      { n with p2p, inbox := n.inbox.push (Node.toApps actions) } actions) := by
  refine h.step (.of_node p hp (fun event' hevent => ?_) hnode (.swarm_open hin hout hround))
  cases hevent
  exact harrives

/-- A transaction from a gateway gets into the inbox. -/
theorem Reachable.takes_in (h : Reachable sha256 json setup d) (hp : p ∈ setup.nodes)
    (hnode : d.node p = n) (hin : n.inbox.isOpen = true) (hout : n.outbox.isOpen = true)
    {tx : Transaction} (hwire : .gmRequest g p (.newTransaction tx) ∈ d.onWire)
    (hlink : d.links.Adj g p) :
    Reachable sha256 json setup (d.afterNode p
      { n with inbox := n.inbox.push [.newTransaction tx] }
      [.toApp (.newTransaction tx), .gmResponse g .acknowledged]) :=
  h.hears hp hnode hin hout (.gmRequest hwire hlink) rfl

/-- The application handles what it wakes up for. -/
theorem Reachable.handles (h : Reachable sha256 json setup d) (hp : p ∈ setup.nodes)
    (hnode : d.node p = n) (hin : n.inbox.isOpen = true) (hout : n.outbox.isOpen = true)
    {event : Event PeerId} (hwakes : n.Wakes event n₁) {a : App PeerId LogLineriazer}
    {out : List (Outbox PeerId)} (happ : App.Step sha256 n.app event a out) :
    Reachable sha256 json setup
      (d.afterNode p { n₁ with app := a, outbox := n.outbox.push out } []) :=
  h.step (.of_node p hp (by nofun) hnode (.handle_open hin hout hwakes happ))

end Deployment

end Maroon
