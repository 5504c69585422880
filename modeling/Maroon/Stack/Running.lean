import Maroon.App.Progress
import Maroon.Stack.Integrity

/-!
# Nodes that keep running

The sets of alive peers of a node are right about who is a node and who is a
gateway, and the node never loses itself (`alive_sets_sound`).  So a node never
gets a message that it cannot handle, as long as the owners of the gateways hand
over ids that can be decoded.  Then none of its tasks ends before it is shut
down, whatever the network and the other parties do (`nodes_keep_running`).
-/

namespace Maroon

open Lib

/-! ## Tasks that do not end -/

namespace Node

variable {PeerId Bytes ResponseChannel : Type}

/-- Both tasks run until the node is shut down. -/
def Running (n : Node PeerId) : Prop :=
  n.shutdown = false → n.inbox.isOpen = true ∧ n.outbox.isOpen = true

theorem Performed.running {n n' : Node PeerId}
    {actions performed : List (P2P.Action PeerId Bytes ResponseChannel)}
    (hperformed : Performed n actions n' performed) (h : n.Running) : n'.Running := by
  intro hshutdown
  rw [hperformed.frame] at hshutdown
  obtain ⟨hin, hout⟩ := h hshutdown
  refine ⟨?_, ?_⟩
  · rw [hperformed.inbox, Channel.push_isOpen]
    exact hin
  · rcases hperformed.outbox with hkept | ⟨hclosed, -⟩
    · rw [hkept]
      exact hout
    · rw [hin] at hclosed
      cases hclosed

variable [LinearOrder PeerId] {sha256 : Sha256} {json : GossipJson PeerId Bytes}
  {n n' : Node PeerId} {label : Label PeerId Bytes ResponseChannel} {out : List (Outbox PeerId)}
  {actions : List (P2P.Action PeerId Bytes ResponseChannel)}

/-- A step ends a task at a shutdown or by a panic only. -/
theorem Step.running (h : Step sha256 json n label n' out actions) (hrun : n.Running)
    (hno : ∀ event reason, label = .app event → ¬ App.Panics sha256 n.app event reason) :
    n'.Running := by
  cases h with
  | invoke => exact hrun
  | @handle n₁ event a out hopen hwakes happ =>
      intro hshutdown
      have hframe := hwakes.frame
      rw [(send_frame _ out).2.2] at hshutdown
      have hkept : n₁.shutdown = n.shutdown := by rw [hframe]
      obtain ⟨hin, hout⟩ := hrun (hkept ▸ hshutdown)
      have hout₁ : n₁.outbox.isOpen = true := by
        rw [hframe]
        exact hout
      have hin₁ : n₁.inbox.isOpen = true := by
        cases hwakes with
        | inbox hrecv => exact (Channel.recv_eq_some.mp hrecv).2.trans hin
        | _ => exact hin
      rw [@send_of_open _ { n₁ with app := a } hout₁ out]
      exact ⟨hin₁, (Channel.push_isOpen _ _).trans hout₁⟩
  | panic _ _ hpanic => exact absurd hpanic (hno _ _ rfl)
  | shutdown => exact fun hshutdown => nomatch hshutdown
  | outbox _ hrecv hround =>
      refine (roundP2P_performed hround).running fun hshutdown => ?_
      obtain ⟨hin, hout⟩ := hrun hshutdown
      exact ⟨hin, (Channel.recv_eq_some.mp hrecv).2.trans hout⟩
  | swarm _ hround =>
      exact (roundP2P_performed hround).running fun hshutdown => hrun hshutdown

end Node

namespace Deployment

variable {PeerId Bytes : Type}

/-! ## Who is alive -/

/-- What a role message on the wire says of its sender is right. -/
def Truthful (setup : Setup PeerId) : Envelope PeerId Bytes → Prop
  | .metaExchangeRequest p _ request => p ∈ setup.nodes ∧ request.role = .node
  | .metaExchangeResponse p _ response =>
      p ∈ setup.nodes ∧ response.role = .node ∨ p ∈ setup.gateways ∧ response.role = .gateway
  | _ => True

/-- The sets of a node are right. -/
structure Known (setup : Setup PeerId) (d : Deployment PeerId Bytes) : Prop where
  wire : ∀ envelope ∈ d.sent, Truthful setup envelope
  own : ∀ p, p ∈ (d.node p).p2p.alivePeerIds
  alive : ∀ p ∈ setup.nodes, (d.node p).p2p.alivePeerIds ⊆ setup.nodes
  aliveGateways : ∀ p, (d.node p).p2p.aliveGatewayIds ⊆ setup.gateways

theorem Known.new {setup : Setup PeerId} : Known setup (new setup : Deployment PeerId Bytes) where
  wire _ hin := absurd hin (Set.notMem_empty _)
  own p := Finset.mem_singleton_self p
  alive _ hp := Finset.singleton_subset_iff.mpr hp
  aliveGateways _ := Finset.empty_subset _

/-- Who announces itself to a node is what it says. -/
theorem Known.announced {setup : Setup PeerId} {d : Deployment PeerId Bytes} (h : Known setup d)
    {p peer : PeerId} {role : MetaExchange.Role}
    {event : SwarmEvent PeerId (MaroonEvent PeerId Bytes PeerId)}
    (harrives : Node.Arrives d p event) (hannounces : P2P.Announces peer role event) :
    peer ∈ setup.nodes ∧ role = .node ∨ peer ∈ setup.gateways ∧ role = .gateway := by
  cases harrives with
  | metaExchangeRequest hin =>
      obtain ⟨rfl, rfl⟩ := hannounces
      exact Or.inl (h.wire _ hin.1)
  | metaExchangeResponse hin =>
      obtain ⟨rfl, rfl⟩ := hannounces
      exact h.wire _ hin.1
  | _ => cases hannounces

variable [LinearOrder PeerId] {sha256 : Sha256} {json : GossipJson PeerId Bytes}
  {setup : Setup PeerId} {d d' : Deployment PeerId Bytes} {p : PeerId} {move : Move PeerId Bytes}

/-- A node keeps its sets right, and itself in them. -/
theorem Known.round (h : Known setup d) (hp : p ∈ setup.nodes)
    {event : P2P.Event PeerId Bytes PeerId}
    (harrives : ∀ swarmEvent, event = .swarm swarmEvent → Node.Arrives d p swarmEvent) :
    p ∈ ((d.node p).p2p.round json event).1.alivePeerIds ∧
      ((d.node p).p2p.round json event).1.alivePeerIds ⊆ setup.nodes ∧
      ((d.node p).p2p.round json event).1.aliveGatewayIds ⊆ setup.gateways := by
  have hmoved := P2P.round_moved json (d.node p).p2p event
  refine ⟨?_, fun peer hin => ?_, fun peer hin => ?_⟩
  · rcases hmoved.left p (h.own p) with hin | ⟨connectionId, rfl⟩
    · exact hin
    · cases harrives _ rfl with
      | connectionClosed hne => exact absurd rfl hne
  · rcases hmoved.joined peer hin with hold | ⟨swarmEvent, rfl, hannounces⟩
    · exact h.alive p hp hold
    · rcases h.announced (harrives _ rfl) hannounces with ⟨hnode, -⟩ | ⟨-, hrole⟩
      · exact hnode
      · cases hrole
  · rcases hmoved.joinedGateways peer hin with hold | ⟨swarmEvent, rfl, hannounces⟩
    · exact h.aliveGateways p hold
    · rcases h.announced (harrives _ rfl) hannounces with ⟨-, hrole⟩ | ⟨hgateway, -⟩
      · cases hrole
      · exact hgateway

theorem Known.step (h : Known setup d) (hstep : Step sha256 json setup d move d') :
    Known setup d' := by
  cases hstep with
  | network => exact { h with }
  | @gateway p label g actions hp harrives hsubmits hstep =>
      refine ⟨fun envelope hin => ?_, h.own, h.alive, h.aliveGateways⟩
      rcases mem_afterGateway.mp hin with hold | ⟨action, haction, henvelope⟩
      · exact h.wire envelope hold
      · cases action with
        | toOwner response => cases henvelope
        | gmRequest peerId request =>
            cases henvelope
            trivial
        | metaExchangeResponse peerId response =>
            cases henvelope
            exact Or.inr ⟨hp, hstep.response_role haction⟩
  | @node p label n out actions hp harrives hstep =>
      have hsets : p ∈ n.p2p.alivePeerIds ∧ n.p2p.alivePeerIds ⊆ setup.nodes ∧
          n.p2p.aliveGatewayIds ⊆ setup.gateways := by
        rcases hstep.p2p_cases with ⟨event, hround, hp2p, -⟩ | ⟨hp2p, -⟩
        · rw [hp2p]
          refine h.round hp fun swarmEvent hevent => ?_
          cases hround with
          | outbox => cases hevent
          | swarm =>
              cases hevent
              exact harrives _ rfl
        · rw [hp2p]
          exact ⟨h.own p, h.alive p hp, h.aliveGateways p⟩
      refine ⟨fun envelope hin => ?_, ?_, ?_, ?_⟩
      · rcases mem_afterNode.mp hin with hold | ⟨action, haction, henvelope⟩
        · exact h.wire envelope hold
        · obtain ⟨event, hcauses, -⟩ := hstep.causes haction
          cases hcauses with
          | metaExchangeRequest =>
              cases henvelope
              exact ⟨hp, rfl⟩
          | metaExchangeResponse =>
              cases henvelope
              exact Or.inl ⟨hp, rfl⟩
          | _ => cases henvelope <;> trivial
      · exact afterNode_forall (P := fun q n => q ∈ n.p2p.alivePeerIds) hsets.1
          fun q _ => h.own q
      · exact afterNode_forall (P := fun q n => q ∈ setup.nodes → n.p2p.alivePeerIds ⊆ setup.nodes)
          (fun _ => hsets.2.1) fun q _ => h.alive q
      · exact afterNode_forall (P := fun _ n => n.p2p.aliveGatewayIds ⊆ setup.gateways) hsets.2.2
          fun q _ => h.aliveGateways q

theorem Reachable.known (h : Reachable sha256 json setup d) : Known setup d :=
  h.invariant (Known setup) .new fun hknown hstep => hknown.step hstep

/-- A node counts itself as alive, and beside it only nodes, and those that it
counts as gateways are gateways. -/
theorem alive_sets_sound (h : Reachable sha256 json setup d) (hp : p ∈ setup.nodes) :
    p ∈ (d.node p).p2p.alivePeerIds ∧ (d.node p).p2p.alivePeerIds ⊆ setup.nodes ∧
      (d.node p).p2p.aliveGatewayIds ⊆ setup.gateways :=
  ⟨h.known.own p, h.known.alive p hp, h.known.aliveGateways p⟩

/-- Node 0 meets node 1 and the gateway. -/
theorem met_reachable (sha256 : Sha256) : ∃ d : Deployment Nat (GossipMessage Nat),
    Reachable sha256 P2P.plainJson firstSetup d ∧
      (d.node 0).p2p = { peerId := 0, alivePeerIds := {1, 0}, aliveGatewayIds := {2} } := by
  have hnew : Reachable sha256 P2P.plainJson firstSetup (new firstSetup) := .refl
  have h0 : Reachable sha256 P2P.plainJson firstSetup linked := hnew.step (.network subset_rfl)
  have hlink : ∀ {p q : Nat}, p ≠ q → linked.links.Adj p q := fun hne => hne
  have hp₀ : 0 ∈ firstSetup.nodes := by decide
  have hp₁ : 1 ∈ firstSetup.nodes := by decide
  have hsent : ∀ {d : Deployment Nat (GossipMessage Nat)} {p n action actions envelope},
      P2P.Action.envelope p action = some envelope →
      envelope ∈ (d.afterNode p n (action :: actions)).onWire := fun henvelope =>
    mem_onWire_afterNode.mpr (Or.inr ⟨_, List.mem_cons_self, henvelope⟩)
  -- node 0 and node 1 tell each other what they are
  have h1 := h0.hears hp₀ rfl rfl rfl
    (@Node.Arrives.connectionEstablished _ _ _ _ 1 0 (by decide)) rfl
  have h2 := h1.hears hp₁ (afterNode_ne _ (by decide) _ _) rfl rfl
    (.metaExchangeRequest (hsent rfl) (hlink (by decide))) rfl
  have h3 := h2.hears hp₀ (afterNode_ne _ (by decide) _ _) rfl rfl
    (@Node.Arrives.metaExchangeResponse _ _ _ _ 1 _ (hsent rfl) (hlink (by decide))) rfl
  -- and so do node 0 and the gateway
  have h4 := h3.hears hp₀ (afterNode_self _ _ _ _) rfl rfl
    (@Node.Arrives.connectionEstablished _ _ _ _ 2 1 (by decide)) rfl
  have h5 := h4.step (@Step.of_gateway _ _ _ _ _ _ _ _ _
    (.p2p (.swarm (.behaviour (.metaExchange (.message 0 (.request { role := .node } 0)))))) _ 2
    (by decide) (fun event hevent => by
      cases hevent
      exact .metaExchangeRequest (hsent rfl) (hlink (by decide))) nofun rfl (.p2p .swarm))
  have h6 := h5.hears hp₀
    ((congrFun (afterGateway_node _ _ _ _) 0).trans (afterNode_self _ _ _ _)) rfl rfl
    (@Node.Arrives.metaExchangeResponse _ _ _ _ 2 { role := .gateway }
      (mem_onWire_put.mpr (Or.inr ⟨_, List.mem_cons_self, rfl⟩)) (hlink (by decide))) rfl
  exact ⟨_, h6, congrArg Node.p2p (afterNode_self _ _ _ _)⟩

theorem alive_sets_sound_met : ∃ d : Deployment Nat (GossipMessage Nat),
    1 ∈ (d.node 0).p2p.alivePeerIds ∧ 2 ∈ (d.node 0).p2p.aliveGatewayIds ∧
      (d.node 0).p2p.alivePeerIds ⊆ {0, 1} ∧ (d.node 0).p2p.aliveGatewayIds ⊆ {2} := by
  obtain ⟨d, h, hsets⟩ := met_reachable fun _ => Vector.replicate 32 0
  obtain ⟨-, hnodes, hgateways⟩ := alive_sets_sound h (show 0 ∈ firstSetup.nodes by decide)
  exact ⟨d, by rw [hsets]; decide, by rw [hsets]; decide, hnodes, hgateways⟩

/-! ## Nodes that run -/

/-- The nodes run, and whatever waits for them can be handled. -/
structure Handled (d : Deployment PeerId Bytes) : Prop where
  expected : ∀ p, ∀ msg ∈ (d.node p).inbox.queue, (Event.inbox msg).Expected p
  running : ∀ p, (d.node p).Running

theorem Handled.returns (hh : Handled d) (hjson : json.Faithful)
    (h : Reachable sha256 json setup d) {event : Event PeerId}
    (htaken : ∀ msg ∈ event.taken, msg ∈ (d.node p).inbox.queue) :
    App.Returns sha256 (d.node p).app event := by
  obtain ⟨s, hs, hrep⟩ := h.represented hjson
  rw [← hrep.app p]
  refine hs.returns (hrep.deliverable htaken) ?_
  cases event with
  | inbox msg => exact hh.expected p msg (htaken msg (List.mem_singleton_self msg))
  | _ => trivial

/-- What a network layer hands over can be handled. -/
theorem Known.expected (h : Known setup d) (hgenuine : Genuine setup d)
    (hvalid : ∀ tx, setup.Submitted tx → Accepted tx.id) (hp : p ∈ setup.nodes)
    {event : P2P.Event PeerId Bytes PeerId} {msg : Inbox PeerId}
    (hcauses : P2P.Causes json (d.node p).p2p event (.toApp msg))
    (harrives : ∀ swarmEvent, event = .swarm swarmEvent → Node.Arrives d p swarmEvent) :
    (Event.inbox msg).Expected p := by
  cases hcauses with
  | nodes => exact (h.round hp harrives).1
  | newTransaction =>
      cases harrives _ rfl with
      | gmRequest hin => exact hvalid _ (hgenuine.wire _ hin.1 _ (List.mem_singleton_self _))
  | _ => trivial

theorem Handled.step (hh : Handled d) (hjson : json.Faithful)
    (hvalid : ∀ tx, setup.Submitted tx → Accepted tx.id) (h : Reachable sha256 json setup d)
    (hstep : Step sha256 json setup d move d') : Handled d' := by
  cases hstep with
  | gateway | network => exact ⟨hh.expected, hh.running⟩
  | @node p label n out actions hp harrives hstep =>
      have hexpected : ∀ msg ∈ n.inbox.queue, (Event.inbox msg).Expected p := by
        intro msg hmsg
        rcases hstep.moves.1.mem_queue hmsg with hold | hnew
        · exact hh.expected p msg hold
        · obtain ⟨event, hcauses, -, hswarm⟩ := hstep.causes (Node.mem_toApps.mp hnew)
          exact h.known.expected (h.genuine hjson) hvalid hp hcauses fun swarmEvent hevent =>
            harrives swarmEvent (hswarm swarmEvent hevent)
      have hrunning : n.Running := by
        refine hstep.running (hh.running p) fun event reason hlabel => ?_
        subst hlabel
        have hreturns : App.Returns sha256 (d.node p).app event :=
          hh.returns hjson h hstep.taken_mem.1
        exact hreturns.not_panics (h.valid hjson p).store.accepted reason
      exact ⟨afterNode_forall (P := fun q n => ∀ msg ∈ n.inbox.queue, (Event.inbox msg).Expected q)
          hexpected fun q _ => hh.expected q,
        afterNode_forall (P := fun _ n => n.Running) hrunning fun q _ => hh.running q⟩

theorem Reachable.handled (hjson : json.Faithful)
    (hvalid : ∀ tx, setup.Submitted tx → Accepted tx.id) (h : Reachable sha256 json setup d) :
    Handled d := by
  refine (Reachable.invariant (fun d => Reachable sha256 json setup d ∧ Handled d)
    ⟨.refl, fun _ _ hmsg => absurd hmsg List.not_mem_nil, fun _ _ => ⟨rfl, rfl⟩⟩ ?_ h).2
  rintro d d' move ⟨hr, hh⟩ hstep
  exact ⟨hr.step hstep, hh.step hjson hvalid hr hstep⟩

/-- As long as the ids of all transactions can be decoded, both tasks of a node
run until the node is shut down, and the application handles whatever it wakes
up for to the end and without a panic. -/
theorem nodes_keep_running (hjson : json.Faithful)
    (hvalid : ∀ tx, setup.Submitted tx → Accepted tx.id) (h : Reachable sha256 json setup d) :
    (d.node p).Running ∧
      ∀ event n₁, (d.node p).Wakes event n₁ → App.Returns sha256 (d.node p).app event ∧
        ∀ reason, ¬ App.Panics sha256 (d.node p).app event reason := by
  have hh := h.handled hjson hvalid
  refine ⟨hh.running p, fun event n₁ hwakes => ?_⟩
  have hreturns : App.Returns sha256 (d.node p).app event :=
    hh.returns hjson h hwakes.taken_mem
  exact ⟨hreturns, hreturns.not_panics (h.valid hjson p).store.accepted⟩

theorem firstSetup_accepted : ∀ tx, firstSetup.Submitted tx → Accepted tx.id := by
  intro tx hsubmitted
  obtain ⟨g, -, heq⟩ := hsubmitted
  cases heq
  decide

theorem nodes_keep_running_delivered : (delivered.node 1).Running :=
  (@nodes_keep_running _ _ _ _ _ _ _ 1 plainJson_faithful firstSetup_accepted
    (delivered_reachable fun _ => Vector.replicate 32 0)).1

end Deployment

end Maroon
