import Maroon.Network.Alive
import Maroon.Stack.Deployment
import Maroon.System.Progress

/-!
# A deployment refines the system

The system of `System` has no channels, no network layers and no gateways.  It
has the applications and the set of what they have sent.  Every step of a
deployment is a step of that system or does not change it (`simulates`), since
each message that waits in a channel or travels on the wire is one that the
system could deliver.  So what holds of the system holds of every deployment
(`refines_system`).

The other way round, what the applications have sent is on the wire or waits for
the network layer, unless that has ended.

Messages are gossiped as bytes.  `Faithful` is what the nodes rely on: what was
encoded is decoded again.
-/

namespace Maroon

open Lib

/-- What was encoded can be decoded. -/
def GossipJson.Faithful {PeerId Bytes : Type} (json : GossipJson PeerId Bytes) : Prop :=
  ∀ message data, json.toVec message = some data → json.fromSlice data = some message

namespace Deployment

variable {PeerId Bytes : Type} {json : GossipJson PeerId Bytes}

/-- What is on the wire between nodes is a message that an application has
sent. -/
def Backed (json : GossipJson PeerId Bytes) (sent : Set (Packet PeerId)) :
    Envelope PeerId Bytes → Prop
  | .gossip p data => ∃ state, json.toVec { peerId := p, payload := .state state } = some data ∧
      ⟨p, .state state⟩ ∈ sent
  | .m2mRequest p q (.getMissingTx ranges) => ⟨p, .requestMissingTxs q ranges⟩ ∈ sent
  | .m2mRequest p q (.missingTx txs) => ⟨p, .requestedTxsForPeer q txs⟩ ∈ sent
  | _ => True

theorem Backed.mono {sent sent' : Set (Packet PeerId)} {envelope : Envelope PeerId Bytes}
    (h : Backed json sent envelope) (hsub : sent ⊆ sent') : Backed json sent' envelope := by
  cases envelope with
  | gossip p data =>
      obtain ⟨state, hvec, hin⟩ := h
      exact ⟨state, hvec, hsub hin⟩
  | m2mRequest p q request =>
      cases request with
      | getMissingTx ranges => exact hsub h
      | missingTx txs => exact hsub h
  | _ => trivial

/-- What an application has sent is on the wire, if it could be encoded. -/
def Carried (json : GossipJson PeerId Bytes) (sent : Set (Envelope PeerId Bytes)) :
    Packet PeerId → Prop
  | ⟨p, .state state⟩ => ∀ data,
      json.toVec { peerId := p, payload := .state state } = some data → .gossip p data ∈ sent
  | ⟨p, .requestMissingTxs q ranges⟩ => .m2mRequest p q (.getMissingTx ranges) ∈ sent
  | ⟨p, .requestedTxsForPeer q txs⟩ => .m2mRequest p q (.missingTx txs) ∈ sent

theorem Carried.mono {sent sent' : Set (Envelope PeerId Bytes)} {packet : Packet PeerId}
    (h : Carried json sent packet) (hsub : sent ⊆ sent') : Carried json sent' packet := by
  obtain ⟨p, payload⟩ := packet
  cases payload with
  | state state => exact fun data hvec => hsub (h data hvec)
  | requestMissingTxs q ranges => exact hsub h
  | requestedTxsForPeer q txs => exact hsub h

/-- A network layer has put a message of its application on the wire. -/
theorem Carried.of_performed {sent : Set (Envelope PeerId Bytes)} {p : PeerId}
    {msg : Outbox PeerId}
    (h : ∀ action ∈ (P2P.handleReceiverOutbox json p msg : List (P2P.Action _ _ PeerId)),
      ∀ envelope, action.envelope p = some envelope → envelope ∈ sent) :
    Carried json sent ⟨p, msg⟩ := by
  cases msg with
  | state state =>
      intro data hvec
      rw [P2P.handleReceiverOutbox, hvec] at h
      exact h _ (List.mem_singleton_self _) _ rfl
  | requestMissingTxs q ranges => exact h _ (List.mem_singleton_self _) _ rfl
  | requestedTxsForPeer q txs => exact h _ (List.mem_singleton_self _) _ rfl

/-- A state of the system that shows what a deployment is about. -/
structure Represents (json : GossipJson PeerId Bytes) (d : Deployment PeerId Bytes)
    (s : System PeerId) : Prop where
  app : ∀ p, s.app p = (d.node p).app
  peerId : ∀ p, (d.node p).p2p.peerId = p
  outbox : ∀ p, ∀ msg ∈ (d.node p).outbox.queue, ⟨p, msg⟩ ∈ s.sent
  inbox : ∀ p, ∀ msg ∈ (d.node p).inbox.queue, Deliverable s.sent p (.inbox msg)
  wire : ∀ envelope ∈ d.sent, Backed json s.sent envelope
  packets : ∀ p msg, ⟨p, msg⟩ ∈ s.sent → Carried json d.sent ⟨p, msg⟩ ∨
    msg ∈ (d.node p).outbox.queue ∨ (d.node p).outbox.isOpen = false

theorem Represents.new {setup : Setup PeerId} :
    Represents json (new setup) (System.new setup.params) where
  app _ := rfl
  peerId _ := rfl
  outbox _ _ hmsg := absurd hmsg (List.not_mem_nil)
  inbox _ _ hmsg := absurd hmsg (List.not_mem_nil)
  wire _ hin := absurd hin (Set.notMem_empty _)
  packets _ _ hin := absurd hin (Set.notMem_empty _)

/-- What a node wakes up for can be delivered to it in the system. -/
theorem Represents.deliverable {d : Deployment PeerId Bytes} {s : System PeerId}
    (h : Represents json d s) {p : PeerId} {event : Event PeerId}
    (htaken : ∀ msg ∈ event.taken, msg ∈ (d.node p).inbox.queue) :
    Deliverable s.sent p event := by
  cases event with
  | advertiseTick => exact .advertiseTick
  | commitTick => exact .commitTick
  | request request => exact .request
  | inbox msg => exact h.inbox p msg (htaken msg (List.mem_singleton_self msg))

variable [LinearOrder PeerId] {sha256 : Sha256} {setup : Setup PeerId}
  {d d' : Deployment PeerId Bytes} {s s' : System PeerId} {p : PeerId} {move : Move PeerId Bytes}

/-- What a network layer puts on the wire comes from its application. -/
theorem backed_of_causes {self : P2P PeerId} {event : P2P.Event PeerId Bytes PeerId}
    {action : P2P.Action PeerId Bytes PeerId} {envelope : Envelope PeerId Bytes}
    {sent : Set (Packet PeerId)} (h : P2P.Causes json self event action)
    (hout : ∀ msg, event = .outbox msg → ⟨self.peerId, msg⟩ ∈ sent)
    (henvelope : action.envelope self.peerId = some envelope) : Backed json sent envelope := by
  cases h with
  | publish hvec =>
      cases henvelope
      exact ⟨_, hvec, hout _ rfl⟩
  | getMissingTx =>
      cases henvelope
      exact hout _ rfl
  | sendMissingTx =>
      cases henvelope
      exact hout _ rfl
  | ack =>
      cases henvelope
      trivial
  | acknowledged =>
      cases henvelope
      trivial
  | metaExchangeRequest =>
      cases henvelope
      trivial
  | metaExchangeResponse =>
      cases henvelope
      trivial
  | _ => cases henvelope

/-- What a network layer hands to its application can be delivered in the
system. -/
theorem deliverable_of_causes {self : P2P PeerId} {event : P2P.Event PeerId Bytes PeerId}
    {msg : Inbox PeerId} (hjson : json.Faithful) (h : Represents json d s)
    (hcauses : P2P.Causes json self event (.toApp msg))
    (harrives : ∀ swarmEvent, event = .swarm swarmEvent → Node.Arrives d p swarmEvent) :
    Deliverable s.sent p (.inbox msg) := by
  cases hcauses with
  | state hslice =>
      cases harrives _ rfl with
      | gossipsub hin hne =>
          obtain ⟨state, hvec, hsent⟩ := h.wire _ hin.1
          cases hslice.symm.trans (hjson _ _ hvec)
          exact .state hsent hne
  | nodes => exact .nodes
  | newTransaction => exact .newTransaction
  | requestMissingTxs =>
      cases harrives _ rfl with
      | m2mRequest hin => exact .requestMissingTxs (h.wire _ hin.1)
  | missingTx =>
      cases harrives _ rfl with
      | m2mRequest hin => exact .missingTx (h.wire _ hin.1)

/-- What an application has sent is not lost in a step of its node, unless the
network layer ends. -/
theorem Represents.packets_afterNode (h : Represents json d s)
    {label : Node.Label PeerId Bytes PeerId} {n : Node PeerId} {out : List (Outbox PeerId)}
    {actions : List (P2P.Action PeerId Bytes PeerId)}
    (hstep : Node.Step sha256 json (d.node p) label n out actions)
    (hsent : ∀ packet, packet ∈ s'.sent ↔
      packet ∈ s.sent ∨ packet.sender = p ∧ packet.payload ∈ out) (q : PeerId)
    (msg : Outbox PeerId) (hmsg : ⟨q, msg⟩ ∈ s'.sent) :
    Carried json (d.afterNode p n actions).sent ⟨q, msg⟩ ∨
      msg ∈ ((d.afterNode p n actions).node q).outbox.queue ∨
        ((d.afterNode p n actions).node q).outbox.isOpen = false := by
  have hkept : Carried json d.sent ⟨q, msg⟩ →
      Carried json (d.afterNode p n actions).sent ⟨q, msg⟩ :=
    fun hcarried => hcarried.mono Set.subset_union_left
  rcases eq_or_ne q p with rfl | hne
  · rw [afterNode_self]
    cases hopen : n.outbox.isOpen with
    | false => exact Or.inr (Or.inr rfl)
    | true =>
        obtain ⟨hopen', hqueue⟩ := hstep.moves.2.of_open hopen
        have hcases : Carried json d.sent ⟨q, msg⟩ ∨ msg ∈ (d.node q).outbox.queue ++ out := by
          rcases (hsent _).mp hmsg with hold | ⟨-, hnew⟩
          · rcases h.packets q msg hold with hcarried | hwaits | hclosed
            · exact Or.inl hcarried
            · exact Or.inr (List.mem_append_left _ hwaits)
            · rw [hopen'] at hclosed
              cases hclosed
          · exact Or.inr (List.mem_append_right _ hnew)
        rcases hcases with hcarried | hin
        · exact Or.inl (hkept hcarried)
        · rw [hqueue] at hin
          rcases List.mem_append.mp hin with htaken | hwaits
          · refine Or.inl (.of_performed fun action haction envelope henvelope => ?_)
            rw [← h.peerId q] at haction
            exact Or.inr ⟨action, hstep.outbox_performed htaken haction, henvelope⟩
          · exact Or.inr (Or.inl hwaits)
  · rw [afterNode_ne d hne]
    rcases (hsent _).mp hmsg with hold | ⟨heq, -⟩
    · exact (h.packets q msg hold).imp hkept id
    · exact absurd heq hne

/-- What is left to show of a step of a node: that the application is followed. -/
theorem Represents.afterNode (hjson : json.Faithful) (h : Represents json d s)
    {label : Node.Label PeerId Bytes PeerId} {n : Node PeerId} {out : List (Outbox PeerId)}
    {actions : List (P2P.Action PeerId Bytes PeerId)}
    (harrives : ∀ event, label = .swarm event → Node.Arrives d p event)
    (hstep : Node.Step sha256 json (d.node p) label n out actions)
    (happ : ∀ q, s'.app q = ((d.afterNode p n actions).node q).app)
    (hsent : ∀ packet, packet ∈ s'.sent ↔
      packet ∈ s.sent ∨ packet.sender = p ∧ packet.payload ∈ out) :
    Represents json (d.afterNode p n actions) s' := by
  have hsub : s.sent ⊆ s'.sent := fun packet hin => (hsent packet).mpr (Or.inl hin)
  refine ⟨happ, ?_, ?_, ?_, ?_, ?_⟩
  · exact afterNode_forall (P := fun q n => n.p2p.peerId = q)
      (hstep.p2p_peerId.trans (h.peerId p)) fun q _ => h.peerId q
  · refine afterNode_forall (P := fun q n => ∀ msg ∈ n.outbox.queue, ⟨q, msg⟩ ∈ s'.sent)
      (fun msg hmsg => ?_) fun q _ msg hmsg => hsub (h.outbox q msg hmsg)
    rcases hstep.moves.2.mem_queue hmsg with hold | hnew
    · exact hsub (h.outbox p msg hold)
    · exact (hsent _).mpr (Or.inr ⟨rfl, hnew⟩)
  · refine afterNode_forall
      (P := fun q n => ∀ msg ∈ n.inbox.queue, Deliverable s'.sent q (.inbox msg))
      (fun msg hmsg => ?_) fun q _ msg hmsg => (h.inbox q msg hmsg).mono hsub
    rcases hstep.moves.1.mem_queue hmsg with hold | hnew
    · exact (h.inbox p msg hold).mono hsub
    · obtain ⟨event, hcauses, -, hswarm⟩ := hstep.causes (Node.mem_toApps.mp hnew)
      exact (deliverable_of_causes hjson h hcauses fun swarmEvent hevent =>
        harrives swarmEvent (hswarm swarmEvent hevent)).mono hsub
  · intro envelope hin
    rcases mem_afterNode.mp hin with hold | ⟨action, haction, henvelope⟩
    · exact (h.wire envelope hold).mono hsub
    · obtain ⟨event, hcauses, hout, -⟩ := hstep.causes haction
      have hpeer := h.peerId p
      refine Backed.mono (backed_of_causes hcauses (fun msg hevent => ?_)
        (hpeer.symm ▸ henvelope)) hsub
      rw [hpeer]
      exact h.outbox p msg (hout msg hevent)
  · exact h.packets_afterNode hstep hsent

/-- A gateway puts nothing on the wire between nodes. -/
theorem Represents.afterGateway (h : Represents json d s) (g : Gateway PeerId)
    (actions : List (Gateway.Action PeerId PeerId)) :
    Represents json (d.afterGateway p g actions) s where
  app := h.app
  peerId := h.peerId
  outbox := h.outbox
  inbox := h.inbox
  wire := by
    intro envelope hin
    rcases mem_afterGateway.mp hin with hold | ⟨action, -, henvelope⟩
    · exact h.wire envelope hold
    · cases action with
      | toOwner response => cases henvelope
      | gmRequest peerId request =>
          cases henvelope
          trivial
      | metaExchangeResponse peerId response =>
          cases henvelope
          trivial
  packets q msg hmsg :=
    (h.packets q msg hmsg).imp (fun hcarried => hcarried.mono Set.subset_union_left) id

/-- The applications after a step of a node. -/
theorem Represents.app_afterNode (h : Represents json d s) {n : Node PeerId}
    {actions : List (P2P.Action PeerId Bytes PeerId)} (happ : s'.app p = n.app)
    (hother : ∀ q, q ≠ p → s'.app q = s.app q) (q : PeerId) :
    s'.app q = ((d.afterNode p n actions).node q).app :=
  afterNode_forall (P := fun q n => s'.app q = n.app) happ
    (fun q hne => (hother q hne).trans (h.app q)) q

/-- A step of a node that the system follows. -/
theorem Represents.app_step (hjson : json.Faithful) (h : Represents json d s)
    {event : Event PeerId} {n : Node PeerId} {out : List (Outbox PeerId)}
    {actions : List (P2P.Action PeerId Bytes PeerId)}
    (hsystem : System.Step sha256 setup.nodes s p event out s') (happ : s'.app p = n.app)
    (hstep : Node.Step sha256 json (d.node p) (.app event) n out actions) :
    Represents json (d.afterNode p n actions) s' :=
  h.afterNode hjson (by nofun) hstep
    (h.app_afterNode happ fun _ hne => hsystem.app_ne hne) fun _ => hsystem.mem_sent

/-- A step of a node that the system does not see. -/
theorem Represents.other_step (hjson : json.Faithful) (h : Represents json d s)
    {label : Node.Label PeerId Bytes PeerId} {n : Node PeerId}
    {actions : List (P2P.Action PeerId Bytes PeerId)}
    (harrives : ∀ event, label = .swarm event → Node.Arrives d p event)
    (hstep : Node.Step sha256 json (d.node p) label n [] actions)
    (happ : n.app = (d.node p).app) : Represents json (d.afterNode p n actions) s :=
  h.afterNode hjson harrives hstep (h.app_afterNode ((h.app p).trans happ.symm) fun _ _ => rfl)
    (by simp)

/-- In the system no advertisement fails, so a panic comes before anything is
sent. -/
theorem sentFirst_of_panics (hs : System.Reachable sha256 setup.nodes setup.params s)
    {event : Event PeerId} {reason : Panic} (h : App.Panics sha256 (s.app p) event reason) :
    (s.app p).sentFirst event = [] := by
  cases event with
  | advertiseTick =>
      have hreturns : App.Returns sha256 (s.app p) .advertiseTick :=
        hs.returns .advertiseTick trivial
      exact absurd h (hreturns.not_panics (hs.safe.valid p).store.accepted reason)
  | _ => rfl

/-- A deployment is represented by a state that the system can reach. -/
def ReachablyRepresents (sha256 : Sha256) (json : GossipJson PeerId Bytes) (setup : Setup PeerId)
    (d : Deployment PeerId Bytes) (s : System PeerId) : Prop :=
  System.Reachable sha256 setup.nodes setup.params s ∧ Represents json d s

theorem simulates (hjson : json.Faithful) :
    Simulates (fun d d' => ∃ move, Step sha256 json setup d move d')
      (fun s s' => ∃ node event out, System.Step sha256 setup.nodes s node event out s')
      (fun _ => True) (ReachablyRepresents sha256 json setup) := by
  rintro d d' s - ⟨hs, h⟩ ⟨move, hstep⟩
  cases hstep with
  | gateway => exact ⟨s, .refl, hs, h.afterGateway _ _⟩
  | network => exact ⟨s, .refl, hs, { h with }⟩
  | @node p label n out actions hp harrives hstep =>
      rcases hstep.app_cases with
        ⟨event, rfl, happ⟩ | ⟨happ, ⟨-, rfl⟩ | ⟨-, event, reason, hpanics, rfl⟩⟩
      · have hsystem := System.Step.of_app p hp (h.deliverable hstep.taken_mem.1) (h.app p) happ
        exact ⟨_, .single ⟨p, event, out, hsystem⟩, hs.step hsystem,
          h.app_step hjson hsystem (System.after_app_self _ _ _ _) hstep⟩
      · exact ⟨s, .refl, hs, h.other_step hjson harrives hstep happ⟩
      · rw [← h.app p] at hpanics hstep
        rw [sentFirst_of_panics hs hpanics] at hstep
        exact ⟨s, .refl, hs, h.other_step hjson harrives hstep happ⟩

/-- A deployment is represented in the beginning, and the steps that it takes are
followed by the system. -/
theorem refines_system (hjson : json.Faithful) :
    Represents json (Deployment.new setup) (System.new setup.params) ∧
      ∀ d s d', System.Reachable sha256 setup.nodes setup.params s → Represents json d s →
        Steps sha256 json setup d d' →
          ∃ s', System.Steps sha256 setup.nodes s s' ∧ Represents json d' s' := by
  refine ⟨.new, fun d s d' hs h hsteps => ?_⟩
  obtain ⟨s', hfollowed, -, h'⟩ :=
    Simulates.run (simulates hjson) (fun _ _ => trivial) hsteps trivial ⟨hs, h⟩
  exact ⟨s', hfollowed, h'⟩

theorem Reachable.represented (hjson : json.Faithful) (h : Reachable sha256 json setup d) :
    ∃ s, System.Reachable sha256 setup.nodes setup.params s ∧ Represents json d s := by
  obtain ⟨s, -, hrep⟩ :=
    Simulates.run (simulates hjson) (fun _ _ => trivial) h trivial ⟨.refl, .new⟩
  exact ⟨s, hrep⟩

/-! ## A run of a deployment

The owner of a gateway hands over a transaction, the gateway sends it to node 1,
and the node stores it. -/

def firstRequest : GmRequestResponse.Request := .newTransaction System.firstTx

def firstSetup : Setup Nat where
  nodes := {0, 1}
  gateways := {2}
  params := Params.default
  submits _ request := request = firstRequest

theorem plainJson_faithful : P2P.plainJson.Faithful := by
  intro message data h
  cases h
  rfl

/-- The gateway once it is connected to node 1. -/
def connected : Gateway Nat where
  p2p := { maroonPeerIds := {1} }
  requests := .new
  responses := .new

/-- The gateway with a request that waits. -/
def waiting : Gateway Nat :=
  { connected with requests := Channel.new.push [firstRequest] }

/-- Node 1 between its network layer and its application. -/
def handed : Node Nat :=
  { Node.createStack 1 Params.default with
    inbox := Channel.new.push [.newTransaction System.firstTx] }

/-- Node 1 with the transaction. -/
def stored : Node Nat :=
  { Node.createStack 1 Params.default with app := System.holder }

/-- All are connected with one another. -/
def linked : Deployment Nat (GossipMessage Nat) :=
  (new firstSetup).afterNetwork ⊤ ∅

def asked : Deployment Nat (GossipMessage Nat) :=
  ((linked.afterGateway 2 connected []).afterGateway 2 waiting []).afterGateway 2
    connected [.gmRequest 1 firstRequest]

def delivered : Deployment Nat (GossipMessage Nat) :=
  (asked.afterNode 1 handed
    [.toApp (.newTransaction System.firstTx), .gmResponse 2 .acknowledged]).afterNode 1 stored []

theorem delivered_links {p q : Nat} (hne : p ≠ q) : delivered.links.Adj p q :=
  hne

theorem asked_reachable (sha256 : Sha256) :
    Reachable sha256 P2P.plainJson firstSetup asked := by
  have hnew : Reachable sha256 P2P.plainJson firstSetup (new firstSetup) := .refl
  have h0 : Reachable sha256 P2P.plainJson firstSetup linked := hnew.step (.network subset_rfl)
  have h1 := h0.step (@Step.of_gateway _ _ _ _ _ _ _ _ connected
    (.p2p (.swarm (.connectionEstablished 1 0))) _ 2 (by decide) (fun event hevent => by
      cases hevent
      exact .connectionEstablished (by decide)) nofun rfl (.p2p .swarm))
  have h2 := h1.step (@Step.of_gateway _ _ _ _ _ _ _ connected waiting (.send firstRequest) _ 2
    (by decide) nofun (fun request hrequest => by
      cases hrequest
      rfl) rfl .send)
  exact h2.step (@Step.of_gateway _ _ _ _ _ _ _ waiting connected
    (.p2p (.request firstRequest [1])) _ 2 (by decide) nofun nofun rfl (.p2p (.request rfl rfl)))

theorem delivered_reachable (sha256 : Sha256) :
    Reachable sha256 P2P.plainJson firstSetup delivered := by
  have hin : .gmRequest 2 1 firstRequest ∈ asked.onWire :=
    mem_onWire_put.mpr (Or.inr ⟨_, List.mem_singleton_self _, rfl⟩)
  have h1 := (asked_reachable sha256).takes_in (by decide) rfl rfl rfl hin
    (delivered_links (by decide))
  exact h1.handles (by decide) (afterNode_self _ _ _ _) rfl rfl (.inbox rfl)
    (System.holder_receives sha256)

theorem refines_system_delivered : ∃ s : System Nat,
    System.Steps (fun _ => Vector.replicate 32 0) {0, 1} (System.new Params.default) s ∧
      s.app 1 = System.holder := by
  obtain ⟨hnew, hfollowed⟩ := @refines_system _ _ P2P.plainJson _ (fun _ => Vector.replicate 32 0)
    firstSetup plainJson_faithful
  obtain ⟨s, hsteps, hrep⟩ := hfollowed _ _ _ .refl hnew (delivered_reachable _)
  exact ⟨s, hsteps, hrep.app 1⟩

end Deployment

end Maroon
