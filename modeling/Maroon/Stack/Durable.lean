import Maroon.Stack.Acknowledged
import Maroon.Stack.Settling

/-!
# What a response to a gateway is worth

A response that the owner of a gateway gets came from a node, which answered a
transaction of this owner.  The node has that transaction from then on, in its
store or in the channel to its application, until it is shut down
(`acknowledged_durable`).

Three parties take part: the gateway asks only for what its owner handed over,
the node acknowledges only what it was asked for, and no step of the node loses
a transaction.
-/

namespace Maroon

open Lib

namespace Node

variable {PeerId Bytes ResponseChannel : Type} [LinearOrder PeerId] {sha256 : Sha256}
  {json : GossipJson PeerId Bytes} {n n' : Node PeerId}
  {label : Label PeerId Bytes ResponseChannel} {out : List (Outbox PeerId)}
  {actions : List (P2P.Action PeerId Bytes ResponseChannel)}

/-- A node whose application still runs after a step has what it had. -/
theorem Step.has (h : Step sha256 json n label n' out actions) (hopen : n'.inbox.isOpen = true)
    {id : Nat} (hhas : n.Has id) : n'.Has id := by
  have hqueue := (h.moves.1.of_open hopen).2
  rcases hhas with hstored | ⟨msg, hmsg, htx⟩
  · exact Or.inl (h.heldIds_subset hstored)
  · have hin : msg ∈ label.takenInbox ++ n'.inbox.queue :=
      hqueue ▸ List.mem_append_left _ hmsg
    rcases List.mem_append.mp hin with htaken | hwaits
    · rcases h.app_cases with ⟨event, rfl, happ⟩ | ⟨-, ⟨hnone, -⟩ | ⟨hclosed, -⟩⟩
      · cases event with
        | inbox msg' =>
            obtain rfl := List.mem_singleton.mp htaken
            exact Or.inl (happ.mem_transactions.mpr (Or.inr htx))
        | _ => cases htaken
      · cases label with
        | app event => cases hnone
        | _ => cases htaken
      · rw [hopen] at hclosed
        cases hclosed
    · exact Or.inr ⟨msg, hwaits, htx⟩

/-- A node that acknowledges a transaction has it. -/
theorem Step.acknowledges_has {channel : ResponseChannel} {response : GmRequestResponse.Response}
    (h : Step sha256 json n label n' out actions) (hack : .gmResponse channel response ∈ actions) :
    response = .acknowledged ∧ ∃ peer tx, label = handsOver peer tx channel ∧
      (n'.inbox.isOpen = true → n'.Has tx.id) := by
  obtain ⟨hresponse, peer, tx, rfl, hsent⟩ := h.acknowledges hack
  refine ⟨hresponse, peer, tx, rfl, fun hopen => ?_⟩
  have hqueue : n.inbox.queue ++ toApps actions = n'.inbox.queue := (h.moves.1.of_open hopen).2
  have hwaits : .newTransaction tx ∈ n'.inbox.queue :=
    hqueue ▸ List.mem_append_right _ (hsent hopen)
  exact Or.inr ⟨_, hwaits, tx, List.mem_singleton_self tx, rfl⟩

end Node

namespace Deployment

variable {PeerId Bytes : Type}

/-- Behind each response there is a request for a transaction that the node has. -/
structure Answered (setup : Setup PeerId) (d : Deployment PeerId Bytes) : Prop where
  asked : ∀ g p request, .gmRequest g p request ∈ d.sent → setup.submits g request
  kept : ∀ p g response, .gmResponse p g response ∈ d.sent → p ∈ setup.nodes ∧
    response = .acknowledged ∧ ∃ tx, .gmRequest g p (.newTransaction tx) ∈ d.sent ∧
      ((d.node p).inbox.isOpen = true → (d.node p).Has tx.id)
  responses : ∀ g, ∀ response ∈ (d.gateway g).responses.queue,
    ∃ p, .gmResponse p g response ∈ d.sent

theorem Answered.new {setup : Setup PeerId} :
    Answered setup (new setup : Deployment PeerId Bytes) where
  asked _ _ _ hin := absurd hin (Set.notMem_empty _)
  kept _ _ _ hin := absurd hin (Set.notMem_empty _)
  responses _ _ hin := absurd hin List.not_mem_nil

variable [LinearOrder PeerId] {sha256 : Sha256} {json : GossipJson PeerId Bytes}
  {setup : Setup PeerId} {d d' : Deployment PeerId Bytes} {p : PeerId} {move : Move PeerId Bytes}

theorem Answered.afterGateway (h : Answered setup d) (hgenuine : Genuine setup d)
    {label : Gateway.Label PeerId PeerId} {g : Gateway PeerId}
    {actions : List (Gateway.Action PeerId PeerId)}
    (harrives : ∀ event, label = .p2p (.swarm event) → Gateway.Arrives d p event)
    (hstep : Gateway.Step (d.gateway p) label g actions) :
    Answered setup (d.afterGateway p g actions) where
  asked q r request hin := by
    rcases mem_afterGateway.mp hin with hold | ⟨action, haction, henvelope⟩
    · exact h.asked q r request hold
    · cases action with
      | gmRequest peerId request' =>
          cases henvelope
          exact (hgenuine.requests p _ (hstep.sent_waited haction)).2
      | _ => cases henvelope
  kept q r response hin := by
    rcases mem_afterGateway.mp hin with hold | ⟨action, -, henvelope⟩
    · obtain ⟨hq, hresponse, tx, hasked, hhas⟩ := h.kept q r response hold
      exact ⟨hq, hresponse, tx, Or.inl hasked, hhas⟩
    · cases action with
      | _ => cases henvelope
  responses := by
    have hkept : ∀ q, ∀ response ∈ (d.gateway q).responses.queue,
        ∃ peer, .gmResponse peer q response ∈ (d.afterGateway p g actions).sent :=
      fun q response hin => (h.responses q response hin).imp fun _ hsent => Or.inl hsent
    refine afterGateway_forall
      (P := fun q g' => ∀ response ∈ g'.responses.queue,
        ∃ peer, .gmResponse peer q response ∈ (d.afterGateway p g actions).sent)
      (fun response hin => ?_) fun q _ => hkept q
    rcases hstep.mem_responses hin with hold | hnew
    · exact hkept p response hold
    · obtain ⟨peer, rfl⟩ := hstep.toOwner hnew
      cases harrives _ rfl with
      | gmResponse hsent => exact ⟨peer, Or.inl hsent.1⟩

theorem Answered.afterNode (h : Answered setup d) (hp : p ∈ setup.nodes)
    {label : Node.Label PeerId Bytes PeerId} {n : Node PeerId} {out : List (Outbox PeerId)}
    {actions : List (P2P.Action PeerId Bytes PeerId)}
    (harrives : ∀ event, label = .swarm event → Node.Arrives d p event)
    (hstep : Node.Step sha256 json (d.node p) label n out actions) :
    Answered setup (d.afterNode p n actions) where
  asked q r request hin := by
    rcases mem_afterNode.mp hin with hold | ⟨action, -, henvelope⟩
    · exact h.asked q r request hold
    · cases action with
      | _ => cases henvelope
  kept q r response hin := by
    rcases mem_afterNode.mp hin with hold | ⟨action, haction, henvelope⟩
    · obtain ⟨hq, hresponse, tx, hasked, hhas⟩ := h.kept q r response hold
      refine ⟨hq, hresponse, tx, Or.inl hasked, ?_⟩
      rcases eq_or_ne q p with rfl | hne
      · rw [afterNode_self]
        exact fun hopen => hstep.has hopen (hhas (hstep.moves.1.of_open hopen).1)
      · rw [afterNode_ne d hne]
        exact hhas
    · cases action with
      | gmResponse channel response' =>
          cases henvelope
          obtain ⟨hresponse, peer, tx, rfl, hhas⟩ := hstep.acknowledges_has haction
          cases harrives _ rfl with
          | gmRequest hasked =>
              refine ⟨hp, hresponse, tx, Or.inl hasked.1, ?_⟩
              rw [afterNode_self]
              exact hhas
      | _ => cases henvelope
  responses q response hin :=
    (h.responses q response hin).imp fun _ hsent => Or.inl hsent

theorem Reachable.answered (hjson : json.Faithful) (h : Reachable sha256 json setup d) :
    Answered setup d := by
  refine (Reachable.invariant (fun d => Reachable sha256 json setup d ∧ Answered setup d)
    ⟨.refl, .new⟩ ?_ h).2
  rintro d d' move ⟨hr, hanswered⟩ hstep
  refine ⟨hr.step hstep, ?_⟩
  cases hstep with
  | node hp harrives hstep => exact hanswered.afterNode hp harrives hstep
  | gateway _ harrives _ hstep => exact hanswered.afterGateway (hr.genuine hjson) harrives hstep
  | network => exact ⟨hanswered.asked, hanswered.kept, hanswered.responses⟩

/-- Each response that the owner of a gateway gets acknowledges a transaction that
this owner has handed over, and comes from a node that has the transaction until
it is shut down. -/
theorem acknowledged_durable (hjson : json.Faithful)
    (hvalid : ∀ tx, setup.Submitted tx → Accepted tx.id) (h : Reachable sha256 json setup d)
    {response : GmRequestResponse.Response} (hgot : response ∈ (d.gateway p).responses.queue) :
    response = .acknowledged ∧ ∃ q ∈ setup.nodes, ∃ tx, setup.submits p (.newTransaction tx) ∧
      .gmRequest p q (.newTransaction tx) ∈ d.sent ∧
        ((d.node q).shutdown = false → (d.node q).Has tx.id) := by
  have hanswered := h.answered hjson
  obtain ⟨q, hsent⟩ := hanswered.responses p response hgot
  obtain ⟨hq, hresponse, tx, hasked, hhas⟩ := hanswered.kept q p response hsent
  refine ⟨hresponse, q, hq, tx, hanswered.asked p q _ hasked, hasked, fun hup => ?_⟩
  exact hhas ((h.handled hjson hvalid).running q hup).1

/-! The response of node 1 reaches the owner. -/

def thanked : Gateway Nat :=
  { connected with responses := Channel.new.push [.acknowledged] }

theorem thanked_reachable (sha256 : Sha256) : Reachable sha256 P2P.plainJson firstSetup
    (delivered.afterGateway 2 thanked [.toOwner .acknowledged]) := by
  have hin : .gmResponse 1 2 .acknowledged ∈ delivered.onWire :=
    mem_onWire_afterNode.mpr (Or.inl (mem_onWire_afterNode.mpr
      (Or.inr ⟨_, List.mem_cons_of_mem _ (List.mem_singleton_self _), rfl⟩)))
  exact (delivered_reachable sha256).step (@Step.of_gateway _ _ _ _ _ _ _ connected thanked
    (.p2p (.swarm (.behaviour (.requestResponse (.message 1 (.response .acknowledged)))))) _ 2
    (by decide) (fun event hevent => by
      cases hevent
      exact .gmResponse hin (delivered_links (by decide))) nofun rfl (.p2p .swarm))

theorem acknowledged_durable_thanked : ∃ q ∈ firstSetup.nodes, ∃ tx : Transaction,
    firstSetup.submits 2 (.newTransaction tx) ∧
      ((delivered.node q).shutdown = false → (delivered.node q).Has tx.id) := by
  obtain ⟨-, q, hq, tx, hsubmits, -, hhas⟩ := @acknowledged_durable _ _ _ _ _ _ _ 2
    plainJson_faithful firstSetup_accepted (thanked_reachable fun _ => Vector.replicate 32 0)
    .acknowledged (List.mem_singleton_self _)
  exact ⟨q, hq, tx, hsubmits, hhas⟩

end Deployment

end Maroon
