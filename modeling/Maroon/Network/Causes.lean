import Maroon.Network.P2P

/-!
# Why the network layer acts

A round of the event loop acts for a reason that can be read off its event.
`Causes` has one constructor for each action of the source, and `round_causes`
says that a round does nothing else.  `round_moved` is about the sets of alive
peers.
-/

namespace Maroon

namespace P2P

variable {PeerId Bytes Channel : Type}

/-- What the sender of a message of the role protocol calls itself, and that it
is `peer`. -/
def Announces (peer : PeerId) (role : MetaExchange.Role) :
    SwarmEvent PeerId (MaroonEvent PeerId Bytes Channel) → Prop
  | .behaviour (.metaExchange (.message peer' message)) =>
      peer' = peer ∧ MetaExchange.senderRole message = role
  | _ => False

/-- What an event may do to the sets. -/
structure Moved (before : P2P PeerId) (event : Event PeerId Bytes Channel)
    (after : P2P PeerId) : Prop where
  peerId : after.peerId = before.peerId
  joined : ∀ peer ∈ after.alivePeerIds, peer ∈ before.alivePeerIds ∨
    ∃ swarmEvent, event = .swarm swarmEvent ∧ Announces peer .node swarmEvent
  joinedGateways : ∀ peer ∈ after.aliveGatewayIds, peer ∈ before.aliveGatewayIds ∨
    ∃ swarmEvent, event = .swarm swarmEvent ∧ Announces peer .gateway swarmEvent
  left : ∀ peer ∈ before.alivePeerIds, peer ∈ after.alivePeerIds ∨
    ∃ connectionId, event = .swarm (.connectionClosed peer connectionId)

theorem Moved.refl (self : P2P PeerId) (event : Event PeerId Bytes Channel) :
    Moved self event self where
  peerId := rfl
  joined _ hin := Or.inl hin
  joinedGateways _ hin := Or.inl hin
  left _ hin := Or.inl hin

variable [DecidableEq PeerId]

/-- The event makes a node act so. -/
inductive Causes (json : GossipJson PeerId Bytes) (self : P2P PeerId) :
    Event PeerId Bytes Channel → Action PeerId Bytes Channel → Prop where
  | publish {state : NodeState} {data : Bytes} :
      json.toVec { peerId := self.peerId, payload := .state state } = some data →
      Causes json self (.outbox (.state state)) (.publish data)
  | getMissingTx {peerId : PeerId} {ranges : List U64BlobIdClosedInterval} :
      Causes json self (.outbox (.requestMissingTxs peerId ranges))
        (.m2mRequest peerId (.getMissingTx ranges))
  | sendMissingTx {peerId : PeerId} {txs : List Transaction} :
      Causes json self (.outbox (.requestedTxsForPeer peerId txs))
        (.m2mRequest peerId (.missingTx txs))
  | state {data : Bytes} {peerId : PeerId} {state : NodeState} :
      json.fromSlice data = some { peerId, payload := .state state } →
      Causes json self (.swarm (.behaviour (.gossipsub data))) (.toApp (.state peerId state))
  | nodes {event : SwarmEvent PeerId (MaroonEvent PeerId Bytes Channel)} :
      Causes json self (.swarm event)
        (.toApp (.nodes (self.handleSwarmEvent json event).1.alivePeerIds))
  | newTransaction {peer : PeerId} {tx : Transaction} {channel : Channel} :
      Causes json self (.swarm (.behaviour (.requestResponse
        (.message peer (.request (.newTransaction tx) channel))))) (.toApp (.newTransaction tx))
  | acknowledged {peer : PeerId} {tx : Transaction} {channel : Channel} :
      Causes json self (.swarm (.behaviour (.requestResponse
        (.message peer (.request (.newTransaction tx) channel)))))
        (.gmResponse channel .acknowledged)
  | requestMissingTxs {peer : PeerId} {ranges : List U64BlobIdClosedInterval}
      {channel : Channel} :
      Causes json self (.swarm (.behaviour (.m2mReqRes
        (.message peer (.request (.getMissingTx ranges) channel)))))
        (.toApp (.requestMissingTxs peer ranges))
  | missingTx {peer : PeerId} {txs : List Transaction} {channel : Channel} :
      Causes json self (.swarm (.behaviour (.m2mReqRes
        (.message peer (.request (.missingTx txs) channel))))) (.toApp (.missingTx txs))
  | ack {peer : PeerId} {request : M2mRequestResponse.Request} {channel : Channel} :
      Causes json self (.swarm (.behaviour (.m2mReqRes (.message peer (.request request channel)))))
        (.m2mResponse channel .ack)
  | metaExchangeRequest {peerId : PeerId} {connectionId : ConnectionId} :
      Causes json self (.swarm (.connectionEstablished peerId connectionId))
        (.metaExchangeRequest peerId { role := .node })
  | metaExchangeResponse {peer : PeerId} {request : MetaExchange.Request} {channel : Channel} :
      Causes json self (.swarm (.behaviour (.metaExchange
        (.message peer (.request request channel)))))
        (.metaExchangeResponse channel { role := .node })

variable {json : GossipJson PeerId Bytes} {self : P2P PeerId}

theorem handleReceiverOutbox_causes {msg : Outbox PeerId} {action : Action PeerId Bytes Channel}
    (h : action ∈ handleReceiverOutbox json self.peerId msg) :
    Causes json self (.outbox msg) action := by
  cases msg with
  | state state =>
      rw [handleReceiverOutbox] at h
      cases hvec : json.toVec { peerId := self.peerId, payload := .state state } with
      | none =>
          rw [hvec] at h
          cases h
      | some data =>
          rw [hvec] at h
          rw [List.mem_singleton.mp h]
          exact .publish hvec
  | requestMissingTxs peerId ranges =>
      rw [List.mem_singleton.mp h]
      exact .getMissingTx
  | requestedTxsForPeer peerId txs =>
      rw [List.mem_singleton.mp h]
      exact .sendMissingTx

theorem handleMetaExchange_causes {event : MetaExchange.Event PeerId Channel}
    {action : Action PeerId Bytes Channel}
    (h : action ∈ (self.handleMetaExchange event : P2P PeerId × List (Action _ Bytes _)).2) :
    Causes json self (.swarm (.behaviour (.metaExchange event))) action := by
  have hnodes := @Causes.nodes _ Bytes Channel _ json self (.behaviour (.metaExchange event))
  cases event with
  | other => cases h
  | message peer message =>
      cases message with
      | response response =>
          obtain ⟨role⟩ := response
          cases role with
          | gateway => cases h
          | node =>
              rw [List.mem_singleton.mp h]
              exact hnodes
      | request request channel =>
          obtain ⟨role⟩ := request
          rcases List.mem_cons.mp h with rfl | h
          · exact .metaExchangeResponse
          · cases role with
            | gateway => cases h
            | node =>
                rw [List.mem_singleton.mp h]
                exact hnodes

theorem handleM2mReqRes_causes {event : M2mRequestResponse.Event PeerId Channel}
    {action : Action PeerId Bytes Channel}
    (h : action ∈ (handleM2mReqRes event : List (Action _ Bytes _))) :
    Causes json self (.swarm (.behaviour (.m2mReqRes event))) action := by
  cases event with
  | other => cases h
  | message peer message =>
      cases message with
      | response response => cases h
      | request request channel =>
          cases request with
          | getMissingTx ranges =>
              rcases List.mem_cons.mp h with rfl | h
              · exact .requestMissingTxs
              · rw [List.mem_singleton.mp h]
                exact .ack
          | missingTx txs =>
              rcases List.mem_cons.mp h with rfl | h
              · exact .missingTx
              · rw [List.mem_singleton.mp h]
                exact .ack

theorem handleRequestResponse_causes {event : GmRequestResponse.Event PeerId Channel}
    {action : Action PeerId Bytes Channel}
    (h : action ∈ (handleRequestResponse event : List (Action _ Bytes _))) :
    Causes json self (.swarm (.behaviour (.requestResponse event))) action := by
  cases event with
  | other => cases h
  | message peer message =>
      cases message with
      | response response => cases h
      | request request channel =>
          obtain ⟨tx⟩ := request
          rcases List.mem_cons.mp h with rfl | h
          · exact .newTransaction
          · rw [List.mem_singleton.mp h]
            exact .acknowledged

/-- A round acts for the reasons of `Causes` only. -/
theorem round_causes {event : Event PeerId Bytes Channel} {action : Action PeerId Bytes Channel}
    (h : action ∈ (self.round json event).2) : Causes json self event action := by
  cases event with
  | outbox msg => exact handleReceiverOutbox_causes h
  | swarm event =>
      have hnodes := @Causes.nodes _ Bytes Channel _ json self event
      cases event with
      | behaviour event =>
          cases event with
          | ping => cases h
          | gossipsubOther => cases h
          | gossipsub data =>
              simp only [round, handleSwarmEvent] at h
              split at h
              next peerId state hslice =>
                rw [List.mem_singleton.mp h]
                exact .state hslice
              next => cases h
          | requestResponse event => exact handleRequestResponse_causes h
          | metaExchange event => exact handleMetaExchange_causes h
          | m2mReqRes event => exact handleM2mReqRes_causes h
      | connectionEstablished peerId connectionId =>
          rw [List.mem_singleton.mp h]
          exact .metaExchangeRequest
      | connectionClosed peerId connectionId =>
          simp only [handleSwarmEvent] at hnodes
          simp only [round, handleSwarmEvent] at h
          split at h
          next halive =>
            rw [if_pos halive] at hnodes
            rw [List.mem_singleton.mp h]
            exact hnodes
          next => cases h
      | outgoingConnectionError peerId connectionId => cases h
      | other => cases h

/-! ## The sets -/

/-- A peer that says what it is joins one of the sets. -/
theorem Moved.insertByRole (self : P2P PeerId) {peer : PeerId} {role : MetaExchange.Role}
    {event : SwarmEvent PeerId (MaroonEvent PeerId Bytes Channel)}
    (h : Announces peer role event) :
    Moved self (.swarm event)
      (self.insertByRole peer role : P2P PeerId × List (Action _ Bytes Channel)).1 := by
  cases role with
  | gateway =>
      refine ⟨rfl, fun _ hin => Or.inl hin, fun p hin => ?_, fun _ hin => Or.inl hin⟩
      rcases Finset.mem_insert.mp hin with rfl | hin
      · exact Or.inr ⟨event, rfl, h⟩
      · exact Or.inl hin
  | node =>
      refine ⟨rfl, fun p hin => ?_, fun _ hin => Or.inl hin, fun p hin => ?_⟩
      · rcases Finset.mem_insert.mp hin with rfl | hin
        · exact Or.inr ⟨event, rfl, h⟩
        · exact Or.inl hin
      · exact Or.inl (Finset.mem_insert_of_mem hin)

/-- A peer joins a set when it says what it is, and it leaves when a connection
to it closes. -/
theorem round_moved (json : GossipJson PeerId Bytes) (self : P2P PeerId)
    (event : Event PeerId Bytes Channel) : Moved self event (self.round json event).1 := by
  cases event with
  | outbox msg => exact .refl _ _
  | swarm event =>
      cases event with
      | behaviour event =>
          cases event with
          | gossipsub data =>
              simp only [round, handleSwarmEvent]
              split
              next => exact .refl _ _
              next => exact .refl _ _
          | metaExchange event =>
              cases event with
              | other => exact .refl _ _
              | message peer message =>
                  cases message with
                  | response response => exact .insertByRole self ⟨rfl, rfl⟩
                  | request request channel => exact .insertByRole self ⟨rfl, rfl⟩
          | _ => exact .refl _ _
      | connectionClosed peerId connectionId =>
          simp only [round, handleSwarmEvent]
          split
          next =>
            refine ⟨rfl, fun p hin => Or.inl (Finset.mem_of_mem_erase hin),
              fun p hin => Or.inl (Finset.mem_of_mem_erase hin), fun p hin => ?_⟩
            by_cases hp : p = peerId
            · exact Or.inr ⟨connectionId, by rw [hp]⟩
            · exact Or.inl (Finset.mem_erase_of_ne_of_mem hp hin)
          next =>
            exact ⟨rfl, fun _ hin => Or.inl hin,
              fun p hin => Or.inl (Finset.mem_of_mem_erase hin), fun _ hin => Or.inl hin⟩
      | _ => exact .refl _ _

end P2P

end Maroon
