import Maroon.Network.P2P

/-!
# The alive set and the connections

A *session* is the network layer of a node together with a record of what
happened to it.  The record holds the open connections, the peers that announced
the role of a node since they last had no connection, and what was sent to the
application.  The handlers do not read it.

The alive set is meant to hold the node itself and the announced peers that are
connected (`Healthy`).  A round does one of four things to it (`Moves`), and
three of them keep it right.  The fourth is a connection that closes.  The
handler then drops the peer, also when the peer has another connection, and
nothing adds the peer again until it announces its role once more.  So the alive
set is right throughout exactly the runs where an announced peer only ever loses
its last connection (`healthy_iff_closesOnly`).

That the node is in its own alive set, and that the application heard of the
last change of the set, holds in every run (`Known`).
-/

namespace Maroon

open Lib Outcome

namespace P2P

variable {PeerId Bytes Channel : Type}

/-! ## Sessions -/

structure Session (PeerId : Type) where
  p2p : P2P PeerId
  connections : Connections PeerId
  /-- The peers that announced the role of a node since they last had no connection. -/
  announced : Finset PeerId
  /-- What was sent to the application, oldest first. -/
  delivered : List (Inbox PeerId)

def Session.start (peerId : PeerId) : Session PeerId where
  p2p := P2P.start peerId
  connections := ∅
  announced := ∅
  delivered := []

/-- What an action sends to the application. -/
def Action.toApp? : Action PeerId Bytes Channel → Option (Inbox PeerId)
  | .toApp msg => some msg
  | _ => none

/-- The set of nodes that a message tells the application. -/
def nodes? : Inbox PeerId → Option (Finset PeerId)
  | .nodes nodes => some nodes
  | _ => none

/-- The sets of nodes that some actions tell the application, oldest first. -/
def toldNodes (actions : List (Action PeerId Bytes Channel)) : List (Finset PeerId) :=
  (actions.filterMap Action.toApp?).filterMap nodes?

/-- The sets of nodes that the application was told, oldest first. -/
def Session.sentNodes (s : Session PeerId) : List (Finset PeerId) :=
  s.delivered.filterMap nodes?

/-- An announced peer that loses a connection has no other. -/
def Session.ClosesOnly (s : Session PeerId) : Event PeerId Bytes Channel → Prop
  | .swarm (.connectionClosed peerId connectionId) =>
      peerId ∈ s.announced → OnlyHandle s.connections peerId connectionId
  | _ => True

theorem Session.closesOnly_of_ne {s : Session PeerId} {event : Event PeerId Bytes Channel}
    (h : ∀ peerId connectionId, event ≠ .swarm (.connectionClosed peerId connectionId)) :
    s.ClosesOnly event := by
  unfold Session.ClosesOnly
  split
  next => exact absurd rfl (h _ _)
  next => trivial

theorem toldNodes_append (actions actions' : List (Action PeerId Bytes Channel)) :
    toldNodes (actions ++ actions') = toldNodes actions ++ toldNodes actions' := by
  simp [toldNodes]

theorem toldNodes_handleReceiverOutbox (json : GossipJson PeerId Bytes) (peerId : PeerId)
    (msg : Outbox PeerId) :
    toldNodes (handleReceiverOutbox json peerId msg : List (Action PeerId Bytes Channel)) = [] := by
  cases msg with
  | state state =>
      simp only [handleReceiverOutbox]
      split <;> rfl
  | requestMissingTxs peerId ranges => rfl
  | requestedTxsForPeer peerId txs => rfl

theorem toldNodes_handleRequestResponse (event : GmRequestResponse.Event PeerId Channel) :
    toldNodes (handleRequestResponse event : List (Action PeerId Bytes Channel)) = [] := by
  unfold handleRequestResponse
  split <;> rfl

theorem toldNodes_handleM2mReqRes (event : M2mRequestResponse.Event PeerId Channel) :
    toldNodes (handleM2mReqRes event : List (Action PeerId Bytes Channel)) = [] := by
  unfold handleM2mReqRes
  split <;> rfl

section Rounds

variable [DecidableEq PeerId]

/-- The record of announcements after an event of the swarm. -/
def announcedAfter (connections : Connections PeerId) (announced : Finset PeerId) :
    SwarmEvent PeerId (MaroonEvent PeerId Bytes Channel) → Finset PeerId
  | .behaviour (.metaExchange (.message peer message)) =>
      match MetaExchange.senderRole message with
      | .node => insert peer announced
      | .gateway => announced
  | .connectionClosed peerId connectionId =>
      if peerId ∈ connectedPeers (connections.erase (peerId, connectionId)) then announced
      else announced.erase peerId
  | _ => announced

/-- One round of the event loop, with the record of what it did and saw. -/
def Session.step (json : GossipJson PeerId Bytes) (s : Session PeerId)
    (event : Event PeerId Bytes Channel) : Session PeerId where
  p2p := (s.p2p.round json event).1
  connections :=
    match event with
    | .outbox _ => s.connections
    | .swarm event => connectionsAfter s.connections event
  announced :=
    match event with
    | .outbox _ => s.announced
    | .swarm event => announcedAfter s.connections s.announced event
  delivered := s.delivered ++ (s.p2p.round json event).2.filterMap Action.toApp?

/-- What the swarm promises.  No connection leads to the node itself, and roles
are exchanged over open connections only. -/
def Session.Promised (s : Session PeerId) : Event PeerId Bytes Channel → Prop
  | .outbox _ => True
  | .swarm (.behaviour (.metaExchange (.message peer _))) => peer ∈ connectedPeers s.connections
  | .swarm (.connectionEstablished peerId connectionId) =>
      (peerId, connectionId) ∉ s.connections ∧ peerId ≠ s.p2p.peerId
  | .swarm event => Reported s.connections event

/-- The alive peers are the node and the connected peers that announced that
they are nodes. -/
def Session.Right (s : Session PeerId) : Prop :=
  s.p2p.alivePeerIds = insert s.p2p.peerId (s.announced ∩ connectedPeers s.connections)

instance (s : Session PeerId) : Decidable s.Right :=
  inferInstanceAs (Decidable (_ = _))

/-! ## One round -/

/-- What a round does to the alive set and to the record. -/
inductive Moves (s s' : Session PeerId) : Event PeerId Bytes Channel → Prop where
  | quiet {event : Event PeerId Bytes Channel} :
      (∀ peerId connectionId, event ≠ .swarm (.connectionClosed peerId connectionId)) →
      s'.p2p.alivePeerIds = s.p2p.alivePeerIds → s'.announced = s.announced →
      s'.connections = s.connections → s'.sentNodes = s.sentNodes → Moves s s' event
  | opened {peerId : PeerId} {connectionId : ConnectionId} :
      s'.p2p.alivePeerIds = s.p2p.alivePeerIds → s'.announced = s.announced →
      s'.connections = insert (peerId, connectionId) s.connections →
      s'.sentNodes = s.sentNodes →
      Moves s s' (.swarm (.connectionEstablished peerId connectionId))
  | met {peer : PeerId} {message : MetaExchange.Message Channel} :
      s'.p2p.alivePeerIds = insert peer s.p2p.alivePeerIds →
      s'.announced = insert peer s.announced → s'.connections = s.connections →
      s'.sentNodes = s.sentNodes ++ [s'.p2p.alivePeerIds] →
      Moves s s' (.swarm (.behaviour (.metaExchange (.message peer message))))
  | closed {peerId : PeerId} {connectionId : ConnectionId} :
      s'.p2p.alivePeerIds = s.p2p.alivePeerIds.erase peerId →
      s'.connections = s.connections.erase (peerId, connectionId) →
      s'.announced = (if peerId ∈ connectedPeers s'.connections then s.announced
        else s.announced.erase peerId) →
      s'.sentNodes = s.sentNodes ++
        (if peerId ∈ s.p2p.alivePeerIds then [s'.p2p.alivePeerIds] else []) →
      Moves s s' (.swarm (.connectionClosed peerId connectionId))

theorem step_sentNodes (json : GossipJson PeerId Bytes) (s : Session PeerId)
    (event : Event PeerId Bytes Channel) :
    (s.step json event).sentNodes = s.sentNodes ++ toldNodes (s.p2p.round json event).2 := by
  simp [Session.step, Session.sentNodes, toldNodes]

/-- A round that leaves the sets alone and tells the application of no nodes. -/
theorem moves_quiet {json : GossipJson PeerId Bytes} {s : Session PeerId}
    {event : Event PeerId Bytes Channel}
    (hevent : ∀ peerId connectionId, event ≠ .swarm (.connectionClosed peerId connectionId))
    (hround : (s.p2p.round json event).1.alivePeerIds = s.p2p.alivePeerIds)
    (htold : toldNodes (s.p2p.round json event).2 = [])
    (hannounced : (s.step json event).announced = s.announced)
    (hconnections : (s.step json event).connections = s.connections) :
    Moves s (s.step json event) event := by
  refine .quiet hevent hround hannounced hconnections ?_
  rw [step_sentNodes, htold, List.append_nil]

/-- A message that states a role may be answered, and then the role decides. -/
theorem handleMetaExchange_message (Bytes : Type) (self : P2P PeerId) (peer : PeerId)
    (message : MetaExchange.Message Channel) :
    ∃ answer : List (Action PeerId Bytes Channel), toldNodes answer = [] ∧
      self.handleMetaExchange (.message peer message) =
        Prod.map id (answer ++ ·) (self.insertByRole peer (MetaExchange.senderRole message)) := by
  cases message with
  | request request channel => exact ⟨[_], rfl, rfl⟩
  | response response => exact ⟨[], rfl, rfl⟩

theorem moves_metaExchange (json : GossipJson PeerId Bytes) (s : Session PeerId)
    {event : Event PeerId Bytes Channel} {peer : PeerId} {message : MetaExchange.Message Channel}
    (hevent : event = .swarm (.behaviour (.metaExchange (.message peer message)))) :
    Moves s (s.step json event) event := by
  subst hevent
  obtain ⟨answer, hanswer, hround⟩ := handleMetaExchange_message Bytes s.p2p peer message
  cases hrole : MetaExchange.senderRole message with
  | gateway =>
      rw [hrole] at hround
      refine moves_quiet nofun ?_ ?_ ?_ rfl
      · simp [round, handleSwarmEvent, hround, insertByRole]
      · simp [round, handleSwarmEvent, hround, insertByRole, hanswer]
      · simp [Session.step, announcedAfter, hrole]
  | node =>
      rw [hrole] at hround
      refine .met ?_ ?_ rfl ?_
      · simp [Session.step, round, handleSwarmEvent, hround, insertByRole]
      · simp [Session.step, announcedAfter, hrole]
      · have htold : toldNodes (s.p2p.round json
            (.swarm (.behaviour (.metaExchange (.message peer message))))).2 =
              [insert peer s.p2p.alivePeerIds] := by
          simp only [round, handleSwarmEvent, hround, insertByRole, Prod.map_snd,
            toldNodes_append, hanswer, List.nil_append]
          rfl
        rw [step_sentNodes, htold]
        simp [Session.step, round, handleSwarmEvent, hround, insertByRole]

theorem moves_connectionClosed (json : GossipJson PeerId Bytes) (s : Session PeerId)
    {event : Event PeerId Bytes Channel} {peerId : PeerId} {connectionId : ConnectionId}
    (hevent : event = .swarm (.connectionClosed peerId connectionId)) :
    Moves s (s.step json event) event := by
  subst hevent
  have hround : (s.p2p.round json (.swarm (.connectionClosed peerId connectionId) :
      Event PeerId Bytes Channel)) = s.p2p.handleSwarmEvent json
        (.connectionClosed peerId connectionId) := rfl
  simp only [handleSwarmEvent] at hround
  have halive : (s.step json (.swarm (.connectionClosed peerId connectionId) :
      Event PeerId Bytes Channel)).p2p.alivePeerIds = s.p2p.alivePeerIds.erase peerId := by
    simp only [Session.step, hround]
    split
    next => rfl
    next hdead => exact (Finset.erase_eq_of_notMem hdead).symm
  refine .closed halive rfl rfl ?_
  rw [step_sentNodes, halive, hround]
  congr 1
  split <;> rfl

/-- Every round does one of the four things. -/
theorem step_moves (json : GossipJson PeerId Bytes) (s : Session PeerId)
    (event : Event PeerId Bytes Channel) : Moves s (s.step json event) event := by
  cases event with
  | outbox msg => exact moves_quiet nofun rfl (toldNodes_handleReceiverOutbox ..) rfl rfl
  | swarm event =>
      cases event with
      | behaviour event =>
          cases event with
          | ping => exact moves_quiet nofun rfl rfl rfl rfl
          | gossipsub data =>
              refine moves_quiet nofun ?_ ?_ rfl rfl
              · simp only [round, handleSwarmEvent]
                split <;> rfl
              · simp only [round, handleSwarmEvent]
                split <;> rfl
          | gossipsubOther => exact moves_quiet nofun rfl rfl rfl rfl
          | requestResponse event =>
              exact moves_quiet nofun rfl (toldNodes_handleRequestResponse event) rfl rfl
          | metaExchange event =>
              cases event with
              | message peer message => exact moves_metaExchange json s rfl
              | other => exact moves_quiet nofun rfl rfl rfl rfl
          | m2mReqRes event => exact moves_quiet nofun rfl (toldNodes_handleM2mReqRes event) rfl rfl
      | connectionEstablished peerId connectionId =>
          refine .opened rfl rfl rfl ?_
          rw [step_sentNodes]
          exact List.append_nil _
      | connectionClosed peerId connectionId =>
          exact moves_connectionClosed json s rfl
      | outgoingConnectionError peerId connectionId => exact moves_quiet nofun rfl rfl rfl rfl
      | other => exact moves_quiet nofun rfl rfl rfl rfl

theorem insertByRole_peerId (self : P2P PeerId) (peer : PeerId) (role : MetaExchange.Role) :
    (self.insertByRole peer role : P2P PeerId × List (Action PeerId Bytes Channel)).1.peerId =
      self.peerId := by
  cases role <;> rfl

@[simp] theorem step_peerId (json : GossipJson PeerId Bytes) (s : Session PeerId)
    (event : Event PeerId Bytes Channel) :
    (s.step json event).p2p.peerId = s.p2p.peerId := by
  cases event with
  | outbox msg => rfl
  | swarm event =>
      show (s.p2p.handleSwarmEvent json event).1.peerId = s.p2p.peerId
      unfold handleSwarmEvent
      split
      case h_2 event =>
        unfold handleMetaExchange
        split
        next => exact insertByRole_peerId s.p2p _ _
        next => exact insertByRole_peerId s.p2p _ _
        next => rfl
      all_goals first | rfl | (split <;> rfl)

/-- The application is told of the alive set when it changes. -/
theorem Moves.sent {s s' : Session PeerId} {event : Event PeerId Bytes Channel}
    (h : Moves s s' event) :
    s'.sentNodes = s.sentNodes ∧ s'.p2p.alivePeerIds = s.p2p.alivePeerIds ∨
      s'.sentNodes = s.sentNodes ++ [s'.p2p.alivePeerIds] := by
  cases h with
  | quiet _ halive _ _ hsent => exact .inl ⟨hsent, halive⟩
  | opened halive _ _ hsent => exact .inl ⟨hsent, halive⟩
  | met _ _ _ hsent => exact .inr hsent
  | closed halive _ _ hsent =>
      split at hsent
      next => exact .inr hsent
      next hdead =>
        rw [List.append_nil] at hsent
        exact .inl ⟨hsent, halive.trans (Finset.erase_eq_of_notMem hdead)⟩

/-! ## What every run keeps -/

/-- What holds in every run. -/
structure Session.Known (s : Session PeerId) : Prop where
  self_unconnected : s.p2p.peerId ∉ connectedPeers s.connections
  announced_connected : s.announced ⊆ connectedPeers s.connections
  self_alive : s.p2p.peerId ∈ s.p2p.alivePeerIds
  sent_self : ∀ nodes ∈ s.sentNodes, s.p2p.peerId ∈ nodes
  last_sent : ∀ nodes, s.sentNodes.getLast? = some nodes → nodes = s.p2p.alivePeerIds

theorem Session.start_known (peerId : PeerId) : (Session.start peerId).Known where
  self_unconnected := by simp [Session.start]
  announced_connected := Finset.empty_subset _
  self_alive := Finset.mem_singleton_self _
  sent_self := by simp [Session.start, Session.sentNodes]
  last_sent := by simp [Session.start, Session.sentNodes]

/-- No connection to the node itself is ever reported. -/
theorem Session.Known.unconnected {s s' : Session PeerId} {event : Event PeerId Bytes Channel}
    (hs : s.Known) (hm : Moves s s' event) (h : s.Promised event) :
    s.p2p.peerId ∉ connectedPeers s'.connections := by
  cases hm with
  | quiet _ _ _ hconnections _ =>
      rw [hconnections]
      exact hs.self_unconnected
  | opened _ _ hconnections _ =>
      rw [hconnections, connectedPeers, holders_insert, Finset.mem_insert, not_or]
      exact ⟨Ne.symm h.2, hs.self_unconnected⟩
  | met _ _ hconnections _ =>
      rw [hconnections]
      exact hs.self_unconnected
  | closed _ hconnections _ _ =>
      rw [hconnections]
      exact fun hin => hs.self_unconnected (mem_holders_erase.mp hin).1

/-- A peer that announced itself is connected. -/
theorem Session.Known.announced {s s' : Session PeerId} {event : Event PeerId Bytes Channel}
    (hs : s.Known) (hm : Moves s s' event) (h : s.Promised event) :
    s'.announced ⊆ connectedPeers s'.connections := by
  cases hm with
  | quiet _ _ hannounced hconnections _ =>
      rw [hannounced, hconnections]
      exact hs.announced_connected
  | opened _ hannounced hconnections _ =>
      rw [hannounced, hconnections, connectedPeers, holders_insert]
      exact hs.announced_connected.trans (Finset.subset_insert _ _)
  | met _ hannounced hconnections _ =>
      rw [hannounced, hconnections]
      exact Finset.insert_subset h hs.announced_connected
  | @closed peerId connectionId _ hconnections hannounced _ =>
      intro q hq
      rw [hannounced] at hq
      have hother : q ≠ peerId → q ∈ s.announced → q ∈ connectedPeers s'.connections := by
        intro hne hin
        rw [hconnections]
        exact mem_holders_erase.mpr ⟨hs.announced_connected hin, fun heq => absurd heq hne⟩
      split at hq
      next hstill =>
        cases decEq q peerId with
        | isTrue heq => exact heq ▸ hstill
        | isFalse hne => exact hother hne hq
      next =>
        rw [Finset.mem_erase] at hq
        exact hother hq.1 hq.2

/-- The node stays alive, since no connection to it closes. -/
theorem Session.Known.alive {s s' : Session PeerId} {event : Event PeerId Bytes Channel}
    (hs : s.Known) (hm : Moves s s' event) (h : s.Promised event) :
    s.p2p.peerId ∈ s'.p2p.alivePeerIds := by
  cases hm with
  | quiet _ halive _ _ _ =>
      rw [halive]
      exact hs.self_alive
  | opened halive _ _ _ =>
      rw [halive]
      exact hs.self_alive
  | met halive _ _ _ =>
      rw [halive]
      exact Finset.mem_insert_of_mem hs.self_alive
  | closed halive _ _ _ =>
      rw [halive]
      refine Finset.mem_erase_of_ne_of_mem ?_ hs.self_alive
      intro heq
      subst heq
      exact hs.self_unconnected (mem_holders.mpr ⟨_, h⟩)

theorem Session.Known.step {json : GossipJson PeerId Bytes} {s : Session PeerId}
    {event : Event PeerId Bytes Channel} (hs : s.Known) (h : s.Promised event) :
    (s.step json event).Known := by
  have hm := step_moves json s event
  have hself := step_peerId json s event
  have halive := hs.alive hm h
  refine ⟨?_, hs.announced hm h, ?_, ?_, ?_⟩
  · rw [hself]
    exact hs.unconnected hm h
  · rw [hself]
    exact halive
  · rw [hself]
    intro nodes hin
    cases hm.sent with
    | inl hsame => exact hs.sent_self nodes (hsame.1 ▸ hin)
    | inr hnew =>
        rw [hnew] at hin
        cases List.mem_append.mp hin with
        | inl hold => exact hs.sent_self nodes hold
        | inr hlast =>
            rw [List.mem_singleton.mp hlast]
            exact halive
  · intro nodes hlast
    cases hm.sent with
    | inl hsame =>
        rw [hsame.2]
        exact hs.last_sent nodes (hsame.1 ▸ hlast)
    | inr hnew =>
        rw [hnew, List.getLast?_concat] at hlast
        exact (Option.some.inj hlast).symm

/-! ## Which runs keep the alive set right -/

/-- Only the connected ones of the announced peers count, so it does not matter
that a peer without a connection is forgotten. -/
theorem announced_inter_of_closed {s s' : Session PeerId} {peerId : PeerId}
    (hannounced : s'.announced = if peerId ∈ connectedPeers s'.connections then s.announced
      else s.announced.erase peerId) :
    s'.announced ∩ connectedPeers s'.connections =
      s.announced ∩ connectedPeers s'.connections := by
  rw [hannounced]
  split
  next => rfl
  next hlost =>
    rw [Finset.erase_inter, Finset.erase_eq_of_notMem]
    exact fun hin => hlost (Finset.mem_inter.mp hin).2

/-- A peer that was not connected has not announced itself, so a new connection
makes no peer alive. -/
theorem Session.Known.announced_inter_insert {s : Session PeerId} (hs : s.Known)
    (connection : PeerId × ConnectionId) :
    s.announced ∩ connectedPeers (insert connection s.connections) =
      s.announced ∩ connectedPeers s.connections := by
  have hmore := hs.announced_connected.trans
    (Finset.subset_insert connection.1 (connectedPeers s.connections))
  rw [connectedPeers, holders_insert, Finset.inter_eq_left.mpr hmore,
    Finset.inter_eq_left.mpr hs.announced_connected]

/-- To drop the peer of a closed connection is right exactly when the peer was not
among the alive ones or has lost its only connection. -/
theorem Session.Known.erase_eq_iff {s : Session PeerId} (hs : s.Known) {peerId : PeerId}
    {connectionId : ConnectionId} (hopen : (peerId, connectionId) ∈ s.connections) :
    (insert s.p2p.peerId (s.announced ∩ connectedPeers s.connections)).erase peerId =
        insert s.p2p.peerId
          (s.announced ∩ connectedPeers (s.connections.erase (peerId, connectionId))) ↔
      (peerId ∈ s.announced → OnlyHandle s.connections peerId connectionId) := by
  have hconnected : peerId ∈ connectedPeers s.connections := mem_holders.mpr ⟨_, hopen⟩
  have hne : s.p2p.peerId ≠ peerId := by
    intro heq
    exact hs.self_unconnected (heq ▸ hconnected)
  have hbefore : s.p2p.peerId ∉ (s.announced ∩ connectedPeers s.connections).erase peerId := by
    intro hin
    exact hs.self_unconnected (Finset.mem_inter.mp (Finset.mem_of_mem_erase hin)).2
  have hafter : s.p2p.peerId ∉
      s.announced ∩ connectedPeers (s.connections.erase (peerId, connectionId)) := by
    intro hin
    exact hs.self_unconnected (holders_erase_subset (Finset.mem_inter.mp hin).2)
  have hdropped := dropped_iff (h := connectionId) (k := peerId)
    (show s.announced ∩ connectedPeers s.connections = _ from rfl)
  rw [Finset.erase_insert_of_ne hne, insert_eq_insert_iff hbefore hafter, hdropped,
    Finset.mem_inter]
  exact ⟨fun honly hin => honly ⟨hin, hconnected⟩, fun honly hin => honly hin.1⟩

/-- A round keeps the alive set right exactly when it does not close one of
several connections to an announced peer. -/
theorem Session.Known.right_iff {s s' : Session PeerId} {event : Event PeerId Bytes Channel}
    (hs : s.Known) (hm : Moves s s' event) (hself : s'.p2p.peerId = s.p2p.peerId)
    (h : s.Promised event) (hright : s.Right) : s'.Right ↔ s.ClosesOnly event := by
  unfold Session.Right at hright ⊢
  rw [hself]
  cases hm with
  | quiet hevent halive hannounced hconnections _ =>
      rw [halive, hannounced, hconnections]
      exact iff_of_true hright (Session.closesOnly_of_ne hevent)
  | opened halive hannounced hconnections _ =>
      rw [halive, hannounced, hconnections, hs.announced_inter_insert]
      exact iff_of_true hright trivial
  | met halive hannounced hconnections _ =>
      rw [halive, hannounced, hconnections, Finset.insert_inter_of_mem h, hright]
      exact iff_of_true (Finset.insert_comm _ _ _) trivial
  | closed halive hconnections hannounced _ =>
      rw [announced_inter_of_closed hannounced, halive, hright, hconnections]
      exact hs.erase_eq_iff h

end Rounds

/-! ## Healthy sessions -/

section Healthy

variable [LinearOrder PeerId]

/-- What a session should look like at any time. -/
structure Session.Healthy (s : Session PeerId) : Prop where
  right : s.Right
  self_alive : s.p2p.peerId ∈ s.p2p.alivePeerIds
  /-- The application finds itself among the nodes it was told, in whatever order it
  goes through them. -/
  order_returns : ∀ nodes, .nodes nodes ∈ s.delivered → ∀ ids : List PeerId,
    (ids : Multiset PeerId) = nodes.val →
      ∃ position, recalculateOrder s.p2p.peerId ids = .ok position
  last_sent : ∀ nodes, s.sentNodes.getLast? = some nodes → nodes = s.p2p.alivePeerIds

theorem recalculateOrder_returns {selfId : PeerId} {nodes : Finset PeerId} (h : selfId ∈ nodes)
    {ids : List PeerId} (hids : (ids : Multiset PeerId) = nodes.val) :
    ∃ position, recalculateOrder selfId ids = .ok position := by
  have hin : selfId ∈ ids.insertionSort (· ≤ ·) := by
    rw [List.mem_insertionSort, ← Multiset.mem_coe, hids]
    exact h
  cases hfind : (ids.insertionSort (· ≤ ·)).findIdx? (· = selfId) with
  | some position => exact ⟨position, by simp [recalculateOrder, hfind]⟩
  | none =>
      have hfalse := List.findIdx?_eq_none_iff.mp hfind selfId hin
      simp at hfalse

theorem Session.Known.healthy_iff {s : Session PeerId} (hs : s.Known) :
    s.Healthy ↔ s.Right := by
  constructor
  · intro h
    exact h.right
  · intro hright
    refine ⟨hright, hs.self_alive, ?_, hs.last_sent⟩
    intro nodes hin ids hids
    have hsent : nodes ∈ s.sentNodes := List.mem_filterMap.mpr ⟨_, hin, rfl⟩
    exact recalculateOrder_returns (hs.sent_self nodes hsent) hids

/-- In a run that keeps the promises of the swarm, the node stays in its own
alive set and the application knows the set. -/
theorem known_throughout (json : GossipJson PeerId Bytes) (peerId : PeerId)
    {events : List (Event PeerId Bytes Channel)}
    (h : Along (Session.step json) Session.Promised (Session.start peerId) events) :
    Throughout (Session.step json) Session.Known (Session.start peerId) events :=
  h.throughout (fun _ _ hs hp => hs.step hp) (Session.start_known peerId)

/-- In a run that keeps the promises of the swarm, the alive set is right
throughout exactly when no event closes one of several connections to a peer
that announced itself as a node. -/
theorem healthy_iff_closesOnly (json : GossipJson PeerId Bytes) (peerId : PeerId)
    (events : List (Event PeerId Bytes Channel))
    (h : Along (Session.step json) Session.Promised (Session.start peerId) events) :
    Throughout (Session.step json) Session.Healthy (Session.start peerId) events ↔
      Along (Session.step json) Session.ClosesOnly (Session.start peerId) events := by
  have hknown := Session.start_known peerId
  refine throughout_iff_along (fun s e hs hp => hs.step hp) ?_ h hknown ?_
  · intro s event hs hhealthy hp
    have hright := hs.right_iff (step_moves json s event) (step_peerId json s event) hp
      hhealthy.right
    rw [(hs.step hp).healthy_iff, hright]
  · rw [hknown.healthy_iff]
    rfl

end Healthy

/-- Messages that travel as they are. -/
def plainJson : GossipJson Nat (GossipMessage Nat) where
  toVec := some
  fromSlice := some

/-- A peer connects, says that it is a node, and leaves. -/
def oneVisit : List (Event Nat (GossipMessage Nat) Nat) :=
  [.swarm (.connectionEstablished 1 0),
   .swarm (.behaviour (.metaExchange (.message 1 (.response { role := .node })))),
   .swarm (.connectionClosed 1 0)]

theorem healthy_iff_closesOnly_oneVisit :
    Along (Session.step plainJson) Session.Promised (Session.start 0) oneVisit ∧
      Throughout (Session.step plainJson) Session.Healthy (Session.start 0) oneVisit := by
  have hpromised : Along (Session.step plainJson) Session.Promised (Session.start 0) oneVisit := by
    refine ⟨⟨?_, ?_⟩, ?_, ?_, trivial⟩
    · exact Finset.notMem_empty _
    · decide
    · show 1 ∈ connectedPeers {(1, 0)}
      decide
    · show (1, 0) ∈ _
      decide
  refine ⟨hpromised, (healthy_iff_closesOnly plainJson 0 oneVisit hpromised).mpr ?_⟩
  simp [Along, oneVisit, Session.ClosesOnly, Session.start, Session.step, connectionsAfter,
      OnlyHandle]

/-- Two nodes dial each other, the peer says that it is a node, and one of the
two connections closes. -/
def crossedDials : List (Event Nat (GossipMessage Nat) Nat) :=
  [.swarm (.connectionEstablished 1 0),
   .swarm (.connectionEstablished 1 1),
   .swarm (.behaviour (.metaExchange (.message 1 (.response { role := .node })))),
   .swarm (.connectionClosed 1 0)]

/-- The peer is still connected and is no longer alive. -/
theorem crossed_dial_drops_peer :
    Along (Session.step plainJson) Session.Promised (Session.start 0) crossedDials ∧
      ¬ Throughout (Session.step plainJson) Session.Healthy (Session.start 0) crossedDials := by
  constructor
  · refine ⟨⟨?_, ?_⟩, ⟨?_, ?_⟩, ?_, ?_, trivial⟩
    · exact Finset.notMem_empty _
    · decide
    · decide
    · decide
    · show 1 ∈ connectedPeers {(1, 1), (1, 0)}
      decide
    · show (1, 0) ∈ _
      decide
  · intro h
    have hlast := h.2.2.2.2.right
    exact absurd hlast (by decide)

end P2P

end Maroon
