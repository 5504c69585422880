import Maroon.Gateway.P2P
import Maroon.Lib.Channel
import Maroon.Lib.Outcome

/-!
# A gateway and its owner

The owner of a gateway hands requests to it through one end of a duplex pair.
The network layer of the gateway takes them from the other end, in a task of its
own, and puts the responses of the nodes into the pair.  Nobody reads these, and
`send_request` returns before the request was sent.

`main` is such an owner.  It sends the first 100 ids of its key range, one after
the other.
-/

namespace Maroon

open Lib Outcome

structure Gateway (PeerId : Type) where
  p2p : Gateway.P2P PeerId
  /-- The requests on their way to the network layer. -/
  requests : Channel GmRequestResponse.Request
  /-- The responses on their way back. -/
  responses : Channel GmRequestResponse.Response

namespace Gateway

variable {PeerId Chan : Type} [DecidableEq PeerId]

def new : Gateway PeerId where
  p2p := P2P.start
  requests := .new
  responses := .new

/-- The response that is returned is none of a node. -/
def sendRequest (self : Gateway PeerId) (request : GmRequestResponse.Request) :
    Gateway PeerId × MetaExchange.Response :=
  ({ self with requests := self.requests.push [request] }, { role := .node })

/-- The responses to the owner among some actions. -/
def toOwners (actions : List (Action PeerId Chan)) : List GmRequestResponse.Response :=
  actions.filterMap fun
    | .toOwner response => some response
    | _ => none

/-- What a step of a gateway is about. -/
inductive Label (PeerId Chan : Type) where
  /-- The owner hands over a request. -/
  | send (request : GmRequestResponse.Request)
  /-- The network layer wakes up. -/
  | p2p (event : Event PeerId Chan)

/-- What the network layer takes out of its channel when it wakes up, and that it
goes through its whole set. -/
inductive Wakes (self : Gateway PeerId) : Event PeerId Chan → Gateway PeerId → Prop where
  | request {request : GmRequestResponse.Request} {requests : Channel GmRequestResponse.Request}
      {order : List PeerId} :
      self.requests.recv = some (request, requests) →
      (order : Multiset PeerId) = self.p2p.maroonPeerIds.val →
      Wakes self (.request request order) { self with requests }
  | swarm {event : SwarmEvent PeerId (GatewayEvent PeerId Chan)} : Wakes self (.swarm event) self

/-- One step of a gateway, with what its network layer did. -/
inductive Step (self : Gateway PeerId) :
    Label PeerId Chan → Gateway PeerId → List (Action PeerId Chan) → Prop where
  | send {request : GmRequestResponse.Request} :
      Step self (.send request) (self.sendRequest request).1 []
  | p2p {event : Event PeerId Chan} {self₁ : Gateway PeerId} :
      self.Wakes event self₁ →
      Step self (.p2p event)
        { self₁ with
          p2p := (self.p2p.round event).1
          responses := self₁.responses.push (toOwners (self.p2p.round event).2) }
        (self.p2p.round event).2

/-- The request that a step takes from the channel. -/
def Label.taken : Label PeerId Chan → List GmRequestResponse.Request
  | .p2p (.request request _) => [request]
  | _ => []

/-- The request that a step puts into the channel. -/
def Label.put : Label PeerId Chan → List GmRequestResponse.Request
  | .send request => [request]
  | _ => []

/-- The request to a peer that an action is. -/
def requestTo (peerId : PeerId) : Action PeerId Chan → Option GmRequestResponse.Request
  | .gmRequest peerId' request => if peerId' = peerId then some request else none
  | _ => none

theorem requestTo_eq_some {peerId : PeerId} {action : Action PeerId Chan}
    {request : GmRequestResponse.Request} :
    requestTo peerId action = some request ↔ action = .gmRequest peerId request := by
  cases action with
  | gmRequest peerId' request' => simp [requestTo]
  | _ => simp [requestTo]

variable {self self' : Gateway PeerId} {label : Label PeerId Chan}
  {actions : List (Action PeerId Chan)}

theorem Step.moves (h : Step self label self' actions) :
    Channel.Moves self.requests self'.requests label.taken label.put := by
  cases h with
  | send => exact .push _ _
  | p2p hwakes =>
      cases hwakes with
      | request hrecv _ => exact .of_recv hrecv
      | swarm => exact .refl _

/-- A request that is sent has waited in the channel. -/
theorem Step.sent_waited (h : Step self label self' actions) {peerId : PeerId}
    {request : GmRequestResponse.Request} (hsent : .gmRequest peerId request ∈ actions) :
    request ∈ self.requests.queue := by
  cases h with
  | send => cases hsent
  | p2p hwakes =>
      cases hwakes with
      | request hrecv _ =>
          obtain ⟨peerId', -, heq⟩ := List.mem_map.mp hsent
          cases heq
          rw [(Channel.recv_eq_some.mp hrecv).1]
          exact List.mem_cons_self
      | swarm => exact absurd hsent (Session.handleSwarmEvent_sends_no_request _ _ _ _)

/-- A gateway calls itself a gateway. -/
theorem Step.response_role (h : Step self label self' actions) {channel : Chan}
    {response : MetaExchange.Response} (hsent : .metaExchangeResponse channel response ∈ actions) :
    response.role = .gateway := by
  cases h with
  | send => cases hsent
  | p2p hwakes =>
      cases hwakes with
      | request _ _ =>
          obtain ⟨peerId, -, heq⟩ := List.mem_map.mp hsent
          cases heq
      | @swarm event =>
          simp only [P2P.round, P2P.handleSwarmEvent] at hsent
          split at hsent <;> simp_all

/-- The owner gets the responses that peers have sent. -/
theorem Step.toOwner (h : Step self label self' actions) {response : GmRequestResponse.Response}
    (hsent : .toOwner response ∈ actions) : ∃ peer, label =
      .p2p (.swarm (.behaviour (.requestResponse (.message peer (.response response))))) := by
  cases h with
  | send => cases hsent
  | p2p hwakes =>
      cases hwakes with
      | request _ _ =>
          obtain ⟨peerId, -, heq⟩ := List.mem_map.mp hsent
          cases heq
      | @swarm event =>
          simp only [P2P.round, P2P.handleSwarmEvent] at hsent
          split at hsent <;> simp_all

theorem Step.mem_responses (h : Step self label self' actions)
    {response : GmRequestResponse.Response} (hin : response ∈ self'.responses.queue) :
    response ∈ self.responses.queue ∨ .toOwner response ∈ actions := by
  cases h with
  | send => exact Or.inl hin
  | @p2p event self₁ hwakes =>
      have hkept : self₁.responses = self.responses := by
        cases hwakes <;> rfl
      rcases (Channel.Moves.push self₁.responses _).mem_queue hin with hold | hnew
      · exact Or.inl (hkept ▸ hold)
      · obtain ⟨action, haction, heq⟩ := List.mem_filterMap.mp hnew
        cases action with
        | toOwner response' =>
            cases heq
            exact Or.inr haction
        | _ => cases heq

/-- The request that a step takes is handed over for a peer once, or not at all. -/
theorem Step.requestTo_sublist (h : Step self label self' actions) (peerId : PeerId) :
    (actions.filterMap (requestTo peerId)).Sublist label.taken := by
  cases h with
  | send => exact List.Sublist.refl _
  | @p2p event self₁ hwakes =>
      cases hwakes with
      | @request request requests order _ horder =>
          have hnodup : order.Nodup := by
            rw [← Multiset.coe_nodup, horder]
            exact self.p2p.maroonPeerIds.nodup
          show ((order.map _).filterMap _).Sublist [request]
          clear horder
          induction order with
          | nil => exact List.nil_sublist _
          | cons first order ih =>
              rw [List.nodup_cons] at hnodup
              by_cases hfirst : first = peerId
              · subst hfirst
                have hrest : (order.map fun peerId =>
                    (Action.gmRequest peerId request : Action PeerId Chan)).filterMap
                      (requestTo first) = [] := by
                  rw [List.filterMap_eq_nil_iff]
                  intro action hin
                  obtain ⟨peerId, hpeer, rfl⟩ := List.mem_map.mp hin
                  have hne : peerId ≠ first := by
                    rintro rfl
                    exact hnodup.1 hpeer
                  simp [requestTo, hne]
                rw [List.map_cons, List.filterMap_cons, hrest]
                simp [requestTo]
              · rw [List.map_cons, List.filterMap_cons]
                simp only [requestTo, hfirst, if_false]
                exact ih hnodup.2
      | @swarm event =>
          have hnone : (self.p2p.round (.swarm event)).2.filterMap (requestTo peerId) = [] := by
            refine List.filterMap_eq_nil_iff.mpr fun action hin => ?_
            cases hreq : requestTo peerId action with
            | none => rfl
            | some request =>
                rw [requestTo_eq_some.mp hreq] at hin
                exact absurd hin (Session.handleSwarmEvent_sends_no_request _ _ _ _)
          rw [hnone]
          exact List.nil_sublist _

end Gateway

/-! ## The owner -/

/-- The gateway with the state of `main`. -/
structure Main (PeerId : Type) where
  keyRange : Nat
  /-- The round of the loop. -/
  i : Nat
  gateway : Gateway PeerId

namespace Main

open Gateway

variable {PeerId Chan : Type} [DecidableEq PeerId]

def start (keyRange : Nat) : Main PeerId where
  keyRange
  i := 0
  gateway := .new

def rounds : Nat := 100

/-- A round of the loop of `main`, or of the network layer meanwhile. -/
inductive Step (m : Main PeerId) :
    Label PeerId Chan → Main PeerId → List (Action PeerId Chan) → Prop where
  | send {id : Nat} :
      m.i < rounds → uniqueBlobIdFromRangeAndOffset m.keyRange m.i = .ok id →
      Step m (.send (.newTransaction { id, status := .created }))
        { m with
          i := m.i + 1
          gateway := (m.gateway.sendRequest (.newTransaction { id, status := .created })).1 } []
  | p2p {event : Event PeerId Chan} {gateway : Gateway PeerId}
      {actions : List (Action PeerId Chan)} :
      Gateway.Step m.gateway (.p2p event) gateway actions →
      Step m (.p2p event) { m with gateway } actions

inductive Runs (m₀ : Main PeerId) :
    List (Label PeerId Chan) → Main PeerId → List (Action PeerId Chan) → Prop where
  | refl : Runs m₀ [] m₀ []
  | tail {labels : List (Label PeerId Chan)} {m m' : Main PeerId}
      {actions actions' : List (Action PeerId Chan)} {label : Label PeerId Chan} :
      Runs m₀ labels m actions → Step m label m' actions' →
      Runs m₀ (labels ++ [label]) m' (actions ++ actions')

/-- What `main` sends in a round. -/
def request (keyRange i : Nat) : GmRequestResponse.Request :=
  .newTransaction { id := idOf keyRange i, status := .created }

variable {m m' : Main PeerId} {label : Label PeerId Chan} {actions : List (Action PeerId Chan)}
  {keyRange : Nat} {labels : List (Label PeerId Chan)}

theorem Step.gateway_step (h : Step m label m' actions) :
    Gateway.Step m.gateway label m'.gateway actions := by
  cases h with
  | send => exact .send
  | p2p hstep => exact hstep

/-- The requests that were handed over are those of the rounds so far. -/
theorem Step.rounds_put (h : Step m label m' actions) (hle : m.i ≤ rounds) :
    m'.keyRange = m.keyRange ∧ m'.i ≤ rounds ∧
      (List.range m'.i).map (request m.keyRange) =
        (List.range m.i).map (request m.keyRange) ++ label.put := by
  cases h with
  | send hlt hid =>
      obtain ⟨-, rfl⟩ := uniqueBlobIdFromRangeAndOffset_ok.mp hid
      exact ⟨rfl, hlt, by rw [List.range_succ, List.map_append]; rfl⟩
  | p2p => exact ⟨rfl, hle, (List.append_nil _).symm⟩

/-- What is known of a run of `main`. -/
structure Sent (keyRange : Nat) (labels : List (Label PeerId Chan)) (m : Main PeerId) :
    Prop where
  keyRange_eq : m.keyRange = keyRange
  le : m.i ≤ rounds
  moves : Channel.Moves Channel.new m.gateway.requests (labels.flatMap Label.taken)
    ((List.range m.i).map (request keyRange))
  isOpen : m.gateway.requests.isOpen = true

theorem Sent.step (hs : Sent keyRange labels m) (h : Step m label m' actions) :
    Sent keyRange (labels ++ [label]) m' := by
  obtain ⟨hkey, hle, hput⟩ := h.rounds_put hs.le
  rw [hs.keyRange_eq] at hput
  refine ⟨hkey.trans hs.keyRange_eq, hle, ?_, ?_⟩
  · rw [List.flatMap_append, List.flatMap_singleton, hput]
    exact hs.moves.trans h.gateway_step.moves
  · cases h with
    | send => exact (Channel.push_isOpen _ _).trans hs.isOpen
    | p2p hstep =>
        cases hstep with
        | p2p hwakes =>
            cases hwakes with
            | request hrecv _ => exact (Channel.recv_eq_some.mp hrecv).2.trans hs.isOpen
            | swarm => exact hs.isOpen

theorem Runs.sent (h : Runs (start keyRange : Main PeerId) labels m actions) :
    Sent keyRange labels m := by
  induction h with
  | refl => exact ⟨rfl, Nat.zero_le _, .refl _, rfl⟩
  | tail _ hstep ih => exact ih.step hstep

theorem Runs.requestTo_sublist {m₀ : Main PeerId} (h : Runs m₀ labels m actions)
    (peerId : PeerId) :
    (actions.filterMap (requestTo peerId)).Sublist (labels.flatMap Label.taken) := by
  induction h with
  | refl => exact List.Sublist.refl _
  | tail _ hstep ih =>
      rw [List.filterMap_append, List.flatMap_append, List.flatMap_singleton]
      exact ih.append (hstep.gateway_step.requestTo_sublist peerId)

/-- The requests of different gateways, or of different rounds, are different. -/
theorem request_inj {keyRange' i j : Nat} (hi : i < rounds) (hj : j < rounds)
    (h : request keyRange i = request keyRange' j) : keyRange = keyRange' ∧ i = j := by
  have hsize : rounds < singleBlobSize := by decide
  injection h with htx
  injection htx with hid
  have hrange := congrArg (· / singleBlobSize) hid
  have hoffset := congrArg (· % singleBlobSize) hid
  rw [idOf_div (hi.trans hsize), idOf_div (hj.trans hsize)] at hrange
  rw [idOf_mod (hi.trans hsize), idOf_mod (hj.trans hsize)] at hoffset
  exact ⟨hrange, hoffset⟩

theorem requests_nodup {n : Nat} (hn : n ≤ rounds) :
    ((List.range n).map (request keyRange)).Nodup := by
  refine List.Nodup.map_on (fun i hi j hj heq => ?_) List.nodup_range
  exact (request_inj ((List.mem_range.mp hi).trans_le hn) ((List.mem_range.mp hj).trans_le hn)
    heq).2

/-- Whatever the network does, the first requests of `main` were taken by the
network layer in their order and the others wait.  For each peer some of those
that were taken were handed to `send_request`, in this order and none twice. -/
theorem sends_in_order (h : Runs (start keyRange : Main PeerId) labels m actions) :
    m.i ≤ rounds ∧
      (List.range m.i).map (request keyRange) =
        labels.flatMap Label.taken ++ m.gateway.requests.queue ∧
      ∀ peerId, (actions.filterMap (requestTo peerId)).Sublist (labels.flatMap Label.taken) ∧
        (actions.filterMap (requestTo peerId)).Nodup := by
  have hsent := h.sent
  have hqueue := hsent.moves.fifo.2 hsent.isOpen
  refine ⟨hsent.le, hqueue, fun peerId => ⟨h.requestTo_sublist peerId, ?_⟩⟩
  have hnodup : ((List.range m.i).map (request keyRange)).Nodup := requests_nodup hsent.le
  rw [hqueue] at hnodup
  exact (List.nodup_append.mp hnodup).1.sublist (h.requestTo_sublist peerId)

/-- The first two transactions are handed over.  Node 1 is connected when the first
of them is sent, and node 2 only when the second one is. -/
def firstRounds : List (Label Nat Unit) :=
  [.send (request 0 0), .send (request 0 1),
   .p2p (.swarm (.connectionEstablished 1 0)), .p2p (.request (request 0 0) [1]),
   .p2p (.swarm (.connectionEstablished 2 1)), .p2p (.request (request 0 1) [1, 2])]

theorem firstRounds_runs : ∃ m : Main Nat, m.i = 2 ∧ Runs (start 0) firstRounds m
    [.gmRequest 1 (request 0 0), .gmRequest 1 (request 0 1), .gmRequest 2 (request 0 1)] := by
  have hid : ∀ i < rounds, uniqueBlobIdFromRangeAndOffset 0 i = .ok (idOf 0 i) := by
    intro i hi
    have hlt : rounds < u64Bound := by decide
    exact uniqueBlobIdFromRangeAndOffset_ok.mpr ⟨by simpa [idOf] using hi.trans hlt, rfl⟩
  have hconnect : ∀ (g : Gateway Nat) peerId connectionId, Gateway.Step g
      (.p2p (.swarm (.connectionEstablished peerId connectionId)) : Label Nat Unit) _ _ :=
    fun _ _ _ => .p2p .swarm
  have hsend := (Runs.refl.tail (@Step.send Nat Unit _ (start 0) _ (by decide)
    (hid 0 (by decide)))).tail (.send (by decide) (hid 1 (by decide)))
  have hfirst := (hsend.tail (.p2p (hconnect _ 1 0))).tail
    (.p2p (.p2p (@Wakes.request Nat Unit _ _ _ [1] rfl rfl)))
  exact ⟨_, rfl, (hfirst.tail (.p2p (hconnect _ 2 1))).tail
    (.p2p (.p2p (@Wakes.request Nat Unit _ _ _ [1, 2] rfl (by decide))))⟩

theorem sends_in_order_firstRounds : ∃ m : Main Nat, m.i = 2 ∧
    [request 0 0, request 0 1] = [request 0 0, request 0 1] ++ m.gateway.requests.queue ∧
      [request 0 1].Sublist [request 0 0, request 0 1] := by
  obtain ⟨m, hi, hruns⟩ := firstRounds_runs
  obtain ⟨-, hqueue, hpeers⟩ := sends_in_order hruns
  rw [hi] at hqueue
  exact ⟨m, hi, hqueue, (hpeers 2).1⟩

end Main

end Maroon
