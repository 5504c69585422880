import Maroon.App.Panics
import Maroon.Common.InvokerHandler
import Maroon.Lib.Channel
import Maroon.Network.Causes

/-!
# A node as its tasks and channels

`create_stack` puts a node together.  The network layer and the application run
as two tasks.  A duplex pair of channels joins them, and the owner of the node
asks the application for its state through an invoker.

A task drops its ends of the channels when it ends, by a panic or because of the
shutdown.  Then the other task finds its channel closed.  Some messages are
dropped with a log line in that case, and some are sent with an `expect` and end
the task too: `Inbox.Expected` and `Outbox.Expected` say which.

So the application runs as long as its inbox is open, and the network layer as
long as the outbox is.
-/

namespace Maroon

open Lib

/-- The messages that the network layer sends with an `expect`. -/
def Inbox.Expected {PeerId : Type} : Inbox PeerId → Bool
  | .requestMissingTxs _ _ => true
  | .missingTx _ => true
  | _ => false

/-- The messages that the application sends with an `expect`.  For the others it
uses `Endpoint::send`, which only logs. -/
def Outbox.Expected {PeerId : Type} : Outbox PeerId → Bool
  | .state _ => false
  | _ => true

/-- The message that an event takes from the inbox. -/
def Event.taken {PeerId : Type} : Event PeerId → List (Inbox PeerId)
  | .inbox msg => [msg]
  | _ => []

/-- What an application has sent when a handler panics.  It advertises its own
offsets before it looks for delays; nothing else goes out before what can
fail. -/
def App.sentFirst {PeerId L : Type} (a : App PeerId L) : Event PeerId → List (Outbox PeerId)
  | .advertiseTick => [.state { offsets := a.selfOffsets }]
  | _ => []

structure Node (PeerId : Type) where
  app : App PeerId LogLineriazer
  p2p : P2P PeerId
  /-- The requests of the owner, with their futures. -/
  state : InvokerHandler Request Response
  inbox : Channel (Inbox PeerId)
  outbox : Channel (Outbox PeerId)
  /-- The shutdown channel has fired. -/
  shutdown : Bool

namespace Node

variable {PeerId Bytes ResponseChannel : Type}

def createStack (peerId : PeerId) (params : Params) : Node PeerId where
  app := App.new peerId params
  p2p := P2P.start peerId
  state := InvokerHandler.createInvokerHandlerPair
  inbox := .new
  outbox := .new
  shutdown := false

/-- The application ends. -/
def stopApp (n : Node PeerId) : Node PeerId :=
  { n with inbox := n.inbox.close, state := n.state.dropHandler }

/-- The network layer ends. -/
def stopP2P (n : Node PeerId) : Node PeerId :=
  { n with outbox := n.outbox.close }

/-! ## Sending between the tasks -/

/-- The application sends its messages one by one. -/
def send (n : Node PeerId) : List (Outbox PeerId) → Node PeerId
  | [] => n
  | msg :: out =>
      match n.outbox.send msg with
      | some outbox => send { n with outbox } out
      | none => if msg.Expected then n.stopApp else n.send out

/-- The network layer performs the actions of a round one by one.  The result
has those that were performed. -/
def perform (n : Node PeerId) : List (P2P.Action PeerId Bytes ResponseChannel) →
    Node PeerId × List (P2P.Action PeerId Bytes ResponseChannel)
  | [] => (n, [])
  | .toApp msg :: actions =>
      match n.inbox.send msg with
      | some inbox =>
          let (n', performed) := perform { n with inbox } actions
          (n', .toApp msg :: performed)
      | none => if msg.Expected then (n.stopP2P, []) else n.perform actions
  | action :: actions =>
      let (n', performed) := n.perform actions
      (n', action :: performed)

/-- The messages to the application among some actions. -/
def toApps (actions : List (P2P.Action PeerId Bytes ResponseChannel)) : List (Inbox PeerId) :=
  actions.filterMap fun
    | .toApp msg => some msg
    | _ => none

theorem toApps_append (actions actions' : List (P2P.Action PeerId Bytes ResponseChannel)) :
    toApps (actions ++ actions') = toApps actions ++ toApps actions' :=
  List.filterMap_append

theorem mem_toApps {msg : Inbox PeerId}
    {actions : List (P2P.Action PeerId Bytes ResponseChannel)} :
    msg ∈ toApps actions ↔ .toApp msg ∈ actions := by
  constructor
  · intro h
    obtain ⟨action, hin, hmsg⟩ := List.mem_filterMap.mp h
    cases action with
    | toApp msg' =>
        cases hmsg
        exact hin
    | _ => cases hmsg
  · exact fun h => List.mem_filterMap.mpr ⟨_, h, rfl⟩

theorem send_of_open {n : Node PeerId} (h : n.outbox.isOpen = true)
    (out : List (Outbox PeerId)) : n.send out = { n with outbox := n.outbox.push out } := by
  induction out generalizing n with
  | nil => simp [send]
  | cons msg out ih =>
      have hsend : n.outbox.send msg = some _ := Channel.send_eq_some.mpr ⟨h, rfl⟩
      have hnext := @ih { n with outbox := n.outbox.push [msg] } (by simpa using h)
      rw [send, hsend]
      simp only
      rw [hnext, Channel.push_push, List.singleton_append]

theorem send_of_closed {n : Node PeerId} (h : n.outbox.isOpen = false)
    (out : List (Outbox PeerId)) : n.send out = n ∨ n.send out = n.stopApp := by
  induction out with
  | nil => exact Or.inl rfl
  | cons msg out ih =>
      rw [send, Channel.send_eq_none.mpr h]
      simp only
      split
      next => exact Or.inr rfl
      next => exact ih

theorem perform_of_open {n : Node PeerId} (h : n.inbox.isOpen = true)
    (actions : List (P2P.Action PeerId Bytes ResponseChannel)) :
    n.perform actions = ({ n with inbox := n.inbox.push (toApps actions) }, actions) := by
  induction actions generalizing n with
  | nil => simp [perform, toApps]
  | cons action actions ih =>
      cases action with
      | toApp msg =>
          have hsend : n.inbox.send msg = some _ := Channel.send_eq_some.mpr ⟨h, rfl⟩
          have hnext := @ih { n with inbox := n.inbox.push [msg] } (by simpa using h)
          rw [perform, hsend]
          simp only
          rw [hnext, Channel.push_push]
          simp [toApps]
      | _ =>
          rw [perform, ih h]
          · simp [toApps]
          · simp

theorem perform_of_closed {n : Node PeerId} (h : n.inbox.isOpen = false)
    (actions : List (P2P.Action PeerId Bytes ResponseChannel)) :
    ((n.perform actions).1 = n ∨ (n.perform actions).1 = n.stopP2P) ∧
      toApps (n.perform actions).2 = [] ∧ (n.perform actions).2.Sublist actions := by
  induction actions with
  | nil => exact ⟨Or.inl rfl, rfl, .slnil⟩
  | cons action actions ih =>
      cases action with
      | toApp msg =>
          rw [perform, Channel.send_eq_none.mpr h]
          simp only
          split
          next => exact ⟨Or.inr rfl, rfl, List.nil_sublist _⟩
          next => exact ⟨ih.1, ih.2.1, ih.2.2.cons _⟩
      | _ =>
          rw [perform]
          · exact ⟨ih.1, by simpa [toApps] using ih.2.1, ih.2.2.cons_cons _⟩
          · simp

/-- What is not for the application can always be performed. -/
theorem perform_of_toApps_nil {actions : List (P2P.Action PeerId Bytes ResponseChannel)}
    (h : toApps actions = []) (n : Node PeerId) : n.perform actions = (n, actions) := by
  induction actions with
  | nil => rfl
  | cons action actions ih =>
      cases action with
      | toApp msg => cases h
      | _ =>
          rw [perform, ih h]
          simp

/-- The application has sent its messages, or it has ended in the attempt. -/
theorem send_cases (n : Node PeerId) (out : List (Outbox PeerId)) :
    n.send out = { n with outbox := n.outbox.push out } ∨
      n.outbox.isOpen = false ∧ n.send out = n.stopApp := by
  cases hopen : n.outbox.isOpen with
  | true => exact Or.inl (send_of_open hopen out)
  | false =>
      rw [Channel.push_of_closed hopen]
      exact (send_of_closed hopen out).imp id fun hstop => ⟨rfl, hstop⟩

theorem send_frame (n : Node PeerId) (out : List (Outbox PeerId)) :
    (n.send out).app = n.app ∧ (n.send out).p2p = n.p2p ∧
      (n.send out).shutdown = n.shutdown := by
  rcases send_cases n out with hsend | ⟨-, hsend⟩
  · simp [hsend]
  · simp [hsend, stopApp]

/-- What becomes of the actions of a round. -/
structure Performed (n : Node PeerId) (actions : List (P2P.Action PeerId Bytes ResponseChannel))
    (n' : Node PeerId) (performed : List (P2P.Action PeerId Bytes ResponseChannel)) : Prop where
  inbox : n'.inbox = n.inbox.push (toApps performed)
  outbox : n'.outbox = n.outbox ∨ n.inbox.isOpen = false ∧ n'.outbox = n.outbox.close
  frame : n' = { n with inbox := n'.inbox, outbox := n'.outbox }
  sublist : performed.Sublist actions
  complete : n.inbox.isOpen = true → performed = actions

theorem perform_performed (n : Node PeerId)
    (actions : List (P2P.Action PeerId Bytes ResponseChannel)) :
    Performed n actions (n.perform actions).1 (n.perform actions).2 := by
  cases hopen : n.inbox.isOpen with
  | true =>
      rw [perform_of_open hopen]
      exact ⟨rfl, Or.inl rfl, rfl, List.Sublist.refl _, fun _ => rfl⟩
  | false =>
      obtain ⟨hnode, hnone, hsub⟩ := perform_of_closed hopen actions
      have hcomplete : ¬ n.inbox.isOpen = true := by simp [hopen]
      rcases hnode with hnode | hnode
      · refine ⟨?_, Or.inl ?_, ?_, hsub, fun h => absurd h hcomplete⟩
        · rw [hnode, hnone, Channel.push_nil]
        · rw [hnode]
        · rw [hnode]
      · refine ⟨?_, Or.inr ⟨hopen, ?_⟩, ?_, hsub, fun h => absurd h hcomplete⟩
        · rw [hnode, hnone, Channel.push_nil]
          rfl
        · rw [hnode]
          rfl
        · rw [hnode]
          rfl

/-! ## Steps -/

/-- What a step of a node is about. -/
inductive Label (PeerId Bytes ResponseChannel : Type) where
  /-- The owner asks for something. -/
  | invoke (request : Request)
  /-- The application wakes up. -/
  | app (event : Event PeerId)
  /-- The network layer takes a message of the application. -/
  | outbox (msg : Outbox PeerId)
  /-- The network layer gets an event of the swarm. -/
  | swarm (event : SwarmEvent PeerId (MaroonEvent PeerId Bytes ResponseChannel))
  | shutdown

/-- What the application takes out of its channels when it wakes up.  It answers
a request in the same round. -/
inductive Wakes (n : Node PeerId) : Event PeerId → Node PeerId → Prop where
  | advertiseTick : Wakes n .advertiseTick n
  | commitTick : Wakes n .commitTick n
  | request {wrapper : RequestWrapper Request} {state : InvokerHandler Request Response} :
      n.state.recv = some (wrapper, state) →
      Wakes n (.request wrapper.request)
        { n with state := state.respond wrapper (n.app.handleRequest wrapper.request) }
  | inbox {msg : Inbox PeerId} {inbox : Channel (Inbox PeerId)} :
      n.inbox.recv = some (msg, inbox) →
      Wakes n (.inbox msg) { n with inbox }

/-- The event that the application wakes up for. -/
def Label.event : Label PeerId Bytes ResponseChannel → Option (Event PeerId)
  | .app event => some event
  | _ => none

/-- The message that the application takes from its inbox. -/
def Label.takenInbox : Label PeerId Bytes ResponseChannel → List (Inbox PeerId)
  | .app event => event.taken
  | _ => []

theorem flatMap_takenInbox (labels : List (Label PeerId Bytes ResponseChannel)) :
    labels.flatMap Label.takenInbox = (labels.filterMap Label.event).flatMap Event.taken := by
  induction labels with
  | nil => rfl
  | cons label labels ih =>
      rw [List.flatMap_cons, List.filterMap_cons, ih]
      cases label <;> rfl

/-- The message that the network layer takes from the outbox. -/
def Label.takenOutbox : Label PeerId Bytes ResponseChannel → List (Outbox PeerId)
  | .outbox msg => [msg]
  | _ => []

/-- The round of the network layer that a step runs. -/
inductive Label.Round : Label PeerId Bytes ResponseChannel →
    P2P.Event PeerId Bytes ResponseChannel → Prop where
  | outbox {msg : Outbox PeerId} : Round (.outbox msg) (.outbox msg)
  | swarm {event : SwarmEvent PeerId (MaroonEvent PeerId Bytes ResponseChannel)} :
      Round (.swarm event) (.swarm event)

section Channels

variable {n n' n₁ : Node PeerId} {event : Event PeerId} {out : List (Outbox PeerId)}
  {actions performed : List (P2P.Action PeerId Bytes ResponseChannel)}

theorem Wakes.frame (h : n.Wakes event n₁) :
    n₁ = { n with state := n₁.state, inbox := n₁.inbox } := by
  cases h <;> rfl

theorem Wakes.inbox_moves (h : n.Wakes event n₁) :
    Channel.Moves n.inbox n₁.inbox event.taken [] := by
  cases h with
  | inbox hrecv => exact .of_recv hrecv
  | _ => exact .refl _

/-- What the application wakes up for has waited in its inbox. -/
theorem Wakes.taken_mem (h : n.Wakes event n₁) : ∀ msg ∈ event.taken, msg ∈ n.inbox.queue := by
  intro msg hmsg
  cases h with
  | inbox hrecv =>
      rw [List.mem_singleton.mp hmsg, (Channel.recv_eq_some.mp hrecv).1]
      exact List.mem_cons_self
  | _ => cases hmsg

theorem send_moves (n : Node PeerId) (out : List (Outbox PeerId)) :
    Channel.Moves n.inbox (n.send out).inbox [] [] ∧
      Channel.Moves n.outbox (n.send out).outbox [] out := by
  rcases send_cases n out with hsend | ⟨hclosed, hsend⟩
  · rw [hsend]
    exact ⟨.refl _, .push _ _⟩
  · have hpush := Channel.Moves.push n.outbox out
    rw [Channel.push_of_closed hclosed] at hpush
    rw [hsend]
    exact ⟨.close _ _, hpush⟩

theorem Performed.moves (h : Performed n actions n' performed) :
    Channel.Moves n.inbox n'.inbox [] (toApps performed) ∧
      Channel.Moves n.outbox n'.outbox [] [] := by
  refine ⟨h.inbox ▸ .push _ _, ?_⟩
  rcases h.outbox with hkept | ⟨-, hclosed⟩
  · exact hkept ▸ .refl _
  · exact hclosed ▸ .close _ _

end Channels

variable [LinearOrder PeerId] {sha256 : Sha256} {json : GossipJson PeerId Bytes}

/-- The network layer runs its loop once. -/
def roundP2P (json : GossipJson PeerId Bytes) (n : Node PeerId)
    (event : P2P.Event PeerId Bytes ResponseChannel) :
    Node PeerId × List (P2P.Action PeerId Bytes ResponseChannel) :=
  perform { n with p2p := (n.p2p.round json event).1 } (n.p2p.round json event).2

/-- One step of a node.  `out` is what the application sent to the network layer,
and `actions` are those that the network layer performed. -/
inductive Step (sha256 : Sha256) (json : GossipJson PeerId Bytes) (n : Node PeerId) :
    Label PeerId Bytes ResponseChannel → Node PeerId → List (Outbox PeerId) →
      List (P2P.Action PeerId Bytes ResponseChannel) → Prop where
  | invoke {request : Request} {state : InvokerHandler Request Response} {future : Nat} :
      n.state.request request = .ok (state, future) →
      Step sha256 json n (.invoke request) { n with state } [] []
  | handle {n₁ : Node PeerId} {event : Event PeerId} {a : App PeerId LogLineriazer}
      {out : List (Outbox PeerId)} :
      n.inbox.isOpen = true → n.Wakes event n₁ → App.Step sha256 n.app event a out →
      Step sha256 json n (.app event) ({ n₁ with app := a }.send out) out []
  | panic {n₁ : Node PeerId} {event : Event PeerId} {reason : Panic} :
      n.inbox.isOpen = true → n.Wakes event n₁ → App.Panics sha256 n.app event reason →
      Step sha256 json n (.app event) (n₁.send (n.app.sentFirst event)).stopApp
        (n.app.sentFirst event) []
  | shutdown :
      n.inbox.isOpen = true →
      Step sha256 json n .shutdown { n with shutdown := true }.stopApp [] []
  | outbox {msg : Outbox PeerId} {outbox : Channel (Outbox PeerId)} {n' : Node PeerId}
      {actions : List (P2P.Action PeerId Bytes ResponseChannel)} :
      n.outbox.isOpen = true → n.outbox.recv = some (msg, outbox) →
      roundP2P json { n with outbox } (.outbox msg) = (n', actions) →
      Step sha256 json n (.outbox msg) n' [] actions
  | swarm {event : SwarmEvent PeerId (MaroonEvent PeerId Bytes ResponseChannel)}
      {n' : Node PeerId} {actions : List (P2P.Action PeerId Bytes ResponseChannel)} :
      n.outbox.isOpen = true → roundP2P json n (.swarm event) = (n', actions) →
      Step sha256 json n (.swarm event) n' [] actions

/-! ## What a step does -/

variable {n n' n₁ : Node PeerId} {label : Label PeerId Bytes ResponseChannel}
  {event : Event PeerId} {out : List (Outbox PeerId)}
  {actions : List (P2P.Action PeerId Bytes ResponseChannel)}

theorem roundP2P_performed {event : P2P.Event PeerId Bytes ResponseChannel}
    (h : roundP2P json n event = (n', actions)) :
    Performed { n with p2p := (n.p2p.round json event).1 } (n.p2p.round json event).2 n'
      actions := by
  have hperformed := perform_performed { n with p2p := (n.p2p.round json event).1 }
    (n.p2p.round json event).2
  rw [roundP2P] at h
  rwa [h] at hperformed

/-- The network layer does whatever a message of the application asks for. -/
theorem roundP2P_outbox (n : Node PeerId) (msg : Outbox PeerId) :
    roundP2P json n (.outbox msg) =
      ((n, P2P.handleReceiverOutbox json n.p2p.peerId msg) :
        Node PeerId × List (P2P.Action PeerId Bytes ResponseChannel)) := by
  refine perform_of_toApps_nil ?_ n
  cases msg with
  | state state =>
      rw [P2P.round, P2P.handleReceiverOutbox]
      split <;> rfl
  | _ => rfl

/-- What passes through the two channels in a step. -/
theorem Step.moves (h : Step sha256 json n label n' out actions) :
    Channel.Moves n.inbox n'.inbox label.takenInbox (toApps actions) ∧
      Channel.Moves n.outbox n'.outbox label.takenOutbox out := by
  cases h with
  | invoke => exact ⟨.refl _, .refl _⟩
  | @handle n₁ event a out hopen hwakes happ =>
      obtain ⟨hin, hout⟩ := send_moves { n₁ with app := a } out
      have houtbox : n₁.outbox = n.outbox := by rw [hwakes.frame]
      have hinbox := hwakes.inbox_moves.trans hin
      rw [List.append_nil] at hinbox
      exact ⟨hinbox, houtbox ▸ hout⟩
  | @panic n₁ event reason hopen hwakes hpanic =>
      obtain ⟨hin, hout⟩ := send_moves n₁ (n.app.sentFirst event)
      have houtbox : n₁.outbox = n.outbox := by rw [hwakes.frame]
      have hinbox := (hwakes.inbox_moves.trans hin).trans (.close _ [])
      simp only [List.append_nil] at hinbox
      exact ⟨hinbox, houtbox ▸ hout⟩
  | shutdown => exact ⟨.close _ _, .refl _⟩
  | outbox hopen hrecv hround =>
      obtain ⟨hin, hout⟩ := (roundP2P_performed hround).moves
      exact ⟨hin, (Channel.Moves.of_recv hrecv).trans hout⟩
  | swarm hopen hround => exact (roundP2P_performed hround).moves

/-- The application has made a step of its own, or it is as before: it has not
woken up, or it has ended by a panic. -/
theorem Step.app_cases (h : Step sha256 json n label n' out actions) :
    (∃ event, label = .app event ∧ App.Step sha256 n.app event n'.app out) ∨
      n'.app = n.app ∧ (label.event = none ∧ out = [] ∨ n'.inbox.isOpen = false ∧
        ∃ event reason, App.Panics sha256 n.app event reason ∧ out = n.app.sentFirst event) := by
  cases h with
  | invoke => exact Or.inr ⟨rfl, Or.inl ⟨rfl, rfl⟩⟩
  | @handle n₁ event a out hopen hwakes happ =>
      exact Or.inl ⟨event, rfl, (send_frame { n₁ with app := a } out).1.symm ▸ happ⟩
  | @panic n₁ event reason hopen hwakes hpanic =>
      have hkept : n₁.app = n.app := by rw [hwakes.frame]
      exact Or.inr ⟨(send_frame n₁ _).1.trans hkept, Or.inr ⟨rfl, event, reason, hpanic, rfl⟩⟩
  | shutdown => exact Or.inr ⟨rfl, Or.inl ⟨rfl, rfl⟩⟩
  | outbox hopen hrecv hround =>
      have hkept := congrArg Node.app (roundP2P_performed hround).frame
      exact Or.inr ⟨hkept, Or.inl ⟨rfl, rfl⟩⟩
  | swarm hopen hround =>
      have hkept := congrArg Node.app (roundP2P_performed hround).frame
      exact Or.inr ⟨hkept, Or.inl ⟨rfl, rfl⟩⟩

theorem Step.heldIds_subset (h : Step sha256 json n label n' out actions) :
    heldIds n.app.transactions ⊆ heldIds n'.app.transactions := by
  rcases h.app_cases with ⟨event, -, happ⟩ | ⟨happ, -⟩
  · exact happ.heldIds_subset
  · rw [happ]

/-- An application that has ended does nothing any more. -/
theorem Step.app_ended (h : Step sha256 json n label n' out actions)
    (hended : n.inbox.isOpen = false) :
    n'.inbox.isOpen = false ∧ n'.app = n.app ∧ label.event = none := by
  cases h with
  | invoke => exact ⟨hended, rfl, rfl⟩
  | handle hopen => exact absurd hopen (by simp [hended])
  | panic hopen => exact absurd hopen (by simp [hended])
  | shutdown hopen => exact absurd hopen (by simp [hended])
  | outbox hopen hrecv hround =>
      have hperformed := roundP2P_performed hround
      have happ := congrArg Node.app hperformed.frame
      refine ⟨?_, happ, rfl⟩
      rw [hperformed.inbox, Channel.push_isOpen]
      exact hended
  | swarm hopen hround =>
      have hperformed := roundP2P_performed hround
      have happ := congrArg Node.app hperformed.frame
      refine ⟨?_, happ, rfl⟩
      rw [hperformed.inbox, Channel.push_isOpen]
      exact hended

/-- The network layer has run a round and performed some of its actions, or it
is as before. -/
theorem Step.p2p_cases (h : Step sha256 json n label n' out actions) :
    (∃ event, label.Round event ∧ n'.p2p = (n.p2p.round json event).1 ∧
      actions.Sublist (n.p2p.round json event).2) ∨ n'.p2p = n.p2p ∧ actions = [] := by
  cases h with
  | invoke => exact Or.inr ⟨rfl, rfl⟩
  | @handle n₁ event a out hopen hwakes happ =>
      have hkept : n₁.p2p = n.p2p := by rw [hwakes.frame]
      exact Or.inr ⟨(send_frame { n₁ with app := a } out).2.1.trans hkept, rfl⟩
  | @panic n₁ event reason hopen hwakes hpanic =>
      have hkept : n₁.p2p = n.p2p := by rw [hwakes.frame]
      exact Or.inr ⟨(send_frame n₁ _).2.1.trans hkept, rfl⟩
  | shutdown => exact Or.inr ⟨rfl, rfl⟩
  | @outbox msg outbox n' actions hopen hrecv hround =>
      have hperformed := roundP2P_performed hround
      have hp2p := congrArg Node.p2p hperformed.frame
      exact Or.inl ⟨.outbox msg, .outbox, hp2p, hperformed.sublist⟩
  | @swarm event n' actions hopen hround =>
      have hperformed := roundP2P_performed hround
      have hp2p := congrArg Node.p2p hperformed.frame
      exact Or.inl ⟨.swarm event, .swarm, hp2p, hperformed.sublist⟩

/-- What a task takes from its channel has waited there. -/
theorem Step.taken_mem (h : Step sha256 json n label n' out actions) :
    (∀ msg ∈ label.takenInbox, msg ∈ n.inbox.queue) ∧
      ∀ msg ∈ label.takenOutbox, msg ∈ n.outbox.queue := by
  cases h with
  | handle _ hwakes _ => exact ⟨hwakes.taken_mem, by simp [Label.takenOutbox]⟩
  | panic _ hwakes _ => exact ⟨hwakes.taken_mem, by simp [Label.takenOutbox]⟩
  | outbox _ hrecv _ =>
      refine ⟨by simp [Label.takenInbox], fun msg hmsg => ?_⟩
      rw [List.mem_singleton.mp hmsg, (Channel.recv_eq_some.mp hrecv).1]
      exact List.mem_cons_self
  | _ => exact ⟨by simp [Label.takenInbox], by simp [Label.takenOutbox]⟩

/-- Each action of a step has its cause. -/
theorem Step.causes (h : Step sha256 json n label n' out actions)
    {action : P2P.Action PeerId Bytes ResponseChannel} (haction : action ∈ actions) :
    ∃ event, P2P.Causes json n.p2p event action ∧
      (∀ msg, event = .outbox msg → msg ∈ n.outbox.queue) ∧
      ∀ swarmEvent, event = .swarm swarmEvent → label = .swarm swarmEvent := by
  rcases h.p2p_cases with ⟨event, hround, -, hsub⟩ | ⟨-, rfl⟩
  · refine ⟨event, P2P.round_causes (hsub.subset haction), fun msg hevent => ?_,
      fun swarmEvent hevent => ?_⟩
    · subst hevent
      cases hround
      exact h.taken_mem.2 msg (List.mem_singleton_self msg)
    · subst hevent
      cases hround
      rfl
  · cases haction

theorem Step.outbox_performed (h : Step sha256 json n label n' out actions) {msg : Outbox PeerId}
    (hmsg : msg ∈ label.takenOutbox) {action : P2P.Action PeerId Bytes ResponseChannel}
    (haction : action ∈ P2P.handleReceiverOutbox json n.p2p.peerId msg) : action ∈ actions := by
  cases h with
  | outbox _ _ hround =>
      obtain ⟨-, rfl⟩ := Prod.mk.inj ((roundP2P_outbox _ _).symm.trans hround)
      rw [← List.mem_singleton.mp hmsg]
      exact haction
  | _ => cases hmsg

theorem Step.p2p_peerId (h : Step sha256 json n label n' out actions) :
    n'.p2p.peerId = n.p2p.peerId := by
  rcases h.p2p_cases with ⟨event, -, hp2p, -⟩ | ⟨hp2p, -⟩
  · rw [hp2p]
    exact (P2P.round_moved json n.p2p event).peerId
  · rw [hp2p]

/-! ## Steps while both tasks run -/

/-- The application handles an event while both tasks run. -/
theorem Step.handle_open (hin : n.inbox.isOpen = true) (hout : n.outbox.isOpen = true)
    (hwakes : n.Wakes event n₁) (happ : App.Step sha256 n.app event a out) :
    Step sha256 json n (.app event : Label PeerId Bytes ResponseChannel)
      { n₁ with app := a, outbox := n.outbox.push out } out [] := by
  have houtbox : n₁.outbox = n.outbox := by rw [hwakes.frame]
  have hsend := @send_of_open _ { n₁ with app := a } (houtbox ▸ hout) out
  rw [← houtbox, ← hsend]
  exact .handle hin hwakes happ

/-- The network layer takes a message of the application. -/
theorem Step.outbox_open {msg : Outbox PeerId} {outbox : Channel (Outbox PeerId)}
    (hrecv : n.outbox.recv = some (msg, outbox)) :
    Step sha256 json n (.outbox msg : Label PeerId Bytes ResponseChannel) { n with outbox } []
      (P2P.handleReceiverOutbox json n.p2p.peerId msg) := by
  have hmem : msg ∈ n.outbox.queue := by
    rw [(Channel.recv_eq_some.mp hrecv).1]
    exact List.mem_cons_self
  exact .outbox (Channel.isOpen_of_mem hmem) hrecv (roundP2P_outbox _ _)

/-- The network layer handles an event of the swarm while both tasks run. -/
theorem Step.swarm_open {swarmEvent : SwarmEvent PeerId (MaroonEvent PeerId Bytes ResponseChannel)}
    {p2p : P2P PeerId} (hin : n.inbox.isOpen = true) (hout : n.outbox.isOpen = true)
    (hround : n.p2p.round json (.swarm swarmEvent) = (p2p, actions)) :
    Step sha256 json n (.swarm swarmEvent)
      { n with p2p, inbox := n.inbox.push (toApps actions) } [] actions := by
  refine .swarm hout ?_
  rw [roundP2P, hround]
  exact @perform_of_open _ _ _ { n with p2p } hin actions

end Node

end Maroon
