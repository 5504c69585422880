import Mathlib.Data.Set.Insert
import Mathlib.Logic.Function.Basic
import Mathlib.Logic.Relation
import Maroon.App.SelfOffsets

/-!
# A closed system of nodes

A system has the application of each node and the set of all packets that were
ever sent.  The network delivers any packet of this set to its addressee, any
number of times and in any order, or never: so messages are delayed, reordered,
duplicated and lost.  A `State` packet goes to every node but its sender.  A
gateway may send any transaction to any node at any time.

A node takes its steps as an application on its own does, and so what holds of
its runs holds in the system (`Reachable.runs`).
-/

namespace Maroon

open Lib

variable {PeerId : Type}

/-- A message on the wire. -/
structure Packet (PeerId : Type) where
  sender : PeerId
  payload : Outbox PeerId

/-- The events that can happen at a node. -/
inductive Deliverable (sent : Set (Packet PeerId)) (receiver : PeerId) : Event PeerId → Prop where
  | advertiseTick : Deliverable sent receiver .advertiseTick
  | commitTick : Deliverable sent receiver .commitTick
  | request {request : Request} : Deliverable sent receiver (.request request)
  /-- A `State` message names its real sender and never returns to it. -/
  | state {sender : PeerId} {state : NodeState} :
      ⟨sender, .state state⟩ ∈ sent → sender ≠ receiver →
      Deliverable sent receiver (.inbox (.state sender state))
  | nodes {nodes : Finset PeerId} : Deliverable sent receiver (.inbox (.nodes nodes))
  | newTransaction {tx : Transaction} : Deliverable sent receiver (.inbox (.newTransaction tx))
  | requestMissingTxs {sender : PeerId} {intervals : List U64BlobIdClosedInterval} :
      ⟨sender, .requestMissingTxs receiver intervals⟩ ∈ sent →
      Deliverable sent receiver (.inbox (.requestMissingTxs sender intervals))
  /-- What was requested arrives as `MissingTx`. -/
  | missingTx {sender : PeerId} {txs : List Transaction} :
      ⟨sender, .requestedTxsForPeer receiver txs⟩ ∈ sent →
      Deliverable sent receiver (.inbox (.missingTx txs))

theorem Deliverable.mono {sent sent' : Set (Packet PeerId)} {receiver : PeerId}
    {event : Event PeerId} (h : Deliverable sent receiver event) (hsub : sent ⊆ sent') :
    Deliverable sent' receiver event := by
  cases h with
  | advertiseTick => exact .advertiseTick
  | commitTick => exact .commitTick
  | request => exact .request
  | state hin hne => exact .state (hsub hin) hne
  | nodes => exact .nodes
  | newTransaction => exact .newTransaction
  | requestMissingTxs hin => exact .requestMissingTxs (hsub hin)
  | missingTx hin => exact .missingTx (hsub hin)

structure System (PeerId : Type) where
  app : PeerId → App PeerId LogLineriazer
  sent : Set (Packet PeerId)

namespace System

/-- Every node starts empty, with the same parameters. -/
def new (params : Params) : System PeerId where
  app peerId := App.new peerId params
  sent := ∅

variable [LinearOrder PeerId]

/-- The system after a node has moved on to `a` and sent `out`. -/
def after (s : System PeerId) (node : PeerId) (a : App PeerId LogLineriazer)
    (out : List (Outbox PeerId)) : System PeerId where
  app := Function.update s.app node a
  sent := s.sent ∪ {packet | packet.sender = node ∧ packet.payload ∈ out}

@[simp] theorem after_app_self (s : System PeerId) (node : PeerId)
    (a : App PeerId LogLineriazer) (out : List (Outbox PeerId)) :
    (s.after node a out).app node = a :=
  Function.update_self _ _ _

theorem after_app_ne (s : System PeerId) {node p : PeerId} (hne : p ≠ node)
    (a : App PeerId LogLineriazer) (out : List (Outbox PeerId)) :
    (s.after node a out).app p = s.app p :=
  Function.update_of_ne hne _ _

/-- One node handles one event. -/
inductive Step (sha256 : Sha256) (nodes : Finset PeerId) (s : System PeerId) (node : PeerId)
    (event : Event PeerId) (out : List (Outbox PeerId)) : System PeerId → Prop where
  | mk {a : App PeerId LogLineriazer} :
      node ∈ nodes →
      Deliverable s.sent node event →
      App.Step sha256 (s.app node) event a out →
      Step sha256 nodes s node event out (s.after node a out)

/-- A step of a node whose application is known. -/
theorem Step.of_app {sha256 : Sha256} {nodes : Finset PeerId} {s : System PeerId}
    {a a' : App PeerId LogLineriazer} {event : Event PeerId} {out : List (Outbox PeerId)}
    (node : PeerId) (hnode : node ∈ nodes) (hdel : Deliverable s.sent node event)
    (happ : s.app node = a) (h : App.Step sha256 a event a' out) :
    Step sha256 nodes s node event out (s.after node a' out) :=
  .mk hnode hdel (happ ▸ h)

/-- Any number of steps of any nodes. -/
def Steps (sha256 : Sha256) (nodes : Finset PeerId) : System PeerId → System PeerId → Prop :=
  Relation.ReflTransGen fun s s' => ∃ node event out, Step sha256 nodes s node event out s'

/-- The states that the system can reach from its start. -/
def Reachable (sha256 : Sha256) (nodes : Finset PeerId) (params : Params) (s : System PeerId) :
    Prop :=
  Steps sha256 nodes (new params) s

variable {sha256 : Sha256} {nodes : Finset PeerId} {params : Params} {s s' s'' : System PeerId}
  {node : PeerId} {event : Event PeerId} {out : List (Outbox PeerId)}

/-- What every step keeps holds after any number of them. -/
theorem Steps.invariant (I : System PeerId → Prop)
    (step : ∀ {s node event out s'}, I s → Step sha256 nodes s node event out s' → I s')
    (h : Steps sha256 nodes s s') (init : I s) : I s' := by
  induction h with
  | refl => exact init
  | tail _ hstep ih =>
      obtain ⟨node, event, out, hstep⟩ := hstep
      exact step ih hstep

theorem Reachable.step (h : Reachable sha256 nodes params s)
    (hs : Step sha256 nodes s node event out s') : Reachable sha256 nodes params s' :=
  Relation.ReflTransGen.tail h ⟨node, event, out, hs⟩

theorem Reachable.steps (h : Reachable sha256 nodes params s) (hs : Steps sha256 nodes s s') :
    Reachable sha256 nodes params s' :=
  Relation.ReflTransGen.trans h hs

/-! ## What a step changes -/

/-- A node that is not the one that moved stays as it is. -/
theorem Step.app_ne (h : Step sha256 nodes s node event out s') {p : PeerId} (hne : p ≠ node) :
    s'.app p = s.app p := by
  cases h with
  | mk => exact after_app_ne s hne _ _

/-- The node that moved made a step of its own. -/
theorem Step.app_self (h : Step sha256 nodes s node event out s') :
    App.Step sha256 (s.app node) event (s'.app node) out := by
  cases h with
  | mk _ _ hstep =>
      rw [after_app_self]
      exact hstep

theorem Step.deliverable (h : Step sha256 nodes s node event out s') :
    Deliverable s.sent node event := by
  cases h with
  | mk _ hdel _ => exact hdel

theorem Step.mem_nodes (h : Step sha256 nodes s node event out s') : node ∈ nodes := by
  cases h with
  | mk hnode _ _ => exact hnode

theorem Step.mem_sent (h : Step sha256 nodes s node event out s') {packet : Packet PeerId} :
    packet ∈ s'.sent ↔ packet ∈ s.sent ∨ packet.sender = node ∧ packet.payload ∈ out := by
  cases h with
  | mk => exact Iff.rfl

/-- A step is seen by a node as a step of its own, or not at all. -/
theorem Step.app_cases (h : Step sha256 nodes s node event out s') (p : PeerId) :
    (p = node ∧ App.Step sha256 (s.app p) event (s'.app p) out) ∨
      (p ≠ node ∧ s'.app p = s.app p) := by
  rcases eq_or_ne p node with rfl | hne
  · exact Or.inl ⟨rfl, h.app_self⟩
  · exact Or.inr ⟨hne, h.app_ne hne⟩

theorem Step.sent_subset (h : Step sha256 nodes s node event out s') : s.sent ⊆ s'.sent :=
  fun _ hin => h.mem_sent.mpr (Or.inl hin)

/-- No node ever drops a transaction. -/
theorem Step.heldIds_subset (h : Step sha256 nodes s node event out s') (p : PeerId) :
    heldIds (s.app p).transactions ⊆ heldIds (s'.app p).transactions := by
  rcases h.app_cases p with ⟨-, hstep⟩ | ⟨-, heq⟩
  · exact hstep.heldIds_subset
  · rw [heq]

theorem Steps.heldIds_subset (h : Steps sha256 nodes s s') (p : PeerId) :
    heldIds (s.app p).transactions ⊆ heldIds (s'.app p).transactions :=
  h.invariant (fun t => heldIds (s.app p).transactions ⊆ heldIds (t.app p).transactions)
    (fun ih hstep => ih.trans (hstep.heldIds_subset p)) subset_rfl

/-- What a node has been through is a run of its application, made of events
that the network could deliver to it. -/
theorem Reachable.runs (h : Reachable sha256 nodes params s) (p : PeerId) :
    ∃ events, App.Runs sha256 (App.new p params) events (s.app p) ∧
      ∀ event ∈ events, Deliverable s.sent p event := by
  refine Steps.invariant (fun t => ∃ events, App.Runs sha256 (App.new p params) events (t.app p) ∧
    ∀ event ∈ events, Deliverable t.sent p event) ?_ h ⟨[], .refl, by simp⟩
  rintro t node event out t' ⟨events, hruns, hdel⟩ hstep
  have hold : ∀ event ∈ events, Deliverable t'.sent p event :=
    fun event hevent => (hdel event hevent).mono hstep.sent_subset
  rcases hstep.app_cases p with ⟨rfl, hown⟩ | ⟨-, heq⟩
  · refine ⟨events ++ [event], hruns.tail hown, fun event' hevent' => ?_⟩
    rcases List.mem_append.mp hevent' with hin | hin
    · exact hold event' hin
    · rw [List.mem_singleton.mp hin]
      exact hstep.deliverable.mono hstep.sent_subset
  · exact ⟨events, heq ▸ hruns, hold⟩

/-- A node keeps its name and its parameters. -/
theorem Reachable.peerId_eq (h : Reachable sha256 nodes params s) (p : PeerId) :
    (s.app p).peerId = p ∧ (s.app p).params = params := by
  obtain ⟨events, hruns, -⟩ := h.runs p
  exact hruns.invariant (fun _ => True) (fun a => a.peerId = p ∧ a.params = params)
    (fun _ ih hstep => ⟨hstep.peerId_eq.trans ih.1, hstep.params_eq.trans ih.2⟩) (by simp)
    ⟨rfl, rfl⟩

/-- A node's entries for itself are its own offsets. -/
theorem Reachable.ownEntries (h : Reachable sha256 nodes params s) (p : PeerId) (r : Nat) :
    peerOffset (s.app p).offsets r p = (s.app p).selfOffsets.lookup r := by
  obtain ⟨events, hruns, hdel⟩ := h.runs p
  obtain ⟨hid, hown⟩ := hruns.ownEntries (App.new_ownEntries p params) fun state hin => by
    cases hdel _ hin with
    | state _ hne => exact hne rfl
  have hentry := hown r
  rwa [hid] at hentry

end System

end Maroon
