import Maroon.Network.Alive
import Maroon.Stack.Node
import Maroon.System.Safety

/-!
# The layers of one node

The network layer and the application of a node share nothing but two channels.
So a run of the node is a run of its application, on the messages that the
network layer has sent to it (`layers_fifo`).
-/

namespace Maroon

open Lib

namespace Node

variable {PeerId Bytes ResponseChannel : Type} [LinearOrder PeerId] {sha256 : Sha256}
  {json : GossipJson PeerId Bytes}

/-- A run of a node, with all that passed between its tasks and all actions of its
network layer. -/
inductive Runs (sha256 : Sha256) (json : GossipJson PeerId Bytes) (n₀ : Node PeerId) :
    List (Label PeerId Bytes ResponseChannel) → Node PeerId → List (Outbox PeerId) →
      List (P2P.Action PeerId Bytes ResponseChannel) → Prop where
  | refl : Runs sha256 json n₀ [] n₀ [] []
  | tail {labels : List (Label PeerId Bytes ResponseChannel)} {n n' : Node PeerId}
      {out out' : List (Outbox PeerId)}
      {actions actions' : List (P2P.Action PeerId Bytes ResponseChannel)}
      {label : Label PeerId Bytes ResponseChannel} :
      Runs sha256 json n₀ labels n out actions → Step sha256 json n label n' out' actions' →
      Runs sha256 json n₀ (labels ++ [label]) n' (out ++ out') (actions ++ actions')

variable {n₀ n n' : Node PeerId} {labels : List (Label PeerId Bytes ResponseChannel)}
  {label : Label PeerId Bytes ResponseChannel} {out : List (Outbox PeerId)}
  {actions : List (P2P.Action PeerId Bytes ResponseChannel)} {peerId : PeerId} {params : Params}

theorem Runs.append {labels' : List (Label PeerId Bytes ResponseChannel)}
    {out' : List (Outbox PeerId)} {actions' : List (P2P.Action PeerId Bytes ResponseChannel)}
    (h : Runs sha256 json n₀ labels n out actions)
    (h' : Runs sha256 json n labels' n' out' actions') :
    Runs sha256 json n₀ (labels ++ labels') n' (out ++ out') (actions ++ actions') := by
  induction h' with
  | refl => simpa using h
  | tail _ hstep ih =>
      rw [← List.append_assoc, ← List.append_assoc, ← List.append_assoc]
      exact ih.tail hstep

/-- What passes through the two channels in a run. -/
theorem Runs.moves (h : Runs sha256 json n₀ labels n out actions) :
    Channel.Moves n₀.inbox n.inbox (labels.flatMap Label.takenInbox) (toApps actions) ∧
      Channel.Moves n₀.outbox n.outbox (labels.flatMap Label.takenOutbox) out := by
  induction h with
  | refl => exact ⟨.refl _, .refl _⟩
  | tail _ hstep ih =>
      obtain ⟨hin, hout⟩ := hstep.moves
      rw [List.flatMap_append, List.flatMap_append, List.flatMap_singleton,
        List.flatMap_singleton, toApps_append]
      exact ⟨ih.1.trans hin, ih.2.trans hout⟩

/-- The application has handled the events that it woke up for, unless the last
one has ended it. -/
theorem Runs.app_runs (h : Runs sha256 json (createStack peerId params) labels n out actions) :
    ∃ events, App.Runs sha256 (App.new peerId params) events n.app ∧
      (events = labels.filterMap Label.event ∨ n.inbox.isOpen = false ∧
        events <+: labels.filterMap Label.event) := by
  induction h with
  | refl => exact ⟨[], .refl, Or.inl rfl⟩
  | @tail labels n n' out out' actions actions' label _ hstep ih =>
      obtain ⟨events, hruns, hevents⟩ := ih
      have hlabels : (labels ++ [label]).filterMap Label.event =
          labels.filterMap Label.event ++ label.event.toList := by
        rw [List.filterMap_append]
        cases hlabel : label.event <;> simp [hlabel]
      rw [hlabels]
      rcases hevents with rfl | ⟨hended, hprefix⟩
      · rcases hstep.app_cases with ⟨event, rfl, happ⟩ | ⟨happ, ⟨hnone, -⟩ | ⟨hended, -⟩⟩
        · exact ⟨_, hruns.tail happ, Or.inl rfl⟩
        · refine ⟨_, happ ▸ hruns, Or.inl ?_⟩
          rw [hnone, Option.toList_none, List.append_nil]
        · exact ⟨_, happ ▸ hruns, Or.inr ⟨hended, List.prefix_append _ _⟩⟩
      · obtain ⟨hended', happ, hnone⟩ := hstep.app_ended hended
        refine ⟨events, happ ▸ hruns, Or.inr ⟨hended', ?_⟩⟩
        rw [hnone, Option.toList_none, List.append_nil]
        exact hprefix

/-- The application of a node has made a run of its own, on the messages that the
network layer sent and in their order.  Both channels lose, repeat and reorder
nothing, as long as the task that reads them runs. -/
theorem layers_fifo (h : Runs sha256 json (createStack peerId params) labels n out actions) :
    (∃ events, App.Runs sha256 (App.new peerId params) events n.app ∧
      events.flatMap Event.taken <+: toApps actions ∧
      (n.inbox.isOpen = true → toApps actions = events.flatMap Event.taken ++ n.inbox.queue)) ∧
    labels.flatMap Label.takenOutbox <+: out ∧
    (n.outbox.isOpen = true → out = labels.flatMap Label.takenOutbox ++ n.outbox.queue) := by
  obtain ⟨hin, hout⟩ := h.moves
  obtain ⟨events, hruns, hevents⟩ := h.app_runs
  refine ⟨⟨events, hruns, ?_⟩, hout.fifo⟩
  rw [flatMap_takenInbox] at hin
  rcases hevents with rfl | ⟨hended, hprefix⟩
  · exact hin.fifo
  · obtain ⟨rest, hrest⟩ := hprefix
    refine ⟨?_, fun hopen => absurd hopen (by simp [hended])⟩
    refine List.IsPrefix.trans ?_ hin.fifo.1
    rw [← hrest, List.flatMap_append]
    exact List.prefix_append _ _

/-! ## A run of a node

A gateway hands the node a transaction, and the application takes it. -/

/-- Node 1 with its application, between two messages. -/
def idle (app : App Nat LogLineriazer) (state : InvokerHandler Request Response) : Node Nat :=
  { createStack 1 Params.default with app, state }

def storing : List (Label Nat (GossipMessage Nat) Unit) :=
  [.swarm (.behaviour (.requestResponse
      (.message 2 (.request (.newTransaction System.firstTx) ())))),
    .app (.inbox (.newTransaction System.firstTx))]

theorem storing_runs (sha256 : Sha256) (state : InvokerHandler Request Response) :
    Runs sha256 P2P.plainJson (idle (App.new 1 Params.default) state) storing
      (idle System.holder state) []
      [.toApp (.newTransaction System.firstTx), .gmResponse () .acknowledged] := by
  let handed : Node Nat := { idle (App.new 1 Params.default) state with
    inbox := Channel.new.push [.newTransaction System.firstTx] }
  have hswarm : Step sha256 P2P.plainJson (idle (App.new 1 Params.default) state) storing[0]
      handed [] [.toApp (.newTransaction System.firstTx), .gmResponse () .acknowledged] :=
    .swarm rfl rfl
  have happ : Step sha256 P2P.plainJson handed storing[1] (idle System.holder state) []
      ([] : List (P2P.Action Nat _ _)) :=
    @Step.handle _ _ _ _ _ _ handed (idle (App.new 1 Params.default) state) _ System.holder [] rfl
      (.inbox rfl) (System.holder_receives sha256)
  exact (Runs.refl.tail hswarm).tail happ

theorem layers_fifo_storing : ∃ events,
    App.Runs (fun _ => Vector.replicate 32 0) (App.new 1 Params.default) events System.holder ∧
      events.flatMap Event.taken <+: [.newTransaction System.firstTx] := by
  obtain ⟨⟨events, hruns, hprefix, -⟩, -⟩ :=
    layers_fifo (storing_runs _ InvokerHandler.createInvokerHandlerPair)
  exact ⟨events, hruns, hprefix⟩

end Node

end Maroon
