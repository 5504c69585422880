import Maroon.App.SelfOffsets
import Maroon.Stack.Layers

/-!
# Transactions that were acknowledged

A node acknowledges a transaction as soon as its network layer has sent it to
the application, and it acknowledges nothing else.  The transaction is not yet
stored then.  It is not lost either: it waits in the inbox or it is stored, as
long as the application runs (`acknowledged_kept`).

A network layer whose application has ended drops new transactions with a log
line, and still acknowledges them.
-/

namespace Maroon

open Lib

namespace Node

variable {PeerId Bytes ResponseChannel : Type}

/-- A gateway hands over a transaction, and waits for the response on a
channel. -/
def handsOver (peer : PeerId) (tx : Transaction) (channel : ResponseChannel) :
    Label PeerId Bytes ResponseChannel :=
  .swarm (.behaviour (.requestResponse (.message peer (.request (.newTransaction tx) channel))))

variable [LinearOrder PeerId] {sha256 : Sha256} {json : GossipJson PeerId Bytes}
  {n₀ n n' : Node PeerId} {labels : List (Label PeerId Bytes ResponseChannel)}
  {label : Label PeerId Bytes ResponseChannel} {out : List (Outbox PeerId)}
  {actions : List (P2P.Action PeerId Bytes ResponseChannel)} {peerId : PeerId} {params : Params}
  {channel : ResponseChannel} {response : GmRequestResponse.Response}

/-- A step that acknowledges has sent a transaction to the application, if that
runs. -/
theorem Step.acknowledges (h : Step sha256 json n label n' out actions)
    (hack : .gmResponse channel response ∈ actions) :
    response = .acknowledged ∧ ∃ peer tx, label = handsOver peer tx channel ∧
      (n'.inbox.isOpen = true → .newTransaction tx ∈ toApps actions) := by
  obtain ⟨event, hcauses, -, hswarm⟩ := h.causes hack
  cases hcauses with
  | @acknowledged peer tx channel =>
      have hlabel : label = handsOver peer tx channel := hswarm _ rfl
      subst hlabel
      refine ⟨rfl, peer, tx, rfl, fun hopen => ?_⟩
      cases h with
      | swarm _ hround =>
          have hperformed := roundP2P_performed hround
          rw [hperformed.inbox, Channel.push_isOpen] at hopen
          rw [mem_toApps, hperformed.complete hopen]
          exact List.mem_cons_self

/-- What was acknowledged in a run was sent to the application. -/
theorem Runs.acknowledges (h : Runs sha256 json n₀ labels n out actions)
    (hack : .gmResponse channel response ∈ actions) :
    response = .acknowledged ∧ ∃ peer tx, handsOver peer tx channel ∈ labels ∧
      (n.inbox.isOpen = true → .newTransaction tx ∈ toApps actions) := by
  induction h with
  | refl => cases hack
  | tail _ hstep ih =>
      rcases List.mem_append.mp hack with hold | hnew
      · obtain ⟨hresponse, peer, tx, hlabel, hsent⟩ := ih hold
        refine ⟨hresponse, peer, tx, List.mem_append_left _ hlabel, fun hopen => ?_⟩
        rw [toApps_append]
        exact List.mem_append_left _ (hsent (hstep.moves.1.of_open hopen).1)
      · obtain ⟨hresponse, peer, tx, rfl, hsent⟩ := hstep.acknowledges hnew
        refine ⟨hresponse, peer, tx, List.mem_append_right _ (List.mem_singleton_self _),
          fun hopen => ?_⟩
        rw [toApps_append]
        exact List.mem_append_right _ (hsent hopen)

/-- Whatever a node sends on the channel of a gateway acknowledges a transaction
that it got with this channel, and while the application runs, that transaction
is stored or waits for it. -/
theorem acknowledged_kept
    (h : Runs sha256 json (createStack peerId params) labels n out actions)
    (hack : .gmResponse channel response ∈ actions) :
    response = .acknowledged ∧ ∃ peer tx, handsOver peer tx channel ∈ labels ∧
      (n.inbox.isOpen = true →
        .newTransaction tx ∈ n.inbox.queue ∨ tx.id ∈ n.app.transactions) := by
  obtain ⟨hresponse, peer, tx, hlabel, hsent⟩ := h.acknowledges hack
  refine ⟨hresponse, peer, tx, hlabel, fun hopen => ?_⟩
  have hmsg := hsent hopen
  rw [h.moves.1.fifo.2 hopen, flatMap_takenInbox] at hmsg
  rcases List.mem_append.mp hmsg with htaken | hwaits
  · obtain ⟨events, hruns, heq | ⟨hended, -⟩⟩ := h.app_runs
    · obtain ⟨event, hevent, htx⟩ := List.mem_flatMap.mp htaken
      rw [← heq] at hevent
      refine Or.inr ?_
      rw [← mem_heldIds, hruns.heldIds_eq]
      refine ⟨event, hevent, tx, ?_, rfl⟩
      cases event with
      | inbox msg =>
          rw [← List.mem_singleton.mp htx]
          exact List.mem_singleton_self tx
      | _ => cases htx
    · rw [hended] at hopen
      cases hopen
  · exact Or.inl hwaits

theorem acknowledged_kept_storing : ∃ tx : Transaction, tx.id ∈ System.holder.transactions := by
  have hruns := storing_runs (fun _ => Vector.replicate 32 0)
    InvokerHandler.createInvokerHandlerPair
  have hack : (.gmResponse () .acknowledged : P2P.Action Nat (GossipMessage Nat) Unit) ∈
      [.toApp (.newTransaction System.firstTx), .gmResponse () .acknowledged] :=
    List.mem_cons_of_mem _ (List.mem_singleton_self _)
  obtain ⟨-, peer, tx, -, hkept⟩ := acknowledged_kept hruns hack
  rcases hkept rfl with hwaits | hstored
  · cases hwaits
  · exact ⟨tx, hstored⟩

end Node

end Maroon
