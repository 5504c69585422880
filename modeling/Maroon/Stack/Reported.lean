import Maroon.Stack.Integrity

/-!
# What the owner of a node is told

A node answers its owner with its own offsets and its consensus offsets, and the
owner may look at the answer at any later time.  What it reads is true then: the
node has all transactions up to its offsets, and a quorum of nodes has all up to
the consensus offsets (`reported_is_stored`).
-/

namespace Maroon

open Lib

/-! ## Where a response comes from -/

namespace Node

variable {PeerId Bytes ResponseChannel : Type} {n n' n₁ : Node PeerId} {event : Event PeerId}
  {res : Response}

theorem Wakes.responses (h : n.Wakes event n₁) (hres : .sent res ∈ n₁.state.responses) :
    .sent res ∈ n.state.responses ∨ ∃ request, res = n.app.handleRequest request := by
  cases h with
  | @request wrapper state hrecv =>
      obtain ⟨-, -, hkept⟩ := InvokerHandler.recv_eq_some.mp hrecv
      rcases List.mem_or_eq_of_mem_set hres with hold | hnew
      · exact Or.inl (hkept ▸ hold)
      · cases hnew
        exact Or.inr ⟨wrapper.request, rfl⟩
  | _ => exact Or.inl hres

theorem send_responses {out : List (Outbox PeerId)}
    (hres : .sent res ∈ (n.send out).state.responses) : .sent res ∈ n.state.responses := by
  rcases send_cases n out with hsend | ⟨-, hsend⟩
  · rw [hsend] at hres
    exact hres
  · rw [hsend] at hres
    exact InvokerHandler.mem_of_mem_dropHandler hres

variable [LinearOrder PeerId] {sha256 : Sha256} {json : GossipJson PeerId Bytes}
  {label : Label PeerId Bytes ResponseChannel} {out : List (Outbox PeerId)}
  {actions : List (P2P.Action PeerId Bytes ResponseChannel)}

/-- Responses are those of the application as it was. -/
theorem Step.responses (h : Step sha256 json n label n' out actions)
    (hres : .sent res ∈ n'.state.responses) :
    .sent res ∈ n.state.responses ∨ ∃ request, res = n.app.handleRequest request := by
  cases h with
  | invoke hrequest =>
      obtain ⟨-, -, rfl⟩ := InvokerHandler.request_ok.mp hrequest
      rcases List.mem_append.mp hres with hold | hnew
      · exact Or.inl hold
      · cases List.mem_singleton.mp hnew
  | @handle n₁ event a out _ hwakes _ =>
      have hsent := @send_responses _ { n₁ with app := a } _ out hres
      exact hwakes.responses hsent
  | @panic n₁ event reason _ hwakes _ =>
      have hsent := InvokerHandler.mem_of_mem_dropHandler hres
      exact hwakes.responses (@send_responses _ n₁ _ (n.app.sentFirst event) hsent)
  | shutdown => exact Or.inl (InvokerHandler.mem_of_mem_dropHandler hres)
  | outbox _ _ hround =>
      rw [(roundP2P_performed hround).frame] at hres
      exact Or.inl hres
  | swarm _ hround =>
      rw [(roundP2P_performed hround).frame] at hres
      exact Or.inl hres

end Node

/-! ## Offsets that are backed -/

namespace Deployment

variable {PeerId Bytes : Type}

/-- A node has a range from its offset 0 to `o`. -/
def Stores (d : Deployment PeerId Bytes) (p : PeerId) (r o : Nat) : Prop :=
  Held (heldIds (d.node p).app.transactions) (idOf r 0) o

/-- The offsets that a node has told are backed by what the nodes have. -/
structure Backs (setup : Setup PeerId) (d : Deployment PeerId Bytes) (p : PeerId)
    (seen : CurrentOffsets) : Prop where
  own : ∀ r o, seen.selfOffsets.lookup r = some o → d.Stores p r o
  quorum : ∀ r o, seen.consensusOffset.lookup r = some o → ∃ quorum ⊆ setup.nodes,
    (setup.params.consensusNodes : Nat) ≤ quorum.card ∧ ∀ q ∈ quorum, d.Stores q r o

variable [LinearOrder PeerId] {sha256 : Sha256} {json : GossipJson PeerId Bytes}
  {setup : Setup PeerId} {d d' : Deployment PeerId Bytes} {p : PeerId} {move : Move PeerId Bytes}
  {seen : CurrentOffsets}

/-- No node ever drops a transaction. -/
theorem Step.heldIds_subset (h : Step sha256 json setup d move d') (q : PeerId) :
    heldIds (d.node q).app.transactions ⊆ heldIds (d'.node q).app.transactions := by
  cases h with
  | gateway | network => exact subset_rfl
  | @node p label n out actions _ _ hstep =>
      refine afterNode_forall
        (P := fun q n => heldIds (d.node q).app.transactions ⊆ heldIds n.app.transactions) ?_
        (fun _ _ => subset_rfl) q
      rcases hstep.app_cases with ⟨event, -, happ⟩ | ⟨happ, -⟩
      · exact happ.heldIds_subset
      · rw [happ]

theorem Backs.step (h : Backs setup d p seen) (hstep : Step sha256 json setup d move d') :
    Backs setup d' p seen where
  own r o ho := (h.own r o ho).mono (hstep.heldIds_subset p)
  quorum r o ho := by
    obtain ⟨quorum, hsub, hcard, hstores⟩ := h.quorum r o ho
    exact ⟨quorum, hsub, hcard, fun q hq => (hstores q hq).mono (hstep.heldIds_subset q)⟩

/-- What a node would tell now is backed. -/
theorem Reachable.backs (hjson : json.Faithful) (h : Reachable sha256 json setup d)
    (request : Request) (hres : .state seen = (d.node p).app.handleRequest request) :
    Backs setup d p seen := by
  cases request with
  | getState =>
      cases hres
      obtain ⟨s, hs, hrep⟩ := h.represented hjson
      refine ⟨fun r o ho => (h.valid hjson p).store.held ho, fun r o ho => ?_⟩
      have hconsensus : (s.app p).consensusOffset.lookup r = some o := by
        rw [hrep.app p]
        exact ho
      obtain ⟨quorum, hsub, hcard, hholds⟩ := hs.safe.consensus hconsensus
      refine ⟨quorum, hsub, hcard, fun q hq => ?_⟩
      rw [Stores, ← hrep.app q]
      exact hholds q hq

theorem Reachable.reported (hjson : json.Faithful) (h : Reachable sha256 json setup d)
    (hres : .sent (.state seen) ∈ (d.node p).state.responses) : Backs setup d p seen := by
  refine (Reachable.invariant (fun d => Reachable sha256 json setup d ∧
    ∀ p seen, .sent (.state seen) ∈ (d.node p).state.responses → Backs setup d p seen)
    ⟨.refl, fun _ _ hres => absurd hres List.not_mem_nil⟩ ?_ h).2 p seen hres
  rintro d d' move ⟨hr, hbacked⟩ hstep
  refine ⟨hr.step hstep, fun q seen hres => ?_⟩
  suffices hbefore : Backs setup d q seen from hbefore.step hstep
  cases hstep with
  | gateway | network => exact hbacked q seen hres
  | @node p label n out actions _ _ hstep =>
      revert hres
      refine afterNode_forall
        (P := fun q n => .sent (.state seen) ∈ n.state.responses → Backs setup d q seen)
        (fun hres => ?_) (fun q _ => hbacked q seen) q
      rcases hstep.responses hres with hold | ⟨request, hnew⟩
      · exact hbacked p seen hold
      · exact hr.backs hjson request hnew

/-- Whenever the owner of a node looks at an answer, the node has the
transactions up to the offsets in it, and a quorum of nodes has those up to the
consensus offsets in it. -/
theorem reported_is_stored (hjson : json.Faithful) (h : Reachable sha256 json setup d)
    {future : Nat} (hpoll : (d.node p).state.poll future = .ok (some (.state seen))) :
    (∀ r o, seen.selfOffsets.lookup r = some o → ∀ k ≤ o,
      idOf r k ∈ (d.node p).app.transactions) ∧
    ∀ r o, seen.consensusOffset.lookup r = some o → ∃ quorum ⊆ setup.nodes,
      (setup.params.consensusNodes : Nat) ≤ quorum.card ∧
        ∀ q ∈ quorum, ∀ k ≤ o, idOf r k ∈ (d.node q).app.transactions := by
  have hmem : ∀ {q r o}, d.Stores q r o → ∀ k ≤ o, idOf r k ∈ (d.node q).app.transactions := by
    intro q r o hstores k hk
    rw [← idOf_zero_add]
    exact hstores k hk
  have hbacks := h.reported hjson
    (List.mem_of_getElem? (InvokerHandler.poll_ready.mp hpoll))
  refine ⟨fun r o ho => hmem (hbacks.own r o ho), fun r o ho => ?_⟩
  obtain ⟨quorum, hsub, hcard, hstores⟩ := hbacks.quorum r o ho
  exact ⟨quorum, hsub, hcard, fun q hq => hmem (hstores q hq)⟩

/-! The owner of node 1 asks, and the node answers. -/

def asking : Node Nat :=
  { stored with
    state := { channel := Channel.new.push [⟨.getState, 0⟩], responses := [.pending] } }

def told : Node Nat :=
  { stored with
    state := { channel := .new, responses := [.sent (System.holder.handleRequest .getState)] } }

def answered : Deployment Nat (GossipMessage Nat) :=
  (delivered.afterNode 1 asking []).afterNode 1 told []

theorem answered_reachable (sha256 : Sha256) :
    Reachable sha256 P2P.plainJson firstSetup answered := by
  have h1 := (delivered_reachable sha256).step (@Step.of_node _ _ _ _ _ _ _ stored asking
    (.invoke .getState) [] [] 1 (by decide) nofun rfl
    (@Node.Step.invoke _ _ _ _ _ _ stored .getState asking.state 0 rfl))
  exact h1.step (@Step.of_node _ _ _ _ _ _ _ asking told (.app (.request .getState)) [] [] 1
    (by decide) nofun rfl
    (@Node.Step.handle _ _ _ _ _ _ asking told _ System.holder [] rfl
      (@Node.Wakes.request _ asking ⟨.getState, 0⟩ { asking.state with channel := .new } rfl)
      .request))

theorem reported_is_stored_answered : idOf 0 0 ∈ System.holder.transactions :=
  (@reported_is_stored _ _ _ _ _ _ _ 1 _ plainJson_faithful
    (answered_reachable fun _ => Vector.replicate 32 0) 0 rfl).1 0 0 rfl 0 le_rfl

end Deployment

end Maroon
