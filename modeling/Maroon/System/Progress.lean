import Maroon.App.Progress
import Maroon.System.Safety

/-!
# No node gets stuck

What the nodes send to one another can always be handled.  So an event that the
network delivers is handled to its end, in whatever order the node goes through
its maps, as long as what comes from outside the system is in order
(`never_stuck`): a set of nodes has the node itself, and the id of a new
transaction can be decoded.
-/

namespace Maroon

open Lib

variable {PeerId : Type}

/-- An event from outside the system that the node expects. -/
def Event.Expected (receiver : PeerId) : Event PeerId → Prop
  | .inbox (.nodes nodes) => receiver ∈ nodes
  | .inbox (.newTransaction tx) => Accepted tx.id
  | _ => True

namespace System

variable [LinearOrder PeerId] {sha256 : Sha256} {nodes : Finset PeerId} {params : Params}
  {s s' : System PeerId} {node : PeerId} {event : Event PeerId} {out : List (Outbox PeerId)}

/-! ## Answers in flight -/

/-- Who answers with transactions is a node that has them. -/
def AnswersHeld (nodes : Finset PeerId) (s : System PeerId) : Prop :=
  ∀ p q txs, ⟨p, .requestedTxsForPeer q txs⟩ ∈ s.sent → p ∈ nodes ∧ ∀ tx ∈ txs,
    tx.id ∈ (s.app p).transactions

theorem AnswersHeld.step (h : AnswersHeld nodes s) (hsafe : Safe nodes params.consensusNodes s)
    (hstep : Step sha256 nodes s node event out s') : AnswersHeld nodes s' := by
  intro p q txs hin
  rcases hstep.mem_sent.mp hin with hold | ⟨hp, hnew⟩
  · obtain ⟨hnode, hheld⟩ := h p q txs hold
    exact ⟨hnode, fun tx htx => hstep.heldIds_subset p (hheld tx htx)⟩
  · simp only at hp hnew
    subst hp
    cases hstep.app_self.sends (hsafe.valid _).store.keyed hnew with
    | answer hstored =>
        exact ⟨hstep.mem_nodes, fun tx htx =>
          HashMap.mem_iff_lookup.mpr ⟨tx, hstored.2 tx htx⟩⟩

theorem Reachable.answersHeld (h : Reachable sha256 nodes params s) : AnswersHeld nodes s :=
  (Steps.invariant (fun t => Reachable sha256 nodes params t ∧ AnswersHeld nodes t)
    (fun ih hstep => ⟨ih.1.step hstep, ih.2.step ih.1.safe hstep⟩) h
    ⟨Relation.ReflTransGen.refl, fun _ _ _ hin => absurd hin (Set.notMem_empty _)⟩).2

/-! ## Events that are handled -/

theorem Reachable.tiled (h : Reachable sha256 nodes params s) (p : PeerId) : (s.app p).Tiled := by
  obtain ⟨events, hruns, hdel⟩ := h.runs p
  exact (hruns.tiled fun event hevent => h.safe.offsetsAdvertisable (hdel event hevent)).2

/-- A quorum of nodes stores every id of a log. -/
theorem Reachable.logged_quorum (h : Reachable sha256 nodes params s) {p : PeerId} {id : Nat}
    (hid : id ∈ (s.app p).linearizer.sequence) :
    ∃ quorum ⊆ nodes, (params.consensusNodes : Nat) ≤ quorum.card ∧
      ∀ q ∈ quorum, id ∈ (s.app q).transactions := by
  have hlog : id ∈ logOf (s.app p).linearizer.sequence (id / singleBlobSize) :=
    List.mem_filter.mpr ⟨hid, by simp⟩
  rw [(h.tiled p).log] at hlog
  obtain ⟨i, hi, hin⟩ := List.mem_flatMap.mp hlog
  obtain ⟨r, o, hrange, hright, -, quorum, hsub, hcard, hholds⟩ :=
    h.safe.commited (List.mem_filter.mp hi).1
  refine ⟨quorum, hsub, hcard, fun q hq => ?_⟩
  -- the id is one of those up to the end of its interval
  have hid' := idOf_div_mod id
  rw [hrange.div_eq hin] at hid'
  have hend := (U64BlobIdClosedInterval.mem_ids.mp hin).2
  rw [hright, ← hid'] at hend
  have hle : id % singleBlobSize ≤ o := by
    simp only [idOf] at hend
    omega
  have hheld := hholds q hq _ hle
  rwa [idOf_zero_add, hid'] at hheld

/-- A node can handle what the others send to it. -/
theorem Reachable.admits (h : Reachable sha256 nodes params s)
    (hdel : Deliverable s.sent node event) (hexpected : event.Expected node) :
    (s.app node).Admits event := by
  cases hdel with
  | nodes =>
      show (s.app node).peerId ∈ _
      rw [(h.peerId_eq node).1]
      exact hexpected
  | newTransaction => exact hexpected
  | requestMissingTxs hin =>
      have hanswer := h.safe.requests hin
      exact ⟨hanswer.le, hanswer.accepted, hanswer.held, hanswer.nodup⟩
  | missingTx hin =>
      exact fun tx htx =>
        (h.safe.valid _).store.accepted tx.id ((h.answersHeld _ _ _ hin).2 tx htx)
  | _ => trivial

theorem Reachable.returns (h : Reachable sha256 nodes params s)
    (hdel : Deliverable s.sent node event) (hexpected : event.Expected node) :
    App.Returns sha256 (s.app node) event :=
  (h.safe.valid node).returns (h.tiled node).advertisable (h.admits hdel hexpected)

/-- A node of the system makes a step with every event that can happen at it. -/
theorem Reachable.exists_step (h : Reachable sha256 nodes params s) (hnode : node ∈ nodes)
    (hdel : Deliverable s.sent node event) (hexpected : event.Expected node) :
    ∃ out s', Step sha256 nodes s node event out s' := by
  obtain ⟨a, out, hstep⟩ := (h.returns hdel hexpected).step
  exact ⟨out, _, .mk hnode hdel hstep⟩

/-- In every state that the system reaches, whatever the network delivers to a
node is handled to its end, and no order of its maps makes the node panic. -/
theorem never_stuck (h : Reachable sha256 nodes params s) (hnode : node ∈ nodes)
    (hdel : Deliverable s.sent node event) (hexpected : event.Expected node) :
    App.Returns sha256 (s.app node) event ∧
      (∃ out s', Step sha256 nodes s node event out s') ∧
      ∀ reason, ¬ App.Panics sha256 (s.app node) event reason := by
  have hreturns := h.returns hdel hexpected
  exact ⟨hreturns, h.exists_step hnode hdel hexpected,
    hreturns.not_panics (h.safe.valid node).store.accepted⟩

/-- Node 1 is asked for the transaction that it has. -/
theorem never_stuck_requested : ∃ out s', Step (fun _ => Vector.replicate 32 0) {0, 1} requested 1
    (.inbox (.requestMissingTxs 0 [⟨0, 0⟩])) out s' :=
  (never_stuck (requested_reachable fun _ => Vector.replicate 32 0) (by decide)
    (.requestMissingTxs (Or.inr ⟨rfl, by simp⟩)) trivial).2.1

end System

end Maroon
