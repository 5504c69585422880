import Maroon.App.AskedPeers
import Maroon.System.Progress
import Maroon.System.Quiescence
import Maroon.System.Repair

/-!
# What is lost

A system never forgets a packet: whatever was sent can still arrive.  On a real
network some of it will not.  `Lossy` are the states that the system reaches, but
with only some of the packets left.  The nodes are the same, so what holds of them
in every reachable state holds here, and they can still handle whatever arrives
(`Lossy.exists_step`).
-/

namespace Maroon

open Lib

variable {PeerId : Type}

/-- Whom a message goes to, if it does not go to all. -/
def Outbox.addressee : Outbox PeerId → Option PeerId
  | .state _ => none
  | .requestMissingTxs peerId _ => some peerId
  | .requestedTxsForPeer peerId _ => some peerId

/-- A packet is sent by a node, and not to itself. -/
structure Packet.Sound (nodes : Finset PeerId) (packet : Packet PeerId) : Prop where
  sender : packet.sender ∈ nodes
  addressee : packet.payload.addressee ≠ some packet.sender

namespace System

variable [LinearOrder PeerId] {sha256 : Sha256} {nodes : Finset PeerId}
  {params : Params} {s s' : System PeerId} {node p q : PeerId} {event : Event PeerId}
  {out : List (Outbox PeerId)} {sent : Set (Packet PeerId)}

/-! ## Who writes to whom -/

theorem Step.addressee_ne (h : Step sha256 nodes s node event out s')
    (hr : Reachable sha256 nodes params s) (hsound : ∀ packet ∈ s.sent, packet.Sound nodes)
    {msg : Outbox PeerId} (hmsg : msg ∈ out) : msg.addressee ≠ some node := by
  cases h.app_self.sends (hr.safe.valid node).store.keyed hmsg with
  | state => nofun
  | request =>
      rintro heq
      cases heq
      have hown := h.app_self.not_self_request fun r => ?_
      · rw [(hr.peerId_eq node).1] at hown
        exact hown _ hmsg
      · rw [(hr.peerId_eq node).1]
        exact hr.ownEntries node r
  | answer =>
      cases h.deliverable with
      | requestMissingTxs hin =>
          rintro heq
          cases heq
          exact (hsound _ hin).addressee rfl

theorem Reachable.sound (h : Reachable sha256 nodes params s) :
    ∀ packet ∈ s.sent, packet.Sound nodes := by
  refine (Steps.invariant (fun t => Reachable sha256 nodes params t ∧
    ∀ packet ∈ t.sent, packet.Sound nodes) ?_ h
    ⟨.refl, fun _ hin => absurd hin (Set.notMem_empty _)⟩).2
  rintro t node event out t' ⟨hr, hsound⟩ hstep
  refine ⟨hr.step hstep, fun packet hin => ?_⟩
  rcases hstep.mem_sent.mp hin with hold | ⟨rfl, hnew⟩
  · exact hsound packet hold
  · exact ⟨hstep.mem_nodes, hstep.addressee_ne hr hsound hnew⟩

/-! ## States with packets lost -/

/-- A state that the system reaches, but not all that was sent can still arrive. -/
def Lossy (sha256 : Sha256) (nodes : Finset PeerId) (params : Params) (s : System PeerId) :
    Prop :=
  ∃ sent, s.sent ⊆ sent ∧ Reachable sha256 nodes params { s with sent }

theorem Reachable.lossy (h : Reachable sha256 nodes params s) : Lossy sha256 nodes params s :=
  ⟨s.sent, subset_rfl, h⟩

/-- More can get lost at any time. -/
theorem Lossy.lose (h : Lossy sha256 nodes params s) (hsub : sent ⊆ s.sent) :
    Lossy sha256 nodes params { s with sent } := by
  obtain ⟨all, hall, hr⟩ := h
  exact ⟨all, hsub.trans hall, hr⟩

/-- The same step is possible where more packets can arrive. -/
theorem Step.mono (h : Step sha256 nodes s node event out s') (hsub : s.sent ⊆ sent) :
    ∃ sent', s'.sent ⊆ sent' ∧
      Step sha256 nodes { s with sent } node event out { s' with sent := sent' } := by
  cases h with
  | mk hnode hdel happ =>
      exact ⟨_, Set.union_subset_union_left _ hsub, .mk hnode (hdel.mono hsub) happ⟩

theorem Lossy.step (h : Lossy sha256 nodes params s)
    (hstep : Step sha256 nodes s node event out s') : Lossy sha256 nodes params s' := by
  obtain ⟨sent, hsub, hr⟩ := h
  obtain ⟨sent', hsub', hstep'⟩ := hstep.mono hsub
  exact ⟨sent', hsub', hr.step hstep'⟩

theorem Lossy.steps (h : Lossy sha256 nodes params s) (hsteps : Steps sha256 nodes s s') :
    Lossy sha256 nodes params s' :=
  hsteps.invariant (Lossy sha256 nodes params) (fun hl hstep => hl.step hstep) h

section Nodes

variable (h : Lossy sha256 nodes params s)
include h

theorem Lossy.valid (p : PeerId) : (s.app p).Valid := by
  obtain ⟨sent, -, hr⟩ := h
  exact hr.safe.valid p

theorem Lossy.views {r v : Nat} (hv : peerOffset (s.app p).offsets r q = some v) :
    q ∈ nodes ∧ s.Holds q r v := by
  obtain ⟨sent, -, hr⟩ := h
  exact hr.safe.views hv

theorem Lossy.params_eq (p : PeerId) : (s.app p).params = params := by
  obtain ⟨sent, -, hr⟩ := h
  exact (hr.peerId_eq p).2

theorem Lossy.ownEntries (p : PeerId) (r : Nat) :
    peerOffset (s.app p).offsets r p = (s.app p).selfOffsets.lookup r := by
  obtain ⟨sent, -, hr⟩ := h
  exact hr.ownEntries p r

theorem Lossy.tiled (p : PeerId) : (s.app p).Tiled := by
  obtain ⟨sent, -, hr⟩ := h
  exact hr.tiled p

theorem Lossy.storeExact (hlast : NoLast (heldIds (s.app p).transactions)) :
    StoreExact (s.app p).transactions (s.app p).selfOffsets := by
  obtain ⟨sent, -, hr⟩ := h
  exact hr.storeExact hlast

theorem Lossy.answersHeld : AnswersHeld nodes s := by
  obtain ⟨sent, hsub, hr⟩ := h
  exact fun p q txs hin => hr.answersHeld p q txs (hsub hin)

theorem Lossy.recalculated (hquiescent : Quiescent nodes s)
    (hn : (params.consensusNodes : Nat) ≤ nodes.card) (hp : p ∈ nodes)
    {after : HashMap Nat Nat}
    (hafter : Recalculated params.consensusNodes (s.app p).offsets (s.app p).consensusOffset
      after) : after = (s.app p).selfOffsets := by
  obtain ⟨sent, -, hr⟩ := h
  have hquiescent' : Quiescent nodes { s with sent } := ⟨hquiescent.views, hquiescent.delays⟩
  exact hquiescent'.recalculated hr hn hp hafter

theorem Lossy.returns (hdel : Deliverable s.sent node event) (hexpected : event.Expected node) :
    App.Returns sha256 (s.app node) event := by
  obtain ⟨sent, hsub, hr⟩ := h
  exact hr.returns (hdel.mono hsub) hexpected

/-- A node makes a step with every event that can still happen at it. -/
theorem Lossy.exists_step (hnode : node ∈ nodes) (hdel : Deliverable s.sent node event)
    (hexpected : event.Expected node) : ∃ out s', Step sha256 nodes s node event out s' := by
  obtain ⟨a, out, hstep⟩ := (h.returns hdel hexpected).step
  exact ⟨out, _, .mk hnode hdel hstep⟩

end Nodes

end System

end Maroon
