import Maroon.System.Safety

/-!
# Quiescent agreement

In a quiescent state every node knows the offsets of all nodes and lacks
nothing that any of them has.  Then all have the same offsets, and after one
more recalculation these are the consensus offsets of each node, whatever its
consensus offsets were before.
-/

namespace Maroon

open Lib

namespace System

variable {PeerId : Type} [LinearOrder PeerId] {sha256 : Sha256} {nodes : Finset PeerId}
  {params : Params} {s : System PeerId} {p q : PeerId} {r v : Nat}

/-- Every node knows where the others are, and has nothing to ask for. -/
structure Quiescent (nodes : Finset PeerId) (s : System PeerId) : Prop where
  views : ∀ p ∈ nodes, ∀ q ∈ nodes, ∀ r,
    peerOffset (s.app p).offsets r q = (s.app q).selfOffsets.lookup r
  delays : ∀ p ∈ nodes, ∃ order fuel, EnumeratesNested order (s.app p).offsets ∧
    selfDelays fuel (s.app p).transactions (s.app p).selfOffsets order = .ok ∅

/-- A node that has nothing to ask for is nowhere behind. -/
theorem Quiescent.le (h : Quiescent nodes s) (hp : p ∈ nodes) (hq : q ∈ nodes)
    (hv : (s.app q).selfOffsets.lookup r = some v) :
    ∃ own, (s.app p).selfOffsets.lookup r = some own ∧ v ≤ own := by
  obtain ⟨order, fuel, horder, hdelays⟩ := h.delays p hp
  rw [← h.views p hp q hq r] at hv
  by_contra hbehind
  have hnext : nextOffset (s.app p).selfOffsets r ≤ v := by
    refine nextOffset_le_iff.mpr fun own hown => ?_
    by_contra hle
    exact hbehind ⟨own, hown, not_lt.mp hle⟩
  obtain ⟨leader, border, intervals, -, hlook, -⟩ := selfDelays_complete horder hdelays hv hnext
  rw [Finmap.lookup_empty] at hlook
  cases hlook

theorem Quiescent.agree (h : Quiescent nodes s) (hp : p ∈ nodes) (hq : q ∈ nodes) :
    (s.app p).selfOffsets = (s.app q).selfOffsets := by
  refine Finmap.ext_lookup fun r => ?_
  cases hlook : (s.app p).selfOffsets.lookup r with
  | none =>
      cases hlook' : (s.app q).selfOffsets.lookup r with
      | none => rfl
      | some v =>
          obtain ⟨own, hown, -⟩ := h.le hp hq hlook'
          cases hlook.symm.trans hown
  | some v =>
      obtain ⟨w, hw, hle⟩ := h.le hq hp hlook
      obtain ⟨v', hv', hle'⟩ := h.le hp hq hw
      cases hlook.symm.trans hv'
      rw [hw, le_antisymm hle hle']

/-- All entries that a node has for a range are its own offset. -/
theorem Quiescent.entry_eq (h : Quiescent nodes s) (hr : Reachable sha256 nodes params s)
    (hp : p ∈ nodes) (hv : (peersAt (s.app p).offsets r).lookup q = some v) :
    (s.app p).selfOffsets.lookup r = some v := by
  rw [peersAt_lookup] at hv
  have hq : q ∈ nodes := (hr.safe.views hv).1
  rwa [h.views p hp q hq, ← h.agree hp hq] at hv

/-- Every node has an entry for a range that one of them has. -/
theorem Quiescent.nodes_subset_keys (h : Quiescent nodes s) (hp : p ∈ nodes)
    (hv : (s.app p).selfOffsets.lookup r = some v) :
    nodes ⊆ (peersAt (s.app p).offsets r).keys := by
  intro q hq
  rw [mem_peersAt_keys, h.views p hp q hq, ← h.agree hp hq, hv]
  rfl

/-- A recalculation gives each range the offset that all nodes have. -/
theorem Quiescent.recalculated (h : Quiescent nodes s) (hr : Reachable sha256 nodes params s)
    (hn : (params.consensusNodes : Nat) ≤ nodes.card) (hp : p ∈ nodes) {after : HashMap Nat Nat}
    (hafter : Recalculated params.consensusNodes (s.app p).offsets (s.app p).consensusOffset
      after) : after = (s.app p).selfOffsets := by
  refine Finmap.ext_lookup fun r => ?_
  cases hlook : (s.app p).selfOffsets.lookup r with
  | none =>
      have hkeys : (peersAt (s.app p).offsets r).keys = ∅ := by
        refine Finset.eq_empty_of_forall_notMem fun q hq => ?_
        obtain ⟨w, hw⟩ := HashMap.mem_iff_lookup.mp (Finmap.mem_keys.mp hq)
        cases hlook.symm.trans (h.entry_eq hr hp hw)
      have hlt : (peersAt (s.app p).offsets r).keys.card < params.consensusNodes := by
        rw [hkeys, Finset.card_empty]
        exact params.consensusNodes.pos
      rw [hafter.kept hlt]
      -- an offset left from before would have a quorum of entries behind it
      cases hold : (s.app p).consensusOffset.lookup r with
      | none => rfl
      | some v =>
          have hbacked := (hr.safe.valid p).backed r v hold
          rw [(hr.peerId_eq p).2] at hbacked
          omega
  | some v =>
      have hcard := hn.trans (Finset.card_le_card (h.nodes_subset_keys hp hlook))
      have hconst : IsQuorumMax (peersAt (s.app p).offsets r) params.consensusNodes v := by
        refine .of_const params.consensusNodes.pos hcard fun q w hw => ?_
        exact Option.some.inj ((h.entry_eq hr hp hw).symm.trans hlook)
      obtain ⟨max, hmax, hquorum⟩ := hafter.quorum hcard
      rw [hmax, hquorum.unique hconst]

/-- In a quiescent state all nodes agree, and after a recalculation at each of
them so do their consensus offsets. -/
theorem quiescent_agreement (hr : Reachable sha256 nodes params s)
    (hn : (params.consensusNodes : Nat) ≤ nodes.card) (h : Quiescent nodes s) :
    (∀ p ∈ nodes, ∀ q ∈ nodes, (s.app p).selfOffsets = (s.app q).selfOffsets) ∧
      ∀ p ∈ nodes, ∀ order, EnumeratesNested order (s.app p).offsets →
        ∃ a, (s.app p).recalculateConsensusOffsets order = .ok a ∧
          ∀ q ∈ nodes, a.consensusOffset = (s.app q).selfOffsets := by
  refine ⟨fun p hp q hq => h.agree hp hq, fun p hp order horder => ?_⟩
  obtain ⟨after, hafter⟩ :=
    recalculate_total (n := (s.app p).params.consensusNodes) horder (s.app p).consensusOffset
  have hrec := recalculate_ok horder hafter
  rw [(hr.peerId_eq p).2] at hrec
  have heq := h.recalculated hr hn hp hrec
  refine ⟨{ s.app p with consensusOffset := after }, ?_, fun q hq => ?_⟩
  · rw [App.recalculateConsensusOffsets, hafter]
    rfl
  · rw [← h.agree hp hq]
    exact heq

/-- In the end of the run of two nodes both have the first id and know it. -/
theorem settled_app : ∀ p ∈ ({0, 1} : Finset Nat), (settled.app p).offsets = agreedOffsets ∧
    (settled.app p).selfOffsets = firstOffsets ∧
    (settled.app p).transactions = (∅ : HashMap Nat Transaction).insert 0 firstTx := by
  intro p hp
  rcases Finset.mem_insert.mp hp with rfl | hp
  · exact ⟨rfl, rfl, rfl⟩
  · cases Finset.mem_singleton.mp hp
    exact ⟨rfl, rfl, rfl⟩

theorem settled_quiescent : Quiescent {0, 1} settled where
  views := by
    intro p hp q hq r
    rw [(settled_app p hp).1, (settled_app q hq).2.1]
    by_cases hr : r = 0
    · subst hr
      rcases Finset.mem_insert.mp hq with rfl | hq
      · rfl
      · cases Finset.mem_singleton.mp hq
        rfl
    · rw [peerOffset, agreedOffsets, firstOffsets, Finmap.lookup_insert_of_ne _ hr,
        Finmap.lookup_insert_of_ne _ hr]
      rfl
  delays := by
    intro p hp
    obtain ⟨hoffsets, hself, htxs⟩ := settled_app p hp
    rw [hoffsets, hself, htxs]
    exact ⟨_, 1, agreedOffsets_order, rfl⟩

theorem quiescent_agreement_settled :
    ∃ a, (settled.app 0).recalculateConsensusOffsets [(0, [(0, 0), (1, 0)])] = .ok a ∧
      a.consensusOffset = firstOffsets := by
  obtain ⟨-, hconsensus⟩ := quiescent_agreement
    (settled_reachable fun _ => Vector.replicate 32 0) (by decide) settled_quiescent
  obtain ⟨a, hok, heq⟩ := hconsensus 0 (by decide) _ agreedOffsets_order
  exact ⟨a, hok, heq 1 (by decide)⟩

end System

end Maroon
