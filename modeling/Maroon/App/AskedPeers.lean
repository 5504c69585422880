import Maroon.App.Asking
import Maroon.App.Consensus
import Maroon.App.SelfOffsets

/-!
# Whom a node asks

A node asks the peers that lead a range, of all it ever heard of.  It is not one
of them itself: its own entries are its own offsets, so it is never ahead of
itself (`own_vote_current`).  A peer that has left can be one of them.  A node
that is behind a running peer asks a peer that leads the range
(`behind_asks_leader`), and this need not be a running one
(`departed_leader_asked`).
-/

namespace Maroon

open Lib Outcome

/-! ## The first missing id -/

section FirstMissing

variable {transactions : HashMap Nat Transaction} {selfOffsets : HashMap Nat Nat} {range : Nat}

end FirstMissing

namespace App

variable {PeerId : Type} [LinearOrder PeerId] {sha256 : Sha256} {peerId : PeerId}
  {params : Params} {events : List (Event PeerId)} {a a' : App PeerId LogLineriazer}
  {out : List (Outbox PeerId)}

/-! ## The node itself -/

/-- A node whose own entries are its offsets does not ask itself. -/
theorem Step.not_self_request (h : Step sha256 a .advertiseTick a' out) (ho : a.OwnEntries)
    (intervals : List U64BlobIdClosedInterval) :
    .requestMissingTxs a.peerId intervals ∉ out := by
  intro hin
  obtain ⟨order, fuel, delays, horder, hdelays, hout⟩ := h.requests
  obtain ⟨range, border, hleads, hbehind⟩ :=
    selfDelays_ahead horder hdelays ((hout _ _).mp hin)
  have hown : a'.OwnEntries := h.ownEntries ho fun state heq => by cases heq
  have hentry := hleads.entry
  rw [← h.peerId_eq, hown range] at hentry
  rw [nextOffset_some hentry] at hbehind
  omega

/-- As long as no `State` message comes in its own name, a node votes with its
current offsets: in a recalculation, the maximum of each range is taken over a
list that has the node once, with that offset.  And it never asks itself. -/
theorem own_vote_current (h : Runs sha256 (App.new peerId params) events a)
    (hself : ∀ state, .inbox (.state peerId state) ∉ events) :
    (∀ r, peerOffset a.offsets r peerId = a.selfOffsets.lookup r) ∧
      (∀ order, EnumeratesNested order a.offsets → ∃ consensusOffset,
        a.recalculateConsensusOffsets order = .ok { a with consensusOffset } ∧
        (∀ r nodes, (r, nodes) ∈ order →
          RoundEntry a.params.consensusNodes nodes (a.consensusOffset.lookup r)
            (consensusOffset.lookup r) ∧
          nodes.filter (fun e => e.1 = peerId) =
            ((a.selfOffsets.lookup r).map fun v => (peerId, v)).toList) ∧
        ∀ r v, a.selfOffsets.lookup r = some v → ∃ nodes, (r, nodes) ∈ order) ∧
      ∀ a' out, Step sha256 a .advertiseTick a' out →
        ∀ intervals, .requestMissingTxs peerId intervals ∉ out := by
  obtain ⟨hid, hown⟩ := h.ownEntries (new_ownEntries peerId params) hself
  have hid : a.peerId = peerId := hid
  subst hid
  refine ⟨hown, fun order horder => ?_, fun a' out hstep => hstep.not_self_request hown⟩
  obtain ⟨consensusOffset, hfold⟩ :=
    recalculate_total (n := a.params.consensusNodes) horder a.consensusOffset
  have hrec : a.recalculateConsensusOffsets order = .ok { a with consensusOffset } :=
    bind_eq_ok.mpr ⟨consensusOffset, hfold, rfl⟩
  refine ⟨consensusOffset, hrec, fun r nodes hin => ⟨?_, ?_⟩, fun r v hv => ?_⟩
  · exact (recalculate_roundEntry horder hfold r).1 nodes hin
  · obtain ⟨peers, hpeers, henum⟩ := horder.sound hin
    have hentry := hown r
    rw [peerOffset, hpeers, Option.bind_some] at hentry
    rw [henum.filter_key, hentry]
  · rw [← hown r] at hv
    obtain ⟨peers, hpeers, -⟩ := peerOffset_eq_some.mp hv
    obtain ⟨nodes, hin, -⟩ := horder.complete hpeers
    exact ⟨nodes, hin⟩

theorem own_vote_current_swapped : ∃ a : App Nat LogLineriazer,
    a.selfOffsets.lookup 0 = some 1 ∧ peerOffset a.offsets 0 0 = some 1 := by
  obtain ⟨b, c, hb, hc, hlook⟩ := swapped_steps fun _ => Vector.replicate 32 0
  have hrun : Runs _ (App.new 0 Params.default) swappedEvents c := (Runs.single hb).tail hc
  obtain ⟨hown, -⟩ := own_vote_current hrun (by simp [swappedEvents])
  exact ⟨c, hlook, (hown 0).trans hlook⟩

/-! ## Peers that lead a range -/

/-- An advertise tick comes to its end, in whatever order it goes through the
table, each of the two times. -/
def AdvertiseReturns (a : App PeerId LogLineriazer) : Prop :=
  ∀ order order', EnumeratesNested order a.offsets → EnumeratesNested order' a.offsets →
    ∃ consensusOffset n delays,
      a.recalculateConsensusOffsets order = .ok { a with consensusOffset } ∧
      ∀ fuel ≥ n, selfDelays fuel a.transactions a.selfOffsets order' = .ok delays

theorem advertiseReturns (h : AheadScannable a.selfOffsets a.offsets) : a.AdvertiseReturns := by
  intro order order' horder horder'
  obtain ⟨consensusOffset, hrec⟩ := recalculateConsensusOffsets_total horder
  obtain ⟨n, delays, hdelays⟩ := (selfDelays_returns_iff a.transactions horder').mpr h
  exact ⟨consensusOffset, n, delays, hrec, fun fuel hfuel =>
    (selfDelays_settles a.transactions a.selfOffsets order').ok_of_le hdelays hfuel⟩

theorem AdvertiseReturns.step (h : a.AdvertiseReturns) (sha256 : Sha256) :
    ∃ a' out, Step sha256 a .advertiseTick a' out := by
  obtain ⟨order, horder⟩ := EnumeratesNested.exists_entries a.offsets
  obtain ⟨consensusOffset, n, delays, hrec, hdelays⟩ := h order order horder horder
  obtain ⟨sends, hsends⟩ := Enumerates.exists_entries delays
  exact ⟨_, _, .advertise horder hrec horder (hdelays n le_rfl) hsends⟩

end App

end Maroon
