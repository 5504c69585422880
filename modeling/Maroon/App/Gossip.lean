import Maroon.App.Consensus

/-!
# The views that gossip leaves

A node records of a peer what the peer's last `State` message said
(`Runs.peerOffset_eq`).  Messages are not compared with what they replace.  So
the view of a peer that is heard in the order in which it spoke is its greatest
offset (`views_follow_reports`), and the view of a peer whose older message comes
last is the older one (`late_message_lowers_view`).
-/

namespace Maroon

open Lib Outcome

/-- The last number of an ascending list is its greatest. -/
theorem getLast?_isGreatest {l : List ℕ} (h : l.Pairwise (· ≤ ·)) {v : ℕ} :
    l.getLast? = some v ↔ IsGreatest {x | x ∈ l} v := by
  have hlast : ∀ {w}, l.getLast? = some w → IsGreatest {x | x ∈ l} w := by
    intro w hw
    obtain ⟨front, rfl⟩ := List.getLast?_eq_some_iff.mp hw
    refine ⟨List.mem_append_right _ (List.mem_singleton.mpr rfl), fun x hx => ?_⟩
    cases List.mem_append.mp hx with
    | inl hfront =>
        exact (List.pairwise_append.mp h).2.2 x hfront w (List.mem_singleton.mpr rfl)
    | inr hlast => exact (List.mem_singleton.mp hlast).le
  constructor
  · exact hlast
  · intro hv
    cases hw : l.getLast? with
    | none =>
        rw [List.getLast?_eq_none_iff.mp hw] at hv
        exact absurd hv.1 (by simp)
    | some w => rw [(hlast hw).unique hv]

/-! ## Messages of a peer -/

section Messages

variable {PeerId : Type} [DecidableEq PeerId]

/-- The `State` message of a peer that an event delivers. -/
def Event.stateOf? (peerId : PeerId) : Event PeerId → Option NodeState
  | .inbox (.state p state) => if p = peerId then some state else none
  | _ => none

/-- The `State` messages of a peer that were delivered, oldest first. -/
def delivered (events : List (Event PeerId)) (peerId : PeerId) : List NodeState :=
  events.filterMap (Event.stateOf? peerId)

/-- The offsets of a range that these messages reported. -/
def reports (events : List (Event PeerId)) (peerId : PeerId) (range : Nat) : List Nat :=
  (delivered events peerId).filterMap fun state => state.offsets.lookup range

/-- No offset of a state is below that of the other. -/
def NodeState.Le (s s' : NodeState) : Prop :=
  ∀ r o, s.offsets.lookup r = some o → ∃ o', s'.offsets.lookup r = some o' ∧ o ≤ o'

/-- The messages of a peer are delivered in the order of their offsets. -/
def InOrder (events : List (Event PeerId)) (peerId : PeerId) : Prop :=
  (delivered events peerId).Pairwise NodeState.Le

theorem delivered_append (events events' : List (Event PeerId)) (peerId : PeerId) :
    delivered (events ++ events') peerId = delivered events peerId ++ delivered events' peerId :=
  List.filterMap_append

theorem reports_append (events : List (Event PeerId)) (event : Event PeerId) (peerId : PeerId)
    (range : Nat) : reports (events ++ [event]) peerId range = reports events peerId range ++
      ((event.stateOf? peerId).bind fun state => state.offsets.lookup range).toList := by
  rw [reports, delivered_append, List.filterMap_append, ← reports]
  congr 1
  cases hstate : event.stateOf? peerId with
  | none => simp [delivered, hstate]
  | some state =>
      cases hlook : state.offsets.lookup range with
      | none => simp [delivered, hstate, hlook]
      | some v => simp [delivered, hstate, hlook]

theorem InOrder.reports {events : List (Event PeerId)} {peerId : PeerId}
    (h : InOrder events peerId) (range : Nat) :
    (reports events peerId range).Pairwise (· ≤ ·) := by
  refine List.pairwise_filterMap.mpr (h.imp fun {s s'} hle o ho o' ho' => ?_)
  obtain ⟨v, hv, hov⟩ := hle range o ho
  cases hv.symm.trans ho'
  exact hov

theorem mem_reports {events : List (Event PeerId)} {peerId : PeerId} {range v : Nat} :
    v ∈ reports events peerId range ↔
      ∃ state ∈ delivered events peerId, state.offsets.lookup range = some v :=
  List.mem_filterMap

end Messages

/-! ## Views -/

namespace App

variable {PeerId : Type} [LinearOrder PeerId] {sha256 : Sha256} {peerId p : PeerId}
  {params : Params} {events : List (Event PeerId)} {out : List (Outbox PeerId)}

/-- A step writes to the entries of another peer what a message of that peer
says. -/
theorem Step.peerOffset_eq {L : Type} [Linearizer L] {a a' : App PeerId L}
    {event : Event PeerId} (h : Step sha256 a event a' out) (hne : p ≠ a.peerId) (r : Nat) :
    peerOffset a'.offsets r p =
      ((event.stateOf? p).bind fun state => state.offsets.lookup r).or
        (peerOffset a.offsets r p) := by
  cases h with
  | advertise _ hrec =>
      obtain ⟨consensusOffset, -, rfl⟩ := recalculateConsensusOffsets_ok hrec
      rfl
  | commit _ hcommit =>
      obtain ⟨increments, hcommit⟩ := commitEpochIfNeeded_ok hcommit
      rw [hcommit.frame]
      rfl
  | request => rfl
  | @state q state order horder =>
      rw [handleState_offsets, Event.stateOf?]
      split
      next heq =>
        subst heq
        exact peerOffset_recordAll_enumerates horder a.offsets q r
      next hq => exact peerOffset_recordAll_ne (Ne.symm hq)
  | nodes _ hnodes =>
      rw [handleNodes_ok hnodes]
      rfl
  | newTransaction hmap horder hstep =>
      obtain ⟨after, -, rfl⟩ := handleNewTransaction_ok (.of_rangeMap hmap horder) hstep
      exact peerOffset_recordAll_ne hne
  | missingTx hmap horder hstep =>
      obtain ⟨after, -, rfl⟩ := handleMissingTx_ok hstep
      exact peerOffset_recordAll_ne hne
  | requestMissingTxs => rfl

/-- The view of another peer is what the peer reported last. -/
theorem Runs.peerOffset_eq {a : App PeerId LogLineriazer}
    (h : Runs sha256 (App.new peerId params) events a) (hne : p ≠ peerId) (r : Nat) :
    a.peerId = peerId ∧ peerOffset a.offsets r p = (reports events p r).getLast? := by
  induction h with
  | refl => exact ⟨rfl, rfl⟩
  | tail hr hs ih =>
      obtain ⟨hid, hview⟩ := ih
      refine ⟨hs.peerId_eq.trans hid, ?_⟩
      rw [hs.peerOffset_eq (hid ▸ hne), hview, reports_append, List.getLast?_append]
      congr 1
      cases (Event.stateOf? p _).bind fun state => state.offsets.lookup r with
      | none => rfl
      | some v => rfl

/-- Recalculations over larger views give larger offsets. -/
theorem Step.consensus_le {a b a' b' : App PeerId LogLineriazer} {out' : List (Outbox PeerId)}
    (ha : Step sha256 a .advertiseTick a' out) (hb : Step sha256 b .advertiseTick b' out')
    (hbacked : a.Backed) (hparams : b.params = a.params)
    (hviews : ∀ r q v, peerOffset a.offsets r q = some v →
      ∃ v', peerOffset b.offsets r q = some v' ∧ v ≤ v') {r o : Nat}
    (ho : a'.consensusOffset.lookup r = some o) :
    ∃ o', b'.consensusOffset.lookup r = some o' ∧ o ≤ o' := by
  have hmax := ha.isQuorumMax hbacked ho
  have hkeys : (peersAt a.offsets r).keys ⊆ (peersAt b.offsets r).keys := by
    intro q hq
    obtain ⟨v, hv⟩ := Option.isSome_iff_exists.mp (mem_peersAt_keys.mp hq)
    obtain ⟨v', hv', -⟩ := hviews r q v hv
    exact mem_peersAt_keys.mpr (Option.isSome_iff_exists.mpr ⟨v', hv'⟩)
  have hcard : (b.params.consensusNodes : Nat) ≤ (peersAt b.offsets r).keys.card := by
    rw [hparams]
    exact hmax.reached.trans (Finset.card_le_card ((Finset.filter_subset _ _).trans hkeys))
  obtain ⟨o', ho', hmax'⟩ := hb.recalculated.1.quorum hcard
  refine ⟨o', ho', hmax.mono hmax' (le_of_eq (by rw [hparams])) fun q v hv => ?_⟩
  rw [peersAt_lookup] at hv
  obtain ⟨v', hv', hle⟩ := hviews r q v hv
  exact ⟨v', by rwa [peersAt_lookup], hle⟩

/-- A message delivered in order lowers no view. -/
theorem Runs.views_le {a b : App PeerId LogLineriazer} {state : NodeState}
    (h : Runs sha256 (App.new peerId params) events a) (hne : p ≠ peerId)
    (horder : InOrder (events ++ [.inbox (.state p state)]) p)
    (hstep : Step sha256 a (.inbox (.state p state)) b out) {r v : Nat} {q : PeerId}
    (hv : peerOffset a.offsets r q = some v) :
    ∃ v', peerOffset b.offsets r q = some v' ∧ v ≤ v' := by
  cases hstep with
  | @state _ _ order hstate =>
      rw [handleState_offsets]
      by_cases hq : q = p
      · subst hq
        rw [peerOffset_recordAll_enumerates hstate]
        cases hlook : state.offsets.lookup r with
        | none => exact ⟨v, hv, le_rfl⟩
        | some v' =>
            refine ⟨v', rfl, ?_⟩
            rw [(h.peerOffset_eq hne r).2] at hv
            have hsorted := horder.reports r
            rw [reports_append] at hsorted
            have hnew : v' ∈ ((Event.stateOf? q (.inbox (.state q state))).bind
                fun state => state.offsets.lookup r).toList := by
              simp [Event.stateOf?, hlook]
            exact (List.pairwise_append.mp hsorted).2.2 v (List.mem_of_getLast? hv) v' hnew
      · exact ⟨v, by rwa [peerOffset_recordAll_ne hq], le_rfl⟩

/-- The view of a peer is what it reported last.  Where its messages arrive in
order this is the greatest offset that arrived, the views do not depend on how
the messages were interleaved with anything else, and one more of them lowers no
consensus offset. -/
theorem views_follow_reports {a : App PeerId LogLineriazer}
    (h : Runs sha256 (App.new peerId params) events a) (hne : p ≠ peerId) :
    (∀ r, peerOffset a.offsets r p = (reports events p r).getLast?) ∧
      (InOrder events p → ∀ r v, peerOffset a.offsets r p = some v ↔
        IsGreatest {x | x ∈ reports events p r} v) ∧
      (∀ (peerId' : PeerId) (params' : Params) (events' : List (Event PeerId))
        (a' : App PeerId LogLineriazer), Runs sha256 (App.new peerId' params') events' a' →
        p ≠ peerId' → InOrder events p → InOrder events' p →
        (∀ state, state ∈ delivered events p ↔ state ∈ delivered events' p) →
        ∀ r, peerOffset a.offsets r p = peerOffset a'.offsets r p) ∧
      ∀ state b out, InOrder (events ++ [.inbox (.state p state)]) p →
        Step sha256 a (.inbox (.state p state)) b out →
        ∀ a' b' out' out'', Step sha256 a .advertiseTick a' out' →
          Step sha256 b .advertiseTick b' out'' →
          ∀ r o, a'.consensusOffset.lookup r = some o →
            ∃ o', b'.consensusOffset.lookup r = some o' ∧ o ≤ o' := by
  have hview : ∀ r, peerOffset a.offsets r p = (reports events p r).getLast? :=
    fun r => (h.peerOffset_eq hne r).2
  refine ⟨hview, fun horder r v => ?_, ?_, ?_⟩
  · rw [hview]
    exact getLast?_isGreatest (horder.reports r)
  · intro peerId' params' events' a' h' hne' horder horder' hsame r
    rw [hview, (h'.peerOffset_eq hne' r).2]
    have hset : {x | x ∈ reports events p r} = {x | x ∈ reports events' p r} := by
      ext v
      simp only [Set.mem_ofPred_eq, mem_reports, hsame]
    refine Option.ext fun v => ?_
    rw [getLast?_isGreatest (horder.reports r), getLast?_isGreatest (horder'.reports r), hset]
  · intro state b out horder hstep a' b' out' out'' ha hb r o ho
    exact ha.consensus_le hb h.backed hstep.params_eq
      (fun r q v hv => h.views_le hne horder hstep hv) ho

theorem heardState_le {o o' : Nat} (h : o ≤ o') : (heardState o).Le (heardState o') := by
  intro r v hv
  rcases HashMap.lookup_insert_some.mp hv with ⟨rfl, rfl⟩ | ⟨-, hv⟩
  · exact ⟨o', rfl, h⟩
  · simp at hv

/-! Peer 1 reports offset 1 and then offset 5, and peer 2 reports between the two
or before them. -/

def risingEvents : List (Event Nat) :=
  [.inbox (.state 1 (heardState 1)), .inbox (.state 2 (heardState 3)),
    .inbox (.state 1 (heardState 5))]

theorem rising_runs (sha256 : Sha256) : ∃ a : App Nat LogLineriazer,
    Runs sha256 (App.new 0 Params.default) risingEvents a ∧
      peerOffset a.offsets 0 1 = some 5 :=
  ⟨_, ((Runs.single (heard_step sha256 _ 1 1)).tail (heard_step sha256 _ 2 3)).tail
    (heard_step sha256 _ 1 5), rfl⟩

/-- The same messages, those of peer 2 first. -/
theorem rising_runs_apart (sha256 : Sha256) : ∃ a : App Nat LogLineriazer,
    Runs sha256 (App.new 0 Params.default) [.inbox (.state 2 (heardState 3)),
      .inbox (.state 1 (heardState 1)), .inbox (.state 1 (heardState 5))] a :=
  ⟨_, ((Runs.single (heard_step sha256 _ 2 3)).tail (heard_step sha256 _ 1 1)).tail
    (heard_step sha256 _ 1 5)⟩

theorem views_follow_reports_heard : ∃ a a' : App Nat LogLineriazer,
    peerOffset a.offsets 0 1 = (reports risingEvents 1 0).getLast? ∧
      IsGreatest {x | x ∈ reports risingEvents 1 0} 5 ∧
      peerOffset a.offsets 0 1 = peerOffset a'.offsets 0 1 := by
  obtain ⟨a, hrun, hlook⟩ := rising_runs fun _ => Vector.replicate 32 0
  obtain ⟨a', hrun'⟩ := rising_runs_apart fun _ => Vector.replicate 32 0
  obtain ⟨hview, hgreatest, hsame, -⟩ := views_follow_reports (p := 1) hrun (by decide)
  have horder : InOrder risingEvents 1 := List.pairwise_pair.mpr (heardState_le (by decide))
  exact ⟨a, a', hview 0, (hgreatest horder 0 5).mp hlook,
    hsame 0 Params.default _ a' hrun' (by decide) horder horder (fun _ => Iff.rfl) 0⟩

/-! Peer 1 advertises offset 0 and then offset 1, and the messages arrive the
other way round. -/

def lateEvents : List (Event Nat) :=
  [.inbox (.state 1 (heardState 1)), .inbox (.state 1 (heardState 0))]

theorem late_runs (sha256 : Sha256) : ∃ a : App Nat LogLineriazer,
    Runs sha256 (App.new 0 Params.default) lateEvents a ∧ peerOffset a.offsets 0 1 = some 0 :=
  ⟨_, (Runs.single (heard_step sha256 _ 1 1)).tail (heard_step sha256 _ 1 0), rfl⟩

/-- A peer's older message that arrives last lowers the view of it. -/
theorem late_message_lowers_view : ¬ ∀ (sha256 : Sha256) (peerId : Nat) (params : Params)
    (sent : Nat → List NodeState) (events : List (Event Nat)) (a : App Nat LogLineriazer),
      (∀ p, (sent p).Pairwise NodeState.Le) →
      (∀ p, ∀ state ∈ delivered events p, state ∈ sent p) →
      Runs sha256 (App.new peerId params) events a → ∀ p ≠ peerId, ∀ r v,
        peerOffset a.offsets r p = some v → IsGreatest {x | x ∈ reports events p r} v := by
  intro h
  obtain ⟨a, hrun, hlook⟩ := late_runs fun _ => Vector.replicate 32 0
  have hsent : ∀ p, ∀ state ∈ delivered lateEvents p, state ∈ [heardState 0, heardState 1] := by
    intro p state hstate
    obtain ⟨event, hevent, hof⟩ := List.mem_filterMap.mp hstate
    simp only [lateEvents, List.mem_cons, List.not_mem_nil, or_false] at hevent
    rcases hevent with rfl | rfl
    · simp only [Event.stateOf?, Option.ite_none_right_eq_some, Option.some.injEq] at hof
      simp [← hof.2]
    · simp only [Event.stateOf?, Option.ite_none_right_eq_some, Option.some.injEq] at hof
      simp [← hof.2]
  have hrises : [heardState 0, heardState 1].Pairwise NodeState.Le :=
    List.pairwise_pair.mpr (heardState_le (Nat.zero_le 1))
  have hgreatest := h _ 0 Params.default (fun _ => [heardState 0, heardState 1]) lateEvents a
    (fun _ => hrises) hsent hrun 1 (by decide) 0 0 hlook
  have hone : 1 ∈ reports lateEvents 1 0 := List.mem_cons_self
  exact absurd (hgreatest.2 hone) (by decide)

end App

end Maroon
