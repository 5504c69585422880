import Maroon.App.Answer
import Maroon.App.Commit
import Maroon.App.Delays
import Maroon.System.Network

/-!
# Safety of the system

Every offset that is recorded, advertised or in flight is a lower bound on what
its owner holds.  `Safe` says so for the tables of the nodes and for the `State`
packets.  From it follow the two things that the nodes build on these offsets:
a request that was sent can be answered by its addressee (`requests_answered`),
and a consensus offset, or an id of a commited interval, is held by a quorum
together with all ids before it (`quorum_safety`).
-/

namespace Maroon

open Lib Outcome

/-! ## What a step sends -/

namespace App

variable {PeerId : Type} [LinearOrder PeerId] {sha256 : Sha256} {a a' : App PeerId LogLineriazer}
  {event : Event PeerId} {out : List (Outbox PeerId)}

/-- The messages that a step to `a` sends. -/
inductive Sends (a : App PeerId LogLineriazer) : Event PeerId → Outbox PeerId → Prop where
  | state : Sends a .advertiseTick (.state { offsets := a.selfOffsets })
  | request {order : List (Nat × List (PeerId × Nat))} {fuel : Nat}
      {delays : HashMap PeerId (List U64BlobIdClosedInterval)} {peerId : PeerId}
      {intervals : List U64BlobIdClosedInterval} :
      EnumeratesNested order a.offsets →
      selfDelays fuel a.transactions a.selfOffsets order = .ok delays →
      delays.lookup peerId = some intervals →
      Sends a .advertiseTick (.requestMissingTxs peerId intervals)
  | answer {peerId : PeerId} {intervals : List U64BlobIdClosedInterval}
      {txs : List Transaction} :
      a.StoredUnder txs (intervals.flatMap U64BlobIdClosedInterval.ids) →
      Sends a (.inbox (.requestMissingTxs peerId intervals)) (.requestedTxsForPeer peerId txs)

theorem Step.sends (h : Step sha256 a event a' out) (hkeyed : Keyed a.transactions)
    {msg : Outbox PeerId} (hmsg : msg ∈ out) : Sends a' event msg := by
  cases h with
  | advertise _ _ horder hdelays hsends =>
      rcases List.mem_cons.mp hmsg with rfl | hin
      · exact .state
      · obtain ⟨⟨peerId, intervals⟩, hsend, rfl⟩ := List.mem_map.mp hin
        exact .request horder hdelays (hsends.mem_iff.mp hsend)
  | requestMissingTxs hanswer =>
      obtain ⟨hheld, rfl⟩ := handleRequestMissingTxs_ok hanswer
      rw [List.mem_singleton.mp hmsg]
      refine .answer (.of_held hkeyed fun id hid => ?_)
      obtain ⟨i, hi, hin⟩ := List.mem_flatMap.mp hid
      exact hheld i hi id hin
  | _ => cases hmsg

end App

namespace System

variable {PeerId : Type} [LinearOrder PeerId]

/-! ## The invariant -/

/-- A node holds a range from its offset 0 to `o`. -/
def Holds (s : System PeerId) (p : PeerId) (r o : Nat) : Prop :=
  Held (heldIds (s.app p).transactions) (idOf r 0) o

/-- Some `n` nodes hold a range up to `o`. -/
def QuorumHolds (s : System PeerId) (nodes : Finset PeerId) (n r o : Nat) : Prop :=
  ∃ quorum ⊆ nodes, n ≤ quorum.card ∧ ∀ p ∈ quorum, s.Holds p r o

/-- A node has all that the intervals ask for, and they ask for nothing twice. -/
structure CanAnswer (s : System PeerId) (p : PeerId)
    (intervals : List U64BlobIdClosedInterval) : Prop where
  le : ∀ i ∈ intervals, i.left ≤ i.right
  accepted : ∀ i ∈ intervals, Accepted i.right
  held : ∀ i ∈ intervals, ∀ id ∈ i.ids, id ∈ (s.app p).transactions
  nodup : (intervals.flatMap U64BlobIdClosedInterval.ids).Nodup

/-- What the nodes have recorded, sent and agreed on is backed by what they
hold. -/
structure Safe (nodes : Finset PeerId) (n : Nat) (s : System PeerId) : Prop where
  valid : ∀ p, (s.app p).Valid
  /-- An entry for a peer is no more than what the peer holds. -/
  views : ∀ {p r q v}, peerOffset (s.app p).offsets r q = some v → q ∈ nodes ∧ s.Holds q r v
  /-- So is an offset in a `State` packet. -/
  states : ∀ {p state}, ⟨p, .state state⟩ ∈ s.sent → p ∈ nodes ∧
    ∀ r o, state.offsets.lookup r = some o → Advertisable r o ∧ s.Holds p r o
  requests : ∀ {p q intervals}, ⟨p, .requestMissingTxs q intervals⟩ ∈ s.sent →
    s.CanAnswer q intervals
  consensus : ∀ {p r o}, (s.app p).consensusOffset.lookup r = some o → s.QuorumHolds nodes n r o
  commited : ∀ {p i}, i ∈ (s.app p).epochs.flatMap Epoch.increments →
    ∃ r o, i.InRange r ∧ i.right = idOf r o ∧ o < singleBlobSize ∧ s.QuorumHolds nodes n r o

variable {sha256 : Sha256} {nodes : Finset PeerId} {params : Params} {s s' : System PeerId}
  {node : PeerId} {event : Event PeerId} {out : List (Outbox PeerId)} {n : Nat}

theorem Holds.step {p : PeerId} {r o : Nat} (h : s.Holds p r o)
    (hstep : Step sha256 nodes s node event out s') : s'.Holds p r o :=
  h.mono (hstep.heldIds_subset p)

theorem QuorumHolds.step {r o : Nat} (h : s.QuorumHolds nodes n r o)
    (hstep : Step sha256 nodes s node event out s') : s'.QuorumHolds nodes n r o := by
  obtain ⟨quorum, hsub, hcard, hholds⟩ := h
  exact ⟨quorum, hsub, hcard, fun p hp => (hholds p hp).step hstep⟩

theorem CanAnswer.step {p : PeerId} {intervals : List U64BlobIdClosedInterval}
    (h : s.CanAnswer p intervals) (hstep : Step sha256 nodes s node event out s') :
    s'.CanAnswer p intervals :=
  { h with held := fun i hi id hid => hstep.heldIds_subset p (h.held i hi id hid) }

/-- What the network delivers can be advertised. -/
theorem Safe.offsetsAdvertisable (h : Safe nodes n s) (hdel : Deliverable s.sent node event) :
    event.OffsetsAdvertisable := by
  cases hdel with
  | state hin _ => exact fun r o ho => ((h.states hin).2 r o ho).1
  | _ => trivial

theorem Safe.step_valid (h : Safe nodes n s) (hstep : Step sha256 nodes s node event out s')
    (p : PeerId) : (s'.app p).Valid := by
  rcases hstep.app_cases p with ⟨-, hown⟩ | ⟨-, heq⟩
  · exact hown.valid (h.valid p) (h.offsetsAdvertisable hstep.deliverable)
  · exact heq ▸ h.valid p

/-- A node that has an offset holds the range up to it. -/
theorem holds_selfOffsets {p : PeerId} (hv : (s.app p).Valid) {r o : Nat}
    (ho : (s.app p).selfOffsets.lookup r = some o) : s.Holds p r o :=
  hv.store.held ho

theorem Safe.step_views (h : Safe nodes n s) (hr : Reachable sha256 nodes params s)
    (hstep : Step sha256 nodes s node event out s') {p q : PeerId} {r v : Nat}
    (hv : peerOffset (s'.app p).offsets r q = some v) : q ∈ nodes ∧ s'.Holds q r v := by
  have hold : peerOffset (s.app p).offsets r q = some v → q ∈ nodes ∧ s'.Holds q r v :=
    fun hv => ⟨(h.views hv).1, (h.views hv).2.step hstep⟩
  rcases hstep.app_cases p with ⟨rfl, hown⟩ | ⟨-, heq⟩
  · rcases hown.peerOffset_cases hv with hv | ⟨rfl, hself⟩ | ⟨state, rfl, hstate⟩
    · exact hold hv
    · rw [(hr.peerId_eq p).1]
      exact ⟨hstep.mem_nodes, holds_selfOffsets (h.step_valid hstep p) hself⟩
    · cases hstep.deliverable with
      | state hin _ =>
          obtain ⟨hnode, hstates⟩ := h.states hin
          exact ⟨hnode, (hstates r v hstate).2.step hstep⟩
  · exact hold (heq ▸ hv)

theorem Safe.step_states (h : Safe nodes n s) (hstep : Step sha256 nodes s node event out s')
    {p : PeerId} {state : NodeState} (hin : ⟨p, .state state⟩ ∈ s'.sent) : p ∈ nodes ∧
      ∀ r o, state.offsets.lookup r = some o → Advertisable r o ∧ s'.Holds p r o := by
  rcases hstep.mem_sent.mp hin with hold | ⟨hp, hnew⟩
  · obtain ⟨hnode, hstates⟩ := h.states hold
    exact ⟨hnode, fun r o ho => ⟨(hstates r o ho).1, (hstates r o ho).2.step hstep⟩⟩
  · simp only at hp hnew
    subst hp
    cases hstep.app_self.sends (h.valid _).store.keyed hnew with
    | state =>
        have hv := h.step_valid hstep p
        exact ⟨hstep.mem_nodes, fun r o ho => ⟨hv.store.advertisable ho, holds_selfOffsets hv ho⟩⟩

theorem Safe.step_requests (h : Safe nodes n s) (hr : Reachable sha256 nodes params s)
    (hstep : Step sha256 nodes s node event out s') {p q : PeerId}
    {intervals : List U64BlobIdClosedInterval}
    (hin : ⟨p, .requestMissingTxs q intervals⟩ ∈ s'.sent) : s'.CanAnswer q intervals := by
  rcases hstep.mem_sent.mp hin with hold | ⟨hp, hnew⟩
  · exact (h.requests hold).step hstep
  · simp only at hp hnew
    subst hp
    cases hstep.app_self.sends (h.valid _).store.keyed hnew with
    | request horder hdelays hlook =>
        have hv := h.step_valid hstep p
        have hreq := selfDelays_sound horder hdelays (fun hp => (hv.recorded hp).lt) hlook
        refine ⟨fun i hi => ?_, fun i hi => ?_, fun i hi id hid => ?_, hreq.nodup⟩
        · obtain ⟨r, border, -, -, hle, -, -⟩ := hreq.leads i hi
          exact hle
        · obtain ⟨r, border, hleads, -, -, hright, -⟩ := hreq.leads i hi
          exact (hv.recorded hleads.entry).accepted.of_le hright
        · obtain ⟨r, border, hleads, hleft, -, hright, -⟩ := hreq.leads i hi
          obtain ⟨hlow, hhigh⟩ := U64BlobIdClosedInterval.mem_ids.mp hid
          -- the entry that made the node ask is a lower bound on what the peer holds
          have hholds := (h.step_views hr hstep hleads.entry).2 (id - idOf r 0)
            (by simp only [idOf] at *; omega)
          rwa [Nat.add_sub_cancel' (hleft.trans hlow)] at hholds

theorem Safe.step_consensus (h : Safe nodes n s) (hr : Reachable sha256 nodes params s)
    (hn : n = params.consensusNodes) (hstep : Step sha256 nodes s node event out s')
    {p : PeerId} {r o : Nat} (ho : (s'.app p).consensusOffset.lookup r = some o) :
    s'.QuorumHolds nodes n r o := by
  rcases hstep.app_cases p with ⟨rfl, hown⟩ | ⟨-, heq⟩
  · by_cases htick : event = .advertiseTick
    · subst htick
      have hmax := hown.isQuorumMax (h.valid p).backed ho
      rw [(hr.peerId_eq p).2] at hmax
      refine ⟨reach (peersAt (s.app p).offsets r) o, ?_, hn ▸ hmax.reached, fun q hq => ?_⟩
      · intro q hq
        obtain ⟨w, hw, -⟩ := mem_reach.mp hq
        exact (h.views ((peersAt_lookup _ _ _).symm.trans hw)).1
      · obtain ⟨w, hw, hle⟩ := mem_reach.mp hq
        have hholds := (h.views ((peersAt_lookup _ _ _).symm.trans hw)).2
        exact Holds.step (Held.of_le hholds hle) hstep
    · rw [hown.consensusOffset_eq htick] at ho
      exact (h.consensus ho).step hstep
  · exact (h.consensus (heq ▸ ho)).step hstep

theorem Safe.step_commited (h : Safe nodes n s) (hstep : Step sha256 nodes s node event out s')
    {p : PeerId} {i : U64BlobIdClosedInterval}
    (hi : i ∈ (s'.app p).epochs.flatMap Epoch.increments) :
    ∃ r o, i.InRange r ∧ i.right = idOf r o ∧ o < singleBlobSize ∧
      s'.QuorumHolds nodes n r o := by
  have hold : i ∈ (s.app p).epochs.flatMap Epoch.increments → ∃ r o, i.InRange r ∧
      i.right = idOf r o ∧ o < singleBlobSize ∧ s'.QuorumHolds nodes n r o := by
    intro hi
    obtain ⟨r, o, hin, hright, hlt, hquorum⟩ := h.commited hi
    exact ⟨r, o, hin, hright, hlt, hquorum.step hstep⟩
  rcases hstep.app_cases p with ⟨rfl, hown⟩ | ⟨-, heq⟩
  · by_cases htick : event = .commitTick
    · subst htick
      obtain ⟨order, increments, horder, hcommit⟩ := hown.commit_tick
      rw [hcommit.frame, List.flatMap_append, List.flatMap_singleton] at hi
      rcases List.mem_append.mp hi with hi | hi
      · exact hold hi
      · rw [Epoch.new_increments] at hi
        obtain ⟨-, rfl⟩ := calculateEpochIncrements_ok.mp hcommit.calculated
        obtain ⟨⟨r, o⟩, hentry, hinc⟩ := List.mem_filterMap.mp hi
        have ho := horder.mem_iff.mp hentry
        have hadv := (h.valid p).consensus ho
        obtain ⟨-, hright⟩ := incrementOf_eq_some.mp hinc
        exact ⟨r, o, incrementOf_inRange hinc hadv, by rw [hright], hadv.lt,
          (h.consensus ho).step hstep⟩
    · rw [(hown.commited_eq htick).2.1] at hi
      exact hold hi
  · exact hold (heq ▸ hi)

theorem Safe.step (h : Safe nodes n s) (hr : Reachable sha256 nodes params s)
    (hn : n = params.consensusNodes) (hstep : Step sha256 nodes s node event out s') :
    Safe nodes n s' where
  valid := h.step_valid hstep
  views := h.step_views hr hstep
  states := h.step_states hstep
  requests := h.step_requests hr hstep
  consensus := h.step_consensus hr hn hstep
  commited := h.step_commited hstep

theorem Safe.new : Safe nodes n (System.new params) where
  valid _ := App.Valid.new
  views hv := by simp [System.new, App.new, peerOffset] at hv
  states hin := absurd hin (Set.notMem_empty _)
  requests hin := absurd hin (Set.notMem_empty _)
  consensus ho := by simp [System.new, App.new] at ho
  commited hi := by simp [System.new, App.new] at hi

theorem Reachable.safe (h : Reachable sha256 nodes params s) :
    Safe nodes params.consensusNodes s :=
  (Steps.invariant
    (fun t => Reachable sha256 nodes params t ∧ Safe nodes params.consensusNodes t)
    (fun ih hstep => ⟨ih.1.step hstep, ih.2.step ih.1 rfl hstep⟩) h
    ⟨Relation.ReflTransGen.refl, Safe.new⟩).2

/-! ## Quorum safety -/

/-- Where a node has a consensus offset, or has commited an id, a quorum of nodes
holds the range up to there. -/
theorem quorum_safety (h : Reachable sha256 nodes params s) {p : PeerId} {r o : Nat}
    (ho : (s.app p).consensusOffset.lookup r = some o ∨
      o < singleBlobSize ∧ ∃ epoch ∈ (s.app p).epochs, ∃ i ∈ epoch.increments,
        idOf r o ∈ i.ids) :
    ∃ quorum ⊆ nodes, (params.consensusNodes : Nat) ≤ quorum.card ∧
      ∀ q ∈ quorum, ∀ k ≤ o, idOf r k ∈ (s.app q).transactions := by
  have hquorum : s.QuorumHolds nodes params.consensusNodes r o := by
    rcases ho with ho | ⟨hlt, epoch, hepoch, i, hi, hid⟩
    · exact h.safe.consensus ho
    · obtain ⟨r', o', hin, hright, hlt', quorum, hsub, hcard, hholds⟩ :=
        h.safe.commited (List.mem_flatMap.mpr ⟨epoch, hepoch, hi⟩)
      obtain rfl : r = r' := (idOf_div hlt).symm.trans (hin.div_eq hid)
      have hle : o ≤ o' := by
        have hend := (U64BlobIdClosedInterval.mem_ids.mp hid).2
        rw [hright] at hend
        simp only [idOf] at hend
        omega
      exact ⟨quorum, hsub, hcard, fun q hq => (hholds q hq).of_le hle⟩
  obtain ⟨quorum, hsub, hcard, hholds⟩ := hquorum
  refine ⟨quorum, hsub, hcard, fun q hq k hk => ?_⟩
  have hheld := hholds q hq k hk
  rwa [idOf_zero_add] at hheld

/-! ## Requests that are answered -/

/-- A node that is asked for transactions holds all of them, and it answers with
one transaction for each id. -/
theorem requests_answered (h : Reachable sha256 nodes params s) {p q : PeerId}
    {intervals : List U64BlobIdClosedInterval}
    (hsent : ⟨p, .requestMissingTxs q intervals⟩ ∈ s.sent) :
    (∀ i ∈ intervals, ∀ id ∈ i.ids, id ∈ (s.app q).transactions) ∧
      ∃ txs, (∀ fuel, scanFuel < fuel → (s.app q).handleRequestMissingTxs fuel p intervals =
          .ok (.requestedTxsForPeer p txs)) ∧
        txs.map Transaction.id = intervals.flatMap U64BlobIdClosedInterval.ids ∧
        (txs.map Transaction.id).Nodup := by
  have hanswer := h.safe.requests hsent
  have hlt : ∀ i ∈ intervals, i.right + 1 < u64Bound := fun i hi => (hanswer.accepted i hi).lt
  have hheld : ∀ id ∈ intervals.flatMap U64BlobIdClosedInterval.ids,
      id ∈ (s.app q).transactions := by
    intro id hid
    obtain ⟨i, hi, hin⟩ := List.mem_flatMap.mp hid
    exact hanswer.held i hi id hin
  have hstored := App.StoredUnder.of_held (h.safe.valid q).store.keyed hheld
  refine ⟨hanswer.held, _, fun fuel hfuel => ?_, hstored.1, by rw [hstored.1]; exact hanswer.nodup⟩
  refine App.handleRequestMissingTxs_total p hanswer.le hlt
    (LogLineriazer.ids_length_lt hanswer.nodup hlt) hanswer.held fun i hi => ?_
  have hright := accepted_iff.mp (hanswer.accepted i hi)
  rw [scanFuel] at hfuel
  omega

/-! ## A run of two nodes

Node 1 receives a transaction and advertises it, and node 0 asks for it, gets it
and confirms it. -/

def firstTx : Transaction := ⟨0, .created⟩

def firstOffsets : HashMap Nat Nat := (∅ : HashMap Nat Nat).insert 0 0

def holderOffsets : HashMap Nat (HashMap Nat Nat) :=
  (∅ : HashMap Nat (HashMap Nat Nat)).insert 0 ((∅ : HashMap Nat Nat).insert 1 0)

def agreedOffsets : HashMap Nat (HashMap Nat Nat) :=
  (∅ : HashMap Nat (HashMap Nat Nat)).insert 0 (((∅ : HashMap Nat Nat).insert 1 0).insert 0 0)

/-- Node 1 once it has the transaction. -/
def holder : App Nat LogLineriazer :=
  { App.new 1 Params.default with
    selfOffsets := firstOffsets
    transactions := (∅ : HashMap Nat Transaction).insert 0 firstTx
    offsets := holderOffsets }

/-- Node 0 once it has heard of it. -/
def asker : App Nat LogLineriazer :=
  { App.new 0 Params.default with offsets := holderOffsets }

/-- Node 0 once it has got it. -/
def repaired : App Nat LogLineriazer :=
  { App.new 0 Params.default with
    selfOffsets := firstOffsets
    transactions := (∅ : HashMap Nat Transaction).insert 0 firstTx
    offsets := agreedOffsets }

theorem holderOffsets_order : EnumeratesNested [(0, [(1, 0)])] holderOffsets :=
  .insert .empty (by simp [Finmap.notMem_empty]) (.singleton 1 0)

theorem agreedOffsets_order : EnumeratesNested [(0, [(0, 0), (1, 0)])] agreedOffsets :=
  .insert .empty (by simp [Finmap.notMem_empty])
    ((Enumerates.singleton 1 0).insert (by simp [Finmap.notMem_empty]) 0)

section Run

variable (sha256 : Sha256)

theorem holder_receives :
    App.Step sha256 (App.new 1 Params.default) (.inbox (.newTransaction firstTx)) holder [] :=
  @App.Step.newTransaction _ _ _ _ _ _ _ _ _ [(0, [firstTx])] 1 rfl (.singleton 0 _) rfl

theorem holder_advertises :
    App.Step sha256 holder .advertiseTick holder [.state { offsets := firstOffsets }] :=
  @App.Step.advertise _ _ _ _ _ _ _ _ _ ∅ [] 1 holderOffsets_order rfl holderOffsets_order rfl
    .empty

theorem asker_hears : App.Step sha256 (App.new 0 Params.default)
    (.inbox (.state 1 { offsets := firstOffsets })) asker [] :=
  @App.Step.state _ _ _ _ _ _ _ _ [(0, 0)] (.singleton 0 0)

theorem asker_asks : App.Step sha256 asker .advertiseTick asker
    [.state { offsets := ∅ }, .requestMissingTxs 1 [⟨0, 0⟩]] :=
  @App.Step.advertise _ _ _ _ _ _ _ _ _ _ [(1, [⟨0, 0⟩])] 2 holderOffsets_order rfl
    holderOffsets_order rfl (.singleton 1 _)

theorem holder_answers : App.Step sha256 holder (.inbox (.requestMissingTxs 0 [⟨0, 0⟩])) holder
    [.requestedTxsForPeer 0 [firstTx]] :=
  @App.Step.requestMissingTxs _ _ _ _ _ _ _ _ _ 2 rfl

theorem asker_repairs : App.Step sha256 asker (.inbox (.missingTx [firstTx])) repaired [] :=
  @App.Step.missingTx _ _ _ _ _ _ _ _ _ [(0, [firstTx])] 1 rfl (.singleton 0 _) rfl

theorem repaired_confirms : App.Step sha256 repaired .advertiseTick
    { repaired with consensusOffset := firstOffsets } [.state { offsets := firstOffsets }] :=
  @App.Step.advertise _ _ _ _ _ _ _ _ _ ∅ [] 1 agreedOffsets_order rfl agreedOffsets_order rfl
    .empty

theorem holder_hears : App.Step sha256 holder (.inbox (.state 0 { offsets := firstOffsets }))
    { holder with offsets := agreedOffsets } [] :=
  @App.Step.state _ _ _ _ _ _ _ _ [(0, 0)] (.singleton 0 0)

def advertised : System Nat :=
  (((System.new Params.default).after 1 holder []).after 1 holder
    [.state { offsets := firstOffsets }]).after 0 asker []

def requested : System Nat :=
  advertised.after 0 asker [.state { offsets := ∅ }, .requestMissingTxs 1 [⟨0, 0⟩]]

def answered : System Nat :=
  requested.after 1 holder [.requestedTxsForPeer 0 [firstTx]]

def received : System Nat :=
  answered.after 0 repaired []

def confirmed : System Nat :=
  received.after 0 { repaired with consensusOffset := firstOffsets }
    [.state { offsets := firstOffsets }]

def settled : System Nat :=
  confirmed.after 1 { holder with offsets := agreedOffsets } []

theorem advertised_reachable : Reachable sha256 {0, 1} Params.default advertised := by
  have h0 : Reachable sha256 {0, 1} Params.default (System.new Params.default : System Nat) :=
    .refl
  have h1 := h0.step (.of_app 1 (by decide) .newTransaction rfl (holder_receives sha256))
  have h2 := h1.step (.of_app 1 (by decide) .advertiseTick rfl (holder_advertises sha256))
  exact h2.step (.of_app 0 (by decide) (.state (Or.inr ⟨rfl, by simp⟩) (by decide)) rfl
    (asker_hears sha256))

theorem request_step : Step sha256 {0, 1} advertised 0 .advertiseTick
    [.state { offsets := ∅ }, .requestMissingTxs 1 [⟨0, 0⟩]] requested :=
  .of_app 0 (by decide) .advertiseTick rfl (asker_asks sha256)

theorem answer_step : Step sha256 {0, 1} requested 1 (.inbox (.requestMissingTxs 0 [⟨0, 0⟩]))
    [.requestedTxsForPeer 0 [firstTx]] answered :=
  .of_app 1 (by decide) (.requestMissingTxs (Or.inr ⟨rfl, by simp⟩)) rfl (holder_answers sha256)

theorem receive_step :
    Step sha256 {0, 1} answered 0 (.inbox (.missingTx [firstTx])) [] received :=
  .of_app 0 (by decide) (@Deliverable.missingTx _ _ _ 1 _ (Or.inr ⟨rfl, by simp⟩)) rfl
    (asker_repairs sha256)

theorem requested_reachable : Reachable sha256 {0, 1} Params.default requested :=
  (advertised_reachable sha256).step (request_step sha256)

theorem confirmed_reachable : Reachable sha256 {0, 1} Params.default confirmed := by
  have h := ((requested_reachable sha256).step (answer_step sha256)).step (receive_step sha256)
  exact h.step (.of_app 0 (by decide) .advertiseTick rfl (repaired_confirms sha256))

theorem settled_reachable : Reachable sha256 {0, 1} Params.default settled :=
  (confirmed_reachable sha256).step (.of_app 1 (by decide)
    (.state (Or.inr ⟨rfl, by simp⟩) (by decide)) rfl (holder_hears sha256))

end Run

theorem quorum_safety_confirmed : ∃ quorum ⊆ ({0, 1} : Finset Nat), 2 ≤ quorum.card ∧
    ∀ q ∈ quorum, ∀ k ≤ 0, idOf 0 k ∈ (confirmed.app q).transactions :=
  quorum_safety (confirmed_reachable fun _ => Vector.replicate 32 0) (p := 0) (Or.inl rfl)

theorem requests_answered_requested : ∃ txs, txs.map Transaction.id = [0] ∧
    ∀ fuel, scanFuel < fuel → (requested.app 1).handleRequestMissingTxs fuel 0 [⟨0, 0⟩] =
      .ok (.requestedTxsForPeer 0 txs) := by
  have hsent : (⟨0, .requestMissingTxs 1 [⟨0, 0⟩]⟩ : Packet Nat) ∈ requested.sent :=
    Or.inr ⟨rfl, by simp⟩
  obtain ⟨-, txs, hout, hids, -⟩ :=
    requests_answered (requested_reachable fun _ => Vector.replicate 32 0) hsent
  exact ⟨txs, hids, hout⟩

end System

end Maroon
