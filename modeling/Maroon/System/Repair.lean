import Maroon.System.Safety

/-!
# One round of repair

A node that is behind asks a leading peer for what it lacks, the peer answers,
and the answer is handled.  Whatever happens in between, the node has then
caught up with the offset that made it ask, in every range it asked that peer
for (`repair_catches_up`).
-/

namespace Maroon

open Lib Outcome

/-- A range is held up to the border once all that was asked for is stored: an
id up to there was stored before, or it was asked for. -/
theorem Covers.held {transactions transactions' : HashMap Nat Transaction}
    {selfOffsets : HashMap Nat Nat} {r border : Nat}
    {intervals : List U64BlobIdClosedInterval}
    (h : Covers transactions selfOffsets r border intervals)
    (hstore : StoreSound transactions selfOffsets)
    (hsub : heldIds transactions ⊆ heldIds transactions')
    (hasked : ∀ id ∈ intervals.flatMap U64BlobIdClosedInterval.ids, id ∈ heldIds transactions') :
    Held (heldIds transactions') (idOf r 0) border := by
  intro k hk
  rw [idOf_zero_add]
  by_cases hstored : idOf r k ∈ transactions
  · exact hsub hstored
  · have hnext : nextOffset selfOffsets r ≤ k := by
      by_contra hlt
      exact hstored (hstore.mem_of_lt_nextOffset (by omega))
    obtain ⟨i, hi, hid⟩ := h k hnext hk hstored
    exact hasked _ (List.mem_flatMap.mpr ⟨i, hi, hid⟩)

namespace System

variable {PeerId : Type} [LinearOrder PeerId] {sha256 : Sha256} {nodes : Finset PeerId}
  {params : Params} {s s' s₀ s₁ s₂ s₃ s₄ s₅ s₆ : System PeerId} {p q : PeerId}
  {out out' out'' : List (Outbox PeerId)} {intervals : List U64BlobIdClosedInterval}
  {txs : List Transaction}

/-- While a node has completed no range, its offsets are exact. -/
theorem Reachable.storeExact (h : Reachable sha256 nodes params s)
    (hlast : NoLast (heldIds (s.app p).transactions)) :
    StoreExact (s.app p).transactions (s.app p).selfOffsets := by
  obtain ⟨events, hruns, -⟩ := h.runs p
  exact hruns.storeExact (hruns.heldIds_eq ▸ hlast)

/-- A tick asks for what the node misses before the tick, which changes neither
what the node stores nor what it has recorded. -/
theorem Step.tick_requests (h : Step sha256 nodes s p .advertiseTick out s') :
    ∃ order fuel delays, EnumeratesNested order (s.app p).offsets ∧
      selfDelays fuel (s.app p).transactions (s.app p).selfOffsets order = .ok delays ∧
      ∀ q intervals, .requestMissingTxs q intervals ∈ out ↔
        delays.lookup q = some intervals := by
  obtain ⟨order, fuel, delays, horder, hdelays, hsends⟩ := h.app_self.requests
  obtain ⟨-, hframe⟩ := h.app_self.recalculated
  rw [hframe] at horder hdelays
  exact ⟨order, fuel, delays, horder, hdelays, hsends⟩

/-- What is known of a request that a tick sent. -/
theorem Step.isRequest (h : Step sha256 nodes s p .advertiseTick out s')
    (hr : Reachable sha256 nodes params s) (hsent : .requestMissingTxs q intervals ∈ out) :
    IsRequest (s.app p).transactions (s.app p).selfOffsets (s.app p).offsets q intervals := by
  obtain ⟨order, fuel, delays, horder, hdelays, hsends⟩ := h.tick_requests
  exact selfDelays_sound horder hdelays (fun hv => ((hr.safe.valid p).recorded hv).lt)
    ((hsends q intervals).mp hsent)

/-- A tick asks a leading peer for something of every range in which a peer is
ahead. -/
theorem Step.requests_behind (h : Step sha256 nodes s p .advertiseTick out s')
    (hr : Reachable sha256 nodes params s) (hlast : NoLast (heldIds (s.app p).transactions))
    {r v : Nat} (hv : peerOffset (s.app p).offsets r q = some v)
    (hbehind : nextOffset (s.app p).selfOffsets r ≤ v) :
    ∃ leader border intervals, Leads (s.app p).offsets r leader border ∧
      .requestMissingTxs leader intervals ∈ out ∧ ∃ i ∈ intervals, i.Touches r := by
  obtain ⟨order, fuel, delays, horder, hdelays, hsends⟩ := h.tick_requests
  obtain ⟨leader, border, intervals, hleads, hlook, hcovers⟩ :=
    selfDelays_complete horder hdelays hv hbehind
  have hsent := (hsends leader intervals).mpr hlook
  have hlt := ((hr.safe.valid p).recorded hleads.entry).lt
  have hnext := hbehind.trans (hleads.greatest hv)
  -- the first offset that the node lacks is asked for
  have habsent := (hr.storeExact hlast).nextOffset_absent (hnext.trans_lt hlt)
  obtain ⟨i, hi, hid⟩ := hcovers _ le_rfl hnext habsent
  refine ⟨leader, border, intervals, hleads, hsent, i, hi, ?_⟩
  obtain ⟨hlow, hhigh⟩ := U64BlobIdClosedInterval.mem_ids.mp hid
  have hdiv : idOf r (nextOffset (s.app p).selfOffsets r) / singleBlobSize = r :=
    idOf_div (hnext.trans_lt hlt)
  exact ⟨by rw [← hdiv]; exact Nat.div_le_div_right hlow,
    by rw [← hdiv]; exact Nat.div_le_div_right hhigh⟩

/-- What a node stores once it has the answer to its request. -/
theorem Step.answered
    (hanswer : Step sha256 nodes s q (.inbox (.requestMissingTxs p intervals)) out s')
    (hkeyed : Keyed (s.app q).transactions) (htxs : .requestedTxsForPeer p txs ∈ out) :
    txs.map Transaction.id = intervals.flatMap U64BlobIdClosedInterval.ids := by
  cases hanswer.app_self.sends hkeyed htxs with
  | answer hstored => exact hstored.1

/-- A node that has handled the answer to its request has caught up with the
offsets that made it ask, and it stays so. -/
theorem repair_catches_up (h : Reachable sha256 nodes params s₀)
    (htick : Step sha256 nodes s₀ p .advertiseTick out s₁)
    (hsent : .requestMissingTxs q intervals ∈ out) (h₁ : Steps sha256 nodes s₁ s₂)
    (hanswer : Step sha256 nodes s₂ q (.inbox (.requestMissingTxs p intervals)) out' s₃)
    (htxs : .requestedTxsForPeer p txs ∈ out') (h₂ : Steps sha256 nodes s₃ s₄)
    (hreceive : Step sha256 nodes s₄ p (.inbox (.missingTx txs)) out'' s₅)
    (h₃ : Steps sha256 nodes s₅ s₆)
    (hlast : NoLast (heldIds (s₆.app p).transactions)) :
    (∀ r v peer, peerOffset (s₀.app p).offsets r peer = some v →
        (∀ own, (s₀.app p).selfOffsets.lookup r = some own → own < v) →
        ∃ leader border intervals, Leads (s₀.app p).offsets r leader border ∧
          .requestMissingTxs leader intervals ∈ out ∧ ∃ i ∈ intervals, i.Touches r) ∧
      ∀ r, (∃ i ∈ intervals, i.Touches r) → ∃ border o, Leads (s₀.app p).offsets r q border ∧
        (s₆.app p).selfOffsets.lookup r = some o ∧ border ≤ o := by
  have hr₂ := (h.step htick).steps h₁
  have hr₅ := ((hr₂.step hanswer).steps h₂).step hreceive
  have hr₆ := hr₅.steps h₃
  have hsub₄ : heldIds (s₀.app p).transactions ⊆ heldIds (s₄.app p).transactions :=
    (htick.heldIds_subset p).trans ((h₁.heldIds_subset p).trans
      ((hanswer.heldIds_subset p).trans (h₂.heldIds_subset p)))
  have hsub₅ := hsub₄.trans (hreceive.heldIds_subset p)
  have hlast₀ := hlast.mono (hsub₅.trans (h₃.heldIds_subset p))
  refine ⟨fun r v peer hv hbehind =>
    htick.requests_behind h hlast₀ hv (nextOffset_le_iff.mpr hbehind), ?_⟩
  rintro r ⟨i, hi, htouches⟩
  have hreq := htick.isRequest h hsent
  obtain ⟨r', border, hleads, hleft, hle, hright, hcovers⟩ := hreq.leads i hi
  have hadv := (h.safe.valid p).recorded hleads.entry
  obtain rfl : r' = r := (U64BlobIdClosedInterval.touches_iff_of_bounds hadv.lt hleft hle hright
    r).mp htouches
  have hheld : Held (heldIds (s₅.app p).transactions) (idOf r' 0) border := by
    refine hcovers.held (h.safe.valid p).store hsub₅ fun id hid => ?_
    rw [← hanswer.answered (hr₂.safe.valid q).store.keyed htxs] at hid
    obtain ⟨tx, htx, heq⟩ := List.mem_map.mp hid
    exact hreceive.app_self.mem_transactions.mpr (Or.inr ⟨tx, htx, heq⟩)
  have hheld₆ := hheld.mono (h₃.heldIds_subset p)
  obtain ⟨o, ho⟩ := IsPrefixEnd.exists_of_mem singleBlobSize_pos hheld₆.base_mem
  exact ⟨border, o, hleads, ((hr₆.storeExact hlast) r' o).mpr ho, ho.le_of_held hheld₆ hadv.lt⟩

/-! ## A repair of two ranges

Node 1 gets the ids 0, 1 and 2 of range 0 and the id 0 of range 1, and node 0 gets
the id 1 of range 0 only. -/

def created (id : Nat) : Transaction := ⟨id, .created⟩

/-- What node 1 has of the two ranges. -/
def twoOffsets : HashMap Nat Nat :=
  ((∅ : HashMap Nat Nat).insert 0 2).insert 1 0

/-- What both nodes know of node 1. -/
def twoRanges : HashMap Nat (HashMap Nat Nat) :=
  ((∅ : HashMap Nat (HashMap Nat Nat)).insert 0 ((∅ : HashMap Nat Nat).insert 1 2) :
    HashMap Nat (HashMap Nat Nat)).insert 1 ((∅ : HashMap Nat Nat).insert 1 0)

def provider : App Nat LogLineriazer :=
  { App.new 1 Params.default with
    selfOffsets := twoOffsets
    transactions := ((((∅ : HashMap Nat Transaction).insert 0 (created 0)).insert 1
      (created 1)).insert 2 (created 2)).insert singleBlobSize (created singleBlobSize)
    offsets := twoRanges }

/-- Node 0 with a gap, once it has heard of node 1. -/
def gapped : App Nat LogLineriazer :=
  { App.new 0 Params.default with
    transactions := (∅ : HashMap Nat Transaction).insert 1 (created 1)
    offsets := twoRanges }

/-- What node 0 lacks. -/
def gaps : List U64BlobIdClosedInterval :=
  [⟨singleBlobSize, singleBlobSize⟩, ⟨0, 0⟩, ⟨2, 2⟩]

/-- Node 0 once it has the answer. -/
def filled : App Nat LogLineriazer :=
  { App.new 0 Params.default with
    selfOffsets := ((∅ : HashMap Nat Nat).insert 1 0).insert 0 2
    transactions := ((((∅ : HashMap Nat Transaction).insert 1 (created 1)).insert singleBlobSize
      (created singleBlobSize)).insert 0 (created 0)).insert 2 (created 2)
    offsets := (((∅ : HashMap Nat (HashMap Nat Nat)).insert 1
      (((∅ : HashMap Nat Nat).insert 1 0).insert 0 0) : HashMap Nat (HashMap Nat Nat)).insert 0
        (((∅ : HashMap Nat Nat).insert 1 2).insert 0 2)) }

theorem twoRanges_order : EnumeratesNested [(1, [(1, 0)]), (0, [(1, 2)])] twoRanges :=
  .insert (.insert .empty Finmap.notMem_empty (.singleton 1 2)) (by decide) (.singleton 1 0)

section Run

variable (sha256 : Sha256)

theorem provider_steps : ∃ a b c : App Nat LogLineriazer,
    App.Step sha256 (App.new 1 Params.default) (.inbox (.newTransaction (created 0))) a [] ∧
    App.Step sha256 a (.inbox (.newTransaction (created 1))) b [] ∧
    App.Step sha256 b (.inbox (.newTransaction (created 2))) c [] ∧
    App.Step sha256 c (.inbox (.newTransaction (created singleBlobSize))) provider [] :=
  ⟨_, _, _,
    @App.Step.newTransaction _ _ _ _ _ _ _ _ _ [(0, [created 0])] 3 rfl (.singleton 0 _) rfl,
    @App.Step.newTransaction _ _ _ _ _ _ _ _ _ [(0, [created 1])] 3 rfl (.singleton 0 _) rfl,
    @App.Step.newTransaction _ _ _ _ _ _ _ _ _ [(0, [created 2])] 3 rfl (.singleton 0 _) rfl,
    @App.Step.newTransaction _ _ _ _ _ _ _ _ _ [(1, [created singleBlobSize])] 3 rfl
      (.singleton 1 _) rfl⟩

theorem provider_advertises :
    App.Step sha256 provider .advertiseTick provider [.state { offsets := twoOffsets }] :=
  @App.Step.advertise _ _ _ _ _ _ _ _ _ ∅ [] 5 twoRanges_order rfl twoRanges_order rfl .empty

theorem gapped_hears : ∃ a : App Nat LogLineriazer,
    App.Step sha256 (App.new 0 Params.default) (.inbox (.newTransaction (created 1))) a [] ∧
    App.Step sha256 a (.inbox (.state 1 { offsets := twoOffsets })) gapped [] :=
  ⟨_, @App.Step.newTransaction _ _ _ _ _ _ _ _ _ [(0, [created 1])] 3 rfl (.singleton 0 _) rfl,
    @App.Step.state _ _ _ _ _ _ _ _ [(0, 2), (1, 0)]
      (((Enumerates.singleton 0 2).insert (by decide) 0).of_perm (List.Perm.swap _ _ _))⟩

theorem gapped_asks : App.Step sha256 gapped .advertiseTick gapped
    [.state { offsets := ∅ }, .requestMissingTxs 1 gaps] :=
  @App.Step.advertise _ _ _ _ _ _ _ _ _ _ [(1, gaps)] 5 twoRanges_order rfl twoRanges_order rfl
    (.singleton 1 _)

theorem provider_answers : App.Step sha256 provider (.inbox (.requestMissingTxs 0 gaps)) provider
    [.requestedTxsForPeer 0 [created singleBlobSize, created 0, created 2]] :=
  @App.Step.requestMissingTxs _ _ _ _ _ _ _ _ _ 3 rfl

theorem gapped_repairs : App.Step sha256 gapped
    (.inbox (.missingTx [created singleBlobSize, created 0, created 2])) filled [] :=
  @App.Step.missingTx _ _ _ _ _ _ _ _ _
    [(1, [created singleBlobSize]), (0, [created 0, created 2])] 5 rfl
    (((Enumerates.singleton 1 _).insert (by decide) _).of_perm (List.Perm.swap _ _ _)) rfl

/-- The nodes come to where node 0 is behind. -/
theorem gapped_reachable : ∃ s : System Nat, Reachable sha256 {0, 1} Params.default s ∧
    s.app 0 = gapped ∧ s.app 1 = provider := by
  obtain ⟨a, b, c, ha, hb, hc, hprovider⟩ := provider_steps sha256
  obtain ⟨g, hg, hgapped⟩ := gapped_hears sha256
  have hp₀ : (0 : Nat) ∈ ({0, 1} : Finset Nat) := by decide
  have hp₁ : (1 : Nat) ∈ ({0, 1} : Finset Nat) := by decide
  have h0 : Reachable sha256 {0, 1} Params.default (System.new Params.default : System Nat) :=
    .refl
  have h1 := h0.step (.of_app 1 hp₁ .newTransaction rfl ha)
  have h2 := h1.step (.of_app 1 hp₁ .newTransaction rfl hb)
  have h3 := h2.step (.of_app 1 hp₁ .newTransaction rfl hc)
  have h4 := h3.step (.of_app 1 hp₁ .newTransaction rfl hprovider)
  have h5 := h4.step (.of_app 1 hp₁ .advertiseTick rfl (provider_advertises sha256))
  have h6 := h5.step (.of_app 0 hp₀ .newTransaction rfl hg)
  exact ⟨_, h6.step (.of_app 0 hp₀
    (.state (Or.inl (Or.inr ⟨rfl, List.mem_singleton_self _⟩)) one_ne_zero) rfl hgapped), rfl, rfl⟩

end Run

theorem filled_noLast : NoLast (heldIds filled.transactions) := by
  intro id hid
  have hcases : id = 2 ∨ id = 0 ∨ id = singleBlobSize ∨ id = 1 := by
    simpa [heldIds, filled, Finmap.notMem_empty] using hid
  rcases hcases with rfl | rfl | rfl | rfl <;> decide

/-- Both ranges are caught up with. -/
theorem repair_catches_up_gapped : (∃ o, filled.selfOffsets.lookup 0 = some o ∧ 2 ≤ o) ∧
    ∃ o, filled.selfOffsets.lookup 1 = some o := by
  have sha256 : Sha256 := fun _ => Vector.replicate 32 0
  have hp₀ : (0 : Nat) ∈ ({0, 1} : Finset Nat) := by decide
  have hp₁ : (1 : Nat) ∈ ({0, 1} : Finset Nat) := by decide
  obtain ⟨s, hs, h₀, h₁⟩ := gapped_reachable sha256
  let s₁ := s.after 0 gapped [.state { offsets := ∅ }, .requestMissingTxs 1 gaps]
  let s₂ := s₁.after 1 provider
    [.requestedTxsForPeer 0 [created singleBlobSize, created 0, created 2]]
  have htick : Step sha256 {0, 1} s 0 .advertiseTick _ s₁ :=
    .of_app 0 hp₀ .advertiseTick h₀ (gapped_asks sha256)
  have hasked : Deliverable s₁.sent 1 (.inbox (.requestMissingTxs 0 gaps)) :=
    .requestMissingTxs (Or.inr ⟨rfl, List.mem_cons_of_mem _ (List.mem_singleton_self _)⟩)
  have hanswer : Step sha256 {0, 1} s₁ 1 _ _ s₂ := .of_app 1 hp₁ hasked
    ((s.after_app_ne one_ne_zero gapped _).trans h₁) (provider_answers sha256)
  have hfound : Deliverable s₂.sent 0
      (.inbox (.missingTx [created singleBlobSize, created 0, created 2])) :=
    @Deliverable.missingTx _ _ _ 1 _ (Or.inr ⟨rfl, List.mem_singleton_self _⟩)
  have hreceive : Step sha256 {0, 1} s₂ 0 _ _ (s₂.after 0 filled []) := .of_app 0 hp₀ hfound
    ((s₁.after_app_ne zero_ne_one provider _).trans (s.after_app_self 0 gapped _))
    (gapped_repairs sha256)
  obtain ⟨-, hcaught⟩ := repair_catches_up hs htick
    (List.mem_cons_of_mem _ (List.mem_singleton_self _)) .refl hanswer
    (List.mem_singleton_self _) .refl hreceive .refl
    (by rw [after_app_self]; exact filled_noLast)
  rw [h₀, after_app_self] at hcaught
  obtain ⟨border, o, hleads, ho, hle⟩ := hcaught 0 ⟨⟨0, 0⟩, by simp [gaps], by decide⟩
  obtain ⟨-, o', -, ho', -⟩ := hcaught 1 ⟨_, List.mem_cons_self, by decide⟩
  cases hleads.entry
  exact ⟨⟨o, ho, hle⟩, o', ho'⟩

end System

end Maroon
