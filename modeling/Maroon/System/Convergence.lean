import Mathlib.Algebra.Order.BigOperators.Group.Finset
import Maroon.Lib.Reach
import Maroon.System.Lossy

/-!
# Nodes can always converge

From every state that the system reaches, the nodes can come to a quiescent
state by what they send to one another alone (`can_converge`).  Two rounds are
repeated: every node tells every other where it is (`Lossy.tell`), and a node
that is behind fetches what it lacks (`Lossy.fetch`).  The second one lowers the
number of transactions that are missing somewhere.  All of it is sent anew, so it
does not matter what has been lost before.

What the nodes agree on in the end is known from the beginning: the offset of a
range is the end of the contiguous prefix of what all of them hold together.
-/

namespace Maroon

open Lib Relation

variable {PeerId : Type}

/-- An event that the nodes cause, with no one from outside. -/
def Event.Internal : Event PeerId → Prop
  | .request _ | .inbox (.nodes _) | .inbox (.newTransaction _) => False
  | _ => True

/-- What an internal event brings was sent by another node. -/
theorem Event.Internal.txs_eq {event : Event PeerId} (h : event.Internal) :
    event.txs = [] ∨ ∃ txs, event = .inbox (.missingTx txs) ∧ event.txs = txs := by
  cases event with
  | inbox msg =>
      cases msg with
      | newTransaction tx => cases h
      | missingTx txs => exact Or.inr ⟨txs, rfl, rfl⟩
      | _ => exact Or.inl rfl
  | _ => exact Or.inl rfl

namespace System

section Stores

/-- All nodes store the same as before. -/
def SameStores (s s' : System PeerId) : Prop :=
  ∀ p, (s'.app p).selfOffsets = (s.app p).selfOffsets ∧
    (s'.app p).transactions = (s.app p).transactions

theorem SameStores.trans {s₁ s₂ s₃ : System PeerId} (h : SameStores s₁ s₂)
    (h' : SameStores s₂ s₃) : SameStores s₁ s₃ :=
  fun p => ⟨(h' p).1.trans (h p).1, (h' p).2.trans (h p).2⟩

variable {nodes : Finset PeerId} {s s' : System PeerId}

/-- The ids of all transactions that some node holds. -/
def held (nodes : Finset PeerId) (s : System PeerId) : Finset Nat :=
  nodes.biUnion fun p => (s.app p).transactions.keys

theorem mem_held {id : Nat} : id ∈ s.held nodes ↔ ∃ p ∈ nodes, id ∈ (s.app p).transactions := by
  simp [held, Finmap.mem_keys]

theorem SameStores.held_eq (h : SameStores s s') : s'.held nodes = s.held nodes := by
  ext id
  simp only [mem_held, (h _).2]

/-- No node has completed a range if together they have not. -/
theorem noLast_of_held (hlast : NoLast (s.held nodes : Set ℕ)) {p : PeerId} (hp : p ∈ nodes) :
    NoLast (heldIds (s.app p).transactions) :=
  hlast.mono fun _ hid => Finset.mem_coe.mpr (mem_held.mpr ⟨p, hp, hid⟩)

/-- What some node holds and another one does not, counted for each node. -/
def missing (nodes : Finset PeerId) (s : System PeerId) : Nat :=
  ∑ p ∈ nodes, (s.held nodes \ (s.app p).transactions.keys).card

/-- Less is missing once a node has got a transaction that it lacked. -/
theorem missing_lt (hheld : s'.held nodes = s.held nodes)
    (hsub : ∀ q, heldIds (s.app q).transactions ⊆ heldIds (s'.app q).transactions)
    {p : PeerId} (hp : p ∈ nodes) {id : Nat} (habsent : id ∉ (s.app p).transactions)
    (hin : id ∈ (s'.app p).transactions) : s'.missing nodes < s.missing nodes := by
  have hkeys : ∀ q, (s.app q).transactions.keys ⊆ (s'.app q).transactions.keys :=
    fun q id hid => Finmap.mem_keys.mpr (hsub q (Finmap.mem_keys.mp hid))
  refine Finset.sum_lt_sum (fun q _ => ?_) ⟨p, hp, ?_⟩
  · rw [hheld]
    exact Finset.card_le_card (Finset.sdiff_subset_sdiff subset_rfl (hkeys q))
  · rw [hheld]
    refine Finset.card_lt_card (Finset.ssubset_iff_of_subset
      (Finset.sdiff_subset_sdiff subset_rfl (hkeys p)) |>.mpr ⟨id, ?_, fun hid => ?_⟩)
    · refine Finset.mem_sdiff.mpr ⟨?_, fun hid => habsent (Finmap.mem_keys.mp hid)⟩
      rw [← hheld]
      exact mem_held.mpr ⟨p, hp, hin⟩
    · exact (Finset.mem_sdiff.mp hid).2 (Finmap.mem_keys.mpr hin)

end Stores

variable [LinearOrder PeerId]

/-- A step of a node with an internal event. -/
def InternalStep (sha256 : Sha256) (nodes : Finset PeerId) (s s' : System PeerId) : Prop :=
  ∃ node event out, event.Internal ∧ Step sha256 nodes s node event out s'

/-- An internal step in which a node advertises, asks or answers, or takes in what
another has sent, and commits nothing. -/
def Exchange (sha256 : Sha256) (nodes : Finset PeerId) (s s' : System PeerId) : Prop :=
  ∃ node event out, event.Internal ∧ event ≠ .commitTick ∧ Step sha256 nodes s node event out s'

/-- The node has recorded the offsets that the peer has now. -/
def Knows (s : System PeerId) (node peer : PeerId) : Prop :=
  ∀ r, peerOffset (s.app node).offsets r peer = (s.app peer).selfOffsets.lookup r

variable {sha256 : Sha256} {nodes : Finset PeerId} {params : Params} {s s' : System PeerId}
  {node : PeerId} {event : Event PeerId} {out : List (Outbox PeerId)} {p q : PeerId}

/-! ## Exchanges keep what is held -/

theorem Step.exchange (h : Step sha256 nodes s node event out s') (hinternal : event.Internal)
    (hne : event ≠ .commitTick) : Exchange sha256 nodes s s' :=
  ⟨node, event, out, hinternal, hne, h⟩

theorem Step.internal (h : Step sha256 nodes s node event out s') (hinternal : event.Internal) :
    InternalStep sha256 nodes s s' :=
  ⟨node, event, out, hinternal, h⟩

/-- Exchanges are internal steps. -/
theorem Exchange.internal (h : ReflTransGen (Exchange sha256 nodes) s s') :
    ReflTransGen (InternalStep sha256 nodes) s s' :=
  ReflTransGen.mono (fun _ _ ⟨_, _, _, hinternal, _, hstep⟩ => hstep.internal hinternal) _ _ h

theorem InternalStep.steps (h : ReflTransGen (InternalStep sha256 nodes) s s') :
    Steps sha256 nodes s s' :=
  ReflTransGen.mono (fun _ _ ⟨node, event, out, _, hstep⟩ => ⟨node, event, out, hstep⟩) _ _ h

theorem Lossy.internals (hl : Lossy sha256 nodes params s)
    (h : ReflTransGen (InternalStep sha256 nodes) s s') : Lossy sha256 nodes params s' :=
  hl.steps (InternalStep.steps h)

theorem Lossy.exchanges (hl : Lossy sha256 nodes params s)
    (h : ReflTransGen (Exchange sha256 nodes) s s') : Lossy sha256 nodes params s' :=
  hl.internals (Exchange.internal h)

theorem InternalStep.held_eq (h : InternalStep sha256 nodes s s')
    (hl : Lossy sha256 nodes params s) : s'.held nodes = s.held nodes := by
  obtain ⟨node, event, out, hinternal, hstep⟩ := h
  ext id
  rw [mem_held, mem_held]
  constructor
  · rintro ⟨p, hp, hid⟩
    rcases hstep.app_cases p with ⟨rfl, hown⟩ | ⟨-, heq⟩
    · rcases hown.mem_transactions.mp hid with hold | ⟨tx, htx, rfl⟩
      · exact ⟨p, hp, hold⟩
      · rcases hinternal.txs_eq with hnil | ⟨txs, rfl, htxs⟩
        · rw [hnil] at htx
          cases htx
        · -- what the node gets was sent by a node that holds it
          rw [htxs] at htx
          cases hstep.deliverable with
          | missingTx hin =>
              obtain ⟨hnode, hheld⟩ := hl.answersHeld _ _ _ hin
              exact ⟨_, hnode, hheld tx htx⟩
    · exact ⟨p, hp, heq ▸ hid⟩
  · rintro ⟨p, hp, hid⟩
    exact ⟨p, hp, hstep.heldIds_subset p hid⟩

theorem Lossy.held_eq (hl : Lossy sha256 nodes params s)
    (h : ReflTransGen (InternalStep sha256 nodes) s s') : s'.held nodes = s.held nodes := by
  induction h with
  | refl => rfl
  | tail hbefore hstep ih => exact (hstep.held_eq (hl.internals hbefore)).trans ih

/-! ## A node tells another where it is -/

/-- A tick sends the offsets of the node and changes what it has agreed on only. -/
theorem Step.told (h : Step sha256 nodes s p .advertiseTick out s') :
    .state { offsets := (s.app p).selfOffsets } ∈ out ∧ SameStores s s' ∧
      ∀ q, (s'.app q).offsets = (s.app q).offsets := by
  have hframe : ∀ q, ∃ consensusOffset, s'.app q = { s.app q with consensusOffset } := by
    intro q
    rcases h.app_cases q with ⟨rfl, hown⟩ | ⟨-, heq⟩
    · exact ⟨_, hown.recalculated.2⟩
    · exact ⟨(s.app q).consensusOffset, heq⟩
  refine ⟨?_, fun q => ?_, fun q => ?_⟩
  · have hself : (s'.app p).selfOffsets = (s.app p).selfOffsets := by
      obtain ⟨consensusOffset, heq⟩ := hframe p
      rw [heq]
    rw [← hself]
    cases h.app_self with
    | advertise => exact List.mem_cons_self
  · obtain ⟨consensusOffset, heq⟩ := hframe q
    rw [heq]
    exact ⟨rfl, rfl⟩
  · obtain ⟨consensusOffset, heq⟩ := hframe q
    rw [heq]

/-- A node that hears from a peer records its offsets, and nothing else
changes. -/
theorem Step.heard {state : NodeState}
    (h : Step sha256 nodes s q (.inbox (.state p state)) out s') :
    SameStores s s' ∧
      (∀ r, peerOffset (s'.app q).offsets r p =
        (state.offsets.lookup r).or (peerOffset (s.app q).offsets r p)) ∧
      ∀ q' p', q' ≠ q ∨ p' ≠ p → ∀ r,
        peerOffset (s'.app q').offsets r p' = peerOffset (s.app q').offsets r p' := by
  have hown : ∃ order, Enumerates order state.offsets ∧
      s'.app q = (s.app q).handleState p order := by
    generalize hb : s'.app q = b
    have happ := h.app_self
    rw [hb] at happ
    cases happ with
    | state horder => exact ⟨_, horder, rfl⟩
  obtain ⟨order, horder, hstate⟩ := hown
  have hoffsets : (s'.app q).offsets = recordAll (s.app q).offsets p order := by
    rw [hstate, App.handleState_offsets]
  refine ⟨fun q' => ?_, fun r => ?_, fun q' p' hne r => ?_⟩
  · by_cases hq : q' = q
    · subst hq
      rw [hstate]
      exact ⟨rfl, rfl⟩
    · rw [h.app_ne hq]
      exact ⟨rfl, rfl⟩
  · rw [hoffsets, peerOffset_recordAll_enumerates horder]
  · by_cases hq : q' = q
    · subst hq
      have hp : p' ≠ p := hne.resolve_left fun hne => hne rfl
      rw [hoffsets, peerOffset_recordAll_ne hp]
    · rw [h.app_ne hq]

/-- A node holds no range of which it has no offset. -/
theorem Lossy.holds_lookup (hl : Lossy sha256 nodes params s)
    (hlast : NoLast (heldIds (s.app p).transactions)) {r v : Nat} (h : s.Holds p r v) :
    ∃ own, (s.app p).selfOffsets.lookup r = some own := by
  obtain ⟨own, hend⟩ := IsPrefixEnd.exists_of_mem singleBlobSize_pos h.base_mem
  exact ⟨own, (hl.storeExact hlast r own).mpr hend⟩

theorem Lossy.tell (hl : Lossy sha256 nodes params s) (hp : p ∈ nodes) (hq : q ∈ nodes)
    (hlast : NoLast (s.held nodes : Set ℕ)) :
    ∃ s', ReflTransGen (Exchange sha256 nodes) s s' ∧ SameStores s s' ∧ s'.Knows q p ∧
      ∀ q' p', s.Knows q' p' → s'.Knows q' p' := by
  rcases eq_or_ne p q with rfl | hne
  · exact ⟨s, .refl, fun _ => ⟨rfl, rfl⟩, hl.ownEntries p, fun _ _ h => h⟩
  · obtain ⟨out₁, s₁, htick⟩ := hl.exists_step hp .advertiseTick trivial
    obtain ⟨hsent, hsame₁, hoffsets₁⟩ := htick.told
    have hl₁ := hl.step htick
    have hdel : Deliverable s₁.sent q (.inbox (.state p ⟨(s.app p).selfOffsets⟩)) :=
      .state (htick.mem_sent.mpr (Or.inr ⟨rfl, hsent⟩)) hne
    obtain ⟨out₂, s₂, hhear⟩ := hl₁.exists_step hq hdel trivial
    obtain ⟨hsame₂, hself, hother⟩ := hhear.heard
    have hsame := hsame₁.trans hsame₂
    have hknows : s₂.Knows q p := by
      intro r
      rw [hself r, (hsame p).1]
      cases hlook : (s.app p).selfOffsets.lookup r with
      | some v => rfl
      | none =>
          -- an entry that is left would be of a range that the peer holds
          rw [Option.none_or]
          cases hold : peerOffset (s₁.app q).offsets r p with
          | none => rfl
          | some v =>
              rw [hoffsets₁ q] at hold
              obtain ⟨own, hown⟩ := hl.holds_lookup (noLast_of_held hlast hp)
                (hl.views hold).2
              cases hlook.symm.trans hown
    refine ⟨s₂, ?_, hsame, hknows, fun q' p' h => ?_⟩
    · exact (ReflTransGen.single (htick.exchange trivial nofun)).tail (hhear.exchange trivial nofun)
    · by_cases heq : q' = q ∧ p' = p
      · obtain ⟨rfl, rfl⟩ := heq
        exact hknows
      · intro r
        rw [hother q' p' (not_and_or.mp heq) r, hoffsets₁ q', (hsame p').1]
        exact h r

/-- Every node tells every other where it is. -/
theorem Lossy.tell_all (hl : Lossy sha256 nodes params s)
    (hlast : NoLast (s.held nodes : Set ℕ)) :
    ∃ s', ReflTransGen (Exchange sha256 nodes) s s' ∧ SameStores s s' ∧
      ∀ p ∈ nodes, ∀ q ∈ nodes, s'.Knows p q := by
  let I : System PeerId → Prop := fun t => Lossy sha256 nodes params t ∧ SameStores s t
  let Goal : PeerId × PeerId → System PeerId → Prop := fun pair t => t.Knows pair.1 pair.2
  have each : ∀ pair ∈ nodes ×ˢ nodes, ∀ t, I t → ∃ t', ReflTransGen (Exchange sha256 nodes) t t' ∧
      I t' ∧ Goal pair t' ∧ ∀ pair', Goal pair' t → Goal pair' t' := by
    rintro ⟨p, q⟩ hpair t ⟨ht, hsame⟩
    obtain ⟨hp, hq⟩ := Finset.mem_product.mp hpair
    obtain ⟨t', hrun, hsame', hknows, hkept⟩ := ht.tell hq hp (hsame.held_eq ▸ hlast)
    exact ⟨t', hrun, ⟨ht.exchanges hrun, hsame.trans hsame'⟩, hknows,
      fun pair h => hkept pair.1 pair.2 h⟩
  obtain ⟨s', hrun, ⟨-, hsame⟩, hknows⟩ := reach_all each ⟨hl, fun _ => ⟨rfl, rfl⟩⟩
  exact ⟨s', hrun, hsame, fun p hp q hq => hknows (p, q) (Finset.mk_mem_product hp hq)⟩

/-! ## A node that is behind fetches what it lacks -/

/-- A node that is behind asks for the first transaction that it lacks. -/
theorem Step.asks_next (h : Step sha256 nodes s p .advertiseTick out s')
    (hl : Lossy sha256 nodes params s) (hlast : NoLast (heldIds (s.app p).transactions))
    {r v : Nat} (hv : peerOffset (s.app p).offsets r q = some v)
    (hbehind : nextOffset (s.app p).selfOffsets r ≤ v) :
    ∃ leader ∈ nodes, ∃ intervals, .requestMissingTxs leader intervals ∈ out ∧
      idOf r (nextOffset (s.app p).selfOffsets r) ∉ (s.app p).transactions ∧
      idOf r (nextOffset (s.app p).selfOffsets r) ∈
        intervals.flatMap U64BlobIdClosedInterval.ids := by
  obtain ⟨order, fuel, delays, horder, hdelays, hsends⟩ := h.tick_requests
  obtain ⟨leader, border, intervals, hleads, hlook, hcovers⟩ :=
    selfDelays_complete horder hdelays hv hbehind
  have hlt := ((hl.valid p).recorded hleads.entry).lt
  have hnext := hbehind.trans (hleads.greatest hv)
  have habsent := (hl.storeExact hlast).nextOffset_absent (hnext.trans_lt hlt)
  exact ⟨leader, (hl.views hleads.entry).1, intervals, (hsends leader intervals).mpr hlook,
    habsent, List.mem_flatMap.mpr (hcovers _ le_rfl hnext habsent)⟩

theorem Lossy.fetch (hl : Lossy sha256 nodes params s) (hp : p ∈ nodes)
    (hlast : NoLast (s.held nodes : Set ℕ)) {r v : Nat}
    (hv : peerOffset (s.app p).offsets r q = some v)
    (hbehind : nextOffset (s.app p).selfOffsets r ≤ v) :
    ∃ s', ReflTransGen (Exchange sha256 nodes) s s' ∧
      ∃ id, id ∉ (s.app p).transactions ∧ id ∈ (s'.app p).transactions := by
  obtain ⟨out₁, s₁, htick⟩ := hl.exists_step hp .advertiseTick trivial
  obtain ⟨leader, hleader, intervals, hsent, habsent, hasked⟩ :=
    htick.asks_next hl (noLast_of_held hlast hp) hv hbehind
  have hl₁ := hl.step htick
  have hdel₁ : Deliverable s₁.sent leader (.inbox (.requestMissingTxs p intervals)) :=
    .requestMissingTxs (htick.mem_sent.mpr (Or.inr ⟨rfl, hsent⟩))
  obtain ⟨out₂, s₂, hanswer⟩ := hl₁.exists_step hleader hdel₁ trivial
  have htxs : ∃ txs, .requestedTxsForPeer p txs ∈ out₂ := by
    generalize hb : s₂.app leader = b
    have happ := hanswer.app_self
    rw [hb] at happ
    cases happ with
    | requestMissingTxs hhandle =>
        obtain ⟨-, rfl⟩ := App.handleRequestMissingTxs_ok hhandle
        exact ⟨_, List.mem_singleton_self _⟩
  obtain ⟨txs, htxs⟩ := htxs
  have hids := hanswer.answered (hl₁.valid leader).store.keyed htxs
  have hl₂ := hl₁.step hanswer
  have hdel₂ : Deliverable s₂.sent p (.inbox (.missingTx txs)) :=
    @Deliverable.missingTx _ _ _ leader _ (hanswer.mem_sent.mpr (Or.inr ⟨rfl, htxs⟩))
  obtain ⟨out₃, s₃, hreceive⟩ := hl₂.exists_step hp hdel₂ trivial
  refine ⟨s₃, ?_, _, habsent, ?_⟩
  · exact ((ReflTransGen.single (htick.exchange trivial nofun)).tail
      (hanswer.exchange trivial nofun)).tail (hreceive.exchange trivial nofun)
  · rw [← hids] at hasked
    obtain ⟨tx, htx, heq⟩ := List.mem_map.mp hasked
    exact hreceive.app_self.mem_transactions.mpr (Or.inr ⟨tx, htx, heq⟩)

/-! ## Convergence -/

/-- Nodes that know where the others are, and are nowhere behind, are
quiescent. -/
theorem Lossy.quiescent (hl : Lossy sha256 nodes params s)
    (hknows : ∀ p ∈ nodes, ∀ q ∈ nodes, s.Knows p q)
    (hbehind : ∀ p ∈ nodes, ∀ r q v, peerOffset (s.app p).offsets r q = some v →
      v < nextOffset (s.app p).selfOffsets r) : Quiescent nodes s where
  views := hknows
  delays := by
    intro p hp
    have hreturns := @Lossy.returns _ _ sha256 _ _ _ p .advertiseTick hl .advertiseTick trivial
    obtain ⟨order, horder⟩ := EnumeratesNested.exists_entries (s.app p).offsets
    obtain ⟨-, fuel, delays, -, hdelays⟩ := hreturns order order horder horder
    refine ⟨order, fuel, horder, hdelays.trans (congrArg Outcome.ok ?_)⟩
    obtain ⟨asks, hasks, hlook⟩ := selfDelays_ok hdelays
    have hnil : asks = [] := by
      refine List.eq_nil_iff_forall_not_mem.mpr fun ask hask => ?_
      obtain ⟨entries, hin, hisAsk⟩ := hasks.sound ask hask
      have hlt := hbehind p hp _ _ _ (hisAsk.leads horder hin).entry
      exact absurd hisAsk.behind (not_le.mpr hlt)
    refine Finmap.ext_lookup fun q => ?_
    rw [hlook q, hnil, Finmap.lookup_empty]
    rfl

theorem Lossy.converges (hl : Lossy sha256 nodes params s)
    (hlast : NoLast (s.held nodes : Set ℕ)) :
    ∃ s', ReflTransGen (Exchange sha256 nodes) s s' ∧ Quiescent nodes s' := by
  let I : System PeerId → Prop := fun t =>
    Lossy sha256 nodes params t ∧ NoLast (t.held nodes : Set ℕ)
  have round : ∀ t, I t → ∃ t', ReflTransGen (Exchange sha256 nodes) t t' ∧ I t' ∧
      (Quiescent nodes t' ∨ t'.missing nodes < t.missing nodes) := by
    rintro t ⟨ht, hlast⟩
    obtain ⟨t₁, hrun₁, hsame₁, hknows⟩ := ht.tell_all hlast
    have hl₁ := ht.exchanges hrun₁
    have hlast₁ : NoLast (t₁.held nodes : Set ℕ) := hsame₁.held_eq ▸ hlast
    by_cases hbehind : ∀ p ∈ nodes, ∀ r q v, peerOffset (t₁.app p).offsets r q = some v →
        v < nextOffset (t₁.app p).selfOffsets r
    · exact ⟨t₁, hrun₁, ⟨hl₁, hlast₁⟩, Or.inl (hl₁.quiescent hknows hbehind)⟩
    · push Not at hbehind
      obtain ⟨p, hp, r, q, v, hv, hle⟩ := hbehind
      obtain ⟨t₂, hrun₂, id, habsent, hin⟩ := hl₁.fetch hp hlast₁ hv hle
      have hinternal := Exchange.internal hrun₂
      have hheld := hl₁.held_eq hinternal
      have hlt := missing_lt hheld (InternalStep.steps hinternal).heldIds_subset hp habsent hin
      have hmissing : t₁.missing nodes = t.missing nodes := by
        simp only [missing, hsame₁.held_eq, (hsame₁ _).2]
      exact ⟨t₂, hrun₁.trans hrun₂, ⟨hl₁.exchanges hrun₂, hheld ▸ hlast₁⟩,
        Or.inr (hmissing ▸ hlt)⟩
  obtain ⟨s', hrun, -, hquiescent⟩ := reach_of_measure (missing nodes) round ⟨hl, hlast⟩
  exact ⟨s', hrun, hquiescent⟩

/-- In a quiescent state the offset of a range is the end of the contiguous
prefix of what all nodes hold together. -/
theorem Quiescent.isPrefixEnd (h : Quiescent nodes s) (hl : Lossy sha256 nodes params s)
    (hlast : NoLast (s.held nodes : Set ℕ)) (hp : p ∈ nodes) (r o : Nat) :
    (s.app p).selfOffsets.lookup r = some o ↔
      IsPrefixEnd (s.held nodes : Set ℕ) (idOf r 0) singleBlobSize o := by
  have hsub : heldIds (s.app p).transactions ⊆ (s.held nodes : Set ℕ) :=
    fun _ hid => Finset.mem_coe.mpr (mem_held.mpr ⟨p, hp, hid⟩)
  have hexact := hl.storeExact (noLast_of_held hlast hp)
  -- the node's own prefix ends where that of all of them does
  have hend : ∀ {o}, (s.app p).selfOffsets.lookup r = some o →
      IsPrefixEnd (s.held nodes : Set ℕ) (idOf r 0) singleBlobSize o := by
    intro o ho
    have hown := (hexact r o).mp ho
    refine { hown with held := hown.held.mono hsub, gap := fun hlt hin => ?_ }
    obtain ⟨q, hq, hid⟩ := mem_held.mp (Finset.mem_coe.mp hin)
    have hoq : (s.app q).selfOffsets.lookup r = some o := h.agree hp hq ▸ ho
    exact ((hl.storeExact (noLast_of_held hlast hq) r o).mp hoq).gap hlt hid
  refine ⟨hend, fun h' => ?_⟩
  obtain ⟨q, hq, hid⟩ := mem_held.mp (Finset.mem_coe.mp h'.held.base_mem)
  obtain ⟨own, hown⟩ := IsPrefixEnd.exists_of_mem singleBlobSize_pos (mem_heldIds.mpr hid)
  have hlook : (s.app p).selfOffsets.lookup r = some own := by
    rw [h.agree hp hq]
    exact (hl.storeExact (noLast_of_held hlast hq) r own).mpr hown
  rw [hlook, (hend hlook).unique h']

/-- From every state that the system reaches, in which no range is complete, the
nodes alone can come to a quiescent state.  The offset of each range is then the
end of the contiguous prefix of all that some node held from the beginning. -/
theorem can_converge (hr : Reachable sha256 nodes params s)
    (hlast : NoLast (s.held nodes : Set ℕ)) :
    ∃ s', ReflTransGen (Exchange sha256 nodes) s s' ∧ Quiescent nodes s' ∧
      ∀ p ∈ nodes, ∀ r o, (s'.app p).selfOffsets.lookup r = some o ↔
        IsPrefixEnd (s.held nodes : Set ℕ) (idOf r 0) singleBlobSize o := by
  obtain ⟨s', hrun, hquiescent⟩ := hr.lossy.converges hlast
  have hheld := hr.lossy.held_eq (Exchange.internal hrun)
  refine ⟨s', hrun, hquiescent, fun p hp r o => ?_⟩
  rw [hquiescent.isPrefixEnd (hr.lossy.exchanges hrun) (hheld ▸ hlast) hp r o, hheld]

/-! ## Committing what was agreed on -/

/-- All that a quiescent state depends on. -/
theorem Quiescent.congr (h : Quiescent nodes s) (hsame : SameStores s s')
    (hoffsets : ∀ q, (s'.app q).offsets = (s.app q).offsets) : Quiescent nodes s' where
  views := by
    intro p hp q hq r
    rw [hoffsets, (hsame q).1]
    exact h.views p hp q hq r
  delays := by
    intro p hp
    rw [hoffsets, (hsame p).1, (hsame p).2]
    exact h.delays p hp

/-- A commit tick changes what is commited only, and takes each range up to its
consensus offset, but perhaps for that offset itself. -/
theorem Step.commits (h : Step sha256 nodes s p .commitTick out s')
    (hl : Lossy sha256 nodes params s) :
    SameStores s s' ∧ (∀ q, (s'.app q).offsets = (s.app q).offsets) ∧
      (s'.app p).consensusOffset = (s.app p).consensusOffset ∧
      ∀ r o, (s.app p).consensusOffset.lookup r = some o →
        o ≤ nextOffset (s'.app p).commitedOffsets r := by
  obtain ⟨order, increments, horder, hcommit⟩ := h.app_self.commit_tick
  refine ⟨fun q => ?_, fun q => ?_, by rw [hcommit.frame], fun r o ho => ?_⟩
  · rcases h.app_cases q with ⟨rfl, -⟩ | ⟨-, heq⟩
    · rw [hcommit.frame]
      exact ⟨rfl, rfl⟩
    · rw [heq]
      exact ⟨rfl, rfl⟩
  · rcases h.app_cases q with ⟨rfl, -⟩ | ⟨-, heq⟩
    · rw [hcommit.frame]
    · rw [heq]
  · cases hcommit.rangeCommit (hl.valid p) horder r with
    | advanced o' ho' _ hcommited _ _ =>
        cases ho.symm.trans ho'
        rw [nextOffset_some hcommited]
        exact Nat.le_succ o
    | kept hle hcommited _ _ =>
        rw [nextOffset, hcommited]
        exact hle o ho

/-- What a node has after it has agreed and commited in a quiescent state. -/
def Committed (s : System PeerId) (p : PeerId) : Prop :=
  (s.app p).consensusOffset = (s.app p).selfOffsets ∧
    ∀ r o, (s.app p).selfOffsets.lookup r = some o → o ≤ nextOffset (s.app p).commitedOffsets r

theorem Quiescent.commit (h : Quiescent nodes s) (hl : Lossy sha256 nodes params s)
    (hn : (params.consensusNodes : Nat) ≤ nodes.card) (hp : p ∈ nodes) :
    ∃ s', ReflTransGen (InternalStep sha256 nodes) s s' ∧ Quiescent nodes s' ∧ s'.Committed p ∧
      ∀ q, s.Committed q → s'.Committed q := by
  obtain ⟨out₁, s₁, htick⟩ := hl.exists_step hp .advertiseTick trivial
  obtain ⟨-, hsame₁, hoffsets₁⟩ := htick.told
  have hrec := htick.app_self.recalculated.1
  rw [hl.params_eq p] at hrec
  have hconsensus := hl.recalculated h hn hp hrec
  have hl₁ := hl.step htick
  obtain ⟨out₂, s₂, hcommit⟩ := hl₁.exists_step hp .commitTick trivial
  obtain ⟨hsame₂, hoffsets₂, hkept, htaken⟩ := hcommit.commits hl₁
  have hsame := hsame₁.trans hsame₂
  have hcommitted : s₂.Committed p := by
    constructor
    · rw [hkept, hconsensus, (hsame p).1]
    · intro r o ho
      refine htaken r o ?_
      rw [hconsensus, ← (hsame p).1]
      exact ho
  refine ⟨s₂, ?_, (h.congr hsame₁ hoffsets₁).congr hsame₂ hoffsets₂, hcommitted, ?_⟩
  · exact (ReflTransGen.single (htick.internal trivial)).tail (hcommit.internal trivial)
  · intro q hq
    by_cases hqp : q = p
    · exact hqp ▸ hcommitted
    · rw [Committed, hcommit.app_ne hqp, htick.app_ne hqp]
      exact hq

theorem Quiescent.commit_all (h : Quiescent nodes s) (hl : Lossy sha256 nodes params s)
    (hn : (params.consensusNodes : Nat) ≤ nodes.card) :
    ∃ s', ReflTransGen (InternalStep sha256 nodes) s s' ∧ Quiescent nodes s' ∧
      ∀ p ∈ nodes, s'.Committed p := by
  let I : System PeerId → Prop := fun t => Lossy sha256 nodes params t ∧ Quiescent nodes t
  have each : ∀ p ∈ nodes, ∀ t, I t → ∃ t', ReflTransGen (InternalStep sha256 nodes) t t' ∧
      I t' ∧ t'.Committed p ∧ ∀ q, t.Committed q → t'.Committed q := by
    rintro p hp t ⟨ht, hquiet⟩
    obtain ⟨t', hrun, hquiescent, hcommitted, hkept⟩ := hquiet.commit ht hn hp
    exact ⟨t', hrun, ⟨ht.internals hrun, hquiescent⟩, hcommitted, hkept⟩
  obtain ⟨s', hrun, ⟨-, hquiescent⟩, hcommitted⟩ := reach_all each ⟨hl, h⟩
  exact ⟨s', hrun, hquiescent, hcommitted⟩

/-- A node that has commited has the ids up to its offsets in its log. -/
theorem Committed.mem_log (h : s.Committed p) (hl : Lossy sha256 nodes params s) {r o k : Nat}
    (ho : (s.app p).selfOffsets.lookup r = some o) (hk : k < o) :
    idOf r k ∈ (s.app p).linearizer.sequence :=
  (hl.tiled p).mem_log (hk.trans_le (h.2 r o ho))

theorem Lossy.commits (hl : Lossy sha256 nodes params s)
    (hn : (params.consensusNodes : Nat) ≤ nodes.card) (hlast : NoLast (s.held nodes : Set ℕ)) :
    ∃ s', ReflTransGen (InternalStep sha256 nodes) s s' ∧ Quiescent nodes s' ∧
      ∀ p ∈ nodes, s'.Committed p := by
  obtain ⟨s₁, hrun₁, hquiescent₁⟩ := hl.converges hlast
  obtain ⟨s₂, hrun₂, hquiescent, hcommitted⟩ := hquiescent₁.commit_all (hl.exchanges hrun₁) hn
  exact ⟨s₂, (Exchange.internal hrun₁).trans hrun₂, hquiescent, hcommitted⟩

/-- From every state that the system reaches, in which no range is complete, the
nodes alone can come to a state in which they all agree, and in which the log of
each has the contiguous prefix of every range, but perhaps for its last id. -/
theorem can_commit (hr : Reachable sha256 nodes params s)
    (hn : (params.consensusNodes : Nat) ≤ nodes.card)
    (hlast : NoLast (s.held nodes : Set ℕ)) :
    ∃ s', ReflTransGen (InternalStep sha256 nodes) s s' ∧ Quiescent nodes s' ∧
      ∀ p ∈ nodes, (s'.app p).consensusOffset = (s'.app p).selfOffsets ∧
        ∀ r o, IsPrefixEnd (s.held nodes : Set ℕ) (idOf r 0) singleBlobSize o →
          ∀ k < o, idOf r k ∈ (s'.app p).linearizer.sequence := by
  obtain ⟨s', hrun, hquiescent, hcommitted⟩ := hr.lossy.commits hn hlast
  have hl' := hr.lossy.internals hrun
  have hheld := hr.lossy.held_eq hrun
  refine ⟨s', hrun, hquiescent, fun p hp => ⟨(hcommitted p hp).1, fun r o ho k hk => ?_⟩⟩
  rw [← hheld] at ho
  exact (hcommitted p hp).mem_log hl'
    ((hquiescent.isPrefixEnd hl' (hheld ▸ hlast) hp r o).mpr ho) hk

/-- Node 0 has asked for the transaction of node 1 and does not have it yet. -/
theorem requested_noLast : NoLast (requested.held {0, 1} : Set ℕ) := by
  intro id hid
  obtain ⟨p, hp, hin⟩ := mem_held.mp (Finset.mem_coe.mp hid)
  have hzero : id = 0 := by
    rcases Finset.mem_insert.mp hp with rfl | hp
    · exact absurd hin Finmap.notMem_empty
    · cases Finset.mem_singleton.mp hp
      have hone : id ∈ (∅ : HashMap Nat Transaction).insert 0 firstTx := hin
      simpa [Finmap.notMem_empty] using hone
  rw [hzero]
  decide

theorem can_converge_requested : ∃ s' : System Nat, Quiescent {0, 1} s' := by
  obtain ⟨s', -, hquiescent, -⟩ :=
    can_converge (requested_reachable fun _ => Vector.replicate 32 0) requested_noLast
  exact ⟨s', hquiescent⟩

theorem can_commit_requested : ∃ s' : System Nat, Quiescent {0, 1} s' ∧
    ∀ p ∈ ({0, 1} : Finset Nat), (s'.app p).consensusOffset = (s'.app p).selfOffsets := by
  obtain ⟨s', -, hquiescent, hcommitted⟩ :=
    can_commit (requested_reachable fun _ => Vector.replicate 32 0) (by decide) requested_noLast
  exact ⟨s', hquiescent, fun p hp => (hcommitted p hp).1⟩

end System

end Maroon
