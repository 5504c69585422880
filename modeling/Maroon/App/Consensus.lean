import Maroon.App.Effects

/-!
# The consensus offsets

`Recalculated` is what an advertise tick leaves for each range.  A range for
which enough peers have an entry gets the greatest offset that a quorum of them
reaches.  Every other range keeps what it had.  As no entry of the table is ever
removed, a range with a consensus offset stays one of the first kind
(`Backed`).

The quorum is counted over all peers the node has ever heard of.  The `Nodes`
messages that say which of them are running are not used, and
`counts_current_iff` says when this shows.
-/

namespace Maroon

open Lib Outcome

/-! ## One recalculation -/

section Rounds

variable {PeerId : Type} {n : ℕ+} {consensusOffset consensusOffset' : HashMap Nat Nat}
  {range : Nat} {map : List (PeerId × Nat)}

/-- What a round makes of the entry of its own range. -/
def RoundEntry (n : ℕ+) (map : List (PeerId × Nat)) (before after : Option Nat) : Prop :=
  (∃ max, consensusMaximum map n = .ok (some max) ∧ after = some max) ∨
    consensusMaximum map n = .ok none ∧ after = before

private theorem recalculateRange_self
    (h : recalculateRange n consensusOffset (range, map) = .ok consensusOffset') :
    RoundEntry n map (consensusOffset.lookup range) (consensusOffset'.lookup range) := by
  obtain ⟨result, hresult, h⟩ := bind_eq_ok.mp h
  cases result with
  | some max =>
      cases h
      exact Or.inl ⟨max, hresult, Finmap.lookup_insert _⟩
  | none =>
      cases h
      exact Or.inr ⟨hresult, rfl⟩

private theorem recalculateRange_other {range' : Nat}
    (h : recalculateRange n consensusOffset (range, map) = .ok consensusOffset')
    (hne : range' ≠ range) :
    consensusOffset'.lookup range' = consensusOffset.lookup range' := by
  obtain ⟨result, -, h⟩ := bind_eq_ok.mp h
  cases result with
  | some max =>
      cases h
      exact Finmap.lookup_insert_of_ne _ hne
  | none =>
      cases h
      rfl

end Rounds

section Recalculate

variable {PeerId : Type} [DecidableEq PeerId] {n : ℕ+}
  {offsets : HashMap Nat (HashMap PeerId Nat)}

/-- The peers with a recorded offset for a range. -/
def peersAt (offsets : HashMap Nat (HashMap PeerId Nat)) (range : Nat) : HashMap PeerId Nat :=
  (offsets.lookup range).getD ∅

/-- The maximum of a range, over any enumeration of its peers. -/
theorem consensusMaximum_cases {map : List (PeerId × Nat)} {peers : HashMap PeerId Nat}
    (h : Enumerates map peers) (n : ℕ+) :
    (peers.keys.card < n ∧ consensusMaximum map n = .ok none) ∨
      ∃ max, consensusMaximum map n = .ok (some max) ∧ IsQuorumMax peers n max := by
  have hlen := h.length_eq
  rw [consensusMaximum]
  split
  next hlt => exact Or.inl ⟨by omega, rfl⟩
  next hge =>
    have hpos := n.pos
    have hin : (n : Nat) - 1 < (descending (map.map Prod.snd)).length := by
      rw [descending_length, List.length_map]
      omega
    refine Or.inr ⟨(descending (map.map Prod.snd))[(n : Nat) - 1], ?_, ?_⟩
    · simp only [List.getElem?_eq_getElem hin]
      rfl
    · exact .of_sorted h hpos (List.getElem?_eq_getElem hin)

/-- The maximum exists exactly when `n` peers have an entry.  It is the greatest
offset that `n` peers reach, and it does not go down when entries go up, when
peers join or when `n` is lowered. -/
theorem consensus_maximum_greatest {map : List (PeerId × Nat)} {peers : HashMap PeerId Nat}
    (h : Enumerates map peers) (n : ℕ+) :
    (consensusMaximum map n = .ok none ↔ peers.keys.card < n) ∧
      ((n : Nat) ≤ peers.keys.card → ∃ max, consensusMaximum map n = .ok (some max) ∧
        IsGreatest {v | (n : Nat) ≤ (reach peers v).card} max) ∧
      ∀ (map' : List (PeerId × Nat)) (peers' : HashMap PeerId Nat) (n' : ℕ+),
        Enumerates map' peers' → n' ≤ n →
        (∀ p v, peers.lookup p = some v → ∃ v', peers'.lookup p = some v' ∧ v ≤ v') →
        ∀ max, consensusMaximum map n = .ok (some max) →
          ∃ max', consensusMaximum map' n' = .ok (some max') ∧ max ≤ max' := by
  rcases consensusMaximum_cases h n with ⟨hlt, hnone⟩ | ⟨max, hmax, hquorum⟩
  · refine ⟨⟨fun _ => hlt, fun _ => hnone⟩, fun hge => absurd hlt (not_lt.mpr hge), ?_⟩
    intro map' peers' n' h' hn hgrow max hmax
    cases hnone.symm.trans hmax
  · have hge : (n : Nat) ≤ peers.keys.card :=
      hquorum.reached.trans (Finset.card_le_card (Finset.filter_subset _ _))
    refine ⟨⟨fun hnone => ?_, fun hlt => absurd hlt (not_lt.mpr hge)⟩,
      fun _ => ⟨max, hmax, hquorum.isGreatest⟩, ?_⟩
    · cases hnone.symm.trans hmax
    · intro map' peers' n' h' hn hgrow max' hmax'
      cases hmax.symm.trans hmax'
      have hkeys : peers.keys ⊆ peers'.keys := by
        intro p hp
        obtain ⟨v, hv⟩ := HashMap.mem_iff_lookup.mp (Finmap.mem_keys.mp hp)
        obtain ⟨v', hv', -⟩ := hgrow p v hv
        exact Finmap.mem_keys.mpr (HashMap.mem_iff_lookup.mpr ⟨v', hv'⟩)
      rcases consensusMaximum_cases h' n' with ⟨hlt, -⟩ | ⟨max', hmax', hquorum'⟩
      · have hcard := Finset.card_le_card hkeys
        have hn' : (n' : Nat) ≤ n := hn
        omega
      · exact ⟨max', hmax', hquorum.mono hquorum' hn hgrow⟩

theorem consensus_maximum_pair :
    IsGreatest {v | 2 ≤ (reach (((∅ : HashMap Nat Nat).insert 1 3).insert 0 5) v).card} 3 := by
  have horder : Enumerates [(0, 5), (1, 3)] (((∅ : HashMap Nat Nat).insert 1 3).insert 0 5) :=
    (Enumerates.singleton 1 3).insert (by decide) 5
  obtain ⟨max, hmax, hgreatest⟩ := (consensus_maximum_greatest horder 2).2.1 (by decide)
  cases hmax
  exact hgreatest

/-- What a recalculation leaves for each range. -/
structure Recalculated (n : ℕ+) (offsets : HashMap Nat (HashMap PeerId Nat))
    (before after : HashMap Nat Nat) : Prop where
  quorum : ∀ {r}, (n : Nat) ≤ (peersAt offsets r).keys.card →
    ∃ v, after.lookup r = some v ∧ IsQuorumMax (peersAt offsets r) n v
  kept : ∀ {r}, (peersAt offsets r).keys.card < n → after.lookup r = before.lookup r

/-- The round of a range decides its entry. -/
theorem recalculate_roundEntry {order : List (Nat × List (PeerId × Nat))}
    {before after : HashMap Nat Nat} (horder : EnumeratesNested order offsets)
    (h : order.foldlM (recalculateRange n) before = .ok after) (r : Nat) :
    (∀ map, (r, map) ∈ order → RoundEntry n map (before.lookup r) (after.lookup r)) ∧
      (r ∉ order.map Prod.fst → after.lookup r = before.lookup r) :=
  foldlM_frame (fun (t : HashMap Nat Nat) range => t.lookup range)
    (fun _ map => RoundEntry n map) recalculateRange_self recalculateRange_other horder.nodup h r

theorem recalculate_ok {order : List (Nat × List (PeerId × Nat))} {before after : HashMap Nat Nat}
    (horder : EnumeratesNested order offsets)
    (h : order.foldlM (recalculateRange n) before = .ok after) :
    Recalculated n offsets before after := by
  have hframe := recalculate_roundEntry horder h
  constructor
  · intro r hcard
    cases hlook : offsets.lookup r with
    | none =>
        have hpos := n.pos
        rw [peersAt, hlook, Option.getD_none, Finmap.keys_empty, Finset.card_empty] at hcard
        omega
    | some peers =>
        rw [peersAt, hlook, Option.getD_some] at hcard ⊢
        obtain ⟨map, hin, hmap⟩ := horder.complete hlook
        rcases consensusMaximum_cases hmap n with ⟨hlt, -⟩ | ⟨max, hmax, hquorum⟩
        · omega
        · rcases (hframe r).1 map hin with ⟨max', hmax', hafter⟩ | ⟨hnone, -⟩
          · cases hmax.symm.trans hmax'
            exact ⟨max, hafter, hquorum⟩
          · cases hmax.symm.trans hnone
  · intro r hcard
    cases hlook : offsets.lookup r with
    | none =>
        refine (hframe r).2 fun hkey => ?_
        obtain ⟨⟨r', map⟩, hin, rfl⟩ := List.mem_map.mp hkey
        obtain ⟨peers, hpeers, -⟩ := horder.sound hin
        cases hlook.symm.trans hpeers
    | some peers =>
        rw [peersAt, hlook, Option.getD_some] at hcard
        obtain ⟨map, hin, hmap⟩ := horder.complete hlook
        rcases consensusMaximum_cases hmap n with ⟨-, hnone⟩ | ⟨max, hmax, hquorum⟩
        · rcases (hframe r).1 map hin with ⟨max', hmax', -⟩ | ⟨-, hafter⟩
          · cases hnone.symm.trans hmax'
          · exact hafter
        · have hle := hquorum.reached.trans (Finset.card_le_card (Finset.filter_subset _ _))
          omega

/-- The recalculation never panics. -/
theorem recalculate_total {order : List (Nat × List (PeerId × Nat))}
    (horder : EnumeratesNested order offsets) (before : HashMap Nat Nat) :
    ∃ after, order.foldlM (recalculateRange n) before = .ok after := by
  have hround : ∀ entry ∈ order, ∀ t : HashMap Nat Nat, True →
      ∃ t', recalculateRange n t entry = .ok t' ∧ True := by
    rintro ⟨range, map⟩ hin t -
    obtain ⟨peers, -, hmap⟩ := horder.sound hin
    rw [recalculateRange]
    rcases consensusMaximum_cases hmap n with ⟨-, hnone⟩ | ⟨max, hmax, -⟩
    · exact ⟨t, by simp only [hnone]; rfl, trivial⟩
    · exact ⟨t.insert range max, by simp only [hmax]; rfl, trivial⟩
  obtain ⟨after, hafter, -⟩ := foldlM_total (fun _ => True) hround (s := before) trivial
  exact ⟨after, hafter⟩

/-- A range with a quorum of entries ends with an offset that a quorum reaches. -/
theorem Recalculated.reached {before after : HashMap Nat Nat}
    (h : Recalculated n offsets before after) {r o : Nat}
    (hbefore : ∀ v, before.lookup r = some v → (n : Nat) ≤ (peersAt offsets r).keys.card)
    (ho : after.lookup r = some o) : IsQuorumMax (peersAt offsets r) n o := by
  have hcard : (n : Nat) ≤ (peersAt offsets r).keys.card := by
    by_contra hlt
    rw [h.kept (by omega)] at ho
    exact hlt (hbefore o ho)
  obtain ⟨v, hv, hquorum⟩ := h.quorum hcard
  cases hv.symm.trans ho
  exact hquorum

end Recalculate

/-! ## Invariants of a run -/

variable {PeerId L : Type} [LinearOrder PeerId]

theorem peersAt_lookup (offsets : HashMap Nat (HashMap PeerId Nat)) (range : Nat)
    (peerId : PeerId) :
    (peersAt offsets range).lookup peerId = peerOffset offsets range peerId := by
  cases hlook : offsets.lookup range with
  | none => simp only [peersAt, peerOffset, hlook, Option.getD_none, Finmap.lookup_empty,
      Option.bind_none]
  | some peers => simp only [peersAt, peerOffset, hlook, Option.getD_some, Option.bind_some]

theorem mem_peersAt_keys {offsets : HashMap Nat (HashMap PeerId Nat)} {range : Nat}
    {peerId : PeerId} :
    peerId ∈ (peersAt offsets range).keys ↔ (peerOffset offsets range peerId).isSome := by
  rw [Finmap.mem_keys, HashMap.mem_iff_lookup, peersAt_lookup, Option.isSome_iff_exists]

namespace App

/-- The recalculation of a tick always returns. -/
theorem recalculateConsensusOffsets_total {a : App PeerId L}
    {order : List (Nat × List (PeerId × Nat))} (horder : EnumeratesNested order a.offsets) :
    ∃ consensusOffset,
      a.recalculateConsensusOffsets order = .ok { a with consensusOffset } := by
  obtain ⟨consensusOffset, hfold⟩ :=
    recalculate_total (n := a.params.consensusNodes) horder a.consensusOffset
  exact ⟨consensusOffset, bind_eq_ok.mpr ⟨consensusOffset, hfold, rfl⟩⟩

/-- Every range with a consensus offset has a quorum of entries. -/
def Backed (a : App PeerId L) : Prop :=
  ∀ r v, a.consensusOffset.lookup r = some v →
    (a.params.consensusNodes : Nat) ≤ (peersAt a.offsets r).keys.card

/-- What the node stores and records is such that all of it can be advertised
and committed. -/
structure Valid (a : App PeerId L) : Prop where
  store : StoreSound a.transactions a.selfOffsets
  backed : a.Backed
  recorded : ∀ {r v p}, peerOffset a.offsets r p = some v → Advertisable r v
  consensus : ∀ {r v}, a.consensusOffset.lookup r = some v → Advertisable r v

variable [Linearizer L] {sha256 : Sha256} {a a' : App PeerId L} {event : Event PeerId}
  {out : List (Outbox PeerId)} {peerId : PeerId} {params : Params}

/-- What an advertise tick writes. -/
theorem Step.recalculated (h : Step sha256 a .advertiseTick a' out) :
    Recalculated a.params.consensusNodes a.offsets a.consensusOffset a'.consensusOffset ∧
      a' = { a with consensusOffset := a'.consensusOffset } := by
  cases h with
  | advertise horder hrec =>
      obtain ⟨consensusOffset, hfold, rfl⟩ := recalculateConsensusOffsets_ok hrec
      exact ⟨recalculate_ok horder hfold, rfl⟩

/-- After an advertise tick every consensus offset is the maximum of a quorum. -/
theorem Step.isQuorumMax (h : Step sha256 a .advertiseTick a' out) (hb : a.Backed) {r o : Nat}
    (ho : a'.consensusOffset.lookup r = some o) :
    IsQuorumMax (peersAt a.offsets r) a.params.consensusNodes o :=
  h.recalculated.1.reached (fun v hv => hb r v hv) ho

theorem Step.backed (h : Step sha256 a event a' out) (hb : a.Backed) : a'.Backed := by
  intro r v hv
  rw [h.params_eq]
  have hkeys : (peersAt a.offsets r).keys ⊆ (peersAt a'.offsets r).keys :=
    fun p hp => mem_peersAt_keys.mpr (h.peerOffset_isSome (mem_peersAt_keys.mp hp))
  refine le_trans ?_ (Finset.card_le_card hkeys)
  by_cases htick : event = .advertiseTick
  · subst htick
    exact (h.isQuorumMax hb hv).reached.trans (Finset.card_le_card (Finset.filter_subset _ _))
  · rw [h.consensusOffset_eq htick] at hv
    exact hb r v hv

theorem Runs.backed {a : App PeerId LogLineriazer} {events : List (Event PeerId)}
    (h : Runs sha256 (App.new peerId params) events a) : a.Backed := by
  refine h.invariant (fun _ => True) Backed (fun _ hb hs => hs.backed hb) (by simp) ?_
  intro r v hv
  simp [App.new] at hv

theorem Valid.new : (App.new peerId params).Valid where
  store := StoreSound.empty
  backed r v hv := by simp [App.new] at hv
  recorded hv := by simp [App.new, peerOffset] at hv
  consensus hv := by simp [App.new] at hv

theorem Step.valid (h : Step sha256 a event a' out) (hv : a.Valid)
    (hev : event.OffsetsAdvertisable) : a'.Valid where
  store := h.storeSound hv.store
  backed := h.backed hv.backed
  recorded := by
    intro r v p hp
    rcases h.peerOffset_cases hp with hold | ⟨-, hself⟩ | ⟨state, rfl, hstate⟩
    · exact hv.recorded hold
    · exact (h.storeSound hv.store).advertisable hself
    · exact hev r v hstate
  consensus := by
    intro r v hc
    by_cases htick : event = .advertiseTick
    · subst htick
      obtain ⟨p, hp⟩ := Finset.card_pos.mp
        (a.params.consensusNodes.pos.trans_le (h.isQuorumMax hv.backed hc).reached)
      obtain ⟨w, hw, hle⟩ := mem_reach.mp hp
      rw [peersAt_lookup] at hw
      exact (hv.recorded hw).of_le hle
    · rw [h.consensusOffset_eq htick] at hc
      exact hv.consensus hc

end App

/-! ## Nodes that are running -/

/-- The node set that an event brings. -/
def Event.nodes? : Event PeerId → Option (Finset PeerId)
  | .inbox (.nodes nodes) => some nodes
  | _ => none

/-- The most recently received node set. -/
def lastNodes (events : List (Event PeerId)) : Option (Finset PeerId) :=
  (events.filterMap Event.nodes?).getLast?

namespace App

variable {sha256 : Sha256}

/-- Every consensus offset is reached by a quorum of the members of `nodes`. -/
def CountsCurrent (a : App PeerId L) (nodes : Finset PeerId) : Prop :=
  ∀ r o, a.consensusOffset.lookup r = some o →
    (a.params.consensusNodes : Nat) ≤ (reach (peersAt a.offsets r) o ∩ nodes).card

/-- Whatever a quorum of the recorded peers reaches, a quorum of the members of
`nodes` does. -/
def QuorumsCurrent (a : App PeerId L) (nodes : Finset PeerId) : Prop :=
  ∀ r x, (a.params.consensusNodes : Nat) ≤ (reach (peersAt a.offsets r) x).card →
    (a.params.consensusNodes : Nat) ≤ (reach (peersAt a.offsets r) x ∩ nodes).card

theorem Step.countsCurrent_iff [Linearizer L] {a a' : App PeerId L} {out : List (Outbox PeerId)}
    (h : Step sha256 a .advertiseTick a' out) (hb : a.Backed) (nodes : Finset PeerId) :
    a'.CountsCurrent nodes ↔ a.QuorumsCurrent nodes := by
  obtain ⟨hrec, hframe⟩ := h.recalculated
  have hoffsets : a'.offsets = a.offsets := by rw [hframe]
  constructor
  · intro hc r x hx
    obtain ⟨o, ho, hmax⟩ := hrec.quorum
      (hx.trans (Finset.card_le_card (Finset.filter_subset _ _)))
    have hquorum := hc r o ho
    rw [hoffsets, h.params_eq] at hquorum
    exact hquorum.trans (Finset.card_le_card
      (Finset.inter_subset_inter_right (reach_anti _ (hmax.greatest x hx))))
  · intro hq r o ho
    rw [hoffsets, h.params_eq]
    exact hq r o (h.isQuorumMax hb ho).reached

/-- The recalculations of a run all count running nodes only, exactly when
before each of them every quorum of entries is matched by a quorum of entries
of running nodes. -/
theorem counts_current_iff (sha256 : Sha256) (peerId : PeerId) (params : Params)
    (events : List (Event PeerId)) (a : App PeerId LogLineriazer) :
    (∀ before b c nodes,
        Passes sha256 (App.new peerId params) events a before b .advertiseTick c →
        lastNodes before = some nodes → c.CountsCurrent nodes) ↔
      ∀ before b c nodes,
        Passes sha256 (App.new peerId params) events a before b .advertiseTick c →
        lastNodes before = some nodes → b.QuorumsCurrent nodes := by
  constructor
  · intro h before b c nodes hpass hnodes
    obtain ⟨out, after, -, hbefore, hstep, -⟩ := id hpass
    exact (hstep.countsCurrent_iff hbefore.backed nodes).mp (h before b c nodes hpass hnodes)
  · intro h before b c nodes hpass hnodes
    obtain ⟨out, after, -, hbefore, hstep, -⟩ := id hpass
    exact (hstep.countsCurrent_iff hbefore.backed nodes).mpr (h before b c nodes hpass hnodes)

/-! A node that hears the same offset of range 0 from two peers. -/

def heardState (o : Nat) : NodeState where
  offsets := (∅ : HashMap Nat Nat).insert 0 o

theorem heard_step (sha256 : Sha256) (a : App Nat LogLineriazer) (p o : Nat) :
    Step sha256 a (.inbox (.state p (heardState o))) (a.handleState p [(0, o)]) [] :=
  @Step.state _ _ _ _ _ _ _ (heardState o) [(0, o)] (.singleton 0 o)

def heardEvents (o : Nat) : List (Event Nat) :=
  [.inbox (.state 1 (heardState o)), .inbox (.state 2 (heardState o))]

def heardApp (o : Nat) : App Nat LogLineriazer :=
  { App.new 0 Params.default with
    offsets := (∅ : HashMap Nat (HashMap Nat Nat)).insert 0
      (((∅ : HashMap Nat Nat).insert 1 o).insert 2 o) }

theorem heard_runs (sha256 : Sha256) (o : Nat) :
    Runs sha256 (App.new 0 Params.default) (heardEvents o) (heardApp o) :=
  (Runs.single (heard_step sha256 _ 1 o)).tail (heard_step sha256 _ 2 o)

theorem heard_offsets (o : Nat) :
    EnumeratesNested [(0, [(1, o), (2, o)])] (heardApp o).offsets :=
  .insert .empty (by decide)
    (((Enumerates.singleton 1 o).insert (by simp [Finmap.notMem_empty]) o).of_perm
      (List.Perm.swap _ _ _))

theorem heard_advertisable {o : Nat} (ho : Advertisable 0 o) :
    ∀ event ∈ heardEvents o, event.OffsetsAdvertisable := by
  have hstate : ∀ r v, (heardState o).offsets.lookup r = some v → Advertisable r v := by
    intro r v hv
    rcases HashMap.lookup_insert_some.mp hv with ⟨rfl, rfl⟩ | ⟨-, hv⟩
    · exact ho
    · simp at hv
  intro event hevent
  simp only [heardEvents, List.mem_cons, List.not_mem_nil, or_false] at hevent
  rcases hevent with rfl | rfl
  · exact hstate
  · exact hstate

/-- The tick after which the offset is the consensus. -/
theorem heard_tick (sha256 : Sha256) (o fuel : Nat) {intervals : List U64BlobIdClosedInterval}
    (hmax : consensusMaximum [(1, o), (2, o)] 2 = .ok (some o))
    (hmissing : selfDelays fuel ∅ ∅ [(0, [(1, o), (2, o)])] =
      .ok ((∅ : HashMap Nat _).insert 2 intervals)) :
    ∃ out, Step sha256 (heardApp o) .advertiseTick
      { heardApp o with consensusOffset := (∅ : HashMap Nat Nat).insert 0 o } out := by
  refine ⟨_, .advertise (heard_offsets o) ?_ (heard_offsets o) hmissing (.singleton 2 intervals)⟩
  have hround : recalculateRange 2 ∅ (0, [(1, o), (2, o)]) =
      .ok ((∅ : HashMap Nat Nat).insert 0 o) := by
    rw [recalculateRange]
    simp only [hmax]
    rfl
  exact bind_eq_ok.mpr ⟨_, bind_eq_ok.mpr ⟨_, hround, rfl⟩, rfl⟩

/-- The run up to that tick, for an offset that a node can advertise. -/
theorem heard_confirms (sha256 : Sha256) (o fuel : Nat) {intervals : List U64BlobIdClosedInterval}
    (ho : Advertisable 0 o) (hmax : consensusMaximum [(1, o), (2, o)] 2 = .ok (some o))
    (hmissing : selfDelays fuel ∅ ∅ [(0, [(1, o), (2, o)])] =
      .ok ((∅ : HashMap Nat _).insert 2 intervals)) :
    Runs sha256 (App.new 0 Params.default) (heardEvents o ++ [.advertiseTick])
        { heardApp o with consensusOffset := (∅ : HashMap Nat Nat).insert 0 o } ∧
      ∀ event ∈ heardEvents o ++ [.advertiseTick], event.OffsetsAdvertisable := by
  obtain ⟨out, htick⟩ := heard_tick sha256 o fuel hmax hmissing
  refine ⟨(heard_runs sha256 o).tail htick, fun event hevent => ?_⟩
  rcases List.mem_append.mp hevent with hheard | htick
  · exact heard_advertisable ho event hheard
  · rw [List.mem_singleton.mp htick]
    trivial

/-- Two peers leave, and the consensus still rests on them. -/
theorem departed_nodes_counted : ¬ ∀ (sha256 : Sha256) (peerId : Nat) (params : Params)
    (events : List (Event Nat)) (a : App Nat LogLineriazer) (before : List (Event Nat))
    (b c : App Nat LogLineriazer) (nodes : Finset Nat),
      Passes sha256 (App.new peerId params) events a before b .advertiseTick c →
      lastNodes before = some nodes → c.CountsCurrent nodes := by
  intro h
  let sha256 : Sha256 := fun _ => Vector.replicate 32 0
  have hfirst : Step sha256 (App.new 0 Params.default) (.inbox (.nodes {0, 1, 2}))
      (App.new 0 Params.default) [] :=
    @Step.nodes _ _ _ _ _ _ _ _ [0, 1, 2] (by decide) rfl
  have halone : Step sha256 (heardApp 5) (.inbox (.nodes {0})) (heardApp 5) [] :=
    @Step.nodes _ _ _ _ _ _ _ _ [0] (by decide) rfl
  have hrun := ((Runs.single hfirst).append (heard_runs sha256 5)).tail halone
  obtain ⟨out, htick⟩ := heard_tick sha256 5 7 rfl rfl
  have hquorum := h sha256 0 Params.default _ _ _ _ _ {0} ⟨out, [], rfl, hrun, htick, .refl⟩
    rfl 0 5 rfl
  revert hquorum
  decide

end App

end Maroon
