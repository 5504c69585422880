import Maroon.App.Effects

/-!
# The offsets of a node over its runs

The offset of a range is the end of the contiguous prefix of what was received
of it, whatever the order and the batches were (`offsets_exact`), as long as no
range is completed.

A scan that reaches the end of a range does not stop there.  It runs on into the
next range, and the offset it comes back with is then one of that range
(`completed_range_goes_back`).  `offsets_monotone` is about the runs in which
this does not happen.
-/

namespace Maroon

open Lib Outcome

/-- The ids of the transactions that the events bring. -/
def receivedIds {PeerId : Type} (events : List (Event PeerId)) : Set ℕ :=
  {id | ∃ event ∈ events, ∃ tx ∈ event.txs, tx.id = id}

theorem receivedIds_append {PeerId : Type} (events : List (Event PeerId)) (event : Event PeerId)
    (id : Nat) : id ∈ receivedIds (events ++ [event]) ↔
      id ∈ receivedIds events ∨ ∃ tx ∈ event.txs, tx.id = id := by
  simp [receivedIds, or_and_right, exists_or]

/-! ## Stores with no last id of a range -/

/-- No id of the set is the last one of its range. -/
def NoLast (S : Set ℕ) : Prop := ∀ id ∈ S, id % singleBlobSize ≠ singleBlobSize - 1

theorem NoLast.mono {S S' : Set ℕ} (h : NoLast S') (hsub : S ⊆ S') : NoLast S :=
  fun id hid => h id (hsub hid)

theorem NoLast.not_crosses {S : Set ℕ} (h : NoLast S) (range : Nat) : ¬ Crosses S range := by
  intro hc
  have hlast := hc.1 (singleBlobSize - 1) le_rfl
  rw [idOf_zero_add] at hlast
  exact h _ hlast (idOf_mod (Nat.sub_lt singleBlobSize_pos one_pos))

/-- The offset of a range is the greatest one up to which the range was
received. -/
theorem StoreExact.isGreatest {transactions : HashMap Nat Transaction}
    {selfOffsets : HashMap Nat Nat} (h : StoreExact transactions selfOffsets)
    (hlast : NoLast (heldIds transactions)) {r o : Nat} (ho : selfOffsets.lookup r = some o) :
    IsGreatest {k | Held (heldIds transactions) (idOf r 0) k} o := by
  refine ((h r o).mp ho).isGreatest_held fun hin => hlast _ hin ?_
  rw [idOf_zero_add]
  exact idOf_mod (Nat.sub_lt singleBlobSize_pos one_pos)

/-- A range has an offset exactly when its first id is stored. -/
theorem StoreExact.mem_iff {transactions : HashMap Nat Transaction}
    {selfOffsets : HashMap Nat Nat} (h : StoreExact transactions selfOffsets) {r : Nat} :
    r ∈ selfOffsets ↔ idOf r 0 ∈ heldIds transactions := by
  rw [HashMap.mem_iff_lookup, ← IsPrefixEnd.exists_iff singleBlobSize_pos]
  exact exists_congr (h r)

/-- The first offset that a node with exact offsets does not have is not
stored. -/
theorem StoreExact.nextOffset_absent {transactions : HashMap Nat Transaction}
    {selfOffsets : HashMap Nat Nat} (h : StoreExact transactions selfOffsets) {r : Nat}
    (hlt : nextOffset selfOffsets r < singleBlobSize) :
    idOf r (nextOffset selfOffsets r) ∉ transactions := by
  cases hlook : selfOffsets.lookup r with
  | none =>
      rw [nextOffset_none hlook]
      intro hin
      obtain ⟨o, ho⟩ := HashMap.mem_iff_lookup.mp (h.mem_iff.mpr (mem_heldIds.mpr hin))
      cases hlook.symm.trans ho
  | some c =>
      rw [nextOffset_some hlook] at hlt ⊢
      rw [← idOf_zero_add]
      exact ((h r c).mp hlook).gap hlt

/-- What is below the next offset is stored. -/
theorem StoreSound.mem_of_lt_nextOffset {transactions : HashMap Nat Transaction}
    {selfOffsets : HashMap Nat Nat} (h : StoreSound transactions selfOffsets) {r k : Nat}
    (hlt : k < nextOffset selfOffsets r) : idOf r k ∈ transactions := by
  cases hlook : selfOffsets.lookup r with
  | none =>
      rw [nextOffset_none hlook] at hlt
      omega
  | some c =>
      rw [nextOffset_some hlook] at hlt
      have hheld := h.held hlook k (by omega)
      rwa [idOf_zero_add] at hheld

/-- Two nodes that store the same ids have the same offsets. -/
theorem StoreExact.congr {transactions transactions' : HashMap Nat Transaction}
    {selfOffsets selfOffsets' : HashMap Nat Nat} (h : StoreExact transactions selfOffsets)
    (h' : StoreExact transactions' selfOffsets')
    (hids : heldIds transactions = heldIds transactions') : selfOffsets = selfOffsets' := by
  refine Finmap.ext_lookup fun r => Option.ext fun o => ?_
  rw [h r o, h' r o, hids]

/-- Exact offsets only grow with the store. -/
theorem StoreExact.mono {transactions transactions' : HashMap Nat Transaction}
    {selfOffsets selfOffsets' : HashMap Nat Nat} (h : StoreExact transactions selfOffsets)
    (h' : StoreExact transactions' selfOffsets')
    (hsub : heldIds transactions ⊆ heldIds transactions') {r o : Nat}
    (ho : selfOffsets.lookup r = some o) : ∃ o', selfOffsets'.lookup r = some o' ∧ o ≤ o' := by
  have hend := (h r o).mp ho
  obtain ⟨o', hend'⟩ := IsPrefixEnd.exists_of_mem singleBlobSize_pos (hsub hend.held.base_mem)
  exact ⟨o', (h' r o').mpr hend', hend.mono hend' hsub⟩

namespace App

/-! ## Handlers that return -/

/-- Received transactions with accepted ids are handled to the end, in any order
of the ranges. -/
def HandlesBatches {PeerId L : Type} (a : App PeerId L) : Prop :=
  ∀ txs : List Transaction, (∀ tx ∈ txs, Accepted tx.id) →
    ∃ rangeMap, txsToRangeTxMap txs = .ok rangeMap ∧
      ∀ order fuel, Enumerates order rangeMap → scanFuel ≤ fuel →
        ∃ after, updateSelfOffsets fuel a.selfOffsets a.transactions order = .ok after

theorem handlesBatches {PeerId L : Type} {a : App PeerId L}
    (hs : StoreSound a.transactions a.selfOffsets) : a.HandlesBatches := by
  intro txs hacc
  obtain ⟨rangeMap, hmap⟩ := txsToRangeTxMap_total hacc
  exact ⟨rangeMap, hmap, fun order fuel horder hfuel =>
    updateSelfOffsets_total (.of_rangeMap hmap horder) hs hfuel⟩

variable {PeerId L : Type} [LinearOrder PeerId] [Linearizer L] {sha256 : Sha256}
  {a a' : App PeerId L} {event : Event PeerId} {events : List (Event PeerId)}
  {out : List (Outbox PeerId)} {peerId : PeerId} {params : Params}

theorem exists_missingTx (sha256 : Sha256) (txs : List Transaction)
    (hs : StoreSound a.transactions a.selfOffsets) (hacc : ∀ tx ∈ txs, Accepted tx.id) :
    ∃ a', Step sha256 a (.inbox (.missingTx txs)) a' [] := by
  obtain ⟨rangeMap, hmap, htotal⟩ := handlesBatches hs txs hacc
  obtain ⟨order, horder⟩ := Enumerates.exists_entries rangeMap
  obtain ⟨after, hafter⟩ := htotal order scanFuel horder le_rfl
  exact ⟨_, .missingTx hmap horder (bind_eq_ok.mpr ⟨after, hafter, rfl⟩)⟩

theorem Runs.storeSound {a : App PeerId LogLineriazer}
    (h : Runs sha256 (App.new peerId params) events a) :
    StoreSound a.transactions a.selfOffsets :=
  h.invariant (fun _ => True) (fun a => StoreSound a.transactions a.selfOffsets)
    (fun _ hs hstep => hstep.storeSound hs) (by simp) .empty

/-- A node stores what it received. -/
theorem Runs.heldIds_eq {a : App PeerId LogLineriazer}
    (h : Runs sha256 (App.new peerId params) events a) :
    heldIds a.transactions = receivedIds events := by
  induction h with
  | refl =>
      ext id
      simp [App.new, receivedIds, heldIds, Finmap.notMem_empty]
  | tail _ hs ih =>
      ext id
      rw [hs.heldIds_eq, receivedIds_append, ← ih]
      rfl

/-! ## Runs that complete no range -/

/-- As long as no last id is received, the offsets are exact. -/
theorem Runs.storeExact {a : App PeerId LogLineriazer}
    (h : Runs sha256 (App.new peerId params) events a) (hlast : NoLast (receivedIds events)) :
    StoreExact a.transactions a.selfOffsets := by
  induction h with
  | refl => exact .empty
  | tail hr hs ih =>
      refine hs.storeExact hr.storeSound
        (ih fun id hid => hlast id ((receivedIds_append _ _ _).mpr (Or.inl hid))) fun tx _ => ?_
      refine NoLast.not_crosses (fun id hid => hlast id ?_) _
      rw [← (hr.tail hs).heldIds_eq, hs.heldIds_eq]
      exact hid

/-- A node that has completed no range stores what it received, and its offsets
are the ends of the contiguous prefixes.  They do not depend on the order of the
messages. -/
theorem offsets_exact {a : App PeerId LogLineriazer}
    (h : Runs sha256 (App.new peerId params) events a) (hlast : NoLast (receivedIds events)) :
    heldIds a.transactions = receivedIds events ∧
      (∀ r, r ∈ a.selfOffsets ↔ idOf r 0 ∈ receivedIds events) ∧
      (∀ r o, a.selfOffsets.lookup r = some o →
        IsGreatest {k | Held (receivedIds events) (idOf r 0) k} o) ∧
      a.HandlesBatches ∧
      ∀ (peerId' : PeerId) (params' : Params) (events' : List (Event PeerId))
        (a' : App PeerId LogLineriazer), Runs sha256 (App.new peerId' params') events' a' →
        receivedIds events' = receivedIds events → a'.selfOffsets = a.selfOffsets := by
  have hids := h.heldIds_eq
  have hexact := h.storeExact hlast
  refine ⟨hids, fun r => ?_, fun r o ho => ?_, handlesBatches h.storeSound, ?_⟩
  · rw [hexact.mem_iff, hids]
  · have hgreatest := hexact.isGreatest (hids ▸ hlast) ho
    rwa [hids] at hgreatest
  · intro peerId' params' events' a' h' heq
    have hexact' := h'.storeExact (heq ▸ hlast)
    exact hexact'.congr hexact (by rw [h'.heldIds_eq, hids, heq])

/-! Offset 1 of range 0 arrives before offset 0. -/

def swappedEvents : List (Event Nat) :=
  [.inbox (.missingTx [⟨1, .created⟩]), .inbox (.missingTx [⟨0, .created⟩])]

theorem swapped_noLast : NoLast (receivedIds swappedEvents) := by
  rintro id ⟨event, hevent, tx, htx, rfl⟩
  simp only [swappedEvents, List.mem_cons, List.not_mem_nil, or_false] at hevent
  rcases hevent with rfl | rfl
  · rw [List.mem_singleton.mp htx]
    decide
  · rw [List.mem_singleton.mp htx]
    decide

theorem swapped_steps (sha256 : Sha256) : ∃ b c : App Nat LogLineriazer,
    Step sha256 (App.new 0 Params.default) (.inbox (.missingTx [⟨1, .created⟩])) b [] ∧
      Step sha256 b (.inbox (.missingTx [⟨0, .created⟩])) c [] ∧
      c.selfOffsets.lookup 0 = some 1 :=
  ⟨_, _, @Step.missingTx _ _ _ _ _ _ _ _ _ [(0, [⟨1, .created⟩])] 1 rfl (.singleton 0 _) rfl,
    @Step.missingTx _ _ _ _ _ _ _ _ _ [(0, [⟨0, .created⟩])] 2 rfl (.singleton 0 _) rfl, rfl⟩

theorem offsets_exact_swapped : ∃ a : App Nat LogLineriazer, a.selfOffsets.lookup 0 = some 1 ∧
    IsGreatest {k | Held (receivedIds swappedEvents) (idOf 0 0) k} 1 := by
  obtain ⟨b, c, hb, hc, hlook⟩ := swapped_steps fun _ => Vector.replicate 32 0
  have hrun : Runs _ (App.new 0 Params.default) swappedEvents c := (Runs.single hb).tail hc
  exact ⟨c, hlook, (offsets_exact hrun swapped_noLast).2.2.1 0 1 hlook⟩

/-! ## Runs in which no scan crosses -/

/-- No range that the event brings transactions of is complete and followed by
the first id of the next range. -/
def NoCrossing (a : App PeerId L) (event : Event PeerId) : Prop :=
  ∀ tx ∈ event.txs, ¬ Crosses (heldAfter a.transactions event.txs) (tx.id / singleBlobSize)

theorem RunsWhere.exact {Ok : App PeerId L → Event PeerId → Prop}
    (hok : ∀ {b event}, Ok b event → b.NoCrossing event) (h : RunsWhere sha256 Ok a events a')
    (hs : StoreSound a.transactions a.selfOffsets) (he : StoreExact a.transactions a.selfOffsets) :
    StoreSound a'.transactions a'.selfOffsets ∧ StoreExact a'.transactions a'.selfOffsets :=
  h.invariant
    (fun b => StoreSound b.transactions b.selfOffsets ∧ StoreExact b.transactions b.selfOffsets)
    (fun hokb hb hstep =>
      ⟨hstep.storeSound hb.1, hstep.storeExact hb.1 hb.2 fun tx htx => hok hokb tx htx⟩)
    ⟨hs, he⟩

theorem Runs.heldIds_subset (h : Runs sha256 a events a') :
    heldIds a.transactions ⊆ heldIds a'.transactions :=
  h.invariant (fun _ => True) (fun b => heldIds a.transactions ⊆ heldIds b.transactions)
    (fun _ hb hstep => hb.trans hstep.heldIds_subset) (by simp) subset_rfl

/-- The ids of one range. -/
def idsOfRange (S : Set ℕ) (range : Nat) : Set ℕ := {id | id ∈ S ∧ id / singleBlobSize = range}

/-- Where no scan crosses, no offset goes back, each one is computed from the ids
of its own range, and the node's own entries in the table are these offsets. -/
theorem offsets_monotone {b c : App PeerId LogLineriazer} {before after : List (Event PeerId)}
    (h : RunsWhere sha256 NoCrossing (App.new peerId params) before b)
    (h' : RunsWhere sha256 NoCrossing b after c) :
    (∀ r o, b.selfOffsets.lookup r = some o → ∃ o', c.selfOffsets.lookup r = some o' ∧ o ≤ o') ∧
      (∀ r o, c.selfOffsets.lookup r = some o ↔
        IsPrefixEnd (idsOfRange (heldIds c.transactions) r) (idOf r 0) singleBlobSize o) ∧
      ((∀ state, .inbox (.state peerId state) ∉ before ++ after) →
        ∀ r o, peerOffset b.offsets r peerId = some o →
          ∃ o', peerOffset c.offsets r peerId = some o' ∧ o ≤ o') := by
  obtain ⟨hsb, heb⟩ := h.exact id .empty .empty
  obtain ⟨hsc, hec⟩ := h'.exact id hsb heb
  have hmono := fun r o => heb.mono hec h'.runs.heldIds_subset (r := r) (o := o)
  refine ⟨hmono, fun r o => ?_, fun hself r o ho => ?_⟩
  · rw [hec r o]
    have hiff : ∀ i < singleBlobSize, idOf r 0 + i ∈ heldIds c.transactions ↔
        idOf r 0 + i ∈ idsOfRange (heldIds c.transactions) r := by
      intro i hi
      rw [idOf_zero_add]
      exact ⟨fun hin => ⟨hin, idOf_div hi⟩, fun hin => hin.1⟩
    exact ⟨fun hp => hp.congr hiff, fun hp => hp.congr fun i hi => (hiff i hi).symm⟩
  · obtain ⟨hid, hownb⟩ := h.runs.ownEntries (new_ownEntries peerId params)
      fun state hin => hself state (List.mem_append_left _ hin)
    have hb : b.peerId = peerId := hid
    obtain ⟨hid', hownc⟩ := h'.runs.ownEntries hownb
      fun state hin => hself state (List.mem_append_right _ (hb ▸ hin))
    have hc : c.peerId = peerId := hid'.trans hid
    have hentry := hownb r
    have hentry' := hownc r
    rw [hb] at hentry
    rw [hc] at hentry'
    rw [hentry] at ho
    rw [hentry']
    exact hmono r o ho

theorem Step.noCrossing (h : Step sha256 a event a' out)
    (hlast : NoLast (heldIds a'.transactions)) : a.NoCrossing event := by
  intro tx _
  rw [← h.heldIds_eq]
  exact hlast.not_crosses _

/-- Offset 1 is there first, then offset 3 arrives before offset 2. -/
theorem gap_steps (sha256 : Sha256) : ∃ a b c : App Nat LogLineriazer,
    Step sha256 (App.new 0 Params.default)
        (.inbox (.missingTx [⟨0, .created⟩, ⟨1, .created⟩])) a [] ∧
      Step sha256 a (.inbox (.missingTx [⟨3, .created⟩])) b [] ∧
      Step sha256 b (.inbox (.newTransaction ⟨2, .created⟩)) c [] ∧
      a.selfOffsets.lookup 0 = some 1 ∧ c.selfOffsets.lookup 0 = some 3 :=
  ⟨_, _, _, @Step.missingTx _ _ _ _ _ _ _ _ _ [(0, [⟨0, .created⟩, ⟨1, .created⟩])] 3 rfl
      (.singleton 0 _) rfl,
    @Step.missingTx _ _ _ _ _ _ _ _ _ [(0, [⟨3, .created⟩])] 3 rfl (.singleton 0 _) rfl,
    @Step.newTransaction _ _ _ _ _ _ _ _ _ [(0, [⟨2, .created⟩])] 3 rfl (.singleton 0 _) rfl,
    rfl, rfl⟩

theorem offsets_monotone_swapped : ∃ a c : App Nat LogLineriazer,
    a.selfOffsets.lookup 0 = some 1 ∧ c.selfOffsets.lookup 0 = some 3 ∧
      (∃ o, c.selfOffsets.lookup 0 = some o ∧ 1 ≤ o) ∧
      IsPrefixEnd (idsOfRange (heldIds c.transactions) 0) (idOf 0 0) singleBlobSize 3 := by
  obtain ⟨a, b, c, ha, hb, hc, hlook, hlook'⟩ := gap_steps fun _ => Vector.replicate 32 0
  have hlast : NoLast (heldIds c.transactions) := by
    rw [(((Runs.single ha).tail hb).tail hc).heldIds_eq]
    rintro id ⟨event, hevent, tx, htx, rfl⟩
    have hlt : tx.id < 4 := by
      simp only [List.nil_append, List.cons_append, List.mem_cons, List.not_mem_nil,
        or_false] at hevent
      rcases hevent with rfl | rfl | rfl
      · simp only [Event.txs, List.mem_cons, List.not_mem_nil, or_false] at htx
        rcases htx with rfl | rfl <;> decide
      · rw [List.mem_singleton.mp htx]
        decide
      · rw [List.mem_singleton.mp htx]
        decide
    simp only [singleBlobSize]
    omega
  have hlastb : NoLast (heldIds b.transactions) := fun id hid => hlast id (hc.heldIds_subset hid)
  have hlasta : NoLast (heldIds a.transactions) := fun id hid => hlastb id (hb.heldIds_subset hid)
  have hbefore := RunsWhere.tail .refl (ha.noCrossing hlasta) ha
  have hafter := RunsWhere.tail (.tail .refl (hb.noCrossing hlastb) hb) (hc.noCrossing hlast) hc
  obtain ⟨hmono, hexact, -⟩ := offsets_monotone hbefore hafter
  exact ⟨a, c, hlook, hlook', hmono 0 1 hlook, (hexact 0 3).mp hlook'⟩

/-! ## A range that is completed -/

/-- One transaction for each id of range 0. -/
def wholeRange : List Transaction :=
  (List.range singleBlobSize).map fun id => ⟨id, .created⟩

theorem mem_wholeRange {id : Nat} : (∃ tx ∈ wholeRange, tx.id = id) ↔ id < singleBlobSize := by
  simp [wholeRange]

theorem accepted_of_le {id : Nat} (h : id ≤ singleBlobSize) : Accepted id := by
  rw [accepted_iff]
  simp only [maxBlockIndex, singleBlobSize] at *
  omega

/-- A node that has received the whole of range 0 and the first id of range 1. -/
private theorem exists_complete (sha256 : Sha256) : ∃ b : App Nat LogLineriazer,
    Runs sha256 (App.new 0 Params.default)
        [.inbox (.missingTx wholeRange), .inbox (.missingTx [⟨singleBlobSize, .created⟩])] b ∧
      (∀ id, id ∈ b.transactions ↔ id ≤ singleBlobSize) ∧
      b.selfOffsets.lookup 0 = some (singleBlobSize - 1) := by
  have hacc : ∀ tx ∈ wholeRange, Accepted tx.id := by
    intro tx htx
    have hlt := mem_wholeRange.mp ⟨tx, htx, rfl⟩
    exact accepted_of_le hlt.le
  obtain ⟨a, ha⟩ := exists_missingTx (a := App.new 0 Params.default) sha256 wholeRange
    StoreSound.empty hacc
  have hheld : ∀ id, id ∈ a.transactions ↔ id < singleBlobSize := by
    intro id
    rw [ha.mem_transactions, Event.txs, mem_wholeRange]
    exact or_iff_right Finmap.notMem_empty
  have hexact : StoreExact a.transactions a.selfOffsets := by
    refine ha.storeExact .empty .empty fun tx _ hc => ?_
    have hnext := hc.2
    rw [← ha.heldIds_eq, mem_heldIds, hheld] at hnext
    simp only [idOf, singleBlobSize] at hnext
    omega
  have hs := ha.storeSound .empty
  obtain ⟨b, hb⟩ := exists_missingTx sha256 [⟨singleBlobSize, .created⟩] hs
    fun tx htx => accepted_of_le (le_of_eq (by rw [List.mem_singleton.mp htx]))
  have hheld' : ∀ id, id ∈ b.transactions ↔ id ≤ singleBlobSize := by
    intro id
    rw [hb.mem_transactions, hheld]
    simp only [Event.txs, List.mem_singleton, exists_eq_left]
    omega
  have hexact' : StoreExact b.transactions b.selfOffsets := by
    refine hb.storeExact hs hexact fun tx htx hc => ?_
    have hsecond := hc.1 1 (by decide)
    rw [← hb.heldIds_eq, mem_heldIds, hheld', List.mem_singleton.mp htx] at hsecond
    simp only [idOf, singleBlobSize] at hsecond
    omega
  refine ⟨b, (Runs.single ha).tail hb, hheld', (hexact' 0 _).mpr ⟨by decide, fun i hi => ?_, ?_⟩⟩
  · rw [mem_heldIds, hheld', idOf_zero_add]
    simp only [idOf]
    omega
  · intro hlt
    omega

/-- A scan of range 0 that starts at its end goes on to the first id of range 1. -/
private theorem goes_back {b c : App Nat LogLineriazer}
    (hc : Step sha256 b (.inbox (.missingTx [⟨0, .created⟩])) c [])
    (hlook : b.selfOffsets.lookup 0 = some (singleBlobSize - 1))
    (hheld : ∀ id, id ∈ c.transactions ↔ id ≤ singleBlobSize) :
    c.selfOffsets.lookup 0 = some 0 := by
  obtain ⟨order, after, fuel, hb, hafter, hself, htx⟩ := hc.store
  rw [isBatch_singleton hb] at hafter
  simp only [Nat.zero_div] at hafter
  obtain ⟨after', hround, hend⟩ := bind_eq_ok.mp hafter
  cases hend
  rcases (updateRange_ok hround).2.2 with ⟨-, -, hnone, -⟩ | ⟨start, key, hstart, hadv⟩
  · cases hlook.symm.trans hnone
  · have hlast : start = singleBlobSize - 1 := by
      rcases hstart with hsome | ⟨hnone, -⟩
      · exact Option.some.inj (hsome.symm.trans hlook)
      · cases hlook.symm.trans hnone
    have hmem : ∀ id, id ∈ heldIds after.transactions ↔ id ≤ singleBlobSize :=
      fun id => by rw [mem_heldIds, ← htx, hheld]
    have hkey : key = singleBlobSize := by
      refine hadv.scan.unique ⟨?_, fun id _ hid => (hmem id).mpr hid, fun hin => ?_⟩
      · rw [hlast]
        simp only [idOf]
        omega
      · have := (hmem _).mp hin
        omega
    rw [hself, hadv.selfOffsets, Finmap.lookup_insert, hkey, Nat.mod_self]

/-- A node that has stored the whole of range 0 and the first id of range 1 goes
back to offset 0 when it is sent any id of range 0 again. -/
theorem completed_range_goes_back : ¬ ∀ (sha256 : Sha256) (peerId : Nat) (params : Params)
    (events : List (Event Nat)) (event : Event Nat) (b c : App Nat LogLineriazer)
    (out : List (Outbox Nat)), Runs sha256 (App.new peerId params) events b →
      Step sha256 b event c out → ∀ r o, b.selfOffsets.lookup r = some o →
        ∃ o', c.selfOffsets.lookup r = some o' ∧ o ≤ o' := by
  intro h
  let sha256 : Sha256 := fun _ => Vector.replicate 32 0
  obtain ⟨b, hrun, hheld, hlook⟩ := exists_complete sha256
  obtain ⟨c, hc⟩ := exists_missingTx sha256 [⟨0, .created⟩] hrun.storeSound
    fun tx htx => accepted_of_le (by rw [List.mem_singleton.mp htx]; exact Nat.zero_le _)
  have hheld' : ∀ id, id ∈ c.transactions ↔ id ≤ singleBlobSize := by
    intro id
    rw [hc.mem_transactions, hheld]
    simp only [Event.txs, List.mem_singleton, exists_eq_left]
    omega
  obtain ⟨o', ho', hle⟩ := h sha256 0 Params.default _ _ b c _ hrun hc 0 _ hlook
  cases (goes_back hc hlook hheld').symm.trans ho'
  exact absurd hle (by decide)

end App

end Maroon
