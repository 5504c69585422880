import Maroon.App.Panics

/-!
# Transactions that are received again

What a batch does to a node that holds all of its transactions already.  No id
is new, but each one is written again, with the copy that comes last, and the
range of each one is scanned again from the offset it has.

`Harmless` says when this changes nothing.  Then the last copies are the stored
ones, and the scans find the offsets that they start from.  `unaffected_iff` is
this equivalence in every state of every run.
-/

namespace Maroon

open Lib Outcome

/-! ## The copy that stays -/

/-- The last transaction with an id. -/
def lastCopy (txs : List Transaction) (id : Nat) : Option Transaction :=
  (txs.filter fun tx => tx.id = id).getLast?

theorem lastCopy_eq_some {txs : List Transaction} {id : Nat} {tx : Transaction}
    (h : lastCopy txs id = some tx) : tx ∈ txs ∧ tx.id = id := by
  have hin := List.mem_filter.mp (List.mem_of_getLast? h)
  exact ⟨hin.1, of_decide_eq_true hin.2⟩

theorem lastCopy_concat (txs : List Transaction) (tx : Transaction) (id : Nat) :
    lastCopy (txs ++ [tx]) id = if id = tx.id then some tx else lastCopy txs id := by
  rw [lastCopy, List.filter_append]
  split
  next heq =>
    rw [List.filter_cons_of_pos (by simp [heq]), List.filter_nil, List.getLast?_concat]
  next hne =>
    rw [List.filter_cons_of_neg (by simpa using Ne.symm hne), List.filter_nil, List.append_nil,
      lastCopy]

theorem lookup_insertAll (transactions : HashMap Nat Transaction) (txs : List Transaction)
    (id : Nat) : (insertAll transactions txs).lookup id =
      (lastCopy txs id).or (transactions.lookup id) := by
  induction txs using List.reverseRecOn with
  | nil => rfl
  | append_singleton txs tx ih =>
      rw [insertAll, List.foldl_append, List.foldl_cons, List.foldl_nil, ← insertAll,
        HashMap.lookup_insert_eq, ih, lastCopy_concat]
      split
      next => rfl
      next => rfl

/-- The copies of an id are in the batch of its range. -/
theorem lastCopy_batchOf (txs : List Transaction) (id : Nat) :
    lastCopy (batchOf txs (id / singleBlobSize)) id = lastCopy txs id := by
  rw [lastCopy, batchOf, List.filter_filter, lastCopy]
  congr 1
  refine List.filter_congr fun tx _ => ?_
  by_cases h : tx.id = id
  · simp [h]
  · simp [h]

/-- The buckets, one after the other, hold of each range what the batch holds. -/
theorem IsBatch.batchOf_flatMap {txs : List Transaction} {order : List (Nat × List Transaction)}
    (h : IsBatch txs order) (range : Nat) :
    batchOf (order.flatMap Prod.snd) range = batchOf txs range := by
  have hclass : ∀ entry ∈ order, ∀ tx ∈ entry.2, tx.id / singleBlobSize = entry.1 :=
    fun entry hentry tx htx => (h.mem hentry htx).2
  rw [batchOf, filter_flatMap_of_class Prod.fst (fun tx : Transaction => tx.id / singleBlobSize)
    hclass]
  by_cases hnil : batchOf txs range = []
  · rw [hnil, List.filter_eq_nil_iff.mpr fun entry hentry => ?_, List.flatMap_nil]
    obtain ⟨heq, hne⟩ := bucketOf_eq_some.mp (h.mem_iff.mp hentry)
    intro hrange
    rw [← of_decide_eq_true hrange, ← heq] at hnil
    exact hne hnil
  · have hin := h.mem_iff.mpr (bucketOf_eq_some.mpr ⟨rfl, hnil⟩)
    rw [filter_class_of_nodup h.nodup hin, List.flatMap_singleton]

theorem IsBatch.lastCopy_flatMap {txs : List Transaction} {order : List (Nat × List Transaction)}
    (h : IsBatch txs order) (id : Nat) :
    lastCopy (order.flatMap Prod.snd) id = lastCopy txs id := by
  rw [← lastCopy_batchOf, h.batchOf_flatMap, lastCopy_batchOf]

section Batch

variable {fuel : Nat} {txs : List Transaction} {order : List (Nat × List Transaction)}
  {selfOffsets : HashMap Nat Nat} {transactions : HashMap Nat Transaction}
  {after : OffsetUpdate}

/-- A batch stores the last copy of each of its ids, whatever the order of the
ranges is. -/
theorem updateSelfOffsets_lookup (hb : IsBatch txs order)
    (h : updateSelfOffsets fuel selfOffsets transactions order = .ok after) (id : Nat) :
    after.transactions.lookup id = (lastCopy txs id).or (transactions.lookup id) := by
  rw [updateSelfOffsets_transactions h, lookup_insertAll, hb.lastCopy_flatMap]

/-! ## Ranges whose first id is stored -/

/-- A range has an offset as soon as its first id is stored. -/
def FirstKnown (transactions : HashMap Nat Transaction) (selfOffsets : HashMap Nat Nat) : Prop :=
  ∀ range, idOf range 0 ∈ transactions → range ∈ selfOffsets

theorem updateRange_firstKnown {range : Nat} {l : List Transaction} {u u' : OffsetUpdate}
    (h : updateRange fuel u (range, l) = .ok u') (hf : FirstKnown u.transactions u.selfOffsets)
    (hl : ∀ tx ∈ l, tx.id / singleBlobSize = range) :
    FirstKnown u'.transactions u'.selfOffsets := by
  obtain ⟨-, htx, hend⟩ := updateRange_ok h
  intro r hr
  rw [htx, mem_insertAll] at hr
  rcases hend with ⟨hself, -, -, hzero⟩ | ⟨start, key, -, hadv⟩
  · rw [hself]
    rcases hr with hold | ⟨tx, hin, hid⟩
    · exact hf r hold
    · refine absurd ?_ (hzero tx hin)
      rw [hid, idOf_mod singleBlobSize_pos]
  · rw [hadv.selfOffsets, Finmap.mem_insert]
    rcases hr with hold | ⟨tx, hin, hid⟩
    · exact Or.inr (hf r hold)
    · refine Or.inl ?_
      rw [← hl tx hin, hid, idOf_div singleBlobSize_pos]

theorem updateSelfOffsets_firstKnown (hb : IsBatch txs order)
    (h : updateSelfOffsets fuel selfOffsets transactions order = .ok after)
    (hf : FirstKnown transactions selfOffsets) :
    FirstKnown after.transactions after.selfOffsets := by
  refine foldlM_invariant
    (fun u : OffsetUpdate => FirstKnown u.transactions u.selfOffsets) h hf ?_
  rintro ⟨range, l⟩ hin u u' hu hstep
  exact updateRange_firstKnown hstep hu fun tx htx => (hb.mem hin htx).2

/-! ## Scans of a store that has not changed -/

/-- A scan from the offset of a range comes back with an offset. -/
def Rescanned (S : Set ℕ) (selfOffsets : HashMap Nat Nat) (range v : Nat) : Prop :=
  ∃ start key, selfOffsets.lookup range = some start ∧
    ScanEnd S (idOf range start) key ∧ v = key % singleBlobSize

/-- A round for a range of stored transactions scans the range from the offset
it has. -/
theorem updateRange_rescanned {range : Nat} {l : List Transaction} {u u' : OffsetUpdate}
    (h : updateRange fuel u (range, l) = .ok u') (hl : ∀ tx ∈ l, tx.id ∈ u.transactions)
    (hrange : ∀ tx ∈ l, tx.id / singleBlobSize = range)
    (hf : FirstKnown u.transactions u.selfOffsets) :
    heldIds u'.transactions = heldIds u.transactions ∧
      ∀ r v, (r, v) ∈ u'.updates ↔ (r, v) ∈ u.updates ∨
        r = range ∧ Rescanned (heldIds u.transactions) u.selfOffsets range v := by
  obtain ⟨-, htx, hend⟩ := updateRange_ok h
  have hheld : heldIds u'.transactions = heldIds u.transactions := by
    ext id
    rw [htx, mem_heldIds, mem_heldIds, mem_insertAll, or_iff_left_of_imp]
    intro hid
    obtain ⟨tx, hin, rfl⟩ := hid
    exact hl tx hin
  refine ⟨hheld, fun r v => ?_⟩
  rcases hend with ⟨-, hupd, hnone, -⟩ | ⟨start, key, hstart, hadv⟩
  · rw [hupd, or_iff_left]
    intro hscan
    obtain ⟨-, start, key, hsome, -⟩ := hscan
    cases hnone.symm.trans hsome
  · have hlook : u.selfOffsets.lookup range = some start := by
      rcases hstart with hsome | ⟨hnone, -, tx, hin, hzero⟩
      · exact hsome
      · have hfirst : idOf range 0 ∈ u.transactions := by
          rw [← hrange tx hin, ← hzero, idOf_div_mod]
          exact hl tx hin
        obtain ⟨o, ho⟩ := HashMap.mem_iff_lookup.mp (hf range hfirst)
        cases hnone.symm.trans ho
    have hscan := hadv.scan
    rw [hheld] at hscan
    rw [hadv.updates, List.mem_append, List.mem_singleton, Prod.mk.injEq]
    refine or_congr Iff.rfl (and_congr Iff.rfl ⟨fun hv => ⟨start, key, hlook, hscan, hv⟩, ?_⟩)
    intro hre
    obtain ⟨start', key', hlook', hscan', rfl⟩ := hre
    cases hlook.symm.trans hlook'
    rw [hscan.unique hscan']

/-- A round leaves the offsets of the other ranges alone. -/
theorem updateRange_lookup_ne {range : Nat} {l : List Transaction} {u u' : OffsetUpdate}
    (h : updateRange fuel u (range, l) = .ok u') {r : Nat} (hne : r ≠ range) :
    u'.selfOffsets.lookup r = u.selfOffsets.lookup r := by
  rcases (updateRange_ok h).2.2 with ⟨hself, -⟩ | ⟨start, key, -, hadv⟩
  · rw [hself]
  · rw [hadv.selfOffsets, Finmap.lookup_insert_of_ne _ hne]

/-- A batch of stored transactions scans each of its ranges that have an offset. -/
theorem updateSelfOffsets_rescanned (hb : IsBatch txs order)
    (h : updateSelfOffsets fuel selfOffsets transactions order = .ok after)
    (hf : FirstKnown transactions selfOffsets) (hknown : ∀ tx ∈ txs, tx.id ∈ transactions)
    (r v : Nat) : (r, v) ∈ after.updates ↔
      (∃ tx ∈ txs, tx.id / singleBlobSize = r) ∧
        Rescanned (heldIds transactions) selfOffsets r v := by
  have hall := foldlM_split (fun (done : List (Nat × List Transaction)) (u : OffsetUpdate) =>
      heldIds u.transactions = heldIds transactions ∧ FirstKnown u.transactions u.selfOffsets ∧
        (∀ r ∉ done.map Prod.fst, u.selfOffsets.lookup r = selfOffsets.lookup r) ∧
        ∀ r v, (r, v) ∈ u.updates ↔
          r ∈ done.map Prod.fst ∧ Rescanned (heldIds transactions) selfOffsets r v)
    h ⟨rfl, hf, fun _ _ => rfl, by simp⟩ (by
      rintro done ⟨range, l⟩ rest u u' rfl ⟨hheld, hfirst, hsame, hupd⟩ hstep
      have hin : (range, l) ∈ done ++ (range, l) :: rest := by simp
      have hrange : ∀ tx ∈ l, tx.id / singleBlobSize = range :=
        fun tx htx => (hb.mem hin htx).2
      have hl : ∀ tx ∈ l, tx.id ∈ u.transactions := by
        intro tx htx
        rw [← mem_heldIds, hheld]
        exact hknown tx (hb.mem hin htx).1
      have hnew := class_notMem_of_nodup hb.nodup
      obtain ⟨hheld', hround⟩ := updateRange_rescanned hstep hl hrange hfirst
      have hscan : ∀ v, Rescanned (heldIds u.transactions) u.selfOffsets range v ↔
          Rescanned (heldIds transactions) selfOffsets range v := by
        intro v
        rw [Rescanned, hheld, hsame range hnew, ← Rescanned]
      refine ⟨hheld'.trans hheld, updateRange_firstKnown hstep hfirst hrange, fun r hr => ?_,
        fun r v => ?_⟩
      · rw [List.map_append, List.mem_append, not_or] at hr
        rw [updateRange_lookup_ne hstep (by simpa using hr.2), hsame r hr.1]
      · rw [hround, hupd, hscan, List.map_append, List.mem_append, List.map_singleton,
          List.mem_singleton, or_and_right]
        refine or_congr Iff.rfl (and_congr_right fun heq => ?_)
        rw [heq])
  rw [hall.2.2.2]
  refine and_congr ⟨fun hr => ?_, fun hr => ?_⟩ Iff.rfl
  · obtain ⟨⟨range, l⟩, hin, rfl⟩ := List.mem_map.mp hr
    exact hb.exists_tx hin
  · obtain ⟨tx, htx, rfl⟩ := hr
    obtain ⟨l, hin, -⟩ := hb.exists_bucket htx
    exact List.mem_map.mpr ⟨_, hin, rfl⟩

end Batch

/-- The ids stored without a gap after an offset of a range end at the same
offset, of that range or of a later one. -/
def Settled (S : Set ℕ) (range offset : Nat) : Prop :=
  ∃ n, ScanEnd S (idOf range offset) (idOf (range + n) offset)

theorem ScanEnd.settled_iff {S : Set ℕ} {range offset key : Nat}
    (h : ScanEnd S (idOf range offset) key) (hlt : offset < singleBlobSize) :
    Settled S range offset ↔ key % singleBlobSize = offset := by
  constructor
  · intro hsettled
    obtain ⟨n, hend⟩ := hsettled
    rw [h.unique hend, idOf_mod hlt]
  · intro hmod
    have hkey : idOf (range + (key / singleBlobSize - range)) offset = key := by
      rw [Nat.add_sub_cancel' (le_div_of_idOf_le h.le), ← hmod, idOf_div_mod]
    refine ⟨key / singleBlobSize - range, ?_⟩
    rw [hkey]
    exact h

/-- The exact offset of a range that is not complete is settled: the next id is
not stored. -/
theorem StoreExact.settled {transactions : HashMap Nat Transaction}
    {selfOffsets : HashMap Nat Nat} (h : StoreExact transactions selfOffsets)
    (hlast : NoLast (heldIds transactions)) {r o : Nat} (ho : selfOffsets.lookup r = some o) :
    Settled (heldIds transactions) r o := by
  have hend := (h r o).mp ho
  have hlt : o + 1 < singleBlobSize := by
    have hheld := hend.held o le_rfl
    rw [idOf_zero_add] at hheld
    have hne := hlast _ hheld
    rw [idOf_mod hend.lt] at hne
    have hsize := hend.lt
    omega
  have hgap := hend.gap hlt
  rw [idOf_zero_add, idOf_add] at hgap
  exact ⟨0, le_rfl, fun id hgt hle => absurd hle (by simpa using hgt), hgap⟩

/-- A scan from an offset of the node comes to an end. -/
theorem StoreSound.exists_scanEnd {transactions : HashMap Nat Transaction}
    {selfOffsets : HashMap Nat Nat} (h : StoreSound transactions selfOffsets) {r o : Nat}
    (ho : selfOffsets.lookup r = some o) :
    ∃ key, ScanEnd (heldIds transactions) (idOf r o) key := by
  obtain ⟨key, hkey⟩ := scanForward_total h.accepted (h.advertisable ho).accepted le_rfl
  exact ⟨key, scanForward_ok hkey⟩

/-- A message that brings transactions. -/
def Event.IsDelivery {PeerId : Type} : Event PeerId → Prop
  | .inbox (.newTransaction _) => True
  | .inbox (.missingTx _) => True
  | _ => False

namespace App

section

variable {PeerId L : Type} [LinearOrder PeerId] [Linearizer L] {sha256 : Sha256}
  {a a' : App PeerId L} {event : Event PeerId} {out : List (Outbox PeerId)}

/-! ## Deliveries -/

theorem Step.firstKnown (h : Step sha256 a event a' out)
    (hf : FirstKnown a.transactions a.selfOffsets) :
    FirstKnown a'.transactions a'.selfOffsets := by
  obtain ⟨order, after, fuel, hb, hafter, hself, htx⟩ := h.store
  rw [hself, htx]
  exact updateSelfOffsets_firstKnown hb hafter hf

/-- A delivery stores its batch and records the updates. -/
theorem Step.delivery (h : Step sha256 a event a' out) (hmsg : event.IsDelivery) :
    ∃ order after fuel, IsBatch event.txs order ∧
      updateSelfOffsets fuel a.selfOffsets a.transactions order = .ok after ∧
      a' = a.afterBatch after := by
  cases h.effect with
  | consensus => exact absurd hmsg id
  | commit => exact absurd hmsg id
  | state => exact absurd hmsg id
  | batch hb hafter => exact ⟨_, _, _, hb, hafter, rfl⟩
  | quiet htxs => exact ⟨[], _, 0, htxs ▸ isBatch_nil, rfl, rfl⟩

theorem exists_newTransaction (sha256 : Sha256) {tx : Transaction}
    (hs : StoreSound a.transactions a.selfOffsets) (hacc : Accepted tx.id) :
    ∃ a', Step sha256 a (.inbox (.newTransaction tx)) a' [] := by
  obtain ⟨rangeMap, hmap, htotal⟩ :=
    handlesBatches hs [tx] fun tx' htx' => List.mem_singleton.mp htx' ▸ hacc
  obtain ⟨order, horder⟩ := Enumerates.exists_entries rangeMap
  obtain ⟨after, hafter⟩ := htotal order scanFuel horder le_rfl
  obtain ⟨a', hstep⟩ := handleNewTransaction_of_updated hafter
  exact ⟨a', .newTransaction hmap horder hstep⟩

/-- A delivery of accepted ids is handled. -/
theorem exists_delivery (sha256 : Sha256) (hmsg : event.IsDelivery)
    (hs : StoreSound a.transactions a.selfOffsets) (hacc : ∀ tx ∈ event.txs, Accepted tx.id) :
    ∃ a' out, Step sha256 a event a' out := by
  cases event with
  | inbox msg =>
      cases msg with
      | newTransaction tx =>
          have htx : Accepted tx.id := hacc tx (List.mem_singleton.mpr rfl)
          obtain ⟨a', hstep⟩ := exists_newTransaction sha256 hs htx
          exact ⟨a', [], hstep⟩
      | missingTx txs =>
          obtain ⟨a', hstep⟩ := exists_missingTx sha256 txs hs hacc
          exact ⟨a', [], hstep⟩
      | state => exact absurd hmsg id
      | nodes => exact absurd hmsg id
      | requestMissingTxs => exact absurd hmsg id
  | advertiseTick => exact absurd hmsg id
  | commitTick => exact absurd hmsg id
  | request => exact absurd hmsg id

/-! ## Deliveries of stored transactions -/

/-- What is delivered is what the node has: the last copies are the stored ones,
and the ranges are scanned to the offsets they have, which are also those that
the node has recorded for itself. -/
structure Harmless (a : App PeerId L) (txs : List Transaction) : Prop where
  copies : ∀ id tx, lastCopy txs id = some tx → a.transactions.lookup id = some tx
  settled : ∀ tx ∈ txs, ∀ o, a.selfOffsets.lookup (tx.id / singleBlobSize) = some o →
    Settled (heldIds a.transactions) (tx.id / singleBlobSize) o
  recorded : ∀ tx ∈ txs, ∀ o, a.selfOffsets.lookup (tx.id / singleBlobSize) = some o →
    peerOffset a.offsets (tx.id / singleBlobSize) a.peerId = some o

/-- Two states with the same transactions and the same offsets. -/
structure SameStore (a a' : App PeerId L) : Prop where
  transactions : a'.transactions = a.transactions
  selfOffsets : a'.selfOffsets = a.selfOffsets
  offsets : a'.offsets = a.offsets

/-- A delivery that changed nothing was harmless. -/
theorem Step.harmless (h : Step sha256 a event a' out) (hmsg : event.IsDelivery)
    (hs : StoreSound a.transactions a.selfOffsets) (hf : FirstKnown a.transactions a.selfOffsets)
    (hknown : ∀ tx ∈ event.txs, tx.id ∈ a.transactions) (hsame : SameStore a a') :
    a.Harmless event.txs := by
  obtain ⟨order, after, fuel, hb, hafter, rfl⟩ := h.delivery hmsg
  have htransactions : after.transactions = a.transactions := hsame.transactions
  have hself : after.selfOffsets = a.selfOffsets := hsame.selfOffsets
  have hoffsets : recordAll a.offsets a.peerId after.updates = a.offsets := hsame.offsets
  have hupd := updateSelfOffsets_updatesOf hb hafter
  -- a range of the batch that has an offset is among the updates, with that offset
  have hupdate : ∀ tx ∈ event.txs, ∀ o, a.selfOffsets.lookup (tx.id / singleBlobSize) = some o →
      ∃ key, ScanEnd (heldIds a.transactions) (idOf (tx.id / singleBlobSize) o) key ∧
        key % singleBlobSize = o ∧ (tx.id / singleBlobSize, o) ∈ after.updates := by
    intro tx htx o ho
    obtain ⟨key, hkey⟩ := hs.exists_scanEnd ho
    have hin := (updateSelfOffsets_rescanned hb hafter hf hknown _ _).mpr
      ⟨⟨tx, htx, rfl⟩, o, key, ho, hkey, rfl⟩
    have hmod := hupd.lookup hin
    rw [hself, ho, Option.some.injEq] at hmod
    rw [← hmod] at hin
    exact ⟨key, hkey, hmod.symm, hin⟩
  refine ⟨fun id tx hlast => ?_, fun tx htx o ho => ?_, fun tx htx o ho => ?_⟩
  · rw [← htransactions, updateSelfOffsets_lookup hb hafter, hlast]
    rfl
  · obtain ⟨key, hkey, hmod, -⟩ := hupdate tx htx o ho
    exact (hkey.settled_iff (hs.advertisable ho).lt).mpr hmod
  · obtain ⟨key, -, -, hin⟩ := hupdate tx htx o ho
    rw [← hoffsets]
    exact (peerOffset_recordAll_self hupd.nodup a.offsets a.peerId _).1 o hin

/-- A harmless delivery changes nothing. -/
theorem Harmless.sameStore (hharm : a.Harmless event.txs) (h : Step sha256 a event a' out)
    (hmsg : event.IsDelivery) (hs : StoreSound a.transactions a.selfOffsets)
    (hf : FirstKnown a.transactions a.selfOffsets)
    (hknown : ∀ tx ∈ event.txs, tx.id ∈ a.transactions) : SameStore a a' := by
  obtain ⟨order, after, fuel, hb, hafter, rfl⟩ := h.delivery hmsg
  have hupd := updateSelfOffsets_updatesOf hb hafter
  have hstay : ∀ r v, (r, v) ∈ after.updates →
      a.selfOffsets.lookup r = some v ∧ peerOffset a.offsets r a.peerId = some v := by
    intro r v hin
    obtain ⟨⟨tx, htx, rfl⟩, start, key, hstart, hkey, rfl⟩ :=
      (updateSelfOffsets_rescanned hb hafter hf hknown r v).mp hin
    have hmod := (hkey.settled_iff (hs.advertisable hstart).lt).mp
      (hharm.settled tx htx start hstart)
    rw [hmod]
    exact ⟨hstart, hharm.recorded tx htx start hstart⟩
  refine ⟨Finmap.ext_lookup fun id => ?_, Finmap.ext_lookup fun r => ?_, ?_⟩
  · show after.transactions.lookup id = a.transactions.lookup id
    rw [updateSelfOffsets_lookup hb hafter]
    cases hlast : lastCopy event.txs id with
    | none => rfl
    | some tx => exact (hharm.copies id tx hlast).symm
  · show after.selfOffsets.lookup r = a.selfOffsets.lookup r
    by_cases hr : r ∈ after.updates.map Prod.fst
    · obtain ⟨⟨r', v⟩, hin, rfl⟩ := List.mem_map.mp hr
      rw [hupd.lookup hin, (hstay _ _ hin).1]
    · exact hupd.unchanged hr
  · exact recordAll_of_recorded fun r v hin => (hstay r v hin).2

/-- Handling the event ends, and leaves the transactions and the offsets as they
are, in whatever order the ranges of its batch are visited. -/
def Unaffected (sha256 : Sha256) (a : App PeerId L) (event : Event PeerId) : Prop :=
  (∃ a' out, Step sha256 a event a' out) ∧
    ∀ a' out, Step sha256 a event a' out → SameStore a a'

end

section Runs

variable {PeerId : Type} [LinearOrder PeerId] {sha256 : Sha256} {peerId : PeerId}
  {params : Params} {events : List (Event PeerId)} {a : App PeerId LogLineriazer}

theorem Runs.firstKnown (h : Runs sha256 (App.new peerId params) events a) :
    FirstKnown a.transactions a.selfOffsets :=
  h.invariant (fun _ => True) (fun a => FirstKnown a.transactions a.selfOffsets)
    (fun _ hf hstep => hstep.firstKnown hf) (by simp)
    fun _ hin => absurd hin Finmap.notMem_empty

/-- A delivery of stored transactions changes nothing exactly when it is
harmless. -/
theorem unaffected_iff (h : Runs sha256 (App.new peerId params) events a)
    {event : Event PeerId} (hmsg : event.IsDelivery)
    (hknown : ∀ tx ∈ event.txs, tx.id ∈ a.transactions) :
    Unaffected sha256 a event ↔ a.Harmless event.txs := by
  have hs := h.storeSound
  constructor
  · intro hsame
    obtain ⟨⟨a', out, hstep⟩, hall⟩ := hsame
    exact hstep.harmless hmsg hs h.firstKnown hknown (hall a' out hstep)
  · intro hharm
    have hacc : ∀ tx ∈ event.txs, Accepted tx.id := fun tx htx => hs.accepted _ (hknown tx htx)
    exact ⟨exists_delivery sha256 hmsg hs hacc,
      fun a' out hstep => hharm.sameStore hstep hmsg hs h.firstKnown hknown⟩

/-- Where no last id of a range was received and no `State` message came in the
node's own name, only a copy that differs from the stored one does harm. -/
theorem harmless_iff_copies (h : Runs sha256 (App.new peerId params) events a)
    (hlast : NoLast (receivedIds events))
    (hself : ∀ state, .inbox (.state peerId state) ∉ events) (txs : List Transaction) :
    a.Harmless txs ↔
      ∀ id tx, lastCopy txs id = some tx → a.transactions.lookup id = some tx := by
  constructor
  · exact Harmless.copies
  · intro hcopies
    have hown := (h.ownEntries (new_ownEntries peerId params) hself).2
    refine ⟨hcopies, fun tx _ o ho => ?_, fun tx _ o ho => (hown _).trans ho⟩
    exact (h.storeExact hlast).settled (h.heldIds_eq ▸ hlast) ho

end Runs

/-! Transaction 0 is stored as pending, and comes again. -/

theorem pending_step (sha256 : Sha256) : ∃ b : App Nat LogLineriazer,
    Step sha256 (App.new 0 Params.default) (.inbox (.missingTx [⟨0, .pending⟩])) b [] ∧
      b.transactions.lookup 0 = some ⟨0, .pending⟩ :=
  ⟨_, @Step.missingTx _ _ _ _ _ _ _ _ _ [(0, [⟨0, .pending⟩])] 1 rfl (.singleton 0 _) rfl, rfl⟩

/-- Ids of two ranges, one of which comes twice. -/
def repeatedBatch : List Transaction :=
  [⟨0, .created⟩, ⟨singleBlobSize, .created⟩, ⟨0, .pending⟩]

theorem repeatedBatch_ids : ∀ tx ∈ repeatedBatch, tx.id = 0 ∨ tx.id = singleBlobSize := by
  decide

/-- The batch comes a second time. -/
theorem unaffected_iff_pending : ∃ b : App Nat LogLineriazer,
    b.transactions.lookup 0 = some ⟨0, .pending⟩ ∧
      Unaffected (fun _ => Vector.replicate 32 0) b (.inbox (.missingTx repeatedBatch)) := by
  let sha256 : Sha256 := fun _ => Vector.replicate 32 0
  have hacc : ∀ tx ∈ repeatedBatch, Accepted tx.id := by
    intro tx htx
    rcases repeatedBatch_ids tx htx with hid | hid
    · exact accepted_of_le (hid ▸ Nat.zero_le _)
    · exact accepted_of_le hid.le
  obtain ⟨b, hb⟩ := exists_missingTx (a := App.new 0 Params.default) sha256 repeatedBatch
    StoreSound.empty hacc
  have hrun := Runs.single hb
  have hlast : NoLast (receivedIds [(.inbox (.missingTx repeatedBatch) : Event Nat)]) := by
    rintro id ⟨event, hevent, tx, htx, rfl⟩
    rw [List.mem_singleton.mp hevent] at htx
    rcases repeatedBatch_ids tx htx with hid | hid
    · rw [hid]
      decide
    · rw [hid]
      decide
  -- what is stored are the last copies
  have hstored : ∀ id tx, lastCopy repeatedBatch id = some tx →
      b.transactions.lookup id = some tx := by
    intro id tx hcopy
    obtain ⟨order, after, fuel, hbatch, hafter, rfl⟩ := hb.delivery trivial
    exact (updateSelfOffsets_lookup hbatch hafter id).trans (by simp [Event.txs, hcopy])
  have hknown : ∀ tx ∈ repeatedBatch, tx.id ∈ b.transactions := fun tx htx =>
    hb.mem_transactions.mpr (Or.inr ⟨tx, htx, rfl⟩)
  have hmsg : Event.IsDelivery (.inbox (.missingTx repeatedBatch) : Event Nat) := trivial
  refine ⟨b, hstored 0 _ rfl, (unaffected_iff hrun hmsg hknown).mpr ?_⟩
  exact (harmless_iff_copies hrun hlast (by simp) repeatedBatch).mpr hstored

/-- A copy that was only created takes the place of the pending one. -/
theorem redelivery_rolls_back : ¬ ∀ (sha256 : Sha256) (peerId : Nat) (params : Params)
    (events : List (Event Nat)) (event : Event Nat) (a : App Nat LogLineriazer),
    Runs sha256 (App.new peerId params) events a → event.IsDelivery →
      (∀ tx ∈ event.txs, tx.id ∈ a.transactions) → Unaffected sha256 a event := by
  intro h
  obtain ⟨b, hb, hlook⟩ := pending_step fun _ => Vector.replicate 32 0
  have hsame := h _ 0 Params.default _ (.inbox (.newTransaction ⟨0, .created⟩)) b
    (Runs.single hb) trivial fun tx htx => by
      rw [List.mem_singleton.mp htx]
      exact HashMap.mem_iff_lookup.mpr ⟨_, hlook⟩
  obtain ⟨⟨c, out, hc⟩, hall⟩ := hsame
  obtain ⟨order, after, fuel, hbatch, hafter, rfl⟩ := hc.delivery trivial
  have hcopy := updateSelfOffsets_lookup hbatch hafter 0
  have hstored : after.transactions = b.transactions := (hall _ _ hc).transactions
  rw [hstored, hlook] at hcopy
  cases hcopy

end App

end Maroon
