import Maroon.App.App
import Maroon.Lib.Prefix

/-!
# Received transactions and the offset of a node

What `update_self_offsets` does to the two maps it borrows.  `ScanEnd` is what
the forward scan returns, and `updateRange_ok` lists the two ways in which a
round ends.  From it follow two invariants of a round.

`StoreSound` says that an offset never promises an id the node does not hold.
It survives every batch, also one where the scan runs over the end of a range:
such a range is complete, so any offset of it is held.

`StoreExact` says that the offset of a range is the end of the contiguous
prefix of that range.  A round keeps it unless the scan crosses into the next
range (`Crosses`).
-/

namespace Maroon

open Lib Outcome

/-- The ids of the stored transactions. -/
def heldIds (transactions : HashMap Nat Transaction) : Set ℕ := {id | id ∈ transactions}

@[simp] theorem mem_heldIds {transactions : HashMap Nat Transaction} {id : Nat} :
    id ∈ heldIds transactions ↔ id ∈ transactions := Iff.rfl

/-! ## Offsets of a range -/

/-- The offset after the one that a map has for a range, or 0. -/
def nextOffset (offsets : HashMap Nat Nat) (range : Nat) : Nat :=
  match offsets.lookup range with
  | some offset => offset + 1
  | none => 0

theorem nextOffset_some {offsets : HashMap Nat Nat} {range offset : Nat}
    (h : offsets.lookup range = some offset) : nextOffset offsets range = offset + 1 := by
  simp only [nextOffset, h]

theorem nextOffset_none {offsets : HashMap Nat Nat} {range : Nat}
    (h : offsets.lookup range = none) : nextOffset offsets range = 0 := by
  simp only [nextOffset, h]

theorem nextOffset_le_iff {offsets : HashMap Nat Nat} {range v : Nat} :
    nextOffset offsets range ≤ v ↔ ∀ offset, offsets.lookup range = some offset → offset < v := by
  cases hlook : offsets.lookup range with
  | none => simp [nextOffset_none hlook]
  | some offset =>
      rw [nextOffset_some hlook]
      refine ⟨fun hle own hown => ?_, fun h => h offset rfl⟩
      cases hown
      exact hle

/-! ## Batches by range -/

/-- The transactions of a batch that belong to a range, in the order of the
batch. -/
def batchOf (txs : List Transaction) (range : Nat) : List Transaction :=
  txs.filter fun tx => tx.id / singleBlobSize = range

theorem mem_batchOf {txs : List Transaction} {range : Nat} {tx : Transaction} :
    tx ∈ batchOf txs range ↔ tx ∈ txs ∧ tx.id / singleBlobSize = range := by
  simp [batchOf]

/-- The bucket that a batch puts under a range. -/
def bucketOf (txs : List Transaction) (range : Nat) : Option (List Transaction) :=
  if batchOf txs range = [] then none else some (batchOf txs range)

theorem bucketOf_eq_some {txs l : List Transaction} {range : Nat} :
    bucketOf txs range = some l ↔ l = batchOf txs range ∧ l ≠ [] := by
  by_cases h : batchOf txs range = []
  · simp only [bucketOf, h, if_true, reduceCtorEq, false_iff, not_and, not_not]
    exact id
  · simp only [bucketOf, h, if_false, Option.some.injEq]
    constructor
    · rintro rfl
      exact ⟨rfl, h⟩
    · exact fun hl => hl.1.symm

theorem bucketOf_append_self {txs : List Transaction} {tx : Transaction} :
    bucketOf (txs ++ [tx]) (tx.id / singleBlobSize) =
      some (batchOf txs (tx.id / singleBlobSize) ++ [tx]) := by
  have hbatch : batchOf (txs ++ [tx]) (tx.id / singleBlobSize) =
      batchOf txs (tx.id / singleBlobSize) ++ [tx] := by
    simp [batchOf]
  rw [bucketOf, hbatch, if_neg (by simp)]

theorem bucketOf_append_ne {txs : List Transaction} {tx : Transaction} {range : Nat}
    (h : range ≠ tx.id / singleBlobSize) : bucketOf (txs ++ [tx]) range = bucketOf txs range := by
  have hbatch : batchOf (txs ++ [tx]) range = batchOf txs range := by
    simp [batchOf, Ne.symm h]
  rw [bucketOf, bucketOf, hbatch]

/-- One more transaction in the map. -/
private theorem addToRangeMap_spec {txs : List Transaction} {tx : Transaction}
    {rangeMap : HashMap Nat (List Transaction)} (hacc : Accepted tx.id)
    (h : ∀ range, rangeMap.lookup range = bucketOf txs range) :
    ∃ rangeMap', addToRangeMap rangeMap tx = .ok rangeMap' ∧
      ∀ range, rangeMap'.lookup range = bucketOf (txs ++ [tx]) range := by
  have hself := h (tx.id / singleBlobSize)
  rw [addToRangeMap, rangeFromUniqueBlobId_ok.mpr ⟨accepted_iff.mp hacc, rfl⟩, ok_bind]
  cases hb : rangeMap.lookup (tx.id / singleBlobSize) with
  | some bucket =>
      refine ⟨_, rfl, fun range => ?_⟩
      rw [HashMap.lookup_insert_eq]
      split
      next heq =>
        rw [heq, bucketOf_append_self]
        rw [hb] at hself
        rw [(bucketOf_eq_some.mp hself.symm).1]
      next hne => rw [h, bucketOf_append_ne hne]
  | none =>
      refine ⟨_, rfl, fun range => ?_⟩
      rw [HashMap.lookup_insert_eq]
      split
      next heq =>
        rw [heq, bucketOf_append_self]
        rw [hb, bucketOf] at hself
        split at hself
        next hempty => simp [hempty]
        next => cases hself
      next hne => rw [h, bucketOf_append_ne hne]

/-- A batch that can be grouped by range has accepted ids only, and each
transaction is in the bucket of its range. -/
theorem txsToRangeTxMap_ok {txs : List Transaction} {rangeMap : HashMap Nat (List Transaction)}
    (h : txsToRangeTxMap txs = .ok rangeMap) :
    (∀ tx ∈ txs, Accepted tx.id) ∧ ∀ range, rangeMap.lookup range = bucketOf txs range := by
  refine foldlM_ok (fun done rangeMap =>
    (∀ tx ∈ done, Accepted tx.id) ∧ ∀ range, rangeMap.lookup range = bucketOf done range)
    h ⟨by simp, by simp [bucketOf, batchOf]⟩ ?_
  rintro done tx m m' ⟨hacc, hm⟩ hstep
  obtain ⟨range, hr, -⟩ := bind_eq_ok.mp hstep
  have htx : Accepted tx.id := ⟨range, hr⟩
  obtain ⟨m'', hm'', hlook⟩ := addToRangeMap_spec htx hm
  cases hm''.symm.trans hstep
  refine ⟨fun tx' htx' => ?_, hlook⟩
  rcases List.mem_append.mp htx' with hin | hin
  · exact hacc tx' hin
  · exact List.mem_singleton.mp hin ▸ htx

theorem txsToRangeTxMap_total {txs : List Transaction} (h : ∀ tx ∈ txs, Accepted tx.id) :
    ∃ rangeMap, txsToRangeTxMap txs = .ok rangeMap := by
  have hround : ∀ tx ∈ txs, ∀ m : HashMap Nat (List Transaction), True →
      ∃ m', addToRangeMap m tx = .ok m' ∧ True := by
    intro tx htx m _
    rw [addToRangeMap, rangeFromUniqueBlobId_ok.mpr ⟨accepted_iff.mp (h tx htx), rfl⟩, ok_bind]
    cases m.lookup (tx.id / singleBlobSize) with
    | some bucket => exact ⟨_, rfl, trivial⟩
    | none => exact ⟨_, rfl, trivial⟩
  obtain ⟨rangeMap, hm, -⟩ := foldlM_total (fun _ => True) hround trivial
  exact ⟨rangeMap, hm⟩

/-! ## Insertion -/

/-- The map after a list of transactions was inserted. -/
def insertAll (transactions : HashMap Nat Transaction) (txs : List Transaction) :
    HashMap Nat Transaction :=
  txs.foldl (fun transactions tx => transactions.insert tx.id tx) transactions

theorem mem_insertAll {transactions : HashMap Nat Transaction} {txs : List Transaction}
    {id : Nat} : id ∈ insertAll transactions txs ↔ id ∈ transactions ∨ ∃ tx ∈ txs, tx.id = id := by
  induction txs generalizing transactions with
  | nil => simp [insertAll]
  | cons tx txs ih =>
      rw [insertAll, List.foldl_cons, ← insertAll, ih, Finmap.mem_insert, List.exists_mem_cons_iff]
      constructor
      · rintro ((rfl | hin) | hin)
        · exact Or.inr (Or.inl rfl)
        · exact Or.inl hin
        · exact Or.inr (Or.inr hin)
      · rintro (hin | rfl | hin)
        · exact Or.inl (Or.inr hin)
        · exact Or.inl (Or.inl rfl)
        · exact Or.inr hin

/-- Every transaction is stored under its own id. -/
def Keyed (transactions : HashMap Nat Transaction) : Prop :=
  ∀ (id : Nat) (tx : Transaction), transactions.lookup id = some tx → tx.id = id

theorem Keyed.insertAll {transactions : HashMap Nat Transaction} (h : Keyed transactions)
    (txs : List Transaction) : Keyed (insertAll transactions txs) := by
  induction txs generalizing transactions with
  | nil => exact h
  | cons tx txs ih =>
      have hinsert : Keyed (transactions.insert tx.id tx) := by
        intro id tx' hlook
        rcases HashMap.lookup_insert_some.mp hlook with ⟨rfl, rfl⟩ | ⟨-, hlook⟩
        · rfl
        · exact h id tx' hlook
      exact ih hinsert

theorem insertTx_ok {self self' : HashMap Nat Transaction × Bool} {tx : Transaction} :
    insertTx self tx = .ok self' ↔ Accepted tx.id ∧
      self' = (self.1.insert tx.id tx, self.2 || tx.id % singleBlobSize == 0) := by
  rw [insertTx, bind_eq_ok]
  constructor
  · intro h
    obtain ⟨p, hp, hs⟩ := h
    obtain ⟨hacc, rfl⟩ := rangeOffsetFromUniqueBlobId_ok.mp hp
    exact ⟨hacc, (Outcome.ok.inj hs).symm⟩
  · intro h
    obtain ⟨hacc, rfl⟩ := h
    exact ⟨_, rangeOffsetFromUniqueBlobId_ok.mpr ⟨hacc, rfl⟩, rfl⟩

/-- The inner loop stores the transactions and notes whether one of them has
offset 0. -/
theorem insertTxs_ok {transactions : HashMap Nat Transaction} {txs : List Transaction}
    {result : HashMap Nat Transaction × Bool} :
    insertTxs transactions txs = .ok result ↔ (∀ tx ∈ txs, Accepted tx.id) ∧
      result = (insertAll transactions txs, txs.any fun tx => tx.id % singleBlobSize == 0) := by
  have key : ∀ (txs : List Transaction) (self : HashMap Nat Transaction × Bool),
      txs.foldlM insertTx self = .ok result ↔ (∀ tx ∈ txs, Accepted tx.id) ∧
        result = (insertAll self.1 txs,
          self.2 || txs.any fun tx => tx.id % singleBlobSize == 0) := by
    intro txs
    induction txs with
    | nil => simp [insertAll, eq_comm]
    | cons tx txs ih =>
        intro self
        rw [List.foldlM_cons, bind_eq_ok, List.forall_mem_cons, List.any_cons, insertAll,
          List.foldl_cons, ← insertAll, ← Bool.or_assoc, and_assoc]
        constructor
        · intro h
          obtain ⟨self', hself, hrest⟩ := h
          obtain ⟨hacc, rfl⟩ := insertTx_ok.mp hself
          exact ⟨hacc, (ih _).mp hrest⟩
        · intro h
          obtain ⟨hacc, hrest⟩ := h
          exact ⟨_, insertTx_ok.mpr ⟨hacc, rfl⟩, (ih _).mpr hrest⟩
  simpa [insertTxs] using key txs (transactions, false)

/-! ## The forward scan -/

/-- `key` is the last id that `S` holds without a gap after `start`. -/
structure ScanEnd (S : Set ℕ) (start key : Nat) : Prop where
  le : start ≤ key
  held : ∀ id, start < id → id ≤ key → id ∈ S
  next : key + 1 ∉ S

theorem ScanEnd.unique {S : Set ℕ} {start key key' : Nat} (h : ScanEnd S start key)
    (h' : ScanEnd S start key') : key = key' := by
  have hle : ∀ {k k' : Nat}, ScanEnd S start k → ScanEnd S start k' → k ≤ k' := by
    intro k k' hk hk'
    by_contra hgt
    exact hk'.next (hk.held (k' + 1) (by have := hk'.le; omega) (by omega))
  exact le_antisymm (hle h h') (hle h' h)

/-- A scan that returns has found the end. -/
theorem scanForward_ok {fuel start key : Nat} {transactions : HashMap Nat Transaction}
    (h : scanForward fuel transactions start = .ok key) :
    ScanEnd (heldIds transactions) start key := by
  obtain ⟨⟨hle, hheld⟩, hc⟩ := whileLoop_ok
    (fun key => start ≤ key ∧ ∀ id, start < id → id ≤ key → id ∈ heldIds transactions)
    (by
      rintro k k' ⟨hle, hheld⟩ hc hb
      obtain ⟨next, hn, hmem⟩ := bind_eq_ok.mp hc
      obtain ⟨-, rfl⟩ := u64Add_ok.mp hn
      obtain ⟨-, rfl⟩ := u64Add_ok.mp hb
      refine ⟨by omega, fun id hlt hid => ?_⟩
      cases Nat.lt_or_eq_of_le hid with
      | inl hid => exact hheld id hlt (by omega)
      | inr heq =>
          rw [heq]
          simpa using hmem)
    h ⟨le_rfl, fun id hlt hid => absurd hid (by omega)⟩
  obtain ⟨next, hn, hmem⟩ := bind_eq_ok.mp hc
  obtain ⟨-, rfl⟩ := u64Add_ok.mp hn
  exact ⟨hle, hheld, by simpa using hmem⟩

/-- Enough fuel for every scan over accepted ids. -/
def scanFuel : Nat := maxBlockIndex * singleBlobSize + 1

/-- The scan terminates: it only moves to ids that are stored, and these are
accepted. -/
theorem scanForward_total {fuel start : Nat} {transactions : HashMap Nat Transaction}
    (hacc : ∀ id ∈ transactions, Accepted id) (hstart : Accepted start)
    (hfuel : scanFuel ≤ fuel) : ∃ key, scanForward fuel transactions start = .ok key := by
  refine whileLoop_total Accepted (fun key => maxBlockIndex * singleBlobSize - key) ?_ ?_
    hstart (show maxBlockIndex * singleBlobSize - start < fuel by
      rw [scanFuel] at hfuel
      omega)
  · intro key hkey
    exact ⟨_, by rw [u64Add_ok.mpr ⟨hkey.lt, rfl⟩]; rfl⟩
  · intro key hkey hc
    rw [u64Add_ok.mpr ⟨hkey.lt, rfl⟩] at hc
    have hnext : Accepted (key + 1) := hacc _ (of_decide_eq_true (Outcome.ok.inj hc))
    refine ⟨key + 1, u64Add_ok.mpr ⟨hkey.lt, rfl⟩, hnext, ?_⟩
    have := accepted_iff.mp hnext
    omega

/-! ## One round of `update_self_offsets` -/

/-- How a round that scans ends. -/
structure Advanced (before after : OffsetUpdate) (range start key : Nat) : Prop where
  scan : ScanEnd (heldIds after.transactions) (idOf range start) key
  accepted : Accepted key
  selfOffsets : after.selfOffsets = before.selfOffsets.insert range (key % singleBlobSize)
  updates : after.updates = before.updates ++ [(range, key % singleBlobSize)]

theorem advanceOffset_ok {fuel range start : Nat} {self self' : OffsetUpdate}
    (h : advanceOffset fuel self range start = .ok self') :
    self'.transactions = self.transactions ∧ ∃ key, Advanced self self' range start key := by
  obtain ⟨first, hfirst, h⟩ := bind_eq_ok.mp h
  obtain ⟨key, hscan, h⟩ := bind_eq_ok.mp h
  obtain ⟨p, hp, h⟩ := bind_eq_ok.mp h
  obtain ⟨-, rfl⟩ := uniqueBlobIdFromRangeAndOffset_ok.mp hfirst
  obtain ⟨hacc, rfl⟩ := rangeOffsetFromUniqueBlobId_ok.mp hp
  cases h
  exact ⟨rfl, key, scanForward_ok hscan, hacc, rfl, rfl⟩

theorem advanceOffset_total {fuel range start : Nat} {self : OffsetUpdate}
    (hacc : ∀ id ∈ self.transactions, Accepted id) (hstart : Advertisable range start)
    (hfuel : scanFuel ≤ fuel) : ∃ self', advanceOffset fuel self range start = .ok self' := by
  obtain ⟨key, hscan⟩ := scanForward_total hacc hstart.accepted hfuel
  have hend := scanForward_ok hscan
  have hkey : Accepted key := by
    cases Nat.lt_or_eq_of_le hend.le with
    | inl hlt => exact hacc _ (hend.held key hlt le_rfl)
    | inr heq => exact heq ▸ hstart.accepted
  rw [advanceOffset, uniqueBlobIdFromRangeAndOffset_ok.mpr ⟨hstart.idOf_lt, rfl⟩, ok_bind,
    hscan, ok_bind, rangeOffsetFromUniqueBlobId_ok.mpr ⟨hkey, rfl⟩]
  exact ⟨_, rfl⟩

/-- The offset a round starts to scan from. -/
def StartsAt (self : OffsetUpdate) (range : Nat) (txs : List Transaction) (start : Nat) : Prop :=
  self.selfOffsets.lookup range = some start ∨
    self.selfOffsets.lookup range = none ∧ start = 0 ∧
      ∃ tx ∈ txs, tx.id % singleBlobSize = 0

/-- A round stores its transactions.  Then it scans, unless the range has no
offset yet and offset 0 is not in the batch. -/
theorem updateRange_ok {fuel range : Nat} {txs : List Transaction} {self self' : OffsetUpdate}
    (h : updateRange fuel self (range, txs) = .ok self') :
    (∀ tx ∈ txs, Accepted tx.id) ∧ self'.transactions = insertAll self.transactions txs ∧
      ((self'.selfOffsets = self.selfOffsets ∧ self'.updates = self.updates ∧
          self.selfOffsets.lookup range = none ∧ ∀ tx ∈ txs, tx.id % singleBlobSize ≠ 0) ∨
        ∃ start key, StartsAt self range txs start ∧ Advanced self self' range start key) := by
  obtain ⟨⟨transactions, has0Tx⟩, hins, h⟩ := bind_eq_ok.mp h
  obtain ⟨hacc, heq⟩ := insertTxs_ok.mp hins
  cases heq
  refine ⟨hacc, ?_⟩
  cases hlook : self.selfOffsets.lookup range with
  | some existing =>
      simp only [hlook] at h
      obtain ⟨htxs, key, hadv⟩ := advanceOffset_ok h
      exact ⟨htxs, Or.inr ⟨existing, key, Or.inl hlook,
        ⟨hadv.scan, hadv.accepted, hadv.selfOffsets, hadv.updates⟩⟩⟩
  | none =>
      simp only [hlook] at h
      split at h
      next hzero =>
        obtain ⟨htxs, key, hadv⟩ := advanceOffset_ok h
        refine ⟨htxs, Or.inr ⟨0, key, Or.inr ⟨hlook, rfl, ?_⟩,
          ⟨hadv.scan, hadv.accepted, ?_, hadv.updates⟩⟩⟩
        · simpa using hzero
        · rw [hadv.selfOffsets, Finmap.insert_insert]
      next hzero =>
        cases h
        exact ⟨rfl, Or.inl ⟨rfl, rfl, rfl, by simpa using hzero⟩⟩

theorem updateRange_total {fuel range : Nat} {txs : List Transaction} {self : OffsetUpdate}
    (hacc : ∀ id ∈ self.transactions, Accepted id)
    (hself : ∀ {range offset}, self.selfOffsets.lookup range = some offset →
      Advertisable range offset)
    (htxs : ∀ tx ∈ txs, Accepted tx.id ∧ tx.id / singleBlobSize = range)
    (hfuel : scanFuel ≤ fuel) : ∃ self', updateRange fuel self (range, txs) = .ok self' := by
  have hins : insertTxs self.transactions txs = .ok (insertAll self.transactions txs,
      txs.any fun tx => tx.id % singleBlobSize == 0) :=
    insertTxs_ok.mpr ⟨fun tx htx => (htxs tx htx).1, rfl⟩
  have hacc' : ∀ id ∈ insertAll self.transactions txs, Accepted id := by
    intro id hid
    rcases mem_insertAll.mp hid with hin | ⟨tx, htx, rfl⟩
    · exact hacc id hin
    · exact (htxs tx htx).1
  rw [updateRange]
  simp only [hins, ok_bind]
  cases hlook : self.selfOffsets.lookup range with
  | some existing => exact advanceOffset_total hacc' (hself hlook) hfuel
  | none =>
      simp only
      split
      next hzero =>
        obtain ⟨tx, htx, hmod⟩ := List.any_eq_true.mp hzero
        refine advanceOffset_total hacc' ⟨singleBlobSize_pos, ?_⟩ hfuel
        have hid : idOf range 0 = tx.id := by
          rw [← (htxs tx htx).2, ← eq_of_beq hmod, idOf_div_mod]
        exact hid ▸ (htxs tx htx).1
      next => exact ⟨_, rfl⟩

/-! ## Offsets never promise too much -/

/-- Every offset of the node is that of an accepted id, and all ids up to it
are stored. -/
structure StoreSound (transactions : HashMap Nat Transaction) (selfOffsets : HashMap Nat Nat) :
    Prop where
  accepted : ∀ id ∈ transactions, Accepted id
  keyed : Keyed transactions
  advertisable : ∀ {range offset}, selfOffsets.lookup range = some offset →
    Advertisable range offset
  held : ∀ {range offset}, selfOffsets.lookup range = some offset →
    Held (heldIds transactions) (idOf range 0) offset

theorem StoreSound.empty : StoreSound ∅ ∅ where
  accepted _ hid := absurd hid Finmap.notMem_empty
  keyed := by simp [Keyed]
  advertisable := by simp
  held := by simp

/-- A number from an id of a range on is in that range or in a later one. -/
theorem le_div_of_idOf_le {range start key : Nat} (h : idOf range start ≤ key) :
    range ≤ key / singleBlobSize := by
  rw [Nat.le_div_iff_mul_le singleBlobSize_pos]
  exact (Nat.le_add_right _ _).trans h

/-- The offset that is read off the end of a scan is not past that end. -/
theorem idOf_mod_le {range start key : Nat} (h : idOf range start ≤ key) :
    idOf range (key % singleBlobSize) ≤ key := by
  have hdiv := le_div_of_idOf_le h
  calc idOf range (key % singleBlobSize)
      ≤ idOf (key / singleBlobSize) (key % singleBlobSize) :=
        Nat.add_le_add_right (Nat.mul_le_mul_right _ hdiv) _
    _ = key := idOf_div_mod key

/-- What is known where a round starts to scan. -/
private theorem StartsAt.held {range start : Nat} {txs : List Transaction}
    {self : OffsetUpdate} (h : StartsAt self range txs start)
    (hs : StoreSound self.transactions self.selfOffsets)
    (htxs : ∀ tx ∈ txs, tx.id / singleBlobSize = range) :
    Held (heldIds (insertAll self.transactions txs)) (idOf range 0) start := by
  rcases h with hlook | ⟨-, rfl, tx, htx, hmod⟩
  · exact (hs.held hlook).mono fun id hid => mem_insertAll.mpr (Or.inl hid)
  · refine Held.zero_iff.mpr (mem_insertAll.mpr (Or.inr ⟨tx, htx, ?_⟩))
    rw [← htxs tx htx, ← hmod, idOf_div_mod]

/-- A scan that starts in a prefix that is held extends it. -/
private theorem ScanEnd.held_of_le {S : Set ℕ} {range start key offset : Nat}
    (h : ScanEnd S (idOf range start) key) (hstart : Held S (idOf range 0) start)
    (hle : idOf range offset ≤ key) : Held S (idOf range 0) offset := by
  intro i hi
  cases Nat.lt_or_ge start i with
  | inl hlt =>
      rw [idOf_zero_add]
      refine h.held _ ?_ ?_
      · simp only [idOf]
        omega
      · refine le_trans ?_ hle
        simp only [idOf]
        omega
  | inr hge => exact hstart i hge

theorem updateRange_sound {fuel range : Nat} {txs : List Transaction}
    {self self' : OffsetUpdate} (h : updateRange fuel self (range, txs) = .ok self')
    (hs : StoreSound self.transactions self.selfOffsets)
    (htxs : ∀ tx ∈ txs, tx.id / singleBlobSize = range) :
    StoreSound self'.transactions self'.selfOffsets := by
  obtain ⟨hacc, heq, hend⟩ := updateRange_ok h
  have hsub : heldIds self.transactions ⊆ heldIds self'.transactions := by
    intro id hid
    rw [heq]
    exact mem_insertAll.mpr (Or.inl hid)
  have hold : ∀ {range offset}, self.selfOffsets.lookup range = some offset →
      Held (heldIds self'.transactions) (idOf range 0) offset :=
    fun hlook => (hs.held hlook).mono hsub
  have haccepted : ∀ id ∈ self'.transactions, Accepted id := by
    intro id hid
    rw [heq] at hid
    rcases mem_insertAll.mp hid with hin | ⟨tx, htx, rfl⟩
    · exact hs.accepted id hin
    · exact hacc tx htx
  have hkeyed : Keyed self'.transactions := heq ▸ hs.keyed.insertAll txs
  rcases hend with ⟨hself, -, -, -⟩ | ⟨start, key, hstart, hadv⟩
  · rw [hself]
    exact ⟨haccepted, hkeyed, hs.advertisable, hold⟩
  · have hle : idOf range (key % singleBlobSize) ≤ key := idOf_mod_le hadv.scan.le
    have hheld := hstart.held hs htxs
    rw [← heq] at hheld
    refine ⟨haccepted, hkeyed, ?_, ?_⟩
    · intro range' offset hlook
      rw [hadv.selfOffsets] at hlook
      rcases HashMap.lookup_insert_some.mp hlook with ⟨rfl, rfl⟩ | ⟨-, hlook⟩
      · exact ⟨Nat.mod_lt _ singleBlobSize_pos, hadv.accepted.of_le hle⟩
      · exact hs.advertisable hlook
    · intro range' offset hlook
      rw [hadv.selfOffsets] at hlook
      rcases HashMap.lookup_insert_some.mp hlook with ⟨rfl, rfl⟩ | ⟨-, hlook⟩
      · exact hadv.scan.held_of_le hheld hle
      · exact hold hlook

/-! ## Offsets are exact while no scan crosses -/

/-- The offset of a range is the end of its contiguous prefix. -/
def StoreExact (transactions : HashMap Nat Transaction) (selfOffsets : HashMap Nat Nat) : Prop :=
  ∀ range offset, selfOffsets.lookup range = some offset ↔
    IsPrefixEnd (heldIds transactions) (idOf range 0) singleBlobSize offset

/-- A scan of the range runs on into the next one: the range is complete and
the first id of the next range is there. -/
def Crosses (S : Set ℕ) (range : Nat) : Prop :=
  Held S (idOf range 0) (singleBlobSize - 1) ∧ idOf (range + 1) 0 ∈ S

theorem Crosses.mono {S S' : Set ℕ} {range : Nat} (h : Crosses S range) (hS : S ⊆ S') :
    Crosses S' range :=
  ⟨h.1.mono hS, hS h.2⟩

theorem StoreExact.empty : StoreExact ∅ ∅ := by
  intro range offset
  simp only [Finmap.lookup_empty, reduceCtorEq, false_iff]
  intro h
  exact Finmap.notMem_empty (mem_heldIds.mp h.held.base_mem)

/-- A scan that does not cross ends in its own range. -/
theorem ScanEnd.div_eq {S : Set ℕ} {range start key : Nat}
    (h : ScanEnd S (idOf range start) key) (hstart : Held S (idOf range 0) start)
    (hlt : start < singleBlobSize) (hcross : ¬ Crosses S range) :
    key / singleBlobSize = range := by
  by_contra hne
  have hdiv := le_div_of_idOf_le h.le
  have hnext : idOf (range + 1) 0 ≤ key := by
    have hmul := (Nat.le_div_iff_mul_le singleBlobSize_pos).mp
      (show range + 1 ≤ key / singleBlobSize by omega)
    simpa [idOf] using hmul
  refine hcross ⟨h.held_of_le hstart ?_, h.held _ ?_ hnext⟩
  · refine le_trans ?_ hnext
    simp only [idOf, singleBlobSize]
    omega
  · simp only [idOf, singleBlobSize] at *
    omega

/-- A scan that does not cross finds the end of the prefix. -/
theorem ScanEnd.isPrefixEnd {S : Set ℕ} {range start key : Nat}
    (h : ScanEnd S (idOf range start) key) (hstart : Held S (idOf range 0) start)
    (hlt : start < singleBlobSize) (hcross : ¬ Crosses S range) :
    IsPrefixEnd S (idOf range 0) singleBlobSize (key % singleBlobSize) := by
  have hkey : idOf range (key % singleBlobSize) = key := by
    rw [← h.div_eq hstart hlt hcross, idOf_div_mod]
  refine ⟨Nat.mod_lt _ singleBlobSize_pos, h.held_of_le hstart hkey.le, fun _ => ?_⟩
  rw [idOf_zero_add, idOf_add, hkey]
  exact h.next

/-- A batch of one range leaves every other range as it is. -/
theorem mem_insertAll_of_ne {transactions : HashMap Nat Transaction} {txs : List Transaction}
    {range range' i : Nat} (htxs : ∀ tx ∈ txs, tx.id / singleBlobSize = range)
    (hne : range' ≠ range) (hi : i < singleBlobSize) :
    idOf range' 0 + i ∈ insertAll transactions txs ↔ idOf range' 0 + i ∈ transactions := by
  rw [mem_insertAll, or_iff_left]
  intro h
  obtain ⟨tx, htx, hid⟩ := h
  refine hne ?_
  rw [← htxs tx htx, hid, idOf_zero_add, idOf_div hi]

theorem updateRange_exact {fuel range : Nat} {txs : List Transaction}
    {self self' : OffsetUpdate} (h : updateRange fuel self (range, txs) = .ok self')
    (hs : StoreSound self.transactions self.selfOffsets)
    (he : StoreExact self.transactions self.selfOffsets)
    (htxs : ∀ tx ∈ txs, tx.id / singleBlobSize = range)
    (hcross : ¬ Crosses (heldIds self'.transactions) range) :
    StoreExact self'.transactions self'.selfOffsets := by
  obtain ⟨hacc, heq, hend⟩ := updateRange_ok h
  have hother : ∀ {range'}, range' ≠ range → ∀ offset,
      self.selfOffsets.lookup range' = some offset ↔
        IsPrefixEnd (heldIds self'.transactions) (idOf range' 0) singleBlobSize offset := by
    intro range' hne offset
    rw [he, heq]
    have hiff : ∀ i < singleBlobSize, idOf range' 0 + i ∈ heldIds self.transactions ↔
        idOf range' 0 + i ∈ heldIds (insertAll self.transactions txs) :=
      fun i hi => (mem_insertAll_of_ne htxs hne hi).symm
    exact ⟨fun hp => hp.congr hiff, fun hp => hp.congr fun i hi => (hiff i hi).symm⟩
  intro range' offset
  rcases hend with ⟨hself, -, hnone, hzero⟩ | ⟨start, key, hstart, hadv⟩
  · rw [hself]
    by_cases hr : range' = range
    · subst hr
      simp only [hnone, reduceCtorEq, false_iff]
      intro hp
      have hbase := hp.held.base_mem
      rw [heq, mem_heldIds, mem_insertAll] at hbase
      rcases hbase with hin | ⟨tx, htx, hid⟩
      · obtain ⟨o, ho⟩ := IsPrefixEnd.exists_of_mem singleBlobSize_pos (mem_heldIds.mpr hin)
        rw [← he, hnone] at ho
        cases ho
      · exact hzero tx htx (by rw [hid, idOf_mod singleBlobSize_pos])
    · exact hother hr offset
  · rw [hadv.selfOffsets]
    by_cases hr : range' = range
    · subst hr
      rw [Finmap.lookup_insert, Option.some.injEq]
      have hheld := hstart.held hs htxs
      rw [← heq] at hheld
      have hlt : start < singleBlobSize := by
        rcases hstart with hlook | ⟨-, rfl, -⟩
        · exact (hs.advertisable hlook).lt
        · exact singleBlobSize_pos
      have hp := hadv.scan.isPrefixEnd hheld hlt hcross
      exact ⟨fun heq' => heq' ▸ hp, fun hp' => hp.unique hp'⟩
    · rw [Finmap.lookup_insert_of_ne _ hr]
      exact hother hr offset

/-! ## Whole batches -/

/-- `order` shows a batch grouped by range. -/
structure IsBatch (txs : List Transaction) (order : List (Nat × List Transaction)) : Prop where
  accepted : ∀ tx ∈ txs, Accepted tx.id
  nodup : (order.map Prod.fst).Nodup
  mem_iff : ∀ {range l}, (range, l) ∈ order ↔ bucketOf txs range = some l

theorem IsBatch.of_rangeMap {txs : List Transaction} {rangeMap : HashMap Nat (List Transaction)}
    {order : List (Nat × List Transaction)} (h : txsToRangeTxMap txs = .ok rangeMap)
    (horder : Enumerates order rangeMap) : IsBatch txs order where
  accepted := (txsToRangeTxMap_ok h).1
  nodup := horder.nodup
  mem_iff := by
    intro range l
    rw [horder.mem_iff, (txsToRangeTxMap_ok h).2]

namespace IsBatch

variable {txs : List Transaction} {order : List (Nat × List Transaction)}

theorem mem (h : IsBatch txs order) {range : Nat} {l : List Transaction}
    (hin : (range, l) ∈ order) {tx : Transaction} (htx : tx ∈ l) :
    tx ∈ txs ∧ tx.id / singleBlobSize = range := by
  rw [(bucketOf_eq_some.mp (h.mem_iff.mp hin)).1] at htx
  exact mem_batchOf.mp htx

theorem exists_bucket (h : IsBatch txs order) {tx : Transaction} (htx : tx ∈ txs) :
    ∃ l, (tx.id / singleBlobSize, l) ∈ order ∧ tx ∈ l := by
  have hmem : tx ∈ batchOf txs (tx.id / singleBlobSize) := mem_batchOf.mpr ⟨htx, rfl⟩
  exact ⟨_, h.mem_iff.mpr (bucketOf_eq_some.mpr ⟨rfl, List.ne_nil_of_mem hmem⟩), hmem⟩

/-- The buckets hold the transactions of the batch. -/
theorem mem_flatMap (h : IsBatch txs order) {tx : Transaction} :
    tx ∈ order.flatMap Prod.snd ↔ tx ∈ txs := by
  rw [List.mem_flatMap]
  constructor
  · intro hin
    obtain ⟨⟨range, l⟩, hentry, htx⟩ := hin
    exact (h.mem hentry htx).1
  · intro htx
    obtain ⟨l, hentry, hl⟩ := h.exists_bucket htx
    exact ⟨_, hentry, hl⟩

/-- The ranges of a batch are those of its transactions. -/
theorem exists_tx (h : IsBatch txs order) {range : Nat} {l : List Transaction}
    (hin : (range, l) ∈ order) : ∃ tx ∈ txs, tx.id / singleBlobSize = range := by
  obtain ⟨rfl, hne⟩ := bucketOf_eq_some.mp (h.mem_iff.mp hin)
  obtain ⟨tx, htx⟩ := List.exists_mem_of_ne_nil _ hne
  exact ⟨tx, (h.mem hin htx).1, (h.mem hin htx).2⟩

end IsBatch

/-- The ids that are stored once a batch has been handled. -/
def heldAfter (transactions : HashMap Nat Transaction) (txs : List Transaction) : Set ℕ :=
  {id | id ∈ transactions ∨ ∃ tx ∈ txs, tx.id = id}

section Batch

variable {fuel : Nat} {txs : List Transaction} {order : List (Nat × List Transaction)}
  {selfOffsets : HashMap Nat Nat} {transactions : HashMap Nat Transaction}
  {after : OffsetUpdate}

/-- A batch is stored bucket by bucket. -/
theorem updateSelfOffsets_transactions
    (h : updateSelfOffsets fuel selfOffsets transactions order = .ok after) :
    after.transactions = insertAll transactions (order.flatMap Prod.snd) := by
  refine foldlM_ok (fun (done : List (Nat × List Transaction)) (u : OffsetUpdate) =>
    u.transactions = insertAll transactions (done.flatMap Prod.snd)) h rfl ?_
  rintro done ⟨range, l⟩ u u' hu hstep
  rw [(updateRange_ok hstep).2.1, hu, List.flatMap_append, List.flatMap_cons, List.flatMap_nil,
    List.append_nil, insertAll, insertAll, insertAll, List.foldl_append]

/-- A batch adds its own ids and nothing else. -/
theorem updateSelfOffsets_heldIds (hb : IsBatch txs order)
    (h : updateSelfOffsets fuel selfOffsets transactions order = .ok after) :
    heldIds after.transactions = heldAfter transactions txs := by
  ext id
  rw [mem_heldIds, updateSelfOffsets_transactions h, mem_insertAll]
  simp only [hb.mem_flatMap]
  rfl

theorem updateSelfOffsets_sound (hb : IsBatch txs order)
    (h : updateSelfOffsets fuel selfOffsets transactions order = .ok after)
    (hs : StoreSound transactions selfOffsets) :
    StoreSound after.transactions after.selfOffsets := by
  refine foldlM_invariant
    (fun u : OffsetUpdate => StoreSound u.transactions u.selfOffsets) h hs ?_
  rintro ⟨range, l⟩ hin u u' hu hstep
  exact updateRange_sound hstep hu fun tx htx => (hb.mem hin htx).2

/-- A batch whose ids are accepted is handled to its end. -/
theorem updateSelfOffsets_total (hb : IsBatch txs order)
    (hs : StoreSound transactions selfOffsets) (hfuel : scanFuel ≤ fuel) :
    ∃ after, updateSelfOffsets fuel selfOffsets transactions order = .ok after := by
  have hround : ∀ entry ∈ order, ∀ u : OffsetUpdate, StoreSound u.transactions u.selfOffsets →
      ∃ u', updateRange fuel u entry = .ok u' ∧ StoreSound u'.transactions u'.selfOffsets := by
    rintro ⟨range, l⟩ hin u hu
    obtain ⟨u', hu'⟩ := updateRange_total hu.accepted hu.advertisable
      (fun tx htx => ⟨hb.accepted tx (hb.mem hin htx).1, (hb.mem hin htx).2⟩) hfuel
    exact ⟨u', hu', updateRange_sound hu' hu fun tx htx => (hb.mem hin htx).2⟩
  obtain ⟨after, hafter, -⟩ := foldlM_total
    (fun u : OffsetUpdate => StoreSound u.transactions u.selfOffsets) hround
    (show StoreSound (OffsetUpdate.mk selfOffsets transactions []).transactions selfOffsets from hs)
  exact ⟨after, hafter⟩

/-- A batch keeps the offsets exact when none of its ranges crosses into the
next one. -/
theorem updateSelfOffsets_exact (hb : IsBatch txs order)
    (h : updateSelfOffsets fuel selfOffsets transactions order = .ok after)
    (hs : StoreSound transactions selfOffsets) (he : StoreExact transactions selfOffsets)
    (hcross : ∀ tx ∈ txs, ¬ Crosses (heldAfter transactions txs) (tx.id / singleBlobSize)) :
    StoreExact after.transactions after.selfOffsets := by
  have hall := foldlM_invariant (fun u : OffsetUpdate =>
      heldIds u.transactions ⊆ heldAfter transactions txs ∧
      StoreSound u.transactions u.selfOffsets ∧ StoreExact u.transactions u.selfOffsets)
    h ⟨fun id hid => Or.inl hid, hs, he⟩ (by
      rintro ⟨range, l⟩ hin u u' ⟨hsub, hu, hue⟩ hstep
      have hrange : ∀ tx ∈ l, tx.id / singleBlobSize = range :=
        fun tx htx => (hb.mem hin htx).2
      have hsub' : heldIds u'.transactions ⊆ heldAfter transactions txs := by
        intro id hid
        rw [(updateRange_ok hstep).2.1, mem_heldIds, mem_insertAll] at hid
        rcases hid with hid | ⟨tx, htx, rfl⟩
        · exact hsub hid
        · exact Or.inr ⟨tx, (hb.mem hin htx).1, rfl⟩
      refine ⟨hsub', updateRange_sound hstep hu hrange,
        updateRange_exact hstep hu hue hrange fun hc => ?_⟩
      obtain ⟨tx, htx, rfl⟩ := hb.exists_tx hin
      exact hcross tx htx (hc.mono hsub'))
  exact hall.2.2

end Batch

end Maroon
