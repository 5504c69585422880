import Maroon.App.Received
import Maroon.App.Step

/-!
# What a node knows about the offsets of its peers

`peerOffset` reads the entry of one peer for one range.  Recording an offset
changes that entry only.  `State` messages and received transactions write to
this table, and nothing else does.  Entries are never removed.
-/

namespace Maroon

open Lib Outcome

variable {PeerId L : Type} [LinearOrder PeerId]

/-- The offset that is recorded for a peer and a range. -/
def peerOffset (offsets : HashMap Nat (HashMap PeerId Nat)) (range : Nat) (peerId : PeerId) :
    Option Nat :=
  (offsets.lookup range).bind fun peers => peers.lookup peerId

theorem peerOffset_eq_some {offsets : HashMap Nat (HashMap PeerId Nat)} {range offset : Nat}
    {peerId : PeerId} : peerOffset offsets range peerId = some offset ↔
      ∃ peers, offsets.lookup range = some peers ∧ peers.lookup peerId = some offset :=
  Option.bind_eq_some_iff

/-- Recording an offset changes one entry. -/
theorem peerOffset_moveOffsetPointer (offsets : HashMap Nat (HashMap PeerId Nat))
    (peerId p : PeerId) (newRange newOffset r : Nat) :
    peerOffset (moveOffsetPointer offsets peerId newRange newOffset) r p =
      if r = newRange ∧ p = peerId then some newOffset else peerOffset offsets r p := by
  by_cases hr : r = newRange
  · subst hr
    cases hlook : offsets.lookup r with
    | none =>
        simp only [peerOffset, moveOffsetPointer, hlook, Finmap.lookup_insert, Option.bind_some,
          Option.bind_none, HashMap.lookup_insert_eq, Finmap.lookup_empty, true_and]
    | some peers =>
        simp only [peerOffset, moveOffsetPointer, hlook, Finmap.lookup_insert, Option.bind_some,
          HashMap.lookup_insert_eq, true_and]
  · cases hlook : offsets.lookup newRange with
    | none =>
        simp only [peerOffset, moveOffsetPointer, hlook, Finmap.lookup_insert_of_ne _ hr, hr,
          false_and, if_false]
    | some peers =>
        simp only [peerOffset, moveOffsetPointer, hlook, Finmap.lookup_insert_of_ne _ hr, hr,
          false_and, if_false]

/-- The two functions of the source that record an offset do the same. -/
theorem recordState_eq (offsets : HashMap Nat (HashMap PeerId Nat)) (peerId : PeerId)
    (k v : Nat) : App.recordState offsets peerId k v = moveOffsetPointer offsets peerId k v := by
  cases hlook : offsets.lookup k with
  | none => simp only [App.recordState, moveOffsetPointer, hlook]
  | some peers => simp only [App.recordState, moveOffsetPointer, hlook]

/-- The table after a list of entries for one peer was recorded. -/
def recordAll (offsets : HashMap Nat (HashMap PeerId Nat)) (peerId : PeerId)
    (entries : List (Nat × Nat)) : HashMap Nat (HashMap PeerId Nat) :=
  entries.foldl (fun offsets (range, offset) => moveOffsetPointer offsets peerId range offset)
    offsets

/-- Every entry of the table is an old one or one of those recorded. -/
theorem peerOffset_recordAll {entries : List (Nat × Nat)} {peerId p : PeerId} {r v : Nat} :
    ∀ {offsets : HashMap Nat (HashMap PeerId Nat)},
      peerOffset (recordAll offsets peerId entries) r p = some v →
      peerOffset offsets r p = some v ∨ p = peerId ∧ (r, v) ∈ entries := by
  induction entries with
  | nil => exact fun h => Or.inl h
  | cons entry entries ih =>
      intro offsets h
      rcases ih h with hold | ⟨hp, hin⟩
      · rw [peerOffset_moveOffsetPointer] at hold
        split at hold
        next heq =>
          obtain ⟨rfl, rfl⟩ := heq
          cases hold
          exact Or.inr ⟨rfl, List.mem_cons_self⟩
        next => exact Or.inl hold
      · exact Or.inr ⟨hp, List.mem_cons_of_mem _ hin⟩

/-- Entries for one peer do not touch another one. -/
theorem peerOffset_recordAll_ne {entries : List (Nat × Nat)} {peerId p : PeerId} {r : Nat}
    (hne : p ≠ peerId) : ∀ {offsets : HashMap Nat (HashMap PeerId Nat)},
      peerOffset (recordAll offsets peerId entries) r p = peerOffset offsets r p := by
  induction entries with
  | nil => exact fun {offsets} => rfl
  | cons entry entries ih =>
      intro offsets
      rw [recordAll, List.foldl_cons, ← recordAll, ih, peerOffset_moveOffsetPointer,
        if_neg fun h => hne h.2]

/-- No entry is ever removed. -/
theorem peerOffset_recordAll_isSome {entries : List (Nat × Nat)} {peerId p : PeerId} {r : Nat} :
    ∀ {offsets : HashMap Nat (HashMap PeerId Nat)}, (peerOffset offsets r p).isSome →
      (peerOffset (recordAll offsets peerId entries) r p).isSome := by
  induction entries with
  | nil => exact fun h => h
  | cons entry entries ih =>
      intro offsets h
      rw [recordAll, List.foldl_cons, ← recordAll]
      refine ih ?_
      rw [peerOffset_moveOffsetPointer]
      split
      next => rfl
      next => exact h

/-- With distinct ranges, the entry recorded for a range is the one that
stays. -/
theorem peerOffset_recordAll_self {entries : List (Nat × Nat)}
    (hnd : (entries.map Prod.fst).Nodup) (offsets : HashMap Nat (HashMap PeerId Nat))
    (peerId : PeerId) (r : Nat) :
      (∀ v, (r, v) ∈ entries → peerOffset (recordAll offsets peerId entries) r peerId = some v) ∧
      (r ∉ entries.map Prod.fst →
        peerOffset (recordAll offsets peerId entries) r peerId = peerOffset offsets r peerId) := by
  induction entries generalizing offsets with
  | nil => exact ⟨fun v hv => absurd hv (by simp), fun _ => rfl⟩
  | cons entry entries ih =>
      rw [List.map_cons, List.nodup_cons] at hnd
      obtain ⟨hmem, hnot⟩ := ih hnd.2 (moveOffsetPointer offsets peerId entry.1 entry.2)
      rw [recordAll, List.foldl_cons, ← recordAll]
      constructor
      · intro v hv
        rcases List.mem_cons.mp hv with heq | hv
        · cases heq
          rw [hnot hnd.1, peerOffset_moveOffsetPointer, if_pos ⟨rfl, rfl⟩]
        · exact hmem v hv
      · intro hr
        rw [List.map_cons, List.mem_cons, not_or] at hr
        rw [hnot hr.2, peerOffset_moveOffsetPointer, if_neg fun h => hr.1 h.1]

/-- Recording what is recorded already. -/
theorem recordAll_of_recorded {entries : List (Nat × Nat)}
    {offsets : HashMap Nat (HashMap PeerId Nat)} {peerId : PeerId}
    (h : ∀ r v, (r, v) ∈ entries → peerOffset offsets r peerId = some v) :
    recordAll offsets peerId entries = offsets := by
  induction entries with
  | nil => rfl
  | cons entry entries ih =>
      obtain ⟨range, offset⟩ := entry
      obtain ⟨peers, hpeers, hentry⟩ := peerOffset_eq_some.mp (h range offset (by simp))
      have hmove : moveOffsetPointer offsets peerId range offset = offsets := by
        rw [moveOffsetPointer, hpeers]
        simp only
        rw [HashMap.insert_of_lookup hentry, HashMap.insert_of_lookup hpeers]
      have hrest := ih fun r v hin => h r v (List.mem_cons_of_mem _ hin)
      calc recordAll offsets peerId ((range, offset) :: entries)
          = recordAll (moveOffsetPointer offsets peerId range offset) peerId entries := rfl
        _ = recordAll offsets peerId entries := by rw [hmove]
        _ = offsets := hrest

/-- What a `State` message leaves recorded for its sender. -/
theorem peerOffset_recordAll_enumerates {entries : List (Nat × Nat)} {state : HashMap Nat Nat}
    (h : Enumerates entries state) (offsets : HashMap Nat (HashMap PeerId Nat))
    (peerId : PeerId) (r : Nat) :
    peerOffset (recordAll offsets peerId entries) r peerId =
      (state.lookup r).or (peerOffset offsets r peerId) := by
  obtain ⟨hmem, hnot⟩ := peerOffset_recordAll_self h.nodup offsets peerId r
  cases hlook : state.lookup r with
  | none =>
      refine (hnot fun hin => ?_).trans rfl
      obtain ⟨v, hv⟩ := HashMap.mem_iff_lookup.mp (h.mem_keys_iff.mp hin)
      rw [hlook] at hv
      cases hv
  | some v => exact hmem v (h.mem_iff.mpr hlook)

/-! ## The updates of a batch -/

/-- The updates of a batch are the changes of the offsets, one for each range
that was scanned. -/
structure UpdatesOf (before : HashMap Nat Nat) (after : OffsetUpdate) : Prop where
  nodup : (after.updates.map Prod.fst).Nodup
  lookup : ∀ {r v}, (r, v) ∈ after.updates → after.selfOffsets.lookup r = some v
  unchanged : ∀ {r}, r ∉ after.updates.map Prod.fst →
    after.selfOffsets.lookup r = before.lookup r

/-- One more round, for a range that was not scanned before. -/
private theorem updateRange_updatesOf {fuel range : Nat} {txs : List Transaction}
    {before : HashMap Nat Nat} {self self' : OffsetUpdate}
    (h : updateRange fuel self (range, txs) = .ok self') (hs : UpdatesOf before self)
    (hnew : range ∉ self.updates.map Prod.fst) : UpdatesOf before self' := by
  rcases (updateRange_ok h).2.2 with ⟨hself, hupd, -, -⟩ | ⟨start, key, -, hadv⟩
  · refine ⟨by rw [hupd]; exact hs.nodup, fun hin => ?_, fun hr => ?_⟩
    · rw [hself]
      exact hs.lookup (hupd ▸ hin)
    · rw [hself]
      exact hs.unchanged (hupd ▸ hr)
  · have hkeys : self'.updates.map Prod.fst = self.updates.map Prod.fst ++ [range] := by
      rw [hadv.updates, List.map_append, List.map_cons, List.map_nil]
    refine ⟨?_, fun {r v} hin => ?_, fun {r} hr => ?_⟩
    · rw [hkeys]
      exact List.nodup_append.mpr ⟨hs.nodup, by simp, by
        rintro r hr r' hr' rfl
        exact hnew (List.mem_singleton.mp hr' ▸ hr)⟩
    · rw [hadv.updates] at hin
      rw [hadv.selfOffsets]
      rcases List.mem_append.mp hin with hold | hin
      · have hne : r ≠ range := by
          rintro rfl
          exact hnew (List.mem_map_of_mem hold)
        rw [Finmap.lookup_insert_of_ne _ hne]
        exact hs.lookup hold
      · cases List.mem_singleton.mp hin
        exact Finmap.lookup_insert _
    · rw [hkeys, List.mem_append, not_or, List.mem_singleton] at hr
      rw [hadv.selfOffsets, Finmap.lookup_insert_of_ne _ hr.2]
      exact hs.unchanged hr.1

theorem updateSelfOffsets_updatesOf {fuel : Nat} {txs : List Transaction}
    {order : List (Nat × List Transaction)} {selfOffsets : HashMap Nat Nat}
    {transactions : HashMap Nat Transaction} {after : OffsetUpdate} (hb : IsBatch txs order)
    (h : updateSelfOffsets fuel selfOffsets transactions order = .ok after) :
    UpdatesOf selfOffsets after := by
  have hall := foldlM_split (fun (done : List (Nat × List Transaction)) (u : OffsetUpdate) =>
      UpdatesOf selfOffsets u ∧ ∀ r ∈ u.updates.map Prod.fst, r ∈ done.map Prod.fst)
    h ⟨⟨by simp, by simp, fun _ => rfl⟩, by simp⟩ (by
      rintro done ⟨range, l⟩ rest u u' rfl ⟨hspec, hsub⟩ hstep
      have hnew := class_notMem_of_nodup hb.nodup
      refine ⟨updateRange_updatesOf hstep hspec fun hin => hnew (hsub range hin), fun r hr => ?_⟩
      rw [List.map_append, List.mem_append]
      rcases (updateRange_ok hstep).2.2 with ⟨-, hupd, -, -⟩ | ⟨start, key, -, hadv⟩
      · exact Or.inl (hsub r (hupd ▸ hr))
      · rw [hadv.updates, List.map_append, List.mem_append] at hr
        exact hr.imp_left (hsub r))
  exact hall.1

/-! ## Handlers that record offsets -/

namespace App

theorem handleState_offsets (a : App PeerId L) (peerId : PeerId) (order : List (Nat × Nat)) :
    (a.handleState peerId order).offsets = recordAll a.offsets peerId order := by
  simp only [handleState, recordState_eq, recordAll]

/-- The state after a batch was stored and its updates were recorded. -/
def afterBatch (a : App PeerId L) (after : OffsetUpdate) : App PeerId L :=
  { a with
    selfOffsets := after.selfOffsets
    transactions := after.transactions
    offsets := recordAll a.offsets a.peerId after.updates }

theorem handleMissingTx_ok {fuel : Nat} {a a' : App PeerId L}
    {order : List (Nat × List Transaction)} (h : a.handleMissingTx fuel order = .ok a') :
    ∃ after, updateSelfOffsets fuel a.selfOffsets a.transactions order = .ok after ∧
      a' = a.afterBatch after := by
  obtain ⟨after, hafter, h⟩ := bind_eq_ok.mp h
  cases h
  exact ⟨after, hafter, rfl⟩

/-- A batch of one transaction has one range. -/
theorem isBatch_singleton {tx : Transaction} {order : List (Nat × List Transaction)}
    (h : IsBatch [tx] order) : order = [(tx.id / singleBlobSize, [tx])] := by
  have hall : ∀ entry ∈ order, entry = (tx.id / singleBlobSize, [tx]) := by
    rintro ⟨range, l⟩ hin
    obtain ⟨tx', htx', hdiv⟩ := h.exists_tx hin
    rw [List.mem_singleton.mp htx'] at hdiv
    rw [← hdiv, (bucketOf_eq_some.mp (h.mem_iff.mp hin)).1, ← hdiv]
    simp [batchOf]
  obtain ⟨l, hin, -⟩ := h.exists_bucket (List.mem_singleton.mpr rfl)
  cases order with
  | nil => simp at hin
  | cons entry rest =>
      cases rest with
      | nil => rw [hall entry (by simp)]
      | cons entry' rest =>
          have hnd := h.nodup
          rw [hall entry (by simp), hall entry' (by simp)] at hnd
          simp at hnd

/-- A new transaction is handled as a batch of one. -/
theorem handleNewTransaction_ok {fuel : Nat} {a a' : App PeerId L} {tx : Transaction}
    {order : List (Nat × List Transaction)} (hb : IsBatch [tx] order)
    (h : a.handleNewTransaction fuel order = .ok a') :
    ∃ after, updateSelfOffsets fuel a.selfOffsets a.transactions order = .ok after ∧
      a' = a.afterBatch after := by
  obtain ⟨⟨after, last⟩, hupd, h⟩ := bind_eq_ok.mp h
  obtain ⟨after', hafter, hlast⟩ := bind_eq_ok.mp hupd
  have hlen : after'.updates = [] ∨ ∃ update, after'.updates = [update] := by
    rw [isBatch_singleton hb] at hafter
    obtain ⟨u, hu, heq⟩ := bind_eq_ok.mp hafter
    cases heq
    rcases (updateRange_ok hu).2.2 with ⟨-, hnil, -, -⟩ | ⟨start, key, -, hadv⟩
    · exact Or.inl hnil
    · exact Or.inr ⟨_, hadv.updates⟩
  rcases hlen with hnil | ⟨update, hone⟩
  · simp only [hnil, List.length_nil, BEq.rfl, if_true, pure_eq, Outcome.ok.injEq,
      Prod.mk.injEq] at hlast
    obtain ⟨rfl, rfl⟩ := hlast
    cases h
    exact ⟨after', hafter, by simp [afterBatch, hnil, recordAll]⟩
  · simp only [hone, List.length_singleton, Nat.reduceBEq, Bool.false_eq_true, if_false,
      List.getLast?_singleton, pure_eq, Outcome.ok.injEq, Prod.mk.injEq] at hlast
    obtain ⟨rfl, rfl⟩ := hlast
    cases h
    exact ⟨after', hafter, by simp [afterBatch, hone, recordAll]⟩

end App

end Maroon
