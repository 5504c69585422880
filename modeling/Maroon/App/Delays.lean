import Maroon.App.Views

/-!
# What a node asks its peers for

`Gaps` is what the scan of `self_delays` returns for a range: the runs of ids
that are not stored between two offsets, each as one interval, in ascending
order, and with a stored id between any two of them.

`selfDelays_ok` says who is asked for what.  Each range for which the node is
behind gives one `Ask`, to a peer with the greatest offset, and the asks to one
peer are put together in the order of the ranges.
-/

namespace Maroon

open Lib Outcome

/-! ## The gaps of a range -/

/-- The ids at `count` offsets from `first` that are not stored. -/
def absentIds (transactions : HashMap Nat Transaction) (range first count : Nat) : List Nat :=
  ((List.range' first count).map (idOf range)).filter fun id => id ∉ transactions

theorem mem_absentIds {transactions : HashMap Nat Transaction} {range first count id : Nat} :
    id ∈ absentIds transactions range first count ↔
      (∃ o, first ≤ o ∧ o < first + count ∧ id = idOf range o) ∧ id ∉ transactions := by
  simp only [absentIds, List.mem_filter, List.mem_map, List.mem_range'_1, decide_eq_true_eq]
  constructor
  · intro h
    obtain ⟨⟨o, ⟨hfirst, hlt⟩, rfl⟩, hnot⟩ := h
    exact ⟨⟨o, hfirst, hlt, rfl⟩, hnot⟩
  · intro h
    obtain ⟨⟨o, hfirst, hlt, rfl⟩, hnot⟩ := h
    exact ⟨⟨o, ⟨hfirst, hlt⟩, rfl⟩, hnot⟩

theorem absentIds_append (transactions : HashMap Nat Transaction) (range first count count' : Nat) :
    absentIds transactions range first (count + count') =
      absentIds transactions range first count ++
        absentIds transactions range (first + count) count' := by
  rw [absentIds, ← List.range'_append_1, List.map_append, List.filter_append]
  rfl

theorem absentIds_nodup (transactions : HashMap Nat Transaction) (range first count : Nat) :
    (absentIds transactions range first count).Nodup := by
  refine List.Nodup.filter _ (List.Nodup.map (fun o o' heq => ?_) List.nodup_range')
  simp only [idOf] at heq
  omega

/-- Where nothing is stored, all ids are absent. -/
theorem absentIds_eq {transactions : HashMap Nat Transaction} {range first count : Nat}
    (h : ∀ o, first ≤ o → o < first + count → idOf range o ∉ transactions) :
    absentIds transactions range first count = List.range' (idOf range first) count := by
  have hmap :
      (List.range' first count).map (idOf range) = List.range' (idOf range first) count := by
    have hfun : idOf range = fun o => range * singleBlobSize + o := rfl
    rw [hfun, List.map_add_range']
  rw [absentIds, List.filter_eq_self.mpr ?_, hmap]
  intro id hid
  obtain ⟨o, ho, rfl⟩ := List.mem_map.mp hid
  obtain ⟨hfirst, hlt⟩ := List.mem_range'_1.mp ho
  simpa using h o hfirst hlt

/-- The intervals of what is absent of a range, from the offset `left` up to the
one before `next`. -/
structure Gaps (transactions : HashMap Nat Transaction) (range left next : Nat)
    (intervals : List U64BlobIdClosedInterval) : Prop where
  /-- Their ids are the absent ones, in ascending order. -/
  ids : intervals.flatMap U64BlobIdClosedInterval.ids =
    absentIds transactions range left (next - left)
  bounds : ∀ i ∈ intervals, idOf range left ≤ i.left ∧ i.left ≤ i.right ∧ i.right < idOf range next
  /-- No two of them touch each other. -/
  apart : intervals.Pairwise fun i j => i.right + 1 < j.left

/-- What holds of a scan that started at `left` and has reached its pointer. -/
structure GapScan.Ok (transactions : HashMap Nat Transaction) (range left right : Nat)
    (scan : GapScan) : Prop where
  left_le : left ≤ scan.leftBorder
  border_le : scan.leftBorder ≤ scan.pointer
  pointer_le : scan.pointer ≤ right + 1
  /-- The gap that is open at the pointer. -/
  absent : ∀ o, scan.leftBorder ≤ o → o < scan.pointer → idOf range o ∉ transactions
  ids : scan.newIntervals.flatMap U64BlobIdClosedInterval.ids =
    absentIds transactions range left (scan.leftBorder - left)
  bounds : ∀ i ∈ scan.newIntervals, idOf range left ≤ i.left ∧ i.left ≤ i.right ∧
    i.right + 1 < idOf range scan.leftBorder
  apart : scan.newIntervals.Pairwise fun i j => i.right + 1 < j.left

namespace GapScan

variable {transactions : HashMap Nat Transaction} {range left right : Nat} {scan scan' : GapScan}

theorem Ok.start (hle : left ≤ right + 1) : Ok transactions range left right ⟨left, left, []⟩ where
  left_le := le_rfl
  border_le := le_rfl
  pointer_le := hle
  absent o hle hlt := absurd hlt (by simpa using hle)
  ids := by simp [absentIds]
  bounds := by simp
  apart := .nil

theorem push_ok (h : scan.push range = .ok scan') :
    scan' = { scan with newIntervals := scan.newIntervals ++
      [⟨idOf range scan.leftBorder, idOf range (scan.pointer - 1)⟩] } := by
  obtain ⟨last, hlast, h⟩ := bind_eq_ok.mp h
  obtain ⟨interval, hinterval, h⟩ := bind_eq_ok.mp h
  obtain ⟨-, rfl⟩ := u64Sub_ok.mp hlast
  obtain ⟨-, -, rfl⟩ := U64BlobIdClosedInterval.newFromRangeAndOffsets_ok.mp hinterval
  cases h
  rfl

/-- Closing the open gap leaves all gaps up to the pointer. -/
theorem Ok.push (h : Ok transactions range left right scan) (hlt : scan.leftBorder < scan.pointer)
    (hpush : scan.push range = .ok scan') :
    Gaps transactions range left scan.pointer scan'.newIntervals ∧
      scan'.pointer = scan.pointer := by
  have hleft := h.left_le
  rw [push_ok hpush]
  refine ⟨⟨?_, ?_, ?_⟩, rfl⟩
  · have hcount : scan.pointer - left =
        (scan.leftBorder - left) + (scan.pointer - scan.leftBorder) := by omega
    have hfirst : left + (scan.leftBorder - left) = scan.leftBorder := by omega
    rw [List.flatMap_append, h.ids, hcount, absentIds_append, hfirst,
      absentIds_eq fun o ho ho' => h.absent o ho (by omega), List.flatMap_singleton,
      U64BlobIdClosedInterval.ids]
    congr 2
    simp only [idOf]
    omega
  · intro i hi
    rcases List.mem_append.mp hi with hold | hnew
    · obtain ⟨hbelow, hle, habove⟩ := h.bounds i hold
      exact ⟨hbelow, hle, by simp only [idOf] at *; omega⟩
    · rw [List.mem_singleton.mp hnew]
      simp only [idOf]
      omega
  · refine List.pairwise_append.mpr ⟨h.apart, List.pairwise_singleton _ _, ?_⟩
    intro i hi j hj
    rw [List.mem_singleton.mp hj]
    exact (h.bounds i hi).2.2

/-- With no gap open, all gaps up to the pointer are there. -/
theorem Ok.closed (h : Ok transactions range left right scan)
    (heq : scan.leftBorder = scan.pointer) :
    Gaps transactions range left scan.pointer scan.newIntervals where
  ids := heq ▸ h.ids
  bounds i hi := by
    obtain ⟨hbelow, hle, habove⟩ := h.bounds i hi
    rw [heq] at habove
    exact ⟨hbelow, hle, by omega⟩
  apart := h.apart

/-- A stored id at the pointer starts the next gap after it. -/
theorem Ok.of_gaps {intervals : List U64BlobIdClosedInterval} {pointer : Nat}
    (h : Gaps transactions range left pointer intervals) (hleft : left ≤ pointer)
    (hle : pointer ≤ right) (hin : idOf range pointer ∈ transactions) :
    Ok transactions range left right ⟨pointer + 1, pointer + 1, intervals⟩ where
  left_le := by simp only; omega
  border_le := le_rfl
  pointer_le := Nat.succ_le_succ hle
  absent o ho ho' := absurd ho (by simpa using ho')
  ids := by
    have hcount : pointer + 1 - left = (pointer - left) + 1 := by omega
    have hfirst : left + (pointer - left) = pointer := by omega
    rw [h.ids, hcount, absentIds_append, hfirst]
    simp [absentIds, hin]
  bounds i hi := by
    obtain ⟨hbelow, hle, habove⟩ := h.bounds i hi
    exact ⟨hbelow, hle, by simp only [idOf] at *; omega⟩
  apart := h.apart

/-- A round keeps the invariant. -/
theorem Ok.round (h : Ok transactions range left right scan) (hle : scan.pointer ≤ right)
    (hround : scan.round transactions range = .ok scan') :
    Ok transactions range left right scan' := by
  obtain ⟨id, hid, hround⟩ := bind_eq_ok.mp hround
  obtain ⟨-, rfl⟩ := uniqueBlobIdFromRangeAndOffset_ok.mp hid
  have hleft := h.left_le.trans h.border_le
  split at hround
  next hin =>
    split at hround
    next hlt =>
      obtain ⟨pushed, hpush, hround⟩ := bind_eq_ok.mp hround
      obtain ⟨pointer, hpointer, hround⟩ := bind_eq_ok.mp hround
      obtain ⟨hgaps, hsame⟩ := h.push hlt hpush
      obtain ⟨-, rfl⟩ := u64Add_ok.mp hpointer
      cases hround
      rw [hsame]
      exact .of_gaps hgaps hleft hle hin
    next hge =>
      obtain ⟨same, hsame, hround⟩ := bind_eq_ok.mp hround
      cases hsame
      obtain ⟨pointer, hpointer, hround⟩ := bind_eq_ok.mp hround
      obtain ⟨-, rfl⟩ := u64Add_ok.mp hpointer
      cases hround
      exact .of_gaps (h.closed (le_antisymm h.border_le (by omega))) hleft hle hin
  next hnot =>
    obtain ⟨pointer, hpointer, hround⟩ := bind_eq_ok.mp hround
    obtain ⟨-, rfl⟩ := u64Add_ok.mp hpointer
    cases hround
    refine ⟨h.left_le, h.border_le.trans (Nat.le_succ _), Nat.succ_le_succ hle, ?_, h.ids,
      h.bounds, h.apart⟩
    intro o ho ho'
    cases Nat.lt_or_eq_of_le (Nat.le_of_lt_succ ho') with
    | inl hlt => exact h.absent o ho hlt
    | inr heq => exact heq ▸ hnot

end GapScan

/-- The scan of a range finds its gaps. -/
theorem missingIntervals_ok {fuel range left right : Nat} {transactions : HashMap Nat Transaction}
    {intervals : List U64BlobIdClosedInterval} (hle : left ≤ right + 1)
    (h : missingIntervals fuel transactions range left right = .ok intervals) :
    Gaps transactions range left (right + 1) intervals := by
  obtain ⟨scan, hloop, h⟩ := bind_eq_ok.mp h
  obtain ⟨hok, hend⟩ := whileLoop_ok (GapScan.Ok transactions range left right)
    (fun s s' hs hc hr => hs.round (of_decide_eq_true (Outcome.ok.inj hc)) hr) hloop
    (.start hle)
  have hgt : ¬ scan.pointer ≤ right := of_decide_eq_false (Outcome.ok.inj hend)
  have hlast : scan.pointer = right + 1 := le_antisymm hok.pointer_le (by omega)
  rw [← hlast]
  split at h
  next hne =>
    obtain ⟨pushed, hpush, h⟩ := bind_eq_ok.mp h
    cases h
    exact (hok.push (lt_of_le_of_ne hok.border_le (Ne.symm hne)) hpush).1
  next heq =>
    cases h
    exact hok.closed (not_not.mp heq).symm

/-! ## Asks -/

/-- What a node asks one peer for, of one range. -/
structure Ask (PeerId : Type) where
  range : Nat
  peerId : PeerId
  /-- The offset that the peer has advertised. -/
  border : Nat
  intervals : List U64BlobIdClosedInterval

variable {PeerId : Type}

/-- The entry that is picked has the greatest offset. -/
theorem maxByKey_some {nodes : List (PeerId × Nat)} {best : PeerId × Nat}
    (h : maxByKey nodes = some best) : best ∈ nodes ∧ ∀ e ∈ nodes, e.2 ≤ best.2 := by
  have key : ∀ (l : List (PeerId × Nat)) (first : PeerId × Nat),
      let last := l.foldl (fun best e => if best.2 ≤ e.2 then e else best) first
      last ∈ first :: l ∧ ∀ e ∈ first :: l, e.2 ≤ last.2 := by
    intro l
    induction l with
    | nil => simp
    | cons e l ih =>
        intro first
        obtain ⟨hmem, hmax⟩ := ih (if first.2 ≤ e.2 then e else first)
        rw [List.foldl_cons]
        constructor
        · rcases List.mem_cons.mp hmem with heq | hin
          · rw [heq]
            split
            next => simp
            next => simp
          · exact List.mem_cons_of_mem _ (List.mem_cons_of_mem _ hin)
        · have hbest := hmax _ List.mem_cons_self
          intro e' he'
          rcases List.mem_cons.mp he' with rfl | he'
          · refine le_trans ?_ hbest
            split
            next hle => exact hle
            next => exact le_rfl
          · rcases List.mem_cons.mp he' with rfl | hin
            · refine le_trans ?_ hbest
              split
              next => exact le_rfl
              next hgt => omega
            · exact hmax e' (List.mem_cons_of_mem _ hin)
  cases nodes with
  | nil => cases h
  | cons first l =>
      cases h
      exact key l first

/-- A range gives an ask to a peer with the greatest offset, when that offset is
ahead of the node. -/
structure IsAsk (transactions : HashMap Nat Transaction) (selfOffsets : HashMap Nat Nat)
    (nodes : List (PeerId × Nat)) (ask : Ask PeerId) : Prop where
  mem : (ask.peerId, ask.border) ∈ nodes
  greatest : ∀ e ∈ nodes, e.2 ≤ ask.border
  behind : nextOffset selfOffsets ask.range ≤ ask.border
  gaps : Gaps transactions ask.range (nextOffset selfOffsets ask.range) (ask.border + 1)
    ask.intervals

variable [DecidableEq PeerId] {transactions : HashMap Nat Transaction}
  {selfOffsets : HashMap Nat Nat} {fuel : Nat}

/-- The rest of a round, once the node is known to be behind. -/
private theorem askRange_ok {result result' : HashMap PeerId (List U64BlobIdClosedInterval)}
    {range border : Nat} {peerId : PeerId} {nodes : List (PeerId × Nat)}
    (hbest : maxByKey nodes = some (peerId, border))
    (hle : nextOffset selfOffsets range ≤ border)
    (h : (do
      let newIntervals ←
        missingIntervals fuel transactions range (nextOffset selfOffsets range) border
      match result.lookup peerId with
      | some ranges => pure (result.insert peerId (ranges ++ newIntervals))
      | none => pure (result.insert peerId newIntervals)) = .ok result') :
    ∃ ask : Ask PeerId, ask.range = range ∧ IsAsk transactions selfOffsets nodes ask ∧
      result' = result.insert ask.peerId
        ((result.lookup ask.peerId).getD [] ++ ask.intervals) := by
  obtain ⟨hmem, hmax⟩ := maxByKey_some hbest
  obtain ⟨intervals, hintervals, h⟩ := bind_eq_ok.mp h
  refine ⟨⟨range, peerId, border, intervals⟩, rfl,
    ⟨hmem, hmax, hle, missingIntervals_ok (Nat.le_succ_of_le hle) hintervals⟩, ?_⟩
  cases hlook : result.lookup peerId with
  | some ranges =>
      simp only [hlook] at h
      cases h
      rfl
  | none =>
      simp only [hlook] at h
      cases h
      rfl

/-- A round asks for the gaps of a range, or the node is not behind there. -/
theorem delaysOfRange_ok {result result' : HashMap PeerId (List U64BlobIdClosedInterval)}
    {range : Nat} {nodes : List (PeerId × Nat)}
    (h : delaysOfRange fuel transactions selfOffsets result (range, nodes) = .ok result') :
    (result' = result ∧ ∀ e ∈ nodes, e.2 < nextOffset selfOffsets range) ∨
      ∃ ask : Ask PeerId, ask.range = range ∧ IsAsk transactions selfOffsets nodes ask ∧
        result' = result.insert ask.peerId
          ((result.lookup ask.peerId).getD [] ++ ask.intervals) := by
  rw [delaysOfRange] at h
  cases hbest : maxByKey nodes with
  | none =>
      simp only [hbest] at h
      cases h
      cases nodes with
      | nil => exact Or.inl ⟨rfl, by simp⟩
      | cons first l => cases hbest
  | some best =>
      obtain ⟨peerId, border⟩ := best
      cases hlook : selfOffsets.lookup range with
      | some current =>
          simp only [hbest, hlook, Option.any_some, ge_iff_le, decide_eq_true_eq] at h
          split at h
          next hahead =>
            cases h
            refine Or.inl ⟨rfl, fun e he => ?_⟩
            rw [nextOffset_some hlook]
            exact Nat.lt_succ_of_le (((maxByKey_some hbest).2 e he).trans hahead)
          next hbehind =>
            obtain ⟨left, hleft, h⟩ := bind_eq_ok.mp h
            obtain ⟨-, rfl⟩ := u64Add_ok.mp hleft
            rw [← nextOffset_some hlook] at h
            exact Or.inr (askRange_ok hbest (by rw [nextOffset_some hlook]; omega) h)
      | none =>
          simp only [hbest, hlook, Option.any_none, Bool.false_eq_true, if_false] at h
          rw [pure_eq, ok_bind, ← nextOffset_none hlook] at h
          exact Or.inr (askRange_ok hbest (by rw [nextOffset_none hlook]; exact Nat.zero_le _) h)

/-- What all asks to a peer together ask for. -/
def askedOf (asks : List (Ask PeerId)) (peerId : PeerId) :
    Option (List U64BlobIdClosedInterval) :=
  let own := asks.filter fun ask => ask.peerId = peerId
  if own = [] then none else some (own.flatMap Ask.intervals)

theorem askedOf_eq_some {asks : List (Ask PeerId)} {peerId : PeerId}
    {intervals : List U64BlobIdClosedInterval} (h : askedOf asks peerId = some intervals) :
    intervals = (asks.filter fun ask => ask.peerId = peerId).flatMap Ask.intervals := by
  rw [askedOf] at h
  split at h
  next => cases h
  next => exact (Option.some.inj h).symm

theorem askedOf_append (asks : List (Ask PeerId)) (ask : Ask PeerId) (peerId : PeerId) :
    askedOf (asks ++ [ask]) peerId =
      if peerId = ask.peerId then some ((askedOf asks peerId).getD [] ++ ask.intervals)
      else askedOf asks peerId := by
  simp only [askedOf, List.filter_append, List.filter_cons, List.filter_nil, decide_eq_true_eq]
  split
  next heq =>
    rw [if_pos heq.symm, if_neg (by simp)]
    cases asks.filter fun ask => ask.peerId = peerId with
    | nil => simp
    | cons first rest => simp
  next hne =>
    rw [if_neg (Ne.symm hne), List.append_nil]

/-- What the loop over the ranges has asked for. -/
structure Asks (transactions : HashMap Nat Transaction) (selfOffsets : HashMap Nat Nat)
    (order : List (Nat × List (PeerId × Nat))) (asks : List (Ask PeerId)) : Prop where
  ranges : (asks.map Ask.range).Sublist (order.map Prod.fst)
  sound : ∀ ask ∈ asks, ∃ nodes, (ask.range, nodes) ∈ order ∧
    IsAsk transactions selfOffsets nodes ask
  /-- A range with a peer that is ahead has an ask. -/
  complete : ∀ {range nodes}, (range, nodes) ∈ order → ∀ e ∈ nodes,
    nextOffset selfOffsets range ≤ e.2 → ∃ ask ∈ asks, ask.range = range

theorem selfDelays_ok {order : List (Nat × List (PeerId × Nat))}
    {delays : HashMap PeerId (List U64BlobIdClosedInterval)}
    (h : selfDelays fuel transactions selfOffsets order = .ok delays) :
    ∃ asks, Asks transactions selfOffsets order asks ∧
      ∀ peerId, delays.lookup peerId = askedOf asks peerId := by
  refine foldlM_ok (fun done result => ∃ asks, Asks transactions selfOffsets done asks ∧
    ∀ peerId, result.lookup peerId = askedOf asks peerId)
    h ⟨[], ⟨by simp, by simp, by simp⟩, fun _ => rfl⟩ ?_
  rintro done ⟨range, nodes⟩ result result' ⟨asks, hasks, hlook⟩ hround
  have hlift : ∀ ask ∈ asks, ∃ nodes', (ask.range, nodes') ∈ done ++ [(range, nodes)] ∧
      IsAsk transactions selfOffsets nodes' ask := by
    intro ask hask
    obtain ⟨nodes', hin, hisAsk⟩ := hasks.sound ask hask
    exact ⟨nodes', List.mem_append_left _ hin, hisAsk⟩
  rcases delaysOfRange_ok hround with ⟨rfl, hahead⟩ | ⟨ask, rfl, hisAsk, rfl⟩
  · refine ⟨asks, ⟨?_, hlift, ?_⟩, hlook⟩
    · rw [List.map_append]
      exact hasks.ranges.trans (List.sublist_append_left _ _)
    · intro range' nodes' hin e he hle
      rcases List.mem_append.mp hin with hold | hnew
      · exact hasks.complete hold e he hle
      · cases List.mem_singleton.mp hnew
        exact absurd hle (not_le.mpr (hahead e he))
  · refine ⟨asks ++ [ask], ⟨?_, ?_, ?_⟩, fun peerId => ?_⟩
    · rw [List.map_append, List.map_append]
      exact hasks.ranges.append (List.Sublist.refl _)
    · intro ask' hask'
      rcases List.mem_append.mp hask' with hold | hnew
      · exact hlift ask' hold
      · rw [List.mem_singleton.mp hnew]
        exact ⟨nodes, List.mem_append_right _ (List.mem_singleton.mpr rfl), hisAsk⟩
    · intro range' nodes' hin e he hle
      rcases List.mem_append.mp hin with hold | hnew
      · obtain ⟨ask', hask', hrange⟩ := hasks.complete hold e he hle
        exact ⟨ask', List.mem_append_left _ hask', hrange⟩
      · cases List.mem_singleton.mp hnew
        exact ⟨ask, List.mem_append_right _ (List.mem_singleton.mpr rfl), rfl⟩
    · rw [HashMap.lookup_insert_eq, askedOf_append, hlook, hlook]
      split
      next heq => rw [heq]
      next => rfl

/-! ## Requests to peers -/

/-- The intervals have every id that the node lacks of a range, from its own
offset up to `border`. -/
def Covers (transactions : HashMap Nat Transaction) (selfOffsets : HashMap Nat Nat)
    (range border : Nat) (intervals : List U64BlobIdClosedInterval) : Prop :=
  ∀ o, nextOffset selfOffsets range ≤ o → o ≤ border → idOf range o ∉ transactions →
    ∃ i ∈ intervals, idOf range o ∈ i.ids

theorem IsAsk.covers {PeerId : Type} {transactions : HashMap Nat Transaction}
    {selfOffsets : HashMap Nat Nat} {nodes : List (PeerId × Nat)} {ask : Ask PeerId}
    (h : IsAsk transactions selfOffsets nodes ask) :
    Covers transactions selfOffsets ask.range ask.border ask.intervals := by
  intro o hlow hhigh hnot
  have hin : idOf ask.range o ∈ ask.intervals.flatMap U64BlobIdClosedInterval.ids := by
    rw [h.gaps.ids, mem_absentIds]
    exact ⟨⟨o, hlow, by omega, rfl⟩, hnot⟩
  exact List.mem_flatMap.mp hin

section Requests

variable {PeerId : Type} [LinearOrder PeerId] {transactions : HashMap Nat Transaction}
  {selfOffsets : HashMap Nat Nat} {offsets : HashMap Nat (HashMap PeerId Nat)} {fuel : Nat}
  {order : List (Nat × List (PeerId × Nat))}
  {delays : HashMap PeerId (List U64BlobIdClosedInterval)}

/-- The peer has the greatest recorded offset of the range. -/
structure Leads (offsets : HashMap Nat (HashMap PeerId Nat)) (range : Nat) (peerId : PeerId)
    (border : Nat) : Prop where
  entry : peerOffset offsets range peerId = some border
  greatest : ∀ {p v}, peerOffset offsets range p = some v → v ≤ border

/-- What is requested from one peer. -/
structure IsRequest (transactions : HashMap Nat Transaction) (selfOffsets : HashMap Nat Nat)
    (offsets : HashMap Nat (HashMap PeerId Nat)) (peerId : PeerId)
    (intervals : List U64BlobIdClosedInterval) : Prop where
  /-- Each interval is of a range that the peer leads, and so is all the node
  lacks of that range. -/
  leads : ∀ i ∈ intervals, ∃ range border, Leads offsets range peerId border ∧
    idOf range 0 ≤ i.left ∧ i.left ≤ i.right ∧ i.right ≤ idOf range border ∧
    Covers transactions selfOffsets range border intervals
  absent : ∀ i ∈ intervals, ∀ id ∈ i.ids, id ∉ transactions
  nodup : (intervals.flatMap U64BlobIdClosedInterval.ids).Nodup

/-- The nodes that were enumerated for an ask are those of the table. -/
theorem IsAsk.leads {nodes : List (PeerId × Nat)} {ask : Ask PeerId}
    (h : IsAsk transactions selfOffsets nodes ask) (horder : EnumeratesNested order offsets)
    (hin : (ask.range, nodes) ∈ order) : Leads offsets ask.range ask.peerId ask.border := by
  obtain ⟨peers, hpeers, henum⟩ := horder.sound hin
  refine ⟨peerOffset_eq_some.mpr ⟨peers, hpeers, henum.mem_iff.mp h.mem⟩, fun {p v} hv => ?_⟩
  obtain ⟨peers', hpeers', hv⟩ := peerOffset_eq_some.mp hv
  cases hpeers.symm.trans hpeers'
  exact h.greatest (p, v) (henum.mem_iff.mpr hv)

private theorem IsAsk.div_eq {PeerId : Type} {nodes : List (PeerId × Nat)} {ask : Ask PeerId}
    (h : IsAsk transactions selfOffsets nodes ask) (hlt : ask.border < singleBlobSize) {id : Nat}
    (hid : id ∈ ask.intervals.flatMap U64BlobIdClosedInterval.ids) :
    id / singleBlobSize = ask.range := by
  rw [h.gaps.ids] at hid
  obtain ⟨⟨o, hlow, ho, rfl⟩, -⟩ := mem_absentIds.mp hid
  exact idOf_div (by omega)

/-- One peer is asked for no id twice: each range is asked for once, and what is
asked for lies in it. -/
private theorem Asks.nodup {asks : List (Ask PeerId)}
    (hasks : Asks transactions selfOffsets order asks) (hnodup : (order.map Prod.fst).Nodup)
    (hlt : ∀ ask ∈ asks, ask.border < singleBlobSize) (peerId : PeerId) :
    (((asks.filter fun ask => ask.peerId = peerId).flatMap Ask.intervals).flatMap
      U64BlobIdClosedInterval.ids).Nodup := by
  rw [List.flatMap_assoc, List.nodup_flatMap]
  have hranges : asks.Pairwise fun ask ask' => ask.range ≠ ask'.range :=
    List.pairwise_map.mp (hnodup.sublist hasks.ranges)
  have hdiv : ∀ ask ∈ asks, ∀ id ∈ ask.intervals.flatMap U64BlobIdClosedInterval.ids,
      id / singleBlobSize = ask.range := by
    intro ask hmem id hid
    obtain ⟨nodes, -, hisAsk⟩ := hasks.sound ask hmem
    exact hisAsk.div_eq (hlt ask hmem) hid
  constructor
  · intro ask hmem
    obtain ⟨nodes, -, hisAsk⟩ := hasks.sound ask (List.mem_filter.mp hmem).1
    rw [hisAsk.gaps.ids]
    exact absentIds_nodup _ _ _ _
  · refine (hranges.filter _).imp_of_mem fun {ask ask'} hmem hmem' hne id hid hid' => hne ?_
    rw [← hdiv ask (List.mem_filter.mp hmem).1 id hid,
      hdiv ask' (List.mem_filter.mp hmem').1 id hid']

theorem selfDelays_sound (horder : EnumeratesNested order offsets)
    (h : selfDelays fuel transactions selfOffsets order = .ok delays)
    (hlt : ∀ {r p v}, peerOffset offsets r p = some v → v < singleBlobSize)
    {peerId : PeerId} {intervals : List U64BlobIdClosedInterval}
    (hreq : delays.lookup peerId = some intervals) :
    IsRequest transactions selfOffsets offsets peerId intervals := by
  obtain ⟨asks, hasks, hlook⟩ := selfDelays_ok h
  rw [hlook] at hreq
  have hown := askedOf_eq_some hreq
  have hask : ∀ {i}, i ∈ intervals → ∃ ask ∈ asks, ask.peerId = peerId ∧ i ∈ ask.intervals ∧
      ∀ j ∈ ask.intervals, j ∈ intervals := by
    intro i hi
    rw [hown] at hi ⊢
    obtain ⟨ask, hmem, hin⟩ := List.mem_flatMap.mp hi
    obtain ⟨hmem', hpeer⟩ := List.mem_filter.mp hmem
    exact ⟨ask, hmem', of_decide_eq_true hpeer, hin,
      fun j hj => List.mem_flatMap.mpr ⟨ask, hmem, hj⟩⟩
  refine ⟨fun i hi => ?_, fun i hi id hid => ?_, ?_⟩
  · obtain ⟨ask, hmem, rfl, hin, hall⟩ := hask hi
    obtain ⟨nodes, hnodes, hisAsk⟩ := hasks.sound ask hmem
    obtain ⟨hbelow, hle, habove⟩ := hisAsk.gaps.bounds i hin
    refine ⟨ask.range, ask.border, hisAsk.leads horder hnodes, ?_, hle, ?_, ?_⟩
    · simp only [idOf] at *
      omega
    · simp only [idOf] at *
      omega
    · intro o hlow hhigh hnot
      obtain ⟨j, hj, hid⟩ := hisAsk.covers o hlow hhigh hnot
      exact ⟨j, hall j hj, hid⟩
  · obtain ⟨ask, hmem, rfl, hin, -⟩ := hask hi
    obtain ⟨nodes, hnodes, hisAsk⟩ := hasks.sound ask hmem
    have hids : id ∈ ask.intervals.flatMap U64BlobIdClosedInterval.ids :=
      List.mem_flatMap.mpr ⟨i, hin, hid⟩
    rw [hisAsk.gaps.ids, mem_absentIds] at hids
    exact hids.2
  · rw [hown]
    refine hasks.nodup horder.nodup (fun ask hmem => ?_) peerId
    obtain ⟨nodes, hnodes, hisAsk⟩ := hasks.sound ask hmem
    exact hlt (hisAsk.leads horder hnodes).entry

/-- A range with a peer that is ahead is asked for, from a peer that leads it. -/
theorem selfDelays_complete (horder : EnumeratesNested order offsets)
    (h : selfDelays fuel transactions selfOffsets order = .ok delays) {r v : Nat} {q : PeerId}
    (hv : peerOffset offsets r q = some v) (hahead : nextOffset selfOffsets r ≤ v) :
    ∃ peerId border intervals, Leads offsets r peerId border ∧
      delays.lookup peerId = some intervals ∧
      Covers transactions selfOffsets r border intervals := by
  obtain ⟨asks, hasks, hlook⟩ := selfDelays_ok h
  obtain ⟨peers, hpeers, hv⟩ := peerOffset_eq_some.mp hv
  obtain ⟨nodes, hnodes, henum⟩ := horder.complete hpeers
  obtain ⟨ask, hmem, rfl⟩ := hasks.complete hnodes (q, v) (henum.mem_iff.mpr hv) hahead
  obtain ⟨nodes', hnodes', hisAsk⟩ := hasks.sound ask hmem
  have hown : ask ∈ asks.filter fun a => a.peerId = ask.peerId :=
    List.mem_filter.mpr ⟨hmem, by simp⟩
  refine ⟨ask.peerId, ask.border,
    (asks.filter fun a => a.peerId = ask.peerId).flatMap Ask.intervals,
    hisAsk.leads horder hnodes', ?_, fun o hlow hhigh hnot => ?_⟩
  · rw [hlook, askedOf]
    simp only [if_neg (List.ne_nil_of_mem hown)]
  · obtain ⟨i, hi, hid⟩ := hisAsk.covers o hlow hhigh hnot
    exact ⟨i, List.mem_flatMap.mpr ⟨ask, hown, hi⟩, hid⟩

end Requests

/-- The requests that a tick sends are the delays of the state it ends in. -/
theorem App.Step.requests {PeerId L : Type} [LinearOrder PeerId] [Linearizer L] {sha256 : Sha256}
    {a a' : App PeerId L} {out : List (Outbox PeerId)}
    (h : App.Step sha256 a .advertiseTick a' out) : ∃ order fuel delays,
      EnumeratesNested order a'.offsets ∧
      selfDelays fuel a'.transactions a'.selfOffsets order = .ok delays ∧
      ∀ peerId intervals, .requestMissingTxs peerId intervals ∈ out ↔
        delays.lookup peerId = some intervals := by
  cases h with
  | advertise _ _ horder hdelays hsends =>
      refine ⟨_, _, _, horder, hdelays, fun peerId intervals => ?_⟩
      rw [← hsends.mem_iff]
      simp

end Maroon
