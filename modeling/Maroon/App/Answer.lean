import Maroon.App.Received
import Maroon.App.Step

/-!
# Answering a request for missing transactions

An answer that is sent has the stored transaction of each requested id, in the
order of the request (`handleRequestMissingTxs_ok`).  The loop over an interval
does not move past an id that is not stored, so an answer is sent only when all
of them are.  When they are, it is sent (`handleRequestMissingTxs_total`).  The
two together are `answers_iff`.
-/

namespace Maroon

open Lib Outcome

namespace App

variable {PeerId L : Type} {a : App PeerId L}

/-- The stored transactions with a requested id, in the order of the request. -/
def answerOf (a : App PeerId L) (intervals : List U64BlobIdClosedInterval) : List Transaction :=
  (intervals.flatMap U64BlobIdClosedInterval.ids).filterMap fun id => a.transactions.lookup id

/-- All that is requested is stored. -/
def HoldsAll (a : App PeerId L) (intervals : List U64BlobIdClosedInterval) : Prop :=
  ∀ i ∈ intervals, ∀ id ∈ i.ids, id ∈ a.transactions

/-! ## One transaction for each id -/

/-- The transactions stored under a list of ids. -/
def StoredUnder (a : App PeerId L) (txs : List Transaction) (ids : List Nat) : Prop :=
  txs.map Transaction.id = ids ∧ ∀ tx ∈ txs, a.transactions.lookup tx.id = some tx

/-- A store by id gives one transaction for each id that it has. -/
theorem StoredUnder.of_held (hkeyed : Keyed a.transactions) {ids : List Nat}
    (hheld : ∀ id ∈ ids, id ∈ a.transactions) :
    a.StoredUnder (ids.filterMap fun id => a.transactions.lookup id) ids := by
  induction ids with
  | nil => exact ⟨rfl, by simp⟩
  | cons id ids ih =>
      obtain ⟨tx, htx⟩ := HashMap.mem_iff_lookup.mp (hheld id List.mem_cons_self)
      obtain ⟨hmap, hlook⟩ := ih fun id' hid' => hheld id' (List.mem_cons_of_mem id hid')
      have hid := hkeyed id tx htx
      simp only [List.filterMap_cons, htx]
      refine ⟨by rw [List.map_cons, hmap, hid], fun tx' htx' => ?_⟩
      rcases List.mem_cons.mp htx' with rfl | hin
      · rw [hid, htx]
      · exact hlook tx' hin

/-! ## The loops -/

theorem answerRound_ok {pointer : Nat} {response : List Transaction}
    {state : Nat × List Transaction} (h : a.answerRound (pointer, response) = .ok state) :
    state = (pointer, response) ∨
      ∃ tx, a.transactions.lookup pointer = some tx ∧ state = (pointer + 1, response ++ [tx]) := by
  rw [answerRound] at h
  cases hlook : a.transactions.lookup pointer with
  | none =>
      simp only [hlook] at h
      cases h
      exact Or.inl rfl
  | some tx =>
      simp only [hlook] at h
      obtain ⟨next, hnext, h⟩ := bind_eq_ok.mp h
      obtain ⟨-, rfl⟩ := u64Add_ok.mp hnext
      cases h
      exact Or.inr ⟨tx, rfl, rfl⟩

/-- An interval that was answered to its end: all its ids are stored. -/
theorem answerInterval_ok {fuel : Nat} {response response' : List Transaction}
    {i : U64BlobIdClosedInterval} (h : a.answerInterval fuel response i = .ok response') :
    (∀ id ∈ i.ids, id ∈ a.transactions) ∧
      response' = response ++ i.ids.filterMap fun id => a.transactions.lookup id := by
  obtain ⟨⟨pointer, out⟩, hloop, hout⟩ := bind_eq_ok.mp h
  obtain ⟨⟨hleft, hright, hheld, htxs⟩, hc⟩ := whileLoop_ok
    (fun s : Nat × List Transaction => i.left ≤ s.1 ∧ s.1 ≤ max (i.right + 1) i.left ∧
      (∀ id ∈ List.range' i.left (s.1 - i.left), id ∈ a.transactions) ∧
      s.2 = response ++ (List.range' i.left (s.1 - i.left)).filterMap
        fun id => a.transactions.lookup id)
    (by
      rintro ⟨p, r⟩ s' ⟨hl, hr, hheld, htxs⟩ hc hb
      have hle : p ≤ i.right := of_decide_eq_true (Outcome.ok.inj hc)
      simp only at hl hheld htxs
      rcases answerRound_ok hb with rfl | ⟨tx, htx, rfl⟩
      · exact ⟨hl, hr, hheld, htxs⟩
      · have hcount : p + 1 - i.left = (p - i.left) + 1 := Nat.sub_add_comm hl
        have hlast : i.left + (p - i.left) = p := Nat.add_sub_cancel' hl
        refine ⟨Nat.le_succ_of_le hl, le_max_of_le_left (Nat.succ_le_succ hle), ?_, ?_⟩
        · intro id hid
          rw [hcount, List.range'_1_concat, hlast] at hid
          rcases List.mem_append.mp hid with hin | hin
          · exact hheld id hin
          · rw [List.mem_singleton.mp hin]
            exact HashMap.mem_iff_lookup.mpr ⟨tx, htx⟩
        · simp only [hcount, List.range'_1_concat, hlast, List.filterMap_append, htxs,
            List.filterMap_cons, htx, List.filterMap_nil, List.append_assoc])
    hloop ⟨le_rfl, le_max_right _ _, by simp [U64BlobIdClosedInterval.startId],
      by simp [U64BlobIdClosedInterval.startId]⟩
  have hgt : ¬ pointer ≤ i.right := of_decide_eq_false (Outcome.ok.inj hc)
  cases hout
  have hcount : pointer - i.left = i.right + 1 - i.left := by
    simp only at hleft hright
    omega
  simp only [hcount] at hheld htxs
  exact ⟨hheld, htxs⟩

/-- The loop over an interval ends when all its ids are stored. -/
theorem answerInterval_total {fuel : Nat} {i : U64BlobIdClosedInterval}
    (hheld : ∀ id ∈ i.ids, id ∈ a.transactions) (hlt : i.right + 1 < u64Bound)
    (hfuel : i.right + 1 - i.left < fuel) (response : List Transaction) :
    a.answerInterval fuel response i =
      .ok (response ++ i.ids.filterMap fun id => a.transactions.lookup id) := by
  have hloop : ∃ s', whileLoop
      (fun (s : Nat × List Transaction) => (pure (decide (s.1 ≤ i.right)) : Outcome Panic Bool))
      a.answerRound fuel (i.left, response) = .ok s' := by
    refine whileLoop_total (fun s => i.left ≤ s.1) (fun s => i.right + 1 - s.1)
      (fun s _ => ⟨_, rfl⟩) ?_ le_rfl hfuel
    rintro ⟨pointer, r⟩ hle hc
    have hright : pointer ≤ i.right := of_decide_eq_true (Outcome.ok.inj hc)
    obtain ⟨tx, htx⟩ := HashMap.mem_iff_lookup.mp
      (hheld pointer (U64BlobIdClosedInterval.mem_ids.mpr ⟨hle, hright⟩))
    refine ⟨(pointer + 1, r ++ [tx]), ?_, Nat.le_succ_of_le hle, by simp only; omega⟩
    rw [answerRound]
    simp only [htx, u64Add_ok.mpr ⟨show pointer + 1 < u64Bound by omega, rfl⟩]
    rfl
  obtain ⟨⟨pointer, out⟩, hloop⟩ := hloop
  have hanswer : a.answerInterval fuel response i = .ok out :=
    bind_eq_ok.mpr ⟨(pointer, out), hloop, rfl⟩
  rw [hanswer, (answerInterval_ok hanswer).2]

/-- An interval whose first id is not stored is never answered. -/
theorem answerInterval_stuck {i : U64BlobIdClosedInterval} (hle : i.left ≤ i.right)
    (hnot : i.left ∉ a.transactions) (fuel : Nat) (response : List Transaction) :
    a.answerInterval fuel response i = .outOfFuel := by
  have hlook : a.transactions.lookup i.left = none := Finmap.lookup_eq_none.mpr hnot
  have hround : a.answerRound (i.left, response) = .ok (i.left, response) := by
    simp only [answerRound, hlook]
    rfl
  have hstuck : whileLoop
      (fun (s : Nat × List Transaction) => (pure (decide (s.1 ≤ i.right)) : Outcome Panic Bool))
      a.answerRound fuel (i.left, response) = .outOfFuel :=
    whileLoop_stuck (by simp [hle]) hround fuel
  exact congrArg (fun loop => loop >>= fun s => pure s.2) hstuck

/-! ## The answer -/

/-- An answer has what was requested, all of which is stored. -/
theorem handleRequestMissingTxs_ok {fuel : Nat} {peerId : PeerId}
    {intervals : List U64BlobIdClosedInterval} {out : Outbox PeerId}
    (h : a.handleRequestMissingTxs fuel peerId intervals = .ok out) :
    a.HoldsAll intervals ∧ out = .requestedTxsForPeer peerId (a.answerOf intervals) := by
  obtain ⟨-, -, h⟩ := bind_eq_ok.mp h
  obtain ⟨response, hresponse, h⟩ := bind_eq_ok.mp h
  cases h
  obtain ⟨hheld, rfl⟩ := foldlM_ok (fun done response =>
    a.HoldsAll done ∧ response = a.answerOf done)
    hresponse ⟨by simp [HoldsAll], by simp [answerOf]⟩ (by
      rintro done i response response' ⟨hheld, rfl⟩ hstep
      obtain ⟨hi, rfl⟩ := answerInterval_ok hstep
      constructor
      · intro j hj
        rcases List.mem_append.mp hj with hin | hin
        · exact hheld j hin
        · exact List.mem_singleton.mp hin ▸ hi
      · rw [answerOf, answerOf, List.flatMap_append, List.flatMap_singleton,
          List.filterMap_append])
  exact ⟨hheld, rfl⟩

/-- A request for stored ids is answered. -/
theorem handleRequestMissingTxs_total {fuel : Nat} (peerId : PeerId)
    {intervals : List U64BlobIdClosedInterval} (hle : ∀ i ∈ intervals, i.left ≤ i.right)
    (hlt : ∀ i ∈ intervals, i.right + 1 < u64Bound)
    (hcount : (intervals.flatMap U64BlobIdClosedInterval.ids).length < u64Bound)
    (hheld : a.HoldsAll intervals) (hfuel : ∀ i ∈ intervals, i.right + 1 - i.left < fuel) :
    a.handleRequestMissingTxs fuel peerId intervals =
      .ok (.requestedTxsForPeer peerId (a.answerOf intervals)) := by
  have hcapacity := LogLineriazer.newElementsCount_ok.mpr ⟨hle, hcount, rfl⟩
  have hround : ∀ i ∈ intervals, ∀ response : List Transaction, True →
      ∃ response', a.answerInterval fuel response i = .ok response' ∧ True := by
    intro i hi response _
    exact ⟨_, answerInterval_total (hheld i hi) (hlt i hi) (hfuel i hi) response, trivial⟩
  obtain ⟨response, hresponse, -⟩ := foldlM_total (fun _ => True) hround (s := []) trivial
  have hanswer : a.handleRequestMissingTxs fuel peerId intervals =
      .ok (.requestedTxsForPeer peerId response) :=
    bind_eq_ok.mpr ⟨_, hcapacity, bind_eq_ok.mpr ⟨response, hresponse, rfl⟩⟩
  rw [hanswer, ← (handleRequestMissingTxs_ok hanswer).2]

variable [LinearOrder PeerId] [Linearizer L]

/-- The request is handled to the end.  The state stays as it is, and one message
is sent, with the stored transactions that were requested. -/
def Answers (a : App PeerId L) (peerId : PeerId) (intervals : List U64BlobIdClosedInterval) :
    Prop :=
  (∃ n, ∀ fuel ≥ n, a.handleRequestMissingTxs fuel peerId intervals =
      .ok (.requestedTxsForPeer peerId (a.answerOf intervals))) ∧
    ∀ sha256 a' out, Step sha256 a (.inbox (.requestMissingTxs peerId intervals)) a' out →
      a' = a ∧ out = [.requestedTxsForPeer peerId (a.answerOf intervals)]

theorem Step.answered {sha256 : Sha256} {peerId : PeerId}
    {intervals : List U64BlobIdClosedInterval} {a' : App PeerId L} {out : List (Outbox PeerId)}
    (h : Step sha256 a (.inbox (.requestMissingTxs peerId intervals)) a' out) :
    a' = a ∧ out = [.requestedTxsForPeer peerId (a.answerOf intervals)] := by
  cases h with
  | requestMissingTxs hanswer =>
      obtain ⟨-, rfl⟩ := handleRequestMissingTxs_ok hanswer
      exact ⟨rfl, rfl⟩

/-- A request is answered exactly when all that is requested is stored. -/
theorem answers_iff (a : App PeerId L) (peerId : PeerId)
    {intervals : List U64BlobIdClosedInterval} (hle : ∀ i ∈ intervals, i.left ≤ i.right)
    (hlt : ∀ i ∈ intervals, i.right + 1 < u64Bound)
    (hcount : (intervals.flatMap U64BlobIdClosedInterval.ids).length < u64Bound) :
    a.Answers peerId intervals ↔ a.HoldsAll intervals := by
  constructor
  · intro h
    obtain ⟨n, hanswer⟩ := h.1
    exact (handleRequestMissingTxs_ok (hanswer n le_rfl)).1
  · intro hheld
    refine ⟨⟨u64Bound, fun fuel hfuel => ?_⟩, fun sha256 a' out hstep => hstep.answered⟩
    refine handleRequestMissingTxs_total peerId hle hlt hcount hheld fun i hi => ?_
    have := hlt i hi
    omega

/-- Two ids of range 0 and one of range 1 are asked for. -/
theorem answers_held : App.Answers ({ App.new 0 Params.default with
    transactions := (((∅ : HashMap Nat Transaction).insert 0 ⟨0, .created⟩).insert 1
      ⟨1, .pending⟩).insert singleBlobSize ⟨singleBlobSize, .created⟩ }) 1
        [⟨0, 1⟩, ⟨singleBlobSize, singleBlobSize⟩] := by
  refine (answers_iff _ 1 (by simp) ?_ (by decide)).mpr ?_
  · simp only [List.mem_cons, List.not_mem_nil, or_false, forall_eq_or_imp, forall_eq]
    decide
  · intro i hi id hid
    simp only [Finmap.mem_insert]
    simp only [List.mem_cons, List.not_mem_nil, or_false] at hi
    rcases hi with rfl | rfl
    · have hid := U64BlobIdClosedInterval.mem_ids.mp hid
      simp only at hid
      omega
    · have hid := U64BlobIdClosedInterval.mem_ids.mp hid
      simp only at hid
      omega

/-- A node with no transactions that is asked for one never comes back. -/
theorem missing_id_unanswered : ¬ ∀ (a : App Nat LogLineriazer) (peerId : Nat)
    (intervals : List U64BlobIdClosedInterval), (∀ i ∈ intervals, i.left ≤ i.right) →
      (∀ i ∈ intervals, i.right + 1 < u64Bound) →
      (intervals.flatMap U64BlobIdClosedInterval.ids).length < u64Bound →
      a.Answers peerId intervals := by
  intro h
  obtain ⟨⟨n, hanswer⟩, -⟩ := h (App.new 0 Params.default) 1 [⟨0, 0⟩] (by simp)
    (by simp only [List.mem_singleton, forall_eq]; decide) (by decide)
  obtain ⟨count, -, hrest⟩ := bind_eq_ok.mp (hanswer n le_rfl)
  obtain ⟨response, hfold, -⟩ := bind_eq_ok.mp hrest
  rw [List.foldlM_cons, answerInterval_stuck (le_refl 0) Finmap.notMem_empty] at hfold
  cases hfold

end App

end Maroon
