import Maroon.Lib.Channel
import Maroon.Lib.Outcome
import Maroon.Lib.Run

/-!
# Requests with a future for the response

An invoker sends requests to a handler and gets a future for each response.  A
request travels with the sending end of a oneshot channel, and the future has the
receiving end.  The oneshot channels are numbered in the order of the requests.

`Session` adds the wrappers that the handler has taken and still owns.  It may
answer them in any order, or drop them, and a wrapper is used up by either.
`futures_resolve` says what a future shows after any such run.
-/

namespace Maroon

open Lib

/-! ## The pair -/

/-- A channel for a single response. -/
inductive Oneshot (Res : Type) where
  | pending
  | sent (res : Res)
  /-- The sender is gone and has sent nothing. -/
  | canceled

structure RequestWrapper (Req : Type) where
  request : Req
  /-- The sender of the oneshot channel with this number. -/
  response : Nat

/-- The reasons for which the source stops at a `todo!`. -/
inductive InvokerPanic where
  | handlerDropped
  | senderDropped
deriving DecidableEq, Repr

/-- The two ends, with the oneshot channels of all requests. -/
structure InvokerHandler (Req Res : Type) where
  channel : Channel (RequestWrapper Req)
  responses : List (Oneshot Res)

namespace InvokerHandler

variable {Req Res : Type}

def createInvokerHandlerPair : InvokerHandler Req Res where
  channel := .new
  responses := []

/-- The future of a request is the number of its oneshot channel. -/
def request (self : InvokerHandler Req Res) (req : Req) :
    Outcome InvokerPanic (InvokerHandler Req Res × Nat) :=
  match self.channel.send { request := req, response := self.responses.length } with
  | some channel =>
      pure ({ channel, responses := self.responses ++ [.pending] }, self.responses.length)
  | none => .panic .handlerDropped

/-- `none` is `Poll::Pending`. -/
def poll (self : InvokerHandler Req Res) (future : Nat) : Outcome InvokerPanic (Option Res) :=
  match self.responses[future]? with
  | some (.sent res) => pure (some res)
  | some .canceled => .panic .senderDropped
  | _ => pure none

/-- The handler takes the next request. -/
def recv (self : InvokerHandler Req Res) :
    Option (RequestWrapper Req × InvokerHandler Req Res) :=
  self.channel.recv.map fun (wrapper, channel) => (wrapper, { self with channel })

/-- `wrapper.response.send(res)` -/
def respond (self : InvokerHandler Req Res) (wrapper : RequestWrapper Req) (res : Res) :
    InvokerHandler Req Res :=
  { self with responses := self.responses.set wrapper.response (.sent res) }

/-- A wrapper is dropped unanswered. -/
def cancel (self : InvokerHandler Req Res) (wrapper : RequestWrapper Req) :
    InvokerHandler Req Res :=
  { self with responses := self.responses.set wrapper.response .canceled }

/-- The receiving end is dropped with the requests that wait in the channel. -/
def dropHandler (self : InvokerHandler Req Res) : InvokerHandler Req Res :=
  { self.channel.queue.foldl cancel self with channel := self.channel.close }

theorem request_ok {self self' : InvokerHandler Req Res} {req : Req} {future : Nat} :
    self.request req = .ok (self', future) ↔ self.channel.isOpen = true ∧
      future = self.responses.length ∧
      self' = { channel := self.channel.push [⟨req, self.responses.length⟩]
                responses := self.responses ++ [.pending] } := by
  unfold request
  cases hsend : self.channel.send ⟨req, self.responses.length⟩ with
  | some channel =>
      obtain ⟨hopen, rfl⟩ := Channel.send_eq_some.mp hsend
      simp only [Outcome.pure_eq, Outcome.ok.injEq, Prod.mk.injEq, hopen, true_and]
      exact ⟨fun ⟨h, h'⟩ => ⟨h'.symm, h.symm⟩, fun ⟨h, h'⟩ => ⟨h'.symm, h.symm⟩⟩
  | none =>
      have hclosed := Channel.send_eq_none.mp hsend
      simp [hclosed]

theorem poll_ready {self : InvokerHandler Req Res} {future : Nat} {res : Res} :
    self.poll future = .ok (some res) ↔ self.responses[future]? = some (.sent res) := by
  unfold poll
  split
  next res' h => simp [h]
  next h => simp [h]
  next h h' =>
    simp only [Outcome.pure_eq, Outcome.ok.injEq, reduceCtorEq, false_iff]
    exact h res

theorem canceled_of_poll {self : InvokerHandler Req Res} {future : Nat} {reason : InvokerPanic}
    (h : self.poll future = .panic reason) : .canceled ∈ self.responses := by
  unfold poll at h
  split at h
  next => cases h
  next hcanceled => exact List.mem_of_getElem? hcanceled
  next => cases h

theorem poll_pending {self : InvokerHandler Req Res} {future : Nat}
    (hlt : future < self.responses.length) :
    self.poll future = .ok none ↔ self.responses[future]? = some .pending := by
  unfold poll
  split
  next res' h => simp [h]
  next h => simp [h]
  next h h' =>
    refine iff_of_true rfl ?_
    cases hat : self.responses[future] with
    | pending => rw [List.getElem?_eq_getElem hlt, hat]
    | sent res => exact absurd (hat ▸ List.getElem?_eq_getElem hlt) (h res)
    | canceled => exact absurd (hat ▸ List.getElem?_eq_getElem hlt) h'

theorem recv_eq_some {self self' : InvokerHandler Req Res} {wrapper : RequestWrapper Req} :
    self.recv = some (wrapper, self') ↔ self.channel.queue = wrapper :: self'.channel.queue ∧
      self'.channel.isOpen = self.channel.isOpen ∧ self'.responses = self.responses := by
  obtain ⟨channel', responses'⟩ := self'
  simp only [recv, Option.map_eq_some_iff, Prod.mk.injEq, mk.injEq]
  constructor
  · rintro ⟨⟨head, channel⟩, hrecv, rfl, rfl, rfl⟩
    obtain ⟨hqueue, hopen⟩ := Channel.recv_eq_some.mp hrecv
    exact ⟨hqueue, hopen, rfl⟩
  · rintro ⟨hqueue, hopen, rfl⟩
    exact ⟨⟨wrapper, channel'⟩, Channel.recv_eq_some.mpr ⟨hqueue, hopen⟩, rfl, rfl, rfl⟩

/-- What a list of dropped wrappers does to the oneshot channels. -/
theorem foldl_cancel_getElem? (wrappers : List (RequestWrapper Req))
    (self : InvokerHandler Req Res) (k : Nat) :
    (wrappers.foldl cancel self).responses[k]? =
      if (∃ w ∈ wrappers, w.response = k) ∧ k < self.responses.length then some .canceled
      else self.responses[k]? := by
  induction wrappers generalizing self with
  | nil => simp
  | cons w wrappers ih =>
      rw [List.foldl_cons, ih]
      simp only [cancel, List.length_set, List.getElem?_set, List.mem_cons]
      by_cases hlt : k < self.responses.length
      · by_cases hw : w.response = k
        · subst hw
          simp [hlt]
        · simp [hw]
      · have hnone : self.responses[k]? = none := List.getElem?_eq_none (by omega)
        simp [hlt]
        omega

theorem foldl_cancel_length (wrappers : List (RequestWrapper Req))
    (self : InvokerHandler Req Res) :
    (wrappers.foldl cancel self).responses.length = self.responses.length := by
  induction wrappers generalizing self with
  | nil => rfl
  | cons w wrappers ih =>
      rw [List.foldl_cons, ih]
      exact List.length_set

/-- Dropping the handler sends nothing. -/
theorem mem_of_mem_dropHandler {self : InvokerHandler Req Res} {res : Res}
    (h : .sent res ∈ self.dropHandler.responses) : .sent res ∈ self.responses := by
  obtain ⟨k, hk⟩ := List.mem_iff_getElem?.mp h
  rw [dropHandler, foldl_cancel_getElem?] at hk
  split at hk
  next => cases hk
  next => exact List.mem_of_getElem? hk

/-! ## Sessions -/

/-- The pair with what the handler owns, and with the history of both sides. -/
structure Session (Req Res : Type) where
  pair : InvokerHandler Req Res
  /-- The wrappers that the handler has taken and not used up. -/
  held : List (RequestWrapper Req)
  asked : List Req
  received : List (RequestWrapper Req)
  answers : List (RequestWrapper Req × Res)

/-- What the two sides can do. -/
inductive Operation (Req Res : Type) where
  | request (req : Req)
  | recv
  | respond (wrapper : RequestWrapper Req) (res : Res)
  | cancel (wrapper : RequestWrapper Req)
  | dropHandler

namespace Session

def start : Session Req Res where
  pair := createInvokerHandlerPair
  held := []
  asked := []
  received := []
  answers := []

/-- What is held once the wrapper is used up. -/
def without (held : List (RequestWrapper Req)) (wrapper : RequestWrapper Req) :
    List (RequestWrapper Req) :=
  held.filter fun w => w.response ≠ wrapper.response

/-- A request that panics leaves the session as it is. -/
def step (s : Session Req Res) : Operation Req Res → Session Req Res
  | .request req =>
      match s.pair.request req with
      | .ok (pair, _) => { s with pair, asked := s.asked ++ [req] }
      | _ => s
  | .recv =>
      match s.pair.recv with
      | some (wrapper, pair) =>
          { s with pair, held := s.held ++ [wrapper], received := s.received ++ [wrapper] }
      | none => s
  | .respond wrapper res =>
      { s with
        pair := s.pair.respond wrapper res
        held := without s.held wrapper
        answers := s.answers ++ [(wrapper, res)] }
  | .cancel wrapper => { s with pair := s.pair.cancel wrapper, held := without s.held wrapper }
  | .dropHandler => { s with pair := s.pair.dropHandler }

/-- A wrapper can be used by its owner only. -/
def Owned (s : Session Req Res) : Operation Req Res → Prop
  | .respond wrapper _ => wrapper ∈ s.held
  | .cancel wrapper => wrapper ∈ s.held
  | _ => True

/-- The wrappers of a list of requests. -/
def wrappers (asked : List Req) : List (RequestWrapper Req) :=
  asked.mapIdx fun future request => { request, response := future }

theorem wrappers_append (asked : List Req) (req : Req) :
    wrappers (asked ++ [req]) = wrappers asked ++ [⟨req, asked.length⟩] := by
  simp [wrappers, List.mapIdx_append]

/-- The wrappers of the requests are numbered upwards. -/
theorem wrappers_ascending (asked : List Req) :
    (wrappers asked).Pairwise fun v w => v.response < w.response := by
  rw [List.pairwise_iff_getElem]
  intro i j hi hj hlt
  simpa [wrappers] using hlt

/-- The wrappers that are still to be used. -/
def unused (s : Session Req Res) : List (RequestWrapper Req) := s.pair.channel.queue ++ s.held

/-- Each unused wrapper belongs to a pending future, and each answer to a request
that was made. -/
structure Linked (s : Session Req Res) : Prop where
  length : s.pair.responses.length = s.asked.length
  asked : ∀ w ∈ s.unused, s.asked[w.response]? = some w.request
  nodup : (s.unused.map RequestWrapper.response).Nodup
  pending : ∀ k, s.pair.responses[k]? = some .pending ↔ ∃ w ∈ s.unused, w.response = k
  answered : ∀ k res, s.pair.responses[k]? = some (.sent res) ↔
    ∃ w, (w, res) ∈ s.answers ∧ w.response = k
  answers_asked : ∀ w res, (w, res) ∈ s.answers → s.asked[w.response]? = some w.request
  answered_once : (s.answers.map fun answer => answer.1.response).Nodup
  received : s.received ++ s.pair.channel.queue <+: wrappers s.asked
  /-- As long as the handler receives, nothing is lost on the way to it. -/
  complete : s.pair.channel.isOpen = true →
    s.received ++ s.pair.channel.queue = wrappers s.asked

theorem Linked.start : (start : Session Req Res).Linked where
  length := rfl
  asked := by simp [unused, Session.start, createInvokerHandlerPair]
  nodup := by simp [unused, Session.start, createInvokerHandlerPair]
  pending := by simp [unused, Session.start, createInvokerHandlerPair]
  answered := by simp [Session.start, createInvokerHandlerPair]
  answers_asked := by simp [Session.start]
  answered_once := by simp [Session.start]
  received := by simp [Session.start, createInvokerHandlerPair]
  complete := by simp [wrappers, Session.start, createInvokerHandlerPair]

variable {s : Session Req Res}

private theorem getElem?_snoc {α : Type} {l : List α} {a b : α} {k : Nat} :
    (l ++ [a])[k]? = some b ↔ l[k]? = some b ∨ k = l.length ∧ a = b := by
  rw [List.getElem?_append]
  split
  next hlt =>
    simp
    omega
  next hge =>
    rw [List.getElem?_eq_none (by omega : l.length ≤ k)]
    simp [List.getElem?_singleton]
    omega

/-- The session after a request that was sent. -/
def asking (s : Session Req Res) (req : Req) : Session Req Res :=
  { s with
    pair := {
      channel := s.pair.channel.push [⟨req, s.pair.responses.length⟩]
      responses := s.pair.responses ++ [.pending] }
    asked := s.asked ++ [req] }

theorem Linked.lt (h : s.Linked) {w : RequestWrapper Req} (hw : w ∈ s.unused) :
    w.response < s.pair.responses.length := by
  rw [h.length]
  exact (List.getElem?_eq_some_iff.mp (h.asked w hw)).1

/-- Who has not been answered is not among those that were. -/
theorem Linked.unanswered (h : s.Linked) {w : RequestWrapper Req} (hw : w ∈ s.unused)
    {answer : RequestWrapper Req × Res} (hans : answer ∈ s.answers) :
    answer.1.response ≠ w.response := by
  intro heq
  have hpending := (h.pending w.response).mpr ⟨w, hw, rfl⟩
  rw [(h.answered w.response answer.2).mpr ⟨answer.1, hans, heq⟩] at hpending
  cases hpending

theorem Linked.asking (h : s.Linked) (hopen : s.pair.channel.isOpen = true) (req : Req) :
    (s.asking req).Linked := by
  have hperm : (s.asking req).unused.Perm (⟨req, s.pair.responses.length⟩ :: s.unused) := by
    show ((s.pair.channel.push [_]).queue ++ s.held).Perm _
    rw [Channel.push_queue hopen, List.append_assoc]
    exact List.perm_middle
  have hmem : ∀ w, w ∈ (s.asking req).unused ↔
      w = ⟨req, s.pair.responses.length⟩ ∨ w ∈ s.unused := by
    intro w
    rw [hperm.mem_iff, List.mem_cons]
  have hin : (s.asking req).received ++ (s.asking req).pair.channel.queue =
      wrappers (s.asking req).asked := by
    show s.received ++ (s.pair.channel.push [_]).queue = wrappers (s.asked ++ [req])
    rw [Channel.push_queue hopen, ← List.append_assoc, h.complete hopen, wrappers_append, h.length]
  refine ⟨?_, ?_, ?_, ?_, ?_, ?_, h.answered_once, hin ▸ List.prefix_rfl,
    fun _ => hin⟩
  · simp [Session.asking, h.length]
  · intro w hw
    rcases (hmem w).mp hw with rfl | hold
    · simp [Session.asking, h.length]
    · show (s.asked ++ [req])[w.response]? = _
      rw [getElem?_snoc]
      exact Or.inl (h.asked w hold)
  · refine (hperm.map RequestWrapper.response).nodup_iff.mpr (List.nodup_cons.mpr ⟨?_, h.nodup⟩)
    intro hin
    obtain ⟨w, hw, heq⟩ := List.mem_map.mp hin
    exact absurd (h.lt hw) (by simp [heq])
  · intro k
    show (s.pair.responses ++ [_])[k]? = _ ↔ _
    rw [getElem?_snoc, h.pending]
    constructor
    · rintro (⟨w, hw, rfl⟩ | ⟨rfl, -⟩)
      · exact ⟨w, (hmem w).mpr (Or.inr hw), rfl⟩
      · exact ⟨_, (hmem _).mpr (Or.inl rfl), rfl⟩
    · rintro ⟨w, hw, rfl⟩
      rcases (hmem w).mp hw with rfl | hold
      · exact Or.inr ⟨rfl, rfl⟩
      · exact Or.inl ⟨w, hold, rfl⟩
  · intro k res
    show (s.pair.responses ++ [_])[k]? = _ ↔ ∃ w, (w, res) ∈ s.answers ∧ w.response = k
    rw [getElem?_snoc, h.answered]
    simp
  · intro w res hw
    have hasked := h.answers_asked w res hw
    show (s.asked ++ [req])[w.response]? = _
    rw [getElem?_snoc]
    exact Or.inl hasked

/-- The session after the handler has taken a request. -/
def receiving (s : Session Req Res) (wrapper : RequestWrapper Req)
    (pair : InvokerHandler Req Res) : Session Req Res :=
  { s with pair, held := s.held ++ [wrapper], received := s.received ++ [wrapper] }

theorem Linked.receiving (h : s.Linked) {wrapper : RequestWrapper Req}
    {pair : InvokerHandler Req Res} (hrecv : s.pair.recv = some (wrapper, pair)) :
    (s.receiving wrapper pair).Linked := by
  obtain ⟨hqueue, hopen, hresponses⟩ := recv_eq_some.mp hrecv
  have hperm : (s.receiving wrapper pair).unused.Perm s.unused := by
    show (pair.channel.queue ++ (s.held ++ [wrapper])).Perm (s.pair.channel.queue ++ s.held)
    rw [hqueue, ← List.append_assoc]
    exact List.perm_append_singleton _ _
  have hin : (s.receiving wrapper pair).received ++ pair.channel.queue =
      s.received ++ s.pair.channel.queue := by
    rw [hqueue, Session.receiving, List.append_assoc, List.singleton_append]
  constructor
  · exact (congrArg List.length hresponses).trans h.length
  · exact fun w hw => h.asked w (hperm.mem_iff.mp hw)
  · exact (hperm.map RequestWrapper.response).nodup_iff.mpr h.nodup
  · intro k
    simp only [Session.receiving, hresponses, h.pending]
    exact exists_congr fun w => and_congr_left fun _ => hperm.mem_iff.symm
  · intro k res
    simp only [Session.receiving, hresponses]
    exact h.answered k res
  · exact h.answers_asked
  · exact h.answered_once
  · exact hin ▸ h.received
  · intro hstill
    exact hin.trans (h.complete (hopen ▸ hstill))

/-- The session after a wrapper is used up with a result. -/
def usedUp (s : Session Req Res) (wrapper : RequestWrapper Req) (result : Oneshot Res)
    (answers : List (RequestWrapper Req × Res)) : Session Req Res :=
  { s with
    pair := { s.pair with responses := s.pair.responses.set wrapper.response result }
    held := without s.held wrapper
    answers }

theorem Linked.mem_usedUp (h : s.Linked) {wrapper : RequestWrapper Req} (hw : wrapper ∈ s.held)
    {result : Oneshot Res} {answers : List (RequestWrapper Req × Res)} {w : RequestWrapper Req} :
    w ∈ (s.usedUp wrapper result answers).unused ↔
      w ∈ s.unused ∧ w.response ≠ wrapper.response := by
  have hqueue : w ∈ s.pair.channel.queue → w.response ≠ wrapper.response := by
    intro hwq heq
    have hapart := (List.nodup_append.mp (List.map_append ▸ h.nodup)).2.2
    exact hapart _ (List.mem_map_of_mem hwq) _ (List.mem_map_of_mem hw) heq
  simp only [Session.usedUp, unused, without, List.mem_append, List.mem_filter,
    decide_eq_true_eq]
  tauto

/-- The answers that come with a result: none for a wrapper that is dropped. -/
def AnswersOf (wrapper : RequestWrapper Req) (result : Oneshot Res)
    (new : List (RequestWrapper Req × Res)) : Prop :=
  new = [] ∧ result = .canceled ∨ ∃ res, new = [(wrapper, res)] ∧ result = .sent res

/-- A response is in its oneshot channel when it is among the answers, after a
wrapper is used up too. -/
theorem Linked.answered_usedUp (h : s.Linked) {wrapper : RequestWrapper Req}
    (hin : wrapper ∈ s.unused) {result : Oneshot Res} {new : List (RequestWrapper Req × Res)}
    (hnew : AnswersOf wrapper result new) (k : Nat) (res : Res) :
    (s.pair.responses.set wrapper.response result)[k]? = some (.sent res) ↔
      ∃ w, (w, res) ∈ s.answers ++ new ∧ w.response = k := by
  rcases eq_or_ne wrapper.response k with rfl | hne
  · have hold : ¬ ∃ w, (w, res) ∈ s.answers ∧ w.response = wrapper.response := by
      rintro ⟨w, hans, heq⟩
      exact h.unanswered hin hans heq
    rw [List.getElem?_set_self (h.lt hin)]
    rcases hnew with ⟨rfl, rfl⟩ | ⟨res', rfl, rfl⟩
    · simpa using hold
    · simp only [Option.some.injEq, Oneshot.sent.injEq, List.mem_append, List.mem_singleton,
        Prod.mk.injEq]
      constructor
      · rintro rfl
        exact ⟨wrapper, Or.inr ⟨rfl, rfl⟩, rfl⟩
      · rintro ⟨w, hans | ⟨-, rfl⟩, heq⟩
        · exact absurd heq (h.unanswered hin hans)
        · rfl
  · rw [List.getElem?_set_ne hne, h.answered]
    refine exists_congr fun w => and_congr_left fun hk => ?_
    rcases hnew with ⟨rfl, -⟩ | ⟨res', rfl, -⟩
    · simp
    · have hother : w ≠ wrapper := by
        rintro rfl
        exact hne hk
      simp [hother]

theorem Linked.usedUp (h : s.Linked) {wrapper : RequestWrapper Req} (hw : wrapper ∈ s.held)
    {result : Oneshot Res} (hresult : result ≠ .pending)
    {new : List (RequestWrapper Req × Res)} (hnew : AnswersOf wrapper result new) :
    (s.usedUp wrapper result (s.answers ++ new)).Linked := by
  have hin : wrapper ∈ s.unused := List.mem_append_right _ hw
  constructor
  · simp [Session.usedUp, h.length]
  · exact fun w hw' => h.asked w ((h.mem_usedUp hw).mp hw').1
  · have hsub : (s.usedUp wrapper result (s.answers ++ new)).unused.Sublist s.unused :=
      List.Sublist.append_left List.filter_sublist _
    exact h.nodup.sublist (hsub.map _)
  · intro k
    rcases eq_or_ne wrapper.response k with rfl | hne
    · refine iff_of_false ?_ ?_
      · simpa [Session.usedUp, List.getElem?_set_self (h.lt hin)] using hresult
      · rintro ⟨w, hw', heq⟩
        exact ((h.mem_usedUp hw).mp hw').2 heq
    · simp only [Session.usedUp, List.getElem?_set_ne hne, h.pending]
      constructor
      · rintro ⟨w, hw', rfl⟩
        exact ⟨w, (h.mem_usedUp hw).mpr ⟨hw', hne.symm⟩, rfl⟩
      · rintro ⟨w, hw', rfl⟩
        exact ⟨w, ((h.mem_usedUp hw).mp hw').1, rfl⟩
  · exact h.answered_usedUp hin hnew
  · intro w res hans
    rcases List.mem_append.mp hans with hold | hlast
    · exact h.answers_asked w res hold
    · rcases hnew with ⟨rfl, -⟩ | ⟨res', rfl, -⟩
      · cases hlast
      · obtain ⟨rfl, -⟩ := Prod.mk.inj (List.mem_singleton.mp hlast)
        exact h.asked w hin
  · show ((s.answers ++ new).map fun answer => answer.1.response).Nodup
    rcases hnew with ⟨rfl, -⟩ | ⟨res', rfl, -⟩
    · simpa using h.answered_once
    · rw [List.map_append, List.nodup_append]
      refine ⟨h.answered_once, by simp, ?_⟩
      intro k hk k' hk'
      obtain ⟨answer, hans, rfl⟩ := List.mem_map.mp hk
      rw [List.mem_singleton.mp hk']
      exact h.unanswered hin hans
  · exact h.received
  · exact h.complete

theorem Linked.dropHandler (h : s.Linked) : (s.step .dropHandler).Linked := by
  have hresponses : ∀ k, (s.step .dropHandler).pair.responses[k]? =
      if ∃ w ∈ s.pair.channel.queue, w.response = k then some .canceled
      else s.pair.responses[k]? := by
    intro k
    show ((s.pair.channel.queue.foldl cancel s.pair).responses)[k]? = _
    rw [foldl_cancel_getElem?]
    refine if_congr (and_iff_left_of_imp ?_) rfl rfl
    rintro ⟨w, hw, rfl⟩
    exact h.lt (List.mem_append_left _ hw)
  have hapart := (List.nodup_append.mp (List.map_append ▸ h.nodup)).2.2
  constructor
  · exact (foldl_cancel_length _ _).trans h.length
  · exact fun w hw => h.asked w (List.mem_append_right _ hw)
  · exact (List.nodup_append.mp (List.map_append ▸ h.nodup)).2.1
  · intro k
    rw [hresponses]
    split
    next hdropped =>
      obtain ⟨w, hw, rfl⟩ := hdropped
      refine iff_of_false (by simp) ?_
      rintro ⟨v, hv, heq⟩
      exact hapart _ (List.mem_map_of_mem hw) _ (List.mem_map_of_mem hv) heq.symm
    next hkept =>
      rw [h.pending]
      refine exists_congr fun w => and_congr_left fun hk => ?_
      refine ⟨fun hw => (List.mem_append.mp hw).resolve_left fun hq => hkept ⟨w, hq, hk⟩, ?_⟩
      exact fun hw => List.mem_append_right _ hw
  · intro k res
    rw [hresponses]
    split
    next hdropped =>
      obtain ⟨w, hw, rfl⟩ := hdropped
      refine iff_of_false (by simp) ?_
      rintro ⟨w', hans, heq⟩
      exact h.unanswered (List.mem_append_left _ hw) hans heq
    next => exact h.answered k res
  · exact h.answers_asked
  · exact h.answered_once
  · exact (List.append_nil s.received).symm ▸ (List.prefix_append _ _).trans h.received
  · intro hopen
    cases hopen

theorem Linked.step (h : s.Linked) {op : Operation Req Res} (howned : s.Owned op) :
    (s.step op).Linked := by
  cases op with
  | request req =>
      cases hreq : s.pair.request req with
      | ok result =>
          obtain ⟨hopen, -, hpair⟩ := request_ok.mp hreq
          have heq : s.step (.request req) = s.asking req := by
            simp only [Session.step, hreq, hpair, Session.asking]
          exact heq ▸ h.asking hopen req
      | panic reason => simpa only [Session.step, hreq] using h
      | outOfFuel => simpa only [Session.step, hreq] using h
  | recv =>
      cases hrecv : s.pair.recv with
      | none => simpa only [Session.step, hrecv] using h
      | some taken =>
          have heq : s.step .recv = s.receiving taken.1 taken.2 := by
            simp only [Session.step, hrecv, Session.receiving]
          exact heq ▸ h.receiving hrecv
  | respond wrapper res =>
      exact h.usedUp howned (by simp) (Or.inr ⟨res, rfl, rfl⟩)
  | cancel wrapper =>
      have hlinked := h.usedUp howned (show (.canceled : Oneshot Res) ≠ .pending by simp)
        (Or.inl ⟨rfl, rfl⟩)
      rw [List.append_nil] at hlinked
      exact hlinked
  | dropHandler => exact h.dropHandler

/-- What the handler has taken was asked before what waits. -/
theorem Linked.received_lt (h : s.Linked) {v w : RequestWrapper Req} (hv : v ∈ s.received)
    (hw : w ∈ s.pair.channel.queue) : v.response < w.response :=
  (List.pairwise_append.mp ((wrappers_ascending s.asked).sublist h.received.sublist)).2.2 v hv w hw

theorem Linked.poll_none_iff (h : s.Linked) {future : Nat} {req : Req}
    (hreq : s.asked[future]? = some req) : s.pair.poll future = .ok none ↔
      ⟨req, future⟩ ∈ s.pair.channel.queue ∨ ⟨req, future⟩ ∈ s.held := by
  have hlt : future < s.pair.responses.length := by
    rw [h.length]
    exact (List.getElem?_eq_some_iff.mp hreq).1
  rw [poll_pending hlt, h.pending, ← List.mem_append]
  constructor
  · rintro ⟨w, hw, rfl⟩
    obtain rfl : w.request = req := Option.some.inj ((h.asked w hw).symm.trans hreq)
    exact hw
  · intro hw
    exact ⟨_, hw, rfl⟩

theorem Linked.poll_some_iff (h : s.Linked) {future : Nat} {req : Req}
    (hreq : s.asked[future]? = some req) {res : Res} :
    s.pair.poll future = .ok (some res) ↔ (⟨req, future⟩, res) ∈ s.answers := by
  rw [poll_ready, h.answered]
  constructor
  · rintro ⟨w, hans, rfl⟩
    obtain rfl : w.request = req :=
      Option.some.inj ((h.answers_asked w res hans).symm.trans hreq)
    exact hans
  · intro hans
    exact ⟨_, hans, rfl⟩

/-- The session after some operations. -/
def after (ops : List (Operation Req Res)) : Session Req Res := ops.foldl step start

/-- The answer that an operation gives. -/
def answerOf : Operation Req Res → Option (RequestWrapper Req × Res)
  | .respond wrapper res => some (wrapper, res)
  | _ => none

theorem step_answers (s : Session Req Res) (op : Operation Req Res) :
    (s.step op).answers = s.answers ++ (answerOf op).toList := by
  cases op with
  | request req =>
      simp only [step, answerOf, Option.toList_none, List.append_nil]
      split <;> rfl
  | recv =>
      simp only [step, answerOf, Option.toList_none, List.append_nil]
      split <;> rfl
  | _ => simp [step, answerOf]

theorem foldl_step_answers (ops : List (Operation Req Res)) (s : Session Req Res) :
    (ops.foldl step s).answers = s.answers ++ ops.filterMap answerOf := by
  induction ops generalizing s with
  | nil => simp
  | cons op ops ih =>
      rw [List.foldl_cons, ih, step_answers, List.append_assoc, List.filterMap_cons]
      cases answerOf op <;> rfl

theorem after_linked {ops : List (Operation Req Res)} (h : Along step Owned start ops) :
    (after ops : Session Req Res).Linked :=
  (h.throughout (fun _ _ hs howned => hs.step howned) Linked.start).last

/-- A future is pending as long as its wrapper waits or is owned by the handler,
and it is ready with what the handler has answered to its own request, in
whatever order the handler answers.  No request is answered twice, and the
handler gets the requests in the order in which they were made. -/
theorem futures_resolve {ops : List (Operation Req Res)} (h : Along step Owned start ops) :
    (∀ future req, (after ops : Session Req Res).asked[future]? = some req →
      ((after ops).pair.poll future = .ok none ↔
        ⟨req, future⟩ ∈ (after ops).pair.channel.queue ∨ ⟨req, future⟩ ∈ (after ops).held) ∧
      ∀ res, (after ops).pair.poll future = .ok (some res) ↔ .respond ⟨req, future⟩ res ∈ ops) ∧
    ((ops.filterMap answerOf).map fun answer => answer.1.response).Nodup ∧
    (after ops).received <+: wrappers (after ops).asked := by
  have hlinked := after_linked h
  have hanswers : (after ops).answers = ops.filterMap answerOf := foldl_step_answers ops start
  refine ⟨fun future req hreq => ⟨hlinked.poll_none_iff hreq, fun res => ?_⟩,
    hanswers ▸ hlinked.answered_once, (List.prefix_append _ _).trans hlinked.received⟩
  rw [hlinked.poll_some_iff hreq, hanswers, List.mem_filterMap]
  constructor
  · rintro ⟨op, hop, hans⟩
    cases op with
    | respond wrapper res' =>
        obtain ⟨rfl, rfl⟩ := Prod.mk.inj (Option.some.inj hans)
        exact hop
    | _ => cases hans
  · intro hop
    exact ⟨_, hop, rfl⟩

/-- Two requests, of which the handler answers the second one first. -/
def swappedAnswers : List (Operation Nat Nat) :=
  [.request 1, .request 2, .recv, .recv, .respond ⟨2, 1⟩ 2, .respond ⟨1, 0⟩ 1]

theorem futures_resolve_swapped : (after swappedAnswers).pair.poll 0 = .ok (some 1) ∧
    (after swappedAnswers).pair.poll 1 = .ok (some 2) := by
  have howned : Along step Owned (start : Session Nat Nat) swappedAnswers := by
    refine ⟨trivial, trivial, trivial, trivial, ?_, ?_, trivial⟩
    · exact List.mem_cons_of_mem _ (List.mem_singleton_self _)
    · exact List.mem_singleton_self _
  have hresolve := (futures_resolve howned).1
  exact ⟨((hresolve 0 1 rfl).2 1).mpr (by simp [swappedAnswers]),
    ((hresolve 1 2 rfl).2 2).mpr (by simp [swappedAnswers])⟩

end Session

end InvokerHandler

end Maroon
