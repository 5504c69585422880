import Mathlib.Data.List.Basic

/-!
# Unbounded channels

A channel keeps what was sent in a queue until its receiver takes it.  Once the
receiver is dropped the queue is gone and nothing can be sent any more.

`Moves c c' taken put` relates a channel before and after some operations to
what was taken from it and what was put into it meanwhile.  As long as the
channel is open, what waited and what came is what was taken and what waits now,
in this order.  `Moves.trans` joins two spans of time.  From a new channel on,
what was taken is a prefix of what was put (`Moves.fifo`): nothing is lost,
repeated or overtaken.
-/

namespace Lib

@[ext]
structure Channel (α : Type) where
  queue : List α
  isOpen : Bool
  closed_empty : isOpen = false → queue = []

namespace Channel

variable {α : Type} {c c' : Channel α} {msg : α}

def new : Channel α where
  queue := []
  isOpen := true
  closed_empty _ := rfl

/-- What is put at the end of the queue, while the receiver is there. -/
def push (c : Channel α) (msgs : List α) : Channel α :=
  if c.isOpen then
    { queue := c.queue ++ msgs
      isOpen := true
      closed_empty := nofun }
  else c

/-- A message cannot be sent once the receiver is gone. -/
def send (c : Channel α) (msg : α) : Option (Channel α) :=
  if c.isOpen then some (c.push [msg]) else none

/-- The oldest message, if one waits. -/
def recv (c : Channel α) : Option (α × Channel α) :=
  match h : c.queue with
  | [] => none
  | msg :: queue =>
      some (msg, {
        queue
        isOpen := c.isOpen
        closed_empty := fun hclosed => by simp [c.closed_empty hclosed] at h })

/-- The receiver is dropped, with all that waits for it. -/
def close (_ : Channel α) : Channel α where
  queue := []
  isOpen := false
  closed_empty _ := rfl

@[simp] theorem new_queue : (new : Channel α).queue = [] := rfl

@[simp] theorem new_isOpen : (new : Channel α).isOpen = true := rfl

@[simp] theorem close_queue (c : Channel α) : c.close.queue = [] := rfl

@[simp] theorem close_isOpen (c : Channel α) : c.close.isOpen = false := rfl

@[simp] theorem push_isOpen (c : Channel α) (msgs : List α) : (c.push msgs).isOpen = c.isOpen := by
  unfold push
  split
  next h => exact h.symm
  next => rfl

theorem push_queue (h : c.isOpen = true) (msgs : List α) :
    (c.push msgs).queue = c.queue ++ msgs := by
  rw [push, if_pos h]

theorem push_of_closed (h : c.isOpen = false) (msgs : List α) : c.push msgs = c := by
  simp [push, h]

@[simp] theorem push_nil (c : Channel α) : c.push [] = c := by
  unfold push
  split
  next h => ext1 <;> simp [h]
  next => rfl

theorem push_push (c : Channel α) (msgs msgs' : List α) :
    (c.push msgs).push msgs' = c.push (msgs ++ msgs') := by
  cases h : c.isOpen with
  | true =>
      ext1
      · rw [push_queue (by simpa using h), push_queue h, push_queue h, List.append_assoc]
      · simp
  | false => simp only [push_of_closed h]

theorem isOpen_of_mem (h : msg ∈ c.queue) : c.isOpen = true := by
  cases hopen : c.isOpen with
  | true => rfl
  | false => simp [c.closed_empty hopen] at h

theorem send_eq_some : c.send msg = some c' ↔ c.isOpen = true ∧ c' = c.push [msg] := by
  unfold send
  split
  next h => simp [h, eq_comm]
  next h => simp [h]

theorem send_eq_none : c.send msg = none ↔ c.isOpen = false := by
  simp [send]

theorem recv_eq_some :
    c.recv = some (msg, c') ↔ c.queue = msg :: c'.queue ∧ c'.isOpen = c.isOpen := by
  unfold recv
  split
  next h => simp [h]
  next head queue h =>
    simp only [Option.some.injEq, Prod.mk.injEq, Channel.ext_iff, h, List.cons.injEq]
    exact ⟨fun ⟨h, h', h''⟩ => ⟨⟨h, h'⟩, h''.symm⟩, fun ⟨⟨h, h'⟩, h''⟩ => ⟨h, h', h''.symm⟩⟩

theorem exists_recv {rest : List α} (h : c.queue = msg :: rest) :
    ∃ c', c.recv = some (msg, c') ∧ c'.queue = rest ∧ c'.isOpen = c.isOpen := by
  have hopen : c.isOpen = true := isOpen_of_mem (h ▸ List.mem_cons_self)
  exact ⟨⟨rest, true, nofun⟩, recv_eq_some.mpr ⟨h, hopen.symm⟩, rfl, hopen.symm⟩

/-! ## What passes through a channel -/

structure Moves (c c' : Channel α) (taken put : List α) : Prop where
  taken_prefix : taken <+: c.queue ++ put
  /-- A channel that is open has lost nothing. -/
  of_open : c'.isOpen = true → c.isOpen = true ∧ c.queue ++ put = taken ++ c'.queue
  of_closed : c.isOpen = false → taken = []

namespace Moves

variable {c'' : Channel α} {taken put taken' put' : List α}

theorem refl (c : Channel α) : Moves c c [] [] where
  taken_prefix := List.nil_prefix
  of_open h := ⟨h, List.append_nil _⟩
  of_closed _ := rfl

theorem push (c : Channel α) (put : List α) : Moves c (c.push put) [] put where
  taken_prefix := List.nil_prefix
  of_open h := by
    rw [push_isOpen] at h
    exact ⟨h, (push_queue h put).symm⟩
  of_closed _ := rfl

/-- Whatever was put into it, a channel that is closed now had nothing taken. -/
theorem close (c : Channel α) (put : List α) : Moves c c.close [] put where
  taken_prefix := List.nil_prefix
  of_open h := by cases h
  of_closed _ := rfl

theorem of_recv (h : c.recv = some (msg, c')) : Moves c c' [msg] [] := by
  obtain ⟨hqueue, -⟩ := recv_eq_some.mp h
  have hopen : c.isOpen = true := isOpen_of_mem (hqueue ▸ List.mem_cons_self)
  refine ⟨?_, fun _ => ⟨hopen, ?_⟩, fun hclosed => ?_⟩
  · rw [hqueue, List.append_nil]
    exact List.prefix_append [msg] _
  · rw [hqueue, List.append_nil, List.singleton_append]
  · rw [hopen] at hclosed
    cases hclosed

theorem trans (h : Moves c c' taken put) (h' : Moves c' c'' taken' put') :
    Moves c c'' (taken ++ taken') (put ++ put') := by
  refine ⟨?_, fun hopen => ?_, fun hclosed => ?_⟩
  · cases hopen : c'.isOpen with
    | true =>
        obtain ⟨rest, hrest⟩ := h'.taken_prefix
        refine ⟨rest, ?_⟩
        rw [← List.append_assoc, (h.of_open hopen).2, List.append_assoc, List.append_assoc, hrest]
    | false =>
        rw [h'.of_closed hopen, List.append_nil, ← List.append_assoc]
        exact h.taken_prefix.trans (List.prefix_append _ _)
  · obtain ⟨hopen', hqueue'⟩ := h'.of_open hopen
    obtain ⟨hopen, hqueue⟩ := h.of_open hopen'
    refine ⟨hopen, ?_⟩
    calc c.queue ++ (put ++ put') = taken ++ (c'.queue ++ put') := by
          rw [← List.append_assoc, hqueue, List.append_assoc]
      _ = taken ++ taken' ++ c''.queue := by rw [hqueue', List.append_assoc]
  · have hclosed' : c'.isOpen = false := by
      cases hopen : c'.isOpen with
      | true => exact absurd (h.of_open hopen).1 (by simp [hclosed])
      | false => rfl
    rw [h.of_closed hclosed, h'.of_closed hclosed', List.append_nil]

/-- What waits was waiting before or has come meanwhile. -/
theorem mem_queue (h : Moves c c' taken put) {a : α} (ha : a ∈ c'.queue) :
    a ∈ c.queue ∨ a ∈ put := by
  rw [← List.mem_append, (h.of_open (isOpen_of_mem ha)).2]
  exact List.mem_append_right _ ha

/-- The order of messages from a new channel on. -/
theorem fifo (h : Moves new c taken put) :
    taken <+: put ∧ (c.isOpen = true → put = taken ++ c.queue) :=
  ⟨h.taken_prefix, fun hopen => (h.of_open hopen).2⟩

end Moves

end Channel

end Lib
