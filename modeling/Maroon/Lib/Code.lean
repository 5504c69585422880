import Mathlib.Data.List.Basic
import Mathlib.Logic.Function.Defs

/-!
# Codes of one width

A `FixedCode` writes every value with the same number of symbols, and no two
valid values alike.  Such codes are closed under pairs.  The words of a list,
one after the other, can be cut apart again without separators, so a list of
valid values can be read off its code (`encode_inj`).

Nothing marks where a list begins.  Symbols in front of it that are as many as
`k` words are read as `k` more values whenever they are the words of some
(`append_encode_iff`).
-/

namespace Lib

/-- A code with words of one length, injective on the valid values. -/
structure FixedCode (α β : Type) where
  word : α → List β
  Valid : α → Prop
  width : ℕ
  width_pos : 0 < width
  word_length : ∀ a, (word a).length = width
  word_inj : ∀ {a b : α}, Valid a → Valid b → word a = word b → a = b

namespace FixedCode

variable {α γ δ β : Type}

/-- Pairs, the word of the first part before that of the second. -/
def prod (c : FixedCode α β) (d : FixedCode γ β) : FixedCode (α × γ) β where
  word p := c.word p.1 ++ d.word p.2
  Valid p := c.Valid p.1 ∧ d.Valid p.2
  width := c.width + d.width
  width_pos := Nat.add_pos_left c.width_pos _
  word_length p := by rw [List.length_append, c.word_length, d.word_length]
  word_inj := by
    intro p q hp hq h
    obtain ⟨hfst, hsnd⟩ := List.append_inj h (by rw [c.word_length, c.word_length])
    exact Prod.ext (c.word_inj hp.1 hq.1 hfst) (d.word_inj hp.2 hq.2 hsnd)

/-- Values that are told apart by what a function shows of them. -/
def comap (c : FixedCode α β) (f : δ → α) (hf : Function.Injective f) : FixedCode δ β where
  word x := c.word (f x)
  Valid x := c.Valid (f x)
  width := c.width
  width_pos := c.width_pos
  word_length x := c.word_length (f x)
  word_inj hx hy h := hf (c.word_inj hx hy h)

variable (c : FixedCode α β)

/-- The words of a list, one after the other. -/
def encode (l : List α) : List β := l.flatMap c.word

@[simp] theorem encode_nil : c.encode [] = [] := rfl

theorem encode_cons (a : α) (l : List α) : c.encode (a :: l) = c.word a ++ c.encode l :=
  List.flatMap_cons

theorem encode_pair (a b : α) : c.encode [a, b] = c.word a ++ c.word b := by
  rw [encode_cons, encode_cons, encode_nil, List.append_nil]

theorem encode_append (l l' : List α) : c.encode (l ++ l') = c.encode l ++ c.encode l' :=
  List.flatMap_append

theorem encode_length (l : List α) : (c.encode l).length = l.length * c.width := by
  induction l with
  | nil => simp
  | cons a l ih =>
      rw [encode_cons, List.length_append, c.word_length, ih, List.length_cons, Nat.succ_mul,
        Nat.add_comm]

variable {c}

/-- The first word can be cut off. -/
theorem word_append_inj {a b : α} {rest rest' : List β} (ha : c.Valid a) (hb : c.Valid b)
    (h : c.word a ++ rest = c.word b ++ rest') : a = b ∧ rest = rest' := by
  obtain ⟨hword, hrest⟩ := List.append_inj h (by rw [c.word_length, c.word_length])
  exact ⟨c.word_inj ha hb hword, hrest⟩

/-- Lists with codes of one length are as long as each other. -/
theorem length_eq {l l' : List α} (h : (c.encode l).length = (c.encode l').length) :
    l.length = l'.length := by
  rw [encode_length, encode_length] at h
  exact Nat.eq_of_mul_eq_mul_right c.width_pos h

/-- A list of valid values can be read off its code. -/
theorem encode_inj {l l' : List α} (hl : ∀ a ∈ l, c.Valid a) (hl' : ∀ a ∈ l', c.Valid a)
    (h : c.encode l = c.encode l') : l = l' := by
  induction l generalizing l' with
  | nil => exact (List.length_eq_zero_iff.mp (length_eq (congrArg List.length h)).symm).symm
  | cons a l ih =>
      cases l' with
      | nil => exact List.length_eq_zero_iff.mp (length_eq (congrArg List.length h))
      | cons b l' =>
          rw [encode_cons, encode_cons] at h
          obtain ⟨rfl, hrest⟩ := word_append_inj (hl a (by simp)) (hl' b (by simp)) h
          rw [ih (fun x hx => hl x (List.mem_cons_of_mem a hx))
            (fun x hx => hl' x (List.mem_cons_of_mem a hx)) hrest]

/-- Symbols in front of a list, as many as `k` words have, are read as the words
of `k` more values. -/
theorem append_encode_iff {front : List β} {l l' : List α} {k : ℕ}
    (hfront : front.length = k * c.width) (hl : ∀ a ∈ l, c.Valid a)
    (hl' : ∀ a ∈ l', c.Valid a) :
    front ++ c.encode l = c.encode l' ↔
      ∃ before, before.length = k ∧ front = c.encode before ∧ l' = before ++ l := by
  constructor
  · intro h
    have hlen : k + l.length = l'.length := by
      have hlen := congrArg List.length h
      rw [List.length_append, hfront, encode_length, encode_length, ← Nat.add_mul] at hlen
      exact Nat.eq_of_mul_eq_mul_right c.width_pos hlen
    have htake : (l'.take k).length = k := List.length_take_of_le (by omega)
    rw [← List.take_append_drop k l', encode_append] at h
    obtain ⟨hbefore, hrest⟩ := List.append_inj h (by rw [hfront, encode_length, htake])
    refine ⟨l'.take k, htake, hbefore, ?_⟩
    rw [encode_inj hl (fun x hx => hl' x (List.mem_of_mem_drop hx)) hrest,
      List.take_append_drop]
  · intro h
    obtain ⟨before, -, rfl, rfl⟩ := h
    rw [encode_append]

end FixedCode

end Lib
