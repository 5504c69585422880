import Maroon.Common.RangeKey
import Maroon.Lib.Code

/-!
# Epochs

An epoch is a list of intervals and a hash.  The hash is taken over the hash of
the previous epoch, if there is one, followed by the two ends of each interval
in the order of the list.  SHA-256 is not part of the source, so the functions
that hash take it as a parameter.

What is hashed has no mark of whether a previous hash is there.  It determines
the epoch up to one confusion: the 32 bytes of a previous hash may as well be
two more intervals of a first epoch (`hashInput_eq_iff`).
-/

namespace Maroon

open Lib

/-- `[u8; 32]` -/
abbrev Hash := Vector UInt8 32

/-- SHA-256 as a function of all the bytes that a hasher was updated with. -/
abbrev Sha256 := List UInt8 → Hash

structure Epoch where
  increments : List U64BlobIdClosedInterval
  hash : Hash
deriving DecidableEq

/-- `u64::to_le_bytes` -/
def toLeBytes (n : Nat) : List UInt8 :=
  (List.range 8).map fun k => UInt8.ofNat (n / 256 ^ k)

theorem toLeBytes_length (n : Nat) : (toLeBytes n).length = 8 := by
  simp [toLeBytes]

/-- A number below `256 ^ k` is determined by its first `k` bytes. -/
private theorem eq_of_bytes (k : Nat) : ∀ {m n : Nat}, m < 256 ^ k → n < 256 ^ k →
    (∀ j < k, m / 256 ^ j % 256 = n / 256 ^ j % 256) → m = n := by
  induction k with
  | zero =>
      intro m n hm hn _
      omega
  | succ k ih =>
      intro m n hm hn h
      have hrest : m / 256 = n / 256 := by
        refine ih ?_ ?_ fun j hj => ?_
        · rw [Nat.div_lt_iff_lt_mul (by decide), ← Nat.pow_succ]
          exact hm
        · rw [Nat.div_lt_iff_lt_mul (by decide), ← Nat.pow_succ]
          exact hn
        · rw [Nat.div_div_eq_div_mul, Nat.div_div_eq_div_mul, ← Nat.pow_succ']
          exact h (j + 1) (by omega)
      have hfirst : m % 256 = n % 256 := by
        simpa using h 0 (Nat.succ_pos k)
      rw [← Nat.div_add_mod m 256, hrest, hfirst, Nat.div_add_mod]

/-- Eight bytes determine a `u64`. -/
theorem toLeBytes_inj {m n : Nat} (hm : m < u64Bound) (hn : n < u64Bound)
    (h : toLeBytes m = toLeBytes n) : m = n := by
  refine eq_of_bytes 8 hm hn fun k hk => ?_
  have hget := congrArg (fun bytes => bytes[k]?) h
  simpa [toLeBytes, hk, UInt8.ofNat_eq_iff_mod_eq_toNat] using hget

/-- A `u64` in eight bytes. -/
def u64Code : FixedCode Nat UInt8 where
  word := toLeBytes
  Valid n := n < u64Bound
  width := 8
  width_pos := by decide
  word_length := toLeBytes_length
  word_inj := toLeBytes_inj

/-- An interval in sixteen bytes, its left end first. -/
def intervalCode : FixedCode U64BlobIdClosedInterval UInt8 :=
  (u64Code.prod u64Code).comap (fun interval => (interval.startId, interval.endId)) (by
    intro i j h
    cases i with
    | mk left right =>
        cases j with
        | mk left' right' =>
            cases h
            rfl)

namespace Epoch

/-- The bytes that `Epoch::new` feeds to the hasher. -/
def hashInput (increments : List U64BlobIdClosedInterval) (prevHash : Option Hash) :
    List UInt8 :=
  (match prevHash with
    | some prev => prev.toList
    | none => []) ++
  increments.flatMap fun interval =>
    toLeBytes interval.startId ++ toLeBytes interval.endId

def new (sha256 : Sha256) (increments : List U64BlobIdClosedInterval)
    (prevHash : Option Hash) : Epoch where
  increments := increments
  hash := sha256 (hashInput increments prevHash)

@[simp] theorem new_increments (sha256 : Sha256) (increments : List U64BlobIdClosedInterval)
    (prevHash : Option Hash) : (new sha256 increments prevHash).increments = increments := rfl

theorem hashInput_some (increments : List U64BlobIdClosedInterval) (prev : Hash) :
    hashInput increments (some prev) = prev.toList ++ intervalCode.encode increments := rfl

theorem hashInput_none (increments : List U64BlobIdClosedInterval) :
    hashInput increments none = intervalCode.encode increments := rfl

/-- The bytes fed to the hasher determine the first interval. -/
theorem hashInput_cons_inj {i j : U64BlobIdClosedInterval} {l l' : List U64BlobIdClosedInterval}
    {prevHash : Option Hash} (hi : i.left < u64Bound ∧ i.right < u64Bound)
    (hj : j.left < u64Bound ∧ j.right < u64Bound)
    (h : hashInput (i :: l) prevHash = hashInput (j :: l') prevHash) : i = j := by
  have hcons : intervalCode.encode (i :: l) = intervalCode.encode (j :: l') :=
    List.append_cancel_left h
  rw [FixedCode.encode_cons, FixedCode.encode_cons] at hcons
  exact (FixedCode.word_append_inj (c := intervalCode) hi hj hcons).1

/-! ## What the hasher was fed -/

/-- An interval that `U64BlobIdClosedInterval::new` returns. -/
structure ValidInterval (i : U64BlobIdClosedInterval) : Prop where
  le : i.left ≤ i.right
  right_lt : i.right < u64Bound

theorem ValidInterval.code {i : U64BlobIdClosedInterval} (h : ValidInterval i) :
    intervalCode.Valid i :=
  ⟨h.le.trans_lt h.right_lt, h.right_lt⟩

/-- The first of two epochs has a previous hash and the second has none, and the
bytes of that hash are two intervals with which the second epoch begins before
it goes on like the first one. -/
def ReadsHash (prevHash prevHash' : Option Hash)
    (increments increments' : List U64BlobIdClosedInterval) : Prop :=
  ∃ prev i j, prevHash = some prev ∧ prevHash' = none ∧ increments' = i :: j :: increments ∧
    prev.toList = toLeBytes i.startId ++ toLeBytes i.endId ++
      (toLeBytes j.startId ++ toLeBytes j.endId)

/-- Such epochs differ in whether they have a previous hash. -/
theorem ReadsHash.isSome_ne {prevHash prevHash' : Option Hash}
    {increments increments' : List U64BlobIdClosedInterval}
    (h : ReadsHash prevHash prevHash' increments increments') :
    prevHash.isSome ≠ prevHash'.isSome := by
  obtain ⟨prev, i, j, rfl, rfl, -⟩ := h
  simp

section

variable {increments increments' : List U64BlobIdClosedInterval}

/-- With a previous hash on both sides or on neither, the bytes determine the
epoch. -/
theorem hashInput_inj {prevHash prevHash' : Option Hash} (h : ∀ i ∈ increments, ValidInterval i)
    (h' : ∀ i ∈ increments', ValidInterval i) (hsame : prevHash.isSome = prevHash'.isSome)
    (heq : hashInput increments prevHash = hashInput increments' prevHash') :
    prevHash = prevHash' ∧ increments = increments' := by
  have hencode : intervalCode.encode increments = intervalCode.encode increments' →
      increments = increments' :=
    FixedCode.encode_inj (fun i hi => (h i hi).code) fun i hi => (h' i hi).code
  cases prevHash with
  | none =>
      cases prevHash' with
      | none => exact ⟨rfl, hencode heq⟩
      | some prev' => cases hsame
  | some prev =>
      cases prevHash' with
      | none => cases hsame
      | some prev' =>
          rw [hashInput_some, hashInput_some] at heq
          obtain ⟨hprev, hincrements⟩ :=
            List.append_inj heq (Vector.length_toList.trans Vector.length_toList.symm)
          exact ⟨congrArg some (Vector.toList_inj.mp hprev), hencode hincrements⟩

/-- A previous hash on one side only takes the place of two intervals. -/
theorem hashInput_some_eq_none_iff {prev : Hash} (h : ∀ i ∈ increments, ValidInterval i)
    (h' : ∀ i ∈ increments', ValidInterval i) :
    hashInput increments (some prev) = hashInput increments' none ↔
      ReadsHash (some prev) none increments increments' := by
  have hlen : prev.toList.length = 2 * intervalCode.width := Vector.length_toList
  rw [hashInput_some, hashInput_none, FixedCode.append_encode_iff hlen
    (fun i hi => (h i hi).code) (fun i hi => (h' i hi).code)]
  constructor
  · intro hread
    obtain ⟨before, hbefore, hprev, hrest⟩ := hread
    obtain ⟨i, j, rfl⟩ := List.length_eq_two.mp hbefore
    exact ⟨prev, i, j, rfl, rfl, hrest, hprev.trans (intervalCode.encode_pair i j)⟩
  · intro hread
    obtain ⟨prev', i, j, hprev, -, hrest, hbytes⟩ := hread
    cases hprev
    exact ⟨[i, j], rfl, hbytes.trans (intervalCode.encode_pair i j).symm, hrest⟩

/-- The hasher is fed the same for two epochs exactly when these are equal, or
one of them reads the previous hash of the other as two intervals of its own. -/
theorem hashInput_eq_iff {prevHash prevHash' : Option Hash}
    (h : ∀ i ∈ increments, ValidInterval i) (h' : ∀ i ∈ increments', ValidInterval i) :
    hashInput increments prevHash = hashInput increments' prevHash' ↔
      (prevHash = prevHash' ∧ increments = increments') ∨
        ReadsHash prevHash prevHash' increments increments' ∨
        ReadsHash prevHash' prevHash increments' increments := by
  by_cases hsame : prevHash.isSome = prevHash'.isSome
  · constructor
    · exact fun heq => Or.inl (hashInput_inj h h' hsame heq)
    · rintro (⟨rfl, rfl⟩ | hread | hread)
      · rfl
      · exact absurd hsame hread.isSome_ne
      · exact absurd hsame.symm hread.isSome_ne
  · have hne : ¬ (prevHash = prevHash' ∧ increments = increments') :=
      fun heq => hsame (congrArg Option.isSome heq.1)
    rw [or_iff_right hne]
    cases prevHash with
    | none =>
        cases prevHash' with
        | none => exact absurd rfl hsame
        | some prev' =>
            rw [eq_comm, hashInput_some_eq_none_iff h' h, or_iff_right]
            rintro ⟨prev, -, -, hnone, -⟩
            cases hnone
    | some prev =>
        cases prevHash' with
        | none =>
            rw [hashInput_some_eq_none_iff h h', or_iff_left]
            rintro ⟨prev, -, -, hnone, -⟩
            cases hnone
        | some prev' => exact absurd rfl hsame

end

/-- The interval of the first id alone. -/
def firstId : U64BlobIdClosedInterval := ⟨0, 0⟩

/-- The interval of the first two ids. -/
def firstIds : U64BlobIdClosedInterval := ⟨0, 1⟩

theorem firstId_valid : ValidInterval firstId where
  le := le_rfl
  right_lt := by decide

theorem firstIds_valid : ValidInterval firstIds where
  le := zero_le_one
  right_lt := by decide

theorem hashInput_eq_iff_first : hashInput [firstId] none ≠ hashInput [firstIds] none := by
  intro h
  rcases (hashInput_eq_iff (by simp [firstId_valid]) (by simp [firstIds_valid])).mp h with
    ⟨-, heq⟩ | hread | hread
  · exact absurd heq (by decide)
  · exact hread.isSome_ne rfl
  · exact hread.isSome_ne rfl

/-- An epoch without intervals after one whose hash is zero, and a first epoch
with the interval of the first id twice, are hashed from the same bytes. -/
theorem hash_read_as_intervals : ¬ ∀ (prevHash prevHash' : Option Hash)
    (increments increments' : List U64BlobIdClosedInterval),
    (∀ i ∈ increments, ValidInterval i) → (∀ i ∈ increments', ValidInterval i) →
      hashInput increments prevHash = hashInput increments' prevHash' →
        prevHash = prevHash' ∧ increments = increments' := by
  intro h
  have hbytes : hashInput [] (some (Vector.replicate 32 0)) =
      hashInput [firstId, firstId] none := by decide
  have heq := h _ _ _ _ (by simp) (by simp [firstId_valid]) hbytes
  cases heq.1

end Epoch

end Maroon
