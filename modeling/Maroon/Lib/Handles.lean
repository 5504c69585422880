import Mathlib.Data.Finset.Basic
import Mathlib.Data.Finset.Image

/-!
# Keys with several handles

A finite set of pairs `(k, h)` says which handles a key has.  A key may have
several, and it is a holder as long as it has one.  `holders_insert` and
`mem_holders_erase` say what a new handle and a lost handle do to the holders.

A program that keeps the holders in a set of its own, and drops a key whenever
one of its handles is lost, is right about that step exactly when the handle was
the last one of a key that it kept (`dropped_iff`).
-/

namespace Lib

variable {K H : Type} [DecidableEq K]

/-- An element that neither set has can be taken away on both sides. -/
theorem insert_eq_insert_iff {k : K} {keys keys' : Finset K} (h : k ∉ keys) (h' : k ∉ keys') :
    insert k keys = insert k keys' ↔ keys = keys' := by
  constructor
  · intro heq
    rw [← Finset.erase_insert h, heq, Finset.erase_insert h']
  · intro heq
    rw [heq]

/-- The keys that have a handle. -/
def holders (handles : Finset (K × H)) : Finset K := handles.image Prod.fst

/-- A key has no handle but this one. -/
def OnlyHandle (handles : Finset (K × H)) (k : K) (h : H) : Prop :=
  ∀ h', (k, h') ∈ handles → h' = h

theorem mem_holders {handles : Finset (K × H)} {k : K} :
    k ∈ holders handles ↔ ∃ h, (k, h) ∈ handles := by
  simp [holders]

@[simp] theorem holders_empty : holders (∅ : Finset (K × H)) = ∅ := rfl

variable [DecidableEq H] {handles : Finset (K × H)} {k q : K} {h : H}

theorem holders_insert : holders (insert (k, h) handles) = insert k (holders handles) :=
  Finset.image_insert _ _ _

/-- A key still has a handle when it is another key or when it has a second
handle. -/
theorem mem_holders_erase :
    q ∈ holders (handles.erase (k, h)) ↔
      q ∈ holders handles ∧ (q = k → ¬ OnlyHandle handles k h) := by
  simp only [mem_holders, Finset.mem_erase, OnlyHandle, not_forall]
  constructor
  · intro ⟨h', hne, hin⟩
    refine ⟨⟨h', hin⟩, ?_⟩
    intro heq
    subst heq
    exact ⟨h', hin, fun hsame => hne (by rw [hsame])⟩
  · intro ⟨⟨h', hin⟩, hother⟩
    cases decEq q k with
    | isFalse hne => exact ⟨h', fun hpair => hne (congrArg Prod.fst hpair), hin⟩
    | isTrue heq =>
        obtain ⟨h'', hin', hne⟩ := hother heq
        subst heq
        exact ⟨h'', fun hpair => hne (congrArg Prod.snd hpair), hin'⟩

theorem holders_erase_subset : holders (handles.erase (k, h)) ⊆ holders handles :=
  fun _ hin => (mem_holders_erase.mp hin).1

/-- A set keeps the holders with a mark, and a key is dropped when it loses a
handle.  The set is right afterwards exactly when a dropped key had no other
handle. -/
theorem dropped_iff {kept marked : Finset K} (hkept : kept = marked ∩ holders handles) :
    kept.erase k = marked ∩ holders (handles.erase (k, h)) ↔
      (k ∈ kept → OnlyHandle handles k h) := by
  subst hkept
  constructor
  · intro heq hin
    by_contra hmore
    have hstill : k ∈ marked ∩ holders (handles.erase (k, h)) := by
      rw [Finset.mem_inter] at hin ⊢
      exact ⟨hin.1, mem_holders_erase.mpr ⟨hin.2, fun _ => hmore⟩⟩
    rw [← heq] at hstill
    exact Finset.notMem_erase k _ hstill
  · intro hlast
    ext q
    simp only [Finset.mem_erase, Finset.mem_inter, mem_holders_erase]
    constructor
    · intro ⟨hne, hmarked, hheld⟩
      exact ⟨hmarked, hheld, fun heq => absurd heq hne⟩
    · intro ⟨hmarked, hheld, hother⟩
      refine ⟨?_, hmarked, hheld⟩
      intro heq
      subst heq
      exact hother rfl (hlast (Finset.mem_inter.mpr ⟨hmarked, hheld⟩))

end Lib
