import Mathlib.Data.List.Nodup
import Mathlib.Data.List.Count

/-!
# Lists looked at class by class

A function assigns a class to each element of a list.  A list whose classes have
no duplicates has none, and an expansion that stays in the class of its source
can be filtered before it is expanded.

Where the elements have distinct classes, an element is all of its class
(`filter_class_of_nodup`), and no element before it shares that class.
-/

namespace Lib

variable {α β γ : Type}

/-- Where classes are distinct, no element before an element has its class. -/
theorem class_notMem_of_nodup {cls : α → γ} {done rest : List α} {a : α}
    (hnd : ((done ++ a :: rest).map cls).Nodup) : cls a ∉ done.map cls := by
  rw [List.map_append, List.map_cons] at hnd
  exact fun hmem => (List.nodup_append.mp hnd).2.2 _ hmem _ List.mem_cons_self rfl

variable [DecidableEq γ]

/-- A list without duplicates in any class has none. -/
theorem nodup_of_classes [DecidableEq α] {l : List α} (cls : α → γ)
    (h : ∀ c, (l.filter fun x => cls x = c).Nodup) : l.Nodup := by
  rw [List.nodup_iff_count_le_one]
  intro x
  have hcount := List.nodup_iff_count_le_one.mp (h (cls x)) x
  rwa [List.count_filter (by simp)] at hcount

/-- When the expansion of an element stays in its class, a class of the
expansion is the expansion of the class. -/
theorem filter_flatMap_of_class {l : List α} {expand : α → List β} (cls : α → γ) (cls' : β → γ)
    (h : ∀ a ∈ l, ∀ b ∈ expand a, cls' b = cls a) (c : γ) :
    (l.flatMap expand).filter (fun b => cls' b = c) =
      (l.filter fun a => cls a = c).flatMap expand := by
  induction l with
  | nil => rfl
  | cons a l ih =>
      have hrest := ih fun a' ha' => h a' (List.mem_cons_of_mem a ha')
      have hclass := h a List.mem_cons_self
      rw [List.flatMap_cons, List.filter_append, hrest]
      by_cases hc : cls a = c
      · rw [List.filter_cons_of_pos (by simpa using hc), List.flatMap_cons,
          List.filter_eq_self.mpr fun b hb => by simpa [hclass b hb] using hc]
      · rw [List.filter_cons_of_neg (by simpa using hc),
          List.filter_eq_nil_iff.mpr fun b hb => by simpa [hclass b hb] using hc, List.nil_append]

/-- Where classes are distinct, an element is the only one of its class. -/
theorem filter_class_of_nodup {cls : α → γ} {l : List α} {a : α} (hnd : (l.map cls).Nodup)
    (hin : a ∈ l) : l.filter (fun b => cls b = cls a) = [a] := by
  induction l with
  | nil => cases hin
  | cons b rest ih =>
      rw [List.map_cons, List.nodup_cons] at hnd
      rcases List.mem_cons.mp hin with rfl | hrest
      · rw [List.filter_cons_of_pos (by simp), List.filter_eq_nil_iff.mpr fun b hb => ?_]
        have hne : cls b ≠ cls a := fun heq => hnd.1 (List.mem_map.mpr ⟨b, hb, heq⟩)
        simpa using hne
      · have hne : cls b ≠ cls a := fun heq => hnd.1 (List.mem_map.mpr ⟨a, hrest, heq.symm⟩)
        rw [List.filter_cons_of_neg (by simpa using hne), ih hnd.2 hrest]

end Lib
