import Mathlib.Data.Finmap
import Maroon.Lib.Classes
import Maroon.Lib.Outcome

/-!
# Hash maps and the order they are visited in

A hash map is a finite map, so two maps with the same entries are equal.  A
loop over a map sees its entries as a list, in an order the map does not
promise.  `Enumerates entries m` says that `entries` is one such list.  A
function that iterates over a map takes the list, and a statement about it
holds for every list that enumerates the map.

`foldl_frame` and `foldlM_frame` describe a loop whose round for the key `k`
changes an observation at `k` only.  The result at a key is then read off the
entry of that key, whatever the order was.
-/

namespace Lib

/-- A finite map with no order on its entries. -/
abbrev HashMap (K V : Type) : Type := Finmap fun _ : K => V

/-- The list `entries` shows every entry of `m` once. -/
structure Enumerates {K V : Type} [DecidableEq K] (entries : List (K × V))
    (m : HashMap K V) : Prop where
  /-- No key is shown twice. -/
  nodup : (entries.map Prod.fst).Nodup
  /-- The entries shown are those of the map. -/
  mem_iff : ∀ {k : K} {v : V}, (k, v) ∈ entries ↔ m.lookup k = some v

namespace HashMap

variable {K V : Type} [DecidableEq K]

theorem mem_iff_lookup {m : HashMap K V} {k : K} : k ∈ m ↔ ∃ v, m.lookup k = some v :=
  Finmap.mem_iff

theorem lookup_insert_eq (m : HashMap K V) (k k' : K) (v : V) :
    (m.insert k v).lookup k' = if k' = k then some v else m.lookup k' := by
  by_cases h : k' = k
  · subst h
    simp
  · simp [h, Finmap.lookup_insert_of_ne m h]

theorem lookup_insert_some {m : HashMap K V} {k k' : K} {v v' : V} :
    (m.insert k v).lookup k' = some v' ↔
      (k' = k ∧ v = v') ∨ (k' ≠ k ∧ m.lookup k' = some v') := by
  rw [lookup_insert_eq]
  by_cases h : k' = k <;> simp [h]

/-- Writing what is there already. -/
theorem insert_of_lookup {m : HashMap K V} {k : K} {v : V} (h : m.lookup k = some v) :
    m.insert k v = m := by
  refine Finmap.ext_lookup fun k' => ?_
  rw [lookup_insert_eq]
  split
  next heq => rw [heq, h]
  next => rfl

end HashMap

namespace Enumerates

variable {K V : Type} [DecidableEq K]

theorem empty : Enumerates ([] : List (K × V)) (∅ : HashMap K V) where
  nodup := by simp
  mem_iff := by simp

/-- A map with one more entry is enumerated with that entry in front. -/
theorem insert {entries : List (K × V)} {m : HashMap K V} {k : K} (h : Enumerates entries m)
    (hk : k ∉ m) (v : V) : Enumerates ((k, v) :: entries) (m.insert k v) where
  nodup := by
    rw [List.map_cons, List.nodup_cons]
    refine ⟨fun hmem => ?_, h.nodup⟩
    obtain ⟨⟨k', v'⟩, hin, rfl⟩ := List.mem_map.mp hmem
    exact hk (HashMap.mem_iff_lookup.mpr ⟨v', h.mem_iff.mp hin⟩)
  mem_iff := by
    intro k' v'
    rw [HashMap.lookup_insert_some, List.mem_cons, h.mem_iff, Prod.mk.injEq]
    constructor
    · rintro (⟨rfl, rfl⟩ | hl)
      · exact Or.inl ⟨rfl, rfl⟩
      · refine Or.inr ⟨?_, hl⟩
        rintro rfl
        exact hk (HashMap.mem_iff_lookup.mpr ⟨v', hl⟩)
    · rintro (⟨rfl, rfl⟩ | ⟨-, hl⟩)
      · exact Or.inl ⟨rfl, rfl⟩
      · exact Or.inr hl

/-- A map with one entry has one enumeration to offer. -/
theorem singleton (k : K) (v : V) :
    Enumerates [(k, v)] ((∅ : HashMap K V).insert k v) :=
  empty.insert Finmap.notMem_empty v

/-- Any reordering of an enumeration is one. -/
theorem of_perm {entries entries' : List (K × V)} {m : HashMap K V}
    (h : Enumerates entries m) (hp : entries'.Perm entries) : Enumerates entries' m where
  nodup := (hp.map Prod.fst).nodup_iff.mpr h.nodup
  mem_iff := hp.mem_iff.trans h.mem_iff

theorem nodup_entries {entries : List (K × V)} {m : HashMap K V}
    (h : Enumerates entries m) : entries.Nodup :=
  List.Nodup.of_map _ h.nodup

/-- Two enumerations of one map differ in the order only. -/
theorem perm {entries entries' : List (K × V)} {m : HashMap K V}
    (h : Enumerates entries m) (h' : Enumerates entries' m) : entries.Perm entries' :=
  (List.perm_ext_iff_of_nodup h.nodup_entries h'.nodup_entries).mpr
    fun _ => h.mem_iff.trans h'.mem_iff.symm

/-- Every map can be enumerated. -/
theorem exists_entries (m : HashMap K V) : ∃ entries, Enumerates entries m := by
  induction m using Finmap.induction_on with
  | H a =>
    refine ⟨a.entries.map fun e => (e.1, e.2), ?_, ?_⟩
    · simpa [List.map_map, Function.comp_def, List.NodupKeys, List.keys] using a.nodupKeys
    · intro k v
      rw [Finmap.lookup_toFinmap, ← Option.mem_def, AList.mem_lookup_iff, List.mem_map]
      constructor
      · intro h
        obtain ⟨⟨k', v'⟩, hin, he⟩ := h
        cases he
        exact hin
      · exact fun hin => ⟨⟨k, v⟩, hin, rfl⟩

theorem mem_keys_iff {entries : List (K × V)} {m : HashMap K V} (h : Enumerates entries m)
    {k : K} : k ∈ entries.map Prod.fst ↔ k ∈ m := by
  rw [HashMap.mem_iff_lookup, List.mem_map]
  constructor
  · intro h
    obtain ⟨⟨k', v⟩, hin, rfl⟩ := h
    exact ⟨v, h.mem_iff.mp hin⟩
  · intro h
    obtain ⟨v, hv⟩ := h
    exact ⟨(k, v), h.mem_iff.mpr hv, rfl⟩

/-- The entries of one key: one if the map has the key, none otherwise. -/
theorem filter_key {entries : List (K × V)} {m : HashMap K V} (h : Enumerates entries m)
    (k : K) : entries.filter (fun e => e.1 = k) = ((m.lookup k).map fun v => (k, v)).toList := by
  cases hlook : m.lookup k with
  | none =>
      rw [Option.map_none, Option.toList_none, List.filter_eq_nil_iff]
      rintro ⟨k', v⟩ hin
      have hne : k' ≠ k := by
        rintro rfl
        cases hlook.symm.trans (h.mem_iff.mp hin)
      simpa using hne
  | some v =>
      exact filter_class_of_nodup h.nodup (h.mem_iff.mpr hlook)

/-- An enumeration is as long as the map has keys. -/
theorem length_eq {entries : List (K × V)} {m : HashMap K V} (h : Enumerates entries m) :
    entries.length = m.keys.card := by
  have hkeys : m.keys = (entries.map Prod.fst).toFinset := by
    ext k
    rw [Finmap.mem_keys, List.mem_toFinset, h.mem_keys_iff]
  rw [hkeys, List.toFinset_card_of_nodup h.nodup, List.length_map]

end Enumerates

/-! ## Maps of maps -/

/-- The list `entries` shows every entry of a map of maps once, each inner map
as a list of its own. -/
structure EnumeratesNested {K K' V : Type} [DecidableEq K] [DecidableEq K']
    (entries : List (K × List (K' × V))) (m : HashMap K (HashMap K' V)) : Prop where
  /-- No key is shown twice. -/
  nodup : (entries.map Prod.fst).Nodup
  /-- What is shown at a key enumerates the inner map there. -/
  sound : ∀ {k : K} {l : List (K' × V)}, (k, l) ∈ entries →
    ∃ inner, m.lookup k = some inner ∧ Enumerates l inner
  /-- Every inner map is shown. -/
  complete : ∀ {k : K} {inner : HashMap K' V}, m.lookup k = some inner →
    ∃ l, (k, l) ∈ entries ∧ Enumerates l inner

namespace EnumeratesNested

variable {K K' V : Type} [DecidableEq K] [DecidableEq K']

theorem empty :
    EnumeratesNested ([] : List (K × List (K' × V))) (∅ : HashMap K (HashMap K' V)) where
  nodup := by simp
  sound := by simp
  complete := by simp

/-- A map of maps with one more inner map is enumerated with it in front. -/
theorem insert {entries : List (K × List (K' × V))} {m : HashMap K (HashMap K' V)} {k : K}
    {l : List (K' × V)} {inner : HashMap K' V} (h : EnumeratesNested entries m)
    (hk : k ∉ m) (hl : Enumerates l inner) :
    EnumeratesNested ((k, l) :: entries) (m.insert k inner) where
  nodup := by
    rw [List.map_cons, List.nodup_cons]
    refine ⟨fun hmem => ?_, h.nodup⟩
    obtain ⟨⟨k', l'⟩, hin, rfl⟩ := List.mem_map.mp hmem
    obtain ⟨inner', hlook, -⟩ := h.sound hin
    exact hk (HashMap.mem_iff_lookup.mpr ⟨inner', hlook⟩)
  sound := by
    intro k' l' hin
    rcases List.mem_cons.mp hin with heq | hin
    · cases heq
      exact ⟨inner, Finmap.lookup_insert m, hl⟩
    · obtain ⟨inner', hlook, hl'⟩ := h.sound hin
      have hne : k' ≠ k := by
        rintro rfl
        exact hk (HashMap.mem_iff_lookup.mpr ⟨inner', hlook⟩)
      exact ⟨inner', by rw [Finmap.lookup_insert_of_ne m hne, hlook], hl'⟩
  complete := by
    intro k' inner' hlook
    rcases HashMap.lookup_insert_some.mp hlook with ⟨rfl, rfl⟩ | ⟨-, hlook⟩
    · exact ⟨l, List.mem_cons_self, hl⟩
    · obtain ⟨l', hin, hl'⟩ := h.complete hlook
      exact ⟨l', List.mem_cons_of_mem _ hin, hl'⟩

/-- Every map of maps can be enumerated. -/
theorem exists_entries (m : HashMap K (HashMap K' V)) :
    ∃ entries, EnumeratesNested entries m := by
  obtain ⟨outer, houter⟩ := Enumerates.exists_entries m
  choose listing hlisting using fun inner : HashMap K' V => Enumerates.exists_entries inner
  refine ⟨outer.map fun e => (e.1, listing e.2), ?_, ?_, ?_⟩
  · simpa [List.map_map, Function.comp_def] using houter.nodup
  · intro k l hin
    obtain ⟨⟨k', inner⟩, hout, heq⟩ := List.mem_map.mp hin
    cases heq
    exact ⟨inner, houter.mem_iff.mp hout, hlisting inner⟩
  · intro k inner hlook
    exact ⟨listing inner, List.mem_map.mpr ⟨(k, inner), houter.mem_iff.mpr hlook, rfl⟩,
      hlisting inner⟩

end EnumeratesNested

/-! ## Loops that touch one key a round -/

section Frame

variable {P K V W σ : Type}

/-- What a loop over distinct keys leaves at a key it never met. -/
private theorem foldlM_frame_notMem {step : σ → K × V → Outcome P σ} {obs : σ → K → W}
    (other : ∀ {s s' k v k'}, step s (k, v) = .ok s' → k' ≠ k → obs s' k' = obs s k')
    {entries : List (K × V)} {s s' : σ} {k : K} (h : entries.foldlM step s = .ok s')
    (hk : k ∉ entries.map Prod.fst) : obs s' k = obs s k := by
  refine Outcome.foldlM_invariant (fun t => obs t k = obs s k) h rfl ?_
  intro e he t t' ht hstep
  rw [← ht]
  obtain ⟨k', v⟩ := e
  refine other hstep ?_
  rintro rfl
  exact hk (List.mem_map_of_mem he)

/-- A loop over entries with distinct keys that returned.  The round for a key
turns the observation at that key into one that `R` allows, and keeps every
other observation. -/
theorem foldlM_frame {step : σ → K × V → Outcome P σ} (obs : σ → K → W)
    (R : K → V → W → W → Prop)
    (self : ∀ {s s' k v}, step s (k, v) = .ok s' → R k v (obs s k) (obs s' k))
    (other : ∀ {s s' k v k'}, step s (k, v) = .ok s' → k' ≠ k → obs s' k' = obs s k')
    {entries : List (K × V)} {s s' : σ} (hnd : (entries.map Prod.fst).Nodup)
    (h : entries.foldlM step s = .ok s') (k : K) :
    (∀ v, (k, v) ∈ entries → R k v (obs s k) (obs s' k)) ∧
      (k ∉ entries.map Prod.fst → obs s' k = obs s k) := by
  refine ⟨fun v hin => ?_, foldlM_frame_notMem other h⟩
  obtain ⟨before, after, rfl⟩ := List.append_of_mem hin
  rw [List.foldlM_append, Outcome.bind_eq_ok] at h
  obtain ⟨t, ht, h⟩ := h
  rw [List.foldlM_cons, Outcome.bind_eq_ok] at h
  obtain ⟨t', ht', h⟩ := h
  rw [List.map_append, List.map_cons, List.nodup_append] at hnd
  obtain ⟨-, hnd', hdisj⟩ := hnd
  rw [List.nodup_cons] at hnd'
  have hb : obs t k = obs s k :=
    foldlM_frame_notMem other ht fun hk => hdisj _ hk _ List.mem_cons_self rfl
  have ha : obs s' k = obs t' k := foldlM_frame_notMem other h hnd'.1
  rw [ha, ← hb]
  exact self ht'

end Frame

end Lib
