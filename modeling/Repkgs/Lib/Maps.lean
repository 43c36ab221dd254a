import Mathlib.Data.List.AList

/-!
# Finite maps

A map of the source is an association list without repeated keys. Besides
Mathlib's `lookup`, `insert` and `erase` it is updated at one key in place and
filtered.
-/

namespace Repkgs.Lib

/-- A finite map from `κ` to `ν`. -/
abbrev Map (κ ν : Type*) := AList fun _ : κ => ν

namespace Map

variable {κ ν : Type*} [DecidableEq κ]

/-- Change the value at `k`, if there is one. -/
def adjust (m : Map κ ν) (k : κ) (f : ν → ν) : Map κ ν :=
  match m.lookup k with
  | none => m
  | some v => m.insert k (f v)

/-- Bind `k` unless it is bound. -/
def emplace (m : Map κ ν) (k : κ) (v : ν) : Map κ ν :=
  if (m.lookup k).isSome then m else m.insert k v

/-- Keep the bindings that satisfy `p`. -/
def filter (m : Map κ ν) (p : κ → ν → Bool) : Map κ ν :=
  ⟨m.entries.filter fun e => p e.1 e.2, m.nodupKeys.sublist List.filter_sublist⟩

/-- The bindings in the order the map happens to hold them. -/
def toPairs (m : Map κ ν) : List (κ × ν) := m.entries.map fun e => (e.1, e.2)

theorem lookup_insert_eq (m : Map κ ν) (k k' : κ) (v : ν) :
    (m.insert k v).lookup k' = if k' = k then some v else m.lookup k' := by
  by_cases h : k' = k
  · subst h
    simp
  · rw [if_neg h, AList.lookup_insert_ne h]

theorem lookup_emplace (m : Map κ ν) (k k' : κ) (v : ν) :
    (emplace m k v).lookup k' = (m.lookup k').or (if k' = k then some v else none) := by
  unfold emplace
  by_cases h : k' = k
  · subst h
    cases hk : m.lookup k' <;> simp [hk]
  · cases hk : m.lookup k <;> simp [h, AList.lookup_insert_ne h]

theorem lookup_erase_eq (m : Map κ ν) (k k' : κ) :
    (m.erase k).lookup k' = if k' = k then none else m.lookup k' := by
  by_cases h : k' = k
  · subst h
    simp
  · rw [if_neg h, AList.lookup_erase_ne h]

theorem lookup_adjust (m : Map κ ν) (k k' : κ) (f : ν → ν) :
    (adjust m k f).lookup k' = if k' = k then (m.lookup k').map f else m.lookup k' := by
  unfold adjust
  cases hk : m.lookup k with
  | none =>
      by_cases h : k' = k
      · subst h
        simp [hk]
      · simp [h]
  | some v =>
      by_cases h : k' = k
      · subst h
        simp [hk]
      · simp [h, AList.lookup_insert_ne h]

theorem lookup_eq_some_iff {m : Map κ ν} {k : κ} {v : ν} :
    m.lookup k = some v ↔ (⟨k, v⟩ : Sigma fun _ : κ => ν) ∈ m.entries :=
  AList.mem_lookup_iff

theorem lookup_filter (m : Map κ ν) (p : κ → ν → Bool) (k : κ) :
    (filter m p).lookup k = (m.lookup k).filter (p k) := by
  apply Option.ext
  intro v
  rw [Option.filter_eq_some_iff, lookup_eq_some_iff, lookup_eq_some_iff]
  exact List.mem_filter

theorem mem_toPairs {m : Map κ ν} {k : κ} {v : ν} :
    (k, v) ∈ toPairs m ↔ m.lookup k = some v := by
  rw [lookup_eq_some_iff, toPairs, List.mem_map]
  constructor
  · rintro ⟨⟨k', v'⟩, hmem, heq⟩
    cases heq
    exact hmem
  · intro hmem
    exact ⟨_, hmem, rfl⟩

omit [DecidableEq κ] in
theorem keys_filterMap_sublist (es : List (Sigma fun _ : κ => ν)) (f : κ → ν → Option ν) :
    (es.filterMap fun e => (f e.1 e.2).map fun v => (⟨e.1, v⟩ : Sigma fun _ : κ => ν)).keys.Sublist
      es.keys := by
  induction es with
  | nil => exact List.Sublist.slnil
  | cons e es ih =>
      cases hv : f e.1 e.2 with
      | none =>
          rw [List.filterMap_cons_none (by simp [hv])]
          exact ih.cons _
      | some v =>
          rw [List.filterMap_cons_some (by simp [hv]; rfl)]
          exact ih.cons_cons _

/-- Change or drop every value. -/
def filterMap (m : Map κ ν) (f : κ → ν → Option ν) : Map κ ν :=
  ⟨m.entries.filterMap fun e => (f e.1 e.2).map fun v => ⟨e.1, v⟩,
    List.Nodup.sublist (keys_filterMap_sublist _ _) m.nodupKeys⟩

theorem lookup_filterMap (m : Map κ ν) (f : κ → ν → Option ν) (k : κ) :
    (filterMap m f).lookup k = (m.lookup k).bind (f k) := by
  apply Option.ext
  intro v
  rw [lookup_eq_some_iff, Option.bind_eq_some_iff]
  constructor
  · intro hmem
    obtain ⟨e, he, hv⟩ := List.mem_filterMap.mp hmem
    obtain ⟨v', hv', heq⟩ := Option.map_eq_some_iff.mp hv
    cases heq
    exact ⟨e.2, lookup_eq_some_iff.mpr he, hv'⟩
  · rintro ⟨v₀, hv₀, hv⟩
    exact List.mem_filterMap.mpr ⟨⟨k, v₀⟩, lookup_eq_some_iff.mp hv₀, by simp [hv]⟩

end Map

end Repkgs.Lib
