import Mathlib.Algebra.BigOperators.Group.List.Basic
import Mathlib.Algebra.Order.BigOperators.Group.List
import Mathlib.Algebra.Order.Group.Int
import Repkgs.Lib.Maps

/-!
# Sums over finite maps

A counter that is kept beside a map stands for a sum over its bindings. The
rules say how an update of the map changes the sum. They compare both sides
without subtraction.
-/

namespace Repkgs.Lib.Map

variable {κ ν : Type*} [DecidableEq κ]

section Monoid

variable {M : Type*} [AddCommMonoid M]

/-- The sum of `f` over the bindings. -/
def sum (m : Map κ ν) (f : κ → ν → M) : M := (m.entries.map fun e => f e.1 e.2).sum

/-- What the binding of `k` contributes to the sum. -/
def part (m : Map κ ν) (k : κ) (f : κ → ν → M) : M := (m.lookup k).elim 0 (f k)

theorem part_of_some {m : Map κ ν} {k : κ} {v : ν} (h : m.lookup k = some v) (f : κ → ν → M) :
    part m k f = f k v := by
  rw [part, h, Option.elim_some]

theorem part_of_none {m : Map κ ν} {k : κ} (h : m.lookup k = none) (f : κ → ν → M) :
    part m k f = 0 := by
  rw [part, h, Option.elim_none]

omit [DecidableEq κ] in
@[simp] theorem sum_empty (f : κ → ν → M) : sum (∅ : Map κ ν) f = 0 := rfl

/-- Taking a binding out takes its part out of the sum. -/
theorem sum_erase (m : Map κ ν) (k : κ) (f : κ → ν → M) :
    sum (m.erase k) f + part m k f = sum m f := by
  cases h : m.lookup k with
  | none =>
      have hk : k ∉ m.entries.keys := AList.lookup_eq_none.mp h
      have herase : (m.erase k).entries = m.entries := List.kerase_of_notMem_keys hk
      rw [part_of_none h, add_zero, sum, herase, sum]
  | some v =>
      have hk : k ∈ m.entries.keys := AList.lookup_isSome.mp (h ▸ rfl)
      obtain ⟨w, front, back, hfront, hentries, herase⟩ := List.exists_of_kerase hk
      have hw : m.lookup k = some w := by
        rw [lookup_eq_some_iff, hentries]
        exact List.mem_append_right _ (.head _)
      have hsum : sum (m.erase k) f = ((front ++ back).map fun e => f e.1 e.2).sum := by
        rw [← herase]
        rfl
      rw [part_of_some hw, hsum, sum, hentries, List.map_append, List.sum_append, List.map_append,
        List.sum_append, List.map_cons, List.sum_cons, add_assoc, add_comm _ (f k w)]

theorem sum_insert (m : Map κ ν) (k : κ) (v : ν) (f : κ → ν → M) :
    sum (m.insert k v) f + part m k f = sum m f + f k v := by
  have hcons : sum (m.insert k v) f = f k v + sum (m.erase k) f := rfl
  rw [hcons, add_assoc, sum_erase, add_comm]

theorem sum_adjust (m : Map κ ν) (k : κ) (g : ν → ν) (f : κ → ν → M) :
    sum (adjust m k g) f + part m k f = sum m f + part m k fun k v => f k (g v) := by
  unfold adjust
  cases h : m.lookup k with
  | none => rw [part_of_none h, part_of_none h]
  | some v =>
      rw [part_of_some h fun k v => f k (g v)]
      exact sum_insert m k (g v) f

theorem sum_congr {m : Map κ ν} {f g : κ → ν → M}
    (h : ∀ k v, m.lookup k = some v → f k v = g k v) : sum m f = sum m g := by
  unfold sum
  congr 1
  apply List.map_congr_left
  intro e he
  exact h e.1 e.2 (lookup_eq_some_iff.mpr he)

theorem sum_eq_zero {m : Map κ ν} {f : κ → ν → M}
    (h : ∀ k v, m.lookup k = some v → f k v = 0) : sum m f = 0 := by
  rw [sum_congr h]
  simp [sum]

omit [DecidableEq κ] in
theorem sum_filter (m : Map κ ν) (p : κ → ν → Bool) (f : κ → ν → M) :
    sum (filter m p) f = sum m fun k v => if p k v then f k v else 0 := by
  unfold sum filter
  simp only
  induction m.entries with
  | nil => rfl
  | cons e es ih =>
      rw [List.map_cons, List.sum_cons, ← ih, List.filter_cons]
      split
      · rw [List.map_cons, List.sum_cons]
      · rw [zero_add]

/-- The sum depends only on what the map answers, as far as `f` looks at it. -/
theorem sum_eq_of_lookup {ω : Type*} {m m' : Map κ ν} (g : ν → ω)
    (h : ∀ k, (m'.lookup k).map g = (m.lookup k).map g) (f : κ → ω → M) :
    (sum m' fun k v => f k (g v)) = sum m fun k v => f k (g v) := by
  let view (m : Map κ ν) : List (κ × ω) := m.entries.map fun e => (e.1, g e.2)
  have hnodup : ∀ m : Map κ ν, (view m).Nodup := by
    intro m
    apply List.Nodup.of_map Prod.fst
    rw [List.map_map]
    exact m.nodupKeys
  have hmem : ∀ (m : Map κ ν) (e : κ × ω), e ∈ view m ↔ (m.lookup e.1).map g = some e.2 := by
    rintro m ⟨k, w⟩
    rw [List.mem_map, Option.map_eq_some_iff]
    constructor
    · rintro ⟨⟨k', v⟩, hmem, heq⟩
      cases heq
      exact ⟨v, lookup_eq_some_iff.mpr hmem, rfl⟩
    · rintro ⟨v, hv, rfl⟩
      exact ⟨⟨k, v⟩, lookup_eq_some_iff.mp hv, rfl⟩
  have hperm : (view m').Perm (view m) := by
    rw [List.perm_ext_iff_of_nodup (hnodup m') (hnodup m)]
    intro e
    rw [hmem, hmem, h]
  have hsum := (hperm.map fun e => f e.1 e.2).sum_eq
  rwa [List.map_map, List.map_map] at hsum

end Monoid

theorem part_nonneg (m : Map κ ν) (k : κ) {f : κ → ν → Int} (h : ∀ k v, 0 ≤ f k v) :
    0 ≤ part m k f := by
  cases hk : m.lookup k with
  | none => exact (part_of_none hk f).ge
  | some v => exact (h k v).trans_eq (part_of_some hk f).symm

omit [DecidableEq κ] in
theorem sum_nonneg (m : Map κ ν) {f : κ → ν → Int} (h : ∀ k v, 0 ≤ f k v) : 0 ≤ sum m f := by
  apply List.sum_nonneg
  intro x hx
  obtain ⟨e, -, rfl⟩ := List.mem_map.mp hx
  exact h e.1 e.2

end Repkgs.Lib.Map
