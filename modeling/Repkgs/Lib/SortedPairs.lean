import Mathlib.Data.List.Sort
import Repkgs.Lib.Maps

/-!
# Sorted contents

What a sort leaves of a list is its multiset; what an ordered map gives when it is
walked is its bindings, each once, in the order of the keys. So two such walks are
equal exactly if the lists, or the maps, have the same contents.
-/

namespace Repkgs.Lib

variable {κ ν ω : Type*} [LE κ] [DecidableLE κ] [Std.IsLinearOrder κ]

theorem insertionSort_eq_iff_perm {xs ys : List κ} :
    xs.insertionSort (· ≤ ·) = ys.insertionSort (· ≤ ·) ↔ xs.Perm ys := by
  constructor
  · intro heq
    exact (List.perm_insertionSort (· ≤ ·) xs).symm.trans
      (heq ▸ List.perm_insertionSort (· ≤ ·) ys)
  · intro hperm
    apply List.Perm.eq_of_pairwise' (List.pairwise_insertionSort (· ≤ ·) xs)
      (List.pairwise_insertionSort (· ≤ ·) ys)
    exact (List.perm_insertionSort _ xs).trans (hperm.trans (List.perm_insertionSort _ ys).symm)

namespace Map

variable [DecidableEq κ]

/-- The bindings in the order of their keys. -/
def sorted (m : Map κ ν) : List (κ × ν) := (toPairs m).insertionSort fun a b => a.1 ≤ b.1

/-- The map that the members of an object make, where a repeated key has its last value. -/
def ofMembers (members : List (κ × ν)) : Map κ ν :=
  members.foldl (fun m e => m.insert e.1 e.2) ∅

omit [Std.IsLinearOrder κ] in
theorem mem_sorted {m : Map κ ν} {k : κ} {v : ν} :
    (k, v) ∈ sorted m ↔ m.lookup k = some v := by
  rw [sorted, List.mem_insertionSort, mem_toPairs]

omit [Std.IsLinearOrder κ] [DecidableEq κ] in
theorem keys_sorted_nodup (m : Map κ ν) : ((sorted m).map Prod.fst).Nodup := by
  have hperm := (List.perm_insertionSort (fun a b : κ × ν => a.1 ≤ b.1) (toPairs m)).map Prod.fst
  rw [sorted, hperm.nodup_iff, toPairs, List.map_map]
  exact m.keys_nodup

omit [DecidableEq κ] in
theorem sorted_pairwise (m : Map κ ν) : (sorted m).Pairwise fun a b => a.1 ≤ b.1 := by
  have : Std.Total fun a b : κ × ν => a.1 ≤ b.1 := ⟨fun a b => Std.Total.total a.1 b.1⟩
  have : IsTrans (κ × ν) fun a b => a.1 ≤ b.1 := ⟨fun _ _ _ => Std.le_trans⟩
  exact List.pairwise_insertionSort _ _

omit [Std.IsLinearOrder κ] in
theorem mem_map_sorted {m : Map κ ν} {f : ν → ω} {k : κ} {w : ω} :
    (k, w) ∈ (sorted m).map (Prod.map id f) ↔ (m.lookup k).map f = some w := by
  rw [List.mem_map, Option.map_eq_some_iff]
  constructor
  · rintro ⟨⟨k', v⟩, hmem, heq⟩
    obtain ⟨rfl, rfl⟩ := Prod.mk.injEq .. ▸ heq
    exact ⟨v, mem_sorted.mp hmem, rfl⟩
  · rintro ⟨v, hv, rfl⟩
    exact ⟨(k, v), mem_sorted.mpr hv, rfl⟩

omit [Std.IsLinearOrder κ] [DecidableEq κ] in
theorem map_sorted_nodup (m : Map κ ν) (f : ν → ω) :
    ((sorted m).map (Prod.map id f)).Nodup := by
  apply List.Nodup.of_map Prod.fst
  rw [List.map_map]
  exact keys_sorted_nodup m

/-- Two ordered maps, their values seen through `f`, are walked alike exactly if they
have the same bindings. -/
theorem map_sorted_eq_iff {m m' : Map κ ν} {f : ν → ω} :
    (sorted m).map (Prod.map id f) = (sorted m').map (Prod.map id f) ↔
      ∀ k, (m.lookup k).map f = (m'.lookup k).map f := by
  constructor
  · intro heq k
    apply Option.ext
    intro w
    rw [← mem_map_sorted, ← mem_map_sorted, heq]
  · intro hlook
    have hmem : ∀ e : κ × ω, e ∈ (sorted m).map (Prod.map id f) ↔
        e ∈ (sorted m').map (Prod.map id f) := by
      rintro ⟨k, w⟩
      rw [mem_map_sorted, mem_map_sorted, hlook]
    have hpairwise : ∀ n : Map κ ν,
        ((sorted n).map (Prod.map id f)).Pairwise fun a b => a.1 ≤ b.1 := by
      intro n
      rw [List.pairwise_map]
      exact sorted_pairwise n
    refine List.Perm.eq_of_pairwise ?_ (hpairwise m) (hpairwise m')
      ((List.perm_ext_iff_of_nodup (map_sorted_nodup m f) (map_sorted_nodup m' f)).mpr hmem)
    rintro ⟨k, w⟩ ⟨k', w'⟩ ha hb hab hba
    obtain rfl : k = k' := Std.le_antisymm hab hba
    have ha' := mem_map_sorted.mp ((hmem _).mp ha)
    have hb' := mem_map_sorted.mp hb
    rw [Option.some.inj (ha'.symm.trans hb')]

end Map

end Repkgs.Lib
