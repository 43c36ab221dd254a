import Mathlib.Data.List.TakeWhile
import Mathlib.Data.List.Basic

/-!
# Writing over a part of a list

`slice` reads a run of elements, `patch` writes one over what stands there. Every
fact about a read after a write comes from `getElem?_patch`: a position holds the
new element inside the written run and the old one outside.
-/

namespace Repkgs.Lib

variable {α : Type*} {xs ys zs : List α} {off n i : Nat}

/-- The `n` elements from `off` on. -/
def slice (xs : List α) (off n : Nat) : List α := (xs.drop off).take n

/-- `ys` over the elements from `off` on. -/
def patch (xs : List α) (off : Nat) (ys : List α) : List α :=
  xs.take off ++ ys ++ xs.drop (off + ys.length)

theorem length_slice (h : off + n ≤ xs.length) : (slice xs off n).length = n := by
  rw [slice, List.length_take, List.length_drop]
  omega

theorem getElem?_slice (xs : List α) (off n i : Nat) :
    (slice xs off n)[i]? = if i < n then xs[off + i]? else none := by
  rw [slice, List.getElem?_take, List.getElem?_drop]

theorem slice_congr (h : ∀ i, off ≤ i → i < off + n → xs[i]? = ys[i]?) :
    slice xs off n = slice ys off n := by
  apply List.ext_getElem?
  intro i
  rw [getElem?_slice, getElem?_slice]
  split_ifs with hi
  · exact h _ (Nat.le_add_right _ _) (by omega)
  · rfl

theorem slice_slice {m k : Nat} (h : k + m ≤ n) :
    slice (slice xs off n) k m = slice xs (off + k) m := by
  apply List.ext_getElem?
  intro i
  rw [getElem?_slice, getElem?_slice, getElem?_slice]
  by_cases hi : i < m
  · rw [if_pos hi, if_pos hi, if_pos (by omega), Nat.add_assoc]
  · rw [if_neg hi, if_neg hi]

theorem length_patch (h : off + ys.length ≤ xs.length) : (patch xs off ys).length = xs.length := by
  rw [patch, List.length_append, List.length_append, List.length_take, List.length_drop]
  omega

theorem getElem?_patch (h : off + ys.length ≤ xs.length) (i : Nat) :
    (patch xs off ys)[i]? = if off ≤ i ∧ i < off + ys.length then ys[i - off]? else xs[i]? := by
  have htake : (xs.take off).length = off := List.length_take_of_le (by omega)
  rw [patch, List.append_assoc]
  by_cases hlow : i < off
  · rw [List.getElem?_append_left (by omega), List.getElem?_take_of_lt hlow, if_neg (by omega)]
  · rw [List.getElem?_append_right (by omega), htake]
    by_cases hin : i < off + ys.length
    · rw [List.getElem?_append_left (by omega), if_pos (by omega)]
    · rw [List.getElem?_append_right (by omega), List.getElem?_drop, if_neg (by omega)]
      congr 1
      omega

/-- What was written is read back. -/
theorem slice_patch (h : off + ys.length ≤ xs.length) :
    slice (patch xs off ys) off ys.length = ys := by
  apply List.ext_getElem?
  intro i
  rw [getElem?_slice, getElem?_patch h]
  by_cases hi : i < ys.length
  · rw [if_pos hi, if_pos (by omega), Nat.add_sub_cancel_left]
  · rw [if_neg hi, List.getElem?_eq_none (by omega)]

/-- The lists are of one length and differ only at positions in `touched`. -/
structure SameOutside (touched : Nat → Prop) (xs ys : List α) : Prop where
  length_eq : ys.length = xs.length
  getElem?_eq : ∀ i, ¬ touched i → ys[i]? = xs[i]?

namespace SameOutside

variable {touched more : Nat → Prop}

theorem refl (touched : Nat → Prop) (xs : List α) : SameOutside touched xs xs :=
  ⟨rfl, fun _ _ => rfl⟩

theorem trans (h : SameOutside touched xs ys) (h' : SameOutside touched ys zs) :
    SameOutside touched xs zs :=
  ⟨h'.length_eq.trans h.length_eq,
    fun i hi => (h'.getElem?_eq i hi).trans (h.getElem?_eq i hi)⟩

theorem mono (h : SameOutside touched xs ys) (hsub : ∀ i, touched i → more i) :
    SameOutside more xs ys :=
  ⟨h.length_eq, fun i hi => h.getElem?_eq i fun ht => hi (hsub i ht)⟩

theorem patch (h : off + ys.length ≤ xs.length) :
    SameOutside (fun i => off ≤ i ∧ i < off + ys.length) xs (patch xs off ys) :=
  ⟨length_patch h, fun i hi => by rw [getElem?_patch h, if_neg hi]⟩

/-- A run that no write touched reads the same. -/
theorem slice_eq (h : SameOutside touched xs ys)
    (hout : ∀ i, off ≤ i → i < off + n → ¬ touched i) : slice ys off n = slice xs off n :=
  slice_congr fun i hlow hhigh => h.getElem?_eq i (hout i hlow hhigh)

end SameOutside

end Repkgs.Lib
