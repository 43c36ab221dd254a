import Mathlib.Algebra.BigOperators.Group.List.Basic

/-!
# Sums over a list with one entry replaced

A table of parties is a list; one step of one party replaces one entry. The
accounting lemmas compare the sum before and after without subtraction, so
they apply to natural numbers and to multisets alike.
-/

namespace Repkgs.Lib

variable {α M : Type*} [AddCommMonoid M]

/-- Replacing the entry `a` at position `i` by `b` exchanges `a` for `b` in the sum. -/
theorem sum_map_set (f : α → M) {l : List α} {i : Nat} {a : α} (h : l[i]? = some a) (b : α) :
    ((l.set i b).map f).sum + f a = (l.map f).sum + f b := by
  induction l generalizing i with
  | nil => simp at h
  | cons x xs ih =>
      cases i with
      | zero =>
          have hx : x = a := by simpa using h
          subst hx
          simp only [List.set_cons_zero, List.map_cons, List.sum_cons]
          rw [add_comm (f b), add_comm (f x), add_assoc, add_assoc, add_comm (f b)]
      | succ i =>
          have hi : xs[i]? = some a := by simpa using h
          simp only [List.set_cons_succ, List.map_cons, List.sum_cons]
          rw [add_assoc, ih hi, add_assoc]

theorem sum_set {l : List M} {i : Nat} {a : M} (h : l[i]? = some a) (b : M) :
    (l.set i b).sum + a = l.sum + b := by
  simpa using sum_map_set id h b

end Repkgs.Lib
