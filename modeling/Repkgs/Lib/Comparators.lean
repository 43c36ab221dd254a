import Mathlib.Data.List.Induction
import Mathlib.Order.Lattice
import Mathlib.Data.Nat.Find

/-!
# Three-way comparison functions

A comparison answers with a negative number, zero or a positive number. Whether
it orders a given list is a property of the list; the greatest element that a
single pass finds is one only then. Lists of components are compared by the
first position at which they differ, the shorter one being padded.
-/

namespace Repkgs.Lib

variable {α : Type*}

/-- The comparison is transitive on the elements of a list. -/
def TransOn (cmp : α → α → Int) (l : List α) : Prop :=
  ∀ x ∈ l, ∀ y ∈ l, ∀ z ∈ l, cmp x y ≤ 0 → cmp y z ≤ 0 → cmp x z ≤ 0

theorem TransOn.mono {cmp : α → α → Int} {l m : List α} (h : TransOn cmp l) (hsub : m ⊆ l) :
    TransOn cmp m :=
  fun x hx y hy z hz => h x (hsub hx) y (hsub hy) z (hsub hz)

/-- One pass over the list that keeps the greatest element so far. -/
def best (cmp : α → α → Int) (l : List α) : Option α :=
  l.foldl (fun b v => match b with
    | none => some v
    | some b => if 0 < cmp v b then some v else some b) none

theorem best_append_singleton (cmp : α → α → Int) (l : List α) (v : α) :
    best cmp (l ++ [v]) = match best cmp l with
      | none => some v
      | some b => if 0 < cmp v b then some v else some b := by
  rw [best, List.foldl_append]
  rfl

theorem best_isSome (cmp : α → α → Int) {l : List α} (h : l ≠ []) : (best cmp l).isSome := by
  obtain ⟨front, v, rfl⟩ := List.eq_nil_or_concat l |>.resolve_left h
  rw [List.concat_eq_append, best_append_singleton]
  split
  · rfl
  · split <;> rfl

/-- On a list that the comparison orders, nothing exceeds what the pass keeps. -/
theorem best_spec {cmp : α → α → Int} (hrefl : ∀ x, cmp x x = 0)
    (hneg : ∀ x y, cmp y x = -cmp x y) {l : List α} (h : TransOn cmp l) {r : α}
    (hr : best cmp l = some r) : r ∈ l ∧ ∀ x ∈ l, cmp x r ≤ 0 := by
  induction l using List.reverseRecOn generalizing r with
  | nil => cases hr
  | append_singleton l v ih =>
      have hl : TransOn cmp l := h.mono (List.subset_append_left l [v])
      have hv : v ∈ l ++ [v] := List.mem_append_right l (.head _)
      rw [best_append_singleton] at hr
      cases hb : best cmp l with
      | none =>
          have hnil : l = [] := by
            by_contra hne
            have hsome := best_isSome cmp hne
            rw [hb] at hsome
            cases hsome
          rw [hb] at hr
          cases hr
          subst hnil
          refine ⟨hv, fun x hx => ?_⟩
          rw [List.mem_singleton.mp hx, hrefl]
      | some b =>
          obtain ⟨hbl, hmax⟩ := ih hl hb
          have hbl' : b ∈ l ++ [v] := List.mem_append_left [v] hbl
          simp only [hb] at hr
          split at hr
          · next hlt =>
              cases hr
              refine ⟨hv, fun x hx => ?_⟩
              rcases List.mem_append.mp hx with hxl | hxv
              · have hbv := hneg v b
                exact h x hx b hbl' v hv (hmax x hxl) (by omega)
              · rw [List.mem_singleton.mp hxv, hrefl]
          · next hle =>
              cases hr
              refine ⟨hbl', fun x hx => ?_⟩
              rcases List.mem_append.mp hx with hxl | hxv
              · exact hmax x hxl
              · rw [List.mem_singleton.mp hxv]
                omega

/-- The comparison of a linear order. -/
def threeWay {β : Type*} [LinearOrder β] (x y : β) : Int :=
  if x = y then 0 else if x < y then -1 else 1

section ThreeWay

variable {β : Type*} [LinearOrder β] {x y z : β}

@[simp] theorem threeWay_eq_zero : threeWay x y = 0 ↔ x = y := by
  unfold threeWay
  split
  · simp_all
  · split <;> simp_all

@[simp] theorem threeWay_nonpos : threeWay x y ≤ 0 ↔ x ≤ y := by
  unfold threeWay
  split
  · next heq => simp [heq]
  · next hne =>
      split
      · next hlt => simp [hlt.le]
      · next hge =>
          have hlt : y < x := lt_of_le_of_ne (not_lt.mp hge) (Ne.symm hne)
          simp [hlt]

theorem threeWay_neg (x y : β) : threeWay y x = -threeWay x y := by
  unfold threeWay
  rcases lt_trichotomy x y with hlt | heq | hgt
  · rw [if_neg hlt.ne', if_neg hlt.not_gt, if_neg hlt.ne, if_pos hlt]
    rfl
  · rw [if_pos heq.symm, if_pos heq]
    rfl
  · rw [if_neg hgt.ne, if_pos hgt, if_neg hgt.ne', if_neg hgt.not_gt]

/-- Two steps down are a step down, and a level one only if both are level. -/
theorem threeWay_trans (hxy : threeWay x y ≤ 0) (hyz : threeWay y z ≤ 0) :
    threeWay x z ≤ 0 ∧ (threeWay x z = 0 → threeWay x y = 0 ∧ threeWay y z = 0) := by
  simp only [threeWay_nonpos, threeWay_eq_zero] at *
  refine ⟨hxy.trans hyz, ?_⟩
  rintro rfl
  exact ⟨le_antisymm hxy hyz, le_antisymm hyz hxy⟩

end ThreeWay

section Lex

variable (loc : α → α → Int) (pad : α)

/-- Compare at most `n` positions. -/
def lexLoop : Nat → List α → List α → Int
  | 0, _, _ => 0
  | n + 1, l, m =>
      let c := loc (l.headD pad) (m.headD pad)
      if c ≠ 0 then c else lexLoop n l.tail m.tail

/-- Compare two lists by the first position at which they differ. -/
def lexCmp (l m : List α) : Int := lexLoop loc pad (max l.length m.length) l m

/-- The lists do not differ at position `i`. -/
def Agree (l m : List α) (i : Nat) : Prop := loc (l.getD i pad) (m.getD i pad) = 0

variable {loc pad}

theorem getD_tail (l : List α) (i : Nat) : l.tail.getD i pad = l.getD (i + 1) pad := by
  cases l <;> rfl

theorem headD_eq_getD (l : List α) : l.headD pad = l.getD 0 pad := by
  cases l <;> rfl

theorem lexLoop_of_first {n i : Nat} {l m : List α} (hi : i < n)
    (hbefore : ∀ j < i, Agree loc pad l m j) (hne : ¬ Agree loc pad l m i) :
    lexLoop loc pad n l m = loc (l.getD i pad) (m.getD i pad) := by
  induction n generalizing i l m with
  | zero => exact absurd hi (Nat.not_lt_zero i)
  | succ n ih =>
      rw [lexLoop]
      simp only [headD_eq_getD]
      cases i with
      | zero => exact if_pos hne
      | succ i =>
          have hhead : loc (l.getD 0 pad) (m.getD 0 pad) = 0 := hbefore 0 (Nat.succ_pos i)
          rw [if_neg (not_not.mpr hhead), ih (Nat.lt_of_succ_lt_succ hi), getD_tail, getD_tail]
          · intro j hj
            rw [Agree, getD_tail, getD_tail]
            exact hbefore (j + 1) (Nat.succ_lt_succ hj)
          · rw [Agree, getD_tail, getD_tail]
            exact hne

theorem lexLoop_of_agree {n : Nat} {l m : List α} (h : ∀ i, Agree loc pad l m i) :
    lexLoop loc pad n l m = 0 := by
  induction n generalizing l m with
  | zero => rfl
  | succ n ih =>
      have hhead : loc (l.headD pad) (m.headD pad) = 0 := by
        rw [headD_eq_getD, headD_eq_getD]
        exact h 0
      rw [lexLoop]
      simp only [hhead, ne_eq, not_true_eq_false, if_false]
      apply ih
      intro i
      rw [Agree, getD_tail, getD_tail]
      exact h (i + 1)

variable (hpad : loc pad pad = 0)

include hpad in
theorem lexCmp_of_first {i : Nat} {l m : List α} (hbefore : ∀ j < i, Agree loc pad l m j)
    (hne : ¬ Agree loc pad l m i) : lexCmp loc pad l m = loc (l.getD i pad) (m.getD i pad) := by
  apply lexLoop_of_first _ hbefore hne
  by_contra hge
  rw [Nat.not_lt, Nat.max_le] at hge
  apply hne
  have hl : l.getD i pad = pad := by simp [List.getD, List.getElem?_eq_none hge.1]
  have hm : m.getD i pad = pad := by simp [List.getD, List.getElem?_eq_none hge.2]
  rw [Agree, hl, hm]
  exact hpad

theorem lexCmp_of_agree {l m : List α} (h : ∀ i, Agree loc pad l m i) : lexCmp loc pad l m = 0 :=
  lexLoop_of_agree h

theorem lexCmp_self (hrefl : ∀ x, loc x x = 0) (l : List α) : lexCmp loc pad l l = 0 :=
  lexCmp_of_agree fun _ => hrefl _

/-- A common beginning does not count. -/
theorem lexCmp_append_left (hrefl : ∀ x, loc x x = 0) (l m m' : List α) :
    lexCmp loc pad (l ++ m) (l ++ m') = lexCmp loc pad m m' := by
  induction l with
  | nil => rfl
  | cons x l ih =>
      have hstep : lexCmp loc pad (x :: (l ++ m)) (x :: (l ++ m')) =
          lexCmp loc pad (l ++ m) (l ++ m') := by
        unfold lexCmp
        rw [List.length_cons, List.length_cons, Nat.add_max_add_right, lexLoop]
        simp only [List.headD_cons, List.tail_cons, hrefl, ne_eq, not_true_eq_false, if_false]
      exact hstep.trans ih

theorem lexCmp_neg (hneg : ∀ x y, loc y x = -loc x y) (l m : List α) :
    lexCmp loc pad m l = -lexCmp loc pad l m := by
  have hloop : ∀ (n : Nat) (l m : List α),
      lexLoop loc pad n m l = -lexLoop loc pad n l m := by
    intro n
    induction n with
    | zero => exact fun _ _ => rfl
    | succ n ih =>
        intro l m
        rw [lexLoop, lexLoop, ih, hneg]
        simp only [ne_eq, Int.neg_eq_zero]
        split <;> rfl
  rw [lexCmp, lexCmp, Nat.max_comm, hloop]

end Lex

end Repkgs.Lib
