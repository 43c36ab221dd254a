import Mathlib.Data.List.Basic
import Mathlib.Data.List.Induction

/-!
# Lexical paths

A path is a list of names, one of which stands for the parent directory. Walking
along it from a directory looks at the names only. A path to another place goes up
to what the two places have in common and down from there.
-/

namespace Repkgs.Lib

variable {ν : Type*} [DecidableEq ν] (up : ν)

def stepName (here : List ν) (name : ν) : List ν :=
  if name = up then here.dropLast else here ++ [name]

/-- The place where the names lead; there is nothing above the root. -/
def follow (here names : List ν) : List ν := names.foldl (stepName up) here

@[simp] theorem follow_nil (here : List ν) : follow up here [] = here := rfl

theorem follow_cons (here : List ν) (name : ν) (names : List ν) :
    follow up here (name :: names) = follow up (stepName up here name) names := rfl

theorem follow_append (here names more : List ν) :
    follow up here (names ++ more) = follow up (follow up here names) more :=
  List.foldl_append

variable {up}

variable {here names : List ν}

theorem stepName_of_ne {name : ν} (h : name ≠ up) :
    stepName up here name = here ++ [name] :=
  if_neg h

/-- Plain names lead down. -/
theorem follow_of_notMem (h : up ∉ names) (here : List ν) :
    follow up here names = here ++ names := by
  induction names generalizing here with
  | nil => exact (List.append_nil here).symm
  | cons name names ih =>
      rw [List.mem_cons, not_or] at h
      rw [follow_cons, stepName_of_ne (Ne.symm h.1), ih h.2, List.append_assoc,
        List.singleton_append]

/-- As many steps up as there are names behind a place. -/
theorem follow_map_up (here below : List ν) :
    follow up (here ++ below) (below.map fun _ => up) = here := by
  induction below using List.reverseRecOn with
  | nil => simp
  | append_singleton below name ih =>
      have hmap : (below ++ [name]).map (fun _ => up) = up :: below.map fun _ => up := by
        rw [List.map_append, List.map_singleton, List.map_const', ← List.replicate_succ',
          List.replicate_succ]
      rw [hmap, follow_cons, stepName, if_pos rfl, ← List.append_assoc, List.dropLast_concat, ih]

theorem notMem_follow (h : up ∉ here) : up ∉ follow up here names := by
  induction names generalizing here with
  | nil => exact h
  | cons name names ih =>
      rw [follow_cons]
      refine ih ?_
      unfold stepName
      split
      · exact fun hmem => h (List.dropLast_subset _ hmem)
      · rename_i hne
        simpa [h] using Ne.symm hne

/-- Every name of the place was in one of the two lists. -/
theorem mem_follow {n : ν} (h : n ∈ follow up here names) :
    n ∈ here ∨ n ∈ names := by
  induction names generalizing here with
  | nil => exact Or.inl h
  | cons name names ih =>
      rw [follow_cons] at h
      rcases ih h with hmem | hmem
      · unfold stepName at hmem
        split at hmem
        · exact Or.inl (List.dropLast_subset _ hmem)
        · rcases List.mem_append.mp hmem with hmem | hmem
          · exact Or.inl hmem
          · exact Or.inr (List.mem_cons.mpr (Or.inl (List.mem_singleton.mp hmem)))
      · exact Or.inr (.tail _ hmem)

/-- How many names two places have in common. -/
def common (here there : List ν) : Nat :=
  ((here.zip there).takeWhile fun p => p.1 = p.2).length

variable (up) in
/-- Up to the common part, then down. -/
def relative (here there : List ν) : List ν :=
  ((here.drop (common here there)).map fun _ => up) ++ there.drop (common here there)

theorem take_common (here there : List ν) :
    here.take (common here there) = there.take (common here there) := by
  induction here generalizing there with
  | nil => simp [common]
  | cons a here ih =>
      cases there with
      | nil => simp [common]
      | cons b there =>
          by_cases hab : a = b
          · subst hab
            have hcommon : common (a :: here) (a :: there) = common here there + 1 := by
              simp [common]
            rw [hcommon, List.take_succ_cons, List.take_succ_cons, ih]
          · simp [common, hab]

/-- A relative path leads from one place to the other. -/
theorem follow_relative (h : up ∉ here) (there : List ν) :
    follow up here (relative up here there) = follow up [] there := by
  have htake : up ∉ there.take (common here there) := by
    rw [← take_common]
    exact fun hmem => h (List.mem_of_mem_take hmem)
  calc
    follow up here (relative up here there)
      = follow up (here.take (common here there)) (there.drop (common here there)) := by
        rw [relative, follow_append]
        have hup := @follow_map_up ν _ up (here.take (common here there))
          (here.drop (common here there))
        rw [List.take_append_drop] at hup
        rw [hup]
    _ = follow up (follow up [] (there.take (common here there)))
          (there.drop (common here there)) := by
        rw [follow_of_notMem htake, List.nil_append, take_common]
    _ = follow up [] there := by rw [← follow_append, List.take_append_drop]

theorem mem_relative {here there : List ν} {n : ν} (h : n ∈ relative up here there) :
    n = up ∨ n ∈ there := by
  rcases List.mem_append.mp h with hmem | hmem
  · obtain ⟨-, -, rfl⟩ := List.mem_map.mp hmem
    exact Or.inl rfl
  · exact Or.inr (List.mem_of_mem_drop hmem)

end Repkgs.Lib
