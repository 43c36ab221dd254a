import Mathlib.Data.List.Basic

/-!
# Loops that follow a position

A loop looks at a position, takes an item there and goes on at another position,
or it ends. Nothing says that it does end: `walk` gives up after `fuel` rounds,
and a measure that falls with every round shows that it need not.
-/

namespace Repkgs.Lib

variable {σ α : Type*}

/-- The items a loop meets, in order; `none` if it is still going after `fuel` rounds. -/
def walk (visit : σ → Option (α × σ)) : Nat → σ → Option (List α)
  | 0, _ => none
  | fuel + 1, s =>
      match visit s with
      | none => some []
      | some (a, next) => (walk visit fuel next).map (a :: ·)

variable {visit visit' : σ → Option (α × σ)}

theorem walk_of_measure (μ : σ → Nat) (hfall : ∀ s a next, visit s = some (a, next) → μ next < μ s)
    {fuel : Nat} {s : σ} (hfuel : μ s < fuel) : ∃ items, walk visit fuel s = some items := by
  induction fuel generalizing s with
  | zero => omega
  | succ fuel ih =>
      rw [walk]
      cases hvisit : visit s with
      | none => exact ⟨[], rfl⟩
      | some found =>
          obtain ⟨a, next⟩ := found
          have hlt := hfall s a next hvisit
          obtain ⟨items, hitems⟩ := @ih next (by omega)
          exact ⟨a :: items, by simp only [hitems, Option.map_some]⟩

/-- The elements of a loop over indices that stops at the first one without a value. -/
def readWhile (f : Nat → Option α) : Nat → Nat → List α
  | 0, _ => []
  | n + 1, i =>
      match f i with
      | none => []
      | some a => a :: readWhile f n (i + 1)

end Repkgs.Lib
