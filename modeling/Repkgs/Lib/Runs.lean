import Mathlib.Data.List.Basic

/-!
# Labelled runs of a step function

A system is a partial step function on states: a label that is not enabled
gives `none`. A run is a list of labels executed from left to right. The rules
below turn one-step facts into facts about every run and every reachable state.
-/

namespace Repkgs.Lib

variable {σ ℓ : Type*}

/-- Execute a list of labels, failing at the first one that is not enabled. -/
def run (step : σ → ℓ → Option σ) : σ → List ℓ → Option σ
  | s, [] => some s
  | s, l :: ls => (step s l).bind fun t => run step t ls

/-- The states some run reaches from `init`. -/
def Reachable (step : σ → ℓ → Option σ) (init s : σ) : Prop :=
  ∃ ls, run step init ls = some s

variable {step : σ → ℓ → Option σ}

@[simp] theorem run_nil (s : σ) : run step s [] = some s := rfl

theorem run_cons (s : σ) (l : ℓ) (ls : List ℓ) :
    run step s (l :: ls) = (step s l).bind fun t => run step t ls := rfl

theorem run_cons_eq_some {s u : σ} {l : ℓ} {ls : List ℓ} :
    run step s (l :: ls) = some u ↔ ∃ t, step s l = some t ∧ run step t ls = some u := by
  rw [run_cons, Option.bind_eq_some_iff]

theorem run_append (s : σ) (ls ms : List ℓ) :
    run step s (ls ++ ms) = (run step s ls).bind fun t => run step t ms := by
  induction ls generalizing s with
  | nil => rfl
  | cons l ls ih =>
      simp only [List.cons_append, run_cons, Option.bind_assoc]
      congr 1
      funext t
      exact ih t

theorem run_append_of_eq_some {s t : σ} {ls : List ℓ} (h : run step s ls = some t)
    (ms : List ℓ) : run step s (ls ++ ms) = run step t ms := by
  rw [run_append, h, Option.bind_some]

theorem Reachable.refl (s : σ) : Reachable step s s := ⟨[], rfl⟩

theorem Reachable.trans {s t u : σ} (h : Reachable step s t) (h' : Reachable step t u) :
    Reachable step s u := by
  obtain ⟨ls, hls⟩ := h
  obtain ⟨ms, hms⟩ := h'
  exact ⟨ls ++ ms, (run_append_of_eq_some hls ms).trans hms⟩

theorem Reachable.single {s t : σ} {l : ℓ} (h : step s l = some t) : Reachable step s t :=
  ⟨[l], run_cons_eq_some.mpr ⟨t, h, rfl⟩⟩

theorem Reachable.snoc {init s t : σ} {l : ℓ} (h : Reachable step init s)
    (hl : step s l = some t) : Reachable step init t := by
  obtain ⟨ls, hls⟩ := h
  refine ⟨ls ++ [l], ?_⟩
  simp [run_append, hls, run_cons, hl]

/-- A property that every enabled step keeps is kept by every run. -/
theorem run_invariant {I : σ → Prop}
    (hstep : ∀ s l t, I s → step s l = some t → I t) {s t : σ} {ls : List ℓ}
    (hs : I s) (hrun : run step s ls = some t) : I t := by
  induction ls generalizing s with
  | nil =>
      cases hrun
      exact hs
  | cons l ls ih =>
      obtain ⟨u, hu, hrest⟩ := run_cons_eq_some.mp hrun
      exact ih (hstep s l u hs hu) hrest

/-- An initial property that every enabled step keeps holds in every reachable state. -/
theorem Reachable.invariant {I : σ → Prop} {init s : σ} (h : Reachable step init s)
    (hinit : I init) (hstep : ∀ s l t, I s → step s l = some t → I t) : I s := by
  obtain ⟨ls, hls⟩ := h
  exact run_invariant hstep hinit hls

/-- Every step of the run meets the condition in the state it starts from. -/
def Along (C : σ → ℓ → Prop) (step : σ → ℓ → Option σ) : σ → List ℓ → Prop
  | _, [] => True
  | s, l :: ls => C s l ∧ ∀ t, step s l = some t → Along C step t ls

/-- A decidable condition can be tested along a run. -/
instance Along.decidable {C : σ → ℓ → Prop} [∀ s l, Decidable (C s l)]
    {step : σ → ℓ → Option σ} : (s : σ) → (ls : List ℓ) → Decidable (Along C step s ls)
  | _, [] => isTrue trivial
  | s, l :: ls =>
      match hstep : step s l with
      | none => decidable_of_iff (C s l)
          ⟨fun h => ⟨h, fun _ ht => absurd (hstep.symm.trans ht) nofun⟩, And.left⟩
      | some t =>
          have : Decidable (Along C step t ls) := Along.decidable t ls
          decidable_of_iff (C s l ∧ Along C step t ls)
            ⟨fun h => ⟨h.1, fun _ hu => Option.some.inj (hstep.symm.trans hu) ▸ h.2⟩,
              fun h => ⟨h.1, h.2 t hstep⟩⟩

theorem Along.and {C : σ → ℓ → Prop} {D : ℓ → Prop} {s : σ} {ls : List ℓ}
    (h : Along C step s ls) (hall : ∀ l ∈ ls, D l) : Along (fun s l => D l ∧ C s l) step s ls := by
  induction ls generalizing s with
  | nil => trivial
  | cons l ls ih =>
      exact ⟨⟨hall l (.head _), h.1⟩, fun t ht => ih (h.2 t ht) fun m hm => hall m (.tail _ hm)⟩

/-- `run_invariant` for runs whose steps all meet a condition. -/
theorem run_invariant_along {I : σ → Prop} {C : σ → ℓ → Prop}
    (hstep : ∀ s l t, I s → C s l → step s l = some t → I t) {s t : σ} {ls : List ℓ}
    (hs : I s) (halong : Along C step s ls) (hrun : run step s ls = some t) : I t := by
  induction ls generalizing s with
  | nil =>
      cases hrun
      exact hs
  | cons l ls ih =>
      obtain ⟨u, hu, hrest⟩ := run_cons_eq_some.mp hrun
      exact ih (hstep s l u hs halong.1 hu) (halong.2 u hu) hrest

/-- Every state the run passes through has the property, its first and last included. -/
def Always (Q : σ → Prop) (step : σ → ℓ → Option σ) (s : σ) (ls : List ℓ) : Prop :=
  ∀ front, front <+: ls → ∀ t, run step s front = some t → Q t

theorem always_nil {Q : σ → Prop} {s : σ} : Always Q step s [] ↔ Q s := by
  constructor
  · exact fun h => h [] (List.prefix_refl _) s rfl
  · intro h front hfront t ht
    rw [List.prefix_nil.mp hfront] at ht
    exact Option.some.inj ht ▸ h

theorem always_cons {Q : σ → Prop} {s : σ} {l : ℓ} {ls : List ℓ} :
    Always Q step s (l :: ls) ↔ Q s ∧ ∀ t, step s l = some t → Always Q step t ls := by
  constructor
  · intro h
    refine ⟨h [] List.nil_prefix s rfl, fun t ht front hfront u hu => ?_⟩
    exact h (l :: front) (List.cons_prefix_cons.mpr ⟨rfl, hfront⟩) u
      (run_cons_eq_some.mpr ⟨t, ht, hu⟩)
  · rintro ⟨hs, hrest⟩ front hfront u hu
    cases front with
    | nil => exact Option.some.inj hu ▸ hs
    | cons m front =>
        obtain ⟨rfl, htail⟩ := List.cons_prefix_cons.mp hfront
        obtain ⟨t, ht, hu⟩ := run_cons_eq_some.mp hu
        exact hrest t ht front htail u hu

/-- Every round of a loop meets the condition in the state it starts from. -/
def AlongFold {α : Type*} (C : σ → α → Prop) (f : σ → α → σ) : σ → List α → Prop
  | _, [] => True
  | s, a :: as => C s a ∧ AlongFold C f (f s a) as

instance AlongFold.decidable {α : Type*} {C : σ → α → Prop} [∀ s a, Decidable (C s a)]
    {f : σ → α → σ} : (s : σ) → (as : List α) → Decidable (AlongFold C f s as)
  | _, [] => isTrue trivial
  | s, a :: as =>
      have : Decidable (AlongFold C f (f s a) as) := AlongFold.decidable (f s a) as
      inferInstanceAs (Decidable (C s a ∧ AlongFold C f (f s a) as))

/-- What every round keeps is kept by the loop. -/
theorem AlongFold.invariant {α : Type*} {C : σ → α → Prop} {f : σ → α → σ} {I : σ → Prop}
    {s : σ} {as : List α} (hstep : ∀ s, ∀ a ∈ as, I s → C s a → I (f s a))
    (h : AlongFold C f s as) (hs : I s) : I (as.foldl f s) := by
  induction as generalizing s with
  | nil => exact hs
  | cons a as ih =>
      have hrest := fun s b hb => hstep s b (.tail _ hb)
      exact ih hrest h.2 (hstep s a (.head _) hs h.1)

end Repkgs.Lib
