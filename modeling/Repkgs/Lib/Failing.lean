import Mathlib.Data.List.Basic
import Mathlib.Data.List.Forall2

/-!
# Computations that can fail

What a result of a sequence of failing steps says about the steps: of one after
the other, of a list of them, and of a loop that keeps an invariant.
-/

namespace Repkgs.Lib

variable {κ ν ε : Type*}

theorem bind_eq_ok_iff {α β : Type} {r : Except ε α} {f : α → Except ε β} {b : β} :
    (r >>= f) = .ok b ↔ ∃ a, r = .ok a ∧ f a = .ok b := by
  cases r <;> simp [bind, Except.bind]

theorem bind_eq_error_iff {α β : Type} {r : Except ε α} {f : α → Except ε β} {e : ε} :
    (r >>= f) = .error e ↔ r = .error e ∨ ∃ a, r = .ok a ∧ f a = .error e := by
  cases r <;> simp [bind, Except.bind]

/-- What every step of a loop keeps holds when the loop is done. -/
theorem foldlM_invariant {α σ : Type} {f : σ → α → Except ε σ} {items : List α} {st out : σ}
    (keeps : σ → Prop) (hstep : ∀ a ∈ items, ∀ s t, keeps s → f s a = .ok t → keeps t)
    (hst : keeps st) (h : items.foldlM f st = .ok out) : keeps out := by
  induction items generalizing st with
  | nil =>
      cases h
      exact hst
  | cons a items ih =>
      rw [List.foldlM_cons] at h
      obtain ⟨next, hnext, h⟩ := bind_eq_ok_iff.mp h
      exact ih (fun b hb => hstep b (.tail _ hb))
        (hstep a (.head _) st next hst hnext) h

section Range

variable {σ : Type} {f : σ → Nat → Except ε σ} {s t : σ} {n : Nat}

/-- The last round of a counted loop runs on what the others left. -/
theorem foldlM_range_succ (f : σ → Nat → Except ε σ) (s : σ) (n : Nat) :
    (List.range (n + 1)).foldlM f s = (List.range n).foldlM f s >>= fun t => f t n := by
  rw [List.range_succ, List.foldlM_append]
  congr 1
  funext t
  rw [List.foldlM_cons]
  cases f t n <;> rfl

/-- A counted loop fails with the error of the round it reached last. -/
theorem foldlM_range_eq_error_iff {e : ε} : (List.range n).foldlM f s = .error e ↔
    ∃ i < n, ∃ t, (List.range i).foldlM f s = .ok t ∧ f t i = .error e := by
  induction n with
  | zero => simp [pure, Except.pure]
  | succ n ih =>
      rw [foldlM_range_succ, bind_eq_error_iff, ih]
      constructor
      · rintro (⟨i, hi, hround⟩ | hround)
        · exact ⟨i, Nat.lt_succ_of_lt hi, hround⟩
        · exact ⟨n, Nat.lt_succ_self n, hround⟩
      · rintro ⟨i, hi, hround⟩
        rcases Nat.lt_succ_iff_lt_or_eq.mp hi with hlt | rfl
        · exact Or.inl ⟨i, hlt, hround⟩
        · exact Or.inr hround

end Range

theorem map_eq_ok_iff {f : κ → ν} {r : Except ε κ} {v : ν} :
    r.map f = .ok v ↔ ∃ k, r = .ok k ∧ f k = v := by
  cases r <;> simp [Except.map]

variable {g : κ → Except ε ν} {names : List κ} {vs : List ν}

theorem mapM_eq_ok_iff :
    names.mapM g = .ok vs ↔ List.Forall₂ (fun k v => g k = .ok v) names vs := by
  induction names generalizing vs with
  | nil => cases vs <;> simp [pure, Except.pure]
  | cons k names ih =>
      rw [List.mapM_cons]
      cases hg : g k with
      | error e => cases vs <;> simp [bind, Except.bind, hg]
      | ok v =>
          cases hrest : names.mapM g with
          | error e =>
              cases vs with
              | nil => simp [bind, Except.bind]
              | cons w ws => simp [bind, Except.bind, hg, ← ih, hrest]
          | ok rest =>
              cases vs with
              | nil => simp [bind, Except.bind, pure, Except.pure]
              | cons w ws => simp [bind, Except.bind, pure, Except.pure, hg, ← ih, hrest]

theorem mapM_congr {g g' : κ → Except ε ν} (h : ∀ k ∈ names, g k = g' k) :
    names.mapM g = names.mapM g' := by
  induction names with
  | nil => rfl
  | cons k names ih =>
      rw [List.mapM_cons, List.mapM_cons, h k (.head _),
        ih fun k' hk' => h k' (.tail _ hk')]

theorem exists_mapM_eq_ok (h : ∀ k ∈ names, ∃ v, g k = .ok v) : ∃ vs, names.mapM g = .ok vs := by
  simp only [mapM_eq_ok_iff]
  induction names with
  | nil => exact ⟨[], .nil⟩
  | cons k names ih =>
      obtain ⟨v, hv⟩ := h k (.head _)
      obtain ⟨vs, hvs⟩ := ih fun k' hk' => h k' (.tail _ hk')
      exact ⟨v :: vs, .cons hv hvs⟩

theorem exists_of_mapM_eq_error {e : ε} (h : names.mapM g = .error e) :
    ∃ k ∈ names, g k = .error e := by
  induction names with
  | nil => cases h
  | cons k names ih =>
      rw [List.mapM_cons] at h
      cases hg : g k with
      | error e' =>
          rw [hg] at h
          cases h
          exact ⟨k, List.mem_cons_self, hg⟩
      | ok v =>
          cases hrest : names.mapM g with
          | error e' =>
              rw [hg, hrest] at h
              cases h
              obtain ⟨k', hk', hgk'⟩ := ih hrest
              exact ⟨k', List.mem_cons_of_mem k hk', hgk'⟩
          | ok vs =>
              rw [hg, hrest] at h
              cases h

theorem mapM_ok_iff {g : κ → Except ε ν} {names : List κ} :
    (∃ vs, names.mapM g = .ok vs) ↔ ∀ k ∈ names, ∃ v, g k = .ok v := by
  constructor
  · rintro ⟨vs, hvs⟩ k hk
    rw [mapM_eq_ok_iff] at hvs
    induction hvs with
    | nil => cases hk
    | cons hgk _ ih =>
        rcases List.mem_cons.mp hk with rfl | htail
        · exact ⟨_, hgk⟩
        · exact ih htail
  · exact exists_mapM_eq_ok

/-- The value is `true`, and no error. -/
def holds : Except ε Bool → Bool
  | .ok b => b
  | .error _ => false

theorem filterAuxM_eq_ok_iff {α : Type} {p : α → Except ε Bool} {items acc kept : List α} :
    items.filterAuxM p acc = .ok kept ↔
      (∀ d ∈ items, ∃ b, p d = .ok b) ∧
        kept = (items.filter fun d => holds (p d)).reverse ++ acc := by
  induction items generalizing acc with
  | nil => simp [List.filterAuxM, pure, Except.pure, eq_comm]
  | cons d rest ih =>
      rw [List.filterAuxM, List.forall_mem_cons, List.filter_cons]
      cases hp : p d with
      | error e => simp [bind, Except.bind]
      | ok flag => cases flag <;> simp [bind, Except.bind, ih, holds]

theorem filterM_eq_ok_iff {α : Type} {p : α → Except ε Bool} {items kept : List α} :
    items.filterM p = .ok kept ↔
      (∀ d ∈ items, ∃ b, p d = .ok b) ∧ kept = items.filter fun d => holds (p d) := by
  rw [List.filterM]
  cases haux : items.filterAuxM p [] with
  | error e =>
      simp only [bind, Except.bind, reduceCtorEq, false_iff, not_and]
      intro hall _
      have hok := (@filterAuxM_eq_ok_iff _ _ p items [] _).mpr ⟨hall, rfl⟩
      rw [haux] at hok
      cases hok
  | ok aux =>
      obtain ⟨hall, rfl⟩ := filterAuxM_eq_ok_iff.mp haux
      rw [and_iff_right hall]
      simp [bind, Except.bind, pure, Except.pure, eq_comm]

theorem mapM_eq_some_iff {g : κ → Option ν} :
    names.mapM g = some vs ↔ List.Forall₂ (fun k v => g k = some v) names vs := by
  induction names generalizing vs with
  | nil => cases vs <;> simp
  | cons k names ih =>
      rw [List.mapM_cons]
      cases hg : g k with
      | none => cases vs <;> simp [hg]
      | some v =>
          cases hrest : names.mapM g with
          | none => cases vs <;> simp [hg, ← ih, hrest]
          | some rest => cases vs <;> simp [hg, ← ih, hrest]

theorem mapM_option_map {α β γ : Type*} (f : α → Option β) (g : α → β → γ) (l : List α) :
    (l.mapM fun a => (f a).map (g a)) =
      (l.mapM f).map fun bs => (l.zip bs).map fun p => g p.1 p.2 := by
  induction l with
  | nil => rfl
  | cons a l ih =>
      rw [List.mapM_cons, List.mapM_cons, ih]
      cases f a with
      | none => rfl
      | some b => cases l.mapM f <;> rfl

theorem exists_of_forall₂_right {R : κ → ν → Prop} (h : List.Forall₂ R names vs) {v : ν}
    (hv : v ∈ vs) : ∃ k ∈ names, R k v := by
  induction h with
  | nil => cases hv
  | cons hR _ ih =>
      rcases List.mem_cons.mp hv with rfl | htail
      · exact ⟨_, List.mem_cons_self, hR⟩
      · obtain ⟨k, hk, hkv⟩ := ih htail
        exact ⟨k, List.mem_cons_of_mem _ hk, hkv⟩

theorem exists_of_forall₂_left {R : κ → ν → Prop} (h : List.Forall₂ R names vs) {k : κ}
    (hk : k ∈ names) : ∃ v ∈ vs, R k v :=
  exists_of_forall₂_right h.flip hk

end Repkgs.Lib
