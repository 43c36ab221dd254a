import Mathlib.Data.Finset.Card
import Mathlib.Data.List.Nodup
import Mathlib.Logic.Relation

/-!
# Breadth-first search with a work list

The loop takes the first element of a work list, skips it when it is done already
and otherwise puts its successors at the end, without looking whether they are on
the list. What it finds are the layers of a breadth-first search one after the
other, and in a finite graph it comes to an end.
-/

namespace Repkgs.Lib

variable {α : Type*} [DecidableEq α]

/-- The elements of a list that have not been seen before, each where it occurs first. -/
def fresh : List α → List α → List α
  | _, [] => []
  | seen, x :: xs => if x ∈ seen then fresh seen xs else x :: fresh (seen ++ [x]) xs

/-- The first `n` layers of a search that has seen some elements and found others: what is new
among these, then what is new among its successors, and so on. -/
def layers (next : α → List α) : Nat → List α → List α → List α
  | 0, _, _ => []
  | n + 1, seen, found =>
      fresh seen found ++
        layers next n (seen ++ fresh seen found) ((fresh seen found).flatMap next)

theorem mem_fresh {seen xs : List α} {x : α} : x ∈ fresh seen xs ↔ x ∈ xs ∧ x ∉ seen := by
  induction xs generalizing seen with
  | nil => simp [fresh]
  | cons y xs ih =>
      rw [fresh]
      split
      · next hy =>
        rw [ih, List.mem_cons]
        constructor
        · exact fun h => ⟨.inr h.1, h.2⟩
        · rintro ⟨rfl | hx, hseen⟩
          · exact absurd hy hseen
          · exact ⟨hx, hseen⟩
      · next hy =>
        rw [List.mem_cons, ih, List.mem_cons, List.mem_append, List.mem_singleton]
        by_cases hxy : x = y
        · simp [hxy, hy]
        · simp [hxy]

theorem nodup_append_fresh {seen : List α} (h : seen.Nodup) (xs : List α) :
    (seen ++ fresh seen xs).Nodup := by
  induction xs generalizing seen with
  | nil => simpa [fresh] using h
  | cons x xs ih =>
      rw [fresh]
      split
      · exact ih h
      · next hx =>
        have hseen : (seen ++ [x]).Nodup := by
          rw [List.nodup_append]
          refine ⟨h, List.nodup_singleton x, fun a ha b hb => ?_⟩
          rw [List.mem_singleton.mp hb]
          exact fun heq => hx (heq ▸ ha)
        simpa using ih hseen

variable {next : α → List α}

theorem layers_nil (n : Nat) (seen : List α) : layers next n seen [] = [] := by
  induction n generalizing seen with
  | zero => rfl
  | succ n ih => simpa [layers, fresh] using ih seen

theorem nodup_append_layers {seen : List α} (h : seen.Nodup) (n : Nat) (found : List α) :
    (seen ++ layers next n seen found).Nodup := by
  induction n generalizing seen found with
  | zero => simpa [layers] using h
  | succ n ih =>
      rw [layers, ← List.append_assoc]
      exact ih (nodup_append_fresh h found) _

/-- The layers hold nothing that is not reached from what was found. -/
theorem reached_of_mem_layers {n : Nat} {seen found : List α} {x : α}
    (h : x ∈ layers next n seen found) :
    ∃ r ∈ found, Relation.ReflTransGen (fun a b => b ∈ next a) r x := by
  induction n generalizing seen found with
  | zero => cases h
  | succ n ih =>
      rw [layers, List.mem_append] at h
      rcases h with hnew | hlater
      · exact ⟨x, (mem_fresh.mp hnew).1, .refl⟩
      · obtain ⟨y, hy, hyx⟩ := ih hlater
        obtain ⟨r, hr, hry⟩ := List.mem_flatMap.mp hy
        exact ⟨r, (mem_fresh.mp hr).1, .head hry hyx⟩

/-- A loop of at most `n` rounds; it has no result when it is not done by then. -/
def workList (next : α → List α) : Nat → List α → List α → Option (List α)
  | _, done, [] => some done
  | 0, _, _ :: _ => none
  | n + 1, done, p :: todo =>
      if p ∈ done then workList next n done todo
      else workList next n (done ++ [p]) (todo ++ next p)

theorem workList_nil (n : Nat) (done : List α) : workList next n done [] = some done := by
  cases n <;> rfl

theorem workList_mono {n m : Nat} {done todo out : List α} (hnm : n ≤ m)
    (h : workList next n done todo = some out) : workList next m done todo = some out := by
  induction n generalizing m done todo with
  | zero =>
      cases todo with
      | nil => rw [workList_nil] at h ⊢; exact h
      | cons p todo => cases h
  | succ n ih =>
      cases todo with
      | nil => rw [workList_nil] at h ⊢; exact h
      | cons p todo =>
          obtain ⟨m, rfl⟩ := Nat.exists_eq_add_of_le' (Nat.one_le_of_lt hnm)
          rw [workList] at h ⊢
          split
          · next hp =>
            rw [if_pos hp] at h
            exact ih (by omega) h
          · next hp =>
            rw [if_neg hp] at h
            exact ih (by omega) h

/-- One layer: what it has of new elements is done, and their successors are on the list. -/
theorem workList_layer (n : Nat) (done layer later : List α) :
    workList next (n + layer.length) done (layer ++ later) =
      workList next n (done ++ fresh done layer) (later ++ (fresh done layer).flatMap next) := by
  induction layer generalizing done later with
  | nil => simp [fresh]
  | cons p layer ih =>
      rw [List.length_cons, ← Nat.add_assoc, List.cons_append, workList, fresh]
      split
      · exact ih done later
      · rw [List.append_assoc, ih (done ++ [p]) (later ++ next p)]
        simp

theorem workList_whole (n : Nat) (done layer : List α) :
    workList next (n + layer.length) done layer =
      workList next n (done ++ fresh done layer) ((fresh done layer).flatMap next) := by
  simpa using workList_layer n done layer []

/-- With each layer fewer nodes are left. -/
theorem filter_fresh_ssubset {nodes : Finset α} {done found : List α}
    (hnew : ∀ p ∈ fresh done found, p ∈ nodes) (hne : fresh done found ≠ []) :
    nodes.filter (· ∉ done ++ fresh done found) ⊂ nodes.filter (· ∉ done) := by
  obtain ⟨p, hp⟩ := List.exists_mem_of_ne_nil _ hne
  refine Finset.ssubset_iff_of_subset (fun q hq => ?_) |>.mpr ⟨p, ?_, ?_⟩
  · simp only [Finset.mem_filter, List.mem_append, not_or] at hq ⊢
    exact ⟨hq.1, hq.2.1⟩
  · exact Finset.mem_filter.mpr ⟨hnew p hp, (mem_fresh.mp hp).2⟩
  · simp [hp]

/-- In a finite graph the loop ends, with all layers. -/
theorem workList_eq_layers {nodes : Finset α} (hclosed : ∀ p ∈ nodes, ∀ q ∈ next p, q ∈ nodes)
    (k : Nat) {done todo : List α} (hdone : (nodes.filter (· ∉ done)).card ≤ k)
    (htodo : ∀ p ∈ todo, p ∈ nodes) :
    ∃ n, workList next n done todo = some (done ++ layers next (k + 1) done todo) := by
  induction k generalizing done todo with
  | zero =>
      -- all nodes are done, so that nothing on the list is new
      have hnone : fresh done todo = [] := by
        refine List.eq_nil_iff_forall_not_mem.mpr fun p hp => ?_
        obtain ⟨hp, hnew⟩ := mem_fresh.mp hp
        have hmem : p ∈ nodes.filter (· ∉ done) := Finset.mem_filter.mpr ⟨htodo p hp, hnew⟩
        rw [Finset.card_eq_zero.mp (Nat.le_zero.mp hdone)] at hmem
        exact absurd hmem (Finset.notMem_empty p)
      refine ⟨0 + todo.length, ?_⟩
      rw [workList_whole, layers, hnone]
      simp [workList_nil, layers]
  | succ k ih =>
      have hnew : ∀ p ∈ fresh done todo, p ∈ nodes := fun p hp => htodo p (mem_fresh.mp hp).1
      by_cases hnone : fresh done todo = []
      · refine ⟨0 + todo.length, ?_⟩
        rw [workList_whole, layers, hnone]
        simp [workList_nil, layers_nil]
      · obtain ⟨n, hn⟩ : ∃ n, workList next n (done ++ fresh done todo)
            ((fresh done todo).flatMap next) = some (done ++ fresh done todo ++ layers next (k + 1)
              (done ++ fresh done todo) ((fresh done todo).flatMap next)) := by
          refine ih ?_ ?_
          · have hcard := Finset.card_lt_card (filter_fresh_ssubset hnew hnone)
            omega
          · intro q hq
            obtain ⟨p, hp, hpq⟩ := List.mem_flatMap.mp hq
            exact hclosed p (hnew p hp) q hpq
        refine ⟨n + todo.length, ?_⟩
        rw [workList_whole, hn, List.append_assoc]
        rfl

/-- What is done in the end holds what was on the list, with all successors. -/
theorem workList_closed {n : Nat} {done todo out : List α}
    (h : workList next n done todo = some out)
    (hdone : ∀ p ∈ done, ∀ q ∈ next p, q ∈ done ∨ q ∈ todo) :
    (∀ p, p ∈ done ∨ p ∈ todo → p ∈ out) ∧ ∀ p ∈ out, ∀ q ∈ next p, q ∈ out := by
  induction n generalizing done todo with
  | zero =>
      cases todo with
      | nil =>
          obtain rfl := Option.some.inj h
          simpa using hdone
      | cons p todo => cases h
  | succ n ih =>
      cases todo with
      | nil =>
          obtain rfl := Option.some.inj h
          simpa using hdone
      | cons p todo =>
          rw [workList] at h
          split at h
          · next hp =>
            obtain ⟨hout, hclosed⟩ := ih h fun a ha q hq => by
              rcases hdone a ha q hq with hq | hq
              · exact .inl hq
              · rcases List.mem_cons.mp hq with rfl | hq
                · exact .inl hp
                · exact .inr hq
            refine ⟨fun a ha => hout a ?_, hclosed⟩
            rcases ha with ha | ha
            · exact .inl ha
            · rcases List.mem_cons.mp ha with rfl | ha
              · exact .inl hp
              · exact .inr ha
          · obtain ⟨hout, hclosed⟩ := ih h fun a ha q hq => by
              simp only [List.mem_append, List.mem_singleton] at ha ⊢
              rcases ha with ha | rfl
              · rcases hdone a ha q hq with hq | hq
                · exact .inl (.inl hq)
                · rcases List.mem_cons.mp hq with rfl | hq
                  · exact .inl (.inr rfl)
                  · exact .inr (.inl hq)
              · exact .inr (.inr hq)
            refine ⟨fun a ha => hout a ?_, hclosed⟩
            simp only [List.mem_append, List.mem_singleton]
            rcases ha with ha | ha
            · exact .inl (.inl ha)
            · rcases List.mem_cons.mp ha with rfl | ha
              · exact .inl (.inr rfl)
              · exact .inr (.inl ha)

/-- The search from some roots: each element that is reached, once, layer by layer. -/
theorem workList_search {nodes : Finset α} (hclosed : ∀ p ∈ nodes, ∀ q ∈ next p, q ∈ nodes)
    {roots : List α} (hroots : ∀ r ∈ roots, r ∈ nodes) :
    (∃ n₀, ∀ n, n₀ ≤ n →
      workList next n [] roots = some (layers next (nodes.card + 1) [] roots)) ∧
    (layers next (nodes.card + 1) [] roots).Nodup ∧
    ∀ p, p ∈ layers next (nodes.card + 1) [] roots ↔
      ∃ r ∈ roots, Relation.ReflTransGen (fun a b => b ∈ next a) r p := by
  obtain ⟨n₀, hn₀⟩ : ∃ n, workList next n [] roots =
      some ([] ++ layers next (nodes.card + 1) [] roots) :=
    workList_eq_layers hclosed nodes.card (Finset.card_filter_le _ _) hroots
  rw [List.nil_append] at hn₀
  obtain ⟨hout, hnext⟩ := workList_closed hn₀ fun p hp => absurd hp List.not_mem_nil
  refine ⟨⟨n₀, fun n hn => workList_mono hn hn₀⟩, ?_, fun p => ⟨reached_of_mem_layers, ?_⟩⟩
  · have hnodup : ([] ++ layers next (nodes.card + 1) [] roots).Nodup :=
      nodup_append_layers List.nodup_nil _ _
    simpa using hnodup
  · rintro ⟨r, hr, hreach⟩
    induction hreach with
    | refl => exact hout r (.inr hr)
    | tail _ hstep ih => exact hnext _ ih _ hstep

end Repkgs.Lib
