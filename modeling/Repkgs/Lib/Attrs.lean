import Mathlib.Data.List.Sort
import Mathlib.Data.List.Dedup
import Mathlib.Data.List.Lookmap
import Repkgs.Lib.Failing

/-!
# Attribute sets

A set of named values is the list of its members in the order of their names. Such
a list is determined by what its lookups give, so an operation on sets is written
as the names it ranges over and the value, or the error, at each of them.
-/

namespace Repkgs.Lib

variable {κ ν ε : Type*}

section Lookup

variable {β : Type*} [BEq κ] [LawfulBEq κ] {k : κ}

theorem mem_of_lookup {l : List (κ × β)} {v : β} (h : l.lookup k = some v) : (k, v) ∈ l := by
  obtain ⟨before, after, rfl, -⟩ := List.lookup_eq_some_iff.mp h
  simp

theorem lookup_filter_fst (p : κ → Bool) (l : List (κ × β)) :
    (l.filter fun e => p e.1).lookup k = if p k then l.lookup k else none := by
  induction l with
  | nil => simp
  | cons e l ih =>
      obtain ⟨key, v⟩ := e
      by_cases hk : k = key
      · subst hk
        cases hp : p k with
        | true => simp [hp]
        | false => simpa [hp] using ih
      · have hb : (k == key) = false := beq_false_of_ne hk
        cases hp : p key with
        | true => simpa [hp, List.lookup_cons, hb] using ih
        | false => simpa [hp, List.lookup_cons, hb] using ih

end Lookup

/-- The names ascend. -/
def SortedNames [LE κ] (members : List (κ × ν)) : Prop :=
  members.Pairwise fun a b => a.1 ≤ b.1 ∧ a.1 ≠ b.1

instance [LE κ] [DecidableLE κ] [DecidableEq κ] (members : List (κ × ν)) :
    Decidable (SortedNames members) :=
  inferInstanceAs (Decidable (List.Pairwise _ _))

section Names

variable [LE κ] [DecidableLE κ] [DecidableEq κ]

/-- Each name once, in order. -/
def inOrder (names : List κ) : List κ := names.dedup.insertionSort (· ≤ ·)

/-- The set with a value for each of the names, or the first error. -/
def tabulateM (names : List κ) (f : κ → Except ε ν) : Except ε (List (κ × ν)) :=
  (inOrder names).mapM fun k => (f k).map fun v => (k, v)

/-- The set of the names for which `f` has a value. -/
def tabulate (names : List κ) (f : κ → Option ν) : List (κ × ν) :=
  (inOrder names).filterMap fun k => (f k).map fun v => (k, v)

theorem mem_inOrder {names : List κ} {k : κ} : k ∈ inOrder names ↔ k ∈ names := by
  rw [inOrder, List.mem_insertionSort, List.mem_dedup]

theorem tabulateM_congr {names : List κ} {f g : κ → Except ε ν} (h : ∀ k ∈ names, f k = g k) :
    tabulateM names f = tabulateM names g :=
  mapM_congr fun k hk => by rw [h k (mem_inOrder.mp hk)]

variable [Std.IsLinearOrder κ]

theorem inOrder_pairwise (names : List κ) :
    (inOrder names).Pairwise fun a b => a ≤ b ∧ a ≠ b := by
  apply List.Pairwise.and
  · exact List.pairwise_insertionSort (· ≤ ·) _
  · exact (List.perm_insertionSort (· ≤ ·) _).nodup_iff.mpr (List.nodup_dedup names)

theorem tabulate_sorted (names : List κ) (f : κ → Option ν) : SortedNames (tabulate names f) := by
  apply (inOrder_pairwise names).filterMap
  intro a b hab e he e' he'
  obtain ⟨v, -, rfl⟩ := Option.map_eq_some_iff.mp he
  obtain ⟨v', -, rfl⟩ := Option.map_eq_some_iff.mp he'
  exact hab

end Names

section Lookup

variable [BEq κ] [LawfulBEq κ]

def removeNames (members : List (κ × ν)) (names : List κ) : List (κ × ν) :=
  members.filter fun e => e.1 ∉ names

theorem lookup_isSome_iff {members : List (κ × ν)} {k : κ} :
    (members.lookup k).isSome ↔ k ∈ members.map Prod.fst := by
  rw [Option.isSome_iff_ne_none, ne_eq, List.lookup_eq_none_iff, List.mem_map]
  constructor
  · intro hnot
    by_contra hnone
    exact hnot fun e he => bne_iff_ne.mpr fun hk => hnone ⟨e, he, hk.symm⟩
  · rintro ⟨e, he, hk⟩ hall
    exact bne_iff_ne.mp (hall e he) hk.symm

theorem lookup_removeNames (members : List (κ × ν)) (names : List κ) (k : κ) :
    (removeNames members names).lookup k = if k ∈ names then none else members.lookup k := by
  have hfilter := lookup_filter_fst (k := k) (fun name => decide (name ∉ names)) members
  rw [removeNames, hfilter]
  by_cases hk : k ∈ names <;> simp [hk]

variable [LE κ]

theorem SortedNames.removeNames {members : List (κ × ν)} (h : SortedNames members)
    (names : List κ) : SortedNames (removeNames members names) :=
  h.filter _

theorem SortedNames.lookup_of_mem {members : List (κ × ν)} (h : SortedNames members)
    {k : κ} {v : ν} (hmem : (k, v) ∈ members) : members.lookup k = some v := by
  induction members with
  | nil => cases hmem
  | cons e rest ih =>
      obtain ⟨hhead, hrest⟩ := List.pairwise_cons.mp h
      rw [List.lookup_cons]
      rcases List.mem_cons.mp hmem with rfl | htail
      · simp
      · have hne : (k == e.1) = false := by
          rw [beq_eq_false_iff_ne]
          exact fun heq => (hhead _ htail).2 heq.symm
        rw [hne]
        exact ih hrest htail

/-- Two sets with the same lookups are the same. -/
theorem SortedNames.ext [Std.IsLinearOrder κ] {a b : List (κ × ν)}
    (ha : SortedNames a) (hb : SortedNames b)
    (h : ∀ k, a.lookup k = b.lookup k) : a = b := by
  have hnodup : ∀ {c : List (κ × ν)}, SortedNames c → c.Nodup :=
    fun hc => hc.imp fun hab heq => hab.2 (congrArg Prod.fst heq)
  have hmem : ∀ {c d : List (κ × ν)}, SortedNames c → (∀ k, c.lookup k = d.lookup k) →
      ∀ e ∈ c, e ∈ d :=
    fun hc hcd e he => mem_of_lookup ((hcd e.1).symm.trans (hc.lookup_of_mem he))
  have hperm : a.Perm b := by
    rw [List.perm_ext_iff_of_nodup (hnodup ha) (hnodup hb)]
    exact fun e => ⟨hmem ha h e, hmem hb (fun k => (h k).symm) e⟩
  refine List.Perm.eq_of_pairwise (fun e e' _ _ hee hee' => ?_) ha hb hperm
  exact absurd (Std.le_antisymm hee.1 hee'.1) hee.2

variable [DecidableLE κ] [DecidableEq κ]

/-- `left // right`. -/
def updateAttrs (left right : List (κ × ν)) : List (κ × ν) :=
  tabulate ((left ++ right).map Prod.fst) fun k => (right.lookup k).or (left.lookup k)

variable [Std.IsLinearOrder κ]

theorem lookup_tabulate (names : List κ) (f : κ → Option ν) (k : κ) :
    (tabulate names f).lookup k = if k ∈ names then f k else none := by
  apply Option.ext
  intro v
  have hmem : (k, v) ∈ tabulate names f ↔ k ∈ names ∧ f k = some v := by
    rw [tabulate, List.mem_filterMap]
    constructor
    · rintro ⟨k', hk', he⟩
      obtain ⟨v', hv', heq⟩ := Option.map_eq_some_iff.mp he
      cases heq
      exact ⟨mem_inOrder.mp hk', hv'⟩
    · rintro ⟨hk, hv⟩
      exact ⟨k, mem_inOrder.mpr hk, by rw [hv]; rfl⟩
  have hlook : (tabulate names f).lookup k = some v ↔ (k, v) ∈ tabulate names f :=
    ⟨mem_of_lookup, (tabulate_sorted names f).lookup_of_mem⟩
  rw [hlook, hmem]
  by_cases hk : k ∈ names <;> simp [hk]

theorem lookup_updateAttrs (left right : List (κ × ν)) (k : κ) :
    (updateAttrs left right).lookup k = (right.lookup k).or (left.lookup k) := by
  rw [updateAttrs, lookup_tabulate]
  split
  · rfl
  · next hk =>
      rw [List.map_append, List.mem_append, ← lookup_isSome_iff, ← lookup_isSome_iff, not_or,
        Option.not_isSome_iff_eq_none, Option.not_isSome_iff_eq_none] at hk
      rw [hk.1, hk.2]
      rfl

omit [LawfulBEq κ] in
theorem updateAttrs_sorted (left right : List (κ × ν)) : SortedNames (updateAttrs left right) :=
  tabulate_sorted _ _

variable {names : List κ} {f : κ → Except ε ν} {members : List (κ × ν)}

/-- What a successful table has: members in order, one for each name. -/
theorem tabulateM_spec (h : tabulateM names f = .ok members) :
    SortedNames members ∧ ∀ k,
      if k ∈ names then ∃ v, f k = .ok v ∧ members.lookup k = some v
      else members.lookup k = none := by
  have hmembers := mapM_eq_ok_iff.mp h
  have hentry : List.Forall₂ (fun k e => k = e.1 ∧ f k = .ok e.2) (inOrder names) members := by
    refine hmembers.imp fun k e he => ?_
    cases hf : f k with
    | error err => simp [hf, Except.map] at he
    | ok v =>
        simp only [hf, Except.map, Except.ok.injEq] at he
        subst he
        exact ⟨rfl, rfl⟩
  have hnames : inOrder names = members.map Prod.fst :=
    List.forall₂_eq_eq_eq ▸ (List.forall₂_map_right_iff.mpr (hentry.imp fun _ _ he => he.1))
  have hvalue : ∀ e ∈ members, f e.1 = .ok e.2 := by
    intro e he
    obtain ⟨k, -, rfl, hf⟩ := exists_of_forall₂_right hentry he
    exact hf
  have hsorted : SortedNames members := by
    rw [SortedNames, ← List.pairwise_map (f := Prod.fst) (R := fun a b => a ≤ b ∧ a ≠ b), ← hnames]
    exact inOrder_pairwise names
  refine ⟨hsorted, fun k => ?_⟩
  split
  · next hk =>
      rw [← mem_inOrder, hnames, ← lookup_isSome_iff] at hk
      obtain ⟨v, hv⟩ := Option.isSome_iff_exists.mp hk
      exact ⟨v, hvalue _ (mem_of_lookup hv), hv⟩
  · next hk =>
      rw [← mem_inOrder, hnames, ← lookup_isSome_iff, Option.not_isSome_iff_eq_none] at hk
      exact hk

/-- The set is made of the values at the names; it has no other members. -/
theorem tabulateM_eq_ok_iff :
    tabulateM names f = .ok members ↔
      SortedNames members ∧ ∀ k,
        if k ∈ names then ∃ v, f k = .ok v ∧ members.lookup k = some v
        else members.lookup k = none := by
  constructor
  · exact tabulateM_spec
  · rintro ⟨hsorted, hvalues⟩
    obtain ⟨table, htable⟩ : ∃ table, tabulateM names f = .ok table := by
      apply exists_mapM_eq_ok
      intro k hk
      have hvalue := hvalues k
      rw [if_pos (mem_inOrder.mp hk)] at hvalue
      obtain ⟨v, hv, -⟩ := hvalue
      exact ⟨(k, v), by rw [hv]; rfl⟩
    obtain ⟨hsorted', hvalues'⟩ := tabulateM_spec htable
    rw [htable, hsorted'.ext hsorted]
    intro k
    have hvalue := hvalues k
    have hvalue' := hvalues' k
    split at hvalue
    · next hk =>
        rw [if_pos hk] at hvalue'
        obtain ⟨v, hv, hlook⟩ := hvalue
        obtain ⟨v', hv', hlook'⟩ := hvalue'
        rw [hlook, hlook', Except.ok.inj (hv.symm.trans hv')]
    · next hk =>
        rw [if_neg hk] at hvalue'
        rw [hvalue, hvalue']

end Lookup

end Repkgs.Lib
