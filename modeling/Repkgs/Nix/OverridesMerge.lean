import Repkgs.Nix.Overrides

/-!
# Merged trees

What `mergeTrees` makes of a list of trees, path by path. A name of a verb whose
values are all verb nodes is a field of that name. Below such fields and ordinary
ones, a verb is merged by its own rule. Merging in groups gives the same tree as
merging at once, as long as the trees agree on which verb names are fields.
-/

namespace Repkgs.Nix.Overrides

open Repkgs.Lib

variable {trees vals : List Value} {name : Bytes}

theorem valuesOf_append (trees trees' : List Value) (name : Bytes) :
    valuesOf (trees ++ trees') name = valuesOf trees name ++ valuesOf trees' name :=
  List.filterMap_append

variable {v merged w : Value} {f : List Value → Except Error Value}

theorem mem_valuesOf : v ∈ valuesOf trees name ↔ ∃ t ∈ trees, t.get name = some v :=
  List.mem_filterMap

theorem valuesOf_ne_nil_iff : valuesOf trees name ≠ [] ↔ name ∈ trees.flatMap Value.attrNames := by
  rw [List.mem_flatMap]
  constructor
  · intro hne
    obtain ⟨v, hv⟩ := List.exists_mem_of_ne_nil _ hne
    obtain ⟨t, ht, hget⟩ := mem_valuesOf.mp hv
    exact ⟨t, ht, Value.get_isSome_iff.mp (by rw [hget]; rfl)⟩
  · rintro ⟨t, ht, hname⟩
    obtain ⟨v, hv⟩ := Option.isSome_iff_exists.mp (Value.get_isSome_iff.mpr hname)
    exact List.ne_nil_of_mem (mem_valuesOf.mpr ⟨t, ht, hv⟩)

theorem mergeValues_congr {f g : List Value → Except Error Value} (h : f vals = g vals) :
    mergeValues f name vals = mergeValues g name vals := by
  simp only [mergeValues, h]

theorem zipAttrsWith_congr {f g : Bytes → List Value → Except Error Value}
    (h : ∀ name, valuesOf trees name ≠ [] →
      f name (valuesOf trees name) = g name (valuesOf trees name)) :
    zipAttrsWith f trees = zipAttrsWith g trees := by
  rw [zipAttrsWith, zipAttrsWith,
    tabulateM_congr fun name hname => h name (valuesOf_ne_nil_iff.mpr hname)]

theorem depth_lt_of_mem_valuesOf (h : v ∈ valuesOf trees name) :
    ∃ t ∈ trees, v.depth < t.depth := by
  obtain ⟨t, ht, hget⟩ := mem_valuesOf.mp h
  exact ⟨t, ht, Value.depth_lt_of_get hget⟩

/-- From some depth on the result does not depend on it. -/
theorem mergeTreesTo_eq {n m : Nat} (hn : ∀ t ∈ trees, t.depth ≤ n)
    (hm : ∀ t ∈ trees, t.depth ≤ m) :
    mergeTreesTo (n + 1) trees = mergeTreesTo (m + 1) trees := by
  induction n generalizing m trees with
  | zero =>
      rw [mergeTreesTo, mergeTreesTo]
      apply zipAttrsWith_congr
      intro name hne
      obtain ⟨v, hv⟩ := List.exists_mem_of_ne_nil _ hne
      obtain ⟨t, ht, hlt⟩ := depth_lt_of_mem_valuesOf hv
      exact absurd (hn t ht) (by omega)
  | succ n ih =>
      rw [mergeTreesTo, mergeTreesTo]
      apply zipAttrsWith_congr
      intro name hne
      obtain ⟨v, hv⟩ := List.exists_mem_of_ne_nil _ hne
      obtain ⟨t, ht, hlt⟩ := depth_lt_of_mem_valuesOf hv
      obtain ⟨k, rfl⟩ : ∃ k, m = k + 1 := ⟨m - 1, by have := hm t ht; omega⟩
      apply mergeValues_congr
      apply ih
      all_goals
        intro w hw
        obtain ⟨t', ht', hlt'⟩ := depth_lt_of_mem_valuesOf hw
      · have := hn t' ht'
        omega
      · have := hm t' ht'
        omega

theorem depth_le_depthOf {t : Value} (h : t ∈ trees) : t.depth ≤ depthOf trees := by
  unfold depthOf
  induction trees with
  | nil => cases h
  | cons u rest ih =>
      rw [List.map_cons, List.foldr_cons]
      rcases List.mem_cons.mp h with rfl | htail
      · exact le_max_left _ _
      · exact le_trans (ih htail) (le_max_right _ _)

/-- The recursion of the source. -/
theorem mergeTrees_eq (trees : List Value) :
    mergeTrees trees = zipAttrsWith (mergeValues mergeTrees) trees := by
  rw [mergeTrees, mergeTreesTo]
  apply zipAttrsWith_congr
  intro name hne
  apply mergeValues_congr
  obtain ⟨v, hv⟩ := List.exists_mem_of_ne_nil _ hne
  obtain ⟨t, ht, hlt⟩ := depth_lt_of_mem_valuesOf hv
  obtain ⟨k, hk⟩ : ∃ k, depthOf trees = k + 1 :=
    ⟨depthOf trees - 1, by have := depth_le_depthOf ht; omega⟩
  rw [hk, mergeTrees]
  apply mergeTreesTo_eq
  · intro w hw
    obtain ⟨t', ht', hlt'⟩ := depth_lt_of_mem_valuesOf hw
    have := depth_le_depthOf ht'
    omega
  · exact fun w hw => depth_le_depthOf hw

/-- What the merged set has at a name: nothing if no tree has it. -/
def Combines (name : Bytes) (vals : List Value) (result : Option Value) : Prop :=
  if vals = [] then result = none
  else ∃ v, mergeValues mergeTrees name vals = .ok v ∧ result = some v

theorem mergeTrees_eq_ok_iff :
    mergeTrees trees = .ok merged ↔
      (∀ t ∈ trees, t.isAttrs) ∧ (∃ members, merged = .attrs members ∧ SortedNames members) ∧
        ∀ name, Combines name (valuesOf trees name) (merged.get name) := by
  have hmember : ∀ (members : List (Bytes × Value)) (k : Bytes),
      (if k ∈ trees.flatMap Value.attrNames then
        ∃ v, mergeValues mergeTrees k (valuesOf trees k) = .ok v ∧ members.lookup k = some v
        else members.lookup k = none) ↔ Combines k (valuesOf trees k) (members.lookup k) := by
    intro members k
    unfold Combines
    by_cases hk : valuesOf trees k = []
    · rw [if_pos hk, if_neg fun hmem => valuesOf_ne_nil_iff.mpr hmem hk]
    · rw [if_neg hk, if_pos (valuesOf_ne_nil_iff.mp hk)]
  rw [mergeTrees_eq, zipAttrsWith]
  constructor
  · intro h
    split at h
    · next hsets =>
        obtain ⟨members, htable, rfl⟩ := map_eq_ok_iff.mp h
        obtain ⟨hsorted, hvalues⟩ := tabulateM_eq_ok_iff.mp htable
        exact ⟨List.all_eq_true.mp hsets, ⟨members, rfl, hsorted⟩,
          fun name => (hmember members name).mp (hvalues name)⟩
    · cases h
  · rintro ⟨hsets, ⟨members, rfl, hsorted⟩, hvalues⟩
    rw [if_pos (List.all_eq_true.mpr hsets), map_eq_ok_iff]
    exact ⟨members, tabulateM_eq_ok_iff.mpr
      ⟨hsorted, fun name => (hmember members name).mpr (hvalues name)⟩, rfl⟩

/-- The values at a name are merged as trees. -/
def Descends (name : Bytes) (vals : List Value) : Prop :=
  (name ∈ verbs ∧ ∀ v ∈ vals, isVerbNode v) ∨
    (name ∉ verbs ∧ name ≠ ascii "edit" ∧ name ≠ ascii "features")

theorem isAttrs_of_isVerbNode (h : isVerbNode v) : v.isAttrs := by
  cases v <;> first | rfl | cases h

/-- At a field the trees are merged again. -/
theorem mergeValues_of_descends (h : Descends name vals) :
    mergeValues f name vals =
      if vals.all Value.isAttrs then f vals
      else .error (.thrown (ascii "overrides: conflicting values at " ++ name)) := by
  rcases h with ⟨hverb, hnodes⟩ | ⟨hverb, hedit, hfeatures⟩
  · rw [mergeValues, if_pos ⟨hverb, List.all_eq_true.mpr hnodes⟩,
      if_pos (List.all_eq_true.mpr fun v hv => isAttrs_of_isVerbNode (hnodes v hv))]
  · have hne : ∀ {verb : Bytes}, verb ∈ verbs → name ≠ verb := fun hmem heq => hverb (heq ▸ hmem)
    have hset := @hne (ascii "set") (by decide)
    have happend := @hne (ascii "append") (by decide)
    have hprepend := @hne (ascii "prepend") (by decide)
    have hmerge := @hne (ascii "merge") (by decide)
    have hremove := @hne (ascii "remove") (by decide)
    simp [mergeValues, hverb, hedit, hfeatures, hset, happend, hprepend, hmerge, hremove]

def lastOf (vals : List Value) : Except Error Value :=
  match vals.getLast? with
  | some v => .ok v
  | none => .error .eval

/-- The rule of a verb, whatever its values are. -/
def verbRule (name : Bytes) (vals : List Value) : Except Error Value :=
  if name = ascii "set" ∨ name = ascii "edit" then lastOf vals
  else if name = ascii "merge" ∨ name = ascii "features" then unite vals
  else if name = ascii "remove" ∧ vals.any Value.isTrue then .ok (.bool true)
  else concatLists name vals

theorem mergeValues_of_not_descends (h : ¬ Descends name vals) :
    mergeValues f name vals = verbRule name vals := by
  have hnodes : ¬ (name ∈ verbs ∧ vals.all isVerbNode) :=
    fun hv => h (.inl ⟨hv.1, List.all_eq_true.mp hv.2⟩)
  rw [mergeValues, if_neg hnodes]
  by_cases hverb : name ∈ verbs
  · simp only [verbs, List.mem_cons, List.not_mem_nil, or_false] at hverb
    rcases hverb with rfl | rfl | rfl | rfl | rfl <;> rfl
  · by_cases hedit : name = ascii "edit"
    · subst hedit
      rfl
    · by_cases hfeatures : name = ascii "features"
      · subst hfeatures
        rfl
      · exact absurd (.inr ⟨hverb, hedit, hfeatures⟩) h

theorem lastOf_eq_ok_iff : lastOf vals = .ok v ↔ vals.getLast? = some v := by
  unfold lastOf
  cases vals.getLast? <;> simp

theorem concatLists_eq_ok_iff :
    concatLists name vals = .ok v ↔
      ∃ lists : List (List Value), vals = lists.map Value.list ∧ v = .list lists.flatten := by
  have hitems : ∀ (u : Value) (items : List Value), itemsOf name u = .ok items ↔
      u = .list items := by
    intro u items
    cases u <;> simp [itemsOf]
  rw [concatLists, map_eq_ok_iff]
  constructor
  · rintro ⟨lists, hmap, rfl⟩
    refine ⟨lists, ?_, rfl⟩
    have hforall := (mapM_eq_ok_iff.mp hmap).imp fun u items h => (hitems u items).mp h
    exact List.forall₂_eq_eq_eq ▸ (List.forall₂_map_right_iff.mpr hforall)
  · rintro ⟨lists, rfl, rfl⟩
    refine ⟨lists, mapM_eq_ok_iff.mpr ?_, rfl⟩
    rw [List.forall₂_map_left_iff]
    exact List.forall₂_same.mpr fun items _ => rfl

/-- Uniting sets one after the other keeps the last value of every name. -/
theorem foldlM_update {acc : List (Bytes × Value)} (hacc : SortedNames acc)
    (hsets : ∀ v ∈ vals, v.isAttrs) :
    ∃ members, vals.foldlM Value.update (.attrs acc) = .ok (.attrs members) ∧
      SortedNames members ∧
        ∀ n, members.lookup n = (valuesOf vals n).getLast?.or (acc.lookup n) := by
  induction vals generalizing acc with
  | nil => exact ⟨acc, rfl, hacc, fun n => rfl⟩
  | cons v rest ih =>
      obtain ⟨right, rfl⟩ := Value.isAttrs_iff.mp (hsets v (.head _))
      obtain ⟨members, hfold, hsorted, hlook⟩ := ih (updateAttrs_sorted acc right)
        fun u hu => hsets u (.tail _ hu)
      refine ⟨members, hfold, hsorted, fun n => ?_⟩
      rw [hlook, lookup_updateAttrs, ← Option.or_assoc]
      congr 1
      cases hn : right.lookup n with
      | none => simp [valuesOf, hn]
      | some u =>
          have hvals : valuesOf (.attrs right :: rest) n = u :: valuesOf rest n := by
            simp [valuesOf, hn]
          rw [hvals, List.getLast?_cons]
          cases (valuesOf rest n).getLast? <;> rfl

theorem isAttrs_of_unite {acc : Value} (h : vals.foldlM Value.update acc = .ok v) :
    ∀ u ∈ vals, u.isAttrs := by
  induction vals generalizing acc with
  | nil => exact fun u hu => nomatch hu
  | cons w rest ih =>
      rw [List.foldlM_cons] at h
      cases acc <;> cases w <;> first | cases h | skip
      exact fun u hu => (List.mem_cons.mp hu).elim (fun heq => heq ▸ rfl) (ih h u)

theorem unite_eq_ok_iff :
    unite vals = .ok v ↔ (∀ u ∈ vals, u.isAttrs) ∧
      ∃ members, v = .attrs members ∧ SortedNames members ∧
        ∀ n, members.lookup n = (valuesOf vals n).getLast? := by
  have hrun : (∀ u ∈ vals, u.isAttrs) → ∃ members, unite vals = .ok (.attrs members) ∧
      SortedNames members ∧ ∀ n, members.lookup n = (valuesOf vals n).getLast? := by
    intro hsets
    obtain ⟨members, hfold, hsorted, hlook⟩ := foldlM_update List.Pairwise.nil hsets
    exact ⟨members, hfold, hsorted, fun n => (hlook n).trans (Option.or_none)⟩
  constructor
  · intro h
    obtain ⟨members, hfold, hsorted, hlook⟩ := hrun (isAttrs_of_unite h)
    exact ⟨isAttrs_of_unite h, members, Except.ok.inj (h.symm.trans hfold), hsorted, hlook⟩
  · rintro ⟨hsets, members, rfl, hsorted, hlook⟩
    obtain ⟨members', hfold, hsorted', hlook'⟩ := hrun hsets
    rw [hfold, hsorted'.ext hsorted fun n => (hlook' n).trans (hlook n).symm]

theorem isVerbNode_iff :
    isVerbNode v ↔ (∃ n, (v.get n).isSome) ∧ ∀ n, (v.get n).isSome → n ∈ verbs := by
  simp only [Value.get_isSome_iff]
  cases v with
  | attrs members =>
      simp only [isVerbNode, Value.attrNames, Bool.and_eq_true, Bool.not_eq_true',
        List.isEmpty_eq_false_iff, List.all_eq_true, decide_eq_true_eq, List.forall_mem_map]
      constructor
      · rintro ⟨hne, hall⟩
        obtain ⟨e, he⟩ := List.exists_mem_of_ne_nil _ hne
        exact ⟨⟨e.1, List.mem_map_of_mem he⟩, hall⟩
      · rintro ⟨⟨n, hn⟩, hall⟩
        obtain ⟨e, he, rfl⟩ := List.mem_map.mp hn
        exact ⟨List.ne_nil_of_mem he, hall⟩
  | _ => simp [isVerbNode, Value.attrNames]

theorem get_isSome_of_mergeTrees (h : mergeTrees trees = .ok merged) (n : Bytes) :
    (merged.get n).isSome ↔ valuesOf trees n ≠ [] := by
  have hname := (mergeTrees_eq_ok_iff.mp h).2.2 n
  unfold Combines at hname
  split at hname
  · next hnil => simp [hname, hnil]
  · next hne =>
      obtain ⟨v, -, hv⟩ := hname
      simp [hv, hne]

theorem valuesOf_ne_nil_iff_exists :
    valuesOf vals name ≠ [] ↔ ∃ v ∈ vals, (v.get name).isSome := by
  rw [valuesOf_ne_nil_iff, List.mem_flatMap]
  simp only [Value.get_isSome_iff]

/-- Verb nodes merge into a verb node. -/
theorem isVerbNode_of_mergeTrees (h : mergeTrees vals = .ok w) (hne : vals ≠ [])
    (hnodes : ∀ v ∈ vals, isVerbNode v) : isVerbNode w := by
  rw [isVerbNode_iff]
  simp only [get_isSome_of_mergeTrees h, valuesOf_ne_nil_iff_exists]
  constructor
  · obtain ⟨v, hv⟩ := List.exists_mem_of_ne_nil _ hne
    obtain ⟨n, hn⟩ := (isVerbNode_iff.mp (hnodes v hv)).1
    exact ⟨n, v, hv, hn⟩
  · rintro n ⟨v, hv, hn⟩
    exact (isVerbNode_iff.mp (hnodes v hv)).2 n hn

/-- A verb makes no verb node of other values. -/
theorem not_isVerbNode_of_verbRule (h : verbRule name vals = .ok w)
    (hvals : ∀ v ∈ vals, isVerbNode v = false) : isVerbNode w = false := by
  unfold verbRule at h
  split_ifs at h with hlast hunite hremove
  · exact hvals w (List.mem_of_getLast? (lastOf_eq_ok_iff.mp h))
  · obtain ⟨hsets, members, rfl, hsorted, hlook⟩ := unite_eq_ok_iff.mp h
    have hsome : ∀ n, ((Value.attrs members).get n).isSome ↔ ∃ v ∈ vals, (v.get n).isSome := by
      intro n
      rw [← valuesOf_ne_nil_iff_exists, Value.get_attrs, hlook, List.getLast?_isSome]
    rw [← Bool.not_eq_true, isVerbNode_iff]
    rintro ⟨⟨n, hn⟩, hall⟩
    obtain ⟨v, hv, hvn⟩ := (hsome n).mp hn
    have hnode : isVerbNode v :=
      isVerbNode_iff.mpr ⟨⟨n, hvn⟩, fun n' hn' => hall n' ((hsome n').mpr ⟨v, hv, hn'⟩)⟩
    rw [hvals v hv] at hnode
    cases hnode
  · cases h
    rfl
  · obtain ⟨lists, -, rfl⟩ := concatLists_eq_ok_iff.mp h
    rfl

section Regroup

variable {front mid back : List Value} {w r : Value}

theorem getLast?_regroup (hw : mid.getLast? = some w) :
    (front ++ [w] ++ back).getLast? = (front ++ mid ++ back).getLast? := by
  rw [List.getLast?_append, List.getLast?_append, List.getLast?_append, List.getLast?_append, hw]
  rfl

theorem unite_regroup (hw : unite mid = .ok w) (h : unite (front ++ mid ++ back) = .ok r) :
    unite (front ++ [w] ++ back) = .ok r := by
  obtain ⟨hsets, members, rfl, hsorted, hlook⟩ := unite_eq_ok_iff.mp h
  obtain ⟨hmid, part, rfl, -, hpart⟩ := unite_eq_ok_iff.mp hw
  refine unite_eq_ok_iff.mpr ⟨?_, members, rfl, hsorted, fun n => ?_⟩
  · intro u hu
    simp only [List.mem_append, List.mem_singleton] at hu hsets
    rcases hu with (hu | rfl) | hu
    · exact hsets u (.inl (.inl hu))
    · rfl
    · exact hsets u (.inr hu)
  · have hone : valuesOf [.attrs part] n = (part.lookup n).toList := by
      rw [valuesOf, List.filterMap_cons, Value.get_attrs]
      cases part.lookup n <;> rfl
    have hlast : (part.lookup n).toList.getLast? = (valuesOf mid n).getLast? := by
      rw [← hpart]
      cases part.lookup n <;> rfl
    rw [hlook]
    simp only [valuesOf_append, List.getLast?_append, hone, hlast]

theorem concatLists_regroup (hw : concatLists name mid = .ok w)
    (h : concatLists name (front ++ mid ++ back) = .ok r) :
    concatLists name (front ++ [w] ++ back) = .ok r := by
  obtain ⟨lists, hlists, rfl⟩ := concatLists_eq_ok_iff.mp h
  obtain ⟨part, rfl, rfl⟩ := concatLists_eq_ok_iff.mp hw
  obtain ⟨firsts, backs, rfl, hfirsts, rfl⟩ := List.map_eq_append_iff.mp hlists.symm
  obtain ⟨fronts, mids, rfl, rfl, hmids⟩ := List.map_eq_append_iff.mp hfirsts
  have hpart : mids = part := List.map_injective_iff.mpr (fun _ _ h => Value.list.inj h) hmids
  subst hpart
  exact concatLists_eq_ok_iff.mpr ⟨fronts ++ [mids.flatten] ++ backs, by simp, by simp⟩

theorem verbRule_regroup (hw : verbRule name mid = .ok w)
    (h : verbRule name (front ++ mid ++ back) = .ok r) :
    verbRule name (front ++ [w] ++ back) = .ok r := by
  unfold verbRule at *
  by_cases hlast : name = ascii "set" ∨ name = ascii "edit"
  · rw [if_pos hlast, lastOf_eq_ok_iff] at *
    rw [getLast?_regroup hw, h]
  · rw [if_neg hlast] at *
    by_cases hunite : name = ascii "merge" ∨ name = ascii "features"
    · rw [if_pos hunite] at *
      exact unite_regroup hw h
    · rw [if_neg hunite] at *
      by_cases hmid : name = ascii "remove" ∧ mid.any Value.isTrue
      · -- `true` in the middle is `true` for the whole
        rw [if_pos hmid] at hw
        rw [if_pos ⟨hmid.1, by simp [hmid.2]⟩] at h
        cases hw
        rw [if_pos ⟨hmid.1, by simp [Value.isTrue]⟩]
        exact h
      · rw [if_neg hmid] at hw
        obtain ⟨lists, -, hlist⟩ := concatLists_eq_ok_iff.mp hw
        have hcond : (name = ascii "remove" ∧ (front ++ [w] ++ back).any Value.isTrue) ↔
            (name = ascii "remove" ∧ (front ++ mid ++ back).any Value.isTrue) := by
          refine and_congr_right fun hremove => ?_
          have hnone : mid.any Value.isTrue = false :=
            Bool.eq_false_iff.mpr fun htrue => hmid ⟨hremove, htrue⟩
          rw [List.any_append, List.any_append, List.any_append, List.any_append, hnone, hlist]
          rfl
        by_cases hall : name = ascii "remove" ∧ (front ++ mid ++ back).any Value.isTrue
        · rw [if_pos hall] at h
          rw [if_pos (hcond.mpr hall), h]
        · rw [if_neg hall] at h
          rw [if_neg (mt hcond.mp hall)]
          exact concatLists_regroup hw h

end Regroup

theorem verbRule_singleton (hv : v.Sorted) (h : verbRule name [v] = .ok w) :
    w = v := by
  unfold verbRule at h
  split_ifs at h with hlast hunite hremove
  · exact (Option.some.inj (lastOf_eq_ok_iff.mp h)).symm
  · obtain ⟨hsets, members, rfl, hsorted, hlook⟩ := unite_eq_ok_iff.mp h
    obtain ⟨old, rfl⟩ := Value.isAttrs_iff.mp (hsets v (List.mem_singleton_self v))
    rw [hsorted.ext hv.names]
    intro n
    rw [hlook, valuesOf, List.filterMap_cons, Value.get_attrs]
    cases old.lookup n <;> rfl
  · cases h
    have htrue : v.isTrue := by simpa using hremove.2
    cases v with
    | bool b => exact congrArg Value.bool (Eq.symm htrue)
    | _ => cases htrue
  · obtain ⟨lists, hlists, rfl⟩ := concatLists_eq_ok_iff.mp h
    obtain ⟨items, rest, rfl, rfl, hrest⟩ := List.map_eq_cons_iff.mp hlists.symm
    rw [List.map_eq_nil_iff.mp hrest]
    simp

/-- The values the trees have at a path, in the order of the trees. -/
def valuesAt (trees : List Value) (path : List Bytes) : List Value :=
  trees.filterMap (·.atPath path)

/-- A path of fields: no step of it goes into the value of a verb. -/
def FieldPath : List Value → List Bytes → Prop
  | _, [] => True
  | trees, name :: path =>
      Descends name (valuesOf trees name) ∧ FieldPath (valuesOf trees name) path

/-- The trees agree on which verb names are fields. -/
def Uniform (trees : List Value) : Prop :=
  ∀ path name, FieldPath trees path → name ∈ verbs →
    (∀ v ∈ valuesAt trees (path ++ [name]), isVerbNode v = true) ∨
      ∀ v ∈ valuesAt trees (path ++ [name]), isVerbNode v = false

theorem valuesAt_cons (trees : List Value) (name : Bytes) (path : List Bytes) :
    valuesAt trees (name :: path) = valuesAt (valuesOf trees name) path := by
  rw [valuesAt, valuesAt, valuesOf, List.filterMap_filterMap]
  rfl

theorem valuesAt_singleton (trees : List Value) (name : Bytes) :
    valuesAt trees [name] = valuesOf trees name := by
  rw [valuesAt_cons, valuesAt]
  exact List.filterMap_some

theorem Uniform.here (h : Uniform trees) (hname : name ∈ verbs) :
    (∀ v ∈ valuesOf trees name, isVerbNode v = true) ∨
      ∀ v ∈ valuesOf trees name, isVerbNode v = false := by
  have hvals := h [] name trivial hname
  rwa [List.nil_append, valuesAt_singleton] at hvals

theorem Uniform.below (h : Uniform trees) (hname : Descends name (valuesOf trees name)) :
    Uniform (valuesOf trees name) := by
  intro path verb hpath hverb
  rw [← valuesAt_cons, ← List.cons_append]
  exact h (name :: path) verb ⟨hname, hpath⟩ hverb

/-- At one name: merging in groups gives what merging at once gives, if it does so for the
trees below. -/
theorem mergeValues_regroup {front mid back : List Value} {w r : Value} (hne : mid ≠ [])
    (huniform : name ∈ verbs →
      (∀ v ∈ front ++ mid ++ back, isVerbNode v = true) ∨
        ∀ v ∈ front ++ mid ++ back, isVerbNode v = false)
    (hw : mergeValues mergeTrees name mid = .ok w)
    (h : mergeValues mergeTrees name (front ++ mid ++ back) = .ok r)
    (ih : Descends name (front ++ mid ++ back) → mergeTrees mid = .ok w →
      mergeTrees (front ++ mid ++ back) = .ok r → mergeTrees (front ++ [w] ++ back) = .ok r) :
    mergeValues mergeTrees name (front ++ [w] ++ back) = .ok r := by
  have hmem : ∀ v ∈ mid, v ∈ front ++ mid ++ back := fun v hv => by simp [hv]
  have hregroup : ∀ {p : Value → Prop}, (∀ v ∈ front ++ mid ++ back, p v) → p w →
      ∀ v ∈ front ++ [w] ++ back, p v := by
    intro p hall hpw v hv
    simp only [List.mem_append, List.mem_singleton] at hv
    rcases hv with (hv | rfl) | hv
    · exact hall v (by simp [hv])
    · exact hpw
    · exact hall v (by simp [hv])
  by_cases hfield : Descends name (front ++ mid ++ back)
  · have hmid : Descends name mid :=
      hfield.imp (fun hv => ⟨hv.1, fun v hm => hv.2 v (hmem v hm)⟩) id
    rw [mergeValues_of_descends hmid] at hw
    rw [mergeValues_of_descends hfield] at h
    split at hw
    · split at h
      · next hsets =>
          have hmerged := ih hfield hw h
          have hafter : Descends name (front ++ [w] ++ back) :=
            hfield.imp (fun hv => ⟨hv.1, hregroup hv.2
              (isVerbNode_of_mergeTrees hw hne fun v hm => hv.2 v (hmem v hm))⟩) id
          rw [mergeValues_of_descends hafter, if_pos, hmerged]
          exact List.all_eq_true.mpr (mergeTrees_eq_ok_iff.mp hmerged).1
      · cases h
    · cases hw
  · -- no value is a verb node, and neither is what the verb makes of the middle
    have hnodes : name ∈ verbs → ∀ v ∈ front ++ mid ++ back, isVerbNode v = false :=
      fun hname => (huniform hname).resolve_left fun hall => hfield (.inl ⟨hname, hall⟩)
    have hother : ¬ (name ∉ verbs ∧ name ≠ ascii "edit" ∧ name ≠ ascii "features") :=
      fun hother => hfield (.inr hother)
    have hstays : ∀ {vals : List Value}, vals ≠ [] →
        (name ∈ verbs → ∀ v ∈ vals, isVerbNode v = false) → ¬ Descends name vals := by
      rintro vals hvals hnone (⟨hname, hall⟩ | hrest)
      · obtain ⟨v, hv⟩ := List.exists_mem_of_ne_nil _ hvals
        have := hall v hv
        rw [hnone hname v hv] at this
        cases this
      · exact hother hrest
    rw [mergeValues_of_not_descends (hstays hne fun hname v hv => hnodes hname v (hmem v hv))] at hw
    rw [mergeValues_of_not_descends hfield] at h
    rw [mergeValues_of_not_descends]
    · exact verbRule_regroup hw h
    · exact hstays (by simp) fun hname => hregroup (hnodes hname)
        (not_isVerbNode_of_verbRule hw fun v hv => hnodes hname v (hmem v hv))

/-- Trees merged in groups, by induction on their depth. -/
theorem mergeTrees_regroup {front mid back : List Value} {m merged : Value}
    (huniform : Uniform (front ++ mid ++ back)) (hm : mergeTrees mid = .ok m)
    (h : mergeTrees (front ++ mid ++ back) = .ok merged) :
    mergeTrees (front ++ [m] ++ back) = .ok merged := by
  obtain ⟨n, hn⟩ : ∃ n, ∀ t ∈ front ++ mid ++ back, t.depth ≤ n :=
    ⟨_, fun t ht => depth_le_depthOf ht⟩
  induction n using Nat.strong_induction_on generalizing front mid back m merged with
  | _ n ih =>
  obtain ⟨hsets, hset, hnames⟩ := mergeTrees_eq_ok_iff.mp h
  obtain ⟨-, ⟨part, rfl, -⟩, hpart⟩ := mergeTrees_eq_ok_iff.mp hm
  refine mergeTrees_eq_ok_iff.mpr ⟨?_, hset, fun name => ?_⟩
  · intro t ht
    simp only [List.mem_append, List.mem_singleton] at ht hsets
    rcases ht with (ht | rfl) | ht
    · exact hsets t (.inl (.inl ht))
    · rfl
    · exact hsets t (.inr ht)
  have hname := hnames name
  have hmid := hpart name
  rw [valuesOf_append, valuesOf_append] at hname ⊢
  by_cases hnil : valuesOf mid name = []
  · -- no tree of the group has the name, and neither has their merge
    rw [Combines, if_pos hnil] at hmid
    rw [hnil, List.append_nil] at hname
    have hone : valuesOf [.attrs part] name = [] := by rw [valuesOf, List.filterMap_cons, hmid]; rfl
    rw [hone, List.append_nil]
    exact hname
  · rw [Combines, if_neg hnil] at hmid
    obtain ⟨w, hw, hget⟩ := hmid
    have hone : valuesOf [.attrs part] name = [w] := by
      rw [valuesOf, List.filterMap_cons, hget]
      rfl
    have hwhole : valuesOf front name ++ valuesOf mid name ++ valuesOf back name ≠ [] := by
      simp [hnil]
    rw [Combines, if_neg hwhole] at hname
    obtain ⟨r, hr, hmerged⟩ := hname
    rw [hone, Combines, if_neg (by simp)]
    refine ⟨r, mergeValues_regroup hnil ?_ hw hr ?_, hmerged⟩
    · rw [← valuesOf_append, ← valuesOf_append]
      exact huniform.here
    · rw [← valuesOf_append, ← valuesOf_append]
      intro hfield hw' hr'
      obtain ⟨v, hv⟩ := List.exists_mem_of_ne_nil _ hnil
      obtain ⟨t, ht, hlt⟩ := depth_lt_of_mem_valuesOf hv
      have htn := hn t (by simp [ht])
      have hbelow := huniform.below hfield
      rw [valuesOf_append, valuesOf_append] at hr' hbelow
      refine ih (n - 1) (by omega) hbelow hw' hr' fun u hu => ?_
      rw [← valuesOf_append, ← valuesOf_append] at hu
      obtain ⟨t', ht', hlt'⟩ := depth_lt_of_mem_valuesOf hu
      have := hn t' ht'
      omega

/-- One tree alone merges into itself. -/
theorem mergeTrees_singleton {t merged : Value} (hsorted : t.Sorted)
    (h : mergeTrees [t] = .ok merged) : merged = t := by
  obtain ⟨n, hn⟩ : ∃ n, t.depth ≤ n := ⟨_, le_rfl⟩
  induction n using Nat.strong_induction_on generalizing t merged with
  | _ n ih =>
  obtain ⟨hsets, ⟨members, rfl, hmembers⟩, hnames⟩ := mergeTrees_eq_ok_iff.mp h
  obtain ⟨old, rfl⟩ := Value.isAttrs_iff.mp (hsets t (List.mem_singleton_self t))
  rw [hmembers.ext hsorted.names]
  intro name
  have hname := hnames name
  have hone : valuesOf [.attrs old] name = (old.lookup name).toList := by
    rw [valuesOf, List.filterMap_cons, Value.get_attrs]
    cases old.lookup name <;> rfl
  rw [hone, Value.get_attrs] at hname
  cases hold : old.lookup name with
  | none =>
      rw [hold] at hname
      exact hname
  | some v =>
      rw [hold, Option.toList_some, Combines, if_neg (by simp)] at hname
      obtain ⟨w, hw, hget⟩ := hname
      have hv : v.Sorted := hsorted.get hold
      rw [hget]
      congr 1
      by_cases hfield : Descends name [v]
      · rw [mergeValues_of_descends hfield] at hw
        split at hw
        · have hlt : v.depth < (Value.attrs old).depth := Value.depth_lt_of_get hold
          exact ih (n - 1) (by omega) hv hw (by omega)
        · cases hw
      · rw [mergeValues_of_not_descends hfield] at hw
        exact verbRule_singleton hv hw

/-- What the documentation says a verb comes to, from the values the trees give it. -/
structure MergedAs (name : Bytes) (vals : List Value) (result : Option Value) : Prop where
  absent : vals = [] → result = none
  last : name = ascii "set" ∨ name = ascii "edit" → result = vals.getLast?
  lists : name = ascii "append" ∨ name = ascii "prepend" ∨
      (name = ascii "remove" ∧ ∀ v ∈ vals, v.isTrue = false) →
    vals ≠ [] → ∃ lists : List (List Value),
      vals = lists.map Value.list ∧ result = some (.list lists.flatten)
  removed : name = ascii "remove" → (∃ v ∈ vals, v.isTrue = true) → result = some (.bool true)
  union : name = ascii "merge" ∨ name = ascii "features" → vals ≠ [] →
    ∃ members, result = some (.attrs members) ∧
      ∀ n, members.lookup n = (valuesOf vals n).getLast?

theorem verbRule_mergedAs (hne : vals ≠ []) (h : verbRule name vals = .ok v) :
    MergedAs name vals (some v) := by
  constructor
  · exact fun hnil => absurd hnil hne
  · intro hlast
    rw [verbRule, if_pos hlast, lastOf_eq_ok_iff] at h
    exact h.symm
  · intro hlists _
    have hcond : ¬ (name = ascii "remove" ∧ vals.any Value.isTrue) := by
      rintro ⟨rfl, hany⟩
      obtain ⟨u, hu, htrue⟩ := List.any_eq_true.mp hany
      have hnone := hlists.resolve_left (by decide) |>.resolve_left (by decide)
      rw [hnone.2 u hu] at htrue
      cases htrue
    have hname : name = ascii "append" ∨ name = ascii "prepend" ∨ name = ascii "remove" :=
      hlists.imp_right (Or.imp_right And.left)
    have hnot : ¬ (name = ascii "set" ∨ name = ascii "edit") ∧
        ¬ (name = ascii "merge" ∨ name = ascii "features") := by
      rcases hname with rfl | rfl | rfl <;> decide
    rw [verbRule, if_neg hnot.1, if_neg hnot.2, if_neg hcond, concatLists_eq_ok_iff] at h
    obtain ⟨lists, hvals, rfl⟩ := h
    exact ⟨lists, hvals, rfl⟩
  · rintro rfl hany
    rw [verbRule, if_neg (by decide), if_neg (by decide),
      if_pos ⟨rfl, List.any_eq_true.mpr hany⟩] at h
    rw [Except.ok.inj h]
  · intro hunion _
    have hnot : ¬ (name = ascii "set" ∨ name = ascii "edit") := by
      rcases hunion with rfl | rfl <;> decide
    rw [verbRule, if_neg hnot, if_pos hunion, unite_eq_ok_iff] at h
    obtain ⟨-, members, rfl, -, hlook⟩ := h
    exact ⟨members, rfl, hlook⟩

/-- A verb that no tree has is not in the merged tree. -/
theorem mergedAs_nil (name : Bytes) : MergedAs name [] none where
  absent _ := rfl
  last _ := rfl
  lists _ hne := absurd rfl hne
  removed _ hany := by simp at hany
  union _ hne := absurd rfl hne

theorem mergeTrees_mergedAs {path : List Bytes} (h : mergeTrees trees = .ok merged)
    (hpath : FieldPath trees path) (hverb : valuesAt trees (path ++ [name]) = [] ∨
      ¬ Descends name (valuesAt trees (path ++ [name]))) :
    MergedAs name (valuesAt trees (path ++ [name])) (merged.atPath (path ++ [name])) := by
  induction path generalizing trees merged with
  | nil =>
      have hname := (mergeTrees_eq_ok_iff.mp h).2.2 name
      rw [List.nil_append, valuesAt_singleton] at hverb ⊢
      have hat : merged.atPath [name] = merged.get name := by
        rw [Value.atPath_cons]
        cases merged.get name <;> rfl
      rw [hat]
      by_cases hnil : valuesOf trees name = []
      · rw [Combines, if_pos hnil] at hname
        rw [hname, hnil]
        exact mergedAs_nil name
      · rw [Combines, if_neg hnil] at hname
        obtain ⟨v, hv, hget⟩ := hname
        rw [mergeValues_of_not_descends (hverb.resolve_left hnil)] at hv
        rw [hget]
        exact verbRule_mergedAs hnil hv
  | cons field path ih =>
      obtain ⟨hfield, hbelow⟩ := hpath
      have hname := (mergeTrees_eq_ok_iff.mp h).2.2 field
      rw [List.cons_append, valuesAt_cons] at hverb ⊢
      rw [Value.atPath_cons]
      by_cases hnil : valuesOf trees field = []
      · rw [Combines, if_pos hnil] at hname
        rw [hname, hnil]
        exact mergedAs_nil name
      · rw [Combines, if_neg hnil] at hname
        obtain ⟨sub, hsub, hget⟩ := hname
        rw [mergeValues_of_descends hfield] at hsub
        split at hsub
        · rw [hget]
          exact ih hsub hbelow hverb
        · cases hsub

/-- Trees merge as documented, at every path of fields and for every verb whose values are
not all verb nodes, and have nothing where no tree has anything. If the trees agree on which
verb names are fields, they may be merged in any groups that merge without an error; nothing
merges into the empty set, and a tree alone into itself. -/
theorem mergeTrees_documented (trees : List Value) (merged : Value)
    (hsorted : ∀ t ∈ trees, t.Sorted) (h : mergeTrees trees = .ok merged) :
    (∀ path name, FieldPath trees path → valuesAt trees (path ++ [name]) = [] ∨
        ¬ Descends name (valuesAt trees (path ++ [name])) →
      MergedAs name (valuesAt trees (path ++ [name])) (merged.atPath (path ++ [name]))) ∧
    (Uniform trees → ∀ front mid back m, trees = front ++ mid ++ back →
      mergeTrees mid = .ok m → mergeTrees (front ++ [m] ++ back) = .ok merged) ∧
    mergeTrees [] = .ok (.attrs []) ∧
    (∀ t, trees = [t] → merged = t) := by
  refine ⟨fun path name hpath hverb => mergeTrees_mergedAs h hpath hverb, ?_, rfl, ?_⟩
  · rintro huniform front mid back m rfl hm
    exact mergeTrees_regroup huniform hm h
  · rintro t rfl
    exact mergeTrees_singleton (hsorted t (List.mem_singleton_self t)) h

/-- A tree that sets the whole value of a package. -/
def setTree (n : Int) : Value := .attrs [(ascii "set", .int n)]

theorem setTree_uniform (ns : List Int) : Uniform (ns.map setTree) := by
  intro path name hpath hname
  have hint : ∀ field, ∀ v ∈ valuesOf (ns.map setTree) field, ∃ n, v = .int n := by
    intro field v hv
    obtain ⟨t, ht, hget⟩ := mem_valuesOf.mp hv
    obtain ⟨n, -, rfl⟩ := List.mem_map.mp ht
    rw [setTree, Value.get_attrs] at hget
    cases List.mem_singleton.mp (mem_of_lookup hget)
    exact ⟨n, rfl⟩
  right
  intro v hv
  cases path with
  | nil =>
      rw [List.nil_append, valuesAt_singleton] at hv
      obtain ⟨n, rfl⟩ := hint name v hv
      rfl
  | cons field rest =>
      -- nothing lies below a number
      rw [List.cons_append, valuesAt_cons] at hv
      obtain ⟨u, hu, hat⟩ := List.mem_filterMap.mp hv
      obtain ⟨n, rfl⟩ := hint field u hu
      cases rest <;> cases hat

theorem mergeTrees_documented_layers :
    mergeTrees [setTree 1, setTree 2, setTree 3] = .ok (setTree 3) ∧
      mergeTrees [setTree 2, setTree 3] = .ok (setTree 3) ∧
      mergeTrees [setTree 1, setTree 3] = .ok (setTree 3) := by
  have hsorted : ∀ t ∈ [setTree 1, setTree 2, setTree 3], t.Sorted := by
    intro t ht
    simp only [List.mem_cons, List.not_mem_nil, or_false] at ht
    rcases ht with rfl | rfl | rfl <;> exact ⟨by decide, trivial, trivial⟩
  have hall : mergeTrees [setTree 1, setTree 2, setTree 3] = .ok (setTree 3) := rfl
  have hpair : mergeTrees [setTree 2, setTree 3] = .ok (setTree 3) := rfl
  exact ⟨hall, hpair, (mergeTrees_documented _ _ hsorted hall).2.1 (setTree_uniform [1, 2, 3])
    [setTree 1] [setTree 2, setTree 3] [] (setTree 3) rfl hpair⟩

/-- `{ x.set = { append = [ … ]; }; }`. -/
def appendingTree (items : List Int) : Value :=
  .attrs [(ascii "x", .attrs [(ascii "set",
    .attrs [(ascii "append", .list (items.map Value.int))])])]

def plainTree : Value := .attrs [(ascii "x", .attrs [(ascii "set", .int 5)])]

/-- `{ x.remove = …; }`. -/
def removingTree (what : Value) : Value := .attrs [(ascii "x", .attrs [(ascii "remove", what)])]

/-- Values that look like verb nodes are merged although `set` takes the last one, and
an earlier tree decides whether they are. A `remove` that is no list is an error in a
group that has no `true`, but none in the whole. -/
theorem nested_set_is_merged :
    mergeTrees [appendingTree [1], appendingTree [2]] = .ok (appendingTree [1, 2]) ∧
      mergeTrees [plainTree, appendingTree [1], appendingTree [2]] = .ok (appendingTree [2]) ∧
      mergeTrees [plainTree, appendingTree [1, 2]] = .ok (appendingTree [1, 2]) ∧
      mergeTrees [removingTree (.string (ascii "foo")), removingTree (.string (ascii "bar")),
        removingTree (.bool true)] = .ok (removingTree (.bool true)) ∧
      mergeTrees [removingTree (.string (ascii "foo")), removingTree (.string (ascii "bar"))] =
        .error (.thrown (ascii "overrides: remove takes a list, got a string")) :=
  ⟨rfl, rfl, rfl, rfl, rfl⟩

end Repkgs.Nix.Overrides
