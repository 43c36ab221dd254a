import Repkgs.Nix.Overrides

/-!
# Applied trees

What `applyOne` does to a spec, path by path: nothing off the verb nodes of the tree,
and on each of them the verbs in their order. The exceptions are trees with an empty
set, which creates a field, and nodes that both `set` and `remove = true`, where the
value set stays.
-/

namespace Repkgs.Nix.Overrides

open Repkgs.Lib

/-- The tree has `sub` at the path, and no verb node above it. -/
def ReachedAt : Value → List Bytes → Value → Prop
  | tree, [], sub => sub = tree
  | tree, name :: path, sub =>
      isVerbNode tree = false ∧ ∃ t, tree.get name = some t ∧ ReachedAt t path sub

def VerbNodeAt (tree : Value) (path : List Bytes) (node : Value) : Prop :=
  ReachedAt tree path node ∧ isVerbNode node = true

/-- The path is neither on or below a verb node of the tree, nor on the way to one. -/
def Untouched (tree : Value) (path : List Bytes) : Prop :=
  ∀ q node, VerbNodeAt tree q node → ¬ q <+: path ∧ ¬ path <+: q

theorem ReachedAt.append {tree sub sub' : Value} {q r : List Bytes} (h : ReachedAt tree q sub)
    (h' : ReachedAt sub r sub') : ReachedAt tree (q ++ r) sub' := by
  induction q generalizing tree with
  | nil =>
      cases h
      exact h'
  | cons name q ih =>
      obtain ⟨hnode, t, hget, hrest⟩ := h
      exact ⟨hnode, t, hget, ih hrest⟩

theorem ReachedAt.split {tree sub' : Value} {q r : List Bytes} (h : ReachedAt tree (q ++ r) sub') :
    ∃ sub, ReachedAt tree q sub ∧ ReachedAt sub r sub' := by
  induction q generalizing tree with
  | nil => exact ⟨tree, rfl, h⟩
  | cons name q ih =>
      obtain ⟨hnode, t, hget, hrest⟩ := h
      obtain ⟨sub, hsub, hsub'⟩ := ih hrest
      exact ⟨sub, ⟨hnode, t, hget, hsub⟩, hsub'⟩

variable {tree sub v u u' : Value} {q : List Bytes} {old : Option Value}

theorem ReachedAt.unique {tree sub sub' : Value} (h : ReachedAt tree q sub)
    (h' : ReachedAt tree q sub') : sub = sub' := by
  induction q generalizing tree with
  | nil => exact Eq.trans h h'.symm
  | cons name q ih =>
      obtain ⟨-, t, hget, hrest⟩ := h
      obtain ⟨-, t', hget', hrest'⟩ := h'
      cases hget.symm.trans hget'
      exact ih hrest hrest'

theorem ReachedAt.sorted (h : ReachedAt tree q sub) (hsorted : tree.Sorted) : sub.Sorted := by
  induction q generalizing tree with
  | nil =>
      cases h
      exact hsorted
  | cons name q ih =>
      obtain ⟨-, t, hget, hrest⟩ := h
      exact ih hrest (hsorted.get hget)

/-- A path leaves the tree at a verb node, at a field the tree does not name, or not at all. -/
theorem place_cases (tree : Value) (path : List Bytes) :
    (∃ sub, ReachedAt tree path sub) ∨
    (∃ q node, VerbNodeAt tree q node ∧ q <+: path) ∨
    ∃ q name r sub, path = q ++ name :: r ∧ ReachedAt tree q sub ∧ isVerbNode sub = false ∧
      sub.get name = none := by
  induction path generalizing tree with
  | nil => exact .inl ⟨tree, rfl⟩
  | cons name path ih =>
      cases hnode : isVerbNode tree with
      | true => exact .inr (.inl ⟨[], tree, ⟨rfl, hnode⟩, List.nil_prefix⟩)
      | false =>
          cases hget : tree.get name with
          | none => exact .inr (.inr ⟨[], name, path, tree, rfl, rfl, hnode, hget⟩)
          | some t =>
              rcases ih t with ⟨sub, hsub⟩ | ⟨q, node, ⟨hq, hverb⟩, hprefix⟩ |
                ⟨q, name', r, sub, rfl, hq, hsub, hnone⟩
              · exact .inl ⟨sub, hnode, t, hget, hsub⟩
              · exact .inr (.inl ⟨name :: q, node, ⟨⟨hnode, t, hget, hq⟩, hverb⟩,
                  List.cons_prefix_cons.mpr ⟨rfl, hprefix⟩⟩)
              · exact .inr (.inr ⟨name :: q, name', r, sub, rfl, ⟨hnode, t, hget, hq⟩, hsub, hnone⟩)

/-- `walk` at a value that may be missing. -/
def walkOn (ctx : Context) (path : List Bytes) (tree : Value) (old : Option Value) :
    Except Error Value :=
  walk ctx path tree old.isSome (old.getD .null)

variable {ctx : Context} {path : List Bytes}

/-- The edited members are those of the tree, each walked with what the spec has there. -/
theorem walkMembers_lookup {cur members edited : List (Bytes × Value)}
    (h : walkMembers ctx path cur members = .ok edited) (name : Bytes) :
    match members.lookup name with
    | none => edited.lookup name = none
    | some sub => ∃ w, walkOn ctx (path ++ [name]) sub (cur.lookup name) = .ok w ∧
        edited.lookup name = some w := by
  induction members generalizing edited with
  | nil =>
      cases h
      rfl
  | cons e rest ih =>
      obtain ⟨field, sub⟩ := e
      rw [walkMembers] at h
      obtain ⟨v, hv, h⟩ := bind_eq_ok_iff.mp h
      obtain ⟨vs, hvs, h⟩ := bind_eq_ok_iff.mp h
      cases h
      rw [List.lookup_cons, List.lookup_cons]
      by_cases hname : name = field
      · subst hname
        rw [beq_self_eq_true]
        exact ⟨v, hv, rfl⟩
      · rw [beq_false_of_ne hname]
        exact ih hvs

theorem isVerbNode_of_isRemoveTrue {node : Value} (h : isRemoveTrue node = true) :
    isVerbNode node = true := by
  unfold isRemoveTrue at h
  split at h
  · next name =>
      rw [of_decide_eq_true h]
      rfl
  · cases h

theorem current_eq_ok {cur : List (Bytes × Value)}
    (h : current ctx path old.isSome (old.getD .null) = .ok cur) :
    (old = none ∧ cur = []) ∨ old = some (.attrs cur) := by
  unfold current at h
  cases old with
  | none =>
      cases h
      exact .inl ⟨rfl, rfl⟩
  | some o =>
      cases o with
      | attrs members =>
          cases h
          exact .inr rfl
      | _ => cases h

/-- What a successful walk of a field node went through. -/
theorem walkOn_fields_steps
    (hnode : isVerbNode tree = false) (h : walkOn ctx path tree old = .ok v) :
    ∃ members cur edited, tree = .attrs members ∧
      current ctx path old.isSome (old.getD .null) = .ok cur ∧
      walkMembers ctx path cur members = .ok edited ∧
      v = .attrs (removeNames (updateAttrs cur edited)
        ((members.filter fun e => isRemoveTrue e.2).map Prod.fst)) := by
  cases tree with
  | attrs members =>
      rw [walkOn, walk, if_neg (by simp [hnode])] at h
      split at h
      · cases h
      · split at h
        · cases h
        · obtain ⟨cur, hcur, h⟩ := bind_eq_ok_iff.mp h
          obtain ⟨edited, hedited, h⟩ := bind_eq_ok_iff.mp h
          exact ⟨members, cur, edited, rfl, hcur, hedited, (Except.ok.inj h).symm⟩
  | _ =>
      rw [walkOn, walk] at h
      · cases h
      · nofun

/-- What a field node makes of a set: the fields it names are walked, the others stay. -/
theorem walkOn_fields (hsorted : tree.Sorted) (hnode : isVerbNode tree = false)
    (h : walkOn ctx path tree old = .ok v) :
    (∀ o, old = some o → o.isAttrs) ∧ (∃ members, v = .attrs members ∧ SortedNames members) ∧
    ∀ name,
      match tree.get name with
      | none => v.get name = old.bind (·.get name)
      | some sub => ∃ w, walkOn ctx (path ++ [name]) sub (old.bind (·.get name)) = .ok w ∧
          v.get name = if isRemoveTrue sub then none else some w := by
  obtain ⟨members, cur, edited, rfl, hcur, hedited, rfl⟩ := walkOn_fields_steps hnode h
  have hold : ∀ name, old.bind (·.get name) = cur.lookup name := by
    intro name
    rcases current_eq_ok hcur with ⟨rfl, rfl⟩ | rfl <;> rfl
  have hremoved : ∀ name, name ∈ (members.filter fun e => isRemoveTrue e.2).map Prod.fst ↔
      ∃ sub, members.lookup name = some sub ∧ isRemoveTrue sub = true := by
    intro name
    rw [List.mem_map]
    constructor
    · rintro ⟨e, he, rfl⟩
      obtain ⟨hmem, htrue⟩ := List.mem_filter.mp he
      exact ⟨e.2, hsorted.names.lookup_of_mem hmem, htrue⟩
    · rintro ⟨sub, hsub, htrue⟩
      exact ⟨(name, sub), List.mem_filter.mpr ⟨mem_of_lookup hsub, htrue⟩, rfl⟩
  refine ⟨?_, ⟨_, rfl, (updateAttrs_sorted cur edited).removeNames _⟩, fun name => ?_⟩
  · rintro o rfl
    rcases current_eq_ok hcur with ⟨hnone, -⟩ | hsome
    · cases hnone
    · cases hsome
      rfl
  · have hedit := walkMembers_lookup hedited name
    simp only [Value.get_attrs, lookup_removeNames, hremoved, lookup_updateAttrs, hold]
    cases hget : members.lookup name with
    | none =>
        rw [hget] at hedit
        simp only [reduceCtorEq, false_and, exists_false, if_false]
        rw [show edited.lookup name = none from hedit]
        rfl
    | some sub =>
        rw [hget] at hedit
        obtain ⟨w, hw, hlook⟩ := hedit
        refine ⟨w, hw, ?_⟩
        rw [hlook]
        by_cases htrue : isRemoveTrue sub = true
        · rw [if_pos ⟨sub, rfl, htrue⟩, if_pos htrue]
        · have hnot : ¬ ∃ sub', some sub = some sub' ∧ isRemoveTrue sub' = true := by
            rintro ⟨sub', heq, htrue'⟩
            cases heq
            exact htrue htrue'
          rw [if_neg hnot, if_neg htrue]
          rfl

/-- Every place of the tree that is reached is walked with what the spec has there. -/
theorem walkOn_reached (hsorted : tree.Sorted) (hq : ReachedAt tree q sub)
    (h : walkOn ctx path tree old = .ok v) :
    ∃ w, walkOn ctx (path ++ q) sub (old.bind (·.atPath q)) = .ok w ∧
      v.atPath q = if q ≠ [] ∧ isRemoveTrue sub = true then none else some w := by
  induction q generalizing tree old v path with
  | nil =>
      cases hq
      refine ⟨v, ?_, by simp⟩
      rw [List.append_nil]
      cases old <;> exact h
  | cons name q ih =>
      obtain ⟨hnode, t, hget, hrest⟩ := hq
      obtain ⟨-, -, hfields⟩ := walkOn_fields hsorted hnode h
      have hfield := hfields name
      rw [hget] at hfield
      obtain ⟨w, hw, hv⟩ := hfield
      obtain ⟨w', hw', hat⟩ := ih (hsorted.get hget) hrest hw
      refine ⟨w', ?_, ?_⟩
      · rw [List.append_assoc, List.singleton_append] at hw'
        rw [← hw']
        congr 1
        cases old <;> rfl
      · rw [Value.atPath_cons, hv]
        cases q with
        | nil =>
            cases hrest
            simp only [ne_eq, not_true_eq_false, false_and, if_false, Value.atPath_nil,
              Option.some.injEq] at hat
            subst hat
            by_cases htrue : isRemoveTrue sub = true <;> simp [htrue]
        | cons name' q' =>
            -- a node that removes its field has nothing below it
            have hnot : isRemoveTrue t = false := by
              cases htrue : isRemoveTrue t with
              | false => rfl
              | true =>
                  have hbelow := hrest.1
                  rw [isVerbNode_of_isRemoveTrue htrue] at hbelow
                  cases hbelow
            rw [hnot]
            simpa using hat

/-- A field the tree does not name stays. -/
theorem atPath_unnamed {q r : List Bytes} {name : Bytes} (hsorted : tree.Sorted)
    (hq : ReachedAt tree q sub) (hnode : isVerbNode sub = false) (hname : sub.get name = none)
    (h : walkOn ctx path tree old = .ok v) :
    v.atPath (q ++ name :: r) = old.bind (·.atPath (q ++ name :: r)) := by
  obtain ⟨w, hw, hat⟩ := walkOn_reached hsorted hq h
  have hnot : ¬ (q ≠ [] ∧ isRemoveTrue sub = true) := by
    rintro ⟨-, htrue⟩
    rw [isVerbNode_of_isRemoveTrue htrue] at hnode
    cases hnode
  rw [if_neg hnot] at hat
  have hfield := (walkOn_fields (hq.sorted hsorted) hnode hw).2.2 name
  rw [hname] at hfield
  rw [Value.atPath_append, hat, Option.bind_some, Value.atPath_cons, hfield]
  cases old with
  | none => rfl
  | some o =>
      rw [Option.bind_some, Option.bind_some, Value.atPath_append]
      cases o.atPath q <;> rfl

/-- A tree without verb nodes, whose empty sets the spec has, changes nothing. -/
theorem walkOn_quiet (hsorted : tree.Sorted) (hold : ∀ o, old = some o → o.Sorted)
    (hquiet : ∀ q node, ¬ VerbNodeAt tree q node)
    (hempty : ∀ q, ReachedAt tree q (.attrs []) → (old.bind (·.atPath q)).isSome)
    (h : walkOn ctx path tree old = .ok v) : old = some v := by
  obtain ⟨n, hn⟩ : ∃ n, tree.depth ≤ n := ⟨_, le_rfl⟩
  induction n using Nat.strong_induction_on generalizing tree old v path with
  | _ n ih =>
  have hnode : isVerbNode tree = false :=
    Bool.eq_false_iff.mpr fun htrue => hquiet [] tree ⟨rfl, htrue⟩
  obtain ⟨hsets, ⟨members, rfl, hmembers⟩, hfields⟩ := walkOn_fields hsorted hnode h
  obtain ⟨fields, -, -, rfl, -⟩ := walkOn_fields_steps hnode h
  -- each field is there already, with the value it is given
  have hsame : ∀ name sub, fields.lookup name = some sub →
      old.bind (·.get name) = members.lookup name := by
    intro name sub hget
    have hfield := hfields name
    rw [Value.get_attrs, hget] at hfield
    obtain ⟨w, hw, hlook⟩ := hfield
    have hreach : ∀ {q node}, ReachedAt sub q node → ReachedAt (.attrs fields) (name :: q) node :=
      fun hq => ⟨hnode, sub, hget, hq⟩
    have hlt := Value.depth_lt_of_get (show (Value.attrs fields).get name = some sub from hget)
    have hw' := ih (n - 1) (by omega) (hsorted.get hget)
      (fun o ho => by
        obtain ⟨o', ho', hoget⟩ := Option.bind_eq_some_iff.mp ho
        exact (hold o' ho').get hoget)
      (fun q node hq => hquiet (name :: q) node ⟨hreach hq.1, hq.2⟩)
      (fun q hq => by
        have hsome := hempty (name :: q) (hreach hq)
        cases old <;> exact hsome)
      hw (by omega)
    have hnot : isRemoveTrue sub = false := Bool.eq_false_iff.mpr fun htrue =>
      hquiet [name] sub ⟨hreach rfl, isVerbNode_of_isRemoveTrue htrue⟩
    rw [hw', ← Value.get_attrs, hlook, hnot]
    rfl
  have hsome : old.isSome := by
    cases fields with
    | nil =>
        have := hempty [] rfl
        cases old <;> simp_all
    | cons e rest =>
        have hlook := hsorted.names.lookup_of_mem (List.mem_cons_self (a := e) (l := rest))
        have hfield := hfields e.1
        have hold' := hsame e.1 e.2 hlook
        rw [Value.get_attrs, hlook] at hfield
        obtain ⟨w, -, hw⟩ := hfield
        have hnot : isRemoveTrue e.2 = false := Bool.eq_false_iff.mpr fun htrue =>
          hquiet [e.1] e.2 ⟨⟨hnode, e.2, hlook, rfl⟩, isVerbNode_of_isRemoveTrue htrue⟩
        rw [Value.get_attrs, hnot] at hw
        rw [hw] at hold'
        cases old with
        | none => cases hold'
        | some o => rfl
  obtain ⟨o, rfl⟩ := Option.isSome_iff_exists.mp hsome
  obtain ⟨cur, rfl⟩ := Value.isAttrs_iff.mp (hsets o rfl)
  rw [(hold _ rfl).names.ext hmembers]
  intro name
  cases hget : fields.lookup name with
  | none =>
      have hfield := hfields name
      rw [Value.get_attrs, hget] at hfield
      exact hfield.symm
  | some sub => exact hsame name sub hget

def setStep (ctx : Context) (path : List Bytes) (node : Value) (old : Option Value) :
    Except Error (Option Value) :=
  match node.get (ascii "set") with
  | some v =>
      if isDeps path then (argList ctx path node (ascii "set")).map fun items => some (.list items)
      else .ok (some v)
  | none => .ok old

def removeStep (ctx : Context) (path : List Bytes) (node : Value) (value : Option Value) :
    Except Error (Option Value) :=
  if removesField node then .ok none
  else
    match value with
    | none => .ok none
    | some v => if drops node then (dropFrom ctx path node v).map some else .ok (some v)

def mergeStep (ctx : Context) (path : List Bytes) (node : Value) (value : Option Value) :
    Except Error (Option Value) :=
  if node.has (ascii "merge") then
    (mergeInto ctx path node (value.getD (.attrs []))).map some
  else .ok value

def listStep (ctx : Context) (path : List Bytes) (node : Value) (value : Option Value) :
    Except Error (Option Value) :=
  if addsLists node then (addTo ctx path node (value.getD (.list []))).map some else .ok value

/-- The node as documented: set, then remove, then merge, then prepend and append, where
merge, prepend and append create what is missing or was removed. -/
def verbsInOrder (ctx : Context) (path : List Bytes) (node : Value) (old : Option Value) :
    Except Error (Option Value) := do
  let value ← setStep ctx path node old
  let value ← removeStep ctx path node value
  let value ← mergeStep ctx path node value
  listStep ctx path node value

/-- The verbs behind `start`. -/
def editFrom (ctx : Context) (path : List Bytes) (node v : Value) : Except Error Value :=
  (if drops node then dropFrom ctx path node v else .ok v) >>= fun v =>
    (if node.has (ascii "merge") then mergeInto ctx path node v else .ok v) >>= fun v =>
      if addsLists node then addTo ctx path node v else .ok v

theorem applyVerbs_eq (node : Value) (has : Bool) (old : Value) :
    applyVerbs ctx path node has old =
      start ctx path node has old >>= editFrom ctx path node := by
  simp only [applyVerbs, afterMerge, afterRemove, bind_assoc]
  rfl

variable {node : Value}

theorem editFrom_eq_ok_iff :
    editFrom ctx path node u = .ok v ↔ ∃ u' u'',
      (if drops node then dropFrom ctx path node u else .ok u) = .ok u' ∧
      (if node.has (ascii "merge") then mergeInto ctx path node u' else .ok u') = .ok u'' ∧
      (if addsLists node then addTo ctx path node u'' else .ok u'') = .ok v := by
  rw [editFrom, bind_eq_ok_iff]
  simp only [bind_eq_ok_iff]
  constructor
  · rintro ⟨u', hu', u'', hu'', hv⟩
    exact ⟨u', u'', hu', hu'', hv⟩
  · rintro ⟨u', u'', hu', hu'', hv⟩
    exact ⟨u', hu', u'', hu'', hv⟩

theorem mergeStep_some
    (h : (if node.has (ascii "merge") then mergeInto ctx path node u else .ok u) = .ok u') :
    mergeStep ctx path node (some u) = .ok (some u') := by
  unfold mergeStep
  split at h
  · next hmerge => rw [if_pos hmerge, Option.getD_some, h]; rfl
  · next hmerge => rw [if_neg hmerge, Except.ok.inj h]

theorem listStep_some (h : (if addsLists node then addTo ctx path node u else .ok u) = .ok u') :
    listStep ctx path node (some u) = .ok (some u') := by
  unfold listStep
  split at h
  · next hlists => rw [if_pos hlists, Option.getD_some, h]; rfl
  · next hlists => rw [if_neg hlists, Except.ok.inj h]

/-- With a value to edit, and a `remove` that leaves the field, the steps are the code's. -/
theorem steps_of_edit (hfield : removesField node = false) (h : editFrom ctx path node u = .ok v) :
    (removeStep ctx path node (some u) >>= fun value =>
      mergeStep ctx path node value >>= listStep ctx path node) = .ok (some v) := by
  obtain ⟨u', u'', hu', hu'', hv⟩ := editFrom_eq_ok_iff.mp h
  have hremove : removeStep ctx path node (some u) = .ok (some u') := by
    unfold removeStep
    rw [hfield]
    split at hu'
    · next hdrops => simp [hdrops, hu', Except.map]
    · next hdrops => simp [hdrops, Except.ok.inj hu']
  rw [bind_eq_ok_iff]
  refine ⟨some u', hremove, bind_eq_ok_iff.mpr ⟨some u'', mergeStep_some hu'', listStep_some hv⟩⟩

theorem dropFrom_empty (hu : u = .attrs [] ∨ u = .list []) (h : dropFrom ctx path node u = .ok u') :
    u' = u := by
  rcases hu with rfl | rfl
  · rw [dropFrom, bind_eq_ok_iff] at h
    obtain ⟨names, -, h⟩ := h
    obtain ⟨members, hmembers, rfl⟩ := map_eq_ok_iff.mp h
    obtain ⟨texts, -, hmembers⟩ := bind_eq_ok_iff.mp hmembers
    cases hmembers
    rfl
  · cases h
    rfl

/-- With nothing to edit, the code begins with what merge or the lists imply. -/
theorem steps_of_missing
    (hu : (node.has (ascii "merge") = true ∧ u = .attrs []) ∨
      (node.has (ascii "merge") = false ∧ addsLists node = true ∧ u = .list []))
    (h : editFrom ctx path node u = .ok v) :
    (mergeStep ctx path node none >>= listStep ctx path node) = .ok (some v) := by
  obtain ⟨u', u'', hu', hu'', hv⟩ := editFrom_eq_ok_iff.mp h
  have hsame : u' = u := by
    split at hu'
    · exact dropFrom_empty (hu.imp And.right fun hlists => hlists.2.2) hu'
    · exact (Except.ok.inj hu').symm
  subst hsame
  rw [bind_eq_ok_iff]
  rcases hu with ⟨hmerge, rfl⟩ | ⟨hmerge, hlists, rfl⟩
  · refine ⟨some u'', ?_, listStep_some hv⟩
    rw [if_pos hmerge] at hu''
    rw [mergeStep, if_pos hmerge, Option.getD_none, hu'']
    rfl
  · rw [hmerge] at hu''
    cases hu''
    refine ⟨none, by rw [mergeStep, hmerge]; rfl, ?_⟩
    rw [if_pos hlists] at hv
    rw [listStep, if_pos hlists, Option.getD_none, hv]
    rfl

theorem removesField_iff : removesField node = true ↔
    node.get (ascii "remove") = some (.bool true) := by
  unfold removesField
  cases node.get (ascii "remove") with
  | none => simp
  | some v => cases v <;> simp [Value.isTrue]

/-- A verb node with nothing but `remove = true`. -/
theorem isRemoveTrue_iff (hsorted : node.Sorted) (hverb : isVerbNode node = true) :
    isRemoveTrue node = true ↔ removesField node = true ∧ node.get (ascii "set") = none ∧
      node.has (ascii "merge") = false ∧ addsLists node = false := by
  constructor
  · intro h
    unfold isRemoveTrue at h
    split at h
    · next name =>
        rw [of_decide_eq_true h]
        exact ⟨rfl, rfl, rfl, rfl⟩
    · cases h
  · rintro ⟨hremove, hset, hmerge, hlists⟩
    rw [removesField_iff] at hremove
    cases node with
    | attrs members =>
        have hnames : ∀ e ∈ members, e.1 = ascii "remove" := by
          intro e he
          have hlook : ((Value.attrs members).get e.1).isSome := by
            rw [Value.get_attrs, hsorted.names.lookup_of_mem he]
            rfl
          have hname : e.1 ∈ verbs := by
            simp only [isVerbNode, Bool.and_eq_true, List.all_eq_true, decide_eq_true_eq] at hverb
            exact hverb.2 e he
          simp only [addsLists, Value.has, Bool.or_eq_false_iff] at hmerge hlists
          simp only [verbs, List.mem_cons, List.not_mem_nil, or_false] at hname
          rcases hname with hname | hname | hname | hname | hname
          · rw [hname, hset] at hlook
            cases hlook
          · rw [hname, hlists.2] at hlook
            cases hlook
          · rw [hname, hlists.1] at hlook
            cases hlook
          · rw [hname, hmerge] at hlook
            cases hlook
          · exact hname
        match members, hnames, hsorted.names, hremove with
        | [], _, _, hremove => cases hremove
        | [(name, v)], hnames, _, hremove =>
            obtain rfl : name = ascii "remove" := hnames _ (.head _)
            cases hremove
            rfl
        | e :: e' :: rest, hnames, hsorted, _ =>
            have hne := ((List.pairwise_cons.mp hsorted).1 e' (.head _)).2
            exact absurd ((hnames e (.head _)).trans
              (hnames e' (.tail _ (.head _))).symm) hne
    | _ => cases hverb

/-- A node that does not both set and remove its field works as documented. -/
theorem applyVerbs_in_order (hsorted : node.Sorted) (hverb : isVerbNode node = true)
    (hclash : ¬ (node.has (ascii "set") = true ∧ removesField node = true))
    (h : applyVerbs ctx path node old.isSome (old.getD .null) = .ok v) :
    verbsInOrder ctx path node old = .ok (if isRemoveTrue node then none else some v) := by
  rw [applyVerbs_eq, bind_eq_ok_iff] at h
  obtain ⟨u, hstart, hedit⟩ := h
  have hrem := isRemoveTrue_iff hsorted hverb
  rw [verbsInOrder]
  cases hset : node.get (ascii "set") with
  | some s =>
      have hfield : removesField node = false :=
        Bool.eq_false_iff.mpr fun htrue => hclash ⟨by rw [Value.has, hset]; rfl, htrue⟩
      have hnot : isRemoveTrue node = false :=
        Bool.eq_false_iff.mpr fun htrue => by simp [hset] at hrem; simp [hrem] at htrue
      have hstep : setStep ctx path node old = .ok (some u) := by
        rw [start, hset] at hstart
        rw [setStep, hset]
        dsimp only at hstart ⊢
        split at hstart
        · next hdeps =>
            obtain ⟨items, hitems, rfl⟩ := map_eq_ok_iff.mp hstart
            rw [if_pos hdeps, hitems]
            rfl
        · next hdeps => rw [if_neg hdeps, Except.ok.inj hstart]
      rw [hstep, hnot]
      exact steps_of_edit hfield hedit
  | none =>
      have hstep : setStep ctx path node old = .ok old := by rw [setStep, hset]
      rw [hstep]
      rw [start, hset] at hstart
      dsimp only at hstart
      by_cases hhas : (old.isSome && !removesField node) = true
      · rw [if_pos hhas] at hstart
        obtain ⟨hsome, hfield⟩ := Bool.and_eq_true_iff.mp hhas
        rw [Bool.not_eq_true'] at hfield
        obtain ⟨o, rfl⟩ := Option.isSome_iff_exists.mp hsome
        cases hstart
        have hnot : isRemoveTrue node = false :=
          Bool.eq_false_iff.mpr fun htrue => by simp [hrem, hfield] at htrue
        rw [hnot]
        exact steps_of_edit hfield hedit
      · -- the field is missing, or removed
        have hgone : removeStep ctx path node old = .ok none := by
          unfold removeStep
          cases hfield : removesField node with
          | true => rfl
          | false =>
              cases old with
              | none => rfl
              | some o => simp [hfield] at hhas
        rw [if_neg hhas] at hstart
        change (removeStep ctx path node old >>= fun value =>
          mergeStep ctx path node value >>= listStep ctx path node) = _
        rw [hgone]
        change (mergeStep ctx path node none >>= listStep ctx path node) = _
        cases hmerge : node.has (ascii "merge") with
        | true =>
            rw [if_pos hmerge] at hstart
            have hnot : isRemoveTrue node = false :=
              Bool.eq_false_iff.mpr fun htrue => by simp [hrem, hmerge] at htrue
            rw [hnot]
            exact steps_of_missing (.inl ⟨hmerge, (Except.ok.inj hstart).symm⟩) hedit
        | false =>
            rw [hmerge, if_neg (by decide)] at hstart
            cases hlists : addsLists node with
            | true =>
                rw [if_pos hlists] at hstart
                have hnot : isRemoveTrue node = false :=
                  Bool.eq_false_iff.mpr fun htrue => by simp [hrem, hlists] at htrue
                rw [hnot]
                exact steps_of_missing
                  (.inr ⟨hmerge, hlists, (Except.ok.inj hstart).symm⟩) hedit
            | false =>
                rw [hlists, if_neg (by decide)] at hstart
                split at hstart
                · next hremove =>
                    split at hstart
                    · next hsome =>
                        have hfield : removesField node = true := by simpa [hsome] using hhas
                        rw [hrem.mpr ⟨hfield, hset, hmerge, hlists⟩, mergeStep, hmerge]
                        change listStep ctx path node none = _
                        rw [listStep, hlists]
                        rfl
                    · cases hstart
                · cases hstart

/-- `remove = true` takes back a value set by the same node: nothing of it is left in the
lists that are added or behind the names that are merged. -/
def HarmlessSet (node : Value) : Prop :=
  (node.get (ascii "set") = some (.list []) ∧ addsLists node = true) ∨
    ∃ s m, node.get (ascii "set") = some s ∧ node.get (ascii "merge") = some m ∧
      ∀ name, (s.get name).isSome → (m.get name).isSome

theorem dropped_of_not_drops (hdrops : drops node = false) :
    dropped ctx path node = .ok [] := by
  rw [dropped, hdrops]
  rfl

theorem filterM_keep_of_not_drops (hdrops : drops node = false) (items : List Value) :
    items.filterM (keep ctx path node) = .ok items := by
  have hkeep : ∀ d, keep ctx path node d = .ok true := by
    intro d
    rw [keep, dropped_of_not_drops hdrops]
    rfl
  rw [filterM_eq_ok_iff]
  refine ⟨fun d _ => ⟨true, hkeep d⟩, ?_⟩
  simp [hkeep, holds]

/-- Without removed names, `merge` is the union. -/
theorem mergeInto_of_not_drops {members : List (Bytes × Value)} (hdrops : drops node = false)
    (h : mergeInto ctx path node (.attrs members) = .ok v) :
    ∃ added, node.get (ascii "merge") = some (.attrs added) ∧
      ∀ base, mergeInto ctx path node (.attrs base) = .ok (.attrs (updateAttrs base added)) := by
  obtain ⟨added, hadded, -⟩ := bind_eq_ok_iff.mp h
  have hget : node.get (ascii "merge") = some (.attrs added) := by
    unfold argSet at hadded
    split at hadded
    · next heq => rw [heq, Except.ok.inj hadded]
    · cases hadded
    · cases hadded
  refine ⟨added, hget, fun base => ?_⟩
  have hall : removeNames added [] = added := by simp [removeNames]
  rw [mergeInto, hadded, dropped_of_not_drops hdrops]
  change Except.ok (Value.attrs (updateAttrs base (removeNames added []))) = _
  rw [hall]

theorem addTo_of_not_drops {items : List Value} (hdrops : drops node = false)
    (h : addTo ctx path node (.list items) = .ok v) :
    ∃ front back, ∀ base, addTo ctx path node (.list base) =
      .ok (.list (front ++ base ++ back)) := by
  obtain ⟨front, hfront, h⟩ := bind_eq_ok_iff.mp h
  obtain ⟨back, hback, -⟩ := bind_eq_ok_iff.mp h
  refine ⟨front, back, fun base => ?_⟩
  rw [addTo, hfront, hback]
  change ((front ++ base ++ back).filterM (keep ctx path node)).map Value.list = _
  rw [filterM_keep_of_not_drops hdrops]
  rfl

theorem updateAttrs_eq_iff {base added : List (Bytes × Value)} :
    updateAttrs base added = updateAttrs [] added ↔
      ∀ name, (base.lookup name).isSome → (added.lookup name).isSome := by
  constructor
  · intro heq name hsome
    have hlook := congrArg (List.lookup name) heq
    rw [lookup_updateAttrs, lookup_updateAttrs] at hlook
    cases hadded : added.lookup name with
    | some v => rfl
    | none =>
        rw [hadded] at hlook
        rw [show base.lookup name = none from hlook] at hsome
        cases hsome
  · intro hnames
    apply (updateAttrs_sorted _ _).ext (updateAttrs_sorted _ _)
    intro name
    rw [lookup_updateAttrs, lookup_updateAttrs]
    cases hadded : added.lookup name with
    | some v => rfl
    | none =>
        have := hnames name
        rw [hadded] at this
        cases hbase : base.lookup name with
        | none => rfl
        | some v => simp [hbase] at this

/-- The value a node sets is a list exactly if the value it starts from is, and as long. -/
theorem start_of_set {s u : Value} {has : Bool} {old : Value}
    (hset : node.get (ascii "set") = some s) (h : start ctx path node has old = .ok u) :
    (u = .list [] ↔ s = .list []) ∧ (∀ members, u = .attrs members → s = .attrs members) := by
  rw [start, hset] at h
  dsimp only at h
  split at h
  · obtain ⟨items, hitems, rfl⟩ := map_eq_ok_iff.mp h
    rw [argList, hset] at hitems
    cases s with
    | list l =>
        have hlength := (mapM_eq_ok_iff.mp hitems).length_eq
        refine ⟨?_, nofun⟩
        rw [Value.list.injEq, Value.list.injEq, ← List.length_eq_zero_iff, ← hlength,
          List.length_eq_zero_iff]
    | _ => cases hitems
  · cases h
    exact ⟨Iff.rfl, fun members h => h⟩

/-- A node that sets and removes its field leaves the value it sets. -/
theorem applyVerbs_clash_iff (hset : node.has (ascii "set") = true)
    (hfield : removesField node = true)
    (h : applyVerbs ctx path node old.isSome (old.getD .null) = .ok v) :
    verbsInOrder ctx path node old = .ok (some v) ↔ HarmlessSet node := by
  obtain ⟨s, hs⟩ := Option.isSome_iff_exists.mp hset
  have hdrops : drops node = false := by simp [drops, hfield]
  rw [applyVerbs_eq, bind_eq_ok_iff] at h
  obtain ⟨u, hstart, hedit⟩ := h
  obtain ⟨hlist, hattrs⟩ := start_of_set hs hstart
  obtain ⟨u', u'', hu', hu'', hv⟩ := editFrom_eq_ok_iff.mp hedit
  rw [hdrops] at hu'
  cases hu'
  -- documented, the value set is gone when merge and the lists are added
  have horder : verbsInOrder ctx path node old =
      (mergeStep ctx path node none >>= listStep ctx path node) := by
    have hstep : ∃ value, setStep ctx path node old = .ok value := by
      rw [start, hs] at hstart
      rw [setStep, hs]
      dsimp only at hstart ⊢
      split at hstart
      · next hdeps =>
          obtain ⟨items, hitems, -⟩ := map_eq_ok_iff.mp hstart
          rw [if_pos hdeps, hitems]
          exact ⟨_, rfl⟩
      · next hdeps =>
          rw [if_neg hdeps]
          exact ⟨_, rfl⟩
    obtain ⟨value, hvalue⟩ := hstep
    rw [verbsInOrder, hvalue]
    change (removeStep ctx path node value >>= fun value =>
      mergeStep ctx path node value >>= listStep ctx path node) = _
    have hgone : removeStep ctx path node value = .ok none := by
      unfold removeStep
      rw [if_pos hfield]
    rw [hgone]
    rfl
  rw [horder]
  cases hmerge : node.has (ascii "merge") with
  | true =>
      rw [if_pos hmerge] at hu''
      cases u with
      | attrs base =>
          obtain ⟨added, hadded, hall⟩ := mergeInto_of_not_drops hdrops hu''
          rw [hall base] at hu''
          cases hu''
          have hnolists : addsLists node = false := by
            cases hlists : addsLists node with
            | false => rfl
            | true =>
                rw [if_pos hlists] at hv
                cases hv
          rw [hnolists] at hv
          cases hv
          have hs' := hattrs base rfl
          have hmergeStep : mergeStep ctx path node none =
              .ok (some (.attrs (updateAttrs [] added))) := by
            rw [mergeStep, if_pos hmerge, Option.getD_none, hall []]
            rfl
          rw [hmergeStep]
          change listStep ctx path node _ = _ ↔ _
          rw [listStep, hnolists, if_neg (by decide), Except.ok.injEq, Option.some.injEq,
            Value.attrs.injEq, eq_comm, updateAttrs_eq_iff]
          constructor
          · intro hnames
            exact .inr ⟨_, _, hs.trans (congrArg some hs'), hadded, hnames⟩
          · rintro (⟨-, hlists⟩ | ⟨s', m, hset', hmerge', hnames⟩)
            · rw [hnolists] at hlists
              cases hlists
            · cases (hs.trans (congrArg some hs')).symm.trans hset'
              cases hadded.symm.trans hmerge'
              exact hnames
      | _ => cases hu''
  | false =>
      rw [hmerge] at hu''
      cases hu''
      have hnomerge : node.get (ascii "merge") = none :=
        Option.not_isSome_iff_eq_none.mp (Bool.eq_false_iff.mp hmerge)
      have hmergeStep : mergeStep ctx path node none = .ok none := by
        rw [mergeStep, hmerge]
        rfl
      rw [hmergeStep]
      change listStep ctx path node none = _ ↔ _
      cases hlists : addsLists node with
      | true =>
          rw [if_pos hlists] at hv
          cases u with
          | list items =>
              obtain ⟨front, back, hall⟩ := addTo_of_not_drops hdrops hv
              rw [hall items] at hv
              cases hv
              rw [listStep, if_pos hlists, Option.getD_none, hall []]
              change Except.ok (some (Value.list (front ++ [] ++ back))) = _ ↔ _
              rw [Except.ok.injEq, Option.some.injEq, Value.list.injEq]
              have hitems : front ++ [] ++ back = front ++ items ++ back ↔ items = [] := by
                constructor
                · intro heq
                  have := congrArg List.length heq
                  simp only [List.length_append, List.length_nil] at this
                  exact List.length_eq_zero_iff.mp (by omega)
                · rintro rfl
                  rfl
              have hset' : items = [] ↔ s = .list [] := by rw [← hlist, Value.list.injEq]
              rw [hitems, hset']
              constructor
              · rintro rfl
                exact .inl ⟨hs, hlists⟩
              · rintro (⟨hset'', -⟩ | ⟨s', m, -, hmerge', -⟩)
                · exact Option.some.inj (hs.symm.trans hset'')
                · rw [hnomerge] at hmerge'
                  cases hmerge'
          | _ => cases hv
      | false =>
          rw [listStep, hlists, if_neg (by decide)]
          constructor
          · intro heq
            cases heq
          · rintro (⟨-, hlists'⟩ | ⟨s', m, -, hmerge', -⟩)
            · rw [hlists] at hlists'
              cases hlists'
            · rw [hnomerge] at hmerge'
              cases hmerge'

/-- Nothing that a node removes is left in its value, and nothing that is equal to it for
Nix, elements of dependency lists being compared by the names of packages. -/
def Filtered (ctx : Context) (path : List Bytes) (node : Value) (value : Option Value) : Prop :=
  drops node = true → ∀ names, dropped ctx path node = .ok names →
    (∀ items, value = some (.list items) → ∀ d ∈ items, ∀ key, dropKey path d = .ok key →
      key ∉ names ∧ ∀ r ∈ names, key.same r = false) ∧
    ∀ members, value = some (.attrs members) → ∀ name, (members.lookup name).isSome →
      Value.string name ∉ names

variable {names : List Value}

theorem same_of_kept (hnames : dropped ctx path node = .ok names) {d key : Value}
    (hkeep : holds (keep ctx path node d) = true) (hkey : dropKey path d = .ok key) :
    key ∉ names ∧ ∀ r ∈ names, key.same r = false := by
  have hsame : ∀ r ∈ names, key.same r = false := by
    rw [keep, hnames] at hkeep
    change holds (if names.isEmpty then _ else _) = true at hkeep
    split at hkeep
    · next hnil =>
        rw [List.isEmpty_iff.mp hnil]
        exact nofun
    · rw [hkey] at hkeep
      simpa [bind, Except.bind, holds] using hkeep
  exact ⟨fun hmem => absurd (hsame key hmem) (by simp [key.same_self]), hsame⟩

theorem same_of_mem_filterM (hnames : dropped ctx path node = .ok names) {items kept : List Value}
    (h : items.filterM (keep ctx path node) = .ok kept) :
    ∀ d ∈ kept, ∀ key, dropKey path d = .ok key →
      key ∉ names ∧ ∀ r ∈ names, key.same r = false := by
  obtain ⟨-, rfl⟩ := filterM_eq_ok_iff.mp h
  exact fun d hd key hkey => same_of_kept hnames (List.mem_filter.mp hd).2 hkey

theorem notMem_of_removeAttrs {members left : List (Bytes × Value)}
    (h : removeAttrs members names = .ok left) {name : Bytes}
    (hname : (left.lookup name).isSome) : Value.string name ∉ names := by
  obtain ⟨texts, htexts, h⟩ := bind_eq_ok_iff.mp h
  cases h
  intro hmem
  rw [lookup_removeNames] at hname
  split at hname
  · cases hname
  · next hnot =>
      obtain ⟨text, htext, heq⟩ := exists_of_forall₂_left (mapM_eq_ok_iff.mp htexts) hmem
      cases heq
      exact hnot htext

theorem dropFrom_filtered (h : dropFrom ctx path node u = .ok u') :
    Filtered ctx path node (some u') := by
  intro _ names hnames
  cases u with
  | list items =>
      obtain ⟨kept, hkept, rfl⟩ := map_eq_ok_iff.mp h
      refine ⟨?_, nofun⟩
      rintro _ ⟨⟩
      exact same_of_mem_filterM hnames hkept
  | attrs members =>
      obtain ⟨names', hnames', h⟩ := bind_eq_ok_iff.mp h
      cases hnames.symm.trans hnames'
      obtain ⟨left, hleft, rfl⟩ := map_eq_ok_iff.mp h
      refine ⟨nofun, ?_⟩
      rintro _ ⟨⟩ name hname
      exact notMem_of_removeAttrs hleft hname
  | _ => cases h

theorem mergeInto_filtered (hu : Filtered ctx path node (some u))
    (h : mergeInto ctx path node u = .ok u') : Filtered ctx path node (some u') := by
  intro hdrops names hnames
  cases u with
  | attrs members =>
      obtain ⟨added, hadded, h⟩ := bind_eq_ok_iff.mp h
      obtain ⟨names', hnames', h⟩ := bind_eq_ok_iff.mp h
      cases hnames.symm.trans hnames'
      obtain ⟨left, hleft, h⟩ := bind_eq_ok_iff.mp h
      cases h
      refine ⟨nofun, ?_⟩
      rintro _ ⟨⟩ name hname
      rw [lookup_updateAttrs, Option.isSome_or, Bool.or_eq_true] at hname
      rcases hname with hname | hname
      · exact notMem_of_removeAttrs hleft hname
      · exact (hu hdrops names hnames).2 members rfl name hname
  | _ => cases h

theorem addTo_filtered (h : addTo ctx path node u = .ok u') :
    Filtered ctx path node (some u') := by
  intro _ names hnames
  cases u with
  | list items =>
      obtain ⟨front, -, h⟩ := bind_eq_ok_iff.mp h
      obtain ⟨back, -, h⟩ := bind_eq_ok_iff.mp h
      obtain ⟨kept, hkept, rfl⟩ := map_eq_ok_iff.mp h
      refine ⟨?_, nofun⟩
      rintro _ ⟨⟩
      exact same_of_mem_filterM hnames hkept
  | _ => cases h

theorem applyVerbs_filtered {has : Bool} {old v : Value}
    (h : applyVerbs ctx path node has old = .ok v) : Filtered ctx path node (some v) := by
  rw [applyVerbs_eq, bind_eq_ok_iff] at h
  obtain ⟨u, -, hedit⟩ := h
  obtain ⟨u', u'', hu', hu'', hv⟩ := editFrom_eq_ok_iff.mp hedit
  intro hdrops
  rw [if_pos hdrops] at hu'
  have hmerged : Filtered ctx path node (some u'') := by
    split at hu''
    · exact mergeInto_filtered (dropFrom_filtered hu') hu''
    · exact Except.ok.inj hu'' ▸ dropFrom_filtered hu'
  have hadded : Filtered ctx path node (some v) := by
    split at hv
    · exact addTo_filtered hv
    · exact Except.ok.inj hv ▸ hmerged
  exact hadded hdrops

/-- The spec is edited where the tree says, and nowhere else. -/
structure EditsExactly (ctx : Context) (tree spec result : Value) : Prop where
  frame : ∀ path, Untouched tree path → result.atPath path = spec.atPath path
  nodes : ∀ path node, VerbNodeAt tree path node →
    verbsInOrder ctx path node (spec.atPath path) = .ok (result.atPath path)
  filtered : ∀ path node, VerbNodeAt tree path node →
    Filtered ctx path node (result.atPath path)

variable {tree spec result : Value}

/-- At a verb node the result is what its verbs make of the spec. -/
theorem walkOn_verbNode (hsorted : tree.Sorted) (hq : VerbNodeAt tree q node)
    (h : walkOn ctx path tree (some spec) = .ok result) :
    ∃ w, applyVerbs ctx (path ++ q) node (spec.atPath q).isSome ((spec.atPath q).getD .null) =
      .ok w ∧
      result.atPath q = if q ≠ [] ∧ isRemoveTrue node = true then none else some w := by
  obtain ⟨w, hw, hat⟩ := walkOn_reached hsorted hq.1 h
  refine ⟨w, ?_, hat⟩
  rw [Option.bind_some, walkOn] at hw
  cases node with
  | attrs members =>
      rw [walk, if_pos hq.2] at hw
      exact hw
  | _ => cases hq.2

theorem untouched_of_empty (hq : ReachedAt tree q (.attrs [])) :
    Untouched tree q := by
  rintro p node ⟨hp, hverb⟩
  constructor
  · rintro ⟨r, rfl⟩
    obtain ⟨sub, hsub, hrest⟩ := hq.split
    cases hsub.unique hp
    cases r with
    | nil =>
        cases hrest
        cases hverb
    | cons name r =>
        rw [hrest.1] at hverb
        cases hverb
  · rintro ⟨r, rfl⟩
    obtain ⟨sub, hsub, hrest⟩ := hp.split
    cases hsub.unique hq
    cases r with
    | nil =>
        cases hrest
        cases hverb
    | cons name r =>
        obtain ⟨-, t, hget, -⟩ := hrest
        cases hget

theorem atPath_untouched (hsorted : tree.Sorted) (hspec : spec.Sorted)
    (hempty : ∀ p, ReachedAt tree p (.attrs []) → (spec.atPath p).isSome) (hq : Untouched tree q)
    (h : walkOn ctx path tree (some spec) = .ok result) :
    result.atPath q = spec.atPath q := by
  rcases place_cases tree q with ⟨sub, hsub⟩ | ⟨p, node, hp, hprefix⟩ |
    ⟨p, name, r, sub, rfl, hp, hnode, hname⟩
  · obtain ⟨w, hw, hat⟩ := walkOn_reached hsorted hsub h
    have hquiet : ∀ p node, ¬ VerbNodeAt sub p node :=
      fun p node hp => (hq (q ++ p) node ⟨hsub.append hp.1, hp.2⟩).2 (List.prefix_append q p)
    have hnot : ¬ (q ≠ [] ∧ isRemoveTrue sub = true) :=
      fun htrue => hquiet [] sub ⟨rfl, isVerbNode_of_isRemoveTrue htrue.2⟩
    rw [hat, if_neg hnot]
    symm
    rw [Option.bind_some] at hw
    refine walkOn_quiet (hsub.sorted hsorted) ?_ hquiet ?_ hw
    · exact fun o ho => hspec.atPath ho
    · intro p hp
      rw [← Value.atPath_append]
      exact hempty (q ++ p) (hsub.append hp)
  · exact absurd hprefix (hq p node hp).1
  · exact atPath_unnamed hsorted hp hnode hname h

/-- `{ x = node; }`. -/
def fieldTree (node : Value) : Value := .attrs [(ascii "x", node)]

theorem fieldTree_reached {path : List Bytes} (hverb : isVerbNode node = true)
    (h : ReachedAt (fieldTree node) path sub) : sub = fieldTree node ∨ sub = node := by
  cases path with
  | nil => exact .inl h
  | cons name path =>
      obtain ⟨-, t, hget, hrest⟩ := h
      rw [fieldTree, Value.get_attrs] at hget
      cases List.mem_singleton.mp (mem_of_lookup hget)
      cases path with
      | nil => exact .inr hrest
      | cons name' path =>
          rw [hrest.1] at hverb
          cases hverb

/-- A package, with a function in it. -/
def package : Value := .attrs [(ascii "fn", .lambda 0), (ascii "outPath", .string (ascii "/p")),
  (ascii "type", .string (ascii "derivation"))]

theorem package_sorted : package.Sorted := ⟨by decide, trivial, trivial, trivial, trivial⟩

def appendNode : Value :=
  .attrs [(ascii "append", .list [.int 2, package]), (ascii "remove", .list [package])]

def clashNode : Value := .attrs [(ascii "remove", .bool true), (ascii "set", .int 5)]

end Repkgs.Nix.Overrides
