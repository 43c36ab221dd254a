import Repkgs.Jig.FixupPaths

/-!
# Absolute paths by their names

An absolute path in normal form is a list of names and perhaps a slash behind them. On
such lists the lexical operations are simple: the normal form of a path is the stack of
its names, and a relative path goes up from the base to what both have in common.
-/

namespace Repkgs.Jig

open Lib

/-- A name in a path in normal form. -/
structure PathName (name : Bytes) : Prop where
  ne_nil : name ≠ []
  slash : chr '/' ∉ name
  ne_dot : name ≠ dot
  ne_dotdot : name ≠ dotdot

/-- The absolute path with these names, with a slash behind the last one or not. -/
def absPath (names : List Bytes) (slash : Bool) : Bytes :=
  chr '/' :: (joinPath names ++ if slash && !names.isEmpty then ascii "/" else [])

section Names

variable {names : List Bytes} (h : ∀ name ∈ names, PathName name)

include h

theorem split_joinPath : split (joinPath names) (chr '/') = names := by
  induction names with
  | nil => rfl
  | cons name names ih =>
      have hname := h name (.head _)
      have hrest := ih fun n hn => h n (.tail _ hn)
      cases names with
      | nil =>
          rw [joinPath, List.intercalate_singleton, split_eq_singleton hname.slash hname.ne_nil]
      | cons next names =>
          have hjoin : joinPath (name :: next :: names) =
              name ++ chr '/' :: joinPath (next :: names) := by
            rw [joinPath, List.intercalate_cons_cons, joinPath]
            simp [ascii, chr]
          rw [hjoin, split_append_cons, hrest, split_eq_singleton hname.slash hname.ne_nil]
          rfl

theorem getLast?_joinPath : (joinPath names).getLast? ≠ some (chr '/') := by
  induction names with
  | nil => simp [joinPath]
  | cons name names ih =>
      have hname := h name (.head _)
      have hrest := ih fun n hn => h n (.tail _ hn)
      cases names with
      | nil =>
          rw [joinPath, List.intercalate_singleton]
          exact fun hlast => hname.slash (List.mem_of_getLast? hlast)
      | cons next names =>
          have hne : joinPath (next :: names) ≠ [] := by
            have hnext := (h next (by simp)).ne_nil
            cases names <;> simp [joinPath, hnext]
          rw [joinPath, List.intercalate_cons_cons, ← joinPath, List.append_assoc,
            List.getLast?_append_of_ne_nil _ (by simp [hne]), List.getLast?_append_of_ne_nil _ hne]
          exact hrest

theorem pathNames_absPath (slash : Bool) : pathNames (absPath names slash) = names := by
  have hroot : pathNames (absPath names slash) =
      split (joinPath names ++ if slash && !names.isEmpty then ascii "/" else []) (chr '/') :=
    split_append_cons (chr '/') [] _
  rw [hroot]
  split
  · have htail : joinPath names ++ ascii "/" = joinPath names ++ chr '/' :: [] := rfl
    rw [htail, split_append_cons, split_joinPath h]
    simp [split]
  · rw [List.append_nil, split_joinPath h]

theorem endsInSlash_absPath (hne : names ≠ []) (slash : Bool) :
    endsInSlash (absPath names slash) = slash := by
  have hjoin : joinPath names ≠ [] := by
    intro hnil
    have hnames := split_joinPath h
    rw [hnil] at hnames
    exact hne (hnames ▸ rfl)
  cases slash with
  | true => simp [endsInSlash, absPath, hne, ascii, chr, List.getLast?_cons]
  | false =>
      have hlast := getLast?_joinPath h
      rw [endsInSlash, absPath, Bool.false_and, if_neg Bool.false_ne_true, List.append_nil,
        List.getLast?_cons_of_ne_nil hjoin]
      simpa using hlast

theorem pathElements_absPath (slash : Bool) : pathElements (absPath names slash) =
    ascii "/" :: (names ++ if slash && !names.isEmpty then [[]] else []) := by
  have habs : isAbsolute (absPath names slash) = true := rfl
  rw [pathElements, habs, if_pos rfl, pathNames_absPath h]
  by_cases hne : names = []
  · subst hne
    simp
  · rw [endsInSlash_absPath h hne]
    rfl

omit h in
theorem joinPath_cons_cons (name next : Bytes) (rest : List Bytes) :
    joinPath (name :: next :: rest) = name ++ chr '/' :: joinPath (next :: rest) := by
  rw [joinPath, List.intercalate_cons_cons, joinPath, List.append_assoc]
  rfl

omit h in
theorem prefix_joinPath (name : Bytes) (rest : List Bytes) : name <+: joinPath (name :: rest) := by
  cases rest with
  | nil => simp [joinPath]
  | cons next rest =>
      rw [joinPath_cons_cons]
      exact List.prefix_append _ _

omit h in
theorem joinPath_concat (hne : names ≠ []) (name : Bytes) :
    joinPath (names ++ [name]) = joinPath names ++ chr '/' :: name := by
  induction names with
  | nil => exact absurd rfl hne
  | cons first names ih =>
      cases names with
      | nil =>
          rw [List.singleton_append, joinPath_cons_cons]
          simp [joinPath]
      | cons next names =>
          have hrest := ih (List.cons_ne_nil next names)
          rw [List.cons_append] at hrest
          rw [List.cons_append, List.cons_append, joinPath_cons_cons, hrest, joinPath_cons_cons,
            List.append_assoc]
          rfl

/-- Names one after the other, perhaps with an empty one at the end. -/
theorem pathNames_joinPath (slash : Bool) :
    pathNames (joinPath (names ++ if slash then [[]] else [])) = names := by
  cases slash with
  | false =>
      rw [if_neg Bool.false_ne_true, List.append_nil]
      exact split_joinPath h
  | true =>
      rw [if_pos rfl]
      by_cases hne : names = []
      · subst hne
        rfl
      · rw [joinPath_concat hne, pathNames, split_append_cons, split_joinPath h]
        simp [split]

end Names

/-- The names an absolute path leads to, by its text alone. -/
def placeNames (path : Bytes) : List Bytes :=
  ((pathNames path).foldl (normalStep true) ([], false)).1.reverse

theorem pathName_normalStep {st : List Bytes × Bool} {name : Bytes}
    (hst : ∀ n ∈ st.1, PathName n) (hne : name ≠ []) (hslash : chr '/' ∉ name) :
    ∀ n ∈ (normalStep true st name).1, PathName n := by
  rw [normalStep]
  split
  · exact hst
  · next hdot =>
    split
    · split
      · exact fun n hn => absurd hn List.not_mem_nil
      · next last rest heq =>
        rw [heq] at hst
        have hlast := (hst last (.head _)).ne_dotdot
        rw [if_neg hlast]
        exact fun n hn => hst n (.tail _ hn)
    · next hdotdot =>
      intro n hn
      rcases List.mem_cons.mp hn with rfl | hn
      · exact ⟨hne, hslash, hdot, hdotdot⟩
      · exact hst n hn

theorem pathName_foldl {names : List Bytes} {st : List Bytes × Bool}
    (hst : ∀ n ∈ st.1, PathName n) (hnames : ∀ n ∈ names, chr '/' ∉ n ∧ n ≠ []) :
    ∀ n ∈ (names.foldl (normalStep true) st).1, PathName n := by
  induction names generalizing st with
  | nil => exact hst
  | cons name names ih =>
      obtain ⟨hslash, hne⟩ := hnames name (.head _)
      exact ih (pathName_normalStep hst hne hslash) fun n hn =>
        hnames n (.tail _ hn)

theorem pathName_placeNames (path : Bytes) : ∀ n ∈ placeNames path, PathName n := by
  intro n hn
  refine pathName_foldl ?_ ?_ n (List.mem_reverse.mp hn)
  · exact fun n hn => absurd hn List.not_mem_nil
  · exact fun n hn => of_mem_split hn

/-- Names in normal form are put on the stack. -/
theorem foldl_normalStep {names : List Bytes} (h : ∀ n ∈ names, PathName n)
    (st : List Bytes × Bool) :
    (names.foldl (normalStep true) st).1 = names.reverse ++ st.1 := by
  induction names generalizing st with
  | nil => rfl
  | cons name names ih =>
      have hname := h name (.head _)
      have hstep : normalStep true st name = (name :: st.1, false) := by
        rw [normalStep, if_neg hname.ne_dot, if_neg hname.ne_dotdot]
      rw [List.foldl_cons, hstep, ih fun n hn => h n (.tail _ hn)]
      simp

theorem placeNames_absPath {names : List Bytes} (h : ∀ n ∈ names, PathName n) (slash : Bool) :
    placeNames (absPath names slash) = names := by
  rw [placeNames, pathNames_absPath h, foldl_normalStep h, List.append_nil, List.reverse_reverse]

/-- The normal form of an absolute path has the names of its place. -/
theorem lexicallyNormal_eq_absPath {path : Bytes} (h : isAbsolute path = true) :
    ∃ slash, lexicallyNormal path = absPath (placeNames path) slash := by
  have hne : path.isEmpty = false := by
    cases path with
    | nil => cases h
    | cons c path => rfl
  have hroot : path.head? = some (chr '/') := beq_iff_eq.mp h
  have hnames := pathName_placeNames path
  rw [lexicallyNormal, if_neg (by simp [hne])]
  simp only [hroot, decide_true, if_true]
  rw [placeNames] at hnames ⊢
  cases hst : ((pathNames path).foldl (normalStep true) ([], false)).1 with
  | nil => exact ⟨false, rfl⟩
  | cons last rest =>
      rw [hst] at hnames
      have hlast : last ≠ dotdot := (hnames last (by simp)).ne_dotdot
      refine ⟨((pathNames path).foldl (normalStep true) ([], false)).2 ||
        (path.getLast? = some (chr '/')), ?_⟩
      simp [absPath, hlast, ascii, chr]

theorem dropCommon_append {α : Type*} [DecidableEq α] (common xs ys : List α) :
    dropCommon (common ++ xs) (common ++ ys) = dropCommon xs ys := by
  induction common with
  | nil => rfl
  | cons c common ih => rw [List.cons_append, List.cons_append, dropCommon, if_pos rfl, ih]

/-- The empty element behind a trailing slash, if there is one. -/
theorem trailing_cases (slash : Bool) (names : List Bytes) :
    (if slash && !names.isEmpty then [([] : Bytes)] else []) = [] ∨
      (if slash && !names.isEmpty then [([] : Bytes)] else []) = [[]] := by
  split
  · exact .inr rfl
  · exact .inl rfl

theorem levels_append {names : List Bytes} (h : ∀ name ∈ names, PathName name)
    {tail : List Bytes} (htail : tail = [] ∨ tail = [[]]) :
    levels (names ++ tail) = names.length := by
  have hloop (n : Int) : (names ++ tail).foldl (fun n e =>
      if e = dotdot then n - 1 else if e = [] ∨ e = dot then n else n + 1) n =
        n + names.length := by
    induction names generalizing n with
    | nil => rcases htail with rfl | rfl <;> simp [dotdot, ascii]
    | cons name names ih =>
        have hname := h name (.head _)
        rw [List.cons_append, List.foldl_cons, if_neg hname.ne_dotdot,
          if_neg (by simp [hname.ne_nil, hname.ne_dot]),
          ih (fun n' hn' => h n' (.tail _ hn')) (n + 1)]
        simp only [List.length_cons]
        omega
  exact (hloop 0).trans (Int.zero_add _)

theorem levels_trailing : levels [] = 0 ∧ levels [[]] = 0 := by decide

section Relative

variable {base : List Bytes} (hbase : ∀ n ∈ base, PathName n)

include hbase

/-- A relative path to something below is what follows the base. -/
theorem lexicallyRelative_below {rel : List Bytes} (hrel : ∀ n ∈ rel, PathName n)
    (slash slash' : Bool) :
    lexicallyRelative (absPath (base ++ rel) slash) (absPath base slash') =
      if rel = [] then dot else joinPath (rel ++ if slash then [[]] else []) := by
  have hboth : ∀ n ∈ base ++ rel, PathName n := fun n hn =>
    (List.mem_append.mp hn).elim (hbase n) (hrel n)
  rw [lexicallyRelative, pathElements_absPath hbase, pathElements_absPath hboth]
  simp only [show isAbsolute (absPath (base ++ rel) slash) = isAbsolute (absPath base slash')
    from rfl, ne_eq, not_true, if_false, List.append_assoc]
  rw [← List.cons_append, ← List.cons_append, dropCommon_append]
  cases rel with
  | nil =>
      rw [List.nil_append, List.append_nil, if_pos rfl]
      rcases trailing_cases slash base with h | h <;>
        rcases trailing_cases slash' base with h' | h' <;> rw [h, h'] <;>
          simp [dropCommon, levels_trailing]
  | cons name rest =>
      have hname := (hrel name (.head _)).ne_nil
      have htail : (base ++ name :: rest).isEmpty = false := by simp
      rw [htail, Bool.not_false, Bool.and_true, if_neg (List.cons_ne_nil name rest)]
      rcases trailing_cases slash' base with h' | h' <;> rw [h'] <;>
        simp [dropCommon, levels_trailing, hname]

/-- Outside of the base its last names are left when the common ones are gone. -/
theorem dropCommon_outside {names tail : List Bytes} (h : ¬ base <+: names)
    (tail' : List Bytes) (htail : tail = [] ∨ tail = [[]]) :
    ∃ left, left ≠ [] ∧ left <:+ base ∧
      (dropCommon (names ++ tail) (base ++ tail')).2 = left ++ tail' := by
  induction base generalizing names with
  | nil => exact absurd List.nil_prefix h
  | cons name base ih =>
      have hname := (hbase name (.head _)).ne_nil
      cases names with
      | nil =>
          refine ⟨name :: base, List.cons_ne_nil _ _, List.suffix_refl _, ?_⟩
          rcases htail with rfl | rfl
          · rfl
          · rw [List.nil_append, List.cons_append, dropCommon, if_neg (Ne.symm hname)]
      | cons name' names =>
          rw [List.cons_append, List.cons_append, dropCommon]
          by_cases heq : name' = name
          · obtain ⟨left, hne, hsuffix, hleft⟩ :=
              ih (fun n hn => hbase n (.tail _ hn)) fun hpre =>
                h (heq ▸ (List.prefix_cons_inj name').mpr hpre)
            rw [if_pos heq]
            exact ⟨left, hne, hsuffix.trans (List.suffix_cons _ _), hleft⟩
          · rw [if_neg heq]
            exact ⟨name :: base, List.cons_ne_nil _ _, List.suffix_refl _, rfl⟩

/-- A relative path to something outside begins with `..`. -/
theorem lexicallyRelative_outside {names : List Bytes} (hnames : ∀ n ∈ names, PathName n)
    (h : ¬ base <+: names) (slash slash' : Bool) :
    dotdot <+: lexicallyRelative (absPath names slash) (absPath base slash') := by
  obtain ⟨left, hne, hsuffix, hleft⟩ := dropCommon_outside hbase h
    (if slash' && !base.isEmpty then [[]] else []) (trailing_cases slash names)
  have hlevels := levels_append (fun n hn => hbase n (hsuffix.subset hn))
    (trailing_cases slash' base)
  rw [lexicallyRelative, pathElements_absPath hbase, pathElements_absPath hnames]
  simp only [show isAbsolute (absPath names slash) = isAbsolute (absPath base slash')
    from rfl, ne_eq, not_true, if_false]
  rw [dropCommon, if_pos rfl, hleft, hlevels]
  obtain ⟨k, hk⟩ := Nat.exists_eq_succ_of_ne_zero (mt List.length_eq_zero_iff.mp hne)
  rw [hk, if_neg (by simp [hne]), if_neg (by omega), if_neg (by omega), Int.toNat_natCast,
    List.replicate_succ, List.cons_append]
  exact prefix_joinPath _ _

end Relative

end Repkgs.Jig
