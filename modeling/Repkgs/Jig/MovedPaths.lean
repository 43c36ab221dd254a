import Repkgs.Jig.AbsolutePaths

/-!
# Where files end up

`FixupContext::Final` takes a path of the staging prefix to the place it will have,
and `OnDisk` takes it back. Both look at the text of the relative path, and a name
that begins with two dots looks to them like a step out of the directory.
-/

namespace Repkgs.Jig

open Lib

theorem mem_foldl_normalStep {rooted : Bool} {names : List Bytes} {st : List Bytes × Bool}
    {n : Bytes} (h : n ∈ (names.foldl (normalStep rooted) st).1) :
    n ∈ names ∨ n ∈ st.1 ∨ n = dotdot := by
  induction names generalizing st with
  | nil => exact .inr (.inl h)
  | cons name names ih =>
      rcases ih h with hn | hn | hn
      · exact .inl (.tail _ hn)
      · rw [normalStep] at hn
        split at hn
        · exact .inr (.inl hn)
        · split at hn
          · split at hn
            · split at hn
              · exact absurd hn List.not_mem_nil
              · exact .inr (.inr (List.mem_singleton.mp hn))
            · next last rest heq =>
              split at hn
              · rcases List.mem_cons.mp hn with rfl | hn
                · exact .inr (.inr rfl)
                · exact .inr (.inl (heq ▸ hn))
              · exact .inr (.inl (heq ▸ List.mem_cons_of_mem last hn))
          · rcases List.mem_cons.mp hn with rfl | hn
            · exact .inl (.head _)
            · exact .inr (.inl hn)
      · exact .inr (.inr hn)

variable {path dir : Bytes} {rel : List Bytes}

theorem isAbsolute_lexicallyNormal (h : isAbsolute path = false) :
    isAbsolute (lexicallyNormal path) = false := by
  have hroot : path.head? ≠ some (chr '/') := by simpa [isAbsolute] using h
  rw [lexicallyNormal]
  split
  · rfl
  · simp only [hroot, decide_false, if_false]
    split
    · rfl
    · next last rest heq =>
      have hstack : ∀ n ∈ (last :: rest).reverse, n ≠ [] ∧ chr '/' ∉ n := by
        intro n hn
        rw [List.mem_reverse, ← heq] at hn
        rcases mem_foldl_normalStep hn with hn | hn | rfl
        · exact (of_mem_split hn).symm
        · exact absurd hn List.not_mem_nil
        · decide
      rw [heq]
      cases hrev : (last :: rest).reverse with
      | nil => simp at hrev
      | cons first others =>
          rw [hrev] at hstack
          obtain ⟨hne, hslash⟩ := hstack first (.head _)
          obtain ⟨c, cs, rfl⟩ := List.exists_cons_of_ne_nil hne
          obtain ⟨more, hmore⟩ := prefix_joinPath (c :: cs) others
          rw [← hmore]
          have hc : c ≠ chr '/' := fun heq => hslash (heq ▸ List.mem_cons_self)
          simpa [isAbsolute] using hc

/-- A directory as the fixup gets it. -/
structure NormalDir (dir : Bytes) : Prop where
  absolute : isAbsolute dir = true
  normal : lexicallyNormal dir = dir

/-- `path` leads to `rel` in a directory. -/
def Inside (dir path : Bytes) (rel : List Bytes) : Prop :=
  isAbsolute path = true ∧ placeNames path = placeNames dir ++ rel

/-- The first name of a relative path looks like a step up. -/
def Dotted (rel : List Bytes) : Prop := ∃ name rest, rel = name :: rest ∧ dotdot <+: name

theorem NormalDir.eq_absPath (h : NormalDir dir) :
    ∃ slash, dir = absPath (placeNames dir) slash := by
  obtain ⟨slash, hslash⟩ := lexicallyNormal_eq_absPath h.absolute
  exact ⟨slash, h.normal.symm.trans hslash⟩

theorem Inside.pathName (h : Inside dir path rel) :
    ∀ n ∈ rel, PathName n := by
  intro n hn
  refine pathName_placeNames path n ?_
  rw [h.2]
  exact List.mem_append_right _ hn

/-- Only a first name that begins with two dots makes a relative path do so. -/
theorem dotdot_prefix_joinPath {name : Bytes} (hname : PathName name) (rest : List Bytes) :
    dotdot <+: joinPath (name :: rest) ↔ dotdot <+: name := by
  constructor
  · intro h
    refine List.prefix_of_prefix_length_le h (prefix_joinPath name rest) ?_
    -- a single character in front of a slash is no pair of dots
    by_contra hlen
    have hlen' : name.length < 2 := Nat.not_le.mp hlen
    match name, hname, hlen' with
    | [c], hname, _ =>
        cases rest with
        | nil =>
            have hle := h.length_le
            simp [joinPath, dotdot, ascii] at hle
        | cons next rest =>
            rw [joinPath_cons_cons] at h
            obtain ⟨more, hmore⟩ := h
            have hsecond := congrArg (·[1]?) hmore
            simp [dotdot, ascii, chr] at hsecond
    | [], hname, _ => exact hname.ne_nil rfl
  · exact fun h => h.trans (prefix_joinPath name rest)

theorem pathNames_appendPath {p q : Bytes} (hq : isAbsolute q = false) :
    pathNames (appendPath p q) = pathNames p ++ pathNames q := by
  rw [appendPath, if_neg (by simp [hq])]
  split
  · next h =>
    rw [Bool.or_eq_true] at h
    rcases h with h | h
    · rw [List.isEmpty_iff.mp h]
      rfl
    · obtain ⟨front, hfront⟩ := List.getLast?_eq_some_iff.mp (beq_iff_eq.mp h)
      have hp : pathNames p = pathNames front := by
        rw [hfront, pathNames, split_append_cons]
        simp [split, pathNames]
      rw [hp, hfront, List.append_assoc]
      exact split_append_cons _ _ _
  · exact split_append_cons _ _ _

/-- A relative path behind a directory in normal form. -/
theorem inside_lexicallyNormal {dir q : Bytes} (hdir : NormalDir dir)
    (hq : isAbsolute q = false)
    (hrel : ∀ st : List Bytes × Bool,
      ((pathNames q).foldl (normalStep true) st).1 = rel.reverse ++ st.1) :
    Inside dir (lexicallyNormal (appendPath dir q)) rel := by
  obtain ⟨slash, hslash⟩ := hdir.eq_absPath
  have habs : isAbsolute (appendPath dir q) = true := by
    rw [appendPath, if_neg (by simp [hq]), hslash]
    split <;> rfl
  have hplace : placeNames (appendPath dir q) = placeNames dir ++ rel := by
    rw [placeNames, pathNames_appendPath hq, List.foldl_append, hrel, placeNames]
    simp
  obtain ⟨slash', hslash'⟩ := lexicallyNormal_eq_absPath habs
  have hnames := pathName_placeNames (appendPath dir q)
  rw [hslash']
  exact ⟨rfl, (placeNames_absPath hnames slash').trans hplace⟩

section Rebase

variable {base target path : Bytes} (hbase : NormalDir base)

include hbase

/-- What `rebase` makes of a path inside the base. -/
theorem relative_inside {rel : List Bytes} (h : Inside base path rel) :
    ∃ slash : Bool, lexicallyRelative (lexicallyNormal path) base =
      if rel = [] then dot else joinPath (rel ++ if slash then [[]] else []) := by
  obtain ⟨slash, hslash⟩ := lexicallyNormal_eq_absPath h.1
  obtain ⟨slash', hslash'⟩ := hbase.eq_absPath
  refine ⟨slash, ?_⟩
  rw [hslash, h.2]
  nth_rewrite 2 [hslash']
  exact lexicallyRelative_below (pathName_placeNames base) h.pathName slash slash'

theorem rebase_dotted {rel : List Bytes} (h : Inside base path rel) (hrel : Dotted rel) :
    rebase base target path = path := by
  obtain ⟨slash, hslash⟩ := relative_inside hbase h
  obtain ⟨name, rest, rfl, hname⟩ := hrel
  rw [if_neg (List.cons_ne_nil name rest), List.cons_append] at hslash
  have hdots := hname.trans (prefix_joinPath name (rest ++ if slash then [[]] else []))
  rw [rebase, hslash]
  exact if_pos (by simp [List.isPrefixOf_iff_prefix.mpr hdots])

theorem rebase_outside (h : ∀ rel, ¬ Inside base path rel) : rebase base target path = path := by
  obtain ⟨slash', hslash'⟩ := hbase.eq_absPath
  by_cases habs : isAbsolute path = true
  · obtain ⟨slash, hslash⟩ := lexicallyNormal_eq_absPath habs
    have hout : ¬ placeNames base <+: placeNames path := by
      rintro ⟨rel, hrel⟩
      exact h rel ⟨habs, hrel.symm⟩
    have hdots := lexicallyRelative_outside (pathName_placeNames base) (pathName_placeNames path)
      hout slash slash'
    rw [← hslash, ← hslash'] at hdots
    rw [rebase]
    exact if_pos (by simp [List.isPrefixOf_iff_prefix.mpr hdots])
  · have hrel := isAbsolute_lexicallyNormal (Bool.eq_false_iff.mpr habs)
    have hnone : lexicallyRelative (lexicallyNormal path) base = [] := by
      rw [lexicallyRelative, if_pos]
      rw [hrel, hbase.absolute]
      decide
    rw [rebase, hnone]
    rfl

/-- A path inside the base is moved to the target. -/
theorem rebase_inside (htarget : NormalDir target) {rel : List Bytes} (h : Inside base path rel)
    (hrel : ¬ Dotted rel) : Inside target (rebase base target path) rel := by
  obtain ⟨slash, hslash⟩ := relative_inside hbase h
  cases rel with
  | nil =>
      rw [if_pos rfl] at hslash
      have hmoved : rebase base target path = lexicallyNormal (appendPath target dot) := by
        rw [rebase, hslash]
        rfl
      rw [hmoved]
      exact inside_lexicallyNormal htarget rfl fun st => rfl
  | cons name rest =>
      have hname := h.pathName name (.head _)
      rw [if_neg (List.cons_ne_nil name rest), List.cons_append] at hslash
      obtain ⟨c, cs, rfl⟩ := List.exists_cons_of_ne_nil hname.ne_nil
      obtain ⟨more, hmore⟩ := prefix_joinPath (c :: cs) (rest ++ if slash then [[]] else [])
      have hdots : ¬ dotdot <+: joinPath ((c :: cs) :: (rest ++ if slash then [[]] else [])) :=
        fun hpre => hrel ⟨_, rest, rfl, (dotdot_prefix_joinPath hname _).mp hpre⟩
      have hmoved : rebase base target path = lexicallyNormal (appendPath target
          (joinPath ((c :: cs) :: (rest ++ if slash then [[]] else [])))) := by
        rw [rebase, hslash]
        refine if_neg ?_
        rw [← hmore] at hdots ⊢
        simpa [List.isPrefixOf_iff_prefix] using hdots
      rw [hmoved]
      refine inside_lexicallyNormal htarget ?_ ?_
      · have hc : c ≠ chr '/' := fun heq => hname.slash (heq ▸ List.mem_cons_self)
        rw [← hmore]
        simpa [isAbsolute] using hc
      · intro st
        rw [← List.cons_append, pathNames_joinPath h.pathName, foldl_normalStep h.pathName]

end Rebase

/-- What `Final` and `OnDisk` are to do with a path: what is in the directory of one goes to the
other directory and comes back, and all else stays. -/
structure FixupContext.Moves (ctx : FixupContext) (path : Bytes) : Prop where
  final : ∀ rel, Inside ctx.prefixDir path rel → Inside ctx.dest (ctx.final path) rel ∧
    Inside ctx.prefixDir (ctx.onDisk (ctx.final path)) rel
  onDisk : ∀ rel, Inside ctx.dest path rel → Inside ctx.prefixDir (ctx.onDisk path) rel ∧
    Inside ctx.dest (ctx.final (ctx.onDisk path)) rel
  final_outside : (∀ rel, ¬ Inside ctx.prefixDir path rel) → ctx.final path = path
  onDisk_outside : (∀ rel, ¬ Inside ctx.dest path rel) → ctx.onDisk path = path

theorem Inside.of_place_eq {dir dir' path : Bytes} (h : placeNames dir = placeNames dir') :
    Inside dir path rel ↔ Inside dir' path rel := by
  rw [Inside, Inside, h]

/-- A path cannot be at the same relative path in two directories. -/
theorem Inside.place_eq {dir dir' path : Bytes} (h : Inside dir path rel)
    (h' : Inside dir' path rel) : placeNames dir = placeNames dir' :=
  List.append_cancel_right (h.2.symm.trans h'.2)

/-- When both directories are one, paths stay where they are. -/
theorem rebase_same {base target path : Bytes} (hbase : NormalDir base) (htarget : NormalDir target)
    (heq : placeNames base = placeNames target) (h : Inside base path rel) :
    Inside base (rebase base target path) rel := by
  by_cases hrel : Dotted rel
  · rwa [rebase_dotted hbase h hrel]
  · exact (Inside.of_place_eq heq).mpr (rebase_inside hbase htarget h hrel)

/-- `Final` and `OnDisk` are inverse for all paths whose first name in the directory does not
begin with two dots. -/
theorem FixupContext.moves_iff {ctx : FixupContext} (hbase : NormalDir ctx.prefixDir)
    (hdest : NormalDir ctx.dest) (path : Bytes) :
    ctx.Moves path ↔ placeNames ctx.prefixDir = placeNames ctx.dest ∨
      ∀ rel, Inside ctx.prefixDir path rel ∨ Inside ctx.dest path rel → ¬ Dotted rel := by
  constructor
  · intro h
    by_cases heq : placeNames ctx.prefixDir = placeNames ctx.dest
    · exact .inl heq
    · refine .inr fun rel hin hrel => heq ?_
      rcases hin with hin | hin
      · have hmoved := (h.final rel hin).1
        rw [FixupContext.final, rebase_dotted hbase hin hrel] at hmoved
        exact hin.place_eq hmoved
      · have hmoved := (h.onDisk rel hin).1
        rw [FixupContext.onDisk, rebase_dotted hdest hin hrel] at hmoved
        exact hmoved.place_eq hin
  · rintro (heq | hdots)
    · refine ⟨fun rel hin => ?_, fun rel hin => ?_, rebase_outside hbase, rebase_outside hdest⟩
      · have hfinal := rebase_same hbase hdest heq hin
        have hback := rebase_same hdest hbase heq.symm ((Inside.of_place_eq heq).mp hfinal)
        exact ⟨(Inside.of_place_eq heq).mp hfinal, (Inside.of_place_eq heq).mpr hback⟩
      · have hback := rebase_same hdest hbase heq.symm hin
        have hfinal := rebase_same hbase hdest heq ((Inside.of_place_eq heq).mpr hback)
        exact ⟨(Inside.of_place_eq heq).mpr hback, (Inside.of_place_eq heq).mp hfinal⟩
    · refine ⟨fun rel hin => ?_, fun rel hin => ?_, rebase_outside hbase, rebase_outside hdest⟩
      · have hrel := hdots rel (.inl hin)
        have hfinal := rebase_inside hbase hdest hin hrel
        exact ⟨hfinal, rebase_inside hdest hbase hfinal hrel⟩
      · have hrel := hdots rel (.inr hin)
        have hback := rebase_inside hdest hbase hin hrel
        exact ⟨hback, rebase_inside hbase hdest hback hrel⟩

/-- A package that is built in `/p` for `/d`. -/
def Sample.moving : FixupContext := ⟨ascii "/p", ascii "/d", [], []⟩

theorem moves_iff_lib :
    Sample.moving.Moves (ascii "/p/./lib/../lib64//x.so") ∧
    Sample.moving.final (ascii "/p/./lib/../lib64//x.so") = ascii "/d/lib64/x.so" := by
  refine ⟨(FixupContext.moves_iff ⟨rfl, by decide⟩ ⟨rfl, by decide⟩ _).mpr (.inr ?_), by decide⟩
  have hpath : placeNames (ascii "/p/./lib/../lib64//x.so") =
      [ascii "p"] ++ [ascii "lib64", ascii "x.so"] := by decide
  have hprefix : placeNames Sample.moving.prefixDir = [ascii "p"] := by decide
  have hdest : placeNames Sample.moving.dest = [ascii "d"] := by decide
  rintro rel (⟨-, hin⟩ | ⟨-, hin⟩)
  · rw [hpath, hprefix] at hin
    rw [← List.append_cancel_left hin]
    rintro ⟨name, rest, heq, hname⟩
    rw [← (List.cons.inj heq).1] at hname
    exact absurd hname (by decide)
  · rw [hpath, hdest] at hin
    exact absurd (List.cons.inj hin).1 (by decide)

/-- Names that begin with two dots, as the ones of mounted configuration do, stay behind. -/
theorem dotted_name_stays :
    Inside (ascii "/p") (ascii "/p/..data/conf") [ascii "..data", ascii "conf"] ∧
    Sample.moving.final (ascii "/p/..data/conf") = ascii "/p/..data/conf" ∧
    ¬ Sample.moving.Moves (ascii "/p/..data/conf") := by
  have hin : Inside (ascii "/p") (ascii "/p/..data/conf") [ascii "..data", ascii "conf"] :=
    ⟨rfl, by decide⟩
  have hstays : Sample.moving.final (ascii "/p/..data/conf") = ascii "/p/..data/conf" := by decide
  refine ⟨hin, hstays, fun h => ?_⟩
  have hmoved := (h.final _ hin).1
  rw [hstays] at hmoved
  exact absurd (hin.place_eq hmoved) (by decide)

end Repkgs.Jig
