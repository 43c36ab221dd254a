import Repkgs.Jig.Store

/-!
# Paths of a tree that moves

`RelativeTo` and `FixupContext::Final` and `OnDisk` of `fixup_mode.cc`, over the
lexical operations of `std::filesystem::path` on POSIX.
-/

namespace Repkgs.Jig

open Lib

/-- `path::is_absolute`. -/
def isAbsolute (path : Bytes) : Bool := path.head? == some (chr '/')

def endsInSlash (path : Bytes) : Bool := path.getLast? == some (chr '/')

/-- `p / q`. -/
def appendPath (p q : Bytes) : Bytes :=
  if isAbsolute q then q
  else if p.isEmpty || endsInSlash p then p ++ q
  else p ++ chr '/' :: q

/-- What iterating over a path yields: the root, the names, and an empty element
behind a trailing slash. -/
def pathElements (path : Bytes) : List Bytes :=
  (if isAbsolute path then [ascii "/"] else []) ++ pathNames path ++
    if endsInSlash path && !(pathNames path).isEmpty then [[]] else []

/-- Both lists without their common beginning. -/
def dropCommon {α : Type*} [DecidableEq α] : List α → List α → List α × List α
  | x :: xs, y :: ys => if x = y then dropCommon xs ys else (x :: xs, y :: ys)
  | xs, ys => (xs, ys)

/-- The levels that the rest of a base goes down: names count, `..` counts back. -/
def levels (elements : List Bytes) : Int :=
  elements.foldl (fun n e =>
    if e = dotdot then n - 1 else if e = [] ∨ e = dot then n else n + 1) 0

/-- `path::lexically_relative`. -/
def lexicallyRelative (path base : Bytes) : Bytes :=
  if isAbsolute path ≠ isAbsolute base then []
  else
    let (a, b) := dropCommon (pathElements path) (pathElements base)
    let n := levels b
    if a = [] ∧ b = [] then dot
    else if n = 0 ∧ (a = [] ∨ a.head? = some []) then dot
    else if n < 0 then []
    else joinPath (List.replicate n.toNat dotdot ++ a)

example : lexicallyRelative (ascii "/a/d") (ascii "/a/b/c") = ascii "../../d" := by decide

example : lexicallyRelative (ascii "/a/") (ascii "/a") = dot := by decide

/-- The parts of `FixupContext` that the rewriting of a binary reads. `prefixDir` is
where the tree is, `dest` where it ends up. -/
structure FixupContext where
  prefixDir : Bytes
  dest : Bytes
  ownLibDirs : List Bytes
  sdk : Bytes

/-- `path` below `base`, taken to `target`. -/
def rebase (base target path : Bytes) : Bytes :=
  let rel := lexicallyRelative (lexicallyNormal path) base
  if rel.isEmpty || dotdot.isPrefixOf rel then path
  else lexicallyNormal (appendPath target rel)

namespace FixupContext

/-- `FixupContext::Final`. -/
def final (ctx : FixupContext) (path : Bytes) : Bytes := rebase ctx.prefixDir ctx.dest path

/-- `FixupContext::OnDisk`. -/
def onDisk (ctx : FixupContext) (path : Bytes) : Bytes := rebase ctx.dest ctx.prefixDir path

end FixupContext

/-- `RelativeTo`. -/
def relativeTo (dir target anchor : Bytes) : Bytes :=
  let rel := lexicallyRelative (lexicallyNormal target) dir
  if anchor.isEmpty then rel
  else if rel = dot then anchor
  else anchor ++ chr '/' :: rel

section Bytes

variable {P : Byte → Prop}

variable {names : List Bytes} {path : Bytes}

theorem forall_mem_intercalate {sep : Bytes} (hsep : ∀ c ∈ sep, P c) :
    (∀ c ∈ sep.intercalate names, P c) ↔ ∀ name ∈ names, ∀ c ∈ name, P c := by
  induction names with
  | nil => simp
  | cons name names ih =>
      cases names with
      | nil => simp
      | cons next names =>
          rw [List.intercalate_cons_cons, List.forall_mem_append, List.forall_mem_append, ih,
            List.forall_mem_cons (l := next :: names)]
          exact and_congr_left fun _ => and_iff_left hsep

theorem forall_mem_pathNames (hslash : P (chr '/')) (h : ∀ c ∈ path, P c) :
    ∀ name ∈ pathNames path, ∀ c ∈ name, P c := by
  intro name hname
  have hjoin : [chr '/'].intercalate (path.splitOn (chr '/')) = path :=
    List.intercalate_splitOn (chr '/')
  rw [← hjoin] at h
  exact (forall_mem_intercalate (by simpa using hslash)).mp h name (List.mem_filter.mp hname).1

theorem forall_mem_joinPath (hslash : P (chr '/')) (h : ∀ name ∈ names, ∀ c ∈ name, P c) :
    ∀ c ∈ joinPath names, P c := by
  refine (forall_mem_intercalate ?_).mpr h
  exact List.forall_mem_singleton.mpr hslash

theorem forall_mem_dotdot (hdot : P (chr '.')) : ∀ c ∈ dotdot, P c :=
  List.forall_mem_cons.mpr ⟨hdot, List.forall_mem_singleton.mpr hdot⟩

theorem forall_mem_normalStep (hdot : P (chr '.')) (rooted : Bool) {st : List Bytes × Bool}
    {name : Bytes} (hst : ∀ n ∈ st.1, ∀ c ∈ n, P c) (hname : ∀ c ∈ name, P c) :
    ∀ n ∈ (normalStep rooted st name).1, ∀ c ∈ n, P c := by
  have hdots := forall_mem_dotdot hdot
  obtain ⟨names, tail⟩ := st
  rw [normalStep]
  split
  · exact hst
  · split
    · split
      · split
        · exact fun _ hn => absurd hn (List.not_mem_nil)
        · exact List.forall_mem_singleton.mpr hdots
      · next last rest heq =>
        dsimp only at hst heq
        rw [heq, List.forall_mem_cons] at hst
        split
        · exact List.forall_mem_cons.mpr ⟨hdots, List.forall_mem_cons.mpr hst⟩
        · exact hst.2
    · exact List.forall_mem_cons.mpr ⟨hname, hst⟩

theorem forall_mem_foldl_normalStep (hdot : P (chr '.')) (rooted : Bool) (st : List Bytes × Bool)
    (hst : ∀ n ∈ st.1, ∀ c ∈ n, P c) (hnames : ∀ n ∈ names, ∀ c ∈ n, P c) :
    ∀ n ∈ (names.foldl (normalStep rooted) st).1, ∀ c ∈ n, P c := by
  induction names generalizing st with
  | nil => exact hst
  | cons name names ih =>
      rw [List.forall_mem_cons] at hnames
      exact ih _ (forall_mem_normalStep hdot rooted hst hnames.1) hnames.2

theorem forall_mem_lexicallyNormal (hslash : P (chr '/')) (hdot : P (chr '.'))
    (h : ∀ c ∈ path, P c) : ∀ c ∈ lexicallyNormal path, P c := by
  have hnames := forall_mem_foldl_normalStep hdot (path.head? = some (chr '/'))
    ([], false) (fun _ hn => absurd hn (List.not_mem_nil))
    (forall_mem_pathNames hslash h)
  have hroot : ∀ c ∈ ascii "/", P c := List.forall_mem_singleton.mpr hslash
  rw [lexicallyNormal]
  split
  · exact fun _ hc => absurd hc (List.not_mem_nil)
  · dsimp only
    split
    · split
      · exact hroot
      · exact List.forall_mem_singleton.mpr hdot
    · next last rest heq =>
      rw [heq] at hnames
      rw [List.forall_mem_append, List.forall_mem_append]
      refine ⟨⟨?_, forall_mem_joinPath hslash ?_⟩, ?_⟩
      · split
        · exact hroot
        · exact fun _ hc => absurd hc (List.not_mem_nil)
      · rw [heq]
        exact fun n hn => hnames n (List.mem_reverse.mp hn)
      · split
        · exact hroot
        · exact fun _ hc => absurd hc (List.not_mem_nil)

theorem forall_mem_appendPath (hslash : P (chr '/')) {p q : Bytes} (hp : ∀ c ∈ p, P c)
    (hq : ∀ c ∈ q, P c) : ∀ c ∈ appendPath p q, P c := by
  rw [appendPath]
  split_ifs
  · exact hq
  · exact List.forall_mem_append.mpr ⟨hp, hq⟩
  · exact List.forall_mem_append.mpr ⟨hp, List.forall_mem_cons.mpr ⟨hslash, hq⟩⟩

theorem dropCommon_suffix {α : Type*} [DecidableEq α] (xs ys : List α) :
    (dropCommon xs ys).1 <:+ xs := by
  induction xs generalizing ys with
  | nil => simp [dropCommon]
  | cons x xs ih =>
      cases ys with
      | nil => exact List.suffix_refl _
      | cons y ys =>
          rw [dropCommon]
          split_ifs
          · exact (ih ys).trans (List.suffix_cons x xs)
          · exact List.suffix_refl _

theorem forall_mem_lexicallyRelative (hslash : P (chr '/')) (hdot : P (chr '.'))
    (h : ∀ c ∈ path, P c) (base : Bytes) : ∀ c ∈ lexicallyRelative path base, P c := by
  have hnil : ∀ c ∈ ([] : Bytes), P c := fun _ hc => absurd hc (List.not_mem_nil)
  have hdotpath : ∀ c ∈ dot, P c := List.forall_mem_singleton.mpr hdot
  rw [lexicallyRelative]
  split
  · exact hnil
  · dsimp only
    split_ifs
    · exact hdotpath
    · exact hdotpath
    · exact hnil
    · apply forall_mem_joinPath hslash
      rw [List.forall_mem_append]
      constructor
      · intro n hn
        rw [List.eq_of_mem_replicate hn]
        exact forall_mem_dotdot hdot
      · intro n hn
        have hmem := (dropCommon_suffix (pathElements path) (pathElements base)).subset hn
        rw [pathElements, List.mem_append, List.mem_append] at hmem
        rcases hmem with (hroot | hname) | hlast
        · split_ifs at hroot
          · rw [List.mem_singleton.mp hroot]
            exact List.forall_mem_singleton.mpr hslash
          · exact absurd hroot (List.not_mem_nil)
        · exact forall_mem_pathNames hslash h n hname
        · split_ifs at hlast
          · rw [List.mem_singleton.mp hlast]
            exact hnil
          · exact absurd hlast (List.not_mem_nil)

theorem forall_mem_rebase (hslash : P (chr '/')) (hdot : P (chr '.')) {base target path : Bytes}
    (htarget : ∀ c ∈ target, P c) (h : ∀ c ∈ path, P c) : ∀ c ∈ rebase base target path, P c := by
  rw [rebase]
  split_ifs
  · exact h
  · exact forall_mem_lexicallyNormal hslash hdot (forall_mem_appendPath hslash htarget
      (forall_mem_lexicallyRelative hslash hdot (forall_mem_lexicallyNormal hslash hdot h) base))

theorem forall_mem_relativeTo (hslash : P (chr '/')) (hdot : P (chr '.'))
    {dir target anchor : Bytes} (htarget : ∀ c ∈ target, P c) (hanchor : ∀ c ∈ anchor, P c) :
    ∀ c ∈ relativeTo dir target anchor, P c := by
  have hrel := forall_mem_lexicallyRelative hslash hdot
    (forall_mem_lexicallyNormal hslash hdot htarget) dir
  rw [relativeTo]
  split_ifs
  · exact hrel
  · exact hanchor
  · exact List.forall_mem_append.mpr ⟨hanchor, List.forall_mem_cons.mpr ⟨hslash, hrel⟩⟩

end Bytes

end Repkgs.Jig
