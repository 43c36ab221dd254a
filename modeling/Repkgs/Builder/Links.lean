import Repkgs.Jig.Paths
import Repkgs.Lib.Failing
import Repkgs.Lib.Lexical
import Repkgs.Lib.Tsv

/-!
# Links of an installed tree

A package is installed into a staging prefix and then moved to its place in the
store. `relativize-links` of `finish.nu` replaces absolute links by relative ones
that lead to the same place after the move, and refuses links that leave the store
or lead nowhere.
-/

namespace Repkgs.Builder

open Lib Jig

/-- Three and more dots, which Nushell takes for parents of parents. -/
def isNdots (name : Bytes) : Bool := 3 ≤ name.length && name.all (· == chr '.')

def expandNdots (names : List Bytes) : List Bytes :=
  names.flatMap fun n => if isNdots n then List.replicate (n.length - 1) dotdot else [n]

/-- `path split` of an absolute path, without the root. -/
def pathSplit (path : Bytes) : List Bytes := (pathNames path).filter (· ≠ dot)

/-- Names behind slashes. -/
def slashed (names : List Bytes) : Bytes := names.flatMap (chr '/' :: ·)

def absolute (names : List Bytes) : Bytes := if names = [] then ascii "/" else slashed names

/-- The place an absolute path names for Nushell. -/
def placeOf (path : Bytes) : List Bytes := follow dotdot [] (expandNdots (pathSplit path))

/-- `path expand -n` of an absolute path; a slash at the end stays. -/
def pathExpand (path : Bytes) : Bytes :=
  absolute (placeOf path) ++
    if path.getLast? = some (chr '/') ∧ placeOf path ≠ [] then ascii "/" else []

/-- `path relative-to`, of a path below `base`. -/
def pathRelativeTo (path base : Bytes) : Bytes :=
  joinPath ((expandNdots (pathSplit path)).drop (pathSplit base).length)

def startsWith (front text : Bytes) : Bool := front.isPrefixOf text

/-- `path join`, where the directory does not end in a slash. -/
def pathJoin (dir path : Bytes) : Bytes :=
  if startsWith (ascii "/") path then path else dir ++ ascii "/" ++ path

/-- The name of a file, other than dots. -/
def IsName (name : Bytes) : Prop := chr '/' ∉ name ∧ ∃ b ∈ name, b ≠ chr '.'

/-- A directory other than the root, in its normal form. -/
structure Place where
  names : List Bytes
  ne_nil : names ≠ []
  isName : ∀ n ∈ names, IsName n

def Place.text (p : Place) : Bytes := absolute p.names

/-- What stands between slashes, other than a dot. -/
def IsStep (name : Bytes) : Prop := name ≠ [] ∧ chr '/' ∉ name ∧ name ≠ dot

/-- A link at `dirs/base` below the prefix. -/
structure Link where
  dirs : List Bytes
  base : Bytes
  target : Bytes
  isStep : ∀ n ∈ dirs ++ [base], IsStep n ∧ n ≠ dotdot

def Link.rel (l : Link) : Bytes := joinPath (l.dirs ++ [l.base])

/-- Tab-separated values: a line ends with a line feed or a carriage return. -/
def tsv : Dialect Byte where
  delimiter := chr '\t'
  quote := chr '"'
  isEnd c := c = chr '\n' || c = chr '\r'
  eol := chr '\n'
  isEnd_delimiter := by decide
  isEnd_eol := by decide
  delimiter_ne_quote := by decide
  eol_ne_quote := by decide

/-- What `find` prints about the links. -/
def listing (links : List Link) : Bytes := links.flatMap fun l => tsv.line (l.rel, l.target)

def byteOrderMark : Bytes := [0xef, 0xbb, 0xbf]

/-- The staging prefix, the place in the store to which it will be moved, and which paths
exist before. The place in the store is new. `ln` may take a target that begins with a dash
for options, and Nushell takes some bytes for text. -/
structure Staging where
  stage : Place
  store : Place
  dest : Place
  name : Bytes
  dest_names : dest.names = store.names ++ [name]
  pathExists : List Bytes → Bool
  dest_new : ∀ below, pathExists (dest.names ++ below) = false
  outside : ¬ stage.names <+: store.names ∧ ¬ store.names <+: stage.names
  lnAccepts : Bytes → Bool
  isText : Bytes → Bool

/-- A word that a program takes for options. -/
def isOption (word : Bytes) : Bool := startsWith (ascii "-") word && word ≠ ascii "-"

/-- `ln -sfn` over a link to `old`: where the link leads then. -/
def Staging.ln (s : Staging) (target old : Bytes) : Option Bytes :=
  if target = [] then none
  else if isOption target then if s.lnAccepts target then some old else none
  else some target

/-- The texts are `symlink (rel) -> (target) leaves the store`, `symlink (rel) -> (target)
dangles` and that of `ln`. -/
inductive LinkError
  | leavesStore (rel target : Bytes)
  | dangles (rel target : Bytes)
  | lnFailed (rel : Bytes)
  | notText
  | unequalLengths
  | columnNotFound
  deriving DecidableEq

/-- `from tsv --noheaders --no-infer | rename rel target`, and the two columns of its rows. -/
def fromTsv (text : Bytes) : Except LinkError (List (Bytes × Bytes)) :=
  let rows := tsv.records (if byteOrderMark.isPrefixOf text then text.drop 3 else text)
  if ∀ row ∈ rows, row.length = (rows.headD []).length then
    rows.mapM fun
      | rel :: target :: _ => .ok (rel, target)
      | _ => .error .columnNotFound
  else .error .unequalLengths

/-- The relative target of a link at `source` to `destination`. -/
def relativeLink (source destination : Bytes) : Bytes :=
  joinPath (relative dotdot (pathSplit source).dropLast (pathSplit destination))

namespace Staging

variable (s : Staging)

/-- Where a link will be. -/
def final (rel : Bytes) : Bytes := s.dest.text ++ ascii "/" ++ rel

/-- Where a link points once the tree is in its place. -/
def target (rel target : Bytes) : Bytes :=
  if startsWith (s.stage.text ++ ascii "/") target then
    s.dest.text ++ ascii "/" ++ pathRelativeTo target s.stage.text
  else pathExpand (pathJoin (parentPath (s.final rel)) target)

/-- The same place as long as the tree is in the prefix. -/
def here (target : Bytes) : Bytes :=
  if startsWith (s.dest.text ++ ascii "/") target then
    s.stage.text ++ ascii "/" ++ pathRelativeTo target s.dest.text
  else target

/-- One round of `relativize-links`: the target of the link afterwards. -/
def relativizeLink (rel target : Bytes) : Except LinkError Bytes :=
  if startsWith (s.store.text ++ ascii "/") (s.target rel target) then
    (if startsWith (ascii "/") target then
      match s.ln (relativeLink (s.final rel) (s.target rel target)) target with
      | none => .error (.lnFailed rel)
      | some text => .ok text
    else .ok target) >>= fun text =>
      if s.pathExists (placeOf (s.here (s.target rel target))) then .ok text
      else .error (.dangles rel target)
  else .error (.leavesStore rel target)

def relativizeLinks (links : List Link) : Except LinkError (List Bytes) :=
  if s.isText (listing links) then
    fromTsv (listing links) >>= fun rows => rows.mapM fun row => s.relativizeLink row.1 row.2
  else .error .notText

/-- A place in the prefix is read as the same place in the store. -/
def reroot (place : List Bytes) : List Bytes :=
  if s.stage.names.isPrefixOf place then s.dest.names ++ place.drop s.stage.names.length
  else place

/-- The place a link names once the prefix is read as the place in the store. -/
def named (l : Link) : List Bytes :=
  if startsWith (ascii "/") l.target then s.reroot (follow dotdot [] (pathSplit l.target))
  else follow dotdot (s.dest.names ++ l.dirs) (pathSplit l.target)

/-- A place that exists, in the staged tree or elsewhere in the store. -/
def Exists (place : List Bytes) : Prop :=
  if s.dest.names.isPrefixOf place then
    s.pathExists (s.stage.names ++ place.drop s.dest.names.length) = true
  else s.store.names <+: place ∧ place ≠ s.store.names ∧ s.pathExists place = true

def PointsAtExisting (l : Link) : Prop := s.Exists (s.named l)

/-- The new target is relative and names the place that the old one named. -/
def Survives (l : Link) (text : Bytes) : Prop :=
  text ≠ [] ∧ startsWith (ascii "/") text = false ∧
    follow dotdot (s.dest.names ++ l.dirs) (pathSplit text) = s.named l

/-- What `ln` gets if the link is absolute. -/
def relativeText (l : Link) : Bytes := relativeLink (s.final l.rel) (s.target l.rel l.target)

/-- The target of the link is in the store and there is something. -/
def Passes (l : Link) : Prop :=
  startsWith (s.store.text ++ ascii "/") (s.target l.rel l.target) = true ∧
    s.pathExists (placeOf (s.here (s.target l.rel l.target))) = true

/-- The links of a package: into the prefix, into the store, or relative. -/
def OfPackage (l : Link) : Prop :=
  l.target ≠ [] ∧ (startsWith (ascii "/") l.target = true →
    s.stage.names <+: follow dotdot [] (pathSplit l.target) ∨
      s.store.names <+: follow dotdot [] (pathSplit l.target) ∧
        follow dotdot [] (pathSplit l.target) ≠ s.store.names)

/-- An absolute link that goes wrong: into the prefix, but not written with the prefix and a
slash in front; written so, but up and out of it with `..`, where the names behind the prefix
lead elsewhere from the place in the store, or to that place; or one for which `ln` gets no
target or an option. -/
def MisreadAbsolute (l : Link) : Prop :=
  startsWith (s.stage.text ++ ascii "/") l.target = false ∧
      s.stage.names <+: follow dotdot [] (pathSplit l.target) ∨
    startsWith (s.stage.text ++ ascii "/") l.target = true ∧
      (follow dotdot s.dest.names ((pathSplit l.target).drop s.stage.names.length) ≠ s.named l ∨
        s.dest.names <+: follow dotdot [] (pathSplit l.target)) ∨
    s.relativeText l = [] ∨ isOption (s.relativeText l) = true

/-- The links that go wrong: some absolute ones, and those to the root of the package,
unless they begin with the prefix or end in a slash. -/
def Misread (l : Link) : Prop :=
  startsWith (ascii "/") l.target = true ∧ s.MisreadAbsolute l ∨
    startsWith (s.stage.text ++ ascii "/") l.target = false ∧ s.named l = s.dest.names ∧
      l.target.getLast? ≠ some (chr '/')

end Staging

/-- A link that is listed as it is and whose target has no name of three and more dots. Nor
has the directory from which a relative target leads. -/
structure Link.Plain (l : Link) : Prop where
  rel : tsv.Plain l.rel
  target : tsv.Plain l.target
  dirs_names : startsWith (ascii "/") l.target = false → ∀ n ∈ l.dirs, isNdots n = false
  target_names : ∀ n ∈ pathNames l.target, isNdots n = false

/-- The listing is text, and not one that begins with a byte order mark. -/
def Staging.Lists (s : Staging) (links : List Link) : Prop :=
  s.isText (listing links) = true ∧ byteOrderMark.isPrefixOf (listing links) = false

variable {name : Bytes} {names : List Bytes}

theorem isName_iff :
    IsName name ↔ IsStep name ∧ name ≠ dotdot ∧ isNdots name = false := by
  have hdots : (∃ b ∈ name, b ≠ chr '.') ↔ name.all (· == chr '.') = false := by
    rw [Bool.eq_false_iff, ne_eq, List.all_eq_true]
    simp
  rw [IsName, hdots]
  constructor
  · rintro ⟨hslash, hall⟩
    have hne (other : Bytes) (h : other.all (· == chr '.') = true) : name ≠ other := by
      rintro rfl
      rw [h] at hall
      cases hall
    exact ⟨⟨hne [] rfl, hslash, hne dot (by decide)⟩, hne dotdot (by decide),
      by rw [isNdots, hall, Bool.and_false]⟩
  · rintro ⟨⟨hne, hslash, hdot⟩, hdotdot, hndots⟩
    refine ⟨hslash, ?_⟩
    by_contra hall
    rw [Bool.not_eq_false] at hall
    rw [isNdots, hall, Bool.and_true, decide_eq_false_iff_not] at hndots
    -- at most two dots are left
    match name, hall, hndots with
    | [], _, _ => exact hne rfl
    | [a], hall, _ =>
        simp only [List.all_cons, List.all_nil, Bool.and_true, beq_iff_eq] at hall
        subst hall
        exact hdot rfl
    | [a, b], hall, _ =>
        simp only [List.all_cons, List.all_nil, Bool.and_true, Bool.and_eq_true,
          beq_iff_eq] at hall
        obtain ⟨rfl, rfl⟩ := hall
        exact hdotdot rfl
    | _ :: _ :: _ :: _, _, hlen => simp at hlen

theorem IsName.isStep (h : IsName name) : IsStep name := (isName_iff.mp h).1

theorem isStep_dotdot : IsStep dotdot := ⟨by decide, by decide, by decide⟩

theorem isStep_of_mem_pathSplit {path name : Bytes} (h : name ∈ pathSplit path) : IsStep name := by
  rw [pathSplit, List.mem_filter] at h
  obtain ⟨hslash, hne⟩ := of_mem_split h.1
  exact ⟨hne, hslash, by simpa using h.2⟩

theorem pathNames_slash (front back : Bytes) :
    pathNames (front ++ ascii "/" ++ back) = pathNames front ++ pathNames back := by
  rw [List.append_assoc]
  exact split_append_cons _ _ _

theorem pathSplit_slash (front back : Bytes) :
    pathSplit (front ++ ascii "/" ++ back) = pathSplit front ++ pathSplit back := by
  rw [pathSplit, pathNames_slash, List.filter_append]
  rfl

theorem slashed_append (a b : List Bytes) : slashed (a ++ b) = slashed a ++ slashed b :=
  List.flatMap_append

theorem slashed_cons (n : Bytes) (names : List Bytes) :
    slashed (n :: names) = ascii "/" ++ (n ++ slashed names) :=
  List.flatMap_cons

theorem joinPath_cons (n : Bytes) (names : List Bytes) :
    joinPath (n :: names) = n ++ slashed names := by
  induction names generalizing n with
  | nil => simp [joinPath, slashed]
  | cons m names ih =>
      have hjoin : joinPath (n :: m :: names) = n ++ (ascii "/" ++ joinPath (m :: names)) := by
        simp [joinPath, List.intercalate]
      rw [hjoin, ih, slashed_cons]

theorem slash_joinPath (h : names ≠ []) :
    ascii "/" ++ joinPath names = slashed names := by
  obtain ⟨n, names, rfl⟩ := List.exists_cons_of_ne_nil h
  rw [joinPath_cons, slashed_cons]

theorem pathNames_append_slashed {n : Bytes} (hn : IsStep n) (h : ∀ n ∈ names, IsStep n) :
    pathNames (n ++ slashed names) = n :: names := by
  induction names generalizing n with
  | nil =>
      rw [slashed, List.flatMap_nil, List.append_nil]
      exact split_eq_singleton hn.2.1 hn.1
  | cons m names ih =>
      obtain ⟨hm, hnames⟩ := List.forall_mem_cons.mp h
      have hsingle : pathNames n = [n] := split_eq_singleton hn.2.1 hn.1
      rw [slashed_cons, ← List.append_assoc, pathNames_slash, ih hm hnames, hsingle,
        List.singleton_append]

theorem filter_dot (h : ∀ n ∈ names, IsStep n) :
    names.filter (· ≠ dot) = names :=
  List.filter_eq_self.mpr fun n hn => by simpa using (h n hn).2.2

/-- The names of a path that was put together from them. -/
theorem pathSplit_joinPath {names : List Bytes} (h : ∀ n ∈ names, IsStep n) :
    pathSplit (joinPath names) = names := by
  cases names with
  | nil => rfl
  | cons n names =>
      obtain ⟨hn, hnames⟩ := List.forall_mem_cons.mp h
      rw [joinPath_cons, pathSplit, pathNames_append_slashed hn hnames, filter_dot h]

theorem pathSplit_slashed (h : ∀ n ∈ names, IsStep n) :
    pathSplit (slashed names) = names := by
  cases names with
  | nil => rfl
  | cons n names =>
      have hslash := pathSplit_slash [] (joinPath (n :: names))
      rw [List.nil_append, slash_joinPath (List.cons_ne_nil n names),
        pathSplit_joinPath h] at hslash
      exact hslash

theorem pathSplit_absolute (h : ∀ n ∈ names, IsStep n) :
    pathSplit (absolute names) = names := by
  unfold absolute
  split
  · rename_i hnil
    rw [hnil]
    rfl
  · exact pathSplit_slashed h

theorem expandNdots_eq_self (h : ∀ n ∈ names, isNdots n = false) :
    expandNdots names = names := by
  induction names with
  | nil => rfl
  | cons n names ih =>
      obtain ⟨hn, hnames⟩ := List.forall_mem_cons.mp h
      rw [expandNdots, List.flatMap_cons, hn]
      exact congrArg (List.cons n) (ih hnames)

/-- A path of names is a place. -/
theorem placeOf_eq {path : Bytes} (hsplit : pathSplit path = names)
    (h : ∀ n ∈ names, isNdots n = false) : placeOf path = follow dotdot [] names := by
  rw [placeOf, hsplit, expandNdots_eq_self h]

theorem isName_of_mem_follow {here names : List Bytes} (hhere : ∀ n ∈ here, IsName n)
    (h : ∀ n ∈ names, IsStep n ∧ isNdots n = false) {n : Bytes}
    (hn : n ∈ follow dotdot here names) : IsName n := by
  have hup : dotdot ∉ here := fun hmem => absurd rfl (isName_iff.mp (hhere _ hmem)).2.1
  rcases mem_follow hn with hmem | hmem
  · exact hhere n hmem
  · refine isName_iff.mpr ⟨(h n hmem).1, ?_, (h n hmem).2⟩
    rintro rfl
    exact notMem_follow hup hn

/-- A slash at the end of a path adds no name. -/
theorem pathSplit_absolute_append (h : ∀ n ∈ names, IsName n) {tail : Bytes}
    (htail : tail = [] ∨ tail = ascii "/" ∧ names ≠ []) :
    pathSplit (absolute names ++ tail) = names := by
  have hsteps : ∀ n ∈ names, IsStep n := fun n hn => (h n hn).isStep
  rcases htail with rfl | ⟨rfl, -⟩
  · rw [List.append_nil, pathSplit_absolute hsteps]
  · have hslash := pathSplit_slash (absolute names) []
    rw [List.append_nil, pathSplit_absolute hsteps] at hslash
    exact hslash.trans (List.append_nil names)

/-- The texts that begin with a directory and a slash. -/
theorem startsWith_place {p : Place} (h : ∀ n ∈ names, IsName n) {tail : Bytes}
    (htail : tail = [] ∨ tail = ascii "/" ∧ names ≠ []) :
    startsWith (p.text ++ ascii "/") (absolute names ++ tail) = true ↔
      p.names <+: names ∧ (names = p.names → tail ≠ []) := by
  have hptext : p.text = slashed p.names := if_neg p.ne_nil
  have hpsplit : pathSplit p.text = p.names :=
    pathSplit_absolute fun n hn => (p.isName n hn).isStep
  rw [startsWith, List.isPrefixOf_iff_prefix]
  constructor
  · rintro ⟨rest, hrest⟩
    have hnames : names = p.names ++ pathSplit rest := by
      rw [← pathSplit_absolute_append h htail, ← hrest, pathSplit_slash, hpsplit]
    refine ⟨⟨_, hnames.symm⟩, fun heq htail => ?_⟩
    rw [htail, List.append_nil, heq] at hrest
    have hlen := congrArg List.length hrest
    rw [← Place.text, List.length_append, List.length_append] at hlen
    have hone : (ascii "/").length = 1 := by decide
    omega
  · rintro ⟨⟨below, rfl⟩, hroot⟩
    have habs : absolute (p.names ++ below) = p.text ++ slashed below := by
      rw [absolute, if_neg (by simp [p.ne_nil]), slashed_append, hptext]
    rw [habs]
    cases below with
    | nil =>
        rcases htail with htail | ⟨rfl, -⟩
        · exact absurd htail (hroot (List.append_nil _))
        · exact ⟨[], by simp [slashed]⟩
    | cons n below =>
        refine ⟨n ++ slashed below ++ tail, ?_⟩
        rw [slashed_cons]
        simp only [List.append_assoc]

theorem Place.pathSplit_text (p : Place) : pathSplit p.text = p.names :=
  pathSplit_absolute fun n hn => (p.isName n hn).isStep

theorem Place.dotdot_notMem (p : Place) : dotdot ∉ p.names :=
  fun hmem => absurd rfl (isName_iff.mp (p.isName _ hmem)).2.1

theorem Place.startsWith_slash (p : Place) (rest : Bytes) :
    startsWith (ascii "/") (p.text ++ rest) = true := by
  obtain ⟨n, names, hnames⟩ := List.exists_cons_of_ne_nil p.ne_nil
  have htext : p.text = ascii "/" ++ (n ++ slashed names) := by
    rw [Place.text, absolute, if_neg p.ne_nil, hnames, slashed_cons]
  rw [htext, startsWith, List.isPrefixOf_iff_prefix, List.append_assoc]
  exact List.prefix_append _ _

/-- Below a place, `path relative-to` gives the rest. -/
theorem pathRelativeTo_place (p : Place) {rest : Bytes}
    (h : ∀ n ∈ pathSplit rest, isNdots n = false) :
    pathRelativeTo (p.text ++ ascii "/" ++ rest) p.text = joinPath (pathSplit rest) := by
  have hnames : ∀ n ∈ p.names ++ pathSplit rest, isNdots n = false := by
    intro n hn
    rcases List.mem_append.mp hn with hn | hn
    · exact (isName_iff.mp (p.isName n hn)).2.2
    · exact h n hn
  rw [pathRelativeTo, pathSplit_slash, p.pathSplit_text, expandNdots_eq_self hnames,
    List.drop_left]

/-- Plain links are listed and read back. -/
theorem fromTsv_listing {links : List Link} (h : ∀ l ∈ links, l.Plain)
    (hmark : byteOrderMark.isPrefixOf (listing links) = false) :
    fromTsv (listing links) = .ok (links.map fun l => (l.rel, l.target)) := by
  have hrows : tsv.records (listing links) = links.map fun l => [l.rel, l.target] := by
    have hlines := @Dialect.records_lines _ _ tsv (links.map fun l => (l.rel, l.target))
      (by
        rintro row hrow
        obtain ⟨l, hl, rfl⟩ := List.mem_map.mp hrow
        exact ⟨(h l hl).rel, (h l hl).target⟩)
    rwa [List.flatMap_map, List.map_map] at hlines
  have hlengths : ∀ row ∈ links.map fun l => [l.rel, l.target],
      row.length = ((links.map fun l => [l.rel, l.target]).headD []).length := by
    cases links with
    | nil => exact fun row hrow => absurd hrow List.not_mem_nil
    | cons l links =>
        intro row hrow
        obtain ⟨_, -, rfl⟩ := List.mem_map.mp hrow
        rfl
  rw [fromTsv, hmark, if_neg Bool.false_ne_true, hrows, if_pos hlengths, mapM_eq_ok_iff,
    List.forall₂_map_left_iff, List.forall₂_map_right_iff, List.forall₂_same]
  exact fun l _ => rfl

namespace Staging

variable (s : Staging) {l : Link}

/-- The names above a link in its place. -/
theorem isName_dir (h : ∀ n ∈ l.dirs, isNdots n = false) :
    ∀ n ∈ s.dest.names ++ l.dirs, IsName n := by
  intro n hn
  rcases List.mem_append.mp hn with hn | hn
  · exact s.dest.isName n hn
  · have hstep := l.isStep n (List.mem_append_left _ hn)
    exact isName_iff.mpr ⟨hstep.1, hstep.2, h n hn⟩

theorem dotdot_notMem_dir : dotdot ∉ s.dest.names ++ l.dirs := by
  intro hmem
  rcases List.mem_append.mp hmem with hmem | hmem
  · exact s.dest.dotdot_notMem hmem
  · exact (l.isStep _ (List.mem_append_left _ hmem)).2 rfl

theorem isStep_dir : ∀ n ∈ s.dest.names ++ l.dirs, IsStep n := by
  intro n hn
  rcases List.mem_append.mp hn with hn | hn
  · exact (s.dest.isName n hn).isStep
  · exact (l.isStep n (List.mem_append_left _ hn)).1

theorem final_eq (l : Link) :
    s.final l.rel = slashed (s.dest.names ++ l.dirs) ++ ascii "/" ++ l.base := by
  have hdest : s.dest.text = slashed s.dest.names := if_neg s.dest.ne_nil
  rw [final, Link.rel, List.append_assoc, slash_joinPath (by simp), hdest, ← slashed_append,
    ← List.append_assoc, slashed_append, List.append_assoc]
  simp [slashed, show ascii "/" = [chr '/'] by decide]

theorem dir_ne_nil (l : Link) : s.dest.names ++ l.dirs ≠ [] := by simp [s.dest.ne_nil]

theorem pathSplit_final (l : Link) :
    (pathSplit (s.final l.rel)).dropLast = s.dest.names ++ l.dirs := by
  have hbase := (l.isStep l.base (by simp)).1
  have hsingle : pathSplit l.base = [l.base] := by
    have h := @pathSplit_joinPath [l.base] (by simpa using hbase)
    rwa [joinPath_cons, slashed, List.flatMap_nil, List.append_nil] at h
  rw [s.final_eq, pathSplit_slash, hsingle, List.dropLast_concat,
    pathSplit_slashed s.isStep_dir]

theorem parentPath_final (l : Link) :
    parentPath (s.final l.rel) = slashed (s.dest.names ++ l.dirs) := by
  have hbase : chr '/' ∉ l.base.reverse := by
    rw [List.mem_reverse]
    exact (l.isStep l.base (by simp)).1.2.1
  -- a directory does not end in a slash
  obtain ⟨front, last, hlast⟩ : ∃ front last, s.dest.names ++ l.dirs = front ++ [last] :=
    ⟨_, _, (List.dropLast_append_getLast (s.dir_ne_nil l)).symm⟩
  have hname : IsStep last := s.isStep_dir last (by rw [hlast]; simp)
  have hrev : (slashed (s.dest.names ++ l.dirs)).reverse =
      last.reverse ++ (chr '/' :: (slashed front).reverse) := by
    rw [hlast, slashed_append]
    simp [slashed]
  have hcut : cut (chr '/') (s.final l.rel).reverse =
      (l.base.reverse, chr '/' :: (slashed (s.dest.names ++ l.dirs)).reverse) := by
    rw [s.final_eq, List.reverse_append, List.reverse_append]
    exact cut_append_cons hbase _
  obtain ⟨b, tail, htail⟩ := List.exists_cons_of_ne_nil
    (show last.reverse ≠ [] by simpa using hname.1)
  have hb : b ≠ chr '/' := by
    rintro rfl
    exact hname.2.1 (by rw [← List.mem_reverse, htail]; exact .head _)
  have hdrop : (chr '/' :: (slashed (s.dest.names ++ l.dirs)).reverse).dropWhile (· = chr '/') =
      (slashed (s.dest.names ++ l.dirs)).reverse := by
    rw [List.dropWhile_cons_of_pos (by simp), hrev, htail, List.cons_append,
      List.dropWhile_cons_of_neg (by simpa using hb)]
  rw [parentPath, hcut]
  dsimp only
  rw [hdrop]
  split
  · rename_i hnil
    rw [hrev, htail] at hnil
    cases hnil
  · rw [List.reverse_reverse]

theorem relativizeLink_eq_ok {text : Bytes} : s.relativizeLink l.rel l.target = .ok text ↔
    s.Passes l ∧
    (startsWith (ascii "/") l.target = true ∧
        s.ln (s.relativeText l) l.target = some text ∨
      startsWith (ascii "/") l.target = false ∧ text = l.target) := by
  unfold relativizeLink Passes relativeText
  cases startsWith (s.store.text ++ ascii "/") (s.target l.rel l.target) with
  | false => simp
  | true =>
      rw [if_pos rfl]
      cases startsWith (ascii "/") l.target with
      | false =>
          cases s.pathExists (placeOf (s.here (s.target l.rel l.target))) <;>
            simp [bind, Except.bind, eq_comm]
      | true =>
          cases s.ln (relativeLink (s.final l.rel) (s.target l.rel l.target)) l.target <;>
            cases s.pathExists (placeOf (s.here (s.target l.rel l.target))) <;>
              simp [bind, Except.bind, eq_comm]

/-- The relative target leads from the link to the place it is for. -/
theorem follow_relativeLink (l : Link) (text : Bytes) :
    follow dotdot (s.dest.names ++ l.dirs) (pathSplit (relativeLink (s.final l.rel) text)) =
      follow dotdot [] (pathSplit text) := by
  have hsteps : ∀ n ∈ relative dotdot (s.dest.names ++ l.dirs) (pathSplit text), IsStep n := by
    intro n hn
    rcases mem_relative hn with rfl | hn
    · exact isStep_dotdot
    · exact isStep_of_mem_pathSplit hn
  rw [relativeLink, s.pathSplit_final, pathSplit_joinPath hsteps,
    follow_relative s.dotdot_notMem_dir]

theorem startsWith_slash_relativeLink (l : Link) (text : Bytes) :
    startsWith (ascii "/") (relativeLink (s.final l.rel) text) = false := by
  rw [relativeLink, s.pathSplit_final]
  cases hrel : relative dotdot (s.dest.names ++ l.dirs) (pathSplit text) with
  | nil => rfl
  | cons n names =>
      have hn : IsStep n := by
        rcases mem_relative (hrel ▸ List.mem_cons_self : n ∈ relative _ _ _) with rfl | hn
        · exact isStep_dotdot
        · exact isStep_of_mem_pathSplit hn
      obtain ⟨b, tail, rfl⟩ := List.exists_cons_of_ne_nil hn.1
      have hb : b ≠ chr '/' := fun heq => hn.2.1 (heq ▸ List.mem_cons_self)
      rw [joinPath_cons, startsWith, List.cons_append, show ascii "/" = [chr '/'] by decide,
        ← Bool.not_eq_true, List.isPrefixOf_iff_prefix, List.cons_prefix_cons]
      exact fun h => hb h.1.symm

theorem startsWith_of_relative {p : Place} {rest target : Bytes}
    (h : startsWith (ascii "/") target = false) : startsWith (p.text ++ rest) target = false := by
  have hslash := p.startsWith_slash rest
  rw [startsWith, List.isPrefixOf_iff_prefix] at hslash
  rw [startsWith, ← Bool.not_eq_true, List.isPrefixOf_iff_prefix] at h ⊢
  exact fun hfront => h (hslash.trans hfront)

/-- What `path expand` makes of a target that does not begin with the prefix: the place it
names, and a slash if it ends in one. -/
theorem target_expanded (hl : l.Plain)
    (hstage : startsWith (s.stage.text ++ ascii "/") l.target = false) (hne : l.target ≠ []) :
    ∃ place tail, s.target l.rel l.target = absolute place ++ tail ∧ (∀ n ∈ place, IsName n) ∧
      (tail = [] ∨ tail = ascii "/" ∧ place ≠ []) ∧
      (place ≠ [] → (tail = [] ↔ l.target.getLast? ≠ some (chr '/'))) ∧
      place = if startsWith (ascii "/") l.target then follow dotdot [] (pathSplit l.target)
        else follow dotdot (s.dest.names ++ l.dirs) (pathSplit l.target) := by
  have hsplitNames : ∀ n ∈ pathSplit l.target, IsStep n ∧ isNdots n = false := fun n hn =>
    ⟨isStep_of_mem_pathSplit hn, hl.target_names n (List.mem_of_mem_filter hn)⟩
  have hlast : (pathJoin (parentPath (s.final l.rel)) l.target).getLast? = l.target.getLast? := by
    unfold pathJoin
    split
    · rfl
    · rw [List.getLast?_append, List.getLast?_eq_some_getLast hne]
      rfl
  -- the names of the joined path
  have hplace : placeOf (pathJoin (parentPath (s.final l.rel)) l.target) =
      if startsWith (ascii "/") l.target then follow dotdot [] (pathSplit l.target)
        else follow dotdot (s.dest.names ++ l.dirs) (pathSplit l.target) := by
    cases habs : startsWith (ascii "/") l.target with
    | true =>
        rw [pathJoin, if_pos habs, if_pos rfl]
        exact placeOf_eq rfl fun n hn => (hsplitNames n hn).2
    | false =>
        rw [pathJoin, habs, if_neg Bool.false_ne_true, if_neg Bool.false_ne_true,
          s.parentPath_final]
        rw [placeOf_eq (by rw [pathSplit_slash, pathSplit_slashed s.isStep_dir]), follow_append,
          follow_of_notMem s.dotdot_notMem_dir, List.nil_append]
        intro n hn
        rcases List.mem_append.mp hn with hn | hn
        · exact (isName_iff.mp (s.isName_dir (hl.dirs_names habs) n hn)).2.2
        · exact (hsplitNames n hn).2
  have htarget : s.target l.rel l.target =
      pathExpand (pathJoin (parentPath (s.final l.rel)) l.target) := by
    rw [target, hstage, if_neg Bool.false_ne_true]
  rw [pathExpand, hlast] at htarget
  refine ⟨_, _, htarget, ?_, ?_, ?_, hplace⟩
  · intro n hn
    rw [hplace] at hn
    split at hn
    · exact isName_of_mem_follow (fun n hn => absurd hn List.not_mem_nil) hsplitNames hn
    · next habs =>
      exact isName_of_mem_follow (s.isName_dir (hl.dirs_names (Bool.not_eq_true _ ▸ habs)))
        hsplitNames hn
  · split
    · rename_i h
      exact Or.inr ⟨rfl, h.2⟩
    · exact Or.inl rfl
  · intro hplaceNe
    by_cases h : l.target.getLast? = some (chr '/')
    · rw [if_pos ⟨h, hplaceNe⟩]
      exact iff_of_false (by decide) (not_not_intro h)
    · rw [if_neg fun hc => h hc.1]
      exact iff_of_true rfl h

section Expanded

variable {place : List Bytes} {tail : Bytes}

/-- The place to look at, for an expanded path. -/
theorem placeOf_here (hplace : ∀ n ∈ place, IsName n)
    (htail : tail = [] ∨ tail = ascii "/" ∧ place ≠ []) :
    placeOf (s.here (absolute place ++ tail)) =
      if s.dest.names <+: place ∧ (place = s.dest.names → tail ≠ []) then
        s.stage.names ++ place.drop s.dest.names.length
      else place := by
  have hndots : ∀ n ∈ place, isNdots n = false := fun n hn => (isName_iff.mp (hplace n hn)).2.2
  have hup : dotdot ∉ place := fun hmem => absurd rfl (isName_iff.mp (hplace _ hmem)).2.1
  unfold here
  by_cases hbelow : s.dest.names <+: place ∧ (place = s.dest.names → tail ≠ [])
  · rw [if_pos ((startsWith_place hplace htail).mpr hbelow), if_pos hbelow]
    have hrest : ∀ n ∈ place.drop s.dest.names.length, IsName n := fun n hn =>
      hplace n (List.mem_of_mem_drop hn)
    have hall : ∀ n ∈ s.stage.names ++ place.drop s.dest.names.length, IsName n := by
      intro n hn
      rcases List.mem_append.mp hn with hn | hn
      · exact s.stage.isName n hn
      · exact hrest n hn
    rw [pathRelativeTo, pathSplit_absolute_append hplace htail, expandNdots_eq_self hndots,
      s.dest.pathSplit_text]
    rw [placeOf_eq (by rw [pathSplit_slash, s.stage.pathSplit_text,
        pathSplit_joinPath fun n hn => (hrest n hn).isStep])
      fun n hn => (isName_iff.mp (hall n hn)).2.2]
    exact follow_of_notMem (fun hmem => absurd rfl (isName_iff.mp (hall _ hmem)).2.1) []
  · rw [if_neg hbelow, if_neg fun h => hbelow ((startsWith_place hplace htail).mp h),
      placeOf_eq (pathSplit_absolute_append hplace htail) hndots, follow_of_notMem hup,
      List.nil_append]

/-- An expanded path passes the checks where it exists, the root of the package apart. -/
theorem checked_of_exists (hplace : ∀ n ∈ place, IsName n)
    (htail : tail = [] ∨ tail = ascii "/" ∧ place ≠ [])
    (hroot : place = s.dest.names → tail ≠ []) (h : s.Exists place) :
    startsWith (s.store.text ++ ascii "/") (absolute place ++ tail) = true ∧
      s.pathExists (placeOf (s.here (absolute place ++ tail))) = true := by
  rw [startsWith_place hplace htail, s.placeOf_here hplace htail]
  unfold Exists at h
  by_cases hdest : s.dest.names <+: place
  · rw [if_pos (List.isPrefixOf_iff_prefix.mpr hdest)] at h
    rw [if_pos ⟨hdest, hroot⟩]
    have hstore : s.store.names <+: place := by
      rw [s.dest_names] at hdest
      exact (List.prefix_append _ _).trans hdest
    refine ⟨⟨hstore, fun heq => ?_⟩, h⟩
    have hlen := hdest.length_le
    rw [heq, s.dest_names, List.length_append, List.length_singleton] at hlen
    omega
  · rw [if_neg fun hc => hdest (List.isPrefixOf_iff_prefix.mp hc)] at h
    rw [if_neg fun hc => hdest hc.1]
    exact ⟨⟨h.1, fun heq => absurd heq h.2.1⟩, h.2.2⟩

/-- Nothing else in the store passes them. -/
theorem exists_of_checked (hplace : ∀ n ∈ place, IsName n)
    (htail : tail = [] ∨ tail = ascii "/" ∧ place ≠ []) (hne : place ≠ s.store.names)
    (h : startsWith (s.store.text ++ ascii "/") (absolute place ++ tail) = true ∧
      s.pathExists (placeOf (s.here (absolute place ++ tail))) = true) :
    s.Exists place ∧ (place = s.dest.names → tail ≠ []) := by
  rw [startsWith_place hplace htail, s.placeOf_here hplace htail] at h
  unfold Exists
  by_cases hdest : s.dest.names <+: place
  · rw [if_pos (List.isPrefixOf_iff_prefix.mpr hdest)]
    by_cases hroot : place = s.dest.names → tail ≠ []
    · rw [if_pos ⟨hdest, hroot⟩] at h
      exact ⟨h.2, hroot⟩
    · rw [if_neg fun hc => hroot hc.2] at h
      rw [Classical.not_imp] at hroot
      rw [hroot.1, ← List.append_nil s.dest.names, s.dest_new] at h
      cases h.2
  · rw [if_neg fun hc => hdest (List.isPrefixOf_iff_prefix.mp hc)]
    rw [if_neg fun hc => hdest hc.1] at h
    exact ⟨⟨h.1.1, hne, h.2⟩, fun heq => absurd (heq ▸ List.prefix_rfl) hdest⟩

end Expanded

/-- A link is kept and accepted as it should be. -/
def Kept (l : Link) : Prop :=
  (∀ text, s.relativizeLink l.rel l.target = .ok text → s.Survives l text) ∧
    (s.PointsAtExisting l → ∃ text, s.relativizeLink l.rel l.target = .ok text)

theorem exists_dest_iff (rest : List Bytes) :
    s.Exists (s.dest.names ++ rest) ↔ s.pathExists (s.stage.names ++ rest) = true := by
  rw [Exists, if_pos (List.isPrefixOf_iff_prefix.mpr (List.prefix_append _ _)), List.drop_left]

/-- Two directories outside each other do not stand in front of the same path. -/
theorem not_stage_and_store {place : List Bytes} (hstage : s.stage.names <+: place)
    (hstore : s.store.names <+: place) : False := by
  rcases List.prefix_or_prefix_of_prefix hstage hstore with h | h
  · exact s.outside.1 h
  · exact s.outside.2 h

theorem survives_relativeLink_iff (hne : s.relativeText l ≠ []) :
    s.Survives l (s.relativeText l) ↔
      follow dotdot [] (pathSplit (s.target l.rel l.target)) = s.named l := by
  rw [relativeText] at hne ⊢
  rw [Survives, s.follow_relativeLink, s.startsWith_slash_relativeLink]
  simp [hne]

/-- An absolute link that `ln` gets a proper target for, if what passes the checks exists. It
goes wrong if it exists and is refused, or the target leads elsewhere. -/
theorem kept_absolute (habs : startsWith (ascii "/") l.target = true) {wrong : Prop}
    (hchecks : s.Passes l → s.PointsAtExisting l)
    (hwrong : s.PointsAtExisting l → (¬ wrong ↔
      s.Passes l ∧ follow dotdot [] (pathSplit (s.target l.rel l.target)) = s.named l)) :
    s.Kept l ↔ (s.PointsAtExisting l →
      ¬ (wrong ∨ s.relativeText l = [] ∨ isOption (s.relativeText l) = true)) := by
  have hok (text : Bytes) : s.relativizeLink l.rel l.target = .ok text ↔
      s.Passes l ∧ s.ln (s.relativeText l) l.target = some text := by
    rw [s.relativizeLink_eq_ok, habs]
    simp
  unfold Kept
  simp only [hok]
  constructor
  · rintro ⟨hsurvive, haccept⟩ hexists
    obtain ⟨text, hpass, hln⟩ := haccept hexists
    have hsurvives := hsurvive text ⟨hpass, hln⟩
    rw [ln] at hln
    split_ifs at hln with hnil hoption haccepts
    · -- `ln` took the target for options, so the link is the old one
      cases hln
      rw [Survives, habs] at hsurvives
      cases hsurvives.2.1
    · cases hln
      rw [s.survives_relativeLink_iff hnil] at hsurvives
      rw [not_or, not_or]
      exact ⟨(hwrong hexists).mpr ⟨hpass, hsurvives⟩, hnil, hoption⟩
  · intro hgood
    have hln (hexists : s.PointsAtExisting l) :
        (s.Passes l ∧ follow dotdot [] (pathSplit (s.target l.rel l.target)) = s.named l) ∧
          s.relativeText l ≠ [] ∧
          s.ln (s.relativeText l) l.target = some (s.relativeText l) := by
      obtain ⟨hright, hnil, hoption⟩ : ¬ wrong ∧ _ ∧ _ := by
        simpa only [not_or] using hgood hexists
      exact ⟨(hwrong hexists).mp hright, hnil, by rw [ln, if_neg hnil, if_neg hoption]⟩
    refine ⟨?_, fun hexists => ?_⟩
    · rintro text ⟨hpass, htext⟩
      obtain ⟨⟨-, hplace⟩, hnil, hsome⟩ := hln (hchecks hpass)
      rw [hsome] at htext
      cases htext
      exact (s.survives_relativeLink_iff hnil).mpr hplace
    · obtain ⟨⟨hpass, -⟩, -, hsome⟩ := hln hexists
      exact ⟨_, hpass, hsome⟩

/-- A link into the prefix that does not begin with the prefix and a slash is refused. -/
theorem kept_stage (hl : l.Plain) (hne : l.target ≠ [])
    (habs : startsWith (ascii "/") l.target = true)
    (hstage : startsWith (s.stage.text ++ ascii "/") l.target = false)
    (hin : s.stage.names <+: follow dotdot [] (pathSplit l.target)) :
    s.Kept l ↔ ¬ s.PointsAtExisting l := by
  obtain ⟨place, tail, htarget, hplace, htail, -, hwalk⟩ := s.target_expanded hl hstage hne
  rw [if_pos habs] at hwalk
  have hrefused (text : Bytes) : s.relativizeLink l.rel l.target ≠ .ok text := by
    rw [ne_eq, s.relativizeLink_eq_ok, Passes, htarget, startsWith_place hplace htail, hwalk]
    exact fun hc => s.not_stage_and_store hin hc.1.1.1
  unfold Kept
  constructor
  · rintro ⟨-, haccept⟩ hexists
    obtain ⟨text, hok⟩ := haccept hexists
    exact hrefused text hok
  · exact fun hexists => ⟨fun text hok => absurd hok (hrefused text),
      fun hc => absurd hc hexists⟩

/-- The place of an absolute link is there before the move if the link points at something
and does not say where the tree will be. -/
theorem pathExists_iff {place : List Bytes} (h : s.stage.names <+: place ∨
      s.store.names <+: place ∧ place ≠ s.store.names) :
    s.pathExists place = true ↔ s.Exists (s.reroot place) ∧ ¬ s.dest.names <+: place := by
  have hstore : s.store.names <+: s.dest.names := s.dest_names ▸ List.prefix_append _ _
  rcases h with ⟨below, rfl⟩ | ⟨hin, hne⟩
  · have hdest : ¬ s.dest.names <+: s.stage.names ++ below := fun hd =>
      s.not_stage_and_store (List.prefix_append _ _) (hstore.trans hd)
    rw [reroot, if_pos (List.isPrefixOf_iff_prefix.mpr (List.prefix_append _ _)), List.drop_left,
      s.exists_dest_iff, and_iff_left hdest]
  · rw [reroot, if_neg fun hc =>
      s.not_stage_and_store (List.isPrefixOf_iff_prefix.mp hc) hin, Exists]
    by_cases hdest : s.dest.names <+: place
    · obtain ⟨below, rfl⟩ := hdest
      simp [s.dest_new]
    · rw [if_neg fun hc => hdest (List.isPrefixOf_iff_prefix.mp hc)]
      simp [hin, hne, hdest]

/-- A link that begins with the prefix and a slash. -/
theorem kept_staged (hl : l.Plain) (hpkg : s.OfPackage l)
    (hstage : startsWith (s.stage.text ++ ascii "/") l.target = true) :
    s.Kept l ↔ (s.PointsAtExisting l → ¬ (
      (follow dotdot s.dest.names ((pathSplit l.target).drop s.stage.names.length) ≠ s.named l ∨
        s.dest.names <+: follow dotdot [] (pathSplit l.target)) ∨
      s.relativeText l = [] ∨ isOption (s.relativeText l) = true)) := by
  obtain ⟨rest, h⟩ := List.isPrefixOf_iff_prefix.mp hstage
  have hrest : ∀ n ∈ pathSplit rest, IsStep n ∧ isNdots n = false := by
    intro n hn
    refine ⟨isStep_of_mem_pathSplit hn, hl.target_names n ?_⟩
    rw [← h, pathNames_slash]
    exact List.mem_append_right _ (List.mem_of_mem_filter hn)
  have habs : startsWith (ascii "/") l.target = true := by
    rw [← h, List.append_assoc]
    exact s.stage.startsWith_slash _
  have hnames : pathSplit l.target = s.stage.names ++ pathSplit rest := by
    rw [← h, pathSplit_slash, s.stage.pathSplit_text]
  have hsplitJoin : pathSplit (joinPath (pathSplit rest)) = pathSplit rest :=
    pathSplit_joinPath fun n hn => (hrest n hn).1
  have htarget : s.target l.rel l.target =
      s.dest.text ++ ascii "/" ++ joinPath (pathSplit rest) := by
    rw [target, if_pos hstage, ← h, pathRelativeTo_place s.stage fun n hn => (hrest n hn).2]
  have hwalk : follow dotdot [] (pathSplit (s.target l.rel l.target)) =
      follow dotdot s.dest.names (pathSplit rest) := by
    rw [htarget, pathSplit_slash, s.dest.pathSplit_text, hsplitJoin, follow_append,
      follow_of_notMem s.dest.dotdot_notMem, List.nil_append]
  -- the check looks at the place of the target as it was
  have hhere : placeOf (s.here (s.target l.rel l.target)) =
      follow dotdot [] (pathSplit l.target) := by
    have hfront : startsWith (s.dest.text ++ ascii "/") (s.target l.rel l.target) = true := by
      rw [htarget, startsWith, List.isPrefixOf_iff_prefix]
      exact List.prefix_append _ _
    have hndots : ∀ n ∈ s.stage.names ++ pathSplit rest, isNdots n = false := by
      intro n hn
      rcases List.mem_append.mp hn with hn | hn
      · exact (isName_iff.mp (s.stage.isName n hn)).2.2
      · exact (hrest n hn).2
    rw [here, if_pos hfront, htarget, pathRelativeTo_place s.dest (by
        rw [hsplitJoin]
        exact fun n hn => (hrest n hn).2), hsplitJoin,
      placeOf_eq (by rw [pathSplit_slash, s.stage.pathSplit_text, hsplitJoin]) hndots, hnames]
  have hstore : startsWith (s.store.text ++ ascii "/") (s.target l.rel l.target) = true := by
    have hdest : s.dest.text = s.store.text ++ ascii "/" ++ s.name := by
      rw [Place.text, Place.text, absolute, if_neg s.dest.ne_nil, absolute,
        if_neg s.store.ne_nil, s.dest_names, slashed_append]
      simp [slashed, show ascii "/" = [chr '/'] by decide]
    rw [htarget, hdest, startsWith, List.isPrefixOf_iff_prefix]
    simp only [List.append_assoc]
    rw [← List.append_assoc]
    exact List.prefix_append _ _
  have hexists := s.pathExists_iff (hpkg.2 habs)
  have hnamed : s.named l = s.reroot (follow dotdot [] (pathSplit l.target)) := by
    rw [named, if_pos habs]
  rw [hnames, List.drop_left, ← hnames]
  refine s.kept_absolute habs ?_ fun hpoints => ?_
  · rw [Passes, hhere, hexists, ← hnamed]
    exact fun hpass => hpass.2.1
  · rw [PointsAtExisting, hnamed] at hpoints
    rw [Passes, hhere, hstore, hexists, hwalk, not_or, not_not]
    simp only [hpoints, true_and]
    exact and_comm

/-- An absolute link into the store that does not begin with the prefix. -/
theorem kept_store (hl : l.Plain) (hne : l.target ≠ [])
    (habs : startsWith (ascii "/") l.target = true)
    (hstage : startsWith (s.stage.text ++ ascii "/") l.target = false)
    (hin : s.store.names <+: follow dotdot [] (pathSplit l.target))
    (hbelow : follow dotdot [] (pathSplit l.target) ≠ s.store.names) :
    s.Kept l ↔ (s.PointsAtExisting l → ¬ ((s.named l = s.dest.names ∧
        l.target.getLast? ≠ some (chr '/')) ∨
      s.relativeText l = [] ∨ isOption (s.relativeText l) = true)) := by
  obtain ⟨place, tail, htarget, hplace, htail, hslash, hwalk⟩ := s.target_expanded hl hstage hne
  rw [if_pos habs] at hwalk
  rw [← hwalk] at hin hbelow
  have hnamed : s.named l = place := by
    rw [named, if_pos habs, ← hwalk, reroot, if_neg]
    exact fun hc => s.not_stage_and_store (List.isPrefixOf_iff_prefix.mp hc) hin
  have hsame : follow dotdot [] (pathSplit (s.target l.rel l.target)) = s.named l := by
    rw [htarget, pathSplit_absolute_append hplace htail, hnamed]
    exact (follow_of_notMem (fun hmem => absurd rfl (isName_iff.mp (hplace _ hmem)).2.1) []).trans
      (List.nil_append _)
  have hplaceNe : place ≠ [] := fun hnil =>
    s.store.ne_nil (List.eq_nil_of_prefix_nil (hnil ▸ hin))
  have hroot : ¬ (s.named l = s.dest.names ∧ l.target.getLast? ≠ some (chr '/')) ↔
      (place = s.dest.names → tail ≠ []) := by
    rw [hnamed, not_and, ← hslash hplaceNe]
  refine s.kept_absolute habs ?_ fun hpoints => ?_
  · rw [PointsAtExisting, hnamed, Passes, htarget]
    exact fun hpass => (s.exists_of_checked hplace htail hbelow hpass).1
  · rw [PointsAtExisting, hnamed] at hpoints
    rw [hroot, and_iff_left hsame, Passes, htarget]
    exact ⟨fun hr => s.checked_of_exists hplace htail hr hpoints,
      fun hpass => (s.exists_of_checked hplace htail hbelow hpass).2⟩

/-- A relative link. -/
theorem kept_relative (hl : l.Plain) (hne : l.target ≠ [])
    (hrel : startsWith (ascii "/") l.target = false) :
    s.Kept l ↔ (s.PointsAtExisting l →
      ¬ (s.named l = s.dest.names ∧ l.target.getLast? ≠ some (chr '/'))) := by
  obtain ⟨place, tail, htarget, hplace, htail, hslash, hwalk⟩ :=
    s.target_expanded hl (startsWith_of_relative hrel) hne
  have hnamed : s.named l = place := by
    rw [hwalk, named, hrel]
    rfl
  have hok (text : Bytes) : s.relativizeLink l.rel l.target = .ok text ↔
      (startsWith (s.store.text ++ ascii "/") (absolute place ++ tail) = true ∧
        s.pathExists (placeOf (s.here (absolute place ++ tail))) = true) ∧ text = l.target := by
    rw [s.relativizeLink_eq_ok, hrel, Passes, htarget]
    simp
  have hsurvives : s.Survives l l.target := by
    refine ⟨hne, hrel, ?_⟩
    rw [named, hrel]
    rfl
  have hroot : s.named l = s.dest.names →
      (tail = [] ↔ l.target.getLast? ≠ some (chr '/')) := by
    intro heq
    exact hslash (by rw [← hnamed, heq]; exact s.dest.ne_nil)
  unfold Kept
  simp only [hok]
  constructor
  · rintro ⟨-, haccept⟩ hexists ⟨heq, hlast⟩
    obtain ⟨text, hchecks, -⟩ := haccept hexists
    have hstore : place ≠ s.store.names := by
      rw [← hnamed, heq, s.dest_names]
      simp
    exact (s.exists_of_checked hplace htail hstore hchecks).2 (hnamed ▸ heq)
      ((hroot heq).mpr hlast)
  · intro hgood
    refine ⟨fun text hc => hc.2 ▸ hsurvives, fun hexists => ⟨l.target, ?_, rfl⟩⟩
    refine s.checked_of_exists hplace htail (fun heq htail => ?_) (hnamed ▸ hexists)
    have hdest := hnamed.trans heq
    exact hgood hexists ⟨hdest, (hroot hdest).mp htail⟩

/-- Plain links are worked through if and only if each of them is accepted, and each comes
out as it would alone. -/
theorem relativizeLinks_eq_ok {links : List Link} (h : ∀ l ∈ links, l.Plain)
    (hlists : s.Lists links) (out : List Bytes) : s.relativizeLinks links = .ok out ↔
      List.Forall₂ (fun l text => s.relativizeLink l.rel l.target = .ok text) links out := by
  rw [relativizeLinks, if_pos hlists.1, fromTsv_listing h hlists.2]
  exact mapM_eq_ok_iff.trans List.forall₂_map_left_iff

theorem kept_iff (hl : l.Plain) (hpkg : s.OfPackage l) :
    s.Kept l ↔ (s.PointsAtExisting l → ¬ s.Misread l) := by
  cases habs : startsWith (ascii "/") l.target with
  | false =>
      have hstage : startsWith (s.stage.text ++ ascii "/") l.target = false :=
        startsWith_of_relative habs
      rw [s.kept_relative hl hpkg.1 habs]
      simp [Misread, habs, hstage]
  | true =>
      cases hstage : startsWith (s.stage.text ++ ascii "/") l.target with
      | true =>
          rw [s.kept_staged hl hpkg hstage]
          simp [Misread, MisreadAbsolute, habs, hstage]
      | false =>
          rcases hpkg.2 habs with hin | ⟨hin, hbelow⟩
          · rw [s.kept_stage hl hpkg.1 habs hstage hin]
            simp [Misread, MisreadAbsolute, habs, hstage, hin]
          · have hout : ¬ s.stage.names <+: follow dotdot [] (pathSplit l.target) :=
              fun hc => s.not_stage_and_store hc hin
            rw [s.kept_store hl hpkg.1 habs hstage hin hbelow]
            simp only [Misread, MisreadAbsolute, habs, hstage, hout, and_false, false_or, true_and,
              Bool.false_eq_true, false_and]
            rw [or_comm]

end Staging

section Decide

variable (s : Staging) (l : Link)

instance (name : Bytes) : Decidable (IsName name) := inferInstanceAs (Decidable (_ ∧ _))

instance (name : Bytes) : Decidable (IsStep name) := inferInstanceAs (Decidable (_ ∧ _))

instance : Decidable (s.OfPackage l) := inferInstanceAs (Decidable (_ ∧ _))

instance : Decidable (s.PointsAtExisting l) := inferInstanceAs (Decidable (ite _ _ _))

instance : Decidable (s.MisreadAbsolute l) := inferInstanceAs (Decidable (_ ∨ _))

instance : Decidable (s.Misread l) := inferInstanceAs (Decidable (_ ∨ _))

instance (text : Bytes) : Decidable (s.Survives l text) := inferInstanceAs (Decidable (_ ∧ _))

end Decide

namespace Hello

def staging : Staging where
  stage := ⟨[ascii "build", ascii "prefix"], by decide, by decide⟩
  store := ⟨[ascii "nix", ascii "store"], by decide, by decide⟩
  dest := ⟨[ascii "nix", ascii "store", ascii "abc-hello"], by decide, by decide⟩
  name := ascii "abc-hello"
  dest_names := rfl
  pathExists place := place ∈ [[ascii "build", ascii "prefix"],
    [ascii "build", ascii "prefix", ascii "lib"],
    [ascii "build", ascii "prefix", ascii "lib", ascii "libhello.so.1"],
    [ascii "build", ascii "prefix", ascii "lib", ascii "a\tb"],
    [ascii "build", ascii "prefix", ascii "lib", ascii "..."]]
  dest_new below := by simp [show ascii "nix" ≠ ascii "build" by decide]
  outside := by decide
  lnAccepts _ := false
  isText _ := true

/-- A link in `lib`. -/
def inLib (target : Bytes) : Link := ⟨[ascii "lib"], ascii "l", target, by decide⟩

/-- Into the prefix with a detour, and relative. -/
def links : List Link :=
  [inLib (ascii "/build/prefix/lib/../lib/./libhello.so.1"), inLib (ascii "../lib/libhello.so.1")]

theorem links_plain : ∀ l ∈ links, l.Plain := by
  have hall : ∀ l ∈ links, (∀ c ∈ l.rel, c ≠ tsv.delimiter ∧ tsv.isEnd c = false) ∧
      l.rel.head? ≠ some tsv.quote ∧
      (∀ c ∈ l.target, c ≠ tsv.delimiter ∧ tsv.isEnd c = false) ∧
      l.target.head? ≠ some tsv.quote ∧ (∀ n ∈ l.dirs, isNdots n = false) ∧
      ∀ n ∈ pathNames l.target, isNdots n = false := by
    decide +kernel
  intro l hl
  obtain ⟨hrel, hrelFirst, htarget, hfirst, hnames, htargetNames⟩ := hall l hl
  exact ⟨⟨hrel, hrelFirst⟩, ⟨htarget, hfirst⟩, fun _ => hnames, htargetNames⟩

end Hello

end Repkgs.Builder
