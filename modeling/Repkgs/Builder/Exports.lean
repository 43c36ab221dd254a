import Repkgs.Lib.BreadthFirst
import Repkgs.Lib.Bytes

/-!
# What packages export

`exports-of` of `exports.nu` reads what a package offers to others, `dep-closure`
follows the `propagate` lists, and `dep-dirs` makes search paths of the result. The
order of a search path is that of a breadth-first search.
-/

namespace Repkgs.Builder

open Lib

/-- The columns that are lists of names or of directories below the package. -/
inductive Column
  | includeDirs
  | libDirs
  | libs
  | pkgconfigDirs
  | aclocalDirs
  | propagate
  deriving DecidableEq

/-- The packages on disk: what `exports.json` of a package sets, if it has one, and the paths
there are. -/
structure Packages where
  exportsJson : Bytes → Option (Column → Option (List Bytes))
  pathExists : Bytes → Bool

/-- `$"($root)/($rel)"` -/
def below (root rel : Bytes) : Bytes := root ++ ascii "/" ++ rel

namespace Packages

variable (pkgs : Packages)

def existing (root : Bytes) (rels : List Bytes) : List Bytes :=
  rels.filter fun d => pkgs.pathExists (below root d)

def defaults (p : Bytes) : Column → List Bytes
  | .includeDirs => pkgs.existing p [ascii "include"]
  | .libDirs => pkgs.existing p [ascii "lib"]
  | .libs => []
  | .pkgconfigDirs => pkgs.existing p [ascii "lib/pkgconfig", ascii "share/pkgconfig"]
  | .aclocalDirs => pkgs.existing p [ascii "share/aclocal"]
  | .propagate => []

/-- `exports-of` -/
def exportsOf (p : Bytes) (column : Column) : List Bytes :=
  ((pkgs.exportsJson p).bind (· column)).getD (pkgs.defaults p column)

end Packages

/-- The exports of a package with its path. -/
structure Dep where
  root : Bytes
  exports : Column → List Bytes

def Packages.dep (pkgs : Packages) (p : Bytes) : Dep := ⟨p, pkgs.exportsOf p⟩

/-- The loop of `dep-closure`; it has no result when it is not done after `n` rounds. -/
def depClosureLoop (pkgs : Packages) : Nat → List Dep → List Bytes → Option (List Dep)
  | _, done, [] => some done
  | 0, _, _ :: _ => none
  | n + 1, done, p :: todo =>
      if p ∈ done.map Dep.root then depClosureLoop pkgs n done todo
      else
        let d := pkgs.dep p
        depClosureLoop pkgs n (done ++ [d]) (todo ++ d.exports .propagate)

def depClosure (pkgs : Packages) (n : Nat) (roots : List Bytes) : Option (List Dep) :=
  depClosureLoop pkgs n [] roots

def depDirs (deps : List Dep) (column : Column) : List Bytes :=
  deps.flatMap fun d => (d.exports column).map (below d.root)

/-- The packages a package propagates. -/
def Packages.propagates (pkgs : Packages) (p : Bytes) : List Bytes := pkgs.exportsOf p .propagate

variable {pkgs : Packages}

/-- The loop is a work list of paths. -/
theorem depClosureLoop_eq (n : Nat) (done todo : List Bytes) :
    depClosureLoop pkgs n (done.map pkgs.dep) todo =
      (workList pkgs.propagates n done todo).map (List.map pkgs.dep) := by
  have hroots (done : List Bytes) : (done.map pkgs.dep).map Dep.root = done := by
    rw [List.map_map]
    exact List.map_id done
  induction n generalizing done todo with
  | zero => cases todo <;> rfl
  | succ n ih =>
      cases todo with
      | nil => rfl
      | cons p todo =>
          rw [depClosureLoop, workList, hroots]
          split
          · exact ih done todo
          · have hnext := ih (done ++ [p]) (todo ++ pkgs.propagates p)
            rw [List.map_append] at hnext
            exact hnext

/-- Packages that are reached from the roots, each once, layer by layer; search paths have the
directories of each package in that order. -/
theorem depClosure_breadthFirst {graph : Finset Bytes}
    (hgraph : ∀ p ∈ graph, ∀ q ∈ pkgs.propagates p, q ∈ graph)
    {roots : List Bytes} (hroots : ∀ r ∈ roots, r ∈ graph) :
    ∃ order deps, order = layers pkgs.propagates (graph.card + 1) [] roots ∧
      (∃ n₀, ∀ n, n₀ ≤ n → depClosure pkgs n roots = some deps) ∧
      deps = order.map pkgs.dep ∧ order.Nodup ∧
      (∀ p, p ∈ order ↔
        ∃ r ∈ roots, Relation.ReflTransGen (fun a b => b ∈ pkgs.propagates a) r p) ∧
      ∀ column, depDirs deps column =
        order.flatMap fun p => (pkgs.exportsOf p column).map (below p) := by
  obtain ⟨⟨n₀, hn₀⟩, hnodup, hreach⟩ := workList_search hgraph hroots
  refine ⟨_, _, rfl, ⟨n₀, fun n hn => ?_⟩, rfl, hnodup, hreach, fun column => ?_⟩
  · have hloop : depClosureLoop pkgs n [] roots =
        (workList pkgs.propagates n [] roots).map (List.map pkgs.dep) :=
      depClosureLoop_eq n [] roots
    rw [hn₀ n hn] at hloop
    exact hloop
  · rw [depDirs, List.flatMap_map]
    rfl

namespace Sample

/-- `a` propagates `b`, `c` and `b` again, `b` propagates `a` and itself, `c` propagates `d`. -/
def cycle : Packages where
  exportsJson p := some fun column =>
    if column = .propagate then
      some (if p = ascii "/a" then [ascii "/b", ascii "/c", ascii "/b"]
        else if p = ascii "/b" then [ascii "/a", ascii "/b"]
        else if p = ascii "/c" then [ascii "/d"] else [])
    else none
  pathExists _ := true

def nodes : List Bytes := [ascii "/a", ascii "/b", ascii "/c", ascii "/d"]

end Sample

theorem depClosure_breadthFirst_cycle :
    ∃ deps n₀, (∀ n, n₀ ≤ n → depClosure Sample.cycle n [ascii "/a", ascii "/c"] = some deps) ∧
      deps.map Dep.root = [ascii "/a", ascii "/c", ascii "/b", ascii "/d"] ∧
      (depDirs deps .libDirs).head? = some (ascii "/a/lib") := by
  obtain ⟨order, deps, rfl, ⟨n₀, hn₀⟩, rfl, -, -, -⟩ :=
    @depClosure_breadthFirst Sample.cycle Sample.nodes.toFinset (by decide)
      [ascii "/a", ascii "/c"] (by decide)
  exact ⟨_, n₀, hn₀, by decide, by decide⟩

end Repkgs.Builder
