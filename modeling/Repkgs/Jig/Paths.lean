import Repkgs.Lib.Text

/-!
# Paths and files

Paths are byte strings. `lexicallyNormal` is `std::filesystem::path::lexically_normal`
on POSIX: it looks at the text of a path only. What a path leads to is up to the
file system.
-/

namespace Repkgs.Jig

open Lib

/-- The names between the slashes of a path. -/
def pathNames (path : Bytes) : List Bytes := split path (chr '/')

def dot : Bytes := ascii "."

def dotdot : Bytes := ascii ".."

/-- One name of the path: the names kept so far, the last one first, and whether
a separator belongs behind them. -/
def normalStep (rooted : Bool) (st : List Bytes × Bool) (name : Bytes) : List Bytes × Bool :=
  if name = dot then (st.1, true)
  else if name = dotdot then
    match st.1 with
    | [] => if rooted then ([], false) else ([dotdot], false)
    | last :: rest => if last = dotdot then (dotdot :: last :: rest, false) else (rest, true)
  else (name :: st.1, false)

def joinPath (names : List Bytes) : Bytes := (ascii "/").intercalate names

/-- `path::lexically_normal`. -/
def lexicallyNormal (path : Bytes) : Bytes :=
  if path.isEmpty then []
  else
    let rooted := path.head? = some (chr '/')
    let st := (pathNames path).foldl (normalStep rooted) ([], false)
    let trailing := st.2 || (path.getLast? = some (chr '/'))
    let root := if rooted then ascii "/" else []
    match st.1 with
    | [] => if rooted then root else dot
    | last :: _ =>
        root ++ joinPath st.1.reverse ++ if trailing && last ≠ dotdot then ascii "/" else []

example : lexicallyNormal (ascii "./a//b/../c/") = ascii "a/c/" := by decide

example : lexicallyNormal (ascii "/../a/../..") = ascii "/" := by decide

/-- `path::filename`: what follows the last slash. -/
def fileName (path : Bytes) : Bytes := (cut (chr '/') path.reverse).1.reverse

/-- `path::parent_path`. -/
def parentPath (path : Bytes) : Bytes :=
  let front := (cut (chr '/') path.reverse).2
  match front.dropWhile (· = chr '/') with
  | [] => if front.isEmpty then [] else ascii "/"
  | names => names.reverse

/-- The last name of a path without its extension, and the extension. A name that
only begins with a dot has none. -/
def stemExtension (path : Bytes) : Bytes × Bytes :=
  let name := fileName path
  let (tail, front) := cut (chr '.') name.reverse
  if name = dotdot || front.length ≤ 1 then (name, [])
  else ((front.drop 1).reverse, chr '.' :: tail.reverse)

/-- `path::replace_extension`. -/
def replaceExtension (path extension : Bytes) : Bytes :=
  path.take (path.length - (stemExtension path).2.length) ++ extension

/-- `==` on paths compares them name by name. -/
def samePath (p q : Bytes) : Bool :=
  let names (path : Bytes) :=
    (path.head? == some (chr '/'), pathNames path, path.getLast? == some (chr '/'))
  names p == names q

/-- What a path leads to. `other` is a directory or a file that cannot be read. -/
inductive Node
  | file (content : Bytes)
  | other
  deriving DecidableEq

/-- What the paths of a build lead to, relative ones from its working directory. -/
structure FileSystem where
  node : Bytes → Option Node
  node_nil : node [] = none

namespace FileSystem

/-- `ReadFile`. -/
def readFile (fs : FileSystem) (path : Bytes) : Option Bytes :=
  match fs.node path with
  | some (.file content) => some content
  | _ => none

/-- `Exists`. -/
def pathExists (fs : FileSystem) (path : Bytes) : Bool := (fs.node path).isSome

/-- The file system with these files. -/
def ofFiles (files : List (Bytes × Bytes)) : FileSystem where
  node p := if p.isEmpty then none else (files.lookup p).map .file
  node_nil := rfl

/-- The file system with one more directory. -/
def mkdir (fs : FileSystem) (path : Bytes) : FileSystem where
  node p := if p = path ∧ p ≠ [] ∧ fs.node p = none then some .other else fs.node p
  node_nil := by simp [fs.node_nil]

theorem readFile_mkdir (fs : FileSystem) (path p : Bytes) :
    (fs.mkdir path).readFile p = fs.readFile p := by
  simp only [readFile, mkdir]
  split_ifs with h
  · rw [h.2.2]
  · rfl

theorem pathExists_mkdir (fs : FileSystem) {path p : Bytes} (hne : path ≠ []) :
    (fs.mkdir path).pathExists p = (p == path || fs.pathExists p) := by
  simp only [pathExists, mkdir]
  by_cases h : p = path
  · subst h
    cases hn : fs.node p <;> simp [hne]
  · simp [h]

theorem not_pathExists_nil (fs : FileSystem) : fs.pathExists [] = false := by
  rw [pathExists, fs.node_nil]
  rfl

theorem readFile_nil (fs : FileSystem) : fs.readFile [] = none := by
  simp [readFile, fs.node_nil]

end FileSystem

end Repkgs.Jig
