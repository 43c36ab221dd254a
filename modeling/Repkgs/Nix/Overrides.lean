import Repkgs.Nix.Value

/-!
# Override trees

`nix/overrides.nix`: a tree of fields and verbs edits the spec of a package. Several
trees are merged into one, attribute by attribute, and the merged tree is walked
together with the spec.
-/

namespace Repkgs.Nix

open Repkgs.Lib

namespace Overrides

def verbs : List Bytes :=
  [ascii "set", ascii "append", ascii "prepend", ascii "merge", ascii "remove"]

/-- A set, not empty, all of whose names are verbs. -/
def isVerbNode : Value → Bool
  | .attrs members => !members.isEmpty && members.all fun e => decide (e.1 ∈ verbs)
  | _ => false

/-- The values the trees have at a name, in the order of the trees. -/
def valuesOf (trees : List Value) (name : Bytes) : List Value := trees.filterMap (·.get name)

/-- `zipAttrsWith`. -/
def zipAttrsWith (f : Bytes → List Value → Except Error Value) (trees : List Value) :
    Except Error Value :=
  if trees.all Value.isAttrs then
    (tabulateM (trees.flatMap Value.attrNames) fun name => f name (valuesOf trees name)).map .attrs
  else .error .eval

/-- `foldl' (a: b: a // b) { } vals`. -/
def unite (vals : List Value) : Except Error Value :=
  vals.foldlM Value.update (.attrs [])

def itemsOf (name : Bytes) : Value → Except Error (List Value)
  | .list items => .ok items
  | v => .error (.thrown (ascii "overrides: " ++ name ++ ascii " takes a list, got a " ++ v.typeOf))

def concatLists (name : Bytes) (vals : List Value) : Except Error Value :=
  (vals.mapM (itemsOf name)).map fun lists => .list lists.flatten

/-- The function `mergeTrees` zips the trees with. -/
def mergeValues (mergeTrees : List Value → Except Error Value) (name : Bytes)
    (vals : List Value) : Except Error Value :=
  -- a field that happens to be called like a verb holds verb nodes itself
  if name ∈ verbs ∧ vals.all isVerbNode then mergeTrees vals
  else if name = ascii "set" ∨ name = ascii "edit" then
    match vals.getLast? with
    | some v => .ok v
    | none => .error .eval
  else if name = ascii "features" then unite vals
  else if name = ascii "remove" ∧ vals.any Value.isTrue then .ok (.bool true)
  else if name = ascii "append" ∨ name = ascii "prepend" ∨ name = ascii "remove" then
    concatLists name vals
  else if name = ascii "merge" then unite vals
  else if vals.all Value.isAttrs then mergeTrees vals
  else .error (.thrown (ascii "overrides: conflicting values at " ++ name))

/-- `mergeTrees` down to a depth. -/
def mergeTreesTo : Nat → List Value → Except Error Value
  | 0, _ => .error .eval
  | depth + 1, trees => zipAttrsWith (mergeValues (mergeTreesTo depth)) trees

def depthOf (trees : List Value) : Nat := (trees.map Value.depth).foldr max 0

/-- `mergeTrees`; the trees are not deeper than this. -/
def mergeTrees (trees : List Value) : Except Error Value :=
  mergeTreesTo (depthOf trees + 1) trees

def depFields : List Bytes := [ascii "dependencies", ascii "buildDependencies"]

/-- `d.pname or d.name or (toString d)`. -/
def pname (d : Value) : Except Error Value :=
  match d.get (ascii "pname"), d.get (ascii "name") with
  | some v, _ => .ok v
  | none, some v => .ok v
  | none, none => d.toText.map .string

structure Context where
  pkg : Bytes
  pkgs : Value

def showPath (path : List Bytes) : Bytes := (ascii ".").intercalate path

def fail {α : Type} (ctx : Context) (path : List Bytes) (msg : Bytes) : Except Error α :=
  .error (.thrown
    (ascii "overrides: " ++ ctx.pkg ++ ascii "." ++ showPath path ++ ascii ": " ++ msg))

def isDeps (path : List Bytes) : Bool :=
  decide (path.length = 1) && decide (path.headD [] ∈ depFields)

/-- In a list of dependencies a string names a package of the final set. -/
def resolve (ctx : Context) (path : List Bytes) (v : Value) : Except Error Value :=
  match v with
  | .string name =>
      if isDeps path then
        match ctx.pkgs.get name with
        | some package => .ok package
        | none => fail ctx path (ascii "no package named " ++ name)
      else .ok v
  | _ => .ok v

def wrongArg {α : Type} (ctx : Context) (path : List Bytes) (verb want : Bytes) (v : Value) :
    Except Error α :=
  fail ctx path (verb ++ ascii " takes a " ++ want ++ ascii ", got a " ++ v.typeOf)

/-- `arg verb "list"`. -/
def argList (ctx : Context) (path : List Bytes) (node : Value) (verb : Bytes) :
    Except Error (List Value) :=
  match node.get verb with
  | some (.list items) => items.mapM (resolve ctx path)
  | some v => wrongArg ctx path verb (ascii "list") v
  | none => .error .eval

/-- `arg verb "set"`. -/
def argSet (ctx : Context) (path : List Bytes) (node : Value) (verb : Bytes) :
    Except Error (List (Bytes × Value)) :=
  match node.get verb with
  | some (.attrs members) => .ok members
  | some v => wrongArg ctx path verb (ascii "set") v
  | none => .error .eval

/-- `node.remove or null == true`. -/
def removesField (node : Value) : Bool := ((node.get (ascii "remove")).map Value.isTrue).getD false

def addsLists (node : Value) : Bool := node.has (ascii "prepend") || node.has (ascii "append")

/-- The node removes elements or names. -/
def drops (node : Value) : Bool := node.has (ascii "remove") && !removesField node

/-- What stands for an element when it is compared with those removed. -/
def dropKey (path : List Bytes) (d : Value) : Except Error Value :=
  if isDeps path then pname d else .ok d

def dropped (ctx : Context) (path : List Bytes) (node : Value) : Except Error (List Value) :=
  if drops node then do
    let listed ← argList ctx path node (ascii "remove")
    listed.mapM fun r =>
      match r with
      | .string _ => .ok r
      | _ => dropKey path r
  else .ok []

def keep (ctx : Context) (path : List Bytes) (node d : Value) : Except Error Bool := do
  let names ← dropped ctx path node
  if names.isEmpty then .ok true
  else do
    let key ← dropKey path d
    .ok !(names.any key.same)

/-- `removeAttrs`, whose second argument has strings only. -/
def removeAttrs (members : List (Bytes × Value)) (names : List Value) :
    Except Error (List (Bytes × Value)) := do
  let texts ← names.mapM fun
    | .string text => .ok text
    | _ => .error Error.eval
  .ok (removeNames members texts)

/-- The value the other verbs edit. -/
def start (ctx : Context) (path : List Bytes) (node : Value) (has : Bool) (old : Value) :
    Except Error Value :=
  match node.get (ascii "set") with
  | some v => if isDeps path then (argList ctx path node (ascii "set")).map .list else .ok v
  | none =>
      if has && !removesField node then .ok old
      else if node.has (ascii "merge") then .ok (.attrs [])
      else if addsLists node then .ok (.list [])
      else if node.has (ascii "remove") then
        if has then .ok .null else fail ctx path (ascii "remove: no such field")
      else fail ctx path (ascii "no such field (use .set to create it)")

/-- What a `remove` of elements or names leaves of a value. -/
def dropFrom (ctx : Context) (path : List Bytes) (node : Value) : Value → Except Error Value
  | .list items => (items.filterM (keep ctx path node)).map .list
  | .attrs members => do
      let names ← dropped ctx path node
      (removeAttrs members names).map .attrs
  | v => fail ctx path (ascii "remove from a " ++ v.typeOf ++ ascii ", expected a list or set")

def afterRemove (ctx : Context) (path : List Bytes) (node : Value) (has : Bool) (old : Value) :
    Except Error Value := do
  let v ← start ctx path node has old
  if drops node then dropFrom ctx path node v else .ok v

/-- `remove` also filters what `merge` adds. -/
def mergeInto (ctx : Context) (path : List Bytes) (node : Value) : Value → Except Error Value
  | .attrs members => do
      let added ← argSet ctx path node (ascii "merge")
      let names ← dropped ctx path node
      let added ← removeAttrs added names
      .ok (.attrs (updateAttrs members added))
  | v => fail ctx path (ascii "merge into a " ++ v.typeOf ++ ascii ", expected a set")

def afterMerge (ctx : Context) (path : List Bytes) (node : Value) (has : Bool) (old : Value) :
    Except Error Value := do
  let v ← afterRemove ctx path node has old
  if node.has (ascii "merge") then mergeInto ctx path node v else .ok v

/-- The list of a verb that the node may lack. -/
def optionalList (ctx : Context) (path : List Bytes) (node : Value) (verb : Bytes) :
    Except Error (List Value) :=
  if node.has verb then argList ctx path node verb else .ok []

/-- `prepend` and `append`, and what `remove` leaves of them. -/
def addTo (ctx : Context) (path : List Bytes) (node : Value) : Value → Except Error Value
  | .list items => do
      let front ← optionalList ctx path node (ascii "prepend")
      let back ← optionalList ctx path node (ascii "append")
      ((front ++ items ++ back).filterM (keep ctx path node)).map .list
  | v => fail ctx path (ascii "append to a " ++ v.typeOf ++ ascii ", expected a list")

def applyVerbs (ctx : Context) (path : List Bytes) (node : Value) (has : Bool) (old : Value) :
    Except Error Value := do
  let v ← afterMerge ctx path node has old
  if addsLists node then addTo ctx path node v else .ok v

/-- The node `{ remove = true; }`, which the caller of `walk` takes out. -/
def isRemoveTrue : Value → Bool
  | .attrs [(name, .bool true)] => decide (name = ascii "remove")
  | _ => false

/-- The names that are verbs but hold no verb node. -/
def misplaced (members : List (Bytes × Value)) : List Bytes :=
  (members.filter fun e => decide (e.1 ∈ verbs) && !isVerbNode e.2).map Prod.fst

def mixed {α : Type} (ctx : Context) (path : List Bytes) (members : List (Bytes × Value)) :
    Except Error α :=
  fail ctx path (ascii "mixes verbs (" ++ (ascii " ").intercalate (misplaced members) ++
    ascii ") with fields (" ++
    (ascii " ").intercalate
      ((members.filter fun e => decide (e.1 ∉ verbs) || isVerbNode e.2).map Prod.fst) ++ ascii ")")

/-- The set that a field node edits. -/
def current (ctx : Context) (path : List Bytes) (has : Bool) (old : Value) :
    Except Error (List (Bytes × Value)) :=
  if has then
    match old with
    | .attrs members => .ok members
    | v => fail ctx path (ascii "is a " ++ v.typeOf ++ ascii ", cannot descend")
  else .ok []

mutual

def walk (ctx : Context) (path : List Bytes) (tree : Value) (has : Bool) (old : Value) :
    Except Error Value :=
  match tree with
  | .attrs members =>
      if isVerbNode (.attrs members) then applyVerbs ctx path (.attrs members) has old
      else if (Value.attrs members).has (ascii "edit") then
        .error (.thrown (ascii "overrides: " ++ ctx.pkg ++ ascii "." ++ showPath path ++
          ascii ".edit: edit goes on the package, not a field"))
      else if misplaced members ≠ [] then mixed ctx path members
      else do
        let cur ← current ctx path has old
        let edited ← walkMembers ctx path cur members
        let removed := (members.filter fun e => isRemoveTrue e.2).map Prod.fst
        .ok (.attrs (removeNames (updateAttrs cur edited) removed))
  | v =>
      fail ctx path (ascii "expected a verb (" ++ (ascii " ").intercalate verbs ++
        ascii "), got a " ++ v.typeOf)

def walkMembers (ctx : Context) (path : List Bytes) (cur : List (Bytes × Value))
    (members : List (Bytes × Value)) : Except Error (List (Bytes × Value)) :=
  match members with
  | [] => .ok []
  | (name, sub) :: rest => do
      let v ← walk ctx (path ++ [name]) sub (cur.lookup name).isSome ((cur.lookup name).getD .null)
      let vs ← walkMembers ctx path cur rest
      .ok ((name, v) :: vs)

end

/-- One package's subtree applied to its spec. `call` applies a function to a value. -/
def applyOne (call : Nat → Value → Except Error Value) (pkgs : Value) (name : Bytes)
    (node spec : Value) : Except Error Value :=
  match node with
  | .attrs members =>
      match members.lookup (ascii "edit") with
      | none => walk ⟨name, pkgs⟩ [] (.attrs (removeNames members [ascii "edit"])) true spec
      | some (.lambda id) => do
          let v ← walk ⟨name, pkgs⟩ [] (.attrs (removeNames members [ascii "edit"])) true spec
          call id v
      | some v => .error (.thrown (ascii "overrides: " ++ name ++
          ascii ".edit: expected a function spec -> spec, got a " ++ v.typeOf))
  | v => .error (.thrown (ascii "overrides: " ++ name ++
      ascii ": expected \x7b <field>" ++ [0xe2, 0x80, 0xa6] ++ ascii " \x7d, got a " ++ v.typeOf))

end Overrides

end Repkgs.Nix
