import Repkgs.Lib.Attrs
import Repkgs.Lib.Text

/-!
# Nix values

The values that specs and override trees are made of, and the builtins that read
them. A function is known by the number of its cell. An attribute set is the list of its
members in the order of their names; `Value.Sorted` says so for a whole value.
-/

namespace Repkgs.Nix

open Repkgs.Lib

inductive Value where
  | null
  | bool (b : Bool)
  | int (n : Int)
  | string (text : Bytes)
  | list (items : List Value)
  | attrs (members : List (Bytes × Value))
  | lambda (id : Nat)

/-- A `throw` of the source, or an error of the evaluator. -/
inductive Error where
  | thrown (message : Bytes)
  | eval
  deriving DecidableEq

namespace Value

def typeOf : Value → Bytes
  | null => ascii "null"
  | bool _ => ascii "bool"
  | int _ => ascii "int"
  | string _ => ascii "string"
  | list _ => ascii "list"
  | attrs _ => ascii "set"
  | lambda _ => ascii "lambda"

def isAttrs : Value → Bool
  | attrs _ => true
  | _ => false

def isTrue : Value → Bool
  | bool b => b
  | _ => false

/-- `value.name`, if the value is a set that has it. -/
def get (name : Bytes) : Value → Option Value
  | attrs members => members.lookup name
  | _ => none

def has (name : Bytes) (value : Value) : Bool := (value.get name).isSome

def attrNames : Value → List Bytes
  | attrs members => members.map Prod.fst
  | _ => []

/-- The value below `value` at a path. -/
def atPath (path : List Bytes) (value : Value) : Option Value :=
  path.foldlM (fun v name => v.get name) value

/-- `left // right`. -/
def update : Value → Value → Except Error Value
  | attrs left, attrs right => .ok (attrs (updateAttrs left right))
  | _, _ => .error .eval

mutual

/-- How many sets are nested. -/
def depth : Value → Nat
  | attrs members => depthOfMembers members + 1
  | _ => 0

def depthOfMembers : List (Bytes × Value) → Nat
  | [] => 0
  | (_, value) :: rest => max value.depth (depthOfMembers rest)

end

mutual

/-- The members of every set are in the order of their names. -/
def Sorted : Value → Prop
  | attrs members => SortedNames members ∧ MembersSorted members
  | list items => ItemsSorted items
  | _ => True

def MembersSorted : List (Bytes × Value) → Prop
  | [] => True
  | (_, value) :: rest => value.Sorted ∧ MembersSorted rest

def ItemsSorted : List Value → Prop
  | [] => True
  | value :: rest => value.Sorted ∧ ItemsSorted rest

end

/-- A set with `type = "derivation"`. -/
def isDerivation (members : List (Bytes × Value)) : Bool :=
  match members.lookup (ascii "type") with
  | some (string text) => decide (text = ascii "derivation")
  | _ => false

mutual

/-- `==`. Derivations are compared by their `outPath`, and a function equals only what is
in the same cell. -/
def same : Value → Value → Bool
  | null, null => true
  | bool a, bool b => a == b
  | int a, int b => a == b
  | string a, string b => a == b
  | list a, list b => sameItems a b
  | attrs a, attrs b =>
      if isDerivation a && isDerivation b then (sameOutPath a b).getD (sameMembers a b)
      else sameMembers a b
  | lambda a, lambda b => a == b
  | _, _ => false
termination_by structural v => v

/-- Whether two sets have the same `outPath`, if both have one. -/
def sameOutPath : List (Bytes × Value) → List (Bytes × Value) → Option Bool
  | [], _ => none
  | (k, a) :: as, bs =>
      if k = ascii "outPath" then
        match bs.lookup (ascii "outPath") with
        | some b => some (a.same b)
        | none => none
      else sameOutPath as bs
termination_by structural v => v

def sameItems : List Value → List Value → Bool
  | [], [] => true
  | a :: as, b :: bs => a.same b && sameItems as bs
  | _, _ => false
termination_by structural v => v

def sameMembers : List (Bytes × Value) → List (Bytes × Value) → Bool
  | [], [] => true
  | (k, a) :: as, (l, b) :: bs => k == l && a.same b && sameMembers as bs
  | _, _ => false
termination_by structural v => v

end

mutual

/-- `toString`. -/
def toText : Value → Except Error Bytes
  | null => .ok []
  | bool b => .ok (if b then ascii "1" else [])
  | int n => .ok ((if n < 0 then ascii "-" else []) ++ (Nat.toDigits 10 n.natAbs).map chr)
  | string text => .ok text
  | list items => itemsToText items
  | attrs members => outPathToText members
  | lambda _ => .error .eval

/-- The texts of the items with blanks between them, none behind an empty list. -/
def itemsToText : List Value → Except Error Bytes
  | [] => .ok []
  | [value] => value.toText
  | value :: rest => do
      let text ← value.toText
      let texts ← itemsToText rest
      match value with
      | list [] => .ok (text ++ texts)
      | _ => .ok (text ++ ascii " " ++ texts)

/-- A set is shown as its store path. -/
def outPathToText : List (Bytes × Value) → Except Error Bytes
  | [] => .error .eval
  | (name, value) :: rest =>
      if name = ascii "outPath" then value.toText else outPathToText rest

end

mutual

theorem same_self : ∀ v : Value, v.same v = true
  | null => rfl
  | bool b => beq_self_eq_true b
  | int n => beq_self_eq_true n
  | string text => beq_self_eq_true text
  | list items => sameItems_self items
  | attrs members => by
      rw [same, sameMembers_self members, sameOutPath_self members members rfl]
      exact ite_self true
  | lambda id => beq_self_eq_true id

theorem sameItems_self : ∀ items : List Value, sameItems items items = true
  | [] => rfl
  | v :: rest => by
      rw [sameItems, same_self v, sameItems_self rest]
      rfl

theorem sameMembers_self : ∀ members : List (Bytes × Value), sameMembers members members = true
  | [] => rfl
  | (k, v) :: rest => by
      rw [sameMembers, same_self v, sameMembers_self rest, beq_self_eq_true]
      rfl

theorem sameOutPath_self : ∀ as bs : List (Bytes × Value),
    bs.lookup (ascii "outPath") = as.lookup (ascii "outPath") → (sameOutPath as bs).getD true = true
  | [], _, _ => rfl
  | (k, v) :: rest, bs, h => by
      rw [List.lookup_cons] at h
      rw [sameOutPath]
      split
      · next hk =>
          rw [hk, beq_self_eq_true] at h
          rw [h]
          exact same_self v
      · next hk =>
          rw [beq_false_of_ne (Ne.symm hk)] at h
          exact sameOutPath_self rest bs h

end

@[simp] theorem get_attrs (name : Bytes) (members : List (Bytes × Value)) :
    (attrs members).get name = members.lookup name := rfl

@[simp] theorem atPath_nil (value : Value) : value.atPath [] = some value := rfl

theorem atPath_cons (name : Bytes) (path : List Bytes) (value : Value) :
    value.atPath (name :: path) = (value.get name).bind (·.atPath path) := rfl

theorem atPath_append (path path' : List Bytes) (value : Value) :
    value.atPath (path ++ path') = (value.atPath path).bind (·.atPath path') := by
  rw [atPath, List.foldlM_append]
  rfl

variable {value sub : Value} {name : Bytes} {members : List (Bytes × Value)}

theorem isAttrs_iff : value.isAttrs ↔ ∃ members, value = attrs members := by
  cases value <;> simp [isAttrs]

theorem get_isSome_iff :
    (value.get name).isSome ↔ name ∈ value.attrNames := by
  cases value with
  | attrs members => exact lookup_isSome_iff
  | _ => simp [get, attrNames]

theorem depth_le_of_mem {e : Bytes × Value} (h : e ∈ members) :
    e.2.depth ≤ depthOfMembers members := by
  induction members with
  | nil => cases h
  | cons m rest ih =>
      rw [depthOfMembers]
      rcases List.mem_cons.mp h with rfl | htail
      · exact le_max_left _ _
      · exact le_trans (ih htail) (le_max_right _ _)

theorem depth_lt_of_get (h : value.get name = some sub) :
    sub.depth < value.depth := by
  cases value with
  | attrs members => exact Nat.lt_succ_of_le (depth_le_of_mem (mem_of_lookup h))
  | _ => cases h

theorem membersSorted_iff :
    MembersSorted members ↔ ∀ e ∈ members, e.2.Sorted := by
  induction members with
  | nil => simp [MembersSorted]
  | cons e rest ih => simp [MembersSorted, ih]

theorem Sorted.get (h : value.Sorted) (hget : value.get name = some sub) : sub.Sorted := by
  cases value with
  | attrs members =>
      rw [Sorted] at h
      exact membersSorted_iff.mp h.2 _ (mem_of_lookup hget)
  | _ => cases hget

theorem Sorted.atPath {path : List Bytes} (h : value.Sorted) (hat : value.atPath path = some sub) :
    sub.Sorted := by
  induction path generalizing value with
  | nil =>
      cases hat
      exact h
  | cons name path ih =>
      rw [atPath_cons, Option.bind_eq_some_iff] at hat
      obtain ⟨v, hget, hat⟩ := hat
      exact ih (h.get hget) hat

theorem Sorted.names (h : (attrs members).Sorted) :
    SortedNames members := by
  rw [Sorted] at h
  exact h.1

end Value

end Repkgs.Nix
