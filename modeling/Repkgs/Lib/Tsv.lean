import Mathlib.Data.List.Basic

/-!
# Delimited records

The reader of delimited text: fields end at the delimiter, records at the end of a line,
and empty lines are no records. A field that begins with a quote goes on to the next single
one, across delimiters and lines.
-/

namespace Repkgs.Lib

/-- What separates fields and records. `eol` is the end of a line as a writer puts it. -/
structure Dialect (α : Type*) where
  delimiter : α
  quote : α
  isEnd : α → Bool
  eol : α
  isEnd_delimiter : isEnd delimiter = false
  isEnd_eol : isEnd eol = true
  delimiter_ne_quote : delimiter ≠ quote
  eol_ne_quote : eol ≠ quote

inductive TsvMode
  | newRecord
  | newField
  | inField
  | quoted
  /-- Behind a quote in a quoted field: it ends the field or stands for itself. -/
  | quoteInQuoted
  deriving DecidableEq

/-- The records that are complete, the fields of the next one, and the next field. -/
structure TsvReading (α : Type*) where
  mode : TsvMode
  field : List α
  record : List (List α)
  records : List (List (List α))

namespace Dialect

variable {α : Type*} [DecidableEq α] (d : Dialect α)

def unquoted (r : TsvReading α) (c : α) : TsvReading α :=
  if c = d.delimiter then ⟨.newField, [], r.record ++ [r.field], r.records⟩
  else if d.isEnd c then ⟨.newRecord, [], [], r.records ++ [r.record ++ [r.field]]⟩
  else { r with mode := .inField, field := r.field ++ [c] }

def next (r : TsvReading α) (c : α) : TsvReading α :=
  match r.mode with
  | .newRecord =>
      if d.isEnd c then r else if c = d.quote then { r with mode := .quoted } else d.unquoted r c
  | .newField => if c = d.quote then { r with mode := .quoted } else d.unquoted r c
  | .inField => d.unquoted r c
  | .quoted =>
      if c = d.quote then { r with mode := .quoteInQuoted }
      else { r with field := r.field ++ [c] }
  | .quoteInQuoted =>
      if c = d.quote then { r with mode := .quoted, field := r.field ++ [c] } else d.unquoted r c

/-- The records of a text; the last one may end with the text. -/
def records (text : List α) : List (List (List α)) :=
  let r := text.foldl d.next ⟨.newRecord, [], [], []⟩
  if r.mode = .newRecord then r.records else r.records ++ [r.record ++ [r.field]]

/-- A field that is read as it is written. -/
structure Plain (field : List α) : Prop where
  inside : ∀ c ∈ field, c ≠ d.delimiter ∧ d.isEnd c = false
  first : field.head? ≠ some d.quote

variable {d} {field : List α} {record : List (List α)} {rows : List (List (List α))}

theorem foldl_inField (front : List α) (h : ∀ c ∈ field, c ≠ d.delimiter ∧ d.isEnd c = false) :
    field.foldl d.next ⟨.inField, front, record, rows⟩ =
      ⟨.inField, front ++ field, record, rows⟩ := by
  induction field generalizing front with
  | nil => rw [List.append_nil, List.foldl_nil]
  | cons c field ih =>
      obtain ⟨⟨hdelimiter, hend⟩, hfield⟩ := List.forall_mem_cons.mp h
      have hnext : d.next ⟨.inField, front, record, rows⟩ c =
          ⟨.inField, front ++ [c], record, rows⟩ := by
        simp only [next, unquoted, hdelimiter, hend, if_false, Bool.false_eq_true]
      rw [List.foldl_cons, hnext, ih _ hfield, List.append_assoc, List.singleton_append]

/-- A plain field, from its beginning. -/
theorem foldl_field (h : d.Plain field) {m : TsvMode} (hm : m = .newRecord ∨ m = .newField) :
    field.foldl d.next ⟨m, [], record, rows⟩ =
      ⟨if field = [] then m else .inField, field, record, rows⟩ := by
  cases field with
  | nil => rfl
  | cons c field =>
      obtain ⟨⟨hc, hend⟩, hfield⟩ := List.forall_mem_cons.mp h.inside
      have hquote : c ≠ d.quote := fun heq => h.first (by rw [heq, List.head?_cons])
      have hnext : d.next ⟨m, [], record, rows⟩ c = ⟨.inField, [c], record, rows⟩ := by
        rcases hm with rfl | rfl <;> simp [next, unquoted, hc, hend, hquote]
      rw [List.foldl_cons, hnext, foldl_inField [c] hfield, if_neg (List.cons_ne_nil c field)]
      rfl

variable (d) in
/-- A line of two fields. -/
def line (row : List α × List α) : List α := row.1 ++ d.delimiter :: (row.2 ++ [d.eol])

/-- Lines of two plain fields are read as they were written. -/
theorem records_lines {pairs : List (List α × List α)}
    (h : ∀ row ∈ pairs, d.Plain row.1 ∧ d.Plain row.2) :
    d.records (pairs.flatMap d.line) = pairs.map fun row => [row.1, row.2] := by
  have hread (rows : List (List (List α))) :
      (pairs.flatMap d.line).foldl d.next ⟨.newRecord, [], [], rows⟩ =
        ⟨.newRecord, [], [], rows ++ pairs.map fun row => [row.1, row.2]⟩ := by
    induction pairs generalizing rows with
    | nil => simp
    | cons row pairs ih =>
        obtain ⟨⟨hfirst, hlast⟩, hpairs⟩ := List.forall_mem_cons.mp h
        have hend := d.isEnd_eol
        have heol : d.eol ≠ d.delimiter := by
          intro heq
          rw [heq, d.isEnd_delimiter] at hend
          cases hend
        have hdelimiter : d.next ⟨if row.1 = [] then .newRecord else .inField,
            row.1, [], rows⟩ d.delimiter = ⟨.newField, [], [row.1], rows⟩ := by
          split <;> simp [next, unquoted, d.isEnd_delimiter, d.delimiter_ne_quote]
        have hstop : d.next ⟨if row.2 = [] then .newField else .inField, row.2, [row.1], rows⟩
            d.eol = ⟨.newRecord, [], [], rows ++ [[row.1, row.2]]⟩ := by
          split <;> simp [next, unquoted, heol, hend, d.eol_ne_quote]
        rw [List.flatMap_cons, line, List.append_assoc, List.foldl_append,
          foldl_field hfirst (Or.inl rfl), List.cons_append, List.foldl_cons, hdelimiter,
          List.append_assoc, List.foldl_append, foldl_field hlast (Or.inr rfl),
          List.singleton_append, List.foldl_cons, hstop, ih hpairs, List.map_cons,
          List.append_assoc, List.singleton_append]
  rw [records, hread []]
  rfl

end Dialect

end Repkgs.Lib
