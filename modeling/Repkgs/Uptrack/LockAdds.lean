import Repkgs.Uptrack.Locks

/-!
# Adding to a lock file

Every package adds its dependencies to the shared file: `add` reads the table, merges its
own entries into it and writes the normal form. So the file stands for a table over any
number of additions, and repairing it in between changes nothing.
-/

namespace Repkgs.Uptrack.Locks

open Lib Toml

/-- `read`: the table of a file, which need not be there. -/
def read (eco : Bytes) : Option Bytes → Option Table
  | none => some ∅
  | some raw => getTable eco raw

/-- `write`: the file afterwards. -/
def write (eco : Bytes) (entries : Table) : Option Bytes := some (render eco entries)

/-- `add` of entries that were found for a package: the file afterwards, unless the old one
cannot be read. -/
def add (eco : Bytes) (file : Option Bytes) (mine : Table) : Option (Option Bytes) :=
  (read eco file).map fun old => write eco (mine ∪ old)

/-- The entry of a key in the last table that has one. -/
def lastEntry (tables : List LockTable) (k : Bytes) : Option (Map Bytes Bytes) :=
  tables.reverse.findSome? fun t => t.entries.lookup k

/-- Lookups give the same fields. -/
def Same (t t' : Table) : Prop := ∀ k, (t.lookup k).map Map.sorted = (t'.lookup k).map Map.sorted

theorem lookup_union_eq (a b : Table) (k : Bytes) :
    (a ∪ b).lookup k = (a.lookup k).or (b.lookup k) := by
  cases ha : a.lookup k with
  | none => rw [AList.lookup_union_right (AList.lookup_eq_none.mp ha), Option.none_or]
  | some v =>
      rw [AList.lookup_union_left (AList.lookup_isSome.mp (by rw [ha]; rfl)), ha, Option.some_or]

theorem Same.union {a t t' : Table} (h : Same t t') : Same (a ∪ t) (a ∪ t') := by
  intro k
  rw [lookup_union_eq, lookup_union_eq, Option.map_or, Option.map_or, h k]

section

variable {eco : Word} {t : Table} {file : Option Bytes}

/-- A normal form is read back, and repairing it leaves it as it is. -/
theorem getTable_render (h : ∀ e ∈ Map.sorted t, Writable e) :
    (∃ t', getTable eco.name (render eco.name t) = some t' ∧ Same t' t) ∧
      (normalize eco.name (render eco.name t)).file (render eco.name t) = render eco.name t := by
  obtain ⟨t', ht', hholds⟩ :=
    (getTable_entries eco.bare h 1 (splitOn_lockFile eco.bare h)).1 (Map.keys_sorted_nodup t)
  have hsame : Same t' t :=
    fun k => Option.ext fun x => (hholds k x).trans map_sorted_lookup_iff.symm
  have htable : tableOf eco.name (render eco.name t) = some t' := by
    rw [tableOf, render, ht', Option.some_or]
  exact ⟨⟨t', ht', hsame⟩, (normalize_of_tableOf htable hsame).2⟩

/-- The file stands for the table: there is none yet, or it is the normal form. -/
def Stands (eco : Word) (file : Option Bytes) (t : Table) : Prop :=
  (∀ e ∈ Map.sorted t, Writable e) ∧ (file = none ∧ t = ∅ ∨ file = some (render eco.name t))

theorem Stands.read_back (h : Stands eco file t) :
    ∃ t', read eco.name file = some t' ∧ Same t' t := by
  obtain ⟨hwritable, ⟨rfl, rfl⟩ | rfl⟩ := h
  · exact ⟨∅, rfl, fun _ => rfl⟩
  · exact (getTable_render hwritable).1

theorem Stands.add (h : Stands eco file t) {mine : LockTable} (hmine : mine.Clean) :
    ∃ file', add eco.name file mine.entries = some file' ∧ Stands eco file' (mine.entries ∪ t) := by
  obtain ⟨t', ht', hsame⟩ := h.read_back
  refine ⟨_, by rw [Locks.add, ht', Option.map_some], fun e he => ?_, .inr ?_⟩
  · have hlookup := Map.mem_sorted.mp he
    rw [lookup_union_eq, Option.or_eq_some_iff] at hlookup
    rcases hlookup with hlookup | ⟨-, hlookup⟩
    · exact hmine.writable e (Map.mem_sorted.mpr hlookup)
    · exact h.1 e (Map.mem_sorted.mpr hlookup)
  · -- what is written does not depend on the order in which fields were read
    rw [write, render_congr eco.name hsame.union]

end

/-- After any additions the file is there to be read, with the last entry of every key and no
others, and repairing it leaves it as it is. -/
theorem adds_read_back (eco : Word) {mines : List LockTable} (h : ∀ mine ∈ mines, mine.Clean) :
    ∃ file t, (mines.map LockTable.entries).foldlM (add eco.name) none = some file ∧
      read eco.name file = some t ∧
      (∀ k, (t.lookup k).map Map.sorted = (lastEntry mines k).map Map.sorted) ∧
      ∀ raw ∈ file, (normalize eco.name raw).file raw = raw := by
  have hruns : ∃ file t, (mines.map LockTable.entries).foldlM (add eco.name) none = some file ∧
      Stands eco file t ∧ ∀ k, t.lookup k = lastEntry mines k := by
    induction mines using List.reverseRecOn with
    | nil => exact ⟨none, ∅, rfl, ⟨by simp [Map.mem_sorted], .inl ⟨rfl, rfl⟩⟩, fun _ => rfl⟩
    | append_singleton mines mine ih =>
        obtain ⟨file, t, hfile, hstands, hlast⟩ := ih fun m hm => h m (List.mem_append_left _ hm)
        obtain ⟨file', hadd, hstands'⟩ := hstands.add (h mine (by simp))
        refine ⟨file', _, ?_, hstands', fun k => ?_⟩
        · rw [List.map_append, List.foldlM_append, hfile]
          simp [hadd]
        · rw [lookup_union_eq, hlast, lastEntry, lastEntry, List.reverse_append]
          cases hk : mine.entries.lookup k <;> simp [hk]
  obtain ⟨file, t, hfile, hstands, hlast⟩ := hruns
  obtain ⟨t', ht', hsame⟩ := hstands.read_back
  refine ⟨file, t', hfile, ht', fun k => by rw [hsame k, hlast], ?_⟩
  rintro raw ⟨⟩
  obtain ⟨hwritable, ⟨hnone, -⟩ | hraw⟩ := hstands
  · cases hnone
  · cases hraw
    exact (getTable_render hwritable).2

/-- The second package brings a new hash for the key of the first one. -/
theorem adds_read_back_go :
    let mines := [ascii "sha256-Z0Un", ascii "sha256-Z1Un"].map (modOnly (ascii "cel.dev/expr"))
    ∃ file t, (mines.map LockTable.entries).foldlM (add (ascii "go")) none = some file ∧
      read (ascii "go") file = some t ∧
      ∀ k, (t.lookup k).map Map.sorted = (lastEntry mines k).map Map.sorted := by
  intro mines
  have hclean : ∀ mine ∈ mines, mine.Clean := by
    simp only [mines, List.map_cons, List.map_nil, List.forall_mem_cons]
    exact ⟨modOnly_clean (by decide) (by decide), modOnly_clean (by decide) (by decide), nofun⟩
  obtain ⟨file, t, hfile, hread, hlast, -⟩ := adds_read_back ⟨ascii "go", by decide⟩ hclean
  exact ⟨file, t, hfile, hread, hlast⟩

end Repkgs.Uptrack.Locks
