import Repkgs.Lib.Toml

/-!
# Lock files

`locks/<eco>.toml` holds one table with a line for every entry, so that git can
merge two versions by the union of their lines. `normalize` of `locks.nu` repairs
what such a merge leaves: lines in any order and more than once. It reads the file,
or the file without its repeated lines, and writes the normal form of the table.
-/

namespace Repkgs.Uptrack.Locks

open Lib Toml

def renderField (x : Bytes × Bytes) : Bytes := x.1 ++ ascii " = \"" ++ x.2 ++ ascii "\""

def renderEntry (e : Bytes × Map Bytes Bytes) : Bytes :=
  let fields := (ascii ", ").intercalate ((Map.sorted e.2).map renderField)
  ascii "\"" ++ e.1 ++ ascii "\" = \x7b " ++ fields ++ ascii " \x7d"

/-- A file of the header line and these lines. -/
def lockFile (eco : Bytes) (lines : List Bytes) : Bytes :=
  (ascii "\n").intercalate ([ascii "[" ++ eco ++ ascii "]"] ++ lines) ++ ascii "\n"

def render (eco : Bytes) (entries : Table) : Bytes :=
  lockFile eco ((Map.sorted entries).map renderEntry)

/-- A line that ended in `\r\n`. -/
def dropReturn (line : Bytes) : Bytes :=
  if line.getLast? = some (chr '\r') then line.dropLast else line

/-- `lines` of Nushell. -/
def lines (text : Bytes) : List Bytes :=
  let pieces := text.splitOn (chr '\n')
  pieces.dropLast.map dropReturn ++ (pieces.getLast?.filter (· ≠ [])).toList

/-- `from toml | get $eco`. -/
def getTable (eco raw : Bytes) : Option Table := document raw >>= fun doc => doc.lookup eco

/-- The table of a file, whose repeated lines are dropped if it cannot be read with them. -/
def tableOf (eco raw : Bytes) : Option Table :=
  (getTable eco raw).or (getTable eco ((ascii "\n").intercalate (lines raw).eraseDups))

inductive Normalized
  | failed
  | kept
  | saved (text : Bytes)
  deriving DecidableEq

/-- `normalize` of a file with the contents `raw`. -/
def normalize (eco raw : Bytes) : Normalized :=
  match tableOf eco raw with
  | none => .failed
  | some entries => if render eco entries ≠ raw then .saved (render eco entries) else .kept

/-- The file afterwards. -/
def Normalized.file (raw : Bytes) : Normalized → Bytes
  | failed => raw
  | kept => raw
  | saved text => text

/-- A name that needs no quotes: that of an ecosystem or of a field. -/
structure Word where
  name : Bytes
  bare : Bare name

/-- A table as the lock functions make it; the fields of its entries (`mod`, `zip`, `version`,
`src`, `rev`, `cabal`, `sha256`) are named by words. -/
structure LockTable where
  entries : Table
  bare : ∀ k e, entries.lookup k = some e → ∀ f v, e.lookup f = some v → Bare f

namespace LockTable

/-- No quote, backslash or control character in keys and values. -/
def Clean (t : LockTable) : Prop :=
  ∀ k e, t.entries.lookup k = some e → Plain k ∧ ∀ f v, e.lookup f = some v → Plain v

/-- Common keys have the same values. -/
def Agrees (a b : LockTable) : Prop :=
  ∀ k e e', a.entries.lookup k = some e → b.entries.lookup k = some e' →
    ∀ f, e.lookup f = e'.lookup f

/-- The entry lines of the normal form. -/
def entryLines (t : LockTable) : List Bytes := (Map.sorted t.entries).map renderEntry

end LockTable

/-- An entry that a line can hold. -/
def Writable (e : Bytes × Map Bytes Bytes) : Prop :=
  Plain e.1 ∧ ∀ f v, e.2.lookup f = some v → Bare f ∧ Plain v

theorem renderEntry_eq (e : Bytes × Map Bytes Bytes) :
    renderEntry e = entry e.1 (Map.sorted e.2) := by
  have hfield : renderField = member := by
    funext x
    simp [renderField, member, quoted, show ascii " = \"" = ascii " = " ++ [chr '"'] by decide,
      show ascii "\"" = [chr '"'] by decide]
  simp [renderEntry, hfield, entry, members, quoted, show ascii "\"" = [chr '"'] by decide,
    show ascii "\" = \x7b " = chr '"' :: ascii " = \x7b " by decide]

theorem Writable.members {e : Bytes × Map Bytes Bytes} (h : Writable e) :
    ∀ m ∈ Map.sorted e.2, Bare m.1 ∧ Plain m.2 := by
  intro m hm
  exact h.2 m.1 m.2 (Map.mem_sorted.mp hm)

theorem readLine_renderEntry {e : Bytes × Map Bytes Bytes} (h : Writable e) :
    readLine (renderEntry e) = some (.entry e.1 (Map.sorted e.2)) := by
  rw [renderEntry_eq]
  exact readLine_entry h.1 h.members

/-- A line says which entry it holds. -/
theorem renderEntry_inj {e e' : Bytes × Map Bytes Bytes} (h : Writable e) (h' : Writable e') :
    renderEntry e = renderEntry e' ↔ e.1 = e'.1 ∧ Map.sorted e.2 = Map.sorted e'.2 := by
  constructor
  · intro heq
    have hread := readLine_renderEntry h
    rw [heq, readLine_renderEntry h'] at hread
    simpa [eq_comm] using hread
  · rintro ⟨hkey, hfields⟩
    rw [renderEntry_eq, renderEntry_eq, hkey, hfields]

theorem sorted_eq_iff {m m' : Map Bytes Bytes} :
    Map.sorted m = Map.sorted m' ↔ ∀ f, m.lookup f = m'.lookup f := by
  have h := @Map.map_sorted_eq_iff _ _ _ _ _ _ _ m m' (id : Bytes → Bytes)
  simpa using h

theorem newline_notMem_of_plain {text : Bytes} (h : Plain text) : chr '\n' ∉ text :=
  fun hmem => absurd (h _ hmem) (by decide)

theorem newline_notMem_of_bare {name : Bytes} (h : Bare name) : chr '\n' ∉ name :=
  fun hmem => absurd (h.2 _ hmem) (by decide)

theorem newline_notMem_intercalate {sep : Bytes} (hsep : chr '\n' ∉ sep) {pieces : List Bytes}
    (h : ∀ p ∈ pieces, chr '\n' ∉ p) : chr '\n' ∉ sep.intercalate pieces := by
  induction pieces with
  | nil => exact List.not_mem_nil
  | cons p ps ih =>
      obtain ⟨hp, hps⟩ := List.forall_mem_cons.mp h
      cases ps with
      | nil => simpa [List.intercalate] using hp
      | cons p' ps =>
          have hrest := ih hps
          simp only [List.intercalate, List.intersperse_cons_cons, List.flatten_cons,
            List.mem_append, not_or] at hrest ⊢
          exact ⟨hp, hsep, hrest⟩

theorem newline_notMem_renderEntry {e : Bytes × Map Bytes Bytes} (h : Writable e) :
    chr '\n' ∉ renderEntry e := by
  have hfields : chr '\n' ∉ (ascii ", ").intercalate ((Map.sorted e.2).map renderField) := by
    refine newline_notMem_intercalate (by decide) fun p hp => ?_
    obtain ⟨m, hm, rfl⟩ := List.mem_map.mp hp
    obtain ⟨hbare, hplain⟩ := h.members m hm
    simp only [renderField, List.mem_append, not_or]
    exact ⟨⟨⟨newline_notMem_of_bare hbare, by decide⟩, newline_notMem_of_plain hplain⟩, by decide⟩
  simp only [renderEntry, List.mem_append, not_or]
  exact ⟨⟨⟨⟨by decide, newline_notMem_of_plain h.1⟩, by decide⟩, hfields⟩, by decide⟩

/-- The first line of a file. -/
theorem header_eq (eco : Bytes) : ascii "[" ++ eco ++ ascii "]" = header eco := by
  simp [header, show ascii "[" = [chr '['] by decide, show ascii "]" = [chr ']'] by decide]

theorem dropReturn_append {line : Bytes} {b : Byte} (h : b ≠ chr '\r') :
    dropReturn (line ++ [b]) = line ++ [b] := by
  rw [dropReturn, List.getLast?_concat, if_neg (by simpa using h)]

section Files

variable {eco : Bytes} {es : List (Bytes × Map Bytes Bytes)}

/-- The lines of a file are those it was made of. -/
theorem splitOn_intercalate_entries (heco : Bare eco) (hes : ∀ e ∈ es, Writable e)
    (tail : List Bytes) (htail : ∀ l ∈ tail, l = []) :
    ((ascii "\n").intercalate (header eco :: (es.map renderEntry ++ tail))).splitOn (chr '\n') =
      header eco :: (es.map renderEntry ++ tail) := by
  refine List.splitOn_intercalate (chr '\n') ?_ (List.cons_ne_nil _ _)
  intro l hl
  simp only [List.mem_cons, List.mem_append, List.mem_map] at hl
  rcases hl with rfl | ⟨e, he, rfl⟩ | hl
  · simp only [← header_eq, List.mem_append, not_or]
    exact ⟨⟨by decide, newline_notMem_of_bare heco⟩, by decide⟩
  · exact newline_notMem_renderEntry (hes e he)
  · rw [htail l hl]
    exact List.not_mem_nil

theorem lockFile_eq (lines : List Bytes) :
    lockFile eco lines = (ascii "\n").intercalate (header eco :: (lines ++ [[]])) := by
  have hconcat (l : Bytes) (ls : List Bytes) :
      (ascii "\n").intercalate (l :: ls) ++ ascii "\n" =
        (ascii "\n").intercalate (l :: (ls ++ [[]])) := by
    induction ls generalizing l with
    | nil => simp [List.intercalate]
    | cons l' ls ih =>
        have hih := ih l'
        simp only [List.intercalate, List.intersperse_cons_cons, List.cons_append,
          List.flatten_cons, List.append_assoc] at hih ⊢
        rw [hih]
  rw [lockFile, header_eq, List.singleton_append, hconcat]

theorem splitOn_lockFile (heco : Bare eco) (hes : ∀ e ∈ es, Writable e) :
    (lockFile eco (es.map renderEntry)).splitOn (chr '\n') =
      header eco :: (es.map renderEntry ++ [[]]) := by
  rw [lockFile_eq, splitOn_intercalate_entries heco hes [[]] (by simp)]

theorem lines_lockFile (heco : Bare eco) (hes : ∀ e ∈ es, Writable e) :
    lines (lockFile eco (es.map renderEntry)) = header eco :: es.map renderEntry := by
  have hheader : dropReturn (header eco) = header eco := by
    rw [← header_eq]
    exact dropReturn_append (show chr ']' ≠ chr '\r' by decide)
  have hentry : ∀ l ∈ es.map renderEntry, dropReturn l = l := by
    intro l hl
    obtain ⟨e, -, rfl⟩ := List.mem_map.mp hl
    rw [renderEntry, show ascii " \x7d" = [chr ' '] ++ [chr '\x7d'] by decide, ← List.append_assoc]
    exact dropReturn_append (by decide)
  have hsplit := splitOn_lockFile heco hes
  rw [← List.cons_append] at hsplit
  have hmap : (es.map renderEntry).map dropReturn = es.map renderEntry := by
    rw [List.map_congr_left hentry, List.map_id']
  rw [lines, hsplit, List.dropLast_concat, List.getLast?_concat, List.map_cons, hheader, hmap]
  simp

/-- The lines of a file, each once. -/
theorem eraseDups_lines (heco : Bare eco) (hes : ∀ e ∈ es, Writable e) :
    (lines (lockFile eco (es.map renderEntry))).eraseDups =
      header eco :: (es.map renderEntry).eraseDups := by
  rw [lines_lockFile heco hes, List.eraseDups_cons]
  congr 2
  refine List.filter_eq_self.mpr fun l hl => ?_
  obtain ⟨e, -, rfl⟩ := List.mem_map.mp hl
  have hne : renderEntry e ≠ header eco := by
    intro heq
    have hhead := congrArg List.head? heq
    simp [renderEntry, header, show ascii "\"" = [chr '"'] by decide] at hhead
    exact absurd hhead (by decide)
  simpa using hne

/-- The entries of a list make up the table, as far as lookups go. -/
def Holds (t : Table) (es : List (Bytes × Map Bytes Bytes)) : Prop :=
  ∀ k x, (t.lookup k).map Map.sorted = some x ↔ ∃ e ∈ es, e.1 = k ∧ Map.sorted e.2 = x

theorem ofDistinct_sorted (m : Map Bytes Bytes) :
    ∃ m', Map.ofDistinct (Map.sorted m) = some m' ∧ Map.sorted m' = Map.sorted m := by
  obtain ⟨m', hm', hlookup⟩ := Map.ofDistinct_of_nodup (Map.keys_sorted_nodup m)
  refine ⟨m', hm', sorted_eq_iff.mpr fun f => Option.ext fun v => ?_⟩
  rw [hlookup, Map.mem_sorted]

/-- Copies of the entries are read. -/
theorem mapM_ofDistinct (es : List (Bytes × Map Bytes Bytes)) :
    ∃ es', (es.map fun e => (e.1, Map.sorted e.2)).mapM
        (fun e => (Map.ofDistinct e.2).map fun m => (e.1, m)) = some es' ∧
      es'.map Prod.fst = es.map Prod.fst ∧
      es'.map (Prod.map id Map.sorted) = es.map (Prod.map id Map.sorted) := by
  induction es with
  | nil => exact ⟨[], rfl, rfl, rfl⟩
  | cons e es ih =>
      obtain ⟨es', hes', hkeys, hvalues⟩ := ih
      obtain ⟨m', hm', hsorted⟩ := ofDistinct_sorted e.2
      refine ⟨(e.1, m') :: es', ?_, by simp [hkeys], ?_⟩
      · rw [List.map_cons, List.mapM_cons, hes', hm']
        rfl
      · rw [List.map_cons, List.map_cons, hvalues, Prod.map, hsorted]
        rfl

theorem table_sorted (es : List (Bytes × Map Bytes Bytes)) :
    ((es.map Prod.fst).Nodup →
      ∃ t, table (es.map fun e => (e.1, Map.sorted e.2)) = some t ∧ Holds t es) ∧
    (¬ (es.map Prod.fst).Nodup → table (es.map fun e => (e.1, Map.sorted e.2)) = none) := by
  obtain ⟨es', hes', hkeys, hvalues⟩ := mapM_ofDistinct es
  rw [table, hes', Option.bind_eq_bind, Option.bind_some, ← hkeys]
  refine ⟨fun hnodup => ?_, Map.ofDistinct_eq_none⟩
  obtain ⟨t, ht, hlookup⟩ := Map.ofDistinct_of_nodup hnodup
  refine ⟨t, ht, fun k x => ?_⟩
  have hmem : (k, x) ∈ es'.map (Prod.map id Map.sorted) ↔
      (k, x) ∈ es.map (Prod.map id Map.sorted) := by rw [hvalues]
  simp only [List.mem_map, Prod.map, id, Prod.mk.injEq] at hmem
  rw [← hmem, Option.map_eq_some_iff]
  constructor
  · rintro ⟨v, hv, rfl⟩
    exact ⟨(k, v), (hlookup k v).mp hv, rfl, rfl⟩
  · rintro ⟨e, he, rfl, rfl⟩
    exact ⟨e.2, (hlookup _ _).mpr he, rfl⟩

/-- A text of such lines is read exactly if no key comes twice. -/
theorem getTable_entries (heco : Bare eco) (hes : ∀ e ∈ es, Writable e) {text : Bytes} (n : Nat)
    (hsplit : text.splitOn (chr '\n') =
      header eco :: (es.map renderEntry ++ List.replicate n [])) :
    ((es.map Prod.fst).Nodup → ∃ t, getTable eco text = some t ∧ Holds t es) ∧
    (¬ (es.map Prod.fst).Nodup → getTable eco text = none) := by
  have hrows : es.map renderEntry =
      (es.map fun e => (e.1, Map.sorted e.2)).map fun e => entry e.1 e.2 := by
    rw [List.map_map]
    exact List.map_congr_left fun e _ => renderEntry_eq e
  have hplain : ∀ e ∈ es.map fun e => (e.1, Map.sorted e.2),
      Plain e.1 ∧ ∀ m ∈ e.2, Bare m.1 ∧ Plain m.2 := by
    intro e he
    obtain ⟨e, hmem, rfl⟩ := List.mem_map.mp he
    exact ⟨(hes e hmem).1, (hes e hmem).members⟩
  have hdocument := document_table heco hplain n (hrows ▸ hsplit)
  obtain ⟨hsome, hnone⟩ := table_sorted es
  refine ⟨fun hnodup => ?_, fun hnodup => ?_⟩
  · obtain ⟨t, ht, hholds⟩ := hsome hnodup
    refine ⟨t, ?_, hholds⟩
    rw [getTable, hdocument, ht]
    exact AList.lookup_insert _
  · rw [getTable, hdocument, hnone hnodup]
    rfl

/-- Entries with the same key are the same. -/
def Consistent (es : List (Bytes × Map Bytes Bytes)) : Prop :=
  ∀ e ∈ es, ∀ e' ∈ es, e.1 = e'.1 → Map.sorted e.2 = Map.sorted e'.2

theorem Consistent.of_nodup (h : (es.map Prod.fst).Nodup) : Consistent es := by
  intro e he e' he' hkey
  rw [List.inj_on_of_nodup_map h he he' hkey]

theorem nodup_eraseDups {α : Type*} [BEq α] [LawfulBEq α] (l : List α) : l.eraseDups.Nodup := by
  induction hn : l.length using Nat.strongRecOn generalizing l with
  | _ n ih =>
      cases l with
      | nil => exact List.nodup_nil
      | cons a l =>
          rw [List.eraseDups_cons, List.nodup_cons]
          refine ⟨by simp [List.mem_eraseDups], ih _ ?_ _ rfl⟩
          rw [← hn, List.length_cons]
          exact Nat.lt_succ_of_le (List.length_filter_le _ _)

/-- Lines that all hold entries of some kind. -/
theorem exists_map_renderEntry {P : Bytes × Map Bytes Bytes → Prop} {ls : List Bytes}
    (h : ∀ l ∈ ls, ∃ e, P e ∧ renderEntry e = l) :
    ∃ es : List (Bytes × Map Bytes Bytes), es.map renderEntry = ls ∧ ∀ e ∈ es, P e := by
  induction ls with
  | nil => exact ⟨[], rfl, nofun⟩
  | cons l ls ih =>
      obtain ⟨⟨e, he, rfl⟩, hls⟩ := List.forall_mem_cons.mp h
      obtain ⟨es, rfl, hes⟩ := ih hls
      exact ⟨e :: es, rfl, List.forall_mem_cons.mpr ⟨he, hes⟩⟩

/-- The table of a merged file: all entries, unless two of them contradict each other. -/
theorem tableOf_lockFile (heco : Bare eco) (hes : ∀ e ∈ es, Writable e) :
    (Consistent es → ∃ t, tableOf eco (lockFile eco (es.map renderEntry)) = some t ∧ Holds t es) ∧
    (¬ Consistent es → tableOf eco (lockFile eco (es.map renderEntry)) = none) := by
  obtain ⟨hread, hfail⟩ := getTable_entries heco hes 1 (splitOn_lockFile heco hes)
  obtain ⟨es', hlines, hsub⟩ := exists_map_renderEntry fun l hl =>
    List.mem_map.mp ((List.mem_eraseDups (l := es.map renderEntry)).mp hl)
  have hes' : ∀ e ∈ es', Writable e := fun e he => hes e (hsub e he)
  have htext : (ascii "\n").intercalate (lines (lockFile eco (es.map renderEntry))).eraseDups =
      (ascii "\n").intercalate (header eco :: (es'.map renderEntry ++ [])) := by
    rw [eraseDups_lines heco hes, ← hlines, List.append_nil]
  obtain ⟨hread', hfail'⟩ := getTable_entries heco hes' 0
    (splitOn_intercalate_entries heco hes' [] nofun)
  -- every entry is still there, if in another copy
  have hcopy : ∀ e ∈ es, ∃ e' ∈ es', e'.1 = e.1 ∧ Map.sorted e'.2 = Map.sorted e.2 := by
    intro e he
    have hmem : renderEntry e ∈ es'.map renderEntry := by
      rw [hlines, List.mem_eraseDups]
      exact List.mem_map_of_mem he
    obtain ⟨e', he', heq⟩ := List.mem_map.mp hmem
    exact ⟨e', he', (renderEntry_inj (hes' e' he') (hes e he)).mp heq⟩
  rw [tableOf, htext]
  by_cases hnodup : (es.map Prod.fst).Nodup
  · refine ⟨fun _ => ?_, fun h => absurd (Consistent.of_nodup hnodup) h⟩
    obtain ⟨t, ht, hholds⟩ := hread hnodup
    exact ⟨t, by rw [ht, Option.some_or], hholds⟩
  · rw [hfail hnodup, Option.none_or]
    constructor
    · intro hconsistent
      have hkeys : (es'.map Prod.fst).Nodup := by
        have hdistinct := hlines ▸ nodup_eraseDups (es.map renderEntry)
        rw [List.Nodup, List.pairwise_map] at hdistinct ⊢
        refine hdistinct.imp_of_mem fun {e e'} he he' hne hkey => hne ?_
        exact (renderEntry_inj (hes' e he) (hes' e' he')).mpr
          ⟨hkey, hconsistent e (hsub e he) e' (hsub e' he') hkey⟩
      obtain ⟨t, ht, hholds⟩ := hread' hkeys
      refine ⟨t, ht, fun k x => (hholds k x).trans ⟨?_, ?_⟩⟩
      · rintro ⟨e, he, hk, hx⟩
        exact ⟨e, hsub e he, hk, hx⟩
      · rintro ⟨e, he, hk, hx⟩
        obtain ⟨e', he', hkey, hsorted⟩ := hcopy e he
        exact ⟨e', he', hkey.trans hk, hsorted.trans hx⟩
    · intro hconsistent
      refine hfail' fun hkeys => hconsistent fun e he e' he' hkey => ?_
      obtain ⟨c, hc, hckey, hcsorted⟩ := hcopy e he
      obtain ⟨c', hc', hckey', hcsorted'⟩ := hcopy e' he'
      have hsame := Consistent.of_nodup hkeys c hc c' hc' (hckey.trans (hkey.trans hckey'.symm))
      exact hcsorted.symm.trans (hsame.trans hcsorted')

end Files

theorem render_congr (eco : Bytes) {t t' : Table}
    (h : ∀ k, (t.lookup k).map Map.sorted = (t'.lookup k).map Map.sorted) :
    render eco t = render eco t' := by
  have hlines (t : Table) : (Map.sorted t).map renderEntry =
      ((Map.sorted t).map (Prod.map id Map.sorted)).map fun e => entry e.1 e.2 := by
    rw [List.map_map]
    exact List.map_congr_left fun e _ => renderEntry_eq e
  rw [render, render, hlines, hlines, Map.map_sorted_eq_iff.mpr h]

theorem LockTable.Clean.writable {t : LockTable} (h : t.Clean) :
    ∀ e ∈ Map.sorted t.entries, Writable e := by
  intro e he
  have hlookup := Map.mem_sorted.mp he
  exact ⟨(h _ _ hlookup).1, fun f v hv => ⟨t.bare _ _ hlookup f v hv, (h _ _ hlookup).2 f v hv⟩⟩

/-- A file whose table is that of a lock table is rewritten to its normal form. -/
theorem normalize_of_tableOf {eco raw : Bytes} {t t' : Table} (ht : tableOf eco raw = some t)
    (h : ∀ k, (t.lookup k).map Map.sorted = (t'.lookup k).map Map.sorted) :
    normalize eco raw ≠ .failed ∧ (normalize eco raw).file raw = render eco t' := by
  rw [normalize, ht]
  dsimp only
  rw [render_congr eco h]
  by_cases hraw : render eco t' = raw
  · rw [if_neg (not_not_intro hraw)]
    exact ⟨nofun, hraw.symm⟩
  · rw [if_pos hraw]
    exact ⟨nofun, rfl⟩

theorem LockTable.mem_entryLines {t : LockTable} {line : Bytes} :
    line ∈ t.entryLines ↔ ∃ e ∈ Map.sorted t.entries, renderEntry e = line :=
  List.mem_map

section Merge

variable {a b : LockTable} {es : List (Bytes × Map Bytes Bytes)}

theorem map_sorted_lookup_iff {t : Table} {k : Bytes} {x : List (Bytes × Bytes)} :
    (t.lookup k).map Map.sorted = some x ↔
      ∃ e ∈ Map.sorted t, e.1 = k ∧ Map.sorted e.2 = x := by
  rw [Option.map_eq_some_iff]
  constructor
  · rintro ⟨v, hv, hx⟩
    exact ⟨(k, v), Map.mem_sorted.mpr hv, rfl, hx⟩
  · rintro ⟨e, he, rfl, hx⟩
    exact ⟨e.2, Map.mem_sorted.mp he, hx⟩

/-- A list with the lines of two tables has their entries. -/
theorem entries_iff (ha : a.Clean) (hb : b.Clean)
    (hes : ∀ e ∈ es, e ∈ Map.sorted a.entries ∨ e ∈ Map.sorted b.entries)
    (hlines : ∀ line, line ∈ a.entryLines ∨ line ∈ b.entryLines → line ∈ es.map renderEntry)
    (k : Bytes) (x : List (Bytes × Bytes)) :
    (∃ e ∈ es, e.1 = k ∧ Map.sorted e.2 = x) ↔
      (a.entries.lookup k).map Map.sorted = some x ∨
        (b.entries.lookup k).map Map.sorted = some x := by
  have hwritable : ∀ e ∈ es, Writable e := fun e he =>
    (hes e he).elim (ha.writable e) (hb.writable e)
  -- the line of an entry of either table is among the lines
  have hline (e : Bytes × Map Bytes Bytes) (he : Writable e)
      (hmem : renderEntry e ∈ a.entryLines ∨ renderEntry e ∈ b.entryLines) :
      ∃ e' ∈ es, e'.1 = e.1 ∧ Map.sorted e'.2 = Map.sorted e.2 := by
    obtain ⟨e', he', heq⟩ := List.mem_map.mp (hlines _ hmem)
    exact ⟨e', he', (renderEntry_inj (hwritable e' he') he).mp heq⟩
  rw [map_sorted_lookup_iff, map_sorted_lookup_iff]
  constructor
  · rintro ⟨e, he, hk, hx⟩
    exact (hes e he).imp (fun h => ⟨e, h, hk, hx⟩) fun h => ⟨e, h, hk, hx⟩
  · rintro (⟨e, he, rfl, rfl⟩ | ⟨e, he, rfl, rfl⟩)
    · exact hline e (ha.writable e he) (Or.inl (LockTable.mem_entryLines.mpr ⟨e, he, rfl⟩))
    · exact hline e (hb.writable e he) (Or.inr (LockTable.mem_entryLines.mpr ⟨e, he, rfl⟩))

/-- Two tables agree exactly if their lines do not contradict each other. -/
theorem agrees_iff (hiff : ∀ k x, (∃ e ∈ es, e.1 = k ∧ Map.sorted e.2 = x) ↔
      (a.entries.lookup k).map Map.sorted = some x ∨
        (b.entries.lookup k).map Map.sorted = some x) :
    a.Agrees b ↔ Consistent es := by
  constructor
  · intro hagrees e he e' he' hkey
    have h := (hiff e.1 _).mp ⟨e, he, rfl, rfl⟩
    have h' := (hiff e.1 _).mp ⟨e', he', hkey.symm, rfl⟩
    -- only an entry of one table and an entry of the other need the assumption
    have hcross {v v' : Map Bytes Bytes} (hv : a.entries.lookup e.1 = some v)
        (hv' : b.entries.lookup e.1 = some v') : Map.sorted v = Map.sorted v' :=
      sorted_eq_iff.mpr (hagrees e.1 v v' hv hv')
    rcases h with h | h <;> rcases h' with h' | h'
    · exact Option.some.inj (h.symm.trans h')
    · obtain ⟨v, hv, hx⟩ := Option.map_eq_some_iff.mp h
      obtain ⟨v', hv', hx'⟩ := Option.map_eq_some_iff.mp h'
      exact hx.symm.trans ((hcross hv hv').trans hx')
    · obtain ⟨v, hv, hx⟩ := Option.map_eq_some_iff.mp h
      obtain ⟨v', hv', hx'⟩ := Option.map_eq_some_iff.mp h'
      exact hx.symm.trans ((hcross hv' hv).symm.trans hx')
    · exact Option.some.inj (h.symm.trans h')
  · intro hconsistent k v v' hv hv'
    obtain ⟨e, he, hk, hx⟩ := (hiff k (Map.sorted v)).mpr (Or.inl (by rw [hv]; rfl))
    obtain ⟨e', he', hk', hx'⟩ := (hiff k (Map.sorted v')).mpr (Or.inr (by rw [hv']; rfl))
    exact sorted_eq_iff.mp
      (hx.symm.trans ((hconsistent e he e' he' (hk.trans hk'.symm)).trans hx'))

/-- The table of the lines is the union. -/
theorem lookup_union_of_agrees (hagrees : a.Agrees b) (k : Bytes) (x : List (Bytes × Bytes)) :
    ((a.entries ∪ b.entries).lookup k).map Map.sorted = some x ↔
      (a.entries.lookup k).map Map.sorted = some x ∨
        (b.entries.lookup k).map Map.sorted = some x := by
  cases ha : a.entries.lookup k with
  | none =>
      rw [AList.lookup_union_right (AList.lookup_eq_none.mp ha)]
      simp
  | some v =>
      rw [AList.lookup_union_left (AList.lookup_isSome.mp (by rw [ha]; rfl)), ha]
      refine ⟨Or.inl, fun h => h.elim id fun h => ?_⟩
      obtain ⟨v', hv', hx'⟩ := Option.map_eq_some_iff.mp h
      rw [Option.map_some, sorted_eq_iff.mpr (hagrees k v v' ha hv'), hx']

end Merge

/-- A union merge of two normal forms is repaired to the normal form of the union where the
tables agree, and refused where they do not; a normal form stays as it is. -/
theorem normalize_union_merge (eco : Word) (a b : LockTable) (ha : a.Clean) (hb : b.Clean)
    (merged : List Bytes)
    (hmerged : ∀ line, line ∈ merged ↔ line ∈ a.entryLines ∨ line ∈ b.entryLines) :
    (a.Agrees b → normalize eco.name (lockFile eco.name merged) ≠ .failed ∧
      (normalize eco.name (lockFile eco.name merged)).file (lockFile eco.name merged) =
        render eco.name (a.entries ∪ b.entries)) ∧
    normalize eco.name (render eco.name a.entries) = .kept ∧
    (¬ a.Agrees b → normalize eco.name (lockFile eco.name merged) = .failed) := by
  obtain ⟨es, rfl, hes⟩ := @exists_map_renderEntry
    (fun e => e ∈ Map.sorted a.entries ∨ e ∈ Map.sorted b.entries) merged fun l hl => by
      rcases (hmerged l).mp hl with h | h
      · obtain ⟨e, he, heq⟩ := LockTable.mem_entryLines.mp h
        exact ⟨e, Or.inl he, heq⟩
      · obtain ⟨e, he, heq⟩ := LockTable.mem_entryLines.mp h
        exact ⟨e, Or.inr he, heq⟩
  have hiff := entries_iff ha hb hes fun l => (hmerged l).mpr
  obtain ⟨hread, hfail⟩ := tableOf_lockFile eco.bare fun e he =>
    (hes e he).elim (ha.writable e) (hb.writable e)
  refine ⟨fun hagrees => ?_, ?_, fun hagrees => ?_⟩
  · obtain ⟨t, ht, hholds⟩ := hread ((agrees_iff hiff).mp hagrees)
    refine normalize_of_tableOf ht fun k => Option.ext fun x => ?_
    rw [hholds, hiff, lookup_union_of_agrees hagrees]
  · obtain ⟨hread, -⟩ := tableOf_lockFile eco.bare ha.writable
    obtain ⟨t, ht, hholds⟩ := hread (Consistent.of_nodup (Map.keys_sorted_nodup a.entries))
    have hsame : ∀ k, (t.lookup k).map Map.sorted = (a.entries.lookup k).map Map.sorted :=
      fun k => Option.ext fun x => (hholds k x).trans map_sorted_lookup_iff.symm
    rw [normalize, render, ht]
    dsimp only
    rw [render_congr eco.name hsame, render, if_neg (not_not_intro rfl)]
  · rw [normalize, hfail fun h => hagrees ((agrees_iff hiff).mpr h)]

/-- A table with one Go module that was needed for its `go.mod` only. -/
def modOnly (key hash : Bytes) : LockTable where
  entries := AList.insert key (AList.insert (ascii "mod") hash ∅) ∅
  bare := by
    intro k e he f v hv
    rw [Map.lookup_insert_eq, AList.lookup_empty] at he
    split at he
    · cases he
      rw [Map.lookup_insert_eq, AList.lookup_empty] at hv
      split at hv
      · subst f
        decide
      · cases hv
    · cases he

theorem modOnly_clean {key hash : Bytes} (hkey : Plain key) (hhash : Plain hash) :
    (modOnly key hash).Clean := by
  intro k e he
  rw [modOnly, Map.lookup_insert_eq, AList.lookup_empty] at he
  split at he
  · subst k
    cases he
    refine ⟨hkey, fun f v hv => ?_⟩
    rw [Map.lookup_insert_eq, AList.lookup_empty] at hv
    split at hv
    · cases hv
      exact hhash
    · cases hv
  · cases he

/-- The lines of one branch stand on both sides of those of the other. -/
theorem normalize_union_merge_go :
    let eco : Word := ⟨ascii "go", by decide⟩
    let a := modOnly (ascii "cel.dev/expr@v0.25.1") (ascii "sha256-Z0Un")
    let b := modOnly (ascii "gopkg.in/yaml.v3@v3.0.1") (ascii "sha256-FqL9")
    let merged := b.entryLines ++ a.entryLines ++ b.entryLines
    (a.Clean ∧ b.Clean ∧ a.Agrees b ∧
      (∀ line, line ∈ merged ↔ line ∈ a.entryLines ∨ line ∈ b.entryLines)) ∧
    (a.Agrees b → normalize eco.name (lockFile eco.name merged) ≠ .failed ∧
      (normalize eco.name (lockFile eco.name merged)).file (lockFile eco.name merged) =
        render eco.name (a.entries ∪ b.entries)) ∧
    normalize eco.name (render eco.name a.entries) = .kept ∧
    (¬ a.Agrees b → normalize eco.name (lockFile eco.name merged) = .failed) := by
  intro eco a b merged
  have ha : a.Clean := modOnly_clean (by decide) (by decide)
  have hb : b.Clean := modOnly_clean (by decide) (by decide)
  have hmerged : ∀ line, line ∈ merged ↔ line ∈ a.entryLines ∨ line ∈ b.entryLines := by
    intro line
    rw [List.mem_append, List.mem_append, or_comm, ← or_assoc, or_self, or_comm]
  have hagrees : a.Agrees b := by
    intro k e e' he he'
    simp only [a, b, modOnly, Map.lookup_insert_eq, AList.lookup_empty] at he he'
    split at he
    · subst k
      rw [if_neg (by decide)] at he'
      cases he'
    · cases he
  exact ⟨⟨ha, hb, hagrees, hmerged⟩, normalize_union_merge eco a b ha hb merged hmerged⟩

end Repkgs.Uptrack.Locks
