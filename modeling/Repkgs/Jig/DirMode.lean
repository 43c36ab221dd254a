import Repkgs.Jig.Numbers
import Repkgs.Jig.Store

/-!
# Directories in the cache

`PutDir` stores a listing of a directory and the contents of its files, `GetDir`
restores the directory (`dir_mode.cc`). Blobs are evicted independently of listings,
so `GetDir` takes back what it has written when a file cannot be restored.
-/

namespace Repkgs.Jig.Dir

open Lib

/-- An entry that `PutDir` lists. -/
inductive Listed
  | file (mode : Nat) (hash rel : Bytes)
  | link (target rel : Bytes)
  deriving DecidableEq

namespace Listed

def rel : Listed → Bytes
  | .file _ _ rel => rel
  | .link _ rel => rel

/-- `<kind> <mode-octal> <hash-or-target>\t<relpath>`. -/
def line : Listed → Bytes
  | .file mode hash rel => ascii "f " ++ octal mode ++ ascii " " ++ hash ++ ascii "\t" ++ rel
  | .link target rel => ascii "l 0 " ++ target ++ ascii "\t" ++ rel

end Listed

/-- The text `PutDir` stores. -/
def render (entries : List Listed) : Bytes := entries.flatMap fun e => e.line ++ ascii "\n"

/-- `struct Entry`. -/
structure Entry where
  kind : Byte
  mode : Nat
  ref : Bytes
  rel : Bytes
  deriving DecidableEq

/-- What separates words. -/
def isBlank (c : Byte) : Bool := c == chr ' ' || c == chr '\t' || c == chr '\n'

/-- `SplitWhitespace`. -/
def splitWhitespace (text : Bytes) : List Bytes :=
  (text.splitOnP isBlank).filter fun word => !word.isEmpty

/-- `kDefaultMode`. -/
def defaultMode : Nat := 0o644

/-- One line of `ParseListing`. -/
def parseLine (line : Bytes) : Option Entry :=
  match splitWhitespace (cut (chr '\t') line).1 with
  | [kind, mode, ref] =>
      if chr '\t' ∈ line then
        some ⟨kind.headD 0, ((parseOctal mode).getD defaultMode) % 2 ^ 32, ref,
          (cut (chr '\t') line).2.drop 1⟩
      else none
  | _ => none

def parseListing (text : Bytes) : List Entry := (split text (chr '\n')).filterMap parseLine

/-- What stands at a path. -/
inductive Node
  | file (bytes : Bytes)
  | link (target : Bytes)
  deriving DecidableEq

/-- The files and links of the directory, by their paths in it. -/
abbrev Tree := Map Bytes Node

/-- How `WriteFile` ends: the temporary file could not be written and was removed, it
could not be renamed and stays, or it became the file. -/
inductive WriteResult
  | failed
  | renameFailed
  | done
  deriving DecidableEq

/-- The temporary file of `WriteFile`, beside the file. -/
def tempOf (pid : Nat) (rel : Bytes) : Bytes :=
  rel.take (rel.length - (fileName rel).length) ++ ascii ".jig" ++ decimal pid ++ ascii "." ++
    fileName rel

/-- `WriteFile`. -/
def writeFile (pid : Nat) (tree : Tree) (rel data : Bytes) : WriteResult → Tree × Bool
  | .failed => (tree.erase (tempOf pid rel), false)
  | .renameFailed => (tree.insert (tempOf pid rel) (.file data), false)
  | .done => ((tree.erase (tempOf pid rel)).insert rel (.file data), true)

/-- The surroundings of a run of `GetDir`: what the daemon answers, the store of the build
and the order of a pass over its roots, and which creations succeed. -/
structure DirRun where
  connects : Bool
  listing : Option Bytes
  getMany : Nat → List Bytes → List (Option Bytes)
  store : Store
  order : List (Bytes × Bytes)
  pid : Nat
  linkOk : Nat → Bool
  write : Nat → WriteResult

/-- `Restored`: texts get the roots of this build. -/
def DirRun.restored (io : DirRun) (data : Bytes) : Bytes :=
  if 0 ∈ data then data else io.store.resolveAll io.order data

/-- `kBatch`. -/
def batchSize : Nat := 256

/-- The blob that the batch of the `n`-th file brought for it. -/
def DirRun.blob (io : DirRun) (files : List Entry) (n : Nat) : Option Bytes :=
  let start := n / batchSize * batchSize
  let keys := ((files.drop start).take batchSize).map fun e => ascii "b/" ++ e.ref
  ((io.getMany (n / batchSize) keys)[n % batchSize]?).join

/-- The `n`-th link: what stands there goes first, and errors are ignored. -/
def makeLink (ok : Nat → Bool) (tree : Tree) (link : Entry × Nat) : Tree :=
  let tree := tree.erase link.1.rel
  if ok link.2 then tree.insert link.1.rel (.link link.1.ref) else tree

/-- The loop over the files: what was written, and how many are missing. -/
structure Progress where
  tree : Tree
  written : List Bytes
  missing : Nat

def DirRun.addFile (io : DirRun) (blob : Nat → Option Bytes) (st : Progress) (file : Entry × Nat) :
    Progress :=
  match blob file.2 with
  | none => { st with missing := st.missing + 1 }
  | some data =>
      let r := writeFile io.pid st.tree file.1.rel (io.restored data) (io.write file.2)
      if r.2 then { st with tree := r.1, written := st.written ++ [file.1.rel] }
      else { st with tree := r.1, missing := st.missing + 1 }

def linksOf (entries : List Entry) : List Entry := entries.filter fun e => e.kind = chr 'l'

def filesOf (entries : List Entry) : List Entry := entries.filter fun e => e.kind = chr 'f'

def DirRun.linkTree (io : DirRun) (links : List Entry) : Tree :=
  links.zipIdx.foldl (makeLink io.linkOk) ∅

/-- Both loops over the entries of a listing. -/
def DirRun.restore (io : DirRun) (entries : List Entry) : Progress :=
  (filesOf entries).zipIdx.foldl (io.addFile (io.blob (filesOf entries)))
    ⟨io.linkTree (linksOf entries), (linksOf entries).map Entry.rel, 0⟩

/-- `GetDir` into an empty directory: its result, and what the directory holds then. -/
def getDir (io : DirRun) : Nat × Tree :=
  if !io.connects then (2, ∅)
  else
    match io.listing with
    | none => (1, ∅)
    | some text =>
        let st := io.restore (parseListing text)
        if st.missing ≠ 0 then (1, st.written.foldl (fun tree rel => tree.erase rel) st.tree)
        else (0, st.tree)

def isHashChar (c : Byte) : Bool := (ascii "0123456789abcdef").contains c

/-- What `PutDir` can list: every path once, permission bits and hashes in hex for
files, and targets of links. -/
structure PutListing (entries : List Listed) : Prop where
  nodup : (entries.map Listed.rel).Nodup
  files : ∀ mode hash rel, Listed.file mode hash rel ∈ entries →
    mode < 0o1000 ∧ hash ≠ [] ∧ hash.all isHashChar = true
  targets : ∀ target rel, Listed.link target rel ∈ entries → target ≠ []

/-- The entry comes back from the listing: no newline in its path, and no blank, tab
or newline in the target of a link. -/
def Listed.Spelled : Listed → Prop
  | .file _ _ rel => chr '\n' ∉ rel
  | .link target rel => chr '\n' ∉ rel ∧ ∀ c ∈ target, isBlank c = false

instance : (e : Listed) → Decidable e.Spelled
  | .file _ _ rel => inferInstanceAs (Decidable (chr '\n' ∉ rel))
  | .link target rel =>
      inferInstanceAs (Decidable (chr '\n' ∉ rel ∧ ∀ c ∈ target, isBlank c = false))

/-- The entry as `ParseListing` reads it. -/
def Listed.entry : Listed → Entry
  | .file mode hash rel => ⟨chr 'f', mode, hash, rel⟩
  | .link target rel => ⟨chr 'l', 0, target, rel⟩

/-- A word without blanks. -/
structure Word (w : Bytes) : Prop where
  ne_nil : w ≠ []
  blank : ∀ c ∈ w, isBlank c = false

theorem word_of_all {w : Bytes} (hne : w ≠ []) (h : w.all (fun c => !isBlank c) = true) : Word w :=
  ⟨hne, fun c hc => by simpa using List.all_eq_true.mp h c hc⟩

theorem Word.notMem {w : Bytes} (h : Word w) {c : Byte} (hc : isBlank c = true) : c ∉ w :=
  fun hmem => absurd (hc.symm.trans (h.blank c hmem)) (by decide)

theorem word_hash {hash : Bytes} (hne : hash ≠ []) (h : hash.all isHashChar = true) :
    Word hash := by
  refine ⟨hne, fun c hc => ?_⟩
  have hall : (ascii "0123456789abcdef").all (fun c => !isBlank c) = true := by decide
  simpa using List.all_eq_true.mp hall c (List.contains_iff_mem.mp (List.all_eq_true.mp h c hc))

theorem word_octal (n : Nat) : Word (octal n) := by
  refine ⟨octal_ne_nil n, fun c hc => ?_⟩
  have hdigit := isOctalDigit_of_mem_octal hc
  by_contra hblank
  simp only [isBlank, Bool.not_eq_false, Bool.or_eq_true, beq_iff_eq] at hblank
  rcases hblank with (rfl | rfl) | rfl <;> exact absurd hdigit (by decide)

theorem splitWhitespace_three {x y z : Bytes} (hx : Word x) (hy : Word y) (hz : Word z) :
    splitWhitespace (x ++ ascii " " ++ y ++ ascii " " ++ z) = [x, y, z] := by
  have htext : x ++ ascii " " ++ y ++ ascii " " ++ z = x ++ chr ' ' :: (y ++ chr ' ' :: z) := by
    simp [ascii, chr]
  rw [splitWhitespace, htext, List.splitOnP_append_cons_of_forall_mem hx.blank _ rfl,
    List.splitOnP_append_cons_of_forall_mem hy.blank _ rfl, List.splitOnP_eq_singleton hz.blank]
  simp [hx.ne_nil, hy.ne_nil, hz.ne_nil]

theorem parseLine_spelled {kind mode ref rel : Bytes} {value : Nat} (hkind : Word kind)
    (hmode : Word mode) (href : Word ref) (hvalue : parseOctal mode = some value)
    (hlt : value < 2 ^ 32) :
    parseLine (kind ++ ascii " " ++ mode ++ ascii " " ++ ref ++ ascii "\t" ++ rel) =
      some ⟨kind.headD 0, value, ref, rel⟩ := by
  have hline : kind ++ ascii " " ++ mode ++ ascii " " ++ ref ++ ascii "\t" ++ rel =
      (kind ++ ascii " " ++ mode ++ ascii " " ++ ref) ++ chr '\t' :: rel := by
    simp [ascii, chr]
  have htab : chr '\t' ∉ kind ++ ascii " " ++ mode ++ ascii " " ++ ref := by
    simp only [List.mem_append, not_or]
    exact ⟨⟨⟨⟨hkind.notMem rfl, by decide⟩, hmode.notMem rfl⟩, by decide⟩, href.notMem rfl⟩
  rw [parseLine, hline, cut_append_cons htab, splitWhitespace_three hkind hmode href]
  simpa [hvalue] using hlt

variable {entries : List Listed}

theorem PutListing.parseLine_line (h : PutListing entries) {e : Listed} (he : e ∈ entries)
    (hspelled : e.Spelled) : parseLine e.line = some e.entry := by
  cases e with
  | file mode hash rel =>
      obtain ⟨hmode, hne, hhash⟩ := h.files mode hash rel he
      have hkind : Word (ascii "f") := word_of_all (List.cons_ne_nil _ _) (by decide)
      have hfront : ascii "f " = ascii "f" ++ ascii " " := by decide
      rw [Listed.line, hfront]
      exact parseLine_spelled hkind (word_octal mode) (word_hash hne hhash)
        (parseOctal_octal (hmode.trans (by decide))) (hmode.trans (by decide))
  | link target rel =>
      have hkind : Word (ascii "l") := word_of_all (List.cons_ne_nil _ _) (by decide)
      have hzero : Word (ascii "0") := word_of_all (List.cons_ne_nil _ _) (by decide)
      have hfront : ascii "l 0 " = ascii "l" ++ ascii " " ++ ascii "0" ++ ascii " " := by decide
      rw [Listed.line, hfront]
      exact parseLine_spelled hkind hzero ⟨h.targets target rel he, hspelled.2⟩
        (by decide : parseOctal (ascii "0") = some 0) (by decide)

/-- The line of an entry that is spelled has no newline and is not empty. -/
theorem PutListing.newline_notMem (h : PutListing entries) {e : Listed} (he : e ∈ entries)
    (hspelled : e.Spelled) : chr '\n' ∉ e.line ∧ e.line ≠ [] := by
  cases e with
  | file mode hash rel =>
      obtain ⟨-, hne, hhash⟩ := h.files mode hash rel he
      refine ⟨?_, by simp [Listed.line, ascii]⟩
      simp only [Listed.line, List.mem_append, not_or]
      exact ⟨⟨⟨⟨⟨by decide, (word_octal mode).notMem rfl⟩, by decide⟩,
        (word_hash hne hhash).notMem rfl⟩, by decide⟩, hspelled⟩
  | link target rel =>
      have htarget : Word target := ⟨h.targets target rel he, hspelled.2⟩
      refine ⟨?_, by simp [Listed.line, ascii]⟩
      simp only [Listed.line, List.mem_append, not_or]
      exact ⟨⟨⟨by decide, htarget.notMem rfl⟩, by decide⟩, hspelled.1⟩

/-- A listing whose entries are all spelled comes back as it is. -/
theorem PutListing.parseListing_render (h : PutListing entries)
    (hspelled : ∀ e ∈ entries, e.Spelled) :
    parseListing (render entries) = entries.map Listed.entry := by
  have hlines : render entries = (entries.map Listed.line).flatMap (· ++ [chr '\n']) := by
    rw [List.flatMap_map]
    rfl
  have hsplit : split (render entries) (chr '\n') = entries.map Listed.line := by
    rw [hlines, split_flatMap]
    · apply List.filter_eq_self.mpr
      intro line hline
      obtain ⟨e, he, rfl⟩ := List.mem_map.mp hline
      simpa using (h.newline_notMem he (hspelled e he)).2
    · intro line hline
      obtain ⟨e, he, rfl⟩ := List.mem_map.mp hline
      exact (h.newline_notMem he (hspelled e he)).1
  rw [parseListing, hsplit, List.filterMap_map, ← List.filterMap_eq_map]
  apply List.filterMap_congr
  intro e he
  exact h.parseLine_line he (hspelled e he)

/-- What a listing of any kind gives: a path without a newline, and a word. -/
theorem of_mem_parseListing {text : Bytes} {e : Entry} (h : e ∈ parseListing text) :
    chr '\n' ∉ e.rel ∧ Word e.ref := by
  obtain ⟨line, hline, he⟩ := List.mem_filterMap.mp h
  obtain ⟨hnewline, -⟩ := of_mem_split hline
  unfold parseLine at he
  split at he
  · next kind mode ref hwords =>
      split_ifs at he with htab
      cases he
      have href : ref ∈ splitWhitespace (cut (chr '\t') line).1 := by simp [hwords]
      obtain ⟨hmem, hne⟩ := List.mem_filter.mp href
      refine ⟨fun hrel => hnewline ?_, by simpa using hne, of_mem_splitOnP hmem⟩
      exact (List.dropWhile_sublist _).subset ((List.drop_sublist _ _).subset hrel)
  · cases he

end Repkgs.Jig.Dir
