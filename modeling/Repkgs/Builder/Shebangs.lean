import Mathlib.Algebra.GroupWithZero.Nat
import Mathlib.Data.List.TakeWhile

/-!
# Interpreters of scripts

`fix-shebangs` of `core.nu` rewrites `#!` lines to the programs found on `PATH` and
keeps the original of each rewritten file under the hash of the new text.
`fix-shebangs --undo` looks up what it finds in an installed tree and puts the
originals back.
-/

namespace Repkgs.Builder

/-- A UTF-8 text. -/
abbrev Text := List Char

/-- The text behind a given one. -/
def strip (front text : Text) : Option Text :=
  if front.isPrefixOf text then some (text.drop front.length) else none

/-- `#! ?` -/
def afterBang (line : Text) : Option Text :=
  (strip ['#', '!'] line).map fun rest => (strip [' '] rest).getD rest

/-- `(/usr(/local)?)?/bin/` -/
def binPath (rest : Text) : Option Text :=
  (strip "/usr/local/bin/".toList rest).or
    ((strip "/usr/bin/".toList rest).or (strip "/bin/".toList rest))

def rows (text : Text) : List Text := text.splitOn '\n'

def joinRows (lines : List Text) : Text := ['\n'].intercalate lines

/-- The programs on `PATH`, the hash, and the classes `\s` and `\w` of the regular
expressions. -/
structure Host where
  which : Text → Option Text
  hash : Text → List UInt8
  isSpace : Char → Bool
  isWord : Char → Bool

namespace Host

variable (h : Host)

/-- `/usr/bin/env (?<e>\S+)(?<args>.*)` -/
def matchEnv (rest : Text) : Option (Text × Text) :=
  (strip "/usr/bin/env ".toList rest).bind fun rest =>
    let name := rest.takeWhile fun c => !h.isSpace c
    if name = [] then none else some (name, rest.drop name.length)

/-- `\b` behind a letter. -/
def atBoundary (rest : Text) : Bool :=
  match rest with
  | [] => true
  | c :: _ => !h.isWord c

/-- `sh\b|env\b` -/
def isShOrEnv (rest : Text) : Bool :=
  (strip ['s', 'h'] rest).any h.atBoundary || (strip ['e', 'n', 'v'] rest).any h.atBoundary

/-- `(?:/usr(?:/local)?)?/bin/(?!sh\b|env\b)(?<a>[a-z][a-z0-9.]*)(?<args>.*)` -/
def matchBin (rest : Text) : Option (Text × Text) :=
  (binPath rest).bind fun rest =>
    if h.isShOrEnv rest then none
    else
      match rest with
      | [] => none
      | c :: _ =>
          if 'a' ≤ c ∧ c ≤ 'z' then
            let name := rest.takeWhile fun c =>
              ('a' ≤ c && c ≤ 'z') || ('0' ≤ c && c ≤ '9') || c == '.'
            some (name, rest.drop name.length)
          else none

/-- The program a `#!` line names, its arguments, and whether it is named by `env`. -/
def interpreter (line : Text) : Option (Bool × Text × Text) :=
  (afterBang line).bind fun rest =>
    ((h.matchEnv rest).map fun m => (true, m)).or ((h.matchBin rest).map fun m => (false, m))

/-- An absolute path is rewritten on the first line only. -/
def rewriteLine (first : Bool) (line : Text) : Text :=
  match h.interpreter line with
  | none => line
  | some (byEnv, name, args) =>
      if !first && !byEnv then line
      else
        match h.which name with
        | none => line
        | some path => ['#', '!'] ++ path ++ args

def rewriteRow (first : Bool) (line : Text) : Text :=
  if ['#', '!'].isPrefixOf line then h.rewriteLine first line else line

def rewriteRows : List Text → List Text
  | [] => []
  | line :: lines => h.rewriteRow true line :: lines.map (h.rewriteRow false)

def fixText (text : Text) : Text := joinRows (h.rewriteRows (rows text))

end Host

def size (text : Text) : Nat := (text.map Char.utf8Size).sum

/-- `-size -1024k`, which counts begun kibibytes. -/
def isSmall (text : Text) : Bool := (size text + 1023) / 1024 < 1024

/-- `decode` takes a byte order mark off. -/
def decode (text : Text) : Text := if text.head? = some '\uFEFF' then text.tail else text

structure Script where
  text : Text
  executable : Bool
  deriving DecidableEq

/-- The files that are looked at. -/
def Script.isHit (f : Script) : Bool :=
  f.executable && isSmall f.text && (rows f.text).any fun line =>
    ((afterBang line).bind binPath).isSome

namespace Host

variable (h : Host)

def isRewritten (f : Script) : Bool := f.isHit && h.fixText (decode f.text) ≠ decode f.text

/-- What a file holds after `fix-shebangs`. -/
def fixed (f : Script) : Text := if h.isRewritten f then h.fixText (decode f.text) else f.text

/-- The original kept under a hash, after these files were rewritten one after the other. -/
def original (written : List Script) (key : List UInt8) : Option Text :=
  (written.reverse.find? fun f => h.hash (h.fixed f) = key).map fun f => decode f.text

/-- The installed files that `--undo` looks at. -/
def isInstalled (text : Text) : Bool :=
  isSmall text && (rows text).any fun line =>
    ((afterBang line).bind (strip "/nix/store/".toList)).isSome

/-- What a file holds after `fix-shebangs --undo`. -/
def undo (written : List Script) (text : Text) : Text :=
  if isInstalled text then (h.original written (h.hash text)).getD text else text

/-- The files were rewritten in some order. -/
def Order (files written : List Script) : Prop := written.Perm (files.filter h.isRewritten)

/-- The originals can be told apart by what was made of them: no rewritten file has a byte
order mark, all of them are looked at again, and none has the text of a file that was
another one. -/
def Recoverable (files : List Script) : Prop :=
  ∀ f ∈ files,
    (h.isRewritten f = true → f.text.head? ≠ some '\uFEFF' ∧ isInstalled (h.fixed f) = true ∧
      ∀ g ∈ files, h.isRewritten g = true → h.fixed g = h.fixed f → g.text = f.text) ∧
    (h.isRewritten f = false → ∀ g ∈ files, h.isRewritten g = true → h.fixed g ≠ f.text)

/-- No two of these texts have the same hash. -/
def NoCollision (texts : List Text) : Prop :=
  ∀ a ∈ texts, ∀ b ∈ texts, h.hash a = h.hash b → a = b

variable {h}

theorem fixed_of_rewritten {f : Script} (hf : h.isRewritten f = true) :
    h.fixed f = h.fixText (decode f.text) ∧ h.fixed f ≠ decode f.text := by
  have hfixed : h.fixed f = h.fixText (decode f.text) := if_pos hf
  refine ⟨hfixed, ?_⟩
  rw [isRewritten, Bool.and_eq_true, decide_eq_true_eq] at hf
  rw [hfixed]
  exact hf.2

theorem fixed_of_not {f : Script} (hf : h.isRewritten f = false) : h.fixed f = f.text :=
  if_neg (by rw [hf]; exact Bool.false_ne_true)

theorem decode_eq_self {text : Text} : decode text = text ↔ text.head? ≠ some '\uFEFF' := by
  unfold decode
  by_cases hbom : text.head? = some '\uFEFF'
  · rw [if_pos hbom]
    refine iff_of_false (fun heq => ?_) (not_not_intro hbom)
    cases text with
    | nil => cases hbom
    | cons c text =>
        have hlen := congrArg List.length heq
        simp at hlen
  · rw [if_neg hbom]
    exact iff_of_true rfl hbom

theorem rows_eq (text : Text) : ∃ lines, rows text = text.takeWhile (· ≠ '\n') :: lines := by
  induction text with
  | nil => exact ⟨[], rfl⟩
  | cons c text ih =>
      obtain ⟨lines, hlines⟩ := ih
      rw [rows, List.splitOn] at hlines ⊢
      rw [List.splitOnP_cons_eq_if_modifyHead, hlines]
      by_cases hc : c = '\n'
      · exact ⟨_, by
          rw [if_pos (by simpa using hc), List.takeWhile_cons_of_neg (by simpa using hc)]⟩
      · exact ⟨lines, by
          rw [if_neg (by simpa using hc), List.takeWhile_cons_of_pos (by simpa using hc)]
          rfl⟩

theorem joinRows_cons (line : Text) (lines : List Text) :
    ∃ rest, joinRows (line :: lines) = line ++ rest ∧ rest.head?.all (· == '\n') = true := by
  cases lines with
  | nil => exact ⟨[], by rw [joinRows, List.intercalate_singleton, List.append_nil], rfl⟩
  | cons next lines =>
      exact ⟨'\n' :: joinRows (next :: lines), by simp [joinRows, List.intercalate], rfl⟩

theorem takeWhile_joinRows {line : Text} (hline : ∀ c ∈ line, c ≠ '\n') (lines : List Text) :
    (joinRows (line :: lines)).takeWhile (· ≠ '\n') = line := by
  have hall : ∀ c ∈ line, decide (c ≠ '\n') = true := fun c hc => decide_eq_true (hline c hc)
  obtain ⟨rest, hjoin, hrest⟩ := joinRows_cons line lines
  rw [hjoin, List.takeWhile_append_of_pos hall]
  cases rest with
  | nil => rw [List.takeWhile_nil, List.append_nil]
  | cons c rest =>
      rw [List.takeWhile_cons_of_neg (by simpa using hrest), List.append_nil]

/-- A `#!` line stays one. -/
theorem head_rewriteLine {line : Text} (first : Bool) (hline : line.head? = some '#') :
    (h.rewriteLine first line).head? = some '#' := by
  unfold rewriteLine
  split
  · exact hline
  · split
    · exact hline
    · split
      · exact hline
      · rfl

/-- Rewriting does not put a byte order mark in front. -/
theorem fixText_ne_mark (text : Text) : h.fixText text ≠ '\uFEFF' :: text := by
  intro heq
  obtain ⟨lines, hrows⟩ := rows_eq text
  have hnl : ∀ c ∈ text.takeWhile (· ≠ '\n'), c ≠ '\n' := fun c hc => by
    simpa using List.mem_takeWhile_imp hc
  rw [fixText, hrows, rewriteRows, rewriteRow] at heq
  by_cases hbang : ['#', '!'].isPrefixOf (text.takeWhile (· ≠ '\n')) = true
  · -- the text begins with the rewritten line
    rw [if_pos hbang] at heq
    obtain ⟨rest, hrest⟩ := List.isPrefixOf_iff_prefix.mp hbang
    have hhead : (h.rewriteLine true (text.takeWhile (· ≠ '\n'))).head? = some '#' :=
      head_rewriteLine true (by rw [← hrest]; rfl)
    obtain ⟨tail, htail⟩ := List.head?_eq_some_iff.mp hhead
    obtain ⟨more, hmore, -⟩ := joinRows_cons (h.rewriteLine true (text.takeWhile (· ≠ '\n')))
      (lines.map (h.rewriteRow false))
    rw [hmore, htail, List.cons_append] at heq
    exact absurd (List.cons.inj heq).1 (by decide)
  · -- the first line is as long as before
    rw [if_neg hbang] at heq
    have hfirst := congrArg (List.takeWhile (· ≠ '\n')) heq
    rw [takeWhile_joinRows hnl, List.takeWhile_cons_of_pos (by decide)] at hfirst
    have hlen := congrArg List.length hfirst
    rw [List.length_cons] at hlen
    omega

theorem fixed_ne_text {f : Script} (hf : h.isRewritten f = true) : h.fixed f ≠ f.text := by
  obtain ⟨hfixed, hne⟩ := fixed_of_rewritten hf
  by_cases hbom : f.text.head? = some '\uFEFF'
  · obtain ⟨text, htext⟩ := List.head?_eq_some_iff.mp hbom
    have hdecode : decode f.text = text := by
      rw [decode, if_pos hbom, htext, List.tail_cons]
    rw [hfixed, hdecode, htext]
    exact fixText_ne_mark text
  · rwa [decode_eq_self.mpr hbom] at hne

section Ledger

variable {files written : List Script}

theorem mem_of_order (horder : h.Order files written) {f : Script} :
    f ∈ written ↔ f ∈ files ∧ h.isRewritten f = true := by
  rw [horder.mem_iff, List.mem_filter]

/-- What is found under a hash was made of one of the files with that hash. -/
theorem original_eq_some {key : List UInt8} {text : Text}
    (horiginal : h.original written key = some text) :
    ∃ g ∈ written, h.hash (h.fixed g) = key ∧ text = decode g.text := by
  obtain ⟨g, hfind, rfl⟩ := Option.map_eq_some_iff.mp horiginal
  exact ⟨g, List.mem_reverse.mp (List.mem_of_find?_eq_some hfind),
    by simpa using List.find?_some hfind, rfl⟩

theorem exists_original {f : Script} (hf : f ∈ written) :
    ∃ text, h.original written (h.hash (h.fixed f)) = some text := by
  have hsome : (written.reverse.find? fun g => h.hash (h.fixed g) = h.hash (h.fixed f)).isSome := by
    rw [List.find?_isSome]
    exact ⟨f, List.mem_reverse.mpr hf, decide_eq_true rfl⟩
  obtain ⟨g, hg⟩ := Option.isSome_iff_exists.mp hsome
  exact ⟨decode g.text, by rw [original, hg, Option.map_some]⟩

/-- Any rewritten file may be the last one. -/
theorem exists_order_last {f : Script} (hf : f ∈ files) (hrewritten : h.isRewritten f = true) :
    ∃ written, h.Order files written ∧
      h.original written (h.hash (h.fixed f)) = some (decode f.text) := by
  have hmem : f ∈ files.filter h.isRewritten := List.mem_filter.mpr ⟨hf, hrewritten⟩
  refine ⟨(files.filter h.isRewritten).erase f ++ [f], ?_, ?_⟩
  · exact (List.perm_append_singleton f _).trans (List.perm_cons_erase hmem).symm
  · rw [original, List.reverse_append, List.reverse_singleton, List.singleton_append,
      List.find?_cons_of_pos (by simp), Option.map_some]

end Ledger

theorem undo_of_original {written : List Script} {text found : Text}
    (hinstalled : isInstalled text = true)
    (hfound : h.original written (h.hash text) = some found) : h.undo written text = found := by
  rw [undo, if_pos hinstalled, hfound, Option.getD_some]

section Recover

variable {files : List Script}

/-- Where a rewritten file comes back in every order, it had no mark and is looked at. -/
theorem restored_alone {f : Script} (hf : f ∈ files) (hrewritten : h.isRewritten f = true)
    (hundo : ∀ written, h.Order files written → h.undo written (h.fixed f) = f.text) :
    decode f.text = f.text ∧ isInstalled (h.fixed f) = true := by
  obtain ⟨written, horder, hfound⟩ := exists_order_last hf hrewritten
  have hrestored := hundo written horder
  cases hinstalled : isInstalled (h.fixed f) with
  | true => exact ⟨(undo_of_original hinstalled hfound).symm.trans hrestored, rfl⟩
  | false =>
      rw [undo, hinstalled, if_neg Bool.false_ne_true] at hrestored
      exact absurd hrestored (fixed_ne_text hrewritten)

theorem recoverable_of_undo (hundo : ∀ written, h.Order files written →
    ∀ f ∈ files, h.undo written (h.fixed f) = f.text) : h.Recoverable files := by
  intro f hf
  constructor
  · intro hrewritten
    obtain ⟨hdecode, hinstalled⟩ :=
      restored_alone hf hrewritten fun written horder => hundo written horder f hf
    refine ⟨decode_eq_self.mp hdecode, hinstalled, fun g hg hgr heq => ?_⟩
    -- with `g` last, both copies become the original of `g`
    obtain ⟨written, horder, hfound⟩ := exists_order_last hg hgr
    have hgdecode := (restored_alone hg hgr fun written horder => hundo written horder g hg).1
    rw [heq] at hfound
    rw [← hgdecode, ← undo_of_original hinstalled hfound]
    exact hundo written horder f hf
  · intro hnot g hg hgr heq
    obtain ⟨-, hinstalled⟩ :=
      restored_alone hg hgr fun written horder => hundo written horder g hg
    obtain ⟨written, horder, hfound⟩ := exists_order_last hg hgr
    have hrestored := hundo written horder f hf
    rw [fixed_of_not hnot, ← heq, undo_of_original hinstalled hfound] at hrestored
    exact (fixed_of_rewritten hgr).2 hrestored.symm

/-- A text that nothing was rewritten to is left alone. -/
theorem undo_eq_self {written : List Script} (horder : h.Order files written) {text : Text}
    (hcollision : ∀ f ∈ files, h.hash (h.fixed f) = h.hash text → h.fixed f = text)
    (hother : ∀ f ∈ files, h.isRewritten f = true → h.fixed f ≠ text) :
    h.undo written text = text := by
  unfold undo
  split
  · cases hfound : h.original written (h.hash text) with
    | none => rfl
    | some found =>
        obtain ⟨g, hg, hhash, -⟩ := original_eq_some hfound
        obtain ⟨hgf, hgr⟩ := (mem_of_order horder).mp hg
        exact absurd (hcollision g hgf hhash) (hother g hgf hgr)
  · rfl

theorem undo_of_recoverable (hcollision : h.NoCollision (files.map h.fixed))
    (hrecoverable : h.Recoverable files) {written : List Script}
    (horder : h.Order files written) {f : Script} (hf : f ∈ files) :
    h.undo written (h.fixed f) = f.text := by
  obtain ⟨hyes, hno⟩ := hrecoverable f hf
  cases hrewritten : h.isRewritten f with
  | true =>
      obtain ⟨hmark, hinstalled, hsame⟩ := hyes hrewritten
      obtain ⟨found, hfound⟩ := exists_original ((mem_of_order horder).mpr ⟨hf, hrewritten⟩)
      obtain ⟨g, hg, hhash, rfl⟩ := original_eq_some hfound
      obtain ⟨hgf, hgr⟩ := (mem_of_order horder).mp hg
      have heq := hcollision _ (List.mem_map_of_mem hgf) _ (List.mem_map_of_mem hf) hhash
      rw [undo_of_original hinstalled hfound, hsame g hgf hgr heq, decode_eq_self.mpr hmark]
  | false =>
      have hfixed := fixed_of_not hrewritten
      rw [hfixed]
      refine undo_eq_self horder (fun g hg hhash => ?_) (hno hrewritten)
      have heq := hcollision _ (List.mem_map_of_mem hg) _ (List.mem_map_of_mem hf)
      rw [hfixed] at heq
      exact heq hhash

end Recover

/-- Whatever the order in which files were rewritten, all copies get their original texts back
and other files stay as they are, if and only if the originals can be told apart. -/
theorem undo_restores_iff (h : Host) (files : List Script) (others : List Text)
    (hcollision : h.NoCollision (files.map h.fixed ++ others)) :
    (∀ written, h.Order files written →
      (∀ f ∈ files, h.undo written (h.fixed f) = f.text) ∧
      ∀ text ∈ others, (∀ f ∈ files, h.isRewritten f = true → h.fixed f ≠ text) →
        h.undo written text = text) ↔
    h.Recoverable files := by
  constructor
  · exact fun hundo => recoverable_of_undo fun written horder => (hundo written horder).1
  · intro hrecoverable written horder
    refine ⟨fun f hf => undo_of_recoverable (fun a ha b hb => hcollision a
      (List.mem_append_left _ ha) b (List.mem_append_left _ hb)) hrecoverable horder hf,
      fun text htext hother => undo_eq_self horder (fun f hf hhash => ?_) hother⟩
    exact hcollision _ (List.mem_append_left _ (List.mem_map_of_mem hf)) _
      (List.mem_append_right _ htext) hhash

end Host

/-- A host with bash and nothing else on `PATH`. -/
def bashHost : Host where
  which name := if name = "bash".toList then some "/nix/store/x-bash/bin/bash".toList else none
  hash text := text.map fun c => UInt8.ofNat c.toNat
  isSpace c := c == ' ' || c == '\t'
  isWord c := c.isAlphanum || c == '_'

def envScript : Script := ⟨"#!/usr/bin/env bash\necho".toList, true⟩

def binScript : Script := ⟨"#!/bin/bash\necho".toList, true⟩

theorem undo_restores_iff_env :
    bashHost.NoCollision ([envScript].map bashHost.fixed ++ ["#!/bin/sh\n".toList]) ∧
    ((∀ written, bashHost.Order [envScript] written →
      (∀ f ∈ [envScript], bashHost.undo written (bashHost.fixed f) = f.text) ∧
      ∀ text ∈ ["#!/bin/sh\n".toList],
        (∀ f ∈ [envScript], bashHost.isRewritten f = true → bashHost.fixed f ≠ text) →
          bashHost.undo written text = text) ∧
    bashHost.Recoverable [envScript]) ∧
    (bashHost.isRewritten envScript = true ∧
      bashHost.fixed envScript = "#!/nix/store/x-bash/bin/bash\necho".toList) := by
  have hcollision :
      bashHost.NoCollision ([envScript].map bashHost.fixed ++ ["#!/bin/sh\n".toList]) := by
    unfold Host.NoCollision
    decide
  have hrecoverable : bashHost.Recoverable [envScript] := by
    unfold Host.Recoverable
    decide
  exact ⟨hcollision, ⟨(Host.undo_restores_iff bashHost [envScript] _ hcollision).mpr hrecoverable,
    hrecoverable⟩, by decide, by decide⟩

/-- Two scripts that name bash in two ways become the same text. Whichever is rewritten last,
the copy of the other gets its original. -/
theorem bash_scripts_mixed_up :
    (bashHost.Order [envScript, binScript] [envScript, binScript] ∧
      bashHost.undo [envScript, binScript] (bashHost.fixed envScript) = binScript.text) ∧
    (bashHost.Order [envScript, binScript] [binScript, envScript] ∧
      bashHost.undo [binScript, envScript] (bashHost.fixed binScript) = envScript.text) ∧
    envScript.text ≠ binScript.text := by
  have hall : [envScript, binScript].filter bashHost.isRewritten = [envScript, binScript] := by
    decide
  refine ⟨⟨?_, by decide⟩, ⟨?_, by decide⟩, by decide⟩
  · rw [Host.Order, hall]
  · rw [Host.Order, hall]
    exact List.Perm.swap _ _ _

end Repkgs.Builder
