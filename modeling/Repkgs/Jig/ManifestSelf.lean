import Repkgs.Lib.PrefixCode
import Repkgs.Jig.ManifestSound

/-!
# A manifest where it was written

The text of `BuildManifest` is read back by `ValidateManifest` in an unchanged build.
It is accepted, with the result key it was written with, when every line is one line
and the path that its key resolves to has the identity that the line records.
-/

namespace Repkgs.Jig

open Lib

/-- What is hashed for a request key and the lines of a manifest. -/
def hashedFields (requestKey : Bytes) (lines : List Bytes) : Bytes :=
  (requestKey :: lines).flatMap hashField

/-- The digits of a number are bytes below the colon. -/
theorem toNat_lt_of_mem_toString {n : Nat} {c : Char} (h : c ∈ (toString n).toList) :
    c.toNat < 58 := by
  rw [Nat.toString_eq_ofList_toDigits, String.toList_ofList] at h
  have hdigit := Nat.isDigit_of_mem_toDigits (by decide) (by decide) h
  simp only [Char.isDigit, Bool.and_eq_true, decide_eq_true_eq] at hdigit
  have hle : c.val.toNat ≤ 57 := UInt32.le_iff_toNat_le.mp hdigit.2
  exact Nat.lt_succ_of_le hle

theorem ascii_toString_inj {m n : Nat} (h : ascii (toString m) = ascii (toString n)) : m = n := by
  -- the bytes of the digits give the digits back
  have hback : ∀ k : Nat, (ascii (toString k)).map (fun b => Char.ofNat b.toNat) =
      (toString k).toList := by
    intro k
    rw [ascii, List.map_map]
    conv_rhs => rw [← List.map_id (toString k).toList]
    apply List.map_congr_left
    intro c hc
    have hlt := toNat_lt_of_mem_toString hc
    have hbyte : (UInt8.ofNat c.toNat).toNat = c.toNat := by
      rw [UInt8.toNat_ofNat', Nat.mod_eq_of_lt (by omega)]
    rw [Function.comp_apply, hbyte, Char.ofNat_toNat, id]
  have hdigits : Nat.toDigits 10 m = Nat.toDigits 10 n := by
    have hlist : (toString m).toList = (toString n).toList := by rw [← hback m, h, hback n]
    simpa only [Nat.toString_eq_ofList_toDigits, String.toList_ofList] using hlist
  calc m = Nat.ofDigitChars 10 (Nat.toDigits 10 m) 0 := Nat.ofDigitChars_ten_toDigits.symm
    _ = n := by rw [hdigits, Nat.ofDigitChars_ten_toDigits]

theorem unambiguous_hashField : Unambiguous hashField := by
  have hcolon : ∀ n : Nat, chr ':' ∉ ascii (toString n) := by
    intro n hmem
    obtain ⟨c, hc, heq⟩ := List.mem_map.mp hmem
    have hlt := toNat_lt_of_mem_toString hc
    have hbyte : c.toNat % 256 = 58 := by
      rw [← UInt8.toNat_ofNat', heq]
      rfl
    omega
  intro a b x y heq
  have hsplit : ∀ data rest : Bytes, hashField data ++ rest =
      ascii (toString data.length) ++ chr ':' :: (data ++ rest) := by
    intro data rest
    simp [hashField, ascii, chr]
  rw [hsplit, hsplit] at heq
  obtain ⟨hlength, hrest⟩ := append_cons_inj (hcolon _) (hcolon _) heq
  exact List.append_inj hrest (ascii_toString_inj hlength)

variable {requestKey line : Bytes} {lines : List Bytes} {j : Process}

theorem hashedFields_inj {lines lines' : List Bytes}
    (h : hashedFields requestKey lines = hashedFields requestKey lines') : lines = lines' := by
  have hne : ∀ data, hashField data ≠ [] := by
    intro data
    simp [hashField, ascii]
  exact (List.cons.inj (unambiguous_hashField.flatMap hne h)).2

variable {blake3 : Blake3}

/-- The line holds here: nothing is at the path of a `!` line, and the file at the path
of another line has the recorded identity. -/
def Process.LineHolds (blake3 : Blake3) (j : Process) (line : Bytes) : Prop :=
  if line.head? = some (chr '!') then
    j.fs.pathExists ((j.store.resolve (line.drop 1)).getD []) = false
  else
    j.identity blake3 ((j.store.resolve (cut (chr '\t') line).1).getD []) =
      some ((cut (chr '\t') line).2.drop 1)

/-- A line as it is written: a `!` line, or one with a tab. -/
def Written (line : Bytes) : Prop := line.head? = some (chr '!') ∨ chr '\t' ∈ line

theorem Written.ne_nil (h : Written line) : line ≠ [] := by
  rintro rfl
  rcases h with h | h
  · cases h
  · cases h

theorem drop_cut_fst (stop : Byte) (text : Bytes) :
    text.drop ((cut stop text).1.length + 1) = (cut stop text).2.drop 1 := by
  nth_rewrite 2 [← cut_append stop text]
  rw [List.drop_length_add_append]

theorem take_cut_fst (stop : Byte) (text : Bytes) :
    text.take (cut stop text).1.length = (cut stop text).1 := by
  nth_rewrite 2 [← cut_append stop text]
  rw [List.take_left]

theorem length_cut_fst_lt {stop : Byte} {text : Bytes} (h : stop ∈ text) :
    (cut stop text).1.length < text.length := by
  have htext := cut_append stop text
  obtain hnil | ⟨rest, hrest⟩ := cut_snd stop text
  · rw [hnil, List.append_nil] at htext
    rw [← htext] at h
    exact absurd h (notMem_cut_fst stop text)
  · rw [hrest] at htext
    have hlength := congrArg List.length htext
    rw [List.length_append, List.length_cons] at hlength
    omega

theorem line_of_parseLine {s : Store} {e : Entry} (h : parseLine s line = some e) :
    e.line = line := by
  unfold parseLine at h
  split at h
  · cases h
    rfl
  · simp only at h
    split at h
    · cases h
      rfl
    · cases h

/-- What the check of a written line says. -/
theorem Knows.checkEntry_iff {known : Store} (h : Knows blake3 j known) (hline : Written line) :
    ∃ e, parseLine j.store line = some e ∧ e.line = line ∧
      (j.checkEntry blake3 known e = .ok () ↔ j.LineHolds blake3 line) := by
  unfold parseLine Process.LineHolds
  by_cases hbang : line.head? = some (chr '!')
  · rw [if_pos hbang, if_pos hbang]
    refine ⟨_, rfl, rfl, ?_⟩
    simp only [Process.checkEntry]
    split
    · next hexists => exact iff_of_false (by simp) (by rw [hexists]; decide)
    · next hexists => exact iff_of_true rfl (Bool.not_eq_true _ ▸ hexists)
  · have htab := length_cut_fst_lt (hline.resolve_left hbang)
    rw [if_neg hbang, if_neg hbang]
    refine ⟨_, if_pos htab, rfl, ?_⟩
    simp only [Process.checkEntry, h.inputId, drop_cut_fst, take_cut_fst]
    split
    · next heq => exact iff_of_true rfl heq
    · next hne => exact iff_of_false (by simp) hne

/-- A text of lines is read back as these lines. -/
theorem split_text (hwritten : ∀ line ∈ lines, Written line)
    (hnewline : ∀ line ∈ lines, chr '\n' ∉ line) :
    split (lines.flatMap (· ++ ascii "\n")) (chr '\n') = lines := by
  have hsplit := split_flatMap hnewline
  rw [List.filter_eq_self.mpr fun line hline => by simpa using (hwritten line hline).ne_nil]
    at hsplit
  exact hsplit

theorem validateManifest_eq_ok_iff (hj : j.Honest blake3) (hnew : j.store.knownIds = ∅)
    {requestKey text k : Bytes} :
    j.validateManifest blake3 requestKey text = .ok k ↔
      ∃ known, Knows blake3 j known ∧
        (∀ e ∈ parseManifest j.store text, j.checkEntry blake3 known e = .ok ()) ∧
        resultKey blake3 requestKey ((parseManifest j.store text).map Entry.line) = k := by
  have hknows := hj.knows hnew
    (((parseManifest j.store text).filter (·.tab.isSome)).map Entry.path)
  unfold Process.validateManifest
  simp only
  split
  · next err herr =>
      refine iff_of_false (by simp) ?_
      rintro ⟨known, hknown, hchecked, -⟩
      have hsame : ∀ e ∈ parseManifest j.store text, j.checkEntry blake3
          (j.prefetchIdentities
            (((parseManifest j.store text).filter (·.tab.isSome)).map Entry.path)) e = .ok () := by
        intro e he
        have hcheck := hchecked e he
        simp only [Process.checkEntry, hknown.inputId] at hcheck
        simpa only [Process.checkEntry, hknows.inputId] using hcheck
      rw [checkEntries_eq_ok.mpr hsame] at herr
      cases herr
  · next hok =>
      rw [Except.ok.injEq]
      constructor
      · exact fun hk => ⟨_, hknows, checkEntries_eq_ok.mp hok, hk⟩
      · rintro ⟨known, -, -, hk⟩
        exact hk

/-- Two texts do not collide. -/
def NoCollision (blake3 : Blake3) (x y : Bytes) : Prop := blake3 x = blake3 y → x = y

/-- A text of written lines is accepted with the key of these lines exactly if each of
them is one line and holds. -/
theorem validateManifest_lines_iff (hj : j.Honest blake3)
    (hnew : j.store.knownIds = ∅)
    (hwritten : ∀ line ∈ lines, Written line)
    (hblake3 : NoCollision blake3 (hashedFields requestKey
      ((parseManifest j.store (lines.flatMap (· ++ ascii "\n"))).map Entry.line))
      (hashedFields requestKey lines)) :
    j.validateManifest blake3 requestKey (lines.flatMap (· ++ ascii "\n")) =
        .ok (resultKey blake3 requestKey lines) ↔
      ∀ line ∈ lines, chr '\n' ∉ line ∧ j.LineHolds blake3 line := by
  rw [validateManifest_eq_ok_iff hj hnew]
  constructor
  · rintro ⟨known, hknown, hchecked, hkey⟩
    -- the same fields were hashed, so the lines that were read are the ones written
    have hread := hashedFields_inj (hblake3 (hexEncode_injective hkey))
    have hnewline : ∀ line ∈ lines, chr '\n' ∉ line := by
      intro line hline
      rw [← hread] at hline
      obtain ⟨e, he, rfl⟩ := List.mem_map.mp hline
      obtain ⟨piece, hpiece, hparse⟩ := List.mem_filterMap.mp he
      rw [line_of_parseLine hparse]
      exact (of_mem_split hpiece).1
    intro line hline
    obtain ⟨e, hparse, -, hiff⟩ := hknown.checkEntry_iff (hwritten line hline)
    refine ⟨hnewline line hline, hiff.mp (hchecked e (List.mem_filterMap.mpr ⟨line, ?_, hparse⟩))⟩
    rwa [split_text hwritten hnewline]
  · intro hlines
    have hsplit := split_text hwritten fun line hline => (hlines line hline).1
    refine ⟨_, hj.knows hnew [], fun e he => ?_, ?_⟩
    · obtain ⟨line, hline, hparse⟩ := List.mem_filterMap.mp he
      rw [hsplit] at hline
      obtain ⟨e', hparse', -, hiff⟩ := (hj.knows hnew []).checkEntry_iff (hwritten line hline)
      cases hparse.symm.trans hparse'
      exact hiff.mpr (hlines line hline).2
    · rw [parseManifest, hsplit, List.map_filterMap]
      congr 1
      nth_rewrite 2 [← List.filterMap_some (l := lines)]
      apply List.filterMap_congr
      intro line hline
      obtain ⟨e, hparse, heq, -⟩ := (hj.knows hnew []).checkEntry_iff (hwritten line hline)
      rw [hparse, Option.map_some, heq]

/-- The store was set up from the environment. -/
def Process.Fresh (j : Process) : Prop :=
  ∃ dir byContent out storeRoots, j.store = .make dir byContent out storeRoots

/-- The line of an input holds where it was written: it is one line, and its key leads to
a file with the same identity. A key that begins with `!` is read as an absent path. -/
def Process.InputComesBack (blake3 : Blake3) (j : Process) (path identity : Bytes) : Prop :=
  chr '\n' ∉ j.store.key path ∧ chr '\n' ∉ identity ∧
    if (j.store.key path).head? = some (chr '!') then
      j.fs.pathExists ((j.store.resolve
        ((j.store.key path).drop 1 ++ ascii "\t" ++ identity)).getD []) = false
    else
      chr '\t' ∉ j.store.key path ∧
        j.identity blake3 ((j.store.resolve (j.store.key path)).getD []) = some identity

/-- The line of an absent path holds where it was written. -/
def Process.AbsentComesBack (j : Process) (path : Bytes) : Prop :=
  chr '\n' ∉ j.store.key path ∧
    j.fs.pathExists ((j.store.resolve (j.store.key path)).getD []) = false

theorem Process.Fresh.knownIds (h : j.Fresh) : j.store.knownIds = ∅ := by
  obtain ⟨dir, byContent, out, storeRoots, hstore⟩ := h
  rw [hstore, Store.make]
  split <;> rfl

/-- Without content identities, no root is masked. -/
theorem Process.Fresh.resolve_eq (h : j.Fresh) (hpath : j.store.byContent = false) (key : Bytes) :
    j.store.resolve key = some key ∨ j.store.resolve key = none := by
  obtain ⟨dir, byContent, out, storeRoots, hstore⟩ := h
  have hroots : j.store.maskedToReal = ∅ := by
    rw [hstore, Store.make] at hpath ⊢
    split at hpath
    · next hcontent => exact absurd (hcontent.symm.trans hpath) (by decide)
    · next hcontent => rw [if_neg hcontent]
  unfold Store.resolve
  split
  · exact Or.inl rfl
  · exact Or.inr (by simp [hroots])

/-- A key without a tab leads to an identity without one. -/
theorem Process.Fresh.tab_notMem (h : j.Fresh) {key id : Bytes} (hkey : chr '\t' ∉ key)
    (hid : j.identity blake3 ((j.store.resolve key).getD []) = some id) : chr '\t' ∉ id := by
  unfold Process.identity at hid
  split at hid
  · next hstore =>
      have hpath : j.store.byContent = false := by
        rw [Bool.and_eq_true, Bool.not_eq_true'] at hstore
        exact hstore.2
      cases hid
      rw [List.mem_append, not_or]
      refine ⟨by decide, ?_⟩
      obtain heq | heq := h.resolve_eq hpath key
      · rwa [heq, Option.getD_some]
      · rw [heq, Option.getD_none]
        exact List.not_mem_nil
  · exact tab_notMem_contentId hid

theorem written_input (key id : Bytes) : Written (key ++ ascii "\t" ++ id) :=
  Or.inr (by simp [ascii, chr])

theorem written_absent (key : Bytes) : Written (ascii "!" ++ key) := Or.inl rfl

theorem absentComesBack_iff (j : Process) (path : Bytes) :
    chr '\n' ∉ ascii "!" ++ j.store.key path ∧ j.LineHolds blake3 (ascii "!" ++ j.store.key path) ↔
      j.AbsentComesBack path := by
  have hnewline : chr '\n' ∉ ascii "!" ++ j.store.key path ↔ chr '\n' ∉ j.store.key path := by
    rw [List.mem_append, not_or]
    exact and_iff_right (by decide)
  rw [hnewline]
  rfl

theorem Process.Fresh.inputComesBack_iff (h : j.Fresh) (path id : Bytes) :
    chr '\n' ∉ j.store.key path ++ ascii "\t" ++ id ∧
        j.LineHolds blake3 (j.store.key path ++ ascii "\t" ++ id) ↔
      j.InputComesBack blake3 path id := by
  unfold Process.InputComesBack
  generalize hkey : j.store.key path = key
  have hnewline : chr '\n' ∉ key ++ ascii "\t" ++ id ↔ chr '\n' ∉ key ∧ chr '\n' ∉ id := by
    rw [List.mem_append, List.mem_append, not_or, not_or]
    simp [ascii, chr]
  rw [hnewline, and_assoc]
  refine and_congr_right fun _ => and_congr_right fun _ => ?_
  unfold Process.LineHolds
  by_cases hbang : key.head? = some (chr '!')
  · obtain ⟨rest, rfl⟩ := List.head?_eq_some_iff.mp hbang
    rw [if_pos hbang, if_pos (by exact hbang)]
    rfl
  · rw [if_neg hbang, if_neg (head?_inputLine_ne hbang id)]
    by_cases htab : chr '\t' ∈ key
    · -- the line is cut inside its key, and no identity has a tab
      refine iff_of_false (fun hid => h.tab_notMem (notMem_cut_fst _ _) hid ?_)
        fun hholds => hholds.1 htab
      obtain ⟨rest, hrest⟩ := (cut_snd (chr '\t') key).resolve_left fun hnil => by
        have hlt := length_cut_fst_lt htab
        rw [← congrArg List.length (cut_append (chr '\t') key), hnil] at hlt
        simp at hlt
      have hline : key ++ ascii "\t" ++ id =
          (cut (chr '\t') key).1 ++ chr '\t' :: (rest ++ ascii "\t" ++ id) := by
        nth_rewrite 1 [← cut_append (chr '\t') key]
        rw [hrest]
        simp
      rw [hline, cut_append_cons (notMem_cut_fst _ _)]
      simp [ascii, chr]
    · have hline : key ++ ascii "\t" ++ id = key ++ chr '\t' :: id := by simp [ascii, chr]
      rw [hline, cut_append_cons htab]
      simp [htab]

theorem mem_inputLines_iff (hj : j.Honest blake3) (hnew : j.store.knownIds = ∅)
    (inputs : List Bytes) (primarySource line : Bytes) :
    line ∈ j.inputLines blake3 inputs primarySource ↔
      ∃ p ∈ inputs, p ≠ primarySource ∧ ∃ id, j.identity blake3 p = some id ∧
        line = j.store.key p ++ ascii "\t" ++ id := by
  constructor
  · intro h
    obtain ⟨p, hp, hline⟩ := List.mem_filterMap.mp h
    obtain ⟨hmem, hprimary⟩ := List.mem_filter.mp hp
    obtain ⟨id, hid, rfl⟩ := Option.map_eq_some_iff.mp hline
    rw [(hj.knows hnew inputs).inputId] at hid
    exact ⟨p, hmem, by simpa using hprimary, id, hid, rfl⟩
  · rintro ⟨p, hp, hprimary, id, hid, rfl⟩
    exact mem_inputLines hj hnew hp hprimary hid

section Content

variable {dir : Bytes} {b : Build} {p q id : Bytes}

theorem Build.fresh_process (b : Build) : (b.process dir).Fresh :=
  ⟨dir, true, b.out, b.storeRoots, rfl⟩

/-- An input whose key says where it is comes back if its root is a root of the build and
its normal form leads to the same file. -/
theorem Recordable.inputComesBack (h : Recordable dir p)
    (hq : locate dir b.roots (normalizePathArg p) = some q)
    (hid : b.identity dir blake3 q = some id) : (b.process dir).InputComesBack blake3 p id := by
  have hkey : (b.process dir).store.key p = maskRoot dir (normalizePathArg p) := h.key_eq b
  have hresolve : (b.process dir).store.resolve (maskRoot dir (normalizePathArg p)) = some q :=
    (h.resolve_key b).trans hq
  have hbang : (maskRoot dir (normalizePathArg p)).head? ≠ some (chr '!') := by
    rw [head?_maskRoot]
    exact h.no_bang
  rw [Process.InputComesBack, hkey, if_neg hbang, hresolve, Option.getD_some]
  exact ⟨Keyable.notMem_key h.one_line (by decide),
    newline_notMem_contentId (b.identity_eq q ▸ hid),
    Keyable.notMem_key h.no_tab (by decide), hid⟩

theorem Keyable.absentComesBack (h : Keyable dir p)
    (hq : locate dir b.roots (normalizePathArg p) = some q)
    (hexists : b.fs.pathExists q = false) : (b.process dir).AbsentComesBack p := by
  have hkey : (b.process dir).store.key p = maskRoot dir (normalizePathArg p) := h.key_eq b
  have hresolve : (b.process dir).store.resolve (maskRoot dir (normalizePathArg p)) = some q :=
    (h.resolve_key b).trans hq
  rw [Process.AbsentComesBack, hkey, hresolve, Option.getD_some]
  exact ⟨Keyable.notMem_key h.one_line (by decide), hexists⟩

end Content

/-- A manifest is accepted where it was written, with the result key it was written with,
exactly if every input and every absent path in it comes back from its key. -/
theorem manifest_validates_itself_iff (blake3 : Blake3) (j : Process) (hfresh : j.Fresh)
    (hj : j.Honest blake3) (requestKey primarySource : Bytes) (inputs absent : List Bytes)
    (hblake3 : NoCollision blake3
      (hashedFields requestKey ((parseManifest j.store
        (j.buildManifest blake3 requestKey inputs primarySource absent).text).map Entry.line))
      (hashedFields requestKey
        (j.inputLines blake3 inputs primarySource ++ j.absentLines absent))) :
    j.validateManifest blake3 requestKey
        (j.buildManifest blake3 requestKey inputs primarySource absent).text =
      .ok (j.buildManifest blake3 requestKey inputs primarySource absent).resultKey ↔
    (∀ p ∈ inputs, p ≠ primarySource → ∀ id, j.identity blake3 p = some id →
      j.InputComesBack blake3 p id) ∧
    ∀ p ∈ absent, p ≠ [] → isStorePath j.store.dir p = false → j.fs.pathExists p = false →
      j.AbsentComesBack p := by
  have hinput := mem_inputLines_iff hj hfresh.knownIds inputs primarySource
  have hwritten : ∀ line ∈ j.inputLines blake3 inputs primarySource ++ j.absentLines absent,
      Written line := by
    intro line hline
    rcases List.mem_append.mp hline with hin | hab
    · obtain ⟨p, -, -, id, -, rfl⟩ := (hinput line).mp hin
      exact written_input _ _
    · obtain ⟨p, -, -, rfl⟩ := of_mem_absentLines hab
      exact written_absent _
  change j.validateManifest blake3 requestKey (List.flatMap _ _) = .ok (resultKey _ _ _) ↔ _
  rw [validateManifest_lines_iff hj hfresh.knownIds hwritten hblake3, List.forall_mem_append]
  refine and_congr ⟨fun h p hp hprimary id hid => ?_, fun h line hline => ?_⟩
    ⟨fun h p hp hne hstore hexists => ?_, fun h line hline => ?_⟩
  · exact (hfresh.inputComesBack_iff p id).mp
      (h _ ((hinput _).mpr ⟨p, hp, hprimary, id, hid, rfl⟩))
  · obtain ⟨p, hp, hprimary, id, hid, rfl⟩ := (hinput line).mp hline
    exact (hfresh.inputComesBack_iff p id).mpr (h p hp hprimary id hid)
  · exact (absentComesBack_iff j p).mp (h _ (mem_absentLines hp hne hstore hexists))
  · obtain ⟨p, hp, ⟨hne, hstore, hexists⟩, rfl⟩ := of_mem_absentLines hline
    exact (absentComesBack_iff j p).mpr (h p hp hne hstore hexists)

/-- A header of a dependency, and a path outside of the store that is absent. -/
theorem manifest_validates_itself_iff_zlib :
    (zlibBuild 'a' [(ascii "/zlib.h", [1])]).validateManifest nixStore id (ascii "key")
        ((zlibBuild 'a' [(ascii "/zlib.h", [1])]).buildManifest nixStore id (ascii "key")
          [zlib 'a' ++ ascii "/zlib.h"] [] [ascii "/build/zlib.h"]).text =
      .ok ((zlibBuild 'a' [(ascii "/zlib.h", [1])]).buildManifest nixStore id (ascii "key")
        [zlib 'a' ++ ascii "/zlib.h"] [] [ascii "/build/zlib.h"]).resultKey := by
  have hrec : Recordable nixStore (zlib 'a' ++ ascii "/zlib.h") :=
    ⟨⟨by decide, by decide, by decide, by decide⟩, by decide, by decide⟩
  have hkey : Keyable nixStore (ascii "/build/zlib.h") :=
    ⟨by decide, by decide, by decide, by decide⟩
  refine (manifest_validates_itself_iff id _
    (zlibBuild 'a' [(ascii "/zlib.h", [1])]).fresh_process
    (zlibBuild_honest nixStore id 'a' _) (ascii "key") []
    [zlib 'a' ++ ascii "/zlib.h"] [ascii "/build/zlib.h"] id).mpr ⟨?_, ?_⟩
  · intro p hp _ identity hid
    cases List.mem_singleton.mp hp
    exact hrec.inputComesBack (q := zlib 'a' ++ ascii "/zlib.h") (by decide) hid
  · intro p hp _ _ hexists
    cases List.mem_singleton.mp hp
    exact hkey.absentComesBack (q := ascii "/build/zlib.h") (by decide) hexists

/-- A header that cmake wrote into a scratch directory. -/
def scratchHeader : Bytes := ascii "/build/TryCompile-a1b2c3/conf.h"

/-- A build that reads it. -/
def scratchBuild : Build where
  out := []
  storeRoots := []
  fs := .ofFiles [(scratchHeader, [1])]
  identities _ := []

/-- The masked name of the scratch directory leads nowhere, so the compile never hits. -/
theorem scratch_input_never_validates :
    scratchBuild.Honest nixStore id ∧
    scratchBuild.validateManifest nixStore id (ascii "key")
        (scratchBuild.buildManifest nixStore id (ascii "key") [scratchHeader] [] []).text =
      .error (ascii "inputs-changed:/build/TryCompile-######/conf.h") := by
  refine ⟨fun ask e he => ?_, by decide +kernel⟩
  change e ∈ ask.zip [] at he
  rw [List.zip_nil_right] at he
  cases he

end Repkgs.Jig
