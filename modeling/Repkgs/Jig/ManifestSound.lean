import Repkgs.Jig.Manifest
import Repkgs.Jig.Roots

/-!
# What an accepted manifest says

A manifest is written in one build and accepted in another one, with other
hashes behind the same store names. Inputs whose lines are accepted have the
identity they had, and recorded paths are still absent. Absent store paths are
not recorded.
-/

namespace Repkgs.Jig

open Lib

section Content

variable (dir : Bytes) (blake3 : Blake3)

/-- The roots of the build. -/
def Build.roots (b : Build) : List Bytes := buildRoots b.out b.storeRoots

/-- The identity of a file of the build. -/
def Build.identity (b : Build) (path : Bytes) : Option Bytes :=
  (b.process dir).identity blake3 path

def Build.Honest (b : Build) : Prop := (b.process dir).Honest blake3

/-- The key of the path says where the file is: nothing in its normal form is
masked but the hash of the root, and the key is one line. -/
structure Keyable (path : Bytes) : Prop where
  no_scratch : maskRandomNames (normalizePathArg path) = normalizePathArg path
  root_only : maskHashes dir (normalizePathArg path) = maskRoot dir (normalizePathArg path)
  unmasked : ¬ (dir ++ ascii "/*-") <+: normalizePathArg path
  one_line : chr '\n' ∉ normalizePathArg path

/-- The line of an input with such a path is read back as it was written. -/
structure Recordable (path : Bytes) : Prop extends Keyable dir path where
  no_tab : chr '\t' ∉ normalizePathArg path
  no_bang : (normalizePathArg path).head? ≠ some (chr '!')

/-- Where the build has the key of a path. -/
def Build.keyed (b : Build) (path : Bytes) : Option Bytes :=
  (b.store dir).resolve ((b.store dir).key path)

/-- Another build spells the path like this: the same, but for the names of its scratch
directories. -/
def Respells (path spelled : Bytes) : Prop :=
  maskRandomNames spelled = maskRandomNames path ∧ (maskRandomNames path = path → spelled = path)

/-- The build reads the key of an input where it reads the input. -/
def Build.TracksInput (b : Build) (path spelled : Bytes) : Prop :=
  ∃ q q', locate dir b.roots spelled = some q ∧ b.keyed dir path = some q' ∧
    b.identity dir blake3 q = b.identity dir blake3 q'

/-- The build finds something at the key of a path if it has the path. -/
def Build.TracksAbsent (b : Build) (path spelled : Bytes) : Prop :=
  ∀ q, locate dir b.roots spelled = some q → b.fs.pathExists q = true →
    ∃ q', b.keyed dir path = some q' ∧ b.fs.pathExists q' = true

/-- The key of an input is one line that is not taken for an absent path. -/
structure Build.Lined (b : Build) (path : Bytes) : Prop where
  one_line : chr '\n' ∉ (b.store dir).key path
  no_bang : ((b.store dir).key path).head? ≠ some (chr '!')

/-- Every input of the first build with an identity has it in the second one. -/
def InputsHold (b₁ b₂ : Build) (inputs : List Bytes) (primarySource : Bytes) : Prop :=
  ∀ p ∈ inputs, p ≠ primarySource → ∀ id, b₁.identity dir blake3 p = some id →
    ∃ q, locate dir b₂.roots p = some q ∧ b₂.identity dir blake3 q = some id

/-- What the first build lacked, the second one lacks too. -/
def AbsentHold (b₁ b₂ : Build) (absent : List Bytes) : Prop :=
  ∀ p ∈ absent, b₁.fs.pathExists p = false →
    ∀ q, locate dir b₂.roots p = some q → b₂.fs.pathExists q = false

variable {dir blake3}

variable {path : Bytes} {b : Build}

theorem mem_maskRoot {c : Byte} (h : c ∈ maskRoot dir path) :
    c ∈ path ∨ c = chr '*' := by
  unfold maskRoot at h
  split at h
  · next hash name rest hroot =>
      obtain ⟨rfl, -⟩ := of_splitRoot? hroot
      simp only [maskedRoot, realRoot, List.mem_append, List.mem_cons] at h ⊢
      rcases h with ((hc | hc) | hc) | hc
      · exact Or.inl (Or.inl (Or.inl (Or.inl hc)))
      · exact Or.inr (List.mem_singleton.mp hc)
      · exact Or.inl (Or.inl (Or.inr hc))
      · exact Or.inl (Or.inr hc)
  · exact Or.inl h

theorem head?_maskRoot (path : Bytes) : (maskRoot dir path).head? = path.head? := by
  unfold maskRoot
  split
  · next hash name rest hroot =>
      obtain ⟨rfl, -⟩ := of_splitRoot? hroot
      cases dir <;> simp [maskedRoot, realRoot, storePrefix, ascii]
  · rfl

theorem Keyable.key_eq (h : Keyable dir path) (b : Build) :
    (b.store dir).key path = maskRoot dir (normalizePathArg path) := by
  rw [Store.key, h.no_scratch]
  exact h.root_only

theorem Keyable.notMem_key {c : Byte} (h : c ∉ normalizePathArg path) (hc : c ≠ chr '*') :
    c ∉ maskRoot dir (normalizePathArg path) := by
  intro hmem
  rcases mem_maskRoot hmem with hin | heq
  · exact h hin
  · exact hc heq

theorem Keyable.resolve_key (h : Keyable dir path) (b : Build) :
    (b.store dir).resolve (maskRoot dir (normalizePathArg path)) =
      locate dir b.roots (normalizePathArg path) :=
  resolve_maskRoot b.out b.storeRoots h.unmasked

/-- In content mode every file is identified by its content. -/
theorem Build.identity_eq (b : Build) (path : Bytes) :
    b.identity dir blake3 path = (b.store dir).contentId blake3 b.fs path := by
  have hcontent : (b.process dir).store.byContent = true := rfl
  rw [Build.identity, Process.identity, hcontent, Bool.not_true, Bool.and_false,
    if_neg Bool.false_ne_true]
  rfl

theorem newline_notMem_hexEncode (bytes : Bytes) : chr '\n' ∉ hexEncode bytes := by
  have hdigit : ∀ n < 16, chr '\n' ≠ hexDigit n := by decide
  intro hmem
  obtain ⟨n, hn, heq⟩ := exists_of_mem_hexEncode hmem
  exact hdigit n hn heq

theorem newline_notMem_contentId {s : Store} {fs : FileSystem} {path id : Bytes}
    (h : s.contentId blake3 fs path = some id) : chr '\n' ∉ id := by
  obtain ⟨content, -, rfl⟩ := Option.map_eq_some_iff.mp h
  intro hmem
  rcases List.mem_append.mp hmem with hin | hin
  · exact absurd hin (by decide)
  · exact newline_notMem_hexEncode _ hin

theorem tab_notMem_contentId {s : Store} {fs : FileSystem} {path id : Bytes}
    (h : s.contentId blake3 fs path = some id) : chr '\t' ∉ id := by
  have hdigit : ∀ n < 16, chr '\t' ≠ hexDigit n := by decide
  obtain ⟨content, -, rfl⟩ := Option.map_eq_some_iff.mp h
  intro hmem
  rcases List.mem_append.mp hmem with hin | hin
  · exact absurd hin (by decide)
  · obtain ⟨n, hn, heq⟩ := exists_of_mem_hexEncode hin
    exact hdigit n hn heq

theorem tab_mem (key id : Bytes) : chr '\t' ∈ key ++ ascii "\t" ++ id := by
  simp [ascii, chr]

/-- The line of an input is accepted where its key leads to the identity in it. A tab in
the key would have to be part of an identity. -/
theorem Build.accepted_input (hb : b.Honest dir blake3) {paths : List Bytes} {key id : Bytes}
    (hbang : key.head? ≠ some (chr '!'))
    (h : ∀ e, parseLine (b.process dir).store (key ++ ascii "\t" ++ id) = some e →
      (b.process dir).checkEntry blake3 ((b.process dir).prefetchIdentities paths) e = .ok ()) :
    ∃ path, (b.store dir).resolve key = some path ∧ b.identity dir blake3 path = some id := by
  have htab : chr '\t' ∉ key := by
    intro hmem
    obtain ⟨front, back, rfl, hfront⟩ := List.eq_append_cons_of_mem hmem
    have hline : front ++ chr '\t' :: back ++ ascii "\t" ++ id =
        front ++ ascii "\t" ++ (back ++ ascii "\t" ++ id) := by
      simp [ascii, chr]
    have hbang' : front.head? ≠ some (chr '!') := by
      cases front with
      | nil => simp
      | cons c cs => exact hbang
    rw [hline] at h
    have hid := Jig.accepted_input hb rfl hfront hbang' h
    rw [← Build.identity, b.identity_eq] at hid
    exact tab_notMem_contentId hid (tab_mem back id)
  have hid := Jig.accepted_input hb rfl htab hbang h
  rw [← Build.identity] at hid
  cases hpath : (b.process dir).store.resolve key with
  | some path =>
      rw [hpath, Option.getD_some] at hid
      exact ⟨path, hpath, hid⟩
  | none =>
      rw [hpath, Option.getD_none, b.identity_eq, Store.contentId, b.fs.readFile_nil] at hid
      cases hid

theorem newline_notMem_inputLine {path' id : Bytes} (h : chr '\n' ∉ (b.store dir).key path)
    (hid : b.identity dir blake3 path' = some id) :
    chr '\n' ∉ (b.store dir).key path ++ ascii "\t" ++ id := by
  rw [b.identity_eq] at hid
  simp only [List.mem_append, not_or]
  exact ⟨⟨h, by decide⟩, newline_notMem_contentId hid⟩

theorem newline_notMem_absentLine (h : chr '\n' ∉ (b.store dir).key path) :
    chr '\n' ∉ ascii "!" ++ (b.store dir).key path := by
  simp only [List.mem_append, not_or]
  exact ⟨by decide, h⟩

section Written

variable {b₁ b₂ : Build} {requestKey requestKey' primarySource k : Bytes}
  {inputs absent : List Bytes}

/-- An input with a line has its identity where a build that accepts the line has its key. -/
theorem input_holds (h₁ : b₁.Honest dir blake3) (h₂ : b₂.Honest dir blake3)
    (hvalid : b₂.validateManifest dir blake3 requestKey'
      (b₁.buildManifest dir blake3 requestKey inputs primarySource absent).text = .ok k)
    {p id : Bytes} (hp : p ∈ inputs) (hprimary : p ≠ primarySource) (hlined : b₁.Lined dir p)
    (hid : b₁.identity dir blake3 p = some id) :
    ∃ q, b₂.keyed dir p = some q ∧ b₂.identity dir blake3 q = some id := by
  obtain ⟨paths, hcheck⟩ := checked_of_valid hvalid
  have hline : (b₁.store dir).key p ++ ascii "\t" ++ id ∈
      (b₁.process dir).inputLines blake3 inputs primarySource :=
    mem_inputLines h₁ rfl hp hprimary hid
  have hmem := mem_split_lines (List.mem_append_left ((b₁.process dir).absentLines absent) hline)
    (newline_notMem_inputLine hlined.one_line hid) (by simp [ascii])
  exact Build.accepted_input h₂ hlined.no_bang (hcheck _ hmem)

/-- A path outside of the store that was absent is absent where a build that accepts the
manifest has its key. -/
theorem absent_holds (hvalid : b₂.validateManifest dir blake3 requestKey'
      (b₁.buildManifest dir blake3 requestKey inputs primarySource absent).text = .ok k)
    {p q : Bytes} (hp : p ∈ absent) (hne : p ≠ []) (hline : chr '\n' ∉ (b₁.store dir).key p)
    (hstore : isStorePath dir p = false) (hexists : b₁.fs.pathExists p = false)
    (hq : b₂.keyed dir p = some q) : b₂.fs.pathExists q = false := by
  obtain ⟨paths, hcheck⟩ := checked_of_valid hvalid
  have hmem := mem_split_lines
    (List.mem_append_right ((b₁.process dir).inputLines blake3 inputs primarySource)
      (mem_absentLines (j := b₁.process dir) hp hne hstore hexists))
    (newline_notMem_absentLine hline) (by simp [ascii])
  exact accepted_absent (hcheck _ hmem) hq

/-- What a build tests for absence is where it has the key of a path that it lacks. -/
theorem tested_absent (h₁ : b₁.Honest dir blake3) (hin : ∀ p ∈ inputs, b₁.Lined dir p)
    (habs : ∀ p ∈ absent, chr '\n' ∉ (b₁.store dir).key p) {e : Entry}
    (he : e ∈ parseManifest (b₁.store dir)
      (b₁.buildManifest dir blake3 requestKey inputs primarySource absent).text)
    (htab : e.tab = none) :
    ∃ p ∈ absent, isStorePath dir p = false ∧ b₁.fs.pathExists p = false ∧
      e.path = (b₁.keyed dir p).getD [] := by
  obtain ⟨line, hline, hparse⟩ := List.mem_filterMap.mp he
  have hinput : ∀ l ∈ (b₁.process dir).inputLines blake3 inputs primarySource,
      ∃ p ∈ inputs, ∃ id, b₁.identity dir blake3 p = some id ∧
        l = (b₁.store dir).key p ++ ascii "\t" ++ id := by
    intro l hl
    obtain ⟨p, hp, hlp⟩ := List.mem_filterMap.mp hl
    obtain ⟨id, hid, rfl⟩ := Option.map_eq_some_iff.mp hlp
    rw [(h₁.knows rfl inputs).inputId] at hid
    exact ⟨p, List.mem_of_mem_filter hp, id, hid, rfl⟩
  have hlines : line ∈ (b₁.process dir).inputLines blake3 inputs primarySource ++
      (b₁.process dir).absentLines absent := by
    have hnl : ∀ l ∈ (b₁.process dir).inputLines blake3 inputs primarySource ++
        (b₁.process dir).absentLines absent, chr '\n' ∉ l := by
      intro l hl
      rcases List.mem_append.mp hl with hl | hl
      · obtain ⟨p, hp, id, hid, rfl⟩ := hinput l hl
        exact newline_notMem_inputLine (hin p hp).one_line hid
      · obtain ⟨p, hp, -, rfl⟩ := of_mem_absentLines hl
        exact newline_notMem_absentLine (habs p hp)
    have hsplit := split_flatMap hnl
    exact List.mem_of_mem_filter (hsplit ▸ hline)
  rcases List.mem_append.mp hlines with hl | hl
  · obtain ⟨p, hp, id, -, rfl⟩ := hinput line hl
    rw [parseLine, if_neg (head?_inputLine_ne (hin p hp).no_bang id)] at hparse
    simp only at hparse
    split at hparse
    · cases hparse
      cases htab
    · cases hparse
  · obtain ⟨p, hp, ⟨-, hstore, hexists⟩, rfl⟩ := of_mem_absentLines hl
    rw [parseLine_absent] at hparse
    cases hparse
    exact ⟨p, hp, hstore, hexists, rfl⟩

theorem identity_mkdir (b : Build) (q path : Bytes) :
    ({ b with fs := b.fs.mkdir q } : Build).identity dir blake3 path =
      b.identity dir blake3 path := by
  simp only [Build.identity_eq, Store.contentId, FileSystem.readFile_mkdir]
  rfl

/-- A directory that appears where nothing was tested goes unnoticed. -/
theorem valid_mkdir {j : Process} {text q : Bytes} (hne : q ≠ [])
    (hq : ∀ e ∈ parseManifest j.store text, e.tab = none → e.path ≠ q)
    (hvalid : j.validateManifest blake3 requestKey text = .ok k) :
    ({ j with fs := j.fs.mkdir q } : Process).validateManifest blake3 requestKey text = .ok k := by
  have hid : ∀ (s : Store) path,
      s.inputId blake3 (j.fs.mkdir q) path = s.inputId blake3 j.fs path := by
    intro s path
    simp only [Store.inputId, Store.contentId, FileSystem.readFile_mkdir]
  have hcheck : ∀ known, ∀ e ∈ parseManifest j.store text,
      j.checkEntry blake3 known e = .ok () →
      ({ j with fs := j.fs.mkdir q } : Process).checkEntry blake3 known e = .ok () := by
    intro known e he hok
    unfold Process.checkEntry at hok ⊢
    cases htab : e.tab with
    | none =>
        have hno : (e.path == q) = false := beq_false_of_ne (hq e he htab)
        simpa [htab, FileSystem.pathExists_mkdir _ hne, hno] using hok
    | some tab =>
        simp only [htab, hid] at hok ⊢
        exact hok
  unfold Process.validateManifest at hvalid ⊢
  simp only at hvalid ⊢
  split at hvalid
  · cases hvalid
  · next hok =>
      have hok' := checkEntries_eq_ok.mpr fun e he =>
        hcheck _ e he (checkEntries_eq_ok.mp hok e he)
      split
      · next herr => exact absurd (hok'.symm.trans herr) nofun
      · exact hvalid

/-- What an accepted manifest says of an input with a line. -/
theorem input_holds_iff (h₁ : b₁.Honest dir blake3) (h₂ : b₂.Honest dir blake3)
    (hvalid : b₂.validateManifest dir blake3 requestKey'
      (b₁.buildManifest dir blake3 requestKey inputs primarySource absent).text = .ok k)
    {p id : Bytes} (hp : p ∈ inputs) (hprimary : p ≠ primarySource) (hlined : b₁.Lined dir p)
    (hid : b₁.identity dir blake3 p = some id) (p' : Bytes) :
    (∃ q, locate dir b₂.roots p' = some q ∧ b₂.identity dir blake3 q = some id) ↔
      b₂.TracksInput dir blake3 p p' := by
  obtain ⟨q', hq', hid'⟩ := input_holds h₁ h₂ hvalid hp hprimary hlined hid
  constructor
  · rintro ⟨q, hq, hidq⟩
    exact ⟨q, q', hq, hq', hidq.trans hid'.symm⟩
  · rintro ⟨q, q'', hq, hq'', hsame⟩
    cases hq'.symm.trans hq''
    exact ⟨q, hq, hsame.trans hid'⟩

/-- What an accepted manifest says of an absent path outside of the store. -/
theorem absent_holds_iff (hvalid : b₂.validateManifest dir blake3 requestKey'
      (b₁.buildManifest dir blake3 requestKey inputs primarySource absent).text = .ok k)
    {p : Bytes} (hp : p ∈ absent) (hline : chr '\n' ∉ (b₁.store dir).key p)
    (hstore : isStorePath dir p = false) (hexists : b₁.fs.pathExists p = false) {p' : Bytes}
    (hspelled : Respells p p') :
    (∀ q, locate dir b₂.roots p' = some q → b₂.fs.pathExists q = false) ↔
      b₂.TracksAbsent dir p p' := by
  constructor
  · intro h q hq hthere
    rw [h q hq] at hthere
    cases hthere
  · intro h q hq
    by_contra hthere
    rw [Bool.not_eq_false] at hthere
    have hne : p ≠ [] := by
      rintro rfl
      rw [hspelled.2 rfl, locate_nil] at hq
      cases hq
      rw [b₂.fs.not_pathExists_nil] at hthere
      cases hthere
    obtain ⟨q', hq', hthere'⟩ := h q hq hthere
    rw [absent_holds hvalid hp hne hline hstore hexists hq'] at hthere'
    cases hthere'

end Written

end Content

/-- A build that reads such a `zlib` with these files in it. -/
def zlibBuild (letter : Char) (files : List (Bytes × Bytes)) : Build where
  out := []
  storeRoots := zlib letter
  fs := .ofFiles (files.map fun f => (zlib letter ++ f.1, f.2))
  identities _ := []

theorem zlibBuild_honest (dir : Bytes) (blake3 : Blake3) (letter : Char)
    (files : List (Bytes × Bytes)) : (zlibBuild letter files).Honest dir blake3 := by
  intro ask e he
  change e ∈ ask.zip [] at he
  rw [List.zip_nil_right] at he
  cases he

end Repkgs.Jig
