import Repkgs.Jig.Store

/-!
# Manifests

`BuildManifest` writes down the inputs of a compile with their identities and
the paths it looked up in vain, `ValidateManifest` reads the text back, possibly
in another build (`manifest.cc`).
-/

namespace Repkgs.Jig

open Lib

/-- A run of jig: the store as it is configured, what paths lead to, and what
jigd answers when it is asked for identities. -/
structure Process where
  store : Store
  fs : FileSystem
  identities : List Bytes → List Bytes

section Process

variable (blake3 : Blake3)

/-- `PrefetchIdentities`. -/
def Process.prefetchIdentities (j : Process) (paths : List Bytes) : Store :=
  let ask := paths.filter j.store.daemonMayIdentify
  (ask.zip (j.identities ask)).foldl
    (fun s e => if e.2.isEmpty then s else s.rememberIdentity e.1 e.2) j.store

/-- `Hasher::Field`: the bytes a field adds to the hash. -/
def hashField (data : Bytes) : Bytes := ascii (toString data.length) ++ ascii ":" ++ data

/-- The hash of a request key and the lines of a manifest. -/
def resultKey (requestKey : Bytes) (lines : List Bytes) : Bytes :=
  hashOf blake3 ((requestKey :: lines).flatMap hashField)

/-- The line of an input: `<masked path>\t<identity>`, none for an unreadable file. -/
def Process.inputLine (j : Process) (known : Store) (path : Bytes) : Option Bytes :=
  (known.inputId blake3 j.fs path).map fun identity =>
    j.store.key path ++ ascii "\t" ++ identity

def Process.inputLines (j : Process) (inputs : List Bytes) (primarySource : Bytes) : List Bytes :=
  (inputs.filter (· ≠ primarySource)).filterMap
    (j.inputLine blake3 (j.prefetchIdentities inputs))

/-- One path of the absent list: store paths and what exists by now drop out. -/
def Process.addAbsent (j : Process) (lines : List Bytes) (path : Bytes) : List Bytes :=
  if path.isEmpty || isStorePath j.store.dir path || j.fs.pathExists path then lines
  else
    let line := ascii "!" ++ j.store.key path
    if line ∈ lines then lines else lines ++ [line]

def Process.absentLines (j : Process) (absent : List Bytes) : List Bytes :=
  absent.foldl j.addAbsent []

structure Manifest where
  text : Bytes
  resultKey : Bytes

/-- `BuildManifest`. -/
def Process.buildManifest (j : Process) (requestKey : Bytes) (inputs : List Bytes)
    (primarySource : Bytes) (absent : List Bytes) : Manifest :=
  let lines := j.inputLines blake3 inputs primarySource ++ j.absentLines absent
  { text := lines.flatMap (· ++ ascii "\n"), resultKey := resultKey blake3 requestKey lines }

/-- A line of a manifest: the path in this build, empty when it lacks the root,
and where the tab stands, if the line is not a `!` line. -/
structure Entry where
  path : Bytes
  line : Bytes
  tab : Option Nat
  deriving DecidableEq

def parseLine (s : Store) (line : Bytes) : Option Entry :=
  if line.head? = some (chr '!') then some ⟨(s.resolve (line.drop 1)).getD [], line, none⟩
  else
    let tab := (cut (chr '\t') line).1.length
    if tab < line.length then some ⟨(s.resolve (line.take tab)).getD [], line, some tab⟩ else none

/-- `ParseManifest`. -/
def parseManifest (s : Store) (text : Bytes) : List Entry :=
  (split text (chr '\n')).filterMap (parseLine s)

/-- Check a line against the files of this build, with the error it causes. -/
def Process.checkEntry (j : Process) (known : Store) (e : Entry) : Except Bytes Unit :=
  match e.tab with
  | none =>
      if j.fs.pathExists e.path then .error (ascii "appeared:" ++ e.line.drop 1) else .ok ()
  | some tab =>
      if known.inputId blake3 j.fs e.path = some (e.line.drop (tab + 1)) then .ok ()
      else .error (ascii "inputs-changed:" ++ e.line.take tab)

/-- The first error of a list of entries. -/
def Process.checkEntries (j : Process) (known : Store) : List Entry → Except Bytes Unit
  | [] => .ok ()
  | e :: es =>
      match j.checkEntry blake3 known e with
      | .error err => .error err
      | .ok () => j.checkEntries known es

/-- `ValidateManifest`: the result key, or why the manifest does not hold here. -/
def Process.validateManifest (j : Process) (requestKey text : Bytes) : Except Bytes Bytes :=
  let entries := parseManifest j.store text
  let known := j.prefetchIdentities ((entries.filter (·.tab.isSome)).map Entry.path)
  match j.checkEntries blake3 known entries with
  | .error err => .error err
  | .ok () => .ok (resultKey blake3 requestKey (entries.map Entry.line))

end Process

/-- A build: its own output, its store roots, what its paths lead to, and what
jigd answers when it is asked for identities. -/
structure Build where
  out : Bytes
  storeRoots : Bytes
  fs : FileSystem
  identities : List Bytes → List Bytes

section Content

variable (dir : Bytes) (blake3 : Blake3)

/-- The store of the build, in content mode. -/
def Build.store (b : Build) : Store := .make dir true b.out b.storeRoots

def Build.process (b : Build) : Process := ⟨b.store dir, b.fs, b.identities⟩

/-- `BuildManifest` in a build in content mode. -/
def Build.buildManifest (b : Build) (requestKey : Bytes) (inputs : List Bytes)
    (primarySource : Bytes) (absent : List Bytes) : Manifest :=
  (b.process dir).buildManifest blake3 requestKey inputs primarySource absent

/-- `ValidateManifest` in a build in content mode. -/
def Build.validateManifest (b : Build) (requestKey text : Bytes) : Except Bytes Bytes :=
  (b.process dir).validateManifest blake3 requestKey text

end Content

variable {blake3 : Blake3}

variable {j : Process} {path line id key : Bytes}

theorem checkEntries_eq_ok {known : Store} {es : List Entry} :
    j.checkEntries blake3 known es = .ok () ↔ ∀ e ∈ es, j.checkEntry blake3 known e = .ok () := by
  induction es with
  | nil => simp [Process.checkEntries]
  | cons e es ih =>
      rw [Process.checkEntries, List.forall_mem_cons]
      cases hcheck : j.checkEntry blake3 known e with
      | error err => simp
      | ok u => simp [ih]

theorem mem_addAbsent {lines : List Bytes} (h : line ∈ lines) :
    line ∈ j.addAbsent lines path := by
  unfold Process.addAbsent
  split
  · exact h
  · simp only
    split
    · exact h
    · exact List.mem_append_left _ h

theorem mem_absentLines {absent : List Bytes} (h : path ∈ absent) (hne : path ≠ [])
    (hstore : isStorePath j.store.dir path = false) (hexists : j.fs.pathExists path = false) :
    ascii "!" ++ j.store.key path ∈ j.absentLines absent := by
  have hkept : ∀ (rest : List Bytes) {lines : List Bytes} {line : Bytes}, line ∈ lines →
      line ∈ rest.foldl (j.addAbsent) lines := by
    intro rest
    induction rest with
    | nil => exact id
    | cons p rest ih => exact fun hmem => ih (mem_addAbsent hmem)
  obtain ⟨before, after, rfl⟩ := List.append_of_mem h
  rw [Process.absentLines, List.foldl_append, List.foldl_cons]
  apply hkept
  have hempty : path.isEmpty = false := by simpa using hne
  simp only [Process.addAbsent, hempty, hstore, hexists, Bool.or_self, Bool.false_eq_true, if_false]
  split
  · assumption
  · exact List.mem_append_right _ (.head _)

theorem of_mem_absentLines {absent : List Bytes} (h : line ∈ j.absentLines absent) :
    ∃ path ∈ absent, (path ≠ [] ∧ isStorePath j.store.dir path = false ∧
      j.fs.pathExists path = false) ∧ line = ascii "!" ++ j.store.key path := by
  induction absent using List.reverseRecOn with
  | nil => cases h
  | append_singleton absent path ih =>
      rw [Process.absentLines, List.foldl_append] at h
      change line ∈ j.addAbsent (j.absentLines absent) path at h
      have hold : line ∈ j.absentLines absent → ∃ p ∈ absent ++ [path],
          (p ≠ [] ∧ isStorePath j.store.dir p = false ∧ j.fs.pathExists p = false) ∧
            line = ascii "!" ++ j.store.key p := by
        intro hmem
        obtain ⟨p, hp, hrest⟩ := ih hmem
        exact ⟨p, List.mem_append_left _ hp, hrest⟩
      unfold Process.addAbsent at h
      split at h
      · exact hold h
      · next hskip =>
          simp only at h
          split at h
          · exact hold h
          · rcases List.mem_append.mp h with hmem | hnew
            · exact hold hmem
            · simp only [Bool.or_eq_true, not_or, Bool.not_eq_true] at hskip
              exact ⟨path, List.mem_append_right _ (.head _),
                ⟨by simpa using hskip.1.1, hskip.1.2, hskip.2⟩, List.mem_singleton.mp hnew⟩

theorem mem_split_lines {lines : List Bytes} (h : line ∈ lines) (hnl : chr '\n' ∉ line)
    (hne : line ≠ []) :
    line ∈ split (lines.flatMap (· ++ ascii "\n")) (chr '\n') := by
  obtain ⟨before, after, rfl⟩ := List.append_of_mem h
  have htext : (before ++ line :: after).flatMap (· ++ ascii "\n") =
      before.flatMap (· ++ ascii "\n") ++ line ++ chr '\n' ::
        after.flatMap (· ++ ascii "\n") := by
    rw [List.flatMap_append, List.flatMap_cons, ← List.append_assoc, ← List.append_assoc]
    simp [ascii, chr]
  rw [htext]
  refine mem_split hnl hne ?_
  rcases List.eq_nil_or_concat before with rfl | ⟨front, last, rfl⟩
  · exact Or.inl rfl
  · refine Or.inr ⟨front.flatMap (· ++ ascii "\n") ++ last, ?_⟩
    simp [ascii, chr]

/-- The identity of a file, as `Store::InputId` finds it without jigd's help. -/
def Process.identity (blake3 : Blake3) (j : Process) (path : Bytes) : Option Bytes :=
  if isStorePath j.store.dir path && !j.store.byContent then some (ascii "S:" ++ path)
  else j.store.contentId blake3 j.fs path

/-- jigd answers with the identity that a local hash would give, or with nothing. -/
def Process.Honest (blake3 : Blake3) (j : Process) : Prop :=
  ∀ ask : List Bytes, ∀ e ∈ ask.zip (j.identities ask),
    e.2 = [] ∨ j.identity blake3 e.1 = some e.2

/-- What is remembered is true. -/
structure Knows (blake3 : Blake3) (j : Process) (s : Store) : Prop where
  same : ∃ m, s = { j.store with knownIds := m }
  known : ∀ {path id}, s.knownIds.lookup path = some id → j.identity blake3 path = some id

theorem Knows.remember {s : Store} (h : Knows blake3 j s) {e : Bytes × Bytes}
    (he : e.2 = [] ∨ j.identity blake3 e.1 = some e.2) :
    Knows blake3 j (if e.2.isEmpty then s else s.rememberIdentity e.1 e.2) := by
  split
  · exact h
  · next hne =>
      have hid := he.resolve_left (by simpa using hne)
      obtain ⟨m, rfl⟩ := h.same
      refine ⟨⟨_, rfl⟩, ?_⟩
      intro path id hl
      rw [Store.rememberIdentity, Map.lookup_insert_eq] at hl
      split at hl
      · next heq =>
          cases hl
          rw [heq]
          exact hid
      · exact h.known hl

theorem Process.Honest.knows (h : j.Honest blake3) (hnew : j.store.knownIds = ∅)
    (paths : List Bytes) : Knows blake3 j (j.prefetchIdentities paths) := by
  have hfold : ∀ (es : List (Bytes × Bytes)) {s : Store}, Knows blake3 j s →
      (∀ e ∈ es, e.2 = [] ∨ j.identity blake3 e.1 = some e.2) →
      Knows blake3 j (es.foldl
        (fun s e => if e.2.isEmpty then s else s.rememberIdentity e.1 e.2) s) := by
    intro es
    induction es with
    | nil => exact fun hs _ => hs
    | cons e es ih =>
        intro s hs hes
        exact ih (hs.remember (hes e (.head _)))
          fun e' he' => hes e' (.tail _ he')
  refine hfold _ ⟨⟨_, rfl⟩, ?_⟩ (h _)
  intro path id hl
  rw [hnew] at hl
  cases hl

theorem Knows.inputId {s : Store} (h : Knows blake3 j s) (path : Bytes) :
    s.inputId blake3 j.fs path = j.identity blake3 path := by
  obtain ⟨m, rfl⟩ := h.same
  unfold Store.inputId Process.identity
  split
  · rfl
  · next hstore =>
    split
    · next known hl =>
        have hknown := h.known hl
        rw [Process.identity, if_neg hstore] at hknown
        exact hknown.symm
    · rfl

/-- Every input with an identity has a line. -/
theorem mem_inputLines (h : j.Honest blake3) (hnew : j.store.knownIds = ∅) {inputs : List Bytes}
    {primarySource p id : Bytes} (hp : p ∈ inputs) (hprimary : p ≠ primarySource)
    (hid : j.identity blake3 p = some id) :
    j.store.key p ++ ascii "\t" ++ id ∈ j.inputLines blake3 inputs primarySource := by
  refine List.mem_filterMap.mpr ⟨p, List.mem_filter.mpr ⟨hp, by simpa using hprimary⟩, ?_⟩
  rw [Process.inputLine, (h.knows hnew inputs).inputId, hid]
  rfl

/-- What an accepted text says about each of its lines. -/
theorem checked_of_valid {requestKey text k : Bytes}
    (h : j.validateManifest blake3 requestKey text = .ok k) :
    ∃ paths, ∀ line ∈ split text (chr '\n'), ∀ e, parseLine j.store line = some e →
      j.checkEntry blake3 (j.prefetchIdentities paths) e = .ok () := by
  unfold Process.validateManifest at h
  simp only at h
  split at h
  · cases h
  · next hok =>
      refine ⟨_, fun line hline e he => checkEntries_eq_ok.mp hok e ?_⟩
      exact List.mem_filterMap.mpr ⟨line, hline, he⟩

theorem head?_inputLine_ne (h : key.head? ≠ some (chr '!')) (id : Bytes) :
    (key ++ ascii "\t" ++ id).head? ≠ some (chr '!') := by
  cases key with
  | nil => exact fun heq => absurd (Option.some.inj heq) (by decide)
  | cons c cs => exact h

theorem parseLine_input (s : Store) (htab : chr '\t' ∉ key) (hbang : key.head? ≠ some (chr '!')) :
    parseLine s (key ++ ascii "\t" ++ id) =
      some ⟨(s.resolve key).getD [], key ++ ascii "\t" ++ id, some key.length⟩ := by
  have hline : key ++ ascii "\t" ++ id = key ++ chr '\t' :: id := by simp [ascii, chr]
  rw [parseLine, if_neg (head?_inputLine_ne hbang id), hline, cut_append_cons htab]
  simp

theorem parseLine_absent (s : Store) (key : Bytes) :
    parseLine s (ascii "!" ++ key) = some ⟨(s.resolve key).getD [], ascii "!" ++ key, none⟩ :=
  rfl

theorem accepted_input (hj : j.Honest blake3) (hnew : j.store.knownIds = ∅)
    {paths : List Bytes} (htab : chr '\t' ∉ key)
    (hbang : key.head? ≠ some (chr '!'))
    (h : ∀ e, parseLine j.store (key ++ ascii "\t" ++ id) = some e →
      j.checkEntry blake3 (j.prefetchIdentities paths) e = .ok ()) :
    j.identity blake3 ((j.store.resolve key).getD []) = some id := by
  have hcheck := h _ (parseLine_input _ htab hbang)
  have hid : (key ++ ascii "\t" ++ id).drop (key.length + 1) = id := by
    rw [List.append_assoc, List.drop_length_add_append]
    rfl
  simp only [Process.checkEntry, (hj.knows hnew paths).inputId, hid] at hcheck
  split at hcheck
  · next heq => exact heq
  · cases hcheck

theorem accepted_absent {known : Store}
    (h : ∀ e, parseLine j.store (ascii "!" ++ key) = some e →
      j.checkEntry blake3 known e = .ok ())
    (hpath : j.store.resolve key = some path) : j.fs.pathExists path = false := by
  have hcheck := h _ (parseLine_absent _ key)
  simp only [Process.checkEntry, hpath, Option.getD_some] at hcheck
  split at hcheck
  · cases hcheck
  · next hno => exact Bool.not_eq_true _ ▸ hno

end Repkgs.Jig
