import Mathlib.Data.List.Sort
import Mathlib.Data.UInt
import Repkgs.Lib.Failing
import Repkgs.Jig.FixupPaths
import Repkgs.Jig.ManifestSelf
import Repkgs.Jig.DepfileReplay
import Repkgs.Jig.PchOptions

/-!
# What the request key hashes

`ComputeRequestKey` feeds length-prefixed fields to the hash (`cc_mode.cc`). The
last field holds the source, the identities of precompiled headers and those of
the toolchain, one behind the other. How many headers there are is not written
down; the key arguments tell it as long as no argument is respelled to
`-include-pch` on its way into the key. How long the name of an input is follows
from the kind of its identity.
-/

namespace Repkgs.Jig

open Lib

inductive CcMode
  | compile
  | linkOne
  | link
  deriving DecidableEq

namespace CcMode

def text : CcMode → Bytes
  | compile => ascii "mode=compile"
  | linkOne => ascii "mode=link-one"
  | link => ascii "mode=link"

def links : CcMode → Bool
  | compile => false
  | linkOne | link => true

end CcMode

def Invocation.mode (inv : Invocation) : CcMode :=
  if inv.link then .link else if inv.linkOne then .linkOne else .compile

/-- A call of the compiler wrapper and what it finds around it. -/
structure KeyRun where
  call : CcRun
  process : Process
  cwd : Bytes
  libraryPath : Bytes
  pathVariable : Bytes
  /-- `std::filesystem::canonical`, `none` for an error. -/
  canonical : Bytes → Option Bytes
  /-- The names of the regular files in a directory, symlinks left out. -/
  regularFiles : Bytes → List Bytes

namespace KeyRun

def inv (r : KeyRun) : Invocation := r.call.inv

def store (r : KeyRun) : Store := r.process.store

/-- `OnPath`. -/
def onPath (r : KeyRun) (name : Bytes) : Bytes :=
  if name.contains (chr '/') then name
  else
    let found := (split r.pathVariable (chr ':')).find? fun dir =>
      r.process.fs.pathExists (appendPath dir name)
    (found.map (appendPath · name)).getD name

/-- `Store::ToolId`. -/
def toolId (r : KeyRun) (path : Bytes) : Bytes :=
  r.store.key (match r.canonical (parentPath path) with
    | none => path
    | some dir => appendPath dir (fileName path))

def isToolLibrary (name : Bytes) : Bool :=
  ["libLLVM", "libclang-cpp", "liblld"].any fun s => (ascii s).isPrefixOf name

/-- The files of a tool: the program and the libraries in the `lib` beside its directory. -/
def filesOfTool (r : KeyRun) (tool : Bytes) : List Bytes :=
  match r.canonical tool with
  | none => []
  | some real =>
      let lib := appendPath (parentPath (parentPath real)) (ascii "lib")
      real :: ((r.regularFiles lib).filter isToolLibrary).map (appendPath lib)

/-- The files that `ToolchainIds` identifies. -/
def toolFiles (r : KeyRun) : List Bytes :=
  let linkers :=
    if r.inv.mode.links then
      (r.inv.args.filter fun arg => (ascii "--ld-path=").isPrefixOf arg).map
        (·.drop (ascii "--ld-path=").length)
    else []
  (((r.onPath r.call.conf.cc :: linkers).flatMap r.filesOfTool).insertionSort (· ≤ ·)).eraseReps

section Hashed

variable (blake3 : Blake3)

/-- `ToolchainIds`. -/
def toolchainIds (r : KeyRun) : Bytes :=
  let known := r.process.prefetchIdentities r.toolFiles
  r.toolFiles.flatMap fun file =>
    (known.inputId blake3 r.process.fs file).getD (ascii "?") ++ ascii ","

def inputId (r : KeyRun) (path : Bytes) : Option Bytes := r.store.inputId blake3 r.process.fs path

/-- `PrimaryIdentity`. -/
def primaryIdentity (r : KeyRun) : Option Bytes :=
  if r.inv.link then
    (r.inv.inputs.mapM fun input =>
      (r.inputId blake3 input).map fun id =>
        input ++ ascii "=" ++ id ++ ascii "\n").map List.flatten
  else
    r.process.fs.readFile r.inv.source >>= fun text =>
      (r.inv.pch.mapM (r.inputId blake3)).map fun ids => text ++ ids.flatMap (ascii "\npch=" ++ ·)

/-- The field of a key argument. Dependency paths that a link embeds are not masked. -/
def keyArg (r : KeyRun) (arg : Bytes) : Bytes :=
  let embedded := r.inv.mode.links &&
    (containsText arg (ascii "dynamic-linker") || containsText arg (ascii "rpath"))
  if embedded then r.store.maskOut arg else r.store.key (r.store.maskOut arg)

/-- The fields in front of the arguments. -/
def frontFields (r : KeyRun) : List Bytes :=
  [ascii "cc=" ++ r.toolId r.call.conf.cc, ascii "cwd=" ++ r.store.key r.cwd] ++
    (if r.inv.link then [] else [ascii "src=" ++ r.store.key (r.store.maskOut r.inv.source)]) ++
    [r.inv.mode.text] ++
    if r.inv.mode.links then [ascii "LIBRARY_PATH=" ++ r.store.maskForReplay r.libraryPath] else []

/-- The bytes that `ComputeRequestKey` feeds to the hash. -/
def hashInput (r : KeyRun) (primary : Bytes) : Bytes :=
  (r.frontFields ++ r.inv.keyArgs.map r.keyArg ++ [r.store.maskOut primary]).flatMap hashField

/-- The bytes hashed by a call, `none` if it is not cached. -/
def requestInput (r : KeyRun) : Option Bytes :=
  if r.inv.cacheable then
    (r.primaryIdentity blake3).map fun primary =>
      r.hashInput (primary ++ ascii "\ntoolchain=" ++ r.toolchainIds blake3)
  else none

end Hashed

end KeyRun

/-- What is compiled or linked: a source and the identities of its precompiled
headers, or the names and identities of objects. -/
inductive Body
  | unit (source : Bytes) (pch : List Bytes)
  | objects (inputs : List (Bytes × Bytes))
  deriving DecidableEq

/-- The mode with what is in the key for it: the path of the source, unless objects
are linked, and `LIBRARY_PATH` for a link. -/
inductive Target
  | compile (source : Bytes)
  | linkOne (source libraryPath : Bytes)
  | link (libraryPath : Bytes)
  deriving DecidableEq

/-- What a request is made of, after masking. -/
@[ext]
structure Parts where
  tool : Bytes
  cwd : Bytes
  target : Target
  keyArgs : List Bytes
  body : Body
  toolchain : Bytes
  deriving DecidableEq

namespace KeyRun

variable (blake3 : Blake3)

def body (r : KeyRun) : Option Body :=
  if r.inv.link then
    (r.inv.inputs.mapM fun input =>
      (r.inputId blake3 input).map fun id =>
        (r.store.maskOut input, r.store.maskOut id)).map .objects
  else
    r.process.fs.readFile r.inv.source >>= fun text =>
      (r.inv.pch.mapM (r.inputId blake3)).map fun ids =>
        .unit (r.store.maskOut text) (ids.map r.store.maskOut)

def target (r : KeyRun) : Target :=
  let source := r.store.key (r.store.maskOut r.inv.source)
  let libraryPath := r.store.maskForReplay r.libraryPath
  match r.inv.mode with
  | .compile => .compile source
  | .linkOne => .linkOne source libraryPath
  | .link => .link libraryPath

def partsOf (r : KeyRun) (body : Body) : Parts where
  tool := r.toolId r.call.conf.cc
  cwd := r.store.key r.cwd
  target := r.target
  keyArgs := r.inv.keyArgs.map r.keyArg
  body := body
  toolchain := r.store.maskOut (r.toolchainIds blake3)

def parts (r : KeyRun) : Option Parts := (r.body blake3).map (r.partsOf blake3)

end KeyRun

def Body.text : Body → Bytes
  | unit source pch => source ++ pch.flatMap (ascii "\npch=" ++ ·)
  | objects inputs => inputs.flatMap fun input => input.1 ++ ascii "=" ++ input.2 ++ ascii "\n"

def Target.fields : Target → List Bytes
  | compile source => [ascii "src=" ++ source, CcMode.compile.text]
  | linkOne source libraryPath =>
      [ascii "src=" ++ source, CcMode.linkOne.text, ascii "LIBRARY_PATH=" ++ libraryPath]
  | link libraryPath => [CcMode.link.text, ascii "LIBRARY_PATH=" ++ libraryPath]

namespace Parts

def frontFields (p : Parts) : List Bytes :=
  [ascii "cc=" ++ p.tool, ascii "cwd=" ++ p.cwd] ++ p.target.fields

def stream (p : Parts) : Bytes :=
  (p.frontFields ++ p.keyArgs ++ [p.body.text ++ ascii "\ntoolchain=" ++ p.toolchain]).flatMap
    hashField

end Parts

/-- A store directory whose name is one line without `=`, and an output with a hash or none. -/
structure Store.Proper (s : Store) : Prop where
  absolute : s.dir.head? = some (chr '/')
  newline : chr '\n' ∉ s.dir
  equals : chr '=' ∉ s.dir
  hash : s.outHash = [] ∨ isStoreHash s.outHash = true

namespace Store.Proper

variable {s : Store}

theorem base32_of_mem {hash : Bytes} (h : isStoreHash hash = true) {c : Byte} (hc : c ∈ hash) :
    c ∈ base32 := by
  rw [isStoreHash, Bool.and_eq_true, List.all_eq_true] at h
  simpa using h.2 c hc

theorem head_outWord (h : s.Proper) (hash : Bytes) :
    (outWord s.dir hash).head? = some (chr '/') := by
  rw [outWord, storePrefix, List.head?_append, List.head?_append, List.head?_append, h.absolute]
  rfl

/-- The word that is masked is one line without `=`, and so is its replacement. -/
theorem notMem_outWord (h : s.Proper) {hash : Bytes}
    (hhash : isStoreHash hash = true ∨ hash = outPlaceholder) {c : Byte}
    (hc : c = chr '\n' ∨ c = chr '=') : c ∉ outWord s.dir hash := by
  have hdir : c ∉ s.dir := by
    rcases hc with rfl | rfl
    · exact h.newline
    · exact h.equals
  have hchars : c ∉ hash := by
    intro hmem
    rcases hhash with hhash | rfl
    · have hbase := base32_of_mem hhash hmem
      rcases hc with rfl | rfl <;> exact absurd hbase (by decide)
    · rcases hc with rfl | rfl <;> exact absurd hmem (by decide)
  have hconst : c ∉ ascii "/" ∧ c ∉ ascii "-" := by
    rcases hc with rfl | rfl <;> decide
  simp [outWord, storePrefix, hdir, hchars, hconst]

/-- A text made of two texts around a newline or an `=` is masked side by side. -/
theorem maskOut_append_cons (h : s.Proper) {sep : Byte} (hsep : sep = chr '\n' ∨ sep = chr '=')
    (before after : Bytes) :
    s.maskOut (before ++ sep :: after) = s.maskOut before ++ sep :: s.maskOut after := by
  rcases h.hash with hempty | hhash
  · simp [maskOut, swapOutHash, hempty]
  · have hne : outWord s.dir s.outHash ≠ [] := by
      intro hnil
      have hhead := h.head_outWord s.outHash
      rw [hnil] at hhead
      cases hhead
    simp only [maskOut, swapOutHash_eq hhash, Bool.false_eq_true, if_false]
    exact (replaces_replaceRule _ _).scan_append_cons hne
      (h.notMem_outWord (Or.inl hhash) hsep) before after

theorem maskOut_front (h : s.Proper) {front : Bytes} (hfront : chr '/' ∉ front) (text : Bytes) :
    s.maskOut (front ++ text) = front ++ s.maskOut text := by
  rcases h.hash with hempty | hhash
  · simp [maskOut, swapOutHash, hempty]
  · simp only [maskOut, swapOutHash_eq hhash, Bool.false_eq_true, if_false]
    exact (replaces_replaceRule _ _).scan_front (h.head_outWord _) hfront text

theorem newline_notMem_maskOut (h : s.Proper) {text : Bytes} (htext : chr '\n' ∉ text) :
    chr '\n' ∉ s.maskOut text := by
  rcases h.hash with hempty | hhash
  · simpa [maskOut, swapOutHash, hempty] using htext
  · have hne : outWord s.dir s.outHash ≠ [] := by simp [outWord, ascii]
    simp only [maskOut, swapOutHash_eq hhash, Bool.false_eq_true, if_false]
    intro hmem
    rcases (replaces_replaceRule _ _).mem_scan hne text hmem with hmem | hmem
    · exact htext hmem
    · exact h.notMem_outWord (Or.inr rfl) (Or.inl rfl) hmem

theorem length_maskOut (h : s.Proper) (text : Bytes) :
    (s.maskOut text).length = text.length := by
  rcases h.hash with hempty | hhash
  · simp [maskOut, swapOutHash, hempty]
  · have hne : outWord s.dir s.outHash ≠ [] := by simp [outWord, ascii]
    have hlen : (outWord s.dir outPlaceholder).length = (outWord s.dir s.outHash).length := by
      rw [length_outWord _ outHash_placeholder, length_outWord _ (outHash_of_isStoreHash hhash)]
    simp only [maskOut, swapOutHash_eq hhash, Bool.false_eq_true, if_false]
    exact le_antisymm ((replaces_replaceRule _ _).length_scan_le hne hlen.le text)
      ((replaces_replaceRule _ _).length_le_scan hne hlen.ge text)

/-- A line with a label in front of it. -/
theorem maskOut_line (h : s.Proper) (before : Bytes) {label : Bytes} (hlabel : chr '/' ∉ label)
    (text : Bytes) :
    s.maskOut (before ++ chr '\n' :: (label ++ text)) =
      s.maskOut before ++ chr '\n' :: (label ++ s.maskOut text) := by
  rw [h.maskOut_append_cons (Or.inl rfl), h.maskOut_front hlabel]

theorem maskOut_pchLines (h : s.Proper) (text : Bytes) (ids : List Bytes) :
    s.maskOut (text ++ ids.flatMap (ascii "\npch=" ++ ·)) =
      s.maskOut text ++ (ids.map s.maskOut).flatMap (ascii "\npch=" ++ ·) := by
  induction ids using List.reverseRecOn with
  | nil => simp
  | append_singleton ids id ih =>
      have hline : ∀ x y : Bytes,
          x ++ (ascii "\npch=" ++ y) = x ++ chr '\n' :: (ascii "pch=" ++ y) := fun _ _ => rfl
      simp only [List.flatMap_append, List.flatMap_singleton, List.map_append, List.map_singleton,
        ← List.append_assoc]
      rw [List.append_assoc, hline, h.maskOut_line _ (by decide), ih, ← hline]
      simp only [List.append_assoc]

theorem maskOut_inputLines (h : s.Proper) (inputs : List (Bytes × Bytes)) (rest : Bytes) :
    s.maskOut ((inputs.map fun input =>
        input.1 ++ ascii "=" ++ input.2 ++ ascii "\n").flatten ++ rest) =
      (Body.objects (inputs.map fun input => (s.maskOut input.1, s.maskOut input.2))).text ++
        s.maskOut rest := by
  induction inputs with
  | nil => rfl
  | cons input inputs ih =>
      have hone : ∀ x y z : Bytes, x ++ ascii "=" ++ y ++ ascii "\n" ++ z =
          x ++ chr '=' :: (y ++ chr '\n' :: z) := by
        intro x y z
        simp [ascii, chr]
      rw [List.map_cons, List.flatten_cons, List.append_assoc, hone,
        h.maskOut_append_cons (Or.inr rfl), h.maskOut_append_cons (Or.inl rfl), ih]
      simp [Body.text, ascii, chr]

end Store.Proper

namespace KeyRun

variable {blake3 : Blake3} {r : KeyRun}

theorem frontFields_eq (r : KeyRun) (body : Body) :
    r.frontFields = (r.partsOf blake3 body).frontFields := by
  unfold frontFields Parts.frontFields partsOf target Invocation.mode
  cases r.inv.link <;> cases r.inv.linkOne <;> rfl

/-- Masking the last field masks its pieces. -/
theorem maskOut_primary (h : r.store.Proper) (toolchain : Bytes) :
    ((r.primaryIdentity blake3).map fun primary =>
        r.store.maskOut (primary ++ ascii "\ntoolchain=" ++ toolchain)) =
      (r.body blake3).map fun body =>
        body.text ++ ascii "\ntoolchain=" ++ r.store.maskOut toolchain := by
  have htool : ∀ x y : Bytes, x ++ ascii "\ntoolchain=" ++ y =
      x ++ chr '\n' :: (ascii "toolchain=" ++ y) := by
    intro x y
    rw [List.append_assoc]
    rfl
  have hslash : chr '/' ∉ ascii "toolchain=" := by decide
  unfold primaryIdentity body
  cases hlink : r.inv.link with
  | true =>
      simp only [if_true, mapM_option_map, Option.map_map]
      congr 1
      funext ids
      have hlines := h.maskOut_inputLines (r.inv.inputs.zip ids) []
      simp only [List.append_nil] at hlines
      simp only [Function.comp_apply]
      rw [htool, h.maskOut_line _ hslash, hlines, htool, show r.store.maskOut [] = [] from ?_,
        List.append_nil]
      exact List.length_eq_zero_iff.mp (h.length_maskOut [])
  | false =>
      simp only [Bool.false_eq_true, if_false]
      cases r.process.fs.readFile r.inv.source with
      | none => rfl
      | some text =>
          simp only [Option.bind_eq_bind, Option.bind_some, Option.map_map]
          congr 1
          funext ids
          simp only [Function.comp_apply, Body.text]
          rw [htool, h.maskOut_line _ hslash, h.maskOut_pchLines, htool]

/-- The bytes that are hashed, from the parts of the request. -/
theorem requestInput_eq (h : r.store.Proper) {stream : Bytes}
    (hstream : r.requestInput blake3 = some stream) :
    ∃ p, r.parts blake3 = some p ∧ p.stream = stream := by
  unfold requestInput at hstream
  split at hstream
  · obtain ⟨primary, hprimary, rfl⟩ := Option.map_eq_some_iff.mp hstream
    have hlast := @maskOut_primary blake3 r h (r.toolchainIds blake3)
    rw [hprimary, Option.map_some] at hlast
    obtain ⟨body, hbody, htext⟩ := Option.map_eq_some_iff.mp hlast.symm
    refine ⟨r.partsOf blake3 body, by rw [parts, hbody, Option.map_some], ?_⟩
    rw [hashInput, ← htext, frontFields_eq r body]
    rfl
  · cases hstream

end KeyRun

/-- The first fields say which ones follow. -/
theorem Target.fields_inj {a b : Target} {x y : List Bytes}
    (h : a.fields ++ x = b.fields ++ y) : a = b ∧ x = y := by
  have hsource : ∀ t : Bytes, ascii "src=" ++ t ≠ CcMode.link.text := by
    intro t
    simp [ascii, CcMode.text]
  have hmode : CcMode.compile.text ≠ CcMode.linkOne.text := by decide
  cases a <;> cases b <;>
    simp only [fields, List.cons_append, List.nil_append, List.cons.injEq,
      List.append_cancel_left_eq, hsource, (hsource _).symm, hmode, hmode.symm, false_and,
      and_false, true_and] at h
  · exact ⟨by rw [h.1], h.2⟩
  · exact ⟨by rw [h.1, h.2.1], h.2.2⟩
  · exact ⟨by rw [h.1], h.2⟩

/-- The names of two lists of inputs are equally long, two lists of headers are. -/
def Body.Aligned : Body → Body → Prop
  | unit _ pch, unit _ pch' => pch.length = pch'.length
  | objects inputs, objects inputs' =>
      inputs.map (·.1.length) = inputs'.map (·.1.length)
  | _, _ => False

/-- Identities and names of one line. -/
def Body.OneLine : Body → Prop
  | unit _ pch => ∀ id ∈ pch, chr '\n' ∉ id
  | objects inputs => ∀ input ∈ inputs, chr '\n' ∉ input.1 ∧ chr '\n' ∉ input.2

/-- The line of an input of a link. -/
def inputLine (input : Bytes × Bytes) : Bytes := input.1 ++ ascii "=" ++ input.2

theorem objects_lines_eq {inputs inputs' : List (Bytes × Bytes)}
    (h : (Body.objects inputs).OneLine) (h' : (Body.objects inputs').OneLine)
    (htext : (Body.objects inputs).text = (Body.objects inputs').text) :
    inputs.map inputLine = inputs'.map inputLine := by
  have hnewline : chr '\n' ∉ ascii "=" := by decide
  have hlines : ∀ {l : List (Bytes × Bytes)}, (Body.objects l).OneLine →
      split (Body.objects l).text (chr '\n') = l.map inputLine := by
    intro l hl
    have hone : ∀ line ∈ l.map inputLine, chr '\n' ∉ line := by
      intro line hline
      obtain ⟨i, hi, rfl⟩ := List.mem_map.mp hline
      simp [inputLine, (hl i hi).1, (hl i hi).2, hnewline]
    have hsplit := split_flatMap hone
    rw [List.flatMap_map, List.filter_eq_self.mpr] at hsplit
    · exact hsplit
    · intro line hline
      obtain ⟨i, hi, rfl⟩ := List.mem_map.mp hline
      simp [inputLine, ascii]
  exact (hlines h).symm.trans ((congrArg (split · (chr '\n')) htext).trans (hlines h'))

/-- Lines with equally long names are the same names and identities. -/
theorem inputs_eq_of_lines {inputs inputs' : List (Bytes × Bytes)}
    (haligned : inputs.map (·.1.length) = inputs'.map (·.1.length))
    (hlines : inputs.map inputLine = inputs'.map inputLine) : inputs = inputs' := by
  induction inputs generalizing inputs' with
  | nil => exact (List.map_eq_nil_iff.mp hlines.symm).symm
  | cons i inputs ih =>
      cases inputs' with
      | nil => cases hlines
      | cons i' inputs' =>
          simp only [List.map_cons, List.cons.injEq, inputLine, List.append_assoc]
            at hlines haligned
          obtain ⟨hname, hid⟩ := List.append_inj hlines.1 haligned.1
          have hpair : i = i' := Prod.ext hname (List.append_cancel_left hid)
          rw [hpair, ih haligned.2 (by simpa [inputLine] using hlines.2)]

/-- The identities of the toolchain are the last line of the last field. -/
theorem toolchain_inj {x x' t t' : Bytes} (ht : chr '\n' ∉ t) (ht' : chr '\n' ∉ t')
    (h : x ++ ascii "\ntoolchain=" ++ t = x' ++ ascii "\ntoolchain=" ++ t') : x = x' ∧ t = t' := by
  have hconst : chr '\n' ∉ ascii "toolchain=" := by decide
  have hline : ∀ y z : Bytes, y ++ ascii "\ntoolchain=" ++ z =
      y ++ chr '\n' :: (ascii "toolchain=" ++ z) := by
    intro y z
    rw [List.append_assoc]
    rfl
  rw [hline, hline] at h
  obtain ⟨hx, ht⟩ := append_cons_inj_last (by simp [hconst, ht]) (by simp [hconst, ht']) h
  exact ⟨hx, List.append_cancel_left ht⟩

/-- Equally many headers behind a source are read from the end: every identity is one line. -/
theorem unit_text_inj {source source' : Bytes} {pch pch' : List Bytes}
    (h : (Body.unit source pch).OneLine) (h' : (Body.unit source' pch').OneLine)
    (hlength : pch.length = pch'.length)
    (htext : (Body.unit source pch).text = (Body.unit source' pch').text) :
    source = source' ∧ pch = pch' := by
  have hlines : ∀ (s : Bytes) (l : List Bytes), (Body.unit s l).text =
      s ++ (l.map (ascii "pch=" ++ ·)).flatMap (chr '\n' :: ·) := by
    intro s l
    simp [Body.text, List.flatMap_map, ascii, chr]
  have hone : ∀ {l : List Bytes}, (∀ id ∈ l, chr '\n' ∉ id) →
      ∀ line ∈ l.map (ascii "pch=" ++ ·), chr '\n' ∉ line := by
    intro l hl line hline
    have hconst : chr '\n' ∉ ascii "pch=" := by decide
    obtain ⟨id, hid, rfl⟩ := List.mem_map.mp hline
    simp [hl id hid, hconst]
  rw [hlines, hlines] at htext
  obtain ⟨hsource, hpch⟩ := append_lines_inj (hone h) (hone h') (by simp [hlength]) htext
  have hinj : Function.Injective (ascii "pch=" ++ ·) := fun x y hxy => List.append_cancel_left hxy
  exact ⟨hsource, List.map_injective_iff.mpr hinj hpch⟩

theorem Body.text_inj {b b' : Body} (hb : b.OneLine) (hb' : b'.OneLine) (haligned : b.Aligned b')
    (h : b.text = b'.text) : b = b' := by
  match b, b', haligned with
  | .unit source pch, .unit source' pch', haligned =>
      obtain ⟨hsource, hpch⟩ := unit_text_inj hb hb' haligned h
      rw [hsource, hpch]
  | .objects inputs, .objects inputs', haligned =>
      rw [inputs_eq_of_lines haligned (objects_lines_eq hb hb' h)]

/-- What the hashed bytes tell in any case. -/
structure Parts.SameFields (p q : Parts) : Prop where
  tool : p.tool = q.tool
  cwd : p.cwd = q.cwd
  target : p.target = q.target
  keyArgs : p.keyArgs = q.keyArgs
  text : p.body.text = q.body.text
  toolchain : p.toolchain = q.toolchain

theorem Parts.sameFields {p q : Parts} (htp : chr '\n' ∉ p.toolchain)
    (htq : chr '\n' ∉ q.toolchain) (h : p.stream = q.stream) : p.SameFields q := by
  have hne : ∀ data, hashField data ≠ [] := by
    intro data
    simp [hashField, ascii]
  have hfields := unambiguous_hashField.flatMap hne h
  simp only [Parts.frontFields, List.cons_append, List.nil_append, List.append_assoc,
    List.cons.injEq, List.append_cancel_left_eq] at hfields
  obtain ⟨htool, hcwd, hrest⟩ := hfields
  obtain ⟨htarget, hrest⟩ := Target.fields_inj hrest
  obtain ⟨hargs, hlast⟩ := List.append_inj' hrest rfl
  have hfield := List.singleton_inj.mp hlast
  simp only [← List.append_assoc] at hfield
  obtain ⟨htext, htoolchain⟩ := toolchain_inj htp htq hfield
  exact ⟨htool, hcwd, htarget, hargs, htext, htoolchain⟩

theorem newline_notMem_inputId {blake3 : Blake3} {s : Store} {fs : FileSystem} {path id : Bytes}
    (hknown : ∀ known, s.knownIds.lookup path = some known → chr '\n' ∉ known)
    (hpath : chr '\n' ∉ path) (h : s.inputId blake3 fs path = some id) : chr '\n' ∉ id := by
  have hconst : chr '\n' ∉ ascii "S:" := by decide
  unfold Store.inputId at h
  split at h
  · cases h
    simp [hconst, hpath]
  · split at h
    · next known hlookup =>
        cases h
        exact hknown _ hlookup
    · exact newline_notMem_contentId h

/-- What jigd answers is remembered as it is. -/
theorem Process.of_lookup_prefetch {j : Process} (hnew : j.store.knownIds = ∅) {paths : List Bytes}
    {path id : Bytes} (h : (j.prefetchIdentities paths).knownIds.lookup path = some id) :
    ∃ ask, id ∈ j.identities ask := by
  let remember (s : Store) (e : Bytes × Bytes) : Store :=
    if e.2.isEmpty then s else s.rememberIdentity e.1 e.2
  have hfold : ∀ (es : List (Bytes × Bytes)) (s : Store),
      (es.foldl remember s).knownIds.lookup path = some id →
        s.knownIds.lookup path = some id ∨ ∃ e ∈ es, e.2 = id := by
    intro es
    induction es with
    | nil => exact fun s hs => Or.inl hs
    | cons e es ih =>
        intro s hs
        rcases ih _ hs with hs | ⟨e', he', hid⟩
        · simp only [remember] at hs
          split at hs
          · exact Or.inl hs
          · rw [Store.rememberIdentity, Map.lookup_insert_eq] at hs
            split at hs
            · exact Or.inr ⟨e, List.mem_cons_self, Option.some.inj hs⟩
            · exact Or.inl hs
        · exact Or.inr ⟨e', List.mem_cons_of_mem e he', hid⟩
  rcases hfold _ _ h with hold | ⟨e, he, rfl⟩
  · rw [hnew] at hold
    cases hold
  · exact ⟨_, (List.of_mem_zip he).2⟩

namespace KeyRun

/-- A process that was just started, in which paths and the lines that jigd answers
have no newline and every `-include-pch` is followed by a file. -/
structure OneLine (r : KeyRun) : Prop where
  followed : ∀ item ∈ items r.call.user, item.complete = true
  proper : r.store.Proper
  fresh : r.process.Fresh
  paths : ∀ path ∈ r.inv.inputs ++ r.inv.pch ++ r.toolFiles, chr '\n' ∉ path
  answers : ∀ ask, ∀ id ∈ r.process.identities ask, chr '\n' ∉ id

variable {blake3 : Blake3} {r r₁ r₂ : KeyRun}

theorem OneLine.inputId (h : r.OneLine) {path id : Bytes}
    (hpath : path ∈ r.inv.inputs ++ r.inv.pch) (hid : r.inputId blake3 path = some id) :
    chr '\n' ∉ id := by
  refine newline_notMem_inputId ?_ (h.paths path (List.mem_append_left _ hpath)) hid
  intro known hknown
  rw [KeyRun.store, h.fresh.knownIds] at hknown
  cases hknown

theorem OneLine.toolchainIds (h : r.OneLine) : chr '\n' ∉ r.toolchainIds blake3 := by
  intro hmem
  obtain ⟨file, hfile, hmem⟩ := List.mem_flatMap.mp hmem
  have hconst : chr '\n' ∉ ascii "?" ∧ chr '\n' ∉ ascii "," := by decide
  rcases List.mem_append.mp hmem with hid | hcomma
  · cases hinput : (r.process.prefetchIdentities r.toolFiles).inputId blake3 r.process.fs file with
    | none =>
        rw [hinput] at hid
        exact hconst.1 hid
    | some id =>
        rw [hinput] at hid
        refine newline_notMem_inputId ?_ (h.paths file (List.mem_append_right _ hfile)) hinput hid
        intro known hknown
        obtain ⟨ask, hask⟩ := Process.of_lookup_prefetch h.fresh.knownIds hknown
        exact h.answers ask known hask
  · exact hconst.2 hcomma

variable {b b₁ b₂ : Body} {stream : Bytes}

/-- The source of a compile and the identities of its headers. -/
theorem body_of_compile (hlink : r.inv.link = false) (hb : r.body blake3 = some b) :
    ∃ text ids, List.Forall₂ (fun path id => r.inputId blake3 path = some id) r.inv.pch ids ∧
      r.process.fs.readFile r.inv.source = some text ∧
      b = .unit (r.store.maskOut text) (ids.map r.store.maskOut) := by
  rw [body, hlink, if_neg (by decide)] at hb
  obtain ⟨text, htext, hb⟩ := Option.bind_eq_some_iff.mp hb
  obtain ⟨ids, hids, rfl⟩ := Option.map_eq_some_iff.mp hb
  exact ⟨text, ids, mapM_eq_some_iff.mp hids, htext, rfl⟩

/-- The objects of a link and their identities. -/
theorem body_of_link (hlink : r.inv.link = true) (hb : r.body blake3 = some b) :
    ∃ ids, List.Forall₂ (fun path id => r.inputId blake3 path = some id) r.inv.inputs ids ∧
      b = .objects ((r.inv.inputs.zip ids).map fun input =>
        (r.store.maskOut input.1, r.store.maskOut input.2)) := by
  rw [body, hlink, if_pos rfl, mapM_option_map, Option.map_map] at hb
  obtain ⟨ids, hids, rfl⟩ := Option.map_eq_some_iff.mp hb
  exact ⟨ids, mapM_eq_some_iff.mp hids, rfl⟩

theorem OneLine.body (h : r.OneLine) (hb : r.body blake3 = some b) : b.OneLine := by
  cases hlink : r.inv.link with
  | false =>
      obtain ⟨text, ids, hids, -, rfl⟩ := body_of_compile hlink hb
      intro masked hmasked
      obtain ⟨id, hid, rfl⟩ := List.mem_map.mp hmasked
      obtain ⟨path, hpath, hinput⟩ := exists_of_forall₂_right hids hid
      exact h.proper.newline_notMem_maskOut
        (h.inputId (List.mem_append_right _ hpath) hinput)
  | true =>
      obtain ⟨ids, hids, rfl⟩ := body_of_link hlink hb
      intro masked hmasked
      obtain ⟨⟨path, id⟩, hpair, rfl⟩ := List.mem_map.mp hmasked
      obtain ⟨hpath, hid⟩ := List.of_mem_zip hpair
      obtain ⟨path', hpath', hinput⟩ := exists_of_forall₂_right hids hid
      exact ⟨h.proper.newline_notMem_maskOut (h.paths path
          (List.mem_append_left _ (List.mem_append_left _ hpath))),
        h.proper.newline_notMem_maskOut (h.inputId (List.mem_append_left _ hpath') hinput)⟩

/-- The two calls name equally many precompiled headers, or objects with equally long names. -/
structure Aligned (r₁ r₂ : KeyRun) : Prop where
  pch : r₁.inv.link = false → r₁.inv.pch.length = r₂.inv.pch.length
  inputs : r₁.inv.link = true → r₁.inv.inputs.map List.length = r₂.inv.inputs.map List.length

theorem map_length_inputs (h : r.store.Proper) {ids : List Bytes}
    (hids : List.Forall₂ (fun path id => r.inputId blake3 path = some id) r.inv.inputs ids) :
    ((r.inv.inputs.zip ids).map fun input =>
        (r.store.maskOut input.1, r.store.maskOut input.2)).map (·.1.length) =
      r.inv.inputs.map List.length := by
  have hlength : (r.inv.inputs.zip ids).map Prod.fst = r.inv.inputs :=
    List.map_fst_zip hids.length_eq.le
  conv_rhs => rw [← hlength]
  simp [Function.comp_def, h.length_maskOut]

theorem aligned_iff (h₁ : r₁.store.Proper) (h₂ : r₂.store.Proper)
    (hlink : r₁.inv.link = r₂.inv.link) (hb₁ : r₁.body blake3 = some b₁)
    (hb₂ : r₂.body blake3 = some b₂) : b₁.Aligned b₂ ↔ r₁.Aligned r₂ := by
  cases hmode : r₁.inv.link with
  | false =>
      obtain ⟨text₁, ids₁, hids₁, -, rfl⟩ := body_of_compile hmode hb₁
      obtain ⟨text₂, ids₂, hids₂, -, rfl⟩ := body_of_compile (hlink ▸ hmode) hb₂
      have hlen : Body.Aligned (.unit (r₁.store.maskOut text₁) (ids₁.map r₁.store.maskOut))
          (.unit (r₂.store.maskOut text₂) (ids₂.map r₂.store.maskOut)) ↔
          r₁.inv.pch.length = r₂.inv.pch.length := by
        simp [Body.Aligned, hids₁.length_eq, hids₂.length_eq]
      rw [hlen]
      exact ⟨fun h => ⟨fun _ => h, fun htrue => absurd (hmode.symm.trans htrue) (by decide)⟩,
        fun h => h.pch hmode⟩
  | true =>
      obtain ⟨ids₁, hids₁, rfl⟩ := body_of_link hmode hb₁
      obtain ⟨ids₂, hids₂, rfl⟩ := body_of_link (hlink ▸ hmode) hb₂
      rw [Body.Aligned, map_length_inputs h₁ hids₁, map_length_inputs h₂ hids₂]
      exact ⟨fun h => ⟨fun hfalse => absurd (hmode.symm.trans hfalse) (by decide), fun _ => h⟩,
        fun h => h.inputs hmode⟩

theorem link_of_target (h : r₁.target = r₂.target) : r₁.inv.link = r₂.inv.link := by
  unfold target Invocation.mode at h
  cases h₁ : r₁.inv.link <;> cases h₂ : r₂.inv.link <;> cases h₃ : r₁.inv.linkOne <;>
    cases h₄ : r₂.inv.linkOne <;> simp [h₁, h₂, h₃, h₄] at h ⊢

/-- The parts of a request that is hashed. -/
structure Requests (blake3 : Blake3) (r : KeyRun) (b : Body) (stream : Bytes) : Prop where
  cacheable : r.inv.cacheable = true
  body : r.body blake3 = some b
  parts : r.parts blake3 = some (r.partsOf blake3 b)
  hashed : (r.partsOf blake3 b).stream = stream

theorem exists_requests (h : r.store.Proper) (hstream : r.requestInput blake3 = some stream) :
    ∃ body, Requests blake3 r body stream := by
  obtain ⟨p, hp, hps⟩ := requestInput_eq h hstream
  obtain ⟨body, hbody, rfl⟩ := Option.map_eq_some_iff.mp hp
  have hcacheable : r.inv.cacheable = true := by
    unfold requestInput at hstream
    split at hstream
    · assumption
    · cases hstream
  exact ⟨body, hcacheable, hbody, hp, hps⟩

theorem OneLine.sameFields (h₁ : r₁.OneLine) (h₂ : r₂.OneLine) (hr₁ : Requests blake3 r₁ b₁ stream)
    (hr₂ : Requests blake3 r₂ b₂ stream) :
    (r₁.partsOf blake3 b₁).SameFields (r₂.partsOf blake3 b₂) :=
  Parts.sameFields (h₁.proper.newline_notMem_maskOut h₁.toolchainIds)
    (h₂.proper.newline_notMem_maskOut h₂.toolchainIds) (hr₁.hashed.trans hr₂.hashed.symm)

/-- Aligned calls are told apart by what is hashed. -/
theorem parts_eq_of_aligned (h₁ : r₁.OneLine) (h₂ : r₂.OneLine) (hr₁ : Requests blake3 r₁ b₁ stream)
    (hr₂ : Requests blake3 r₂ b₂ stream) (haligned : r₁.Aligned r₂) :
    r₁.partsOf blake3 b₁ = r₂.partsOf blake3 b₂ := by
  have hsame := h₁.sameFields h₂ hr₁ hr₂
  have hbodies : b₁.Aligned b₂ :=
    (aligned_iff h₁.proper h₂.proper (link_of_target hsame.target) hr₁.body hr₂.body).mpr haligned
  have hbody : b₁ = b₂ := Body.text_inj (h₁.body hr₁.body) (h₂.body hr₂.body) hbodies hsame.text
  exact Parts.ext hsame.tool hsame.cwd hsame.target hsame.keyArgs hbody hsame.toolchain

theorem parts_eq_iff_aligned (h₁ : r₁.OneLine) (h₂ : r₂.OneLine)
    (hr₁ : Requests blake3 r₁ b₁ stream) (hr₂ : Requests blake3 r₂ b₂ stream) :
    r₁.parts blake3 = r₂.parts blake3 ↔ r₁.Aligned r₂ := by
  rw [hr₁.parts, hr₂.parts, Option.some.injEq]
  constructor
  · intro hparts
    have hlink := link_of_target (congrArg Parts.target hparts)
    have hbody : b₁ = b₂ := congrArg Parts.body hparts
    rw [← aligned_iff h₁.proper h₂.proper hlink hr₁.body hr₂.body, hbody]
    cases b₂ <;> rfl
  · exact parts_eq_of_aligned h₁ h₂ hr₁ hr₂

/-- How many headers more the words in the key name than the arguments of the build
system that enter it. -/
def misnamed (r : KeyRun) : Int :=
  namedHeaders false (r.inv.keyArgs.map r.keyArg) -
    namedHeaders false ((items r.call.user).flatMap Item.key)

/-- A store path that is known by its name, not by its content. -/
def byName (r : KeyRun) (path : Bytes) : Bool :=
  isStorePath r.store.dir path && !r.store.byContent

/-- The words of the two keys misname equally many headers, or the inputs of the two
links are known in the same way. -/
structure ReadAlike (r₁ r₂ : KeyRun) : Prop where
  headers : r₁.inv.link = false → r₁.misnamed = r₂.misnamed
  inputs : r₁.inv.link = true → r₁.inv.inputs.map r₁.byName = r₂.inv.inputs.map r₂.byName

/-- The option for a header comes from the build system, and no other argument has the
key of this option or of `-Xclang`. -/
structure PlainOptions (r : KeyRun) : Prop where
  given : includePch ∈ r.inv.args → includePch ∈ r.call.user
  pch : ∀ arg ∈ r.inv.keyArgs, r.keyArg arg = includePch → arg = includePch
  clang : ∀ arg ∈ r.inv.keyArgs, r.keyArg arg = xclang → arg = xclang

/-- Masking keeps a word without a slash that is no random name. -/
theorem keyArg_eq_self (h : r.store.Proper) {arg : Bytes} (hslash : chr '/' ∉ arg)
    (hnormal : maskRandomNames (normalizePathArg arg) = arg) : r.keyArg arg = arg := by
  have hmask : r.store.maskOut arg = arg := by
    have hfront := h.maskOut_front hslash []
    have hnil : r.store.maskOut [] = [] := List.length_eq_zero_iff.mp (h.length_maskOut [])
    simpa [hnil] using hfront
  have hkey : r.store.key arg = arg := by
    rw [Store.key, hnormal]
    split
    · exact maskHashes_of_notMem hslash
    · rfl
  unfold keyArg
  simp only [hmask, hkey, ite_self]

theorem PlainOptions.misnamed_eq (h : r.PlainOptions) (hr : r.OneLine) : r.misnamed = 0 := by
  have hpch : r.keyArg includePch = includePch := keyArg_eq_self hr.proper (by decide) (by decide)
  have hclang : r.keyArg xclang = xclang := keyArg_eq_self hr.proper (by decide) (by decide)
  rw [misnamed, namedHeaders_map (fun arg harg => ⟨h.pch arg harg, fun heq => heq ▸ hpch⟩)
    (fun arg harg => ⟨h.clang arg harg, fun heq => heq ▸ hclang⟩),
    CcRun.namedHeaders_user hr.followed]
  have hcount := CcRun.namedHeaders_keyArgs hr.followed h.given
  change ((namedHeaders false r.call.inv.keyArgs : Int) - _) = 0
  rw [hcount, Int.sub_self]

/-- Words that are the same in the key tell how many headers there are, up to what they
misname. -/
theorem misnamed_eq_iff (h₁ : r₁.OneLine) (h₂ : r₂.OneLine)
    (hkeys : r₁.inv.keyArgs.map r₁.keyArg = r₂.inv.keyArgs.map r₂.keyArg) :
    r₁.misnamed = r₂.misnamed ↔ r₁.inv.pch.length = r₂.inv.pch.length := by
  have hcount₁ := CcRun.namedHeaders_user h₁.followed
  have hcount₂ := CcRun.namedHeaders_user h₂.followed
  unfold misnamed inv at *
  rw [hcount₁, hcount₂, hkeys]
  omega

theorem length_hexEncode (bytes : Bytes) : (hexEncode bytes).length = 2 * bytes.length := by
  simp [hexEncode, Nat.mul_comm]

/-- An identity is the path itself, for a store path that is known by its name, or a hash. -/
theorem inputId_cases (hfresh : r.process.Fresh) {path id : Bytes}
    (h : r.inputId blake3 path = some id) :
    (r.byName path = true ∧ id = ascii "S:" ++ path) ∨
      (r.byName path = false ∧ ∃ data, id = ascii "C:" ++ hexEncode (blake3 data)) := by
  unfold inputId Store.inputId at h
  split at h
  · next hstore => exact Or.inl ⟨hstore, (Option.some.inj h).symm⟩
  · next hstore =>
      rw [KeyRun.store, hfresh.knownIds] at h
      obtain ⟨content, -, hid⟩ := Option.map_eq_some_iff.mp h
      exact Or.inr ⟨Bool.eq_false_iff.mpr hstore, _, hid.symm⟩

variable (hblake3 : ∀ x y, (blake3 x).length = (blake3 y).length)

include hblake3 in
/-- Equal lines have equally long names exactly when their identities are of one kind. -/
theorem length_name_iff (h₁ : r₁.OneLine) (h₂ : r₂.OneLine) {p₁ p₂ id₁ id₂ : Bytes}
    (hid₁ : r₁.inputId blake3 p₁ = some id₁) (hid₂ : r₂.inputId blake3 p₂ = some id₂)
    (hline : inputLine (r₁.store.maskOut p₁, r₁.store.maskOut id₁) =
      inputLine (r₂.store.maskOut p₂, r₂.store.maskOut id₂)) :
    p₁.length = p₂.length ↔ r₁.byName p₁ = r₂.byName p₂ := by
  have hlength : p₁.length + id₁.length = p₂.length + id₂.length := by
    have hlen := congrArg List.length hline
    simp only [inputLine, List.length_append, h₁.proper.length_maskOut,
      h₂.proper.length_maskOut] at hlen
    omega
  have hids : p₁.length = p₂.length → r₁.store.maskOut id₁ = r₂.store.maskOut id₂ := by
    intro hsame
    simp only [inputLine, List.append_assoc] at hline
    refine List.append_cancel_left (List.append_inj hline ?_).2
    rw [h₁.proper.length_maskOut, h₂.proper.length_maskOut, hsame]
  have hkind : ∀ x y : Bytes, ascii "S:" ++ x ≠ ascii "C:" ++ y := by
    intro x y
    simp [ascii]
  have hslash : chr '/' ∉ ascii "S:" ∧ chr '/' ∉ ascii "C:" := by decide
  rcases inputId_cases h₁.fresh hid₁ with ⟨hn₁, rfl⟩ | ⟨hn₁, data₁, rfl⟩ <;>
    rcases inputId_cases h₂.fresh hid₂ with ⟨hn₂, rfl⟩ | ⟨hn₂, data₂, rfl⟩ <;>
    rw [hn₁, hn₂]
  · simp only [List.length_append] at hlength
    simp only [iff_true]
    omega
  · simp only [Bool.true_eq_false, iff_false]
    intro hsame
    have hmasked := hids hsame
    rw [h₁.proper.maskOut_front hslash.1, h₂.proper.maskOut_front hslash.2] at hmasked
    exact hkind _ _ hmasked
  · simp only [Bool.false_eq_true, iff_false]
    intro hsame
    have hmasked := hids hsame
    rw [h₁.proper.maskOut_front hslash.2, h₂.proper.maskOut_front hslash.1] at hmasked
    exact hkind _ _ hmasked.symm
  · have hsame := hblake3 data₁ data₂
    simp only [List.length_append, length_hexEncode] at hlength
    simp only [iff_true]
    omega

include hblake3 in
theorem map_length_iff (h₁ : r₁.OneLine) (h₂ : r₂.OneLine) {ps₁ ps₂ ids₁ ids₂ : List Bytes}
    (hids₁ : List.Forall₂ (fun path id => r₁.inputId blake3 path = some id) ps₁ ids₁)
    (hids₂ : List.Forall₂ (fun path id => r₂.inputId blake3 path = some id) ps₂ ids₂)
    (hlines : ((ps₁.zip ids₁).map fun input =>
        (r₁.store.maskOut input.1, r₁.store.maskOut input.2)).map inputLine =
      ((ps₂.zip ids₂).map fun input =>
        (r₂.store.maskOut input.1, r₂.store.maskOut input.2)).map inputLine) :
    ps₁.map List.length = ps₂.map List.length ↔ ps₁.map r₁.byName = ps₂.map r₂.byName := by
  induction hids₁ generalizing ps₂ ids₂ with
  | nil =>
      cases hids₂ with
      | nil => exact iff_of_true rfl rfl
      | cons hid₂ htail₂ => cases hlines
  | cons hid₁ htail₁ ih =>
      cases hids₂ with
      | nil => cases hlines
      | cons hid₂ htail₂ =>
          simp only [List.zip_cons_cons, List.map_cons, List.cons.injEq] at hlines
          rw [List.map_cons, List.map_cons, List.map_cons, List.map_cons, List.cons.injEq,
            List.cons.injEq, ih htail₂ hlines.2,
            length_name_iff hblake3 h₁ h₂ hid₁ hid₂ hlines.1]

include hblake3 in
theorem aligned_iff_readAlike (h₁ : r₁.OneLine) (h₂ : r₂.OneLine)
    (hr₁ : Requests blake3 r₁ b₁ stream) (hr₂ : Requests blake3 r₂ b₂ stream) :
    r₁.Aligned r₂ ↔ r₁.ReadAlike r₂ := by
  have hsame := h₁.sameFields h₂ hr₁ hr₂
  have hheaders := misnamed_eq_iff h₁ h₂ hsame.keyArgs
  have hinputs : r₁.inv.link = true →
      (r₁.inv.inputs.map List.length = r₂.inv.inputs.map List.length ↔
        r₁.inv.inputs.map r₁.byName = r₂.inv.inputs.map r₂.byName) := by
    intro hlink
    obtain ⟨ids₁, hids₁, rfl⟩ := body_of_link hlink hr₁.body
    obtain ⟨ids₂, hids₂, rfl⟩ := body_of_link (link_of_target hsame.target ▸ hlink) hr₂.body
    exact map_length_iff hblake3 h₁ h₂ hids₁ hids₂
      (objects_lines_eq (h₁.body hr₁.body) (h₂.body hr₂.body) hsame.text)
  exact ⟨fun h => ⟨fun hlink => hheaders.mpr (h.pch hlink),
      fun hlink => (hinputs hlink).mp (h.inputs hlink)⟩,
    fun h => ⟨fun hlink => hheaders.mp (h.headers hlink),
      fun hlink => (hinputs hlink).mpr (h.inputs hlink)⟩⟩

include hblake3 in
/-- The bytes that are hashed for two calls are equal: then everything the key is to tell
apart is equal if and only if the words of the two keys misname equally many headers, or
the inputs of the two links are known in the same way. Plain options misname none. -/
theorem equal_requests_iff (h₁ : r₁.OneLine) (h₂ : r₂.OneLine) {stream : Bytes}
    (hs₁ : r₁.requestInput blake3 = some stream) (hs₂ : r₂.requestInput blake3 = some stream) :
    (r₁.parts blake3 = r₂.parts blake3 ↔ r₁.ReadAlike r₂) ∧
      (r₁.inv.link = false → r₁.PlainOptions → r₂.PlainOptions →
        r₁.parts blake3 = r₂.parts blake3) := by
  obtain ⟨b₁, hr₁⟩ := exists_requests h₁.proper hs₁
  obtain ⟨b₂, hr₂⟩ := exists_requests h₂.proper hs₂
  have hiff := (parts_eq_iff_aligned h₁ h₂ hr₁ hr₂).trans
    (aligned_iff_readAlike hblake3 h₁ h₂ hr₁ hr₂)
  refine ⟨hiff, fun hlink hp₁ hp₂ => hiff.mpr ⟨fun _ => ?_, fun htrue => ?_⟩⟩
  · rw [hp₁.misnamed_eq h₁, hp₂.misnamed_eq h₂]
  · rw [hlink] at htrue
    cases htrue

end KeyRun

/-- `clang -c a.c` with two more arguments, without a configuration of the driver. -/
def pchCall (option file : String) : CcRun where
  env := ⟨nixStore, [], [], id, fun _ => false⟩
  conf := ⟨ascii "/bin/clang", [], .elf, [], [], [], [], [], [], [], [], ⟨[], [], []⟩, false⟩
  lang := .c
  user := [ascii "-c", ascii "a.c", ascii option, ascii file]

/-- The call in a build tree with a source and a precompiled header. -/
def pchRun (store : Store) (option : String) (source : Bytes) : KeyRun where
  call := pchCall option "foo.pch"
  process := ⟨store, .ofFiles [(ascii "a.c", source), (ascii "foo.pch", [1])], fun _ => []⟩
  cwd := ascii "/build"
  libraryPath := []
  pathVariable := []
  canonical _ := none
  regularFiles _ := []

/-- A call in which neither the header's name nor the answers of jigd matter. -/
theorem pchRun_oneLine (byContent : Bool) (out : Bytes)
    (hproper : (Store.make nixStore byContent out []).Proper) (option : String) (source : Bytes)
    (hfollowed : ∀ item ∈ items (pchCall option "foo.pch").user, item.complete = true)
    (hpaths : ((pchRun (.make nixStore byContent out []) option source).inv.inputs ++
      (pchRun (.make nixStore byContent out []) option source).inv.pch ++
      (pchRun (.make nixStore byContent out []) option source).toolFiles).all
        (fun path => !path.contains (chr '\n')) = true) :
    (pchRun (.make nixStore byContent out []) option source).OneLine where
  followed := hfollowed
  proper := hproper
  fresh := ⟨nixStore, byContent, out, [], rfl⟩
  paths path hpath := by simpa using List.all_eq_true.mp hpaths path hpath
  answers _ _ h := absurd h List.not_mem_nil

theorem pathStore_proper : (Store.make nixStore false [] []).Proper :=
  ⟨by decide, by decide, by decide, Or.inl rfl⟩

/-- A file with the text of another one and a line `pch=`, compiled with an argument that
the key spells `-include-pch`: the hashed bytes are those of the other file with the header. -/
theorem respelled_pch_option_collides :
    let r₁ := pchRun (.make nixStore false [] []) "-i./nclude-pch" (ascii "int x;\npch=C:01")
    let r₂ := pchRun (.make nixStore false [] []) "-include-pch" (ascii "int x;")
    r₁.OneLine ∧ r₂.OneLine ∧ (r₁.requestInput id).isSome = true ∧
      r₁.requestInput id = r₂.requestInput id ∧
      (r₁.parts id).map Parts.body = some (.unit (ascii "int x;\npch=C:01") []) ∧
      (r₂.parts id).map Parts.body = some (.unit (ascii "int x;") [ascii "C:01"]) :=
  ⟨pchRun_oneLine _ _ pathStore_proper _ _ (by decide) (by decide +kernel),
    pchRun_oneLine _ _ pathStore_proper _ _ (by decide) (by decide +kernel), by decide +kernel,
    by decide +kernel, by decide +kernel, by decide +kernel⟩

/-- A compile with a header in a build with the output `zlib`, which the source mentions. -/
def prefixRun (letter : Char) : KeyRun :=
  pchRun (.make nixStore true (zlib letter) []) "-include-pch"
    (ascii "s=" ++ zlib letter ++ ascii "/")

/-- A digest of two bytes. -/
def checksum (data : Bytes) : Bytes := [data.sum, data.headD 0]

theorem equal_requests_iff_prefix :
    ∃ stream, (prefixRun 'a').requestInput checksum = some stream ∧
      (prefixRun 'b').requestInput checksum = some stream ∧
      (prefixRun 'a').ReadAlike (prefixRun 'b') ∧
      (prefixRun 'a').parts checksum = (prefixRun 'b').parts checksum := by
  have hproper : ∀ out, isStoreHash (Store.make nixStore true out []).outHash = true →
      (Store.make nixStore true out []).Proper := by
    intro out hhash
    have hplain : nixStore.head? = some (chr '/') ∧ chr '\n' ∉ nixStore ∧ chr '=' ∉ nixStore := by
      decide
    exact ⟨hplain.1, hplain.2.1, hplain.2.2, Or.inr hhash⟩
  have ha : (prefixRun 'a').OneLine :=
    pchRun_oneLine _ _ (hproper _ (by decide)) _ _ (by decide) (by decide +kernel)
  have hb : (prefixRun 'b').OneLine :=
    pchRun_oneLine _ _ (hproper _ (by decide)) _ _ (by decide) (by decide +kernel)
  have hsome : ((prefixRun 'a').requestInput checksum).isSome = true := by decide +kernel
  have hequal : (prefixRun 'b').requestInput checksum = (prefixRun 'a').requestInput checksum := by
    decide +kernel
  have hread : (prefixRun 'a').ReadAlike (prefixRun 'b') :=
    ⟨fun _ => by decide +kernel, fun hlink => absurd hlink (by decide +kernel)⟩
  obtain ⟨stream, hstream⟩ := Option.isSome_iff_exists.mp hsome
  exact ⟨stream, hstream, hequal.trans hstream, hread,
    (KeyRun.equal_requests_iff (fun _ _ => rfl) ha hb hstream (hequal.trans hstream)).1.mpr hread⟩

end Repkgs.Jig
