import Repkgs.Jig.Store

/-!
# The arguments of a compiler call

`ParseInvocation` sorts every argument into a class and collects what the cache
has to know about the call (`cc_mode.cc`). The loop is split here into reading
one item, an argument with the values it takes, and entering it.
-/

namespace Repkgs.Jig

open Lib

/-- A command line. -/
abbrev Args := List Bytes

def hasSuffix (arg : Bytes) (suffixes : List String) : Bool :=
  suffixes.any fun s => (ascii s).length < arg.length && (ascii s).isSuffixOf arg

def isSourceFile (arg : Bytes) : Bool :=
  !(ascii "-").isPrefixOf arg &&
    hasSuffix arg [".c", ".cc", ".cpp", ".cxx", ".c++", ".C", ".S", ".s", ".sx", ".m"]

def isObjectInput (arg : Bytes) : Bool :=
  !(ascii "-").isPrefixOf arg &&
    (hasSuffix arg [".o", ".os", ".lo", ".a", ".so", ".obj"] || containsText arg (ascii ".so."))

def hasLinkerSideOutput (arg : Bytes) : Bool :=
  ((ascii "-Wl,").isPrefixOf arg || (ascii "-Xlinker").isPrefixOf arg) &&
    (["-Map", "--print-map", ",-M,", "--dependency-file", "--out-implib", "--trace", ",-t,",
        "--verbose", "--print-gc-sections", "--stats"].any (fun m => containsText arg (ascii m)) ||
      (ascii ",-M").isSuffixOf arg || (ascii ",-t").isSuffixOf arg)

/-- Options after which caching is pointless. -/
def isNoOutputOption (arg : Bytes) : Bool :=
  (["-M", "-MM", "-", "-v", "-V", "--version", "-###", "-fsyntax-only"].any fun o =>
      arg = ascii o) ||
    ["-print", "--print", "-dump"].any fun o => (ascii o).isPrefixOf arg

/-- What a depfile option says. -/
inductive DepOption
  | file (path : Bytes)
  | target (name : Bytes)
  | flag
  deriving DecidableEq

/-- An argument of each class, with the further arguments it takes. -/
inductive Item
  | depfile (raw : Args) (opt : DepOption)
  | output (raw : Args) (path : Bytes)
  | stop (arg : Bytes)
  | noOutput (arg : Bytes)
  | source (arg : Bytes)
  | pch (raw : Args) (file : Option Bytes)
  | object (arg : Bytes)
  | other (arg : Bytes)
  deriving DecidableEq

namespace Item

/-- The arguments of the item. -/
def raw : Item → Args
  | depfile raw _ | output raw _ | pch raw _ => raw
  | stop arg | noOutput arg | source arg | object arg | other arg => [arg]

/-- What of the item enters the key. -/
def key : Item → Args
  | depfile _ _ | output _ _ | noOutput _ | source _ => []
  | item => item.raw

/-- An option for a header is followed by a file. -/
def complete : Item → Bool
  | pch _ file => file.isSome
  | _ => true

/-- The header an item names. -/
def header? : Item → Option Bytes
  | pch _ file => file
  | _ => none

end Item

/-- `TakeDepfileOption`. -/
def takeDepfileOption (arg : Bytes) (rest : Args) : Option Item :=
  match rest with
  | next :: _ =>
      if arg = ascii "-MF" then some (.depfile [arg, next] (.file next))
      else if arg = ascii "-MT" || arg = ascii "-MQ" then some (.depfile [arg, next] (.target next))
      else single
  | [] => single
where
  single : Option Item :=
    if (ascii "-Wp,-MD,").isPrefixOf arg || (ascii "-Wp,-MMD,").isPrefixOf arg then
      some (.depfile [arg] (.file ((cut (chr ',') (arg.drop 5)).2.drop 1)))
    else if arg = ascii "-MD" || arg = ascii "-MMD" || arg = ascii "-MP" then
      some (.depfile [arg] .flag)
    else none

/-- `TakePchOption`: the file is the next word other than `-Xclang`. -/
def takePchOption (arg : Bytes) (rest : Args) : Option Item :=
  if arg = ascii "-include-pch" then
    let markers := rest.takeWhile (· = ascii "-Xclang")
    let file := (rest.drop markers.length).head?
    some (.pch (arg :: markers ++ file.toList) file)
  else none

/-- The item that begins with `arg`. -/
def readItem (arg : Bytes) (rest : Args) : Item :=
  match takeDepfileOption arg rest with
  | some item => item
  | none =>
      if arg = ascii "-c" || arg = ascii "-S" || arg = ascii "-E" then .stop arg
      else
        match readOutput arg rest with
        | some item => item
        | none =>
            if isNoOutputOption arg then .noOutput arg
            else if isSourceFile arg then .source arg
            else
              match takePchOption arg rest with
              | some item => item
              | none => if isObjectInput arg then .object arg else .other arg
where
  /-- `-o name` and `-oname`. -/
  readOutput (arg : Bytes) (rest : Args) : Option Item :=
    if arg = ascii "-o" && !rest.isEmpty then
      some (.output (arg :: rest.take 1) (rest.headD []))
    else if (ascii "-o").isPrefixOf arg && 2 < arg.length then some (.output [arg] (arg.drop 2))
    else none

/-- The items of a command line, after `skip` arguments that belong to an earlier one. -/
def itemsFrom : Nat → Args → List Item
  | _, [] => []
  | 0, arg :: rest =>
      let item := readItem arg rest
      item :: itemsFrom (item.raw.length - 1) rest
  | skip + 1, _ :: rest => itemsFrom skip rest

def items (args : Args) : List Item := itemsFrom 0 args

theorem readItem_pch (rest : Args) : readItem (ascii "-include-pch") rest =
    .pch (ascii "-include-pch" :: rest.takeWhile (· = ascii "-Xclang") ++
      (rest.drop (rest.takeWhile (· = ascii "-Xclang")).length).head?.toList)
      (rest.drop (rest.takeWhile (· = ascii "-Xclang")).length).head? := by
  cases rest <;> rfl

variable {arg arg' : Bytes} {args rest : Args} {item : Item}

theorem readItem_pch_file {markers : Args} (hm : ∀ m ∈ markers, m = ascii "-Xclang") {file : Bytes}
    (hfile : file ≠ ascii "-Xclang") (x : Args) :
    readItem (ascii "-include-pch") (markers ++ file :: x) =
      .pch (ascii "-include-pch" :: markers ++ [file]) (some file) := by
  have htake : (markers ++ file :: x).takeWhile (· = ascii "-Xclang") = markers := by
    rw [List.takeWhile_append_of_pos (by simpa using hm), List.takeWhile_cons_of_neg (by simpa),
      List.append_nil]
  rw [readItem_pch, htake, List.drop_left]
  rfl

theorem readItem_pch_open {markers : Args} (hm : ∀ m ∈ markers, m = ascii "-Xclang") :
    readItem (ascii "-include-pch") markers = .pch (ascii "-include-pch" :: markers) none := by
  have htake : markers.takeWhile (· = ascii "-Xclang") = markers :=
    List.takeWhile_eq_self_iff.mpr (by simpa using hm)
  rw [readItem_pch, htake, List.drop_length]
  simp

theorem leading_markers (rest : Args) : ∃ markers tail, rest = markers ++ tail ∧
    (∀ m ∈ markers, m = ascii "-Xclang") ∧ (tail = [] ∨ ∃ file x, tail = file :: x ∧
      file ≠ ascii "-Xclang") := by
  induction rest with
  | nil => exact ⟨[], [], rfl, nofun, Or.inl rfl⟩
  | cons arg rest ih =>
      by_cases harg : arg = ascii "-Xclang"
      · obtain ⟨markers, tail, rfl, hm, htail⟩ := ih
        refine ⟨arg :: markers, tail, rfl, ?_, htail⟩
        exact List.forall_mem_cons.mpr ⟨harg, hm⟩
      · exact ⟨[], arg :: rest, rfl, nofun, Or.inr ⟨arg, rest, rfl, harg⟩⟩

/-- `struct Invocation`. -/
structure Invocation where
  args : Args
  keyArgs : Args := []
  source : Bytes := []
  inputs : Args := []
  pch : Args := []
  output : Bytes := []
  compileOnly : Bool := false
  toStdout : Bool := false
  linkOne : Bool := false
  link : Bool := false
  cacheable : Bool := true
  query : Bool := false
  wantsDepfile : Bool := false
  depfile : Bytes := []
  depfileTarget : Bytes := []
  deriving DecidableEq

/-- An invocation while it is parsed, with the local variables of the loop. -/
structure Parsing extends Invocation where
  objects : Bool := false
  sources : Nat := 0
  stopAt : Option Byte := none

/-- What the loop of `ParseInvocation` does with an item. -/
def Parsing.enter (p : Parsing) : Item → Parsing
  | .depfile _ (.file path) => { p with depfile := path, wantsDepfile := true }
  | .depfile _ (.target name) => { p with depfileTarget := name, wantsDepfile := true }
  | .depfile _ .flag => { p with wantsDepfile := true }
  | .stop arg =>
      { p with compileOnly := true, stopAt := arg[1]?, keyArgs := p.keyArgs ++ [arg] }
  | .output _ path => { p with output := path }
  | .noOutput _ => { p with cacheable := false, query := true }
  | .source arg => { p with source := arg, sources := p.sources + 1 }
  | .pch raw file => { p with keyArgs := p.keyArgs ++ raw, pch := p.pch ++ file.toList }
  | .object arg =>
      { p with objects := true, inputs := p.inputs ++ [arg], keyArgs := p.keyArgs ++ [arg] }
  | .other arg =>
      { p with
        objects := p.objects || arg = ascii "-shared" || arg = ascii "-r"
        cacheable := p.cacheable && !(ascii "@").isPrefixOf arg && !containsText arg (ascii ",@") &&
          !hasLinkerSideOutput arg && !(ascii "-header").isSuffixOf arg
        keyArgs := p.keyArgs ++ [arg] }

/-- Default names: the depfile beside the output. -/
def Invocation.withDepfile (inv : Invocation) : Invocation :=
  if inv.wantsDepfile && inv.depfile.isEmpty then
    { inv with depfile := replaceExtension inv.output (ascii ".d") }
  else inv

/-- `Classify` for `-c`, `-S` and `-E`. `tmpOutput` is the file in `$TMPDIR` that
takes the text of `-E`. -/
def Parsing.asCompile (tmpOutput : Bytes) (p : Parsing) : Invocation :=
  let preprocess := p.stopAt = some (chr 'E')
  let inv := { p.toInvocation with
    cacheable := p.cacheable && p.sources == 1
    query := p.query || preprocess && (p.sources == 0 || p.source = ascii "/dev/null") }
  if preprocess && (p.output.isEmpty || samePath p.output (ascii "-")) then
    { inv with toStdout := true, output := tmpOutput }
  else if p.output.isEmpty then
    { inv with
      output := (stemExtension p.source).1 ++
        if p.stopAt = some (chr 'S') then ascii ".s" else ascii ".o" }
  else inv

/-- `Classify` for a link: of one source, or of objects. -/
def Parsing.asLink (p : Parsing) : Invocation :=
  let linkOne := !p.objects && p.sources == 1
  let link := p.objects && p.sources == 0 && !p.inputs.isEmpty
  let output := if p.output.isEmpty then ascii "a.out" else p.output
  { p.toInvocation with
    linkOne, link, output
    cacheable := p.cacheable && (linkOne || link)
    source := if link then fileName output else p.source }

/-- `Classify`. -/
def classify (tmpOutput : Bytes) (p : Parsing) : Invocation :=
  (if p.compileOnly then p.asCompile tmpOutput else p.asLink).withDepfile

/-- After the loop: precompiled headers and `/dev/null` are not replayed. -/
def Parsing.finish (p : Parsing) : Parsing :=
  let extension := (stemExtension p.output).2
  { p with
    cacheable := p.cacheable && extension ≠ ascii ".pch" && extension ≠ ascii ".gch" &&
      !samePath p.output (ascii "/dev/null") }

/-- `ParseInvocation`. -/
def parseInvocation (tmpOutput : Bytes) (args : Args) : Invocation :=
  classify tmpOutput ((items args).foldl Parsing.enter { args }).finish

theorem mem_items (h : item ∈ items args) :
    ∃ arg rest, arg ∈ args ∧ item = readItem arg rest := by
  have hfrom : ∀ (skip : Nat) (args : Args), item ∈ itemsFrom skip args →
      ∃ arg rest, arg ∈ args ∧ item = readItem arg rest := by
    intro skip args
    induction args generalizing skip with
    | nil => exact nofun
    | cons arg rest ih =>
        intro hmem
        cases skip with
        | zero =>
            rcases List.mem_cons.mp hmem with rfl | hmem
            · exact ⟨arg, rest, List.mem_cons_self, rfl⟩
            · obtain ⟨a, r, ha, hr⟩ := ih _ hmem
              exact ⟨a, r, List.mem_cons_of_mem _ ha, hr⟩
        | succ skip =>
            obtain ⟨a, r, ha, hr⟩ := ih _ hmem
            exact ⟨a, r, List.mem_cons_of_mem _ ha, hr⟩
  exact hfrom 0 args h

namespace Parsing

theorem enter_keyArgs (p : Parsing) (item : Item) :
    (p.enter item).keyArgs = p.keyArgs ++ item.key := by
  cases item with
  | depfile raw opt => cases opt <;> simp [enter, Item.key]
  | _ => simp [enter, Item.key, Item.raw]

theorem enter_pch (p : Parsing) (item : Item) :
    (p.enter item).pch = p.pch ++ item.header?.toList := by
  cases item with
  | depfile raw opt => cases opt <;> simp [enter, Item.header?]
  | _ => simp [enter, Item.header?]

theorem foldl_pch (p : Parsing) (its : List Item) :
    (its.foldl enter p).pch = p.pch ++ its.filterMap Item.header? := by
  induction its generalizing p with
  | nil => simp
  | cons item its ih =>
      rw [List.foldl_cons, ih, enter_pch, List.append_assoc, List.filterMap_cons]
      cases item.header? <;> rfl

theorem foldl_keyArgs (p : Parsing) (its : List Item) :
    (its.foldl enter p).keyArgs = p.keyArgs ++ its.flatMap Item.key := by
  induction its generalizing p with
  | nil => simp
  | cons item its ih =>
      rw [List.foldl_cons, ih, enter_keyArgs, List.flatMap_cons, List.append_assoc]

end Parsing

theorem Invocation.withDepfile_eq (inv : Invocation) :
    ∃ depfile, inv.withDepfile = { inv with depfile } := by
  unfold withDepfile
  split
  · exact ⟨_, rfl⟩
  · exact ⟨inv.depfile, rfl⟩

theorem Parsing.asCompile_eq (tmp : Bytes) (p : Parsing) :
    ∃ output toStdout query, p.asCompile tmp = { p.toInvocation with
      output, toStdout, query, cacheable := p.cacheable && p.sources == 1 } := by
  unfold asCompile
  simp only
  split_ifs
  all_goals exact ⟨_, _, _, rfl⟩

theorem classify_options (tmp : Bytes) (p : Parsing) :
    (classify tmp p).keyArgs = p.keyArgs ∧ (classify tmp p).pch = p.pch := by
  have hdepfile : ∀ inv : Invocation,
      inv.withDepfile.keyArgs = inv.keyArgs ∧ inv.withDepfile.pch = inv.pch := by
    intro inv
    obtain ⟨depfile, hinv⟩ := inv.withDepfile_eq
    rw [hinv]
    exact ⟨rfl, rfl⟩
  rw [classify, (hdepfile _).1, (hdepfile _).2]
  split
  · obtain ⟨output, toStdout, query, heq⟩ := p.asCompile_eq tmp
    rw [heq]
    exact ⟨rfl, rfl⟩
  · exact ⟨rfl, rfl⟩

theorem takeDepfileOption_isDepfile (h : takeDepfileOption arg rest = some item) :
    ∃ raw opt, item = .depfile raw opt := by
  have hsingle : takeDepfileOption.single arg = some item → ∃ raw opt, item = .depfile raw opt := by
    intro hs
    unfold takeDepfileOption.single at hs
    split_ifs at hs
    all_goals exact ⟨_, _, (Option.some.inj hs).symm⟩
  unfold takeDepfileOption at h
  split at h
  · split_ifs at h
    · exact ⟨_, _, (Option.some.inj h).symm⟩
    · exact ⟨_, _, (Option.some.inj h).symm⟩
    · exact hsingle h
  · exact hsingle h

theorem readOutput_isOutput (h : readItem.readOutput arg rest = some item) :
    ∃ raw path, item = .output raw path := by
  unfold readItem.readOutput at h
  split_ifs at h
  all_goals exact ⟨_, _, (Option.some.inj h).symm⟩

/-- Another argument than `-include-pch` names no header and enters the key alone or
not at all. -/
theorem readItem_plain (h : arg ≠ ascii "-include-pch") (rest : Args) :
    (readItem arg rest).header? = none ∧
      ((readItem arg rest).key = [] ∨ (readItem arg rest).key = [arg]) := by
  have hnone : takePchOption arg rest = none := if_neg h
  unfold readItem
  rw [hnone]
  split
  · next item hdep =>
      obtain ⟨raw, opt, rfl⟩ := takeDepfileOption_isDepfile hdep
      exact ⟨rfl, Or.inl rfl⟩
  · split
    · exact ⟨rfl, Or.inr rfl⟩
    · split
      · next item hout =>
          obtain ⟨raw, path, rfl⟩ := readOutput_isOutput hout
          exact ⟨rfl, Or.inl rfl⟩
      · split_ifs
        · exact ⟨rfl, Or.inl rfl⟩
        · exact ⟨rfl, Or.inl rfl⟩
        · exact ⟨rfl, Or.inr rfl⟩
        · exact ⟨rfl, Or.inr rfl⟩

end Repkgs.Jig
