import Repkgs.Jig.Driver

/-!
# The linker options of the build system

The words that `-Wl,` and `-Xlinker` hand to the linker, read as the linker reads
them, against the arguments that `ScanUserArgs` passes on and the rpath that the
driver renders. The driver tests whole arguments, so the two agree on command
lines that give every rpath and every dynamic linker an argument of its own.
-/

namespace Repkgs.Jig

open Lib

/-- The words of one argument. -/
def groupWords (arg : Bytes) : List Bytes :=
  if (ascii "-Wl,").isPrefixOf arg then (arg.drop 4).splitOn (chr ',') else []

/-- The words a command line hands to the linker. -/
def linkerWords : Args → List Bytes
  | [] => []
  | [arg] => groupWords arg
  | arg :: next :: rest =>
      if arg = ascii "-Xlinker" then next :: linkerWords rest
      else groupWords arg ++ linkerWords (next :: rest)

/-- The arguments that hand nothing to the linker. -/
def otherArgs : Args → Args
  | [] => []
  | [arg] => if (ascii "-Wl,").isPrefixOf arg then [] else [arg]
  | arg :: next :: rest =>
      if arg = ascii "-Xlinker" then otherArgs rest
      else if (ascii "-Wl,").isPrefixOf arg then otherArgs (next :: rest)
      else arg :: otherArgs (next :: rest)

/-- An option as the linker reads it. -/
inductive LinkerItem
  | rpath (value : Bytes)
  | dynamicLinker (value : Bytes)
  | incomplete
  | other (word : Bytes)
  deriving DecidableEq

def rpathNames : List Bytes := [ascii "-rpath", ascii "--rpath"]

def dynamicLinkerNames : List Bytes := [ascii "-dynamic-linker", ascii "--dynamic-linker"]

/-- The value of `name=value`. -/
def joinedValue (names : List Bytes) (word : Bytes) : Option Bytes :=
  (names.find? fun name => (name ++ ascii "=").isPrefixOf word).map fun name =>
    word.drop (name.length + 1)

/-- A word that takes no further word. -/
def readWord (word : Bytes) : LinkerItem :=
  match joinedValue rpathNames word, joinedValue dynamicLinkerNames word with
  | some value, _ => .rpath value
  | none, some value => .dynamicLinker value
  | none, none => if word ∈ rpathNames ++ dynamicLinkerNames then .incomplete else .other word

/-- The words as options: a bare name takes the next word for its value. -/
def linkerItems : List Bytes → List LinkerItem
  | [] => []
  | [word] => [readWord word]
  | word :: value :: rest =>
      if word ∈ rpathNames then .rpath value :: linkerItems rest
      else if word ∈ dynamicLinkerNames then .dynamicLinker value :: linkerItems rest
      else readWord word :: linkerItems (value :: rest)

def LinkerItem.word? : LinkerItem → Option Bytes
  | .other word => some word
  | _ => none

def LinkerItem.rpath? : LinkerItem → Option Bytes
  | .rpath value => some value
  | _ => none

/-- The words less the rpath and dynamic linker options with their values. -/
def leftover (words : List Bytes) : List Bytes := (linkerItems words).filterMap LinkerItem.word?

/-- The values of the rpath options. -/
def rpathValues (words : List Bytes) : List Bytes := (linkerItems words).filterMap LinkerItem.rpath?

/-- The directories of rpaths, as they are spelled, less those of the host. -/
def rpathDirs (values : List Bytes) : List Bytes :=
  values.flatMap fun value => (value.splitOn (chr ':')).filter fun dir => !isHostDir dir

/-- An rpath option, with its value or without. -/
def isRpathWord (word : Bytes) : Bool :=
  word ∈ rpathNames || rpathNames.any fun name => (name ++ ascii "=").isPrefixOf word

/-- A dynamic linker option, or a word `ElfArg` takes for one. -/
def isDynamicLinkerWord (word : Bytes) : Bool :=
  dynamicLinkerNames.any fun name => name.isPrefixOf word

def isPolicyWord (word : Bytes) : Bool := isRpathWord word || isDynamicLinkerWord word

/-- Every rpath and every dynamic linker stands in an argument of its own, or in
one of the pairs `TakeRpathArg` knows, and its value has no comma. -/
inductive Tidy : Args → Prop
  | nil : Tidy []
  | lone : Tidy [ascii "-Xlinker"]
  | rpath {name sep value : Bytes} {rest : Args} (hname : name ∈ rpathNames)
      (hsep : sep ∈ [ascii ",", ascii "="]) (hvalue : chr ',' ∉ value) (h : Tidy rest) :
      Tidy ((ascii "-Wl," ++ name ++ sep ++ value) :: rest)
  | rpathPair {name value : Bytes} {rest : Args} (hname : name ∈ rpathNames)
      (hvalue : chr ',' ∉ value) (h : Tidy rest) :
      Tidy ((ascii "-Wl," ++ name) :: (ascii "-Wl," ++ value) :: rest)
  | rpathXlinker {name value : Bytes} {rest : Args} (hname : name ∈ rpathNames) (h : Tidy rest) :
      Tidy (ascii "-Xlinker" :: name :: ascii "-Xlinker" :: value :: rest)
  | dynamicLinker {name sep value : Bytes} {rest : Args} (hname : name ∈ dynamicLinkerNames)
      (hsep : sep ∈ [ascii ",", ascii "="]) (hvalue : chr ',' ∉ value) (h : Tidy rest) :
      Tidy ((ascii "-Wl," ++ name ++ sep ++ value) :: rest)
  | group {words : List Bytes} {rest : Args} (hne : words ≠ [])
      (hwords : ∀ w ∈ words, chr ',' ∉ w ∧ isPolicyWord w = false) (h : Tidy rest) :
      Tidy ((ascii "-Wl," ++ [chr ','].intercalate words) :: rest)
  | pair {word : Bytes} {rest : Args} (hword : isPolicyWord word = false)
      (hmark : word ≠ ascii "-Xlinker") (hgroup : (ascii "-Wl,").isPrefixOf word = false)
      (h : Tidy rest) : Tidy (ascii "-Xlinker" :: word :: rest)
  | plain {arg : Bytes} {rest : Args} (hmark : arg ≠ ascii "-Xlinker")
      (hgroup : (ascii "-Wl,").isPrefixOf arg = false) (h : Tidy rest) : Tidy (arg :: rest)

/-- The arguments passed on and the rpath values taken, after `skip` arguments
that belong to an rpath. -/
def keptFrom : Nat → Args → Args
  | _, [] => []
  | skip + 1, _ :: rest => keptFrom skip rest
  | 0, arg :: rest =>
      match takeRpathArg arg rest with
      | some (_, n) => keptFrom n rest
      | none => (elfArg arg).toList ++ keptFrom 0 rest

def takenFrom : Nat → Args → List Bytes
  | _, [] => []
  | skip + 1, _ :: rest => takenFrom skip rest
  | 0, arg :: rest =>
      match takeRpathArg arg rest with
      | some (value, n) => value :: takenFrom n rest
      | none => takenFrom 0 rest

theorem enter_args (user : UserArgs) (arg : Bytes) (rest : Args) :
    (user.enter .elf arg rest).args = user.args ++ (elfArg arg).toList ∧
      (user.enter .elf arg rest).runpath = user.runpath := by
  have harg : BinFmt.elf.arg arg = elfArg arg := rfl
  simp only [UserArgs.enter, harg]
  cases elfArg arg with
  | none => exact ⟨(List.append_nil _).symm, rfl⟩
  | some kept => exact ⟨rfl, rfl⟩

theorem addVerbatim_eq (r : RunpathList) (value : Bytes) : r.addVerbatim value =
    ⟨r.verbatim ++ (rpathDirs [value]).flatMap (· ++ ascii ":"), r.entries⟩ := by
  rw [RunpathList.addVerbatim, rpathDirs, List.flatMap_singleton]

theorem rpathDirs_cons (value : Bytes) (values : List Bytes) :
    rpathDirs (value :: values) = rpathDirs [value] ++ rpathDirs values := by
  rw [rpathDirs, List.flatMap_cons, rpathDirs, List.flatMap_singleton, rpathDirs]

theorem scanUserFrom_elf (skip : Nat) (user : UserArgs) (args : Args) :
    (scanUserFrom .elf skip user args).args = user.args ++ keptFrom skip args ∧
      (scanUserFrom .elf skip user args).runpath =
        ⟨user.runpath.verbatim ++ (rpathDirs (takenFrom skip args)).flatMap (· ++ ascii ":"),
          user.runpath.entries⟩ := by
  induction args generalizing skip user with
  | nil =>
      have hnone : user.runpath = ⟨user.runpath.verbatim ++ [], user.runpath.entries⟩ := by
        rw [List.append_nil]
      cases skip <;> exact ⟨(List.append_nil _).symm, hnone⟩
  | cons arg rest ih =>
      cases skip with
      | succ skip => exact ih skip user
      | zero =>
          rw [scanUserFrom, keptFrom, takenFrom]
          simp only [BinFmt.takesRpath, if_true]
          cases takeRpathArg arg rest with
          | some taken =>
              obtain ⟨value, n⟩ := taken
              obtain ⟨hargs, hrunpath⟩ :=
                ih n { user with runpath := user.runpath.addVerbatim value }
              refine ⟨hargs, hrunpath.trans ?_⟩
              simp only [addVerbatim_eq]
              rw [List.append_assoc, ← List.flatMap_append, ← rpathDirs_cons]
          | none =>
              obtain ⟨hargs, hrunpath⟩ := ih 0 (user.enter .elf arg rest)
              obtain ⟨henter, hsame⟩ := enter_args user arg rest
              refine ⟨?_, ?_⟩
              · rw [hargs, henter, List.append_assoc]
              · rw [hrunpath, hsame]

theorem takeRpathArg_joined {s : String}
    (hs : s ∈ ["-Wl,-rpath,", "-Wl,--rpath,", "-Wl,-rpath=", "-Wl,--rpath="]) (value : Bytes)
    (rest : Args) : takeRpathArg (ascii s ++ value) rest = some (value, 0) := by
  simp only [List.mem_cons, List.not_mem_nil, or_false] at hs
  have hjoined : takeRpathArg.joined (ascii s ++ value) rest = some (value, 0) := by
    rcases hs with rfl | rfl | rfl | rfl <;> rfl
  have hbare : (ascii s ++ value = ascii "-Wl,-rpath" || ascii s ++ value = ascii "-Wl,--rpath") =
      false := by
    rcases hs with rfl | rfl | rfl | rfl <;> rfl
  unfold takeRpathArg
  cases rest with
  | nil => exact hjoined
  | cons next rest =>
      simp only [hbare, Bool.false_and, Bool.false_eq_true, if_false]
      exact hjoined

variable {arg name value : Bytes} {rest args : Args}

/-- An argument whose first word is no rpath option. -/
theorem takeRpathArg_eq_none (h : ∀ word ∈ (groupWords arg).head?, isRpathWord word = false)
    (hspread : takeRpathArg.spread arg rest = none) : takeRpathArg arg rest = none := by
  have hcomma : ∀ name ∈ rpathNames, chr ',' ∉ name := by decide
  have hfirst : ∀ {text word words}, arg = ascii "-Wl," ++ text →
      text.splitOn (chr ',') = word :: words → isRpathWord word = false := by
    rintro text word words rfl hsplit
    exact h word (by rw [show groupWords (ascii "-Wl," ++ text) = _ from hsplit]; rfl)
  have hbare : ∀ name ∈ rpathNames, arg ≠ ascii "-Wl," ++ name := by
    intro name hname heq
    have hword := hfirst heq (List.splitOn_eq_singleton (hcomma name hname))
    simp [isRpathWord, hname] at hword
  have hlist : ∀ name ∈ rpathNames, (ascii "-Wl," ++ name ++ ascii ",").isPrefixOf arg = false := by
    intro name hname
    rw [Bool.eq_false_iff, ne_eq, List.isPrefixOf_iff_prefix]
    rintro ⟨text, heq⟩
    rw [List.append_assoc, List.append_assoc] at heq
    have hword := hfirst heq.symm (splitOn_append_cons (hcomma name hname) text)
    simp [isRpathWord, hname] at hword
  have hequals : ∀ name ∈ rpathNames,
      (ascii "-Wl," ++ name ++ ascii "=").isPrefixOf arg = false := by
    intro name hname
    rw [Bool.eq_false_iff, ne_eq, List.isPrefixOf_iff_prefix]
    rintro ⟨text, heq⟩
    rw [List.append_assoc, List.append_assoc, ← List.append_assoc name] at heq
    have hfront : chr ',' ∉ name ++ ascii "=" := by
      rw [List.mem_append, not_or]
      exact ⟨hcomma name hname, by decide⟩
    obtain ⟨word, words, hsplit, hpre⟩ := head_splitOn_of_notMem hfront text
    have hword := hfirst heq.symm hsplit
    rw [isRpathWord, Bool.or_eq_false_iff, List.any_eq_false] at hword
    exact hword.2 name hname (List.isPrefixOf_iff_prefix.mpr hpre)
  have h₁ : arg ≠ ascii "-Wl,-rpath" := hbare (ascii "-rpath") (by decide)
  have h₂ : arg ≠ ascii "-Wl,--rpath" := hbare (ascii "--rpath") (by decide)
  have h₃ : (ascii "-Wl,-rpath,").isPrefixOf arg = false := hlist (ascii "-rpath") (by decide)
  have h₄ : (ascii "-Wl,--rpath,").isPrefixOf arg = false := hlist (ascii "--rpath") (by decide)
  have h₅ : (ascii "-Wl,-rpath=").isPrefixOf arg = false := hequals (ascii "-rpath") (by decide)
  have h₆ : (ascii "-Wl,--rpath=").isPrefixOf arg = false := hequals (ascii "--rpath") (by decide)
  have hjoined : takeRpathArg.joined arg rest = none := by
    unfold takeRpathArg.joined
    simp only [List.find?_cons, h₃, h₄, h₅, h₆, List.find?_nil]
    exact hspread
  unfold takeRpathArg
  cases rest with
  | nil => exact hjoined
  | cons next rest =>
      simp only [h₁, h₂, decide_false, Bool.or_self, Bool.false_and, Bool.false_eq_true, if_false]
      exact hjoined

theorem spread_eq_none (h : arg ≠ ascii "-Xlinker") (rest : Args) :
    takeRpathArg.spread arg rest = none := by
  unfold takeRpathArg.spread
  split
  · rw [if_neg]
    simp [h]
  · rfl

/-- An argument whose first word is no dynamic linker option is passed on. -/
theorem elfArg_eq_some (h : ∀ word ∈ (groupWords arg).head?, isDynamicLinkerWord word = false) :
    elfArg arg = some arg := by
  have hno : ∀ name ∈ dynamicLinkerNames, (ascii "-Wl," ++ name).isPrefixOf arg = false := by
    intro name hname
    rw [Bool.eq_false_iff, ne_eq, List.isPrefixOf_iff_prefix]
    rintro ⟨text, rfl⟩
    have hcomma : ∀ name ∈ dynamicLinkerNames, chr ',' ∉ name := by decide
    obtain ⟨word, words, hsplit, hpre⟩ := head_splitOn_of_notMem (hcomma name hname) text
    have hword := h word (by
      rw [List.append_assoc, show groupWords (ascii "-Wl," ++ (name ++ text)) = _ from hsplit]
      rfl)
    rw [isDynamicLinkerWord, List.any_eq_false] at hword
    exact hword name hname (List.isPrefixOf_iff_prefix.mpr hpre)
  have h₁ : (ascii "-Wl,--dynamic-linker").isPrefixOf arg = false :=
    hno (ascii "--dynamic-linker") (by decide)
  have h₂ : (ascii "-Wl,-dynamic-linker").isPrefixOf arg = false :=
    hno (ascii "-dynamic-linker") (by decide)
  rw [elfArg, h₁, h₂]
  rfl

theorem groupWords_eq_nil (h : (ascii "-Wl,").isPrefixOf arg = false) :
    groupWords arg = [] := by
  rw [groupWords, h]
  rfl

theorem groupWords_append (text : Bytes) :
    groupWords (ascii "-Wl," ++ text) = text.splitOn (chr ',') := rfl

/-- The words of `-Wl,name,value`. -/
theorem groupWords_list (hname : chr ',' ∉ name) (hvalue : chr ',' ∉ value) :
    groupWords (ascii "-Wl," ++ name ++ ascii "," ++ value) = [name, value] := by
  have hassoc : ascii "-Wl," ++ name ++ ascii "," ++ value =
      ascii "-Wl," ++ (name ++ chr ',' :: value) := by
    simp only [List.append_assoc]
    rfl
  rw [hassoc, groupWords_append, splitOn_append_cons hname, List.splitOn_eq_singleton hvalue]

/-- The word of `-Wl,name=value`. -/
theorem groupWords_equals (hname : chr ',' ∉ name) (hvalue : chr ',' ∉ value) :
    groupWords (ascii "-Wl," ++ name ++ ascii "=" ++ value) = [name ++ ascii "=" ++ value] := by
  have hnone : chr ',' ∉ name ++ ascii "=" ++ value := by
    simp only [List.mem_append, not_or]
    exact ⟨⟨hname, by decide⟩, hvalue⟩
  rw [List.append_assoc, List.append_assoc, ← List.append_assoc name, groupWords_append,
    List.splitOn_eq_singleton hnone]

theorem linkerItems_rpath (h : name ∈ rpathNames) (value : Bytes) (words : List Bytes) :
    linkerItems (name :: value :: words) = .rpath value :: linkerItems words := by
  rw [linkerItems, if_pos h]

theorem linkerItems_dynamicLinker (h : name ∈ dynamicLinkerNames) (value : Bytes)
    (words : List Bytes) :
    linkerItems (name :: value :: words) = .dynamicLinker value :: linkerItems words := by
  have hnot : ∀ name ∈ dynamicLinkerNames, name ∉ rpathNames := by decide
  rw [linkerItems, if_neg (hnot name h), if_pos h]

theorem linkerItems_single {word : Bytes} (h₁ : word ∉ rpathNames)
    (h₂ : word ∉ dynamicLinkerNames) (words : List Bytes) :
    linkerItems (word :: words) = readWord word :: linkerItems words := by
  cases words with
  | nil => rfl
  | cons next words => rw [linkerItems, if_neg h₁, if_neg h₂]

theorem linkerItems_rpath_joined (h : name ∈ rpathNames) (value : Bytes) (words : List Bytes) :
    linkerItems ((name ++ ascii "=" ++ value) :: words) = .rpath value :: linkerItems words := by
  simp only [rpathNames, List.mem_cons, List.not_mem_nil, or_false] at h
  rw [linkerItems_single (of_decide_eq_false (by rcases h with rfl | rfl <;> rfl))
    (of_decide_eq_false (by rcases h with rfl | rfl <;> rfl))]
  rcases h with rfl | rfl <;> rfl

theorem linkerItems_dynamicLinker_joined (h : name ∈ dynamicLinkerNames) (value : Bytes)
    (words : List Bytes) :
    linkerItems ((name ++ ascii "=" ++ value) :: words) =
      .dynamicLinker value :: linkerItems words := by
  simp only [dynamicLinkerNames, List.mem_cons, List.not_mem_nil, or_false] at h
  rw [linkerItems_single (of_decide_eq_false (by rcases h with rfl | rfl <;> rfl))
    (of_decide_eq_false (by rcases h with rfl | rfl <;> rfl))]
  rcases h with rfl | rfl <;> rfl

theorem linkerItems_other {word : Bytes} (h : isPolicyWord word = false) (words : List Bytes) :
    linkerItems (word :: words) = .other word :: linkerItems words := by
  rw [isPolicyWord, Bool.or_eq_false_iff, isRpathWord, Bool.or_eq_false_iff,
    isDynamicLinkerWord] at h
  obtain ⟨⟨hnames, hjoined⟩, hlinker⟩ := h
  have h₁ : word ∉ rpathNames := of_decide_eq_false hnames
  have h₂ : word ∉ dynamicLinkerNames := by
    intro hmem
    exact List.any_eq_false.mp hlinker word hmem
      (List.isPrefixOf_iff_prefix.mpr (List.prefix_refl _))
  have h₃ : joinedValue rpathNames word = none := by
    rw [joinedValue, Option.map_eq_none_iff, List.find?_eq_none]
    exact List.any_eq_false.mp hjoined
  have h₄ : joinedValue dynamicLinkerNames word = none := by
    rw [joinedValue, Option.map_eq_none_iff, List.find?_eq_none]
    intro name hname hpre
    refine List.any_eq_false.mp hlinker name hname ?_
    rw [List.isPrefixOf_iff_prefix] at hpre ⊢
    exact (List.prefix_append _ _).trans hpre
  rw [linkerItems_single h₁ h₂, readWord, h₃, h₄]
  simp [h₁, h₂]

theorem linkerItems_group {group : List Bytes} (h : ∀ w ∈ group, isPolicyWord w = false)
    (words : List Bytes) :
    linkerItems (group ++ words) = group.map .other ++ linkerItems words := by
  induction group with
  | nil => rfl
  | cons word group ih =>
      rw [List.cons_append, linkerItems_other (h word (.head _)),
        ih fun w hw => h w (.tail _ hw)]
      rfl

theorem words_group {arg : Bytes} (h : (ascii "-Wl,").isPrefixOf arg = true) (rest : Args) :
    linkerWords (arg :: rest) = groupWords arg ++ linkerWords rest ∧
      otherArgs (arg :: rest) = otherArgs rest := by
  have hmark : arg ≠ ascii "-Xlinker" := by
    rintro rfl
    exact absurd h (by decide)
  cases rest with
  | nil => exact ⟨(List.append_nil _).symm, if_pos h⟩
  | cons next rest =>
      exact ⟨by rw [linkerWords, if_neg hmark], by rw [otherArgs, if_neg hmark, if_pos h]⟩

theorem words_plain (hmark : arg ≠ ascii "-Xlinker") (h : (ascii "-Wl,").isPrefixOf arg = false)
    (rest : Args) :
    linkerWords (arg :: rest) = linkerWords rest ∧
      otherArgs (arg :: rest) = arg :: otherArgs rest := by
  have hnil := groupWords_eq_nil h
  have hnot : ¬ (ascii "-Wl,").isPrefixOf arg = true := by
    rw [h]
    exact Bool.false_ne_true
  cases rest with
  | nil => exact ⟨hnil, if_neg hnot⟩
  | cons next rest =>
      refine ⟨?_, by rw [otherArgs, if_neg hmark, if_neg hnot]⟩
      rw [linkerWords, if_neg hmark, hnil, List.nil_append]

theorem words_pair (word : Bytes) (rest : Args) :
    linkerWords (ascii "-Xlinker" :: word :: rest) = word :: linkerWords rest ∧
      otherArgs (ascii "-Xlinker" :: word :: rest) = otherArgs rest :=
  ⟨by rw [linkerWords, if_pos rfl], by rw [otherArgs, if_pos rfl]⟩

theorem keptFrom_of_some {n : Nat} (h : takeRpathArg arg rest = some (value, n)) :
    keptFrom 0 (arg :: rest) = keptFrom n rest ∧
      takenFrom 0 (arg :: rest) = value :: takenFrom n rest := by
  rw [keptFrom, takenFrom, h]
  exact ⟨rfl, rfl⟩

theorem keptFrom_of_none {arg : Bytes} {rest : Args} (h : takeRpathArg arg rest = none) :
    keptFrom 0 (arg :: rest) = (elfArg arg).toList ++ keptFrom 0 rest ∧
      takenFrom 0 (arg :: rest) = takenFrom 0 rest := by
  rw [keptFrom, takenFrom, h]
  exact ⟨rfl, rfl⟩

/-- The driver keeps and takes what the linker would read. -/
structure ReadsAlike (args : Args) : Prop where
  kept : linkerWords (keptFrom 0 args) = leftover (linkerWords args)
  others : otherArgs (keptFrom 0 args) = otherArgs args
  taken : takenFrom 0 args = rpathValues (linkerWords args)

/-- A group that is not passed on: it is taken as an rpath, or dropped as a dynamic linker. -/
theorem ReadsAlike.take {args rest : Args} (h : ReadsAlike rest) (item : LinkerItem)
    (hitem : item.word? = none) (hkept : keptFrom 0 args = keptFrom 0 rest)
    (htaken : takenFrom 0 args = item.rpath?.toList ++ takenFrom 0 rest)
    (hwords : linkerItems (linkerWords args) = item :: linkerItems (linkerWords rest))
    (hothers : otherArgs args = otherArgs rest) : ReadsAlike args := by
  refine ⟨?_, ?_, ?_⟩
  · rw [hkept, h.kept, leftover, leftover, hwords, List.filterMap_cons_none hitem]
  · rw [hkept, h.others, hothers]
  · rw [htaken, h.taken, rpathValues, rpathValues, hwords, List.filterMap_cons]
    cases item.rpath? <;> rfl

/-- Words that are passed on. -/
theorem ReadsAlike.keep {args rest front : Args} {words : List Bytes} {others : Args}
    (h : ReadsAlike rest) (hkept : keptFrom 0 args = front ++ keptFrom 0 rest)
    (htaken : takenFrom 0 args = takenFrom 0 rest)
    (hargs : args = front ++ rest) (hpolicy : ∀ w ∈ words, isPolicyWord w = false)
    (hfront : ∀ tail, linkerWords (front ++ tail) = words ++ linkerWords tail ∧
      otherArgs (front ++ tail) = others ++ otherArgs tail) : ReadsAlike args := by
  have hitems := linkerItems_group hpolicy (linkerWords rest)
  refine ⟨?_, ?_, ?_⟩
  · rw [hkept, (hfront _).1, h.kept, hargs, (hfront _).1, leftover, leftover, hitems,
      List.filterMap_append, List.filterMap_map]
    congr 1
    exact List.filterMap_some.symm
  · rw [hkept, (hfront _).2, h.others, hargs, (hfront _).2]
  · rw [htaken, h.taken, hargs, (hfront _).1, rpathValues, rpathValues, hitems,
      List.filterMap_append, List.filterMap_map]
    symm
    convert List.nil_append _
    rw [List.filterMap_eq_nil_iff]
    exact fun _ _ => rfl

theorem isPrefixOf_group (name sep value : Bytes) :
    (ascii "-Wl,").isPrefixOf (ascii "-Wl," ++ name ++ sep ++ value) = true := by
  rw [List.append_assoc, List.append_assoc]
  rfl

theorem group_ne_xlinker (h : (ascii "-Wl,").isPrefixOf arg = true) : arg ≠ ascii "-Xlinker" := by
  rintro rfl
  exact absurd h (by decide)

theorem rpathNames_comma : ∀ name ∈ rpathNames, chr ',' ∉ name := by decide

theorem dynamicLinkerNames_comma : ∀ name ∈ dynamicLinkerNames, chr ',' ∉ name := by decide

theorem ReadsAlike.dynamicLinker {name sep value : Bytes} (h : ReadsAlike rest)
    (hname : name ∈ dynamicLinkerNames) (hsep : sep ∈ [ascii ",", ascii "="])
    (hvalue : chr ',' ∉ value) : ReadsAlike ((ascii "-Wl," ++ name ++ sep ++ value) :: rest) := by
  have hcomma := dynamicLinkerNames_comma name hname
  obtain ⟨hwords, hothers⟩ := words_group (isPrefixOf_group name sep value) rest
  have hitems : linkerItems (linkerWords ((ascii "-Wl," ++ name ++ sep ++ value) :: rest)) =
      .dynamicLinker value :: linkerItems (linkerWords rest) := by
    rw [hwords]
    simp only [List.mem_cons, List.not_mem_nil, or_false] at hsep
    rcases hsep with rfl | rfl
    · rw [groupWords_list hcomma hvalue]
      exact linkerItems_dynamicLinker hname value _
    · rw [groupWords_equals hcomma hvalue]
      exact linkerItems_dynamicLinker_joined hname value _
  have hrpath : ∀ word ∈ (groupWords (ascii "-Wl," ++ name ++ sep ++ value)).head?,
      isRpathWord word = false := by
    simp only [dynamicLinkerNames, List.mem_cons, List.not_mem_nil, or_false] at hname hsep
    rcases hsep with rfl | rfl
    · rw [groupWords_list hcomma hvalue]
      rintro _ ⟨⟩
      rcases hname with rfl | rfl <;> rfl
    · rw [groupWords_equals hcomma hvalue]
      rintro _ ⟨⟩
      rcases hname with rfl | rfl <;> rfl
  have hdrop : elfArg (ascii "-Wl," ++ name ++ sep ++ value) = none := by
    simp only [dynamicLinkerNames, List.mem_cons, List.not_mem_nil, or_false] at hname
    rcases hname with rfl | rfl <;> rfl
  have hmark := group_ne_xlinker (isPrefixOf_group name sep value)
  obtain ⟨hkept, htaken⟩ :=
    keptFrom_of_none (takeRpathArg_eq_none hrpath (spread_eq_none hmark rest))
  rw [hdrop] at hkept
  exact h.take (.dynamicLinker value) rfl hkept htaken hitems hothers

theorem ReadsAlike.group {words : List Bytes} (h : ReadsAlike rest) (hne : words ≠ [])
    (hwords : ∀ w ∈ words, chr ',' ∉ w ∧ isPolicyWord w = false) :
    ReadsAlike ((ascii "-Wl," ++ [chr ','].intercalate words) :: rest) := by
  have hsplit : groupWords (ascii "-Wl," ++ [chr ','].intercalate words) = words := by
    rw [groupWords_append]
    exact List.splitOn_intercalate (chr ',') (fun w hw => (hwords w hw).1) hne
  have hpolicy : ∀ w ∈ words, isPolicyWord w = false := fun w hw => (hwords w hw).2
  have hhead : ∀ w ∈ (groupWords (ascii "-Wl," ++ [chr ','].intercalate words)).head?,
      isRpathWord w = false ∧ isDynamicLinkerWord w = false := by
    intro w hw
    rw [hsplit] at hw
    exact Bool.or_eq_false_iff.mp (hpolicy w (List.mem_of_head? hw))
  have hmark : ascii "-Wl," ++ [chr ','].intercalate words ≠ ascii "-Xlinker" :=
    group_ne_xlinker rfl
  obtain ⟨hkept, htaken⟩ := keptFrom_of_none
    (takeRpathArg_eq_none (fun w hw => (hhead w hw).1) (spread_eq_none hmark rest))
  rw [elfArg_eq_some fun w hw => (hhead w hw).2] at hkept
  have hfront : ∀ tail, linkerWords ([ascii "-Wl," ++ [chr ','].intercalate words] ++ tail) =
      words ++ linkerWords tail ∧
        otherArgs ([ascii "-Wl," ++ [chr ','].intercalate words] ++ tail) =
          [] ++ otherArgs tail := by
    intro tail
    obtain ⟨hall, hothers⟩ :=
      @words_group (ascii "-Wl," ++ [chr ','].intercalate words) rfl tail
    rw [hsplit] at hall
    exact ⟨hall, hothers⟩
  exact h.keep hkept htaken rfl hpolicy hfront

theorem ReadsAlike.pair {word : Bytes} (h : ReadsAlike rest) (hword : isPolicyWord word = false)
    (hmark : word ≠ ascii "-Xlinker") (hgroup : (ascii "-Wl,").isPrefixOf word = false) :
    ReadsAlike (ascii "-Xlinker" :: word :: rest) := by
  have hnil := groupWords_eq_nil hgroup
  have hno : word ∉ rpathNames := by
    rw [isPolicyWord, Bool.or_eq_false_iff, isRpathWord, Bool.or_eq_false_iff] at hword
    exact of_decide_eq_false hword.1.1
  have hspread : takeRpathArg.spread (ascii "-Xlinker") (word :: rest) = none := by
    unfold takeRpathArg.spread
    split
    · next heq =>
        cases heq
        simp only [rpathNames, List.mem_cons, List.not_mem_nil, or_false, not_or] at hno
        rw [if_neg]
        simp [hno.1, hno.2]
    · rfl
  obtain ⟨hkept, htaken⟩ := keptFrom_of_none (takeRpathArg_eq_none (by decide) hspread)
  obtain ⟨hkept', htaken'⟩ := @keptFrom_of_none word rest
    (takeRpathArg_eq_none (by rw [hnil]; exact nofun) (spread_eq_none hmark rest))
  rw [elfArg_eq_some (by rw [hnil]; exact nofun)] at hkept'
  rw [hkept', show elfArg (ascii "-Xlinker") = some (ascii "-Xlinker") from rfl] at hkept
  have hpolicy : ∀ w ∈ [word], isPolicyWord w = false := by
    intro w hw
    cases List.mem_singleton.mp hw
    exact hword
  have hfront : ∀ tail, linkerWords ([ascii "-Xlinker", word] ++ tail) =
      [word] ++ linkerWords tail ∧
        otherArgs ([ascii "-Xlinker", word] ++ tail) = [] ++ otherArgs tail :=
    fun tail => words_pair word tail
  exact h.keep hkept (htaken.trans htaken') rfl hpolicy hfront

/-- Line up the driver's groups with the linker's options, group by group. -/
theorem Tidy.readsAlike (h : Tidy args) : ReadsAlike args := by
  induction h with
  | nil => exact ⟨rfl, rfl, rfl⟩
  | lone => exact ⟨rfl, rfl, rfl⟩
  | @rpath name sep value rest hname hsep hvalue _ ih =>
      have htake : takeRpathArg (ascii "-Wl," ++ name ++ sep ++ value) rest = some (value, 0) := by
        simp only [rpathNames, List.mem_cons, List.not_mem_nil, or_false] at hname hsep
        rcases hname with rfl | rfl <;> rcases hsep with rfl | rfl
        · exact takeRpathArg_joined (s := "-Wl,-rpath,") (by decide) value rest
        · exact takeRpathArg_joined (s := "-Wl,-rpath=") (by decide) value rest
        · exact takeRpathArg_joined (s := "-Wl,--rpath,") (by decide) value rest
        · exact takeRpathArg_joined (s := "-Wl,--rpath=") (by decide) value rest
      obtain ⟨hkept, htaken⟩ := keptFrom_of_some htake
      obtain ⟨hwords, hothers⟩ := words_group (isPrefixOf_group name sep value) rest
      refine ih.take (.rpath value) rfl hkept htaken ?_ hothers
      rw [hwords]
      simp only [List.mem_cons, List.not_mem_nil, or_false] at hsep
      rcases hsep with rfl | rfl
      · rw [groupWords_list (rpathNames_comma name hname) hvalue]
        exact linkerItems_rpath hname value _
      · rw [groupWords_equals (rpathNames_comma name hname) hvalue]
        exact linkerItems_rpath_joined hname value _
  | @rpathPair name value rest hname hvalue _ ih =>
      have htake : takeRpathArg (ascii "-Wl," ++ name) ((ascii "-Wl," ++ value) :: rest) =
          some (value, 1) := by
        simp only [rpathNames, List.mem_cons, List.not_mem_nil, or_false] at hname
        rcases hname with rfl | rfl <;> rfl
      obtain ⟨hkept, htaken⟩ := keptFrom_of_some htake
      obtain ⟨hwords, hothers⟩ := @words_group (ascii "-Wl," ++ name) rfl
        ((ascii "-Wl," ++ value) :: rest)
      obtain ⟨hwords', hothers'⟩ := @words_group (ascii "-Wl," ++ value) rfl rest
      refine ih.take (.rpath value) rfl hkept htaken ?_ (hothers.trans hothers')
      rw [hwords, hwords', groupWords_append, groupWords_append,
        List.splitOn_eq_singleton (rpathNames_comma name hname), List.splitOn_eq_singleton hvalue]
      exact linkerItems_rpath hname value _
  | @rpathXlinker name value rest hname _ ih =>
      have htake : takeRpathArg (ascii "-Xlinker") (name :: ascii "-Xlinker" :: value :: rest) =
          some (value, 3) := by
        simp only [rpathNames, List.mem_cons, List.not_mem_nil, or_false] at hname
        rcases hname with rfl | rfl <;> rfl
      obtain ⟨hkept, htaken⟩ := keptFrom_of_some htake
      refine ih.take (.rpath value) rfl hkept htaken ?_ rfl
      rw [(words_pair _ _).1, (words_pair _ _).1]
      exact linkerItems_rpath hname value _
  | dynamicLinker hname hsep hvalue _ ih => exact ih.dynamicLinker hname hsep hvalue
  | group hne hwords _ ih => exact ih.group hne hwords
  | pair hword hmark hgroup _ ih => exact ih.pair hword hmark hgroup
  | @plain arg rest hmark hgroup _ ih =>
      have hnil := groupWords_eq_nil hgroup
      obtain ⟨hkept, htaken⟩ := @keptFrom_of_none arg rest
        (takeRpathArg_eq_none (by rw [hnil]; exact nofun) (spread_eq_none hmark rest))
      rw [elfArg_eq_some (by rw [hnil]; exact nofun)] at hkept
      have hfront : ∀ tail, linkerWords ([arg] ++ tail) = [] ++ linkerWords tail ∧
          otherArgs ([arg] ++ tail) = [arg] ++ otherArgs tail :=
        fun tail => words_plain hmark hgroup tail
      exact ih.keep hkept htaken rfl (by simp) hfront

theorem RunpathList.verbatim_add (r : RunpathList) (dir : Bytes) :
    (r.add dir).verbatim = r.verbatim := by
  unfold RunpathList.add
  split <;> rfl

theorem scanLinkArgs_verbatim (env : DriverEnv) (l : LinkArgs) (args : Args) :
    (scanLinkArgs env l args).runpath.verbatim = l.runpath.verbatim := by
  induction args generalizing l with
  | nil => rfl
  | cons arg rest ih =>
      rw [scanLinkArgs, ih]
      have hread : ∀ l' : LinkArgs, (if arg = ascii "-nostdlib++" || arg = ascii "-nostdlib" then
          { l' with linksRuntime := false } else l').runpath = l'.runpath := by
        intro l'
        split <;> rfl
      unfold LinkArgs.enter
      rw [hread]
      split
      · rfl
      · rfl
      · split
        · exact RunpathList.verbatim_add _ _
        · rfl

/-- The driver's own entries go behind the rpaths of the build system. -/
theorem addRunpathEntries_verbatim (env : DriverEnv) (conf : DriverConf) (cxx : Bool) (args : Args)
    (runpath : RunpathList) :
    (addRunpathEntries env conf cxx args runpath).1.verbatim = runpath.verbatim := by
  have hdirs : ∀ {step : RunpathList → Bytes → RunpathList},
      (∀ r dir, (step r dir).verbatim = r.verbatim) → ∀ (dirs : List Bytes) (r : RunpathList),
      (dirs.foldl step r).verbatim = r.verbatim := by
    intro step hstep dirs
    induction dirs with
    | nil => exact fun r => rfl
    | cons dir dirs ih =>
        intro r
        rw [List.foldl_cons, ih, hstep]
  have hstore : ∀ (r : RunpathList) (real : Bytes) (known : Bool),
      (if known then r.add real else r).verbatim = r.verbatim := by
    intro r real known
    split
    · exact RunpathList.verbatim_add _ _
    · rfl
  unfold addRunpathEntries
  rw [RunpathList.verbatim_add]
  refine (hstore _ _ _).trans ?_
  rw [hdirs fun r dir => hstore r _ _]
  exact scanLinkArgs_verbatim env _ args

/-- `ElfLink` renders the rpaths of the build system in front of its own entries. -/
theorem elfLink_eq (env : DriverEnv) (conf : DriverConf) (cxx : Bool) (user : UserArgs) :
    ∃ (own : List Bytes) (slack : Nat) (back : Args), elfLink env conf cxx user =
      [ascii "-Wl,--undefined-version",
        ascii "-Wl,-rpath," ++ (user.runpath.verbatim ++ own.flatMap (· ++ ascii "/.:") ++
          ascii "/" ++ List.replicate slack (chr '_')),
        ascii "-Wl,--enable-new-dtags"] ++ back := by
  have hverbatim := addRunpathEntries_verbatim env conf cxx (user.args ++ conf.package.ldflags)
    user.runpath
  rw [← hverbatim]
  exact ⟨_, _, _, rfl⟩

/-- The link gets the driver's policy. -/
def UserArgs.links (user : UserArgs) : Prop :=
  user.linking = true ∧ user.haveInput = true ∧ user.noPolicy = false

theorem buildDriverArgs_elf (env : DriverEnv) {conf : DriverConf} (lang : Language) {raw : Args}
    (helf : conf.binfmt = .elf) (hlink : (scanUserArgs .elf raw).links) :
    ∃ front, buildDriverArgs env conf lang raw = front ++ (scanUserArgs .elf raw).args ++
      (conf.package.ldflags ++ elfLink env conf (lang = .cxx) (scanUserArgs .elf raw)) := by
  obtain ⟨hlinking, hinput, hpolicy⟩ := hlink
  simp only [buildDriverArgs, linkFlags, helf, hlinking, hinput, hpolicy, Bool.and_self, if_true,
    reduceCtorEq, Bool.false_eq_true, if_false, BinFmt.link]
  exact ⟨_, rfl⟩

/-- Without an input, or with an option that refuses the policy, there is no rpath. -/
theorem buildDriverArgs_unlinked (env : DriverEnv) {conf : DriverConf} (lang : Language)
    {raw : Args}
    (helf : conf.binfmt = .elf) (hlink : ¬ (scanUserArgs .elf raw).links) :
    ∃ front tail, buildDriverArgs env conf lang raw =
        front ++ (scanUserArgs .elf raw).args ++ tail ∧
      (tail = conf.package.ldflags ∨ tail = []) := by
  rw [UserArgs.links, not_and_or, not_and_or, Bool.not_eq_true, Bool.not_eq_true,
    Bool.not_eq_false] at hlink
  simp only [buildDriverArgs, linkFlags, helf, reduceCtorEq, if_false]
  by_cases hinput : (scanUserArgs .elf raw).linking && (scanUserArgs .elf raw).haveInput
  · rw [if_pos hinput]
    rw [Bool.and_eq_true] at hinput
    have hpolicy : (scanUserArgs .elf raw).noPolicy = true := by
      rcases hlink with h | h | h
      · exact absurd (h.symm.trans hinput.1) Bool.false_ne_true
      · exact absurd (h.symm.trans hinput.2) Bool.false_ne_true
      · exact h
    exact ⟨_, _, by rw [hpolicy, if_pos rfl, List.append_nil], .inl rfl⟩
  · rw [if_neg hinput]
    exact ⟨_, _, rfl, .inr rfl⟩

-- The converse does not hold: groups that are read wrongly can cancel. Here `/x` is lost from the
-- first argument and kept, as a value, from the last.
example :
    let raw := [ascii "-Wl,--dynamic-linker,/a,/x", ascii "-Wl,--dynamic-linker", ascii "-Wl,/x"]
    linkerWords (scanUserArgs .elf raw).args = leftover (linkerWords raw) := by
  decide +kernel

/-- A toolchain without flags of its own. -/
def plainElf : DriverConf where
  cc := ascii "clang"
  fc := ascii "flang"
  binfmt := .elf
  libc := ascii "/store/libc"
  interp := ascii "ld.so"
  crt := []
  runtimes := []
  flags := []
  cxxflags := []
  fflags := []
  prefixMap := []
  package := ⟨[], [], []⟩
  present := true

/-- No file exists and every path is canonical. -/
def emptyEnv : DriverEnv := ⟨ascii "/store", [], ascii "/tmp/out", fun path => path, fun _ => false⟩

end Repkgs.Jig
