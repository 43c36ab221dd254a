import Mathlib.Data.Set.Basic
import Repkgs.Lib.Bytes
import Repkgs.Lib.PrefixCode
import Repkgs.Lib.SortedPairs

/-!
# Derivations as ATerms

`jig nix-store add-drv` reads a derivation from JSON and writes the text that Nix
hashes. The text must depend on the derivation alone, and give it away. It does up
to one thing: the lists of input sources and of output names are sorted, but a name
that stands in them twice is written twice.
-/

namespace Repkgs.Jig

open Repkgs.Lib

/-- The character behind the backslash, if the format escapes this one. -/
def escapeOf (chr : Byte) : Option Byte :=
  if chr = 34 then some 34
  else if chr = 92 then some 92
  else if chr = 10 then some 110
  else if chr = 13 then some 114
  else if chr = 9 then some 116
  else none

def quoteChar (chr : Byte) : Bytes :=
  match escapeOf chr with
  | some code => [92, code]
  | none => [chr]

/-- `Quote`. -/
def quote (text : Bytes) : Bytes := ascii "\"" ++ text.flatMap quoteChar ++ ascii "\""

/-- `List`: the items between brackets, separated by commas. -/
def aTermList {α : Type*} (render : α → Bytes) (items : List α) : Bytes :=
  bracketed 91 93 44 render items

/-- One member of `outputs`, as parsed. -/
structure OutputJson where
  path : Option Bytes
  hashAlgo : Option Bytes
  hash : Option Bytes
  deriving DecidableEq

/-- One value of `env`, as parsed. -/
inductive EnvValue where
  | string (text : Bytes)
  | other
  deriving DecidableEq

def EnvValue.string? : EnvValue → Option Bytes
  | .string text => some text
  | .other => none

/-- The parsed JSON: the members of each object in the order of the text, repeated keys
included. -/
structure DerivationJson where
  outputs : Option (List (Bytes × OutputJson))
  inputDrvs : Option (List (Bytes × List Bytes))
  inputSrcs : Option (List Bytes)
  system : Option Bytes
  builder : Option Bytes
  args : Option (List Bytes)
  env : Option (List (Bytes × EnvValue))
  deriving DecidableEq

namespace DerivationJson

def outputMap (drv : DerivationJson) : Map Bytes OutputJson := Map.ofMembers (drv.outputs.getD [])

def inputMap (drv : DerivationJson) : Map Bytes (List Bytes) :=
  Map.ofMembers (drv.inputDrvs.getD [])

def envMap (drv : DerivationJson) : Map Bytes EnvValue := Map.ofMembers (drv.env.getD [])

end DerivationJson

def renderOutput (entry : Bytes × OutputJson) : Bytes :=
  ascii "(" ++ quote entry.1 ++ ascii "," ++ quote (entry.2.path.getD []) ++ ascii "," ++
    quote (entry.2.hashAlgo.getD []) ++ ascii "," ++ quote (entry.2.hash.getD []) ++ ascii ")"

def renderInput (entry : Bytes × List Bytes) : Bytes :=
  ascii "(" ++ quote entry.1 ++ ascii "," ++ aTermList quote entry.2 ++ ascii ")"

def renderEnv (entry : Bytes × Bytes) : Bytes :=
  ascii "(" ++ quote entry.1 ++ ascii "," ++ quote entry.2 ++ ascii ")"

def sortNames (names : List Bytes) : List Bytes := names.insertionSort (· ≤ ·)

/-- The text behind the check of `env`. -/
def writeDerivation (drv : DerivationJson) (env : List (Bytes × Bytes)) : Bytes :=
  ascii "Derive(" ++ aTermList renderOutput drv.outputMap.sorted ++ ascii "," ++
    aTermList renderInput (drv.inputMap.sorted.map (Prod.map id sortNames)) ++ ascii "," ++
    aTermList quote (sortNames (drv.inputSrcs.getD [])) ++ ascii "," ++
    quote (drv.system.getD []) ++ ascii "," ++ quote (drv.builder.getD []) ++ ascii "," ++
    aTermList quote (drv.args.getD []) ++ ascii "," ++ aTermList renderEnv env ++ ascii ")"

/-- `DerivationToATerm` behind the parser: nothing if a value of `env` is no string. -/
def derivationToATerm (drv : DerivationJson) : Bytes :=
  match drv.envMap.sorted.mapM fun e => e.2.string?.map fun text => (e.1, text) with
  | some env => writeDerivation drv env
  | none => []

/-- An output: where it goes and the hash that fixes it, empty where none is given. -/
structure OutputSpec where
  path : Bytes
  hashAlgo : Bytes
  hash : Bytes
  deriving DecidableEq

/-- A derivation as Nix knows it. -/
@[ext]
structure Derivation where
  outputs : Bytes → Option OutputSpec
  inputDrvs : Bytes → Option (Set Bytes)
  inputSrcs : Set Bytes
  system : Bytes
  builder : Bytes
  args : List Bytes
  env : Bytes → Option Bytes

def OutputJson.spec (output : OutputJson) : OutputSpec :=
  ⟨output.path.getD [], output.hashAlgo.getD [], output.hash.getD []⟩

namespace DerivationJson

def describes (drv : DerivationJson) : Derivation where
  outputs name := (drv.outputMap.lookup name).map OutputJson.spec
  inputDrvs path := (drv.inputMap.lookup path).map fun names => {name | name ∈ names}
  inputSrcs := {src | src ∈ drv.inputSrcs.getD []}
  system := drv.system.getD []
  builder := drv.builder.getD []
  args := drv.args.getD []
  env key := (drv.envMap.lookup key).bind EnvValue.string?

/-- Every value of `env` is a string. -/
def StringEnv (drv : DerivationJson) : Prop :=
  ∀ key value, drv.envMap.lookup key = some value → value.string?.isSome

/-- The lists of sources and of output names repeat every name equally often. -/
def SameRepetitions (drv drv' : DerivationJson) : Prop :=
  (∀ src, (drv.inputSrcs.getD []).count src = (drv'.inputSrcs.getD []).count src) ∧
    ∀ path names names', drv.inputMap.lookup path = some names →
      drv'.inputMap.lookup path = some names' → ∀ name, names.count name = names'.count name

end DerivationJson

/-- The character that an escape code stands for. -/
def unescape (code : Byte) : Byte :=
  if code = 110 then 10 else if code = 114 then 13 else if code = 116 then 9 else code

theorem unescape_of_escapeOf {chr code : Byte} (h : escapeOf chr = some code) :
    chr = unescape code := by
  unfold escapeOf at h
  split_ifs at h <;> cases h <;> assumption

theorem quoteChar_unambiguous : Unambiguous quoteChar := by
  intro a b x y heq
  unfold quoteChar at heq
  -- an unescaped character is never the backslash, so the two readings escape alike
  cases ha : escapeOf a with
  | none =>
      cases hb : escapeOf b with
      | none => simpa [ha, hb] using heq
      | some code =>
          simp only [ha, hb, List.cons_append, List.nil_append, List.cons.injEq] at heq
          rw [heq.1] at ha
          cases ha
  | some code =>
      cases hb : escapeOf b with
      | none =>
          simp only [ha, hb, List.cons_append, List.nil_append, List.cons.injEq] at heq
          rw [← heq.1] at hb
          cases hb
      | some code' =>
          simp only [ha, hb, List.cons_append, List.nil_append, List.cons.injEq, true_and] at heq
          rw [← heq.1] at hb
          exact ⟨(unescape_of_escapeOf ha).trans (unescape_of_escapeOf hb).symm, heq.2⟩

/-- No escape begins with the closing quote. -/
theorem quoteChar_head (chr : Byte) : ∃ c rest, quoteChar chr = c :: rest ∧ c ≠ 34 := by
  unfold quoteChar
  cases h : escapeOf chr with
  | none =>
      refine ⟨chr, [], rfl, ?_⟩
      rintro rfl
      cases h
  | some code => exact ⟨92, [code], rfl, by decide⟩

theorem quote_unambiguous : Unambiguous quote := by
  have htext := (quoteChar_unambiguous.escaped quoteChar_head).wrap (ascii "\"") []
  intro a b x y heq
  apply htext
  simpa [quote, ascii] using heq

theorem quote_head (text : Bytes) : ∃ c rest, quote text = c :: rest ∧ c ≠ 93 :=
  ⟨34, _, rfl, by decide⟩

theorem aTermList_unambiguous {α : Type*} {render : α → Bytes} (h : Unambiguous render)
    (hitem : ∀ a, ∃ c rest, render a = c :: rest ∧ c ≠ 93) : Unambiguous (aTermList render) :=
  h.bracketed (by decide) hitem

theorem names_unambiguous : Unambiguous (aTermList quote) :=
  aTermList_unambiguous quote_unambiguous quote_head

/-- An output with its defaults filled in. -/
def renderSpec (entry : Bytes × OutputSpec) : Bytes :=
  ascii "(" ++ (quote entry.1 ++ ascii "," ++ (quote entry.2.path ++ ascii "," ++
    (quote entry.2.hashAlgo ++ ascii "," ++ quote entry.2.hash))) ++ ascii ")"

theorem renderOutput_eq (entry : Bytes × OutputJson) :
    renderOutput entry = renderSpec (Prod.map id OutputJson.spec entry) := by
  simp [renderOutput, renderSpec, OutputJson.spec]

theorem renderSpec_unambiguous : Unambiguous renderSpec := by
  have hparts := (quote_unambiguous.pair (quote_unambiguous.pair (quote_unambiguous.pair
    quote_unambiguous (ascii ",")) (ascii ",")) (ascii ",")).wrap (ascii "(") (ascii ")")
  rintro ⟨name, spec⟩ ⟨name', spec'⟩ x y heq
  obtain ⟨hsame, hxy⟩ :=
    @hparts (name, spec.path, spec.hashAlgo, spec.hash)
      (name', spec'.path, spec'.hashAlgo, spec'.hash) x y heq
  cases spec
  cases spec'
  simp_all

theorem renderInput_unambiguous : Unambiguous renderInput := by
  have hparts := (quote_unambiguous.pair names_unambiguous (ascii ",")).wrap (ascii "(") (ascii ")")
  intro a b x y heq
  apply hparts
  simpa [renderInput] using heq

theorem renderEnv_unambiguous : Unambiguous renderEnv := by
  have hparts := (quote_unambiguous.pair quote_unambiguous (ascii ",")).wrap (ascii "(") (ascii ")")
  intro a b x y heq
  apply hparts
  simpa [renderEnv] using heq

/-- What the text is written from: sorted lists and the scalar fields. -/
structure Canonical where
  outputs : List (Bytes × OutputSpec)
  inputDrvs : List (Bytes × List Bytes)
  inputSrcs : List Bytes
  system : Bytes
  builder : Bytes
  args : List Bytes
  env : List (Bytes × Bytes)

namespace Canonical

def render (c : Canonical) : Bytes :=
  ascii "Derive(" ++ (aTermList renderSpec c.outputs ++ ascii "," ++
    (aTermList renderInput c.inputDrvs ++ ascii "," ++
      (aTermList quote c.inputSrcs ++ ascii "," ++ (quote c.system ++ ascii "," ++
        (quote c.builder ++ ascii "," ++ (aTermList quote c.args ++ ascii "," ++
          aTermList renderEnv c.env)))))) ++ ascii ")"

theorem render_injective {c c' : Canonical} (heq : c.render = c'.render) : c = c' := by
  have houtputs := aTermList_unambiguous renderSpec_unambiguous
    fun entry => ⟨40, _, rfl, by decide⟩
  have hinputs := aTermList_unambiguous renderInput_unambiguous
    fun entry => ⟨40, _, rfl, by decide⟩
  have henv := aTermList_unambiguous renderEnv_unambiguous fun entry => ⟨40, _, rfl, by decide⟩
  have hparts := (houtputs.pair (hinputs.pair (names_unambiguous.pair (quote_unambiguous.pair
    (quote_unambiguous.pair (names_unambiguous.pair henv (ascii ",")) (ascii ",")) (ascii ","))
    (ascii ",")) (ascii ",")) (ascii ",")).wrap (ascii "Derive(") (ascii ")")
  have hsame := hparts.injective
    (a := (c.outputs, c.inputDrvs, c.inputSrcs, c.system, c.builder, c.args, c.env))
    (b := (c'.outputs, c'.inputDrvs, c'.inputSrcs, c'.system, c'.builder, c'.args, c'.env)) heq
  cases c
  cases c'
  simp_all

end Canonical

namespace DerivationJson

variable {drv drv' : DerivationJson}

def canonical (drv : DerivationJson) : Canonical where
  outputs := drv.outputMap.sorted.map (Prod.map id OutputJson.spec)
  inputDrvs := drv.inputMap.sorted.map (Prod.map id sortNames)
  inputSrcs := sortNames (drv.inputSrcs.getD [])
  system := drv.system.getD []
  builder := drv.builder.getD []
  args := drv.args.getD []
  env := drv.envMap.sorted.map (Prod.map id fun value => value.string?.getD [])

/-- With strings in `env` the check passes and leaves their texts. -/
theorem mapM_env (h : drv.StringEnv) :
    (drv.envMap.sorted.mapM fun e => e.2.string?.map fun text => (e.1, text)) =
      some drv.canonical.env := by
  have hall : ∀ e ∈ drv.envMap.sorted, e.2.string?.isSome :=
    fun e he => h e.1 e.2 (Map.mem_sorted.mp he)
  simp only [canonical]
  generalize drv.envMap.sorted = entries at hall
  induction entries with
  | nil => rfl
  | cons e rest ih =>
      obtain ⟨text, htext⟩ := Option.isSome_iff_exists.mp (hall e (.head _))
      have hrest := ih fun e' he' => hall e' (.tail _ he')
      rw [List.mapM_cons, hrest, htext]
      simp [Prod.map, htext]

theorem derivationToATerm_eq (h : drv.StringEnv) :
    derivationToATerm drv = drv.canonical.render := by
  have houtputs : ∀ entries, aTermList renderOutput entries =
      aTermList renderSpec (entries.map (Prod.map id OutputJson.spec)) := by
    intro entries
    rw [aTermList, aTermList, bracketed, bracketed, List.map_map]
    congr 3
    exact List.map_congr_left fun entry _ => renderOutput_eq entry
  rw [derivationToATerm, mapM_env h]
  simp only [writeDerivation, Canonical.render, canonical, houtputs, List.append_assoc]

theorem sortNames_eq_iff {names names' : List Bytes} :
    sortNames names = sortNames names' ↔ ∀ name, names.count name = names'.count name :=
  insertionSort_eq_iff_perm.trans List.perm_iff_count

theorem mem_iff_of_count {names names' : List Bytes}
    (h : ∀ name, names.count name = names'.count name) (name : Bytes) :
    name ∈ names ↔ name ∈ names' := by
  rw [← List.count_pos_iff, h, List.count_pos_iff]

/-- The environment, written with strings only. -/
theorem env_eq_iff (h : drv.StringEnv) (h' : drv'.StringEnv) :
    drv.canonical.env = drv'.canonical.env ↔ drv.describes.env = drv'.describes.env := by
  have hread : ∀ {d : DerivationJson}, d.StringEnv → ∀ key,
      (d.envMap.lookup key).map (fun value => value.string?.getD []) = d.describes.env key := by
    intro d hd key
    simp only [describes]
    cases hlook : d.envMap.lookup key with
    | none => rfl
    | some value =>
        obtain ⟨text, htext⟩ := Option.isSome_iff_exists.mp (hd key value hlook)
        simp [htext]
  rw [canonical, canonical, Map.map_sorted_eq_iff, funext_iff]
  exact forall_congr' fun key => by rw [hread h, hread h']

/-- Where `f` tells values apart that `g` or `R` tells apart, so it does behind a lookup. -/
theorem map_eq_iff_of_refines {ν ω ω' : Type*} {f : ν → ω} {g : ν → ω'} {R : ν → ν → Prop}
    (h : ∀ v v', f v = f v' ↔ g v = g v' ∧ R v v') (o o' : Option ν) :
    o.map f = o'.map f ↔
      o.map g = o'.map g ∧ ∀ v v', o = some v → o' = some v' → R v v' := by
  cases o <;> cases o' <;> simp [h]

theorem sortNames_eq_iff_set (names names' : List Bytes) :
    sortNames names = sortNames names' ↔
      {name | name ∈ names} = {name | name ∈ names'} ∧
        ∀ name, names.count name = names'.count name := by
  rw [sortNames_eq_iff]
  exact ⟨fun hcount => ⟨Set.ext (mem_iff_of_count hcount), hcount⟩, And.right⟩

/-- The input derivations, with as many repetitions as the lists of names have. -/
theorem inputDrvs_eq_iff :
    drv.canonical.inputDrvs = drv'.canonical.inputDrvs ↔
      drv.describes.inputDrvs = drv'.describes.inputDrvs ∧
        ∀ path names names', drv.inputMap.lookup path = some names →
          drv'.inputMap.lookup path = some names' →
            ∀ name, names.count name = names'.count name := by
  rw [canonical, canonical, Map.map_sorted_eq_iff, funext_iff, ← forall_and]
  exact forall_congr' fun path => map_eq_iff_of_refines sortNames_eq_iff_set _ _

/-- Two texts are equal exactly if they are of one derivation and of lists with equal
repetitions. -/
theorem aTerm_eq_iff (h : drv.StringEnv) (h' : drv'.StringEnv) :
    derivationToATerm drv = derivationToATerm drv' ↔
      drv.describes = drv'.describes ∧ SameRepetitions drv drv' := by
  rw [derivationToATerm_eq h, derivationToATerm_eq h']
  have houtputs : drv.canonical.outputs = drv'.canonical.outputs ↔
      drv.describes.outputs = drv'.describes.outputs := by
    rw [canonical, canonical, Map.map_sorted_eq_iff, funext_iff]
    rfl
  constructor
  · intro heq
    have hsame := Canonical.render_injective heq
    have hsrcs := sortNames_eq_iff.mp (congrArg Canonical.inputSrcs hsame)
    obtain ⟨hdrvs, hnames⟩ := inputDrvs_eq_iff.mp (congrArg Canonical.inputDrvs hsame)
    refine ⟨Derivation.ext (houtputs.mp (congrArg Canonical.outputs hsame)) hdrvs
      (Set.ext (mem_iff_of_count hsrcs)) (congrArg Canonical.system hsame)
      (congrArg Canonical.builder hsame) (congrArg Canonical.args hsame)
      ((env_eq_iff h h').mp (congrArg Canonical.env hsame)), hsrcs, hnames⟩
  · rintro ⟨hsame, hsrcs, hnames⟩
    have hdrvs := inputDrvs_eq_iff.mpr ⟨congrArg Derivation.inputDrvs hsame, hnames⟩
    have hcanon : drv.canonical = drv'.canonical := by
      rw [canonical, canonical, Canonical.mk.injEq]
      exact ⟨houtputs.mpr (congrArg Derivation.outputs hsame), hdrvs, sortNames_eq_iff.mpr hsrcs,
        congrArg Derivation.system hsame, congrArg Derivation.builder hsame,
        congrArg Derivation.args hsame, (env_eq_iff h h').mpr (congrArg Derivation.env hsame)⟩
    rw [hcanon]

end DerivationJson

open DerivationJson

/-- The text identifies the derivation exactly if no two lists that describe the same set
repeat its members differently. -/
theorem derivationToATerm_canonical_iff (drv drv' : DerivationJson) (h : drv.StringEnv)
    (h' : drv'.StringEnv) :
    (derivationToATerm drv = derivationToATerm drv' ↔ drv.describes = drv'.describes) ↔
      (drv.describes = drv'.describes → SameRepetitions drv drv') := by
  rw [aTerm_eq_iff h h']
  constructor
  · intro hiff hsame
    exact (hiff.mpr hsame).2
  · intro hrep
    exact ⟨And.left, fun hsame => ⟨hsame, hrep hsame⟩⟩

/-- A derivation with one output, one input and the given sources. -/
def sampleDerivation (srcs : List Bytes) : DerivationJson where
  outputs := some [(ascii "out", ⟨some (ascii "/nix/store/o"), none, none⟩)]
  inputDrvs := some [(ascii "/nix/store/i.drv", [ascii "out", ascii "dev"])]
  inputSrcs := some srcs
  system := some (ascii "x86_64-linux")
  builder := some (ascii "/bin/sh")
  args := some [ascii "-c", ascii "true"]
  env := some [(ascii "out", .string (ascii "/nix/store/o"))]

theorem sampleDerivation_stringEnv (srcs : List Bytes) : (sampleDerivation srcs).StringEnv := by
  intro key value hlook
  have hmem : (key, value) ∈ (sampleDerivation srcs).envMap.sorted := Map.mem_sorted.mpr hlook
  have henv : (sampleDerivation srcs).envMap.sorted =
      [(ascii "out", .string (ascii "/nix/store/o"))] := rfl
  rw [henv, List.mem_singleton] at hmem
  cases hmem
  rfl

theorem derivationToATerm_canonical_iff_sources :
    (derivationToATerm (sampleDerivation [ascii "a", ascii "b"]) =
        derivationToATerm (sampleDerivation [ascii "b", ascii "a"]) ↔
      (sampleDerivation [ascii "a", ascii "b"]).describes =
        (sampleDerivation [ascii "b", ascii "a"]).describes) :=
  (derivationToATerm_canonical_iff _ _ (sampleDerivation_stringEnv _)
    (sampleDerivation_stringEnv _)).mpr fun _ =>
      ⟨List.perm_iff_count.mp (List.Perm.swap _ _ _), fun path names names' hn hn' => by
        rw [Option.some.inj (hn.symm.trans hn')]; exact fun _ => rfl⟩

/-- The same source named twice and once: one derivation, two texts. -/
theorem repeated_source_changes_text :
    (sampleDerivation [ascii "a", ascii "a"]).describes =
        (sampleDerivation [ascii "a"]).describes ∧
      derivationToATerm (sampleDerivation [ascii "a", ascii "a"]) ≠
        derivationToATerm (sampleDerivation [ascii "a"]) := by
  refine ⟨Derivation.ext rfl rfl ?_ rfl rfl rfl rfl, by decide +kernel⟩
  ext src
  simp [describes, sampleDerivation]

end Repkgs.Jig
