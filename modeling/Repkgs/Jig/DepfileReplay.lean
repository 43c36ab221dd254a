import Repkgs.Jig.Depfile
import Repkgs.Jig.Driver
import Repkgs.Jig.OutHash
import Repkgs.Jig.Reroot

/-!
# Replayed depfiles

Depfile options are not in the key of a compile, so an entry stored by one run is
replayed by a run with other options. `RetargetDepfile` puts one target of the second run
in the place of the targets of the first one (`cc_mode.cc`).
-/

namespace Repkgs.Jig

open Lib

/-- `Store::MaskForReplay`. -/
def Store.maskForReplay (s : Store) (text : Bytes) : Bytes :=
  if s.byContent then maskHashes s.dir text else text

/-- What `CompileAndStore` puts into the depfile slot of a successful compile. -/
def storeDepfile (s : Store) (inv : Invocation) (depText : Bytes) : Option Bytes :=
  if inv.wantsDepfile then some (s.maskOut (s.maskForReplay depText)) else none

/-- The depfile that `Lookup` takes from the slot, `none` for `object-gone`. -/
def lookupDepfile (s : Store) (inv : Invocation) (slot : Option Bytes) : Option (Option Bytes) :=
  if inv.wantsDepfile && slot.isNone then none
  else some (if inv.wantsDepfile then slot.map s.unmaskOut else none)

/-- The target of the rule that a run replays: its last `-MT` or `-MQ`, or its output. -/
def Invocation.newTarget (inv : Invocation) : Bytes :=
  if inv.depfileTarget.isEmpty then inv.output else inv.depfileTarget

/-- The first place of a string in a text. -/
def findText (needle text : Bytes) : Option Nat := text.tails.findIdx? needle.isPrefixOf

/-- `RetargetDepfile`. -/
def retargetDepfile (text : Bytes) (inv : Invocation) : Bytes :=
  match findText (ascii ": ") text with
  | some colon =>
      if colon < (cut (chr '\n') text).1.length then inv.newTarget ++ text.drop colon else text
  | none => text

/-- The depfile that `Replay` writes. -/
def replayDepfile (s : Store) (order : List (Bytes × Bytes)) (inv : Invocation)
    (depfile : Option Bytes) : Option Bytes :=
  depfile.map fun text => retargetDepfile (s.resolveAll order text) inv

/-- The depfile that the second run writes when the entry of the first one serves it. -/
def servedDepfile (s : Store) (order : List (Bytes × Bytes)) (inv₁ inv₂ : Invocation)
    (depText : Bytes) : Option Bytes :=
  (lookupDepfile s inv₂ (storeDepfile s inv₁ depText)).bind (replayDepfile s order inv₂)

/-- A target given to the compiler. -/
inductive DepTarget
  | verbatim (name : Bytes)
  | quoted (name : Bytes)
  deriving DecidableEq

namespace DepTarget

def name : DepTarget → Bytes
  | verbatim name | quoted name => name

/-- How it stands in the rule. -/
def text : DepTarget → Bytes
  | verbatim name => name
  | quoted name => escapeMake name

end DepTarget

/-- `-MT` gives a target verbatim, `-MQ` one that is quoted. -/
def Item.target? : Item → Option DepTarget
  | .depfile raw (.target name) =>
      some (if raw.head? = some (ascii "-MT") then .verbatim name else .quoted name)
  | _ => none

def depTargets (args : Args) : List DepTarget := (items args).filterMap Item.target?

/-- `-MP` asks for phony rules. -/
def wantsPhony (args : Args) : Bool :=
  (items args).any fun item => item = .depfile [ascii "-MP"] .flag

/-- The targets of the rule: those given, or the output. -/
def targetText (args : Args) (output : Bytes) : Bytes :=
  if depTargets args = [] then escapeMake output
  else [chr ' '].intercalate ((depTargets args).map DepTarget.text)

/-- The inputs of a rule in some layout. -/
structure Prerequisites where
  lead : List Filler
  first : InputPath
  rest : List (Gap × InputPath)
  trail : List Filler

namespace Prerequisites

def names (p : Prerequisites) : List Bytes := p.first.text :: p.rest.map fun e => e.2.text

def text (p : Prerequisites) : Bytes :=
  fill p.lead ++ escapeMake p.first.text ++
    p.rest.flatMap (fun e => fill e.1.fillers ++ escapeMake e.2.text) ++ fill p.trail ++ ascii "\n"

end Prerequisites

/-- A phony rule for each header. -/
def phonyRules (headers : List Bytes) : Bytes :=
  headers.flatMap fun p => ascii "\n" ++ escapeMake p ++ ascii ":\n"

/-- The text is a depfile of a run with these arguments and inputs, in some layout. -/
def RealDepfile (args : Args) (output source : Bytes) (headers : List Bytes) (text : Bytes) :
    Prop :=
  ∃ p : Prerequisites, p.names = source :: headers ∧
    text = targetText args output ++ ascii ": " ++
      (p.text ++ if wantsPhony args then phonyRules headers else [])

/-- The new target is what a real run writes: the only target given, which needs no quotes,
or an output that needs none. An empty last target counts as none. -/
def Compensated (args : Args) (output : Bytes) : Prop :=
  match (depTargets args).getLast? with
  | none => escapeMake output = output
  | some last =>
      if last.name = [] then output = targetText args output
      else depTargets args = [last] ∧ last.text = last.name

theorem Parsing.enter_depfileTarget (p : Parsing) (item : Item) :
    (p.enter item).depfileTarget = (item.target?.map DepTarget.name).getD p.depfileTarget := by
  cases item with
  | depfile raw opt =>
      cases opt with
      | target name =>
          simp only [Parsing.enter, Item.target?]
          split <;> rfl
      | _ => rfl
  | _ => rfl

/-- The last target given stays. -/
theorem Parsing.foldl_depfileTarget (p : Parsing) (is : List Item) :
    (is.foldl Parsing.enter p).depfileTarget =
      ((is.filterMap Item.target?).getLast?.map DepTarget.name).getD p.depfileTarget := by
  induction is using List.reverseRecOn with
  | nil => rfl
  | append_singleton is item ih =>
      rw [List.foldl_concat, Parsing.enter_depfileTarget, ih, List.filterMap_append]
      cases htarget : item.target? with
      | none => simp [htarget]
      | some t => simp [htarget]

theorem classify_depfileTarget (tmp : Bytes) (p : Parsing) :
    (classify tmp p).depfileTarget = p.depfileTarget := by
  have hdepfile : ∀ inv : Invocation, inv.withDepfile.depfileTarget = inv.depfileTarget := by
    intro inv
    obtain ⟨depfile, hinv⟩ := inv.withDepfile_eq
    rw [hinv]
  rw [classify, hdepfile]
  split
  · obtain ⟨output, toStdout, query, heq⟩ := p.asCompile_eq tmp
    rw [heq]
  · rfl

theorem parseInvocation_depfileTarget (tmp : Bytes) (args : Args) :
    (parseInvocation tmp args).depfileTarget =
      ((depTargets args).getLast?.map DepTarget.name).getD [] :=
  (classify_depfileTarget tmp _).trans (Parsing.foldl_depfileTarget { args } (items args))

theorem length_le_escapeMake (name : Bytes) : name.length ≤ (escapeMake name).length := by
  induction name with
  | nil => exact le_rfl
  | cons c name ih =>
      have hbyte : 1 ≤ (escapeByte c).length := by
        unfold escapeByte
        split_ifs <;> exact Nat.succ_le_succ (Nat.zero_le _)
      rw [escapeMake_cons, List.length_append, List.length_cons]
      omega

theorem DepTarget.length_name_le (t : DepTarget) : t.name.length ≤ t.text.length := by
  cases t with
  | verbatim name => exact le_rfl
  | quoted name => exact length_le_escapeMake name

theorem length_le_intercalate (sep : Bytes) {texts : List Bytes} {text : Bytes}
    (h : text ∈ texts) : text.length ≤ (sep.intercalate texts).length := by
  induction texts with
  | nil => cases h
  | cons first rest ih =>
      cases rest with
      | nil =>
          cases List.mem_singleton.mp h
          simp
      | cons second rest =>
          rw [List.intercalate_cons_cons, List.length_append, List.length_append]
          rcases List.mem_cons.mp h with rfl | hrest
          · omega
          · have := ih hrest
            omega

/-- Several targets are longer than the last of them. -/
theorem length_lt_intercalate {first last : Bytes} {rest : List Bytes}
    (h : rest.getLast? = some last) :
    last.length < ([chr ' '].intercalate (first :: rest)).length := by
  cases rest with
  | nil => cases h
  | cons second rest =>
      have hlast := length_le_intercalate [chr ' '] (List.mem_of_getLast? h)
      rw [List.intercalate_cons_cons, List.length_append, List.length_append, List.length_singleton]
      omega

theorem newTarget_eq_iff (tmp : Bytes) (args : Args) :
    (parseInvocation tmp args).newTarget = targetText args (parseInvocation tmp args).output ↔
      Compensated args (parseInvocation tmp args).output := by
  rw [Invocation.newTarget, parseInvocation_depfileTarget, Compensated]
  cases hlast : (depTargets args).getLast? with
  | none =>
      have hnone : depTargets args = [] := List.getLast?_eq_none_iff.mp hlast
      simp [targetText, hnone, eq_comm]
  | some last =>
      have hsome : depTargets args ≠ [] := by
        intro hnil
        rw [hnil] at hlast
        cases hlast
      by_cases hempty : last.name = []
      · simp [hempty]
      · simp only [Option.map_some, Option.getD_some, List.isEmpty_iff, hempty, if_false]
        rw [targetText, if_neg hsome]
        cases htargets : depTargets args with
        | nil => exact absurd htargets hsome
        | cons first rest =>
            rw [htargets] at hlast
            cases rest with
            | nil =>
                cases hlast
                simp [eq_comm]
            | cons second rest =>
                -- the blank between two targets makes them longer than the last name
                rw [List.getLast?_cons_cons] at hlast
                have hlt : last.text.length < ([chr ' '].intercalate
                    (first.text :: (second :: rest).map DepTarget.text)).length :=
                  length_lt_intercalate (by rw [List.getLast?_map, hlast, Option.map_some])
                have hle := last.length_name_le
                refine iff_of_false (fun heq => ?_) (by simp)
                rw [heq, List.map_cons] at hle
                omega

/-- A text before the first `: ` of the first line. -/
def OneTarget (target : Bytes) : Prop := ¬ ascii ": " <:+: target ∧ chr '\n' ∉ target

/-- The first `: ` behind a text that has none. -/
theorem findText_append {target : Bytes} (h : ¬ ascii ": " <:+: target) (rest : Bytes) :
    findText (ascii ": ") (target ++ ascii ": " ++ rest) = some target.length := by
  induction target with
  | nil => rfl
  | cons c target ih =>
      have hrest := ih fun hin => h (List.infix_cons hin)
      have hhead : (ascii ": ").isPrefixOf (c :: target ++ ascii ": " ++ rest) = false := by
        rw [Bool.eq_false_iff, Ne, List.isPrefixOf_iff_prefix]
        intro hstart
        -- a `: ` that begins here ends inside of the target
        cases target with
        | nil =>
            have hblank : chr ' ' = chr ':' :=
              (List.cons_prefix_cons.mp (List.cons_prefix_cons.mp hstart).2).1
            exact absurd hblank (by decide)
        | cons d target =>
            obtain ⟨hc, hd⟩ := List.cons_prefix_cons.mp hstart
            obtain ⟨hd, -⟩ := List.cons_prefix_cons.mp hd
            exact h ⟨[], target, by rw [← hc, ← hd]; rfl⟩
      rw [findText, List.cons_append, List.cons_append, List.tails_cons, List.findIdx?_cons]
      rw [List.cons_append, List.cons_append] at hhead
      rw [hhead, if_neg Bool.false_ne_true]
      change Option.map (· + 1) (findText (ascii ": ") (target ++ ascii ": " ++ rest)) = _
      rw [hrest]
      rfl

theorem append_colon_inj {target target' rest rest' : Bytes} (h : ¬ ascii ": " <:+: target)
    (h' : ¬ ascii ": " <:+: target')
    (heq : target ++ ascii ": " ++ rest = target' ++ ascii ": " ++ rest') :
    target = target' ∧ rest = rest' := by
  have hlength : target.length = target'.length := by
    have hfind := findText_append h rest
    rw [heq, findText_append h' rest'] at hfind
    exact (Option.some.inj hfind).symm
  rw [List.append_assoc, List.append_assoc] at heq
  obtain ⟨htarget, htail⟩ := List.append_inj heq hlength
  exact ⟨htarget, List.append_cancel_left htail⟩

/-- One target takes the place of another. -/
theorem retargetDepfile_append {target : Bytes} (h : OneTarget target) (rest : Bytes)
    (inv : Invocation) :
    retargetDepfile (target ++ ascii ": " ++ rest) inv = inv.newTarget ++ ascii ": " ++ rest := by
  have hline : target.length < (cut (chr '\n') (target ++ ascii ": " ++ rest)).1.length := by
    have hall : ∀ c ∈ target ++ ascii ": ", decide (c ≠ chr '\n') = true := by
      intro c hc
      refine decide_eq_true fun heq => ?_
      rcases List.mem_append.mp hc with hin | hin
      · exact h.2 (heq ▸ hin)
      · rw [heq] at hin
        exact absurd hin (by decide)
    rw [cut, List.takeWhile_append_of_pos hall, List.length_append, List.length_append]
    have htwo : (ascii ": ").length = 2 := rfl
    omega
  rw [retargetDepfile, findText_append h.1]
  simp only
  rw [if_pos hline, List.append_assoc target, List.drop_left, List.append_assoc]

/-- What no layout of a rule has. -/
def ink (text : Bytes) : Bytes := text.filter fun c => c ∉ ascii " \\\n"

@[simp] theorem ink_append (a b : Bytes) : ink (a ++ b) = ink a ++ ink b := List.filter_append a b

theorem ink_flatMap {α : Type*} (xs : List α) (f : α → Bytes) :
    ink (xs.flatMap f) = xs.flatMap fun x => ink (f x) := by
  simp only [ink, List.filter_flatMap]

@[simp] theorem ink_fill (fillers : List Filler) : ink (fill fillers) = [] := by
  rw [fill, ink_flatMap, List.flatMap_eq_nil_iff]
  intro f _
  cases f <;> decide

/-- What is not layout in a rule comes from its inputs. -/
theorem Prerequisites.ink_text (p : Prerequisites) :
    ink p.text = p.names.flatMap fun name => ink (escapeMake name) := by
  have hnewline : ink (ascii "\n") = [] := by decide
  simp only [Prerequisites.text, Prerequisites.names, ink_append, ink_fill, ink_flatMap, hnewline,
    List.nil_append, List.append_nil, List.flatMap_cons, List.flatMap_map]

theorem RealDepfile.ink {args : Args} {output source : Bytes} {headers : List Bytes}
    {text : Bytes} (h : RealDepfile args output source headers text) :
    ink text = ink (targetText args output ++ ascii ": ") ++
      ((source :: headers).flatMap (fun name => Jig.ink (escapeMake name)) ++
        Jig.ink (if wantsPhony args then phonyRules headers else [])) := by
  obtain ⟨p, hnames, rfl⟩ := h
  rw [ink_append, ink_append p.text, p.ink_text, hnames]

theorem count_ink {c : Byte} (hc : c ∉ ascii " \\\n") (text : Bytes) :
    (ink text).count c = text.count c :=
  List.count_filter (decide_eq_true hc)

theorem length_le_count_phonyRules (headers : List Bytes) :
    headers.length ≤ (phonyRules headers).count (chr ':') := by
  induction headers with
  | nil => exact Nat.zero_le _
  | cons header headers ih =>
      have hcolon : (ascii ":\n").count (chr ':') = 1 := by decide
      rw [phonyRules, List.flatMap_cons, ← phonyRules, List.count_append, List.count_append, hcolon,
        List.length_cons]
      omega

/-- Two texts with the same inputs have phony rules in both or in none. -/
theorem phony_eq {p p' : Prerequisites} {headers : List Bytes} {phony phony' : Bool}
    (hnames : p.names = p'.names)
    (h : (p.text ++ if phony then phonyRules headers else []).count (chr ':') =
      (p'.text ++ if phony' then phonyRules headers else []).count (chr ':')) :
    phony = phony' ∨ headers = [] := by
  have hcolon : chr ':' ∉ ascii " \\\n" := by decide
  rw [List.count_append, List.count_append, ← count_ink hcolon p.text, ← count_ink hcolon p'.text,
    p.ink_text, p'.ink_text, hnames] at h
  have hlength := length_le_count_phonyRules headers
  cases phony <;> cases phony'
  · exact Or.inl rfl
  · refine Or.inr (List.length_eq_zero_iff.mp ?_)
    simp only [Bool.false_eq_true, if_false, if_true, List.count_nil] at h
    omega
  · refine Or.inr (List.length_eq_zero_iff.mp ?_)
    simp only [Bool.false_eq_true, if_false, if_true, List.count_nil] at h
    omega
  · exact Or.inl rfl

section Stored

variable {dir out storeRoots text : Bytes} {byContent : Bool} {order : List (Bytes × Bytes)}

/-- A text that the store of a build reads without confusion: `<dir>/` does not come again
right behind itself, and where hashes are masked nothing that stands for a masked hash is
in the text already. -/
structure Legible (dir : Bytes) (byContent : Bool) (out storeRoots : Bytes)
    (order : List (Bytes × Bytes)) (text : Bytes) : Prop where
  storeDir : StoreDir dir
  colon : chr ':' ∉ dir
  names : ValidNames dir (buildRoots out storeRoots)
  outHash : (Store.make dir byContent out storeRoots).outHash = [] ∨
    isStoreHash (Store.make dir byContent out storeRoots).outHash = true
  iterates : (Store.make dir byContent out storeRoots).Iterates order
  spread : Spread dir text
  unmasked : byContent = true → Unmasked dir text
  unplaced : byContent = true → ¬ outWord dir Store.outPlaceholder <:+: text

theorem scan_outWord_masked (h : StoreDir dir) {x : Bytes} (hx : OutHash x) (hstar : chr '*' ∉ x)
    (hbyte : ∀ c after, .byte c :: after <:+ tokens dir text →
      ¬ outWord dir x <+: c :: after.flatMap (Tok.spell (StoreRef.real dir))) (y : Bytes) :
    scan (replaceRule (outWord dir x) y)
        ((tokens dir text).flatMap (Tok.spell (StoreRef.masked dir))) =
      (tokens dir text).flatMap (Tok.spell (StoreRef.masked dir)) := by
  have hroot : RootLike dir (outWord dir x) := by
    refine ⟨x ++ ascii "-", List.append_assoc _ _ _, ?_, Or.inl ?_⟩
    · exact fun hmem => (List.mem_append.mp hmem).elim hx.slash (by decide)
    · rw [List.length_append, hx.length_eq]
      decide
  refine scan_eq_self fun s hs => if_neg (mt List.isPrefixOf_iff_prefix.mp ?_)
  refine not_starts_masked h hroot ?_ hbyte hs
  rintro name rest ⟨tail, htail⟩
  simp only [outWord, maskedRoot, List.append_assoc] at htail
  have hlength := hx.length_eq
  cases x with
  | nil => cases hlength
  | cons c x =>
      exact hstar (by rw [(List.cons.inj (List.append_cancel_left htail)).1]; exact .head _)

namespace Legible

theorem entries (h : Legible dir byContent out storeRoots order text) :
    ∀ e ∈ order, RootEntry dir e := by
  intro e he
  have horder := h.iterates
  cases byContent with
  | false => exact absurd ((horder.2 e.1 e.2).mp he) (by simp [Store.make])
  | true => exact rootEntry_of_iterates h.names horder he

/-- Neither the hash of the output nor the placeholder is left in a masked text. -/
theorem swapOutHash_masked (h : Legible dir true out storeRoots order text) (back : Bool) :
    (Store.make dir true out storeRoots).swapOutHash
        ((tokens dir text).flatMap (Tok.spell (StoreRef.masked dir))) back =
      (tokens dir text).flatMap (Tok.spell (StoreRef.masked dir)) := by
  have htoks := tokensOf dir text
  obtain hnone | hhash := h.outHash
  · rw [Store.swapOutHash, hnone]
    rfl
  · rw [Store.swapOutHash_eq hhash]
    cases back with
    | false =>
        have hstar : chr '*' ∉ (Store.make dir true out storeRoots).outHash := by
          intro hmem
          rw [isStoreHash, Bool.and_eq_true, List.all_eq_true] at hhash
          exact absurd (hhash.2 _ hmem) (by decide)
        exact scan_outWord_masked h.storeDir (outHash_of_isStoreHash hhash) hstar
          (fun c after hs => storeRef?_eq_none (htoks.byte c after hs).2 hhash) _
    | true =>
        refine scan_outWord_masked h.storeDir outHash_placeholder (by decide)
          (fun c after hs hpre => h.unplaced rfl ?_) _
        exact hpre.isInfix.trans (htoks.byte c after hs).1.isInfix

/-- Every store path of the text comes back as the root of the build with its name. -/
theorem comesBack (h : Legible dir byContent out storeRoots order text) :
    (Store.make dir byContent out storeRoots).resolveAll order
        ((Store.make dir byContent out storeRoots).unmaskOut
          ((Store.make dir byContent out storeRoots).maskOut
            ((Store.make dir byContent out storeRoots).maskForReplay text))) =
      (tokens dir text).flatMap (Tok.spell (StoreRef.resolved dir order)) := by
  have hmask := maskHashes_eq_masked h.storeDir h.spread
  cases byContent with
  | false =>
      have hnone : order = [] := by
        refine List.eq_nil_iff_forall_not_mem.mpr fun e he => ?_
        exact absurd ((h.iterates.2 e.1 e.2).mp he) (by simp [Store.make])
      have hfirst : StoreRef.masked dir = StoreRef.resolved dir [] := by
        funext r
        simp [StoreRef.resolved]
      rw [hnone, ← hfirst, ← hmask]
      rfl
  | true =>
      rw [Store.unmaskOut, Store.maskOut]
      change Store.resolveAll _ order (Store.swapOutHash _ (Store.swapOutHash _
        (maskHashes dir text) false) true) = _
      rw [hmask, h.swapOutHash_masked, h.swapOutHash_masked,
        resolveAll_make h.storeDir h.names (h.unmasked rfl) h.iterates]

end Legible

/-- What resolving puts into a reference beside what stood there. -/
theorem StoreRef.mem_resolved (hentry : ∀ e ∈ order, RootEntry dir e) {r : StoreRef} {c : Byte}
    (hc : c ∈ r.resolved dir order) : c ∈ r.real dir ∨ c ∈ base32 ∨ c = chr '*' := by
  have hkept : c ∈ storePrefix dir ∨ c ∈ chr '-' :: r.name → c ∈ r.real dir := by
    simp only [StoreRef.real, realRoot, List.mem_append]
    exact fun hin => hin.imp_left Or.inl
  rcases r.resolved_cases hentry with ⟨-, hash, hh, -, heq⟩ | ⟨-, heq⟩
  · rw [heq, realRoot, List.mem_append, List.mem_append] at hc
    obtain (hin | hin) | hin := hc
    · exact Or.inl (hkept (Or.inl hin))
    · rw [isStoreHash, Bool.and_eq_true, List.all_eq_true] at hh
      exact Or.inr (Or.inl (List.contains_iff_mem.mp (hh.2 c hin)))
    · exact Or.inl (hkept (Or.inr hin))
  · rw [heq, StoreRef.masked, maskedRoot, List.mem_append, List.mem_append] at hc
    obtain (hin | hin) | hin := hc
    · exact Or.inl (hkept (Or.inl hin))
    · exact Or.inr (Or.inr (List.mem_singleton.mp hin))
    · exact Or.inl (hkept (Or.inr hin))

/-- A byte that no root has is a token of its own. -/
theorem exists_split_byte {root : StoreRef → Bytes} {c : Byte} {toks : List Tok} {a b : Bytes}
    (hroot : ∀ r, .ref r ∈ toks → c ∉ root r)
    (h : toks.flatMap (Tok.spell root) = a ++ c :: b) :
    ∃ before after, toks = before ++ .byte c :: after ∧
      before.flatMap (Tok.spell root) = a ∧ after.flatMap (Tok.spell root) = b := by
  induction toks generalizing a with
  | nil => simp at h
  | cons tok toks ih =>
      rw [List.flatMap_cons, List.append_eq_append_iff] at h
      have hrest := fun a' => @ih a' fun r hr => hroot r (.tail _ hr)
      obtain ⟨a', rfl, htail⟩ | ⟨d, hd, htail⟩ := h
      · obtain ⟨before, after, rfl, rfl, rfl⟩ := hrest a' htail
        exact ⟨tok :: before, after, rfl, rfl, rfl⟩
      · -- the byte begins in this token, or right behind it
        cases d with
        | nil =>
            obtain ⟨before, after, rfl, hbefore, rfl⟩ := hrest [] htail.symm
            exact ⟨tok :: before, after, rfl, by simp [hbefore, hd], rfl⟩
        | cons d ds =>
            cases (List.cons.inj htail).1
            cases tok with
            | byte e =>
                obtain ⟨rfl, hds⟩ := List.append_eq_singleton_iff.mp hd.symm |>.resolve_right
                  (by simp)
                cases hds
                exact ⟨[], toks, rfl, rfl, (List.cons.inj htail).2.symm⟩
            | ref r =>
                refine absurd ?_ (hroot r (.head _))
                rw [show root r = a ++ c :: ds from hd]
                simp

theorem exists_blank {root : StoreRef → Bytes} {toks : List Tok} {b : Bytes} (hdir : StoreDir dir)
    (hroot : SpellsRoots dir root toks) (h : toks.flatMap (Tok.spell root) = chr ' ' :: b) :
    ∃ after, toks = .byte (chr ' ') :: after ∧ after.flatMap (Tok.spell root) = b := by
  have hhead := head?_flatMap_spell hdir hroot
  rw [h, List.head?_cons] at hhead
  cases toks with
  | nil => cases hhead
  | cons tok after =>
      cases tok with
      | byte c =>
          cases hhead
          exact ⟨after, rfl, (List.cons.inj h).2⟩
      | ref r => exact absurd hhead (by simp; decide)

namespace Legible

theorem colon_notMem (h : Legible dir byContent out storeRoots order text) {r : StoreRef}
    (hr : .ref r ∈ tokens dir text) : chr ':' ∉ r.real dir ∧ chr ':' ∉ r.resolved dir order := by
  obtain ⟨rest, -, href⟩ := mem_tokens hr
  have hat := RefAt.of_storeRef? href
  have hreal : chr ':' ∉ r.real dir := by
    have hhash := hat.hash
    rw [isStoreHash, Bool.and_eq_true, List.all_eq_true] at hhash
    simp only [StoreRef.real, realRoot, storePrefix, List.mem_append, List.mem_cons, not_or]
    refine ⟨⟨⟨h.colon, by decide⟩, fun hin => ?_⟩, by decide, fun hin => ?_⟩
    · exact absurd (hhash.2 _ hin) (by decide)
    · exact absurd (List.all_eq_true.mp hat.name _ hin) (by decide)
  refine ⟨hreal, fun hin => ?_⟩
  obtain hin | hin | hin := StoreRef.mem_resolved h.entries hin
  · exact hreal hin
  · exact absurd hin (by decide)
  · exact absurd hin (by decide)

variable {target inputs : Bytes}

/-- Targets and inputs come back separately. -/
theorem split (h : Legible dir byContent out storeRoots order (target ++ ascii ": " ++ inputs))
    (htarget : OneTarget target) : ∃ target' toks, OneTarget target' ∧
      toks <:+ tokens dir (target ++ ascii ": " ++ inputs) ∧
      toks.flatMap (Tok.spell (StoreRef.real dir)) = inputs ∧
      (tokens dir (target ++ ascii ": " ++ inputs)).flatMap
        (Tok.spell (StoreRef.resolved dir order)) =
          target' ++ ascii ": " ++ toks.flatMap (Tok.spell (StoreRef.resolved dir order)) := by
  have hspelled : (tokens dir (target ++ ascii ": " ++ inputs)).flatMap
      (Tok.spell (StoreRef.real dir)) = target ++ chr ':' :: (chr ' ' :: inputs) := by
    rw [(tokensOf _ _).spelled, List.append_assoc]
    rfl
  have hreal := spellsRoots_real dir (target ++ ascii ": " ++ inputs)
  have hresolved := spellsRoots_resolved h.entries (target ++ ascii ": " ++ inputs)
  have hcolon : ∀ r, .ref r ∈ tokens dir (target ++ ascii ": " ++ inputs) →
      chr ':' ∉ r.real dir ∧ chr ':' ∉ r.resolved dir order := fun _ => h.colon_notMem
  generalize htoks : tokens dir (target ++ ascii ": " ++ inputs) = toks at *
  obtain ⟨before, after, rfl, hbefore, hafter⟩ :=
    exists_split_byte (fun r hr => (hcolon r hr).1) hspelled
  have hmem : ∀ {r : StoreRef}, .ref r ∈ before → .ref r ∈ before ++ .byte (chr ':') :: after :=
    List.mem_append_left _
  obtain ⟨toks, rfl, hinputs⟩ := exists_blank h.storeDir
    (hreal.of_suffix ((List.suffix_cons _ _).trans (List.suffix_append _ _))) hafter
  refine ⟨before.flatMap (Tok.spell (StoreRef.resolved dir order)), toks, ⟨?_, ?_⟩,
    ⟨before ++ [.byte (chr ':'), .byte (chr ' ')], by simp⟩, hinputs, ?_⟩
  · rintro ⟨x, y, hxy⟩
    rw [List.append_assoc] at hxy
    obtain ⟨first, second, rfl, -, hsecond⟩ :=
      exists_split_byte (fun r hr => (hcolon r (hmem hr)).2) hxy.symm
    obtain ⟨third, rfl, -⟩ := exists_blank h.storeDir
      (fun r hr => hresolved r (hmem (List.mem_append_right _ (.tail _ hr)))) hsecond
    refine htarget.1 ⟨first.flatMap (Tok.spell (StoreRef.real dir)),
      third.flatMap (Tok.spell (StoreRef.real dir)), ?_⟩
    rw [← hbefore, List.flatMap_append, List.flatMap_cons, List.flatMap_cons, List.append_assoc]
    rfl
  · intro hin
    refine htarget.2 (hbefore ▸ ?_)
    rw [List.mem_flatMap] at hin ⊢
    obtain ⟨tok, htok, hin⟩ := hin
    refine ⟨tok, htok, ?_⟩
    cases tok with
    | byte c => exact hin
    | ref r =>
        refine (StoreRef.mem_resolved h.entries hin).resolve_right ?_
        rintro (hin | hin)
        · exact absurd hin (by decide)
        · exact absurd hin (by decide)
  · rw [List.flatMap_append, List.flatMap_cons, List.flatMap_cons, List.append_assoc]
    rfl

end Legible

/-- The reference is a whole root, and the one with its name that the store knows. -/
def Store.Restores (s : Store) (r : StoreRef) : Prop :=
  r.closed = true ∧ s.maskedToReal.lookup (r.masked s.dir) = some (r.real s.dir)

theorem Store.make_dir : (Store.make dir byContent out storeRoots).dir = dir := by
  cases byContent <;> rfl

theorem ink_hash {hash : Bytes} (hh : isStoreHash hash = true) : ink hash = hash := by
  have hlayout : ∀ c ∈ ascii " \\\n", base32.contains c = false := by decide +kernel
  rw [isStoreHash, Bool.and_eq_true, List.all_eq_true] at hh
  refine List.filter_eq_self.mpr fun c hc => decide_eq_true fun hin => ?_
  exact absurd ((hh.2 c hc).symm.trans (hlayout c hin)) (by decide)

namespace Legible

theorem resolved_eq (h : Legible dir byContent out storeRoots order text) {r : StoreRef}
    (hr : (Store.make dir byContent out storeRoots).Restores r) :
    r.resolved dir order = r.real dir := by
  obtain ⟨hclosed, hlook⟩ := hr
  rw [← lookup_of_iterates h.iterates, Store.make_dir] at hlook
  rw [StoreRef.resolved, if_pos hclosed, hlook, Option.getD_some]

/-- Another root than the one that stood there shows in any layout. -/
theorem restores_or (h : Legible dir byContent out storeRoots order text) {r : StoreRef}
    (hr : .ref r ∈ tokens dir text) : (Store.make dir byContent out storeRoots).Restores r ∨
      ∀ x y, ink (r.resolved dir order) ++ x ≠ ink (r.real dir) ++ y := by
  obtain ⟨rest, -, href⟩ := mem_tokens hr
  have hh := (RefAt.of_storeRef? href).hash
  have hreal : ∀ hash name y, isStoreHash hash = true →
      ink (realRoot dir hash name) ++ y =
        ink (storePrefix dir) ++ (hash ++ (ink (chr '-' :: name) ++ y)) := by
    intro hash name y hhash
    rw [realRoot, ink_append, ink_append, ink_hash hhash, List.append_assoc, List.append_assoc]
  rcases r.resolved_cases h.entries with ⟨hclosed, hash, hhash, hlook, heq⟩ | ⟨-, heq⟩
  · by_cases hsame : hash = r.hash
    · refine Or.inl ⟨hclosed, ?_⟩
      rw [← lookup_of_iterates h.iterates, Store.make_dir, hlook, hsame]
      rfl
    · refine Or.inr fun x y hxy => hsame ?_
      rw [heq, StoreRef.real, hreal _ _ _ hhash, hreal _ _ _ hh] at hxy
      have hlength := (isStoreHash_length hhash).trans (isStoreHash_length hh).symm
      exact (List.append_inj (List.append_cancel_left hxy) hlength).1
  · refine Or.inr fun x y hxy => ?_
    have hstar : ink (ascii "*") = ascii "*" := by decide
    rw [heq, StoreRef.masked, maskedRoot, StoreRef.real, hreal _ _ _ hh, ink_append, ink_append,
      hstar, List.append_assoc, List.append_assoc] at hxy
    have hlength := isStoreHash_length hh
    rw [isStoreHash, Bool.and_eq_true, List.all_eq_true] at hh
    cases hhash : r.hash with
    | nil =>
        rw [hhash] at hlength
        cases hlength
    | cons c hash =>
        rw [hhash] at hxy hh
        cases (List.cons.inj (List.append_cancel_left hxy)).1
        exact absurd (hh.2 _ (.head _)) (by decide)

end Legible

end Stored

section Replay

variable {s : Store} {order : List (Bytes × Bytes)} {written : Bytes}

/-- A run is served from an entry when both runs want a depfile. -/
theorem served_eq {inv₁ inv₂ : Invocation} {depText : Bytes}
    (hserved : servedDepfile s order inv₁ inv₂ depText = some written) :
    written = retargetDepfile
      (s.resolveAll order (s.unmaskOut (s.maskOut (s.maskForReplay depText)))) inv₂ := by
  unfold servedDepfile lookupDepfile storeDepfile at hserved
  cases h₂ : inv₂.wantsDepfile with
  | false => simp [h₂, replayDepfile] at hserved
  | true =>
      cases h₁ : inv₁.wantsDepfile with
      | false => simp [h₁, h₂] at hserved
      | true =>
          simp only [h₁, h₂, if_true, Option.isNone_some, Bool.and_false, Bool.false_eq_true,
            if_false, Option.map_some, Option.bind_some, replayDepfile,
            Option.some.injEq] at hserved
          exact hserved.symm

/-- A replayed depfile has the one new target in the place of the stored ones, and the
inputs and phony rules of the run that stored it. It is what a real run writes exactly if
the new target is all that its options ask for, both runs ask for phony rules or neither,
and every store path among the inputs is one that the store brings back: a whole root that
the build has, which without content identities none is. -/
theorem replayed_depfile_iff (dir : Bytes) (byContent : Bool) (out storeRoots : Bytes)
    (order : List (Bytes × Bytes)) (tmp source : Bytes) (args₁ args₂ : Args)
    (headers : List Bytes) (inputs written : Bytes)
    (hdep : RealDepfile args₁ (parseInvocation tmp args₁).output source headers
      (targetText args₁ (parseInvocation tmp args₁).output ++ ascii ": " ++ inputs))
    (hlegible : Legible dir byContent out storeRoots order
      (targetText args₁ (parseInvocation tmp args₁).output ++ ascii ": " ++ inputs))
    (htarget : OneTarget (targetText args₁ (parseInvocation tmp args₁).output))
    (hserved : servedDepfile (.make dir byContent out storeRoots) order
      (parseInvocation tmp args₁) (parseInvocation tmp args₂)
      (targetText args₁ (parseInvocation tmp args₁).output ++ ascii ": " ++ inputs) =
        some written) :
    (Compensated args₂ (parseInvocation tmp args₂).output →
      wantsPhony args₁ = wantsPhony args₂ ∨ headers = [] →
      (∀ r, Refers dir inputs r → (Store.make dir byContent out storeRoots).Restores r) →
      RealDepfile args₂ (parseInvocation tmp args₂).output source headers written) ∧
    (¬ ascii ": " <:+: targetText args₂ (parseInvocation tmp args₂).output →
      ¬ ascii ": " <:+: (parseInvocation tmp args₂).newTarget →
      RealDepfile args₂ (parseInvocation tmp args₂).output source headers written →
      Compensated args₂ (parseInvocation tmp args₂).output ∧
        (wantsPhony args₁ = wantsPhony args₂ ∨ headers = []) ∧
        ∀ r, Refers dir inputs r → (Store.make dir byContent out storeRoots).Restores r) := by
  obtain ⟨p, hnames, hinputs⟩ := hdep
  replace hinputs := List.append_cancel_left hinputs
  obtain ⟨target, toks, htarget', htoks, hspelled, hback⟩ := hlegible.split htarget
  have hrefs : ∀ r, Refers dir inputs r ↔ .ref r ∈ toks := by
    intro r
    rw [← hspelled, refers_iff_mem_of_suffix hlegible.storeDir htoks]
  have hwritten : written = (parseInvocation tmp args₂).newTarget ++ ascii ": " ++
      toks.flatMap (Tok.spell (StoreRef.resolved dir order)) := by
    rw [served_eq hserved, hlegible.comesBack, hback, retargetDepfile_append htarget']
  constructor
  · intro hcompensated hphony hrestores
    have hsame : toks.flatMap (Tok.spell (StoreRef.resolved dir order)) = inputs := by
      rw [← hspelled]
      refine List.flatMap_congr fun tok htok => ?_
      cases tok with
      | byte c => rfl
      | ref r => exact hlegible.resolved_eq (hrestores r ((hrefs r).mpr htok))
    refine ⟨p, hnames, ?_⟩
    rw [hwritten, (newTarget_eq_iff tmp args₂).mpr hcompensated, hsame, hinputs]
    obtain hsame | hnone := hphony
    · rw [hsame]
    · simp [hnone, phonyRules]
  · rintro hone hnew ⟨p', hnames', heq⟩
    rw [hwritten] at heq
    obtain ⟨hsame, htail⟩ := append_colon_inj hnew hone heq
    have hcolons : (toks.flatMap (Tok.spell (StoreRef.resolved dir order))).count (chr ':') =
        inputs.count (chr ':') := by
      rw [← hspelled, List.count_flatMap, List.count_flatMap]
      refine congrArg List.sum (List.map_congr_left fun tok htok => ?_)
      cases tok with
      | byte c => rfl
      | ref r =>
          obtain ⟨hreal, hresolved⟩ := hlegible.colon_notMem (htoks.subset htok)
          exact (List.count_eq_zero.mpr hresolved).trans (List.count_eq_zero.mpr hreal).symm
    have hphony : wantsPhony args₁ = wantsPhony args₂ ∨ headers = [] := by
      rw [htail, hinputs] at hcolons
      exact phony_eq (hnames.trans hnames'.symm) hcolons.symm
    have hrules : (if wantsPhony args₁ then phonyRules headers else []) =
        if wantsPhony args₂ then phonyRules headers else [] := by
      obtain hsame | hnone := hphony
      · rw [hsame]
      · simp [hnone, phonyRules]
    have hink : toks.flatMap (fun tok => ink (tok.spell (StoreRef.resolved dir order))) =
        toks.flatMap fun tok => ink (tok.spell (StoreRef.real dir)) := by
      rw [← ink_flatMap, ← ink_flatMap, hspelled, htail, hinputs, hrules, ink_append, ink_append,
        p.ink_text, p'.ink_text, hnames, hnames']
    refine ⟨(newTarget_eq_iff tmp args₂).mp hsame, hphony, fun r hr => ?_⟩
    -- the first reference that did not come back would show in the text
    refine forall_of_flatMap_eq (P := fun tok : Tok => ∀ r, tok = .ref r →
      (Store.make dir byContent out storeRoots).Restores r) (fun tok _ htok => ?_)
      (fun tok htok => ?_) hink _ ((hrefs r).mp hr) r rfl
    · cases tok with
      | byte c => rfl
      | ref r => exact congrArg ink (hlegible.resolved_eq (htok r rfl))
    · cases tok with
      | byte c => exact Or.inl nofun
      | ref r =>
          refine (hlegible.restores_or (htoks.subset htok)).imp_left fun hr r' heq => ?_
          cases heq
          exact hr

end Replay

/-- A compile of `a.c` with further options. -/
def sourceArgs (options : List String) : Args := (options ++ ["-c", "a.c", "-o", "a.o"]).map ascii

/-- The store of a build that identifies store paths by their names. -/
def pathStore : Store := .make nixStore false [] []

/-- The inputs `a.c <header>` on one line. -/
def headerPrerequisites (header : InputPath) : Prerequisites :=
  ⟨[], (headerRule header).first, [(⟨[.blank], by decide⟩, header)], []⟩

def plainHeader : InputPath := ⟨ascii "a.h", by decide, by decide, by decide, by decide⟩

/-- A header of a dependency. -/
def storeHeader : InputPath :=
  ⟨zlib 'a' ++ ascii "/zlib.h", by decide, by decide, by decide, by decide⟩

/-- Two runs with one target each: the second one's target is replayed, and the header of
a dependency comes back. -/
theorem replayed_depfile_iff_targets :
    RealDepfile (sourceArgs ["-MMD", "-MQ", "y.o"]) (ascii "a.o") (ascii "a.c")
      [storeHeader.text] (ascii "y.o: a.c " ++ storeHeader.text ++ ascii "\n") := by
  have hlegible : Legible nixStore true [] (zlib 'a')
      (Store.make nixStore true [] (zlib 'a')).maskedToReal.toPairs
      (ascii "x.o: a.c " ++ storeHeader.text ++ ascii "\n") := by
    refine ⟨storeDir_nixStore, by decide, fun hash name h => ?_, Or.inl (by decide),
      Store.iterates_toPairs _, by decide +kernel, fun _ => by decide +kernel,
      fun _ => by decide +kernel⟩
    rw [((hasRoot_zlibRoots (by decide)).mp h).2]
    decide
  refine (replayed_depfile_iff nixStore true [] (zlib 'a') _ (ascii "/tmp/jig1.i") (ascii "a.c")
    (sourceArgs ["-MD", "-MT", "x.o"]) (sourceArgs ["-MMD", "-MQ", "y.o"]) [storeHeader.text]
    (ascii "a.c " ++ storeHeader.text ++ ascii "\n") _
    ⟨headerPrerequisites storeHeader, rfl, by decide +kernel⟩ hlegible
    ⟨by decide +kernel, by decide +kernel⟩ (by decide +kernel)).1
    ((newTarget_eq_iff _ _).mp (by decide +kernel)) (Or.inl (by decide +kernel)) fun r hr => ?_
  have hrefs : ∀ r ∈ (ascii "a.c " ++ storeHeader.text ++ ascii "\n").tails.filterMap
      (storeRef? nixStore), r.closed = true ∧
      (Store.make nixStore true [] (zlib 'a')).maskedToReal.lookup (r.masked nixStore) =
        some (r.real nixStore) := by decide +kernel
  exact hrefs r (refers_iff_mem.mp hr)

/-- The phony rules that the second of two runs asks for are not in its depfile, and a
depfile that names a store path comes back with the hash masked where store paths are
identified by their names. -/
theorem replayed_depfile_differs :
    (SameKey (parseInvocation [] (sourceArgs ["-MD"]))
        (parseInvocation [] (sourceArgs ["-MD", "-MP"])) ∧
      (parseInvocation [] (sourceArgs ["-MD"])).cacheable = true ∧
      (parseInvocation [] (sourceArgs ["-MD", "-MP"])).cacheable = true ∧
      RealDepfile (sourceArgs ["-MD"]) (ascii "a.o") (ascii "a.c") [ascii "a.h"]
        (ascii "a.o: a.c a.h\n") ∧
      servedDepfile pathStore [] (parseInvocation [] (sourceArgs ["-MD"]))
        (parseInvocation [] (sourceArgs ["-MD", "-MP"])) (ascii "a.o: a.c a.h\n") =
          some (ascii "a.o: a.c a.h\n") ∧
      ¬ RealDepfile (sourceArgs ["-MD", "-MP"]) (ascii "a.o") (ascii "a.c") [ascii "a.h"]
        (ascii "a.o: a.c a.h\n")) ∧
    (RealDepfile (sourceArgs ["-MD"]) (ascii "a.o") (ascii "a.c") [zlib 'a' ++ ascii "/zlib.h"]
        (ascii "a.o: a.c " ++ zlib 'a' ++ ascii "/zlib.h\n") ∧
      ∃ written, servedDepfile pathStore [] (parseInvocation [] (sourceArgs ["-MD"]))
          (parseInvocation [] (sourceArgs ["-MD"]))
          (ascii "a.o: a.c " ++ zlib 'a' ++ ascii "/zlib.h\n") = some written ∧
        ¬ RealDepfile (sourceArgs ["-MD"]) (ascii "a.o") (ascii "a.c")
          [zlib 'a' ++ ascii "/zlib.h"] written) := by
  refine ⟨⟨⟨by decide +kernel, by decide +kernel, by decide +kernel, by decide +kernel,
      by decide +kernel, by decide +kernel⟩, by decide +kernel, by decide +kernel,
      ⟨headerPrerequisites plainHeader, rfl, by decide +kernel⟩, by decide +kernel, ?_⟩,
    ⟨headerPrerequisites storeHeader, rfl, by decide +kernel⟩,
    ascii "a.o: a.c /nix/store/*-zlib/zlib.h\n", by decide +kernel, ?_⟩
  · intro hreal
    exact absurd hreal.ink (by decide +kernel)
  · intro hreal
    exact absurd hreal.ink (by decide +kernel)

end Repkgs.Jig
