import Repkgs.Jig.ManifestSound

/-!
# Depfiles

`ParseDepfile` reads the first rule of a depfile (`manifest.cc`). It undoes only
one of the three escapes that clang writes, and takes a colon inside the target
for the end of the target when an escape follows.
-/

namespace Repkgs.Jig

open Lib

/-- The variables of `ParseDepfile`. -/
structure DepState where
  deps : List Bytes
  token : Bytes
  afterColon : Bool
  deriving DecidableEq

def DepState.flush (s : DepState) : DepState :=
  if s.token.isEmpty then s
  else if s.afterColon then ⟨s.deps ++ [s.token], [], true⟩
  else ⟨s.deps, [], s.token.getLast? = some (chr ':')⟩

def DepState.push (s : DepState) (c : Byte) : DepState := { s with token := s.token ++ [c] }

/-- The loop over the text; `skip` stands for the `++i` of an escape. -/
def depLoop : Bool → DepState → Bytes → DepState
  | _, s, [] => s
  | true, s, _ :: text => depLoop false s text
  | false, s, cur :: text =>
      let next := text.head?.getD (chr '\n')
      if cur = chr '\\' ∧ next = chr '\n' then depLoop true s text
      else if cur = chr '\\' ∧ next = chr ' ' then depLoop true (s.push (chr ' ')) text
      else if cur = chr '\n' then
        if s.flush.afterColon then s.flush else depLoop false s.flush text
      else if cur = chr ' ' ∨ cur = chr '\t' then depLoop false s.flush text
      else if cur = chr ':' ∧ s.afterColon = false ∧ next ∈ ascii " \n\\" then
        depLoop false { s with token := [], afterColon := true } text
      else depLoop false (s.push cur) text

/-- `ParseDepfile`. -/
def parseDepfile (text : Bytes) : List Bytes := (depLoop false ⟨[], [], false⟩ text).flush.deps

example : parseDepfile (ascii "x: \\\n a.c\n") = [ascii "a.c"] := by decide

/-- The inputs of a compile in `RunObserved`: the preprocessor's depfile and the
linker's, without the driver's temporary object directly in `tmp`. -/
def observedInputs (tmp : Bytes) (depText linkDepText : Option Bytes) : List Bytes :=
  (depText.elim [] parseDepfile) ++ (linkDepText.elim [] parseDepfile).filter fun input =>
    !(tmp.isPrefixOf input && !(input.drop tmp.length).contains (chr '/'))

def escapeByte (c : Byte) : Bytes :=
  if c = chr ' ' then ascii "\\ "
  else if c = chr '#' then ascii "\\#"
  else if c = chr '$' then ascii "$$"
  else [c]

/-- A file name in a make rule, as clang writes it. -/
def escapeMake (path : Bytes) : Bytes := path.flatMap escapeByte

/-- What may stand between the names of a rule. -/
inductive Filler
  | blank
  | continuation
  deriving DecidableEq

def Filler.text : Filler → Bytes
  | .blank => ascii " "
  | .continuation => ascii "\\\n"

def fill (fillers : List Filler) : Bytes := fillers.flatMap Filler.text

/-- Two names are apart by at least one blank. -/
structure Gap where
  fillers : List Filler
  has_blank : .blank ∈ fillers

structure InputPath where
  text : Bytes
  ne_nil : text ≠ []
  no_newline : chr '\n' ∉ text
  no_tab : chr '\t' ∉ text
  not_ends : text.getLast? ≠ some (chr '\\')

/-- A rule as clang writes it, with the phony rules of `-MP` behind it. -/
structure MakeRule where
  target : Bytes
  one_line : chr '\n' ∉ target
  lead : List Filler
  first : InputPath
  rest : List (Gap × InputPath)
  trail : List Filler
  phony : List Bytes

def MakeRule.inputs (r : MakeRule) : List Bytes := r.first.text :: r.rest.map fun e => e.2.text

def MakeRule.text (r : MakeRule) : Bytes :=
  escapeMake r.target ++ ascii ": " ++ (fill r.lead ++ (escapeMake r.first.text ++
    (r.rest.flatMap (fun e => fill e.1.fillers ++ escapeMake e.2.text) ++ (fill r.trail ++
      chr '\n' :: r.phony.flatMap fun p => chr '\n' :: escapeMake p ++ ascii ":\n"))))

/-- What the reader makes of a name: only blanks come back. -/
def misread (path : Bytes) : Bytes :=
  path.flatMap fun c => if c = chr ' ' then [c] else escapeByte c

/-- A colon of the target is taken for the end of the target. -/
def CutShort (target : Bytes) : Prop := ∃ c ∈ ascii " #\\\t", [chr ':', c] <:+: target

@[simp] theorem escapeMake_nil : escapeMake [] = [] := rfl

@[simp] theorem escapeMake_cons (c : Byte) (cs : Bytes) :
    escapeMake (c :: cs) = escapeByte c ++ escapeMake cs := List.flatMap_cons

@[simp] theorem misread_cons (c : Byte) (cs : Bytes) :
    misread (c :: cs) = (if c = chr ' ' then [c] else escapeByte c) ++ misread cs :=
  List.flatMap_cons

/-- An escaped name never begins with a blank, and with a newline only if the name does. -/
theorem head?_escapeMake {cs : Bytes} {c : Byte} (h : (escapeMake cs).head? = some c) :
    c ≠ chr ' ' ∧ (c = chr '\n' → chr '\n' ∈ cs) ∧
      (c = chr '\\' → ∃ d ∈ ascii " #\\", cs.head? = some d) := by
  cases cs with
  | nil => cases h
  | cons d ds =>
      rw [escapeMake_cons, escapeByte] at h
      split at h
      · next hd =>
          cases h
          exact ⟨by decide, fun heq => absurd heq (by decide),
            fun _ => ⟨d, by rw [hd]; decide, rfl⟩⟩
      · split at h
        · next hd =>
            cases h
            exact ⟨by decide, fun heq => absurd heq (by decide),
              fun _ => ⟨d, by rw [hd]; decide, rfl⟩⟩
        · split at h
          · cases h
            exact ⟨by decide, fun heq => absurd heq (by decide), fun heq => absurd heq (by decide)⟩
          · next hblank _ _ =>
              cases h
              refine ⟨hblank, fun heq => heq ▸ List.mem_cons_self, fun heq => ⟨c, ?_, rfl⟩⟩
              rw [heq]
              decide

variable {cs text path token target : Bytes} {s : DepState} {c : Byte} {blake3 : Blake3}
  {j : Process}

theorem escapeMake_ne_nil (h : cs ≠ []) : escapeMake cs ≠ [] := by
  cases cs with
  | nil => exact absurd rfl h
  | cons c cs =>
      rw [escapeMake_cons]
      apply List.append_ne_nil_of_left_ne_nil
      unfold escapeByte
      split
      · decide
      · split
        · decide
        · split
          · decide
          · exact List.cons_ne_nil c []

/-- The byte that the reader sees before a name on one line. -/
theorem next_escapeMake (hcs : cs ≠ []) (hnl : chr '\n' ∉ cs) (tail : Bytes) :
    (escapeMake cs ++ tail).head?.getD (chr '\n') ∉ ascii "\n " ∧
      ((escapeMake cs ++ tail).head?.getD (chr '\n') ∈ ascii " \n\\" →
        ∃ d ∈ ascii " #\\", cs.head? = some d) := by
  obtain ⟨c, text, htext⟩ := List.exists_cons_of_ne_nil (escapeMake_ne_nil hcs)
  obtain ⟨hblank, hnewline, hslash⟩ := @head?_escapeMake cs c (by rw [htext]; rfl)
  have hnewline : c ≠ chr '\n' := fun heq => hnl (hnewline heq)
  rw [htext, List.cons_append, List.head?_cons, Option.getD_some]
  refine ⟨?_, ?_⟩
  · intro hmem
    rcases List.mem_cons.mp hmem with heq | hmem
    · exact hnewline heq
    · exact hblank (List.mem_singleton.mp hmem)
  · intro hmem
    rcases List.mem_cons.mp hmem with heq | hmem
    · exact absurd heq hblank
    · rcases List.mem_cons.mp hmem with heq | hmem
      · exact absurd heq hnewline
      · exact hslash (List.mem_singleton.mp hmem)

/-- Any byte without a meaning of its own becomes part of the token. -/
theorem depLoop_push (hnl : c ≠ chr '\n') (hblank : c ≠ chr ' ') (htab : c ≠ chr '\t')
    (hslash : c = chr '\\' → text.head?.getD (chr '\n') ∉ ascii "\n ")
    (hcolon : c = chr ':' → s.afterColon = false → text.head?.getD (chr '\n') ∉ ascii " \n\\") :
    depLoop false s (c :: text) = depLoop false (s.push c) text := by
  rw [depLoop, if_neg, if_neg, if_neg hnl, if_neg (not_or.mpr ⟨hblank, htab⟩), if_neg]
  · rintro ⟨hc, hs, hmem⟩
    exact hcolon hc hs hmem
  · rintro ⟨hc, hnext⟩
    exact hslash hc (by rw [hnext]; decide)
  · rintro ⟨hc, hnext⟩
    exact hslash hc (by rw [hnext]; decide)

theorem depLoop_blank (s : DepState) (text : Bytes) :
    depLoop false s (chr ' ' :: text) = depLoop false s.flush text := rfl

theorem depLoop_tab (s : DepState) (text : Bytes) :
    depLoop false s (chr '\t' :: text) = depLoop false s.flush text := rfl

theorem depLoop_escapedBlank (s : DepState) (text : Bytes) :
    depLoop false s (chr '\\' :: chr ' ' :: text) = depLoop false (s.push (chr ' ')) text := rfl

theorem depLoop_continuation (s : DepState) (text : Bytes) :
    depLoop false s (chr '\\' :: chr '\n' :: text) = depLoop false s text := rfl

/-- A colon that ends the target. -/
theorem depLoop_colon (hs : s.afterColon = false)
    (hnext : text.head?.getD (chr '\n') ∈ ascii " \n\\") :
    depLoop false s (chr ':' :: text) = depLoop false ⟨s.deps, [], true⟩ text :=
  if_pos ⟨rfl, hs, hnext⟩

/-- The part of the token that an escaped byte adds, when the byte is not a tab and
no colon that ends the target. -/
theorem depLoop_escapeByte (hnl : c ≠ chr '\n') (htab : c ≠ chr '\t')
    (hslash : c = chr '\\' → text.head?.getD (chr '\n') ∉ ascii "\n ")
    (hcolon : c = chr ':' → s.afterColon = false → text.head?.getD (chr '\n') ∉ ascii " \n\\") :
    depLoop false s (escapeByte c ++ text) =
      depLoop false { s with token := s.token ++ if c = chr ' ' then [c] else escapeByte c }
        text := by
  unfold escapeByte
  by_cases hblank : c = chr ' '
  · subst hblank
    exact depLoop_escapedBlank s text
  · rw [if_neg hblank, if_neg hblank]
    by_cases hhash : c = chr '#'
    · rw [if_pos hhash]
      change depLoop false s (chr '\\' :: chr '#' :: text) = _
      have hnext : (chr '#' :: text).head?.getD (chr '\n') ∉ ascii "\n " := by
        rw [List.head?_cons, Option.getD_some]
        decide
      rw [depLoop_push (by decide) (by decide) (by decide) (fun _ => hnext)
          fun h => absurd h (by decide),
        depLoop_push (by decide) (by decide) (by decide) (fun h => absurd h (by decide))
          fun h => absurd h (by decide)]
      simp [DepState.push, ascii, chr]
    · rw [if_neg hhash]
      by_cases hdollar : c = chr '$'
      · rw [if_pos hdollar]
        change depLoop false s (chr '$' :: chr '$' :: text) = _
        rw [depLoop_push (by decide) (by decide) (by decide) (fun h => absurd h (by decide))
            fun h => absurd h (by decide),
          depLoop_push (by decide) (by decide) (by decide) (fun h => absurd h (by decide))
            fun h => absurd h (by decide)]
        simp [DepState.push, ascii, chr]
      · rw [if_neg hdollar]
        exact depLoop_push hnl hblank htab hslash hcolon

/-- A name behind the colon of the target. -/
theorem depLoop_path (hs : s.afterColon = true) (hnl : chr '\n' ∉ path) (htab : chr '\t' ∉ path)
    (hend : path.getLast? ≠ some (chr '\\')) (tail : Bytes) :
    depLoop false s (escapeMake path ++ tail) =
      depLoop false { s with token := s.token ++ misread path } tail := by
  induction path generalizing s with
  | nil => simp [misread]
  | cons c cs ih =>
      obtain ⟨hnlc, hnlcs⟩ := not_or.mp (mt List.mem_cons.mpr hnl)
      obtain ⟨htabc, htabcs⟩ := not_or.mp (mt List.mem_cons.mpr htab)
      have hslash : c = chr '\\' →
          (escapeMake cs ++ tail).head?.getD (chr '\n') ∉ ascii "\n " := by
        rintro rfl
        refine (next_escapeMake ?_ hnlcs tail).1
        rintro rfl
        exact hend rfl
      have hend' : cs.getLast? ≠ some (chr '\\') := by
        intro h
        rw [List.getLast?_cons, h] at hend
        exact hend rfl
      rw [escapeMake_cons, List.append_assoc,
        depLoop_escapeByte (Ne.symm hnlc) (Ne.symm htabc) hslash
          fun _ h => absurd (hs.symm.trans h) nofun]
      refine (ih (s := ⟨s.deps, s.token ++ if c = chr ' ' then [c] else escapeByte c,
        s.afterColon⟩) hs hnlcs htabcs hend').trans ?_
      rw [misread_cons, List.append_assoc]

theorem flush_flush (hs : s.afterColon = true) : s.flush.flush = s.flush := by
  unfold DepState.flush
  rw [hs]
  split <;> simp_all

theorem flush_afterColon (hs : s.afterColon = true) : s.flush.afterColon = true := by
  unfold DepState.flush
  rw [hs]
  split
  · exact hs
  · rfl

/-- Between names only a blank ends a token. -/
theorem depLoop_fill (hs : s.afterColon = true) (fillers : List Filler) (tail : Bytes) :
    depLoop false s (fill fillers ++ tail) =
      depLoop false (if .blank ∈ fillers then s.flush else s) tail := by
  induction fillers generalizing s with
  | nil => rfl
  | cons f fillers ih =>
      cases f with
      | blank =>
          change depLoop false s (chr ' ' :: (fill fillers ++ tail)) = _
          rw [depLoop_blank, ih (flush_afterColon hs), flush_flush hs, ite_self,
            if_pos (.head _)]
      | continuation =>
          change depLoop false s (chr '\\' :: chr '\n' :: (fill fillers ++ tail)) = _
          rw [depLoop_continuation, ih hs]
          simp

theorem misread_ne_nil (p : InputPath) : misread p.text ≠ [] := by
  obtain ⟨c, cs, htext⟩ := List.exists_cons_of_ne_nil p.ne_nil
  rw [htext, misread_cons]
  apply List.append_ne_nil_of_left_ne_nil
  split
  · exact List.cons_ne_nil c []
  · intro h
    exact escapeMake_ne_nil (List.cons_ne_nil c []) (by rw [escapeMake_cons, h]; rfl)

theorem flush_token {deps : List Bytes} (h : token ≠ []) :
    DepState.flush ⟨deps, token, true⟩ = ⟨deps ++ [token], [], true⟩ := by
  have hempty : token.isEmpty = false := by simpa using h
  rw [DepState.flush, hempty, if_neg Bool.false_ne_true, if_pos rfl]

/-- The end of the rule. -/
theorem depLoop_newline (hs : s.afterColon = true) (tail : Bytes) :
    depLoop false s (chr '\n' :: tail) = s.flush := by
  have hflush := flush_afterColon hs
  change (if s.flush.afterColon then s.flush else _) = _
  rw [if_pos hflush]

/-- The rest of a rule once its first name is in the token. -/
theorem depLoop_rest (deps : List Bytes) (htoken : token ≠ []) (rest : List (Gap × InputPath))
    (trail : List Filler) (tail : Bytes) :
    (depLoop false ⟨deps, token, true⟩
      (rest.flatMap (fun e => fill e.1.fillers ++ escapeMake e.2.text) ++
        (fill trail ++ chr '\n' :: tail))).flush.deps =
      deps ++ token :: rest.map fun e => misread e.2.text := by
  induction rest generalizing deps token with
  | nil =>
      have hflush : DepState.flush ⟨deps, token, true⟩ = ⟨deps ++ [token], [], true⟩ :=
        flush_token htoken
      rw [List.flatMap_nil, List.nil_append, depLoop_fill rfl]
      split
      · rw [hflush, depLoop_newline rfl]
        rfl
      · rw [depLoop_newline rfl, hflush]
        rfl
  | cons e rest ih =>
      rw [List.flatMap_cons, List.append_assoc, List.append_assoc, depLoop_fill rfl,
        if_pos e.1.has_blank, flush_token htoken,
        depLoop_path rfl e.2.no_newline e.2.no_tab e.2.not_ends, List.nil_append,
        ih _ (misread_ne_nil e.2), List.map_cons, List.append_assoc]
      rfl

/-- The inputs of a rule once the target is read. -/
theorem depLoop_inputs (r : MakeRule) (deps : List Bytes) (tail : Bytes) :
    (depLoop false ⟨deps, [], true⟩ (fill r.lead ++ (escapeMake r.first.text ++
      (r.rest.flatMap (fun e => fill e.1.fillers ++ escapeMake e.2.text) ++
        (fill r.trail ++ chr '\n' :: tail))))).flush.deps = deps ++ r.inputs.map misread := by
  have hlead : (if .blank ∈ r.lead then DepState.flush ⟨deps, [], true⟩
      else ⟨deps, [], true⟩) = ⟨deps, [], true⟩ := ite_self _
  rw [depLoop_fill rfl, hlead, depLoop_path rfl r.first.no_newline r.first.no_tab r.first.not_ends,
    List.nil_append, depLoop_rest deps (misread_ne_nil r.first)]
  simp [MakeRule.inputs]

theorem CutShort.of_cons (h : CutShort cs) : CutShort (c :: cs) := by
  obtain ⟨d, hd, hin⟩ := h
  exact ⟨d, hd, hin.trans (List.suffix_cons c cs).isInfix⟩

theorem cutShort_cons (h : CutShort (c :: cs)) :
    (c = chr ':' ∧ ∃ d ∈ ascii " #\\\t", cs.head? = some d) ∨ CutShort cs := by
  obtain ⟨d, hd, hin⟩ := h
  rcases List.infix_cons_iff.mp hin with hpre | hin
  · obtain ⟨hc, hpre⟩ := List.cons_prefix_cons.mp hpre
    refine Or.inl ⟨hc.symm, d, hd, ?_⟩
    obtain ⟨rest, rfl⟩ := hpre
    rfl
  · exact Or.inr ⟨d, hd, hin⟩

/-- The byte that the reader sees before the rest of a target. -/
theorem next_target (hnl : chr '\n' ∉ cs) (tail : Bytes) :
    (escapeMake cs ++ (ascii ": " ++ tail)).head?.getD (chr '\n') ∉ ascii "\n " ∧
      ((escapeMake cs ++ (ascii ": " ++ tail)).head?.getD (chr '\n') ∈ ascii " \n\\" →
        ∃ d ∈ ascii " #\\", cs.head? = some d) := by
  cases cs with
  | nil =>
      change chr ':' ∉ ascii "\n " ∧ (chr ':' ∈ ascii " \n\\" → _)
      exact ⟨by decide, fun h => absurd h (by decide)⟩
  | cons c cs => exact next_escapeMake (List.cons_ne_nil c cs) hnl _

theorem escapeByte_tab : escapeByte (chr '\t') = [chr '\t'] := by decide

theorem escapeByte_colon : escapeByte (chr ':') = [chr ':'] := by decide

theorem head?_escapeByte (h : c ∈ ascii " #\\") :
    (escapeByte c).head? = some (chr '\\') := by
  have hall : (ascii " #\\").all (fun c => decide ((escapeByte c).head? = some (chr '\\'))) =
      true := by
    decide
  exact of_decide_eq_true (List.all_eq_true.mp hall c h)

theorem flush_deps (s : DepState) : ∃ extra, s.flush.deps = s.deps ++ extra := by
  unfold DepState.flush
  split
  · exact ⟨[], (List.append_nil _).symm⟩
  · split
    · exact ⟨_, rfl⟩
    · exact ⟨[], (List.append_nil _).symm⟩

/-- What is left of a target that was cut short becomes a name of its own. -/
theorem depLoop_leftover (hs : s.afterColon = true) (hnl : chr '\n' ∉ target) (tail : Bytes) :
    ∃ extra, extra ≠ [] ∧
      depLoop false s (escapeMake target ++ (ascii ": " ++ tail)) =
        depLoop false ⟨s.deps ++ extra, [], true⟩ tail := by
  induction target generalizing s with
  | nil =>
      refine ⟨[s.token ++ [chr ':']], List.cons_ne_nil _ _, ?_⟩
      change depLoop false s (chr ':' :: chr ' ' :: tail) = _
      rw [depLoop_push (by decide) (by decide) (by decide) (fun h => absurd h (by decide))
        fun _ h => absurd (hs.symm.trans h) nofun, depLoop_blank, DepState.push, hs,
        flush_token (List.append_ne_nil_of_right_ne_nil _ (List.cons_ne_nil _ _))]
  | cons c cs ih =>
      obtain ⟨hnlc, hnlcs⟩ := not_or.mp (mt List.mem_cons.mpr hnl)
      rw [escapeMake_cons, List.append_assoc]
      by_cases htab : c = chr '\t'
      · obtain ⟨flushed, hflushed⟩ := flush_deps s
        obtain ⟨extra, hne, heq⟩ := ih (flush_afterColon hs) hnlcs
        refine ⟨flushed ++ extra, List.append_ne_nil_of_right_ne_nil _ hne, ?_⟩
        rw [htab, escapeByte_tab, List.singleton_append, depLoop_tab, heq, hflushed,
          List.append_assoc]
      · rw [depLoop_escapeByte (Ne.symm hnlc) htab (fun _ => (next_target hnlcs tail).1)
          fun _ h => absurd (hs.symm.trans h) nofun]
        exact ih (s := ⟨s.deps, _, s.afterColon⟩) hs hnlcs

/-- One byte of a target that does not end it. -/
theorem depLoop_target_byte (hnl : chr '\n' ∉ c :: cs)
    (htab : token.getLast? = some (chr ':') → (c :: cs).head? ≠ some (chr '\t'))
    (hcolon : ¬ (c = chr ':' ∧ ∃ d ∈ ascii " #\\\t", cs.head? = some d)) (tail : Bytes) :
    ∃ token', (token'.getLast? = some (chr ':') → cs.head? ≠ some (chr '\t')) ∧
      depLoop false ⟨[], token, false⟩ (escapeMake (c :: cs) ++ (ascii ": " ++ tail)) =
        depLoop false ⟨[], token', false⟩ (escapeMake cs ++ (ascii ": " ++ tail)) := by
  obtain ⟨hnlc, hnlcs⟩ := not_or.mp (mt List.mem_cons.mpr hnl)
  rw [escapeMake_cons, List.append_assoc]
  by_cases htabc : c = chr '\t'
  · subst htabc
    refine ⟨[], nofun, ?_⟩
    have hlast : token.getLast? ≠ some (chr ':') := fun h => htab h rfl
    have hflush : DepState.flush ⟨[], token, false⟩ = ⟨[], [], false⟩ := by
      unfold DepState.flush
      simp only [Bool.false_eq_true, if_false, hlast, decide_false]
      split
      · next hempty => rw [List.isEmpty_iff.mp hempty]
      · rfl
    rw [escapeByte_tab, List.singleton_append, depLoop_tab, hflush]
  · refine ⟨token ++ if c = chr ' ' then [c] else escapeByte c, ?_, ?_⟩
    · intro hlast hhead
      have hc : c = chr ':' := by
        unfold escapeByte at hlast
        split at hlast
        · simpa using hlast
        · split at hlast
          · rw [List.getLast?_append] at hlast
            exact absurd (Option.some.inj hlast) (by decide)
          · split at hlast
            · rw [List.getLast?_append] at hlast
              exact absurd (Option.some.inj hlast) (by decide)
            · simpa using hlast
      exact hcolon ⟨hc, chr '\t', by decide, hhead⟩
    · refine depLoop_escapeByte (Ne.symm hnlc) htabc (fun _ => (next_target hnlcs tail).1) ?_
      intro hc _ hnext
      obtain ⟨d, hd, hhead⟩ := (next_target hnlcs tail).2 hnext
      exact hcolon ⟨hc, d, List.mem_append_left (ascii "\t") hd, hhead⟩

theorem depLoop_target (token : Bytes) (hcut : ¬ CutShort target) (hnl : chr '\n' ∉ target)
    (htab : token.getLast? = some (chr ':') → target.head? ≠ some (chr '\t')) (tail : Bytes) :
    depLoop false ⟨[], token, false⟩ (escapeMake target ++ (ascii ": " ++ tail)) =
      depLoop false ⟨[], [], true⟩ tail := by
  induction target generalizing token with
  | nil =>
      change depLoop false ⟨[], token, false⟩ (chr ':' :: chr ' ' :: tail) = _
      have hnext : (chr ' ' :: tail).head?.getD (chr '\n') ∈ ascii " \n\\" := by
        rw [List.head?_cons, Option.getD_some]
        decide
      rw [depLoop_colon rfl hnext, depLoop_blank]
      rfl
  | cons c cs ih =>
      have hcolon : ¬ (c = chr ':' ∧ ∃ d ∈ ascii " #\\\t", cs.head? = some d) := by
        rintro ⟨rfl, d, hd, hhead⟩
        obtain ⟨rest, rfl⟩ := List.head?_eq_some_iff.mp hhead
        exact hcut ⟨d, hd, ⟨[], rest, rfl⟩⟩
      obtain ⟨token', htab', hbyte⟩ := depLoop_target_byte hnl htab hcolon tail
      rw [hbyte]
      exact ih token' (mt CutShort.of_cons hcut) (mt (List.mem_cons_of_mem c) hnl) htab'

theorem depLoop_target_cut (token : Bytes) (hcut : CutShort target) (hnl : chr '\n' ∉ target)
    (htab : token.getLast? = some (chr ':') → target.head? ≠ some (chr '\t')) (tail : Bytes) :
    ∃ extra, extra ≠ [] ∧
      depLoop false ⟨[], token, false⟩ (escapeMake target ++ (ascii ": " ++ tail)) =
        depLoop false ⟨extra, [], true⟩ tail := by
  induction target generalizing token with
  | nil =>
      obtain ⟨d, -, hin⟩ := hcut
      exact absurd (List.infix_nil.mp hin) (List.cons_ne_nil _ _)
  | cons c cs ih =>
      have hnlcs : chr '\n' ∉ cs := mt (List.mem_cons_of_mem c) hnl
      by_cases hcolon : c = chr ':' ∧ ∃ d ∈ ascii " #\\\t", cs.head? = some d
      · obtain ⟨rfl, d, hd, hhead⟩ := hcolon
        obtain ⟨rest, rfl⟩ := List.head?_eq_some_iff.mp hhead
        rw [escapeMake_cons, escapeByte_colon, List.append_assoc, List.singleton_append]
        by_cases hd' : d = chr '\t'
        · subst hd'
          have hflush : DepState.flush ⟨[], token ++ [chr ':'], false⟩ = ⟨[], [], true⟩ := by
            simp [DepState.flush]
          rw [depLoop_push (by decide) (by decide) (by decide) (fun h => absurd h (by decide)),
            escapeMake_cons, escapeByte_tab, List.append_assoc, List.singleton_append, depLoop_tab,
            DepState.push, hflush]
          · exact depLoop_leftover rfl (mt (List.mem_cons_of_mem _) hnlcs) tail
          · intro _ _
            rw [escapeMake_cons, escapeByte_tab]
            change chr '\t' ∉ _
            decide
        · have hnext : (escapeMake (d :: rest) ++ (ascii ": " ++ tail)).head?.getD (chr '\n') ∈
              ascii " \n\\" := by
            have hhead : (escapeByte d).head? = some (chr '\\') :=
              head?_escapeByte ((List.mem_append.mp hd).resolve_right
                fun h => hd' (List.mem_singleton.mp h))
            rw [escapeMake_cons, List.append_assoc, List.head?_append, hhead, Option.some_or,
              Option.getD_some]
            decide
          rw [depLoop_colon rfl hnext]
          exact depLoop_leftover rfl hnlcs tail
      · obtain ⟨token', htab', hbyte⟩ := depLoop_target_byte hnl htab hcolon tail
        rw [hbyte]
        exact ih token' ((cutShort_cons hcut).resolve_left hcolon) hnlcs htab'

theorem length_misread (path : Bytes) : (misread path).length =
    path.length + path.countP fun c => c = chr '#' ∨ c = chr '$' := by
  induction path with
  | nil => rfl
  | cons c cs ih =>
      have hc : (if c = chr ' ' then [c] else escapeByte c).length =
          1 + if c = chr '#' ∨ c = chr '$' then 1 else 0 := by
        unfold escapeByte
        by_cases hblank : c = chr ' '
        · subst hblank
          decide
        · by_cases hhash : c = chr '#'
          · subst hhash
            decide
          · by_cases hdollar : c = chr '$'
            · subst hdollar
              decide
            · simp [hblank, hhash, hdollar]
      rw [misread_cons, List.length_append, hc, ih, List.length_cons, List.countP_cons]
      simp only [decide_eq_true_eq]
      omega

theorem misread_eq_self_iff :
    misread path = path ↔ chr '#' ∉ path ∧ chr '$' ∉ path := by
  constructor
  · intro h
    have hlen := length_misread path
    rw [h] at hlen
    have hcount : path.countP (fun c => c = chr '#' ∨ c = chr '$') = 0 := by omega
    rw [List.countP_eq_zero] at hcount
    exact ⟨fun hmem => hcount _ hmem (by decide), fun hmem => hcount _ hmem (by decide)⟩
  · rintro ⟨hhash, hdollar⟩
    have hsame : ∀ c ∈ path, (if c = chr ' ' then [c] else escapeByte c) = [c] := by
      intro c hc
      have hh : c ≠ chr '#' := fun heq => hhash (heq ▸ hc)
      have hd : c ≠ chr '$' := fun heq => hdollar (heq ▸ hc)
      by_cases hblank : c = chr ' '
      · rw [if_pos hblank]
      · rw [if_neg hblank, escapeByte, if_neg hblank, if_neg hh, if_neg hd]
    unfold misread
    rw [List.flatMap_congr hsame]
    exact List.flatMap_singleton' path

/-- What the reader makes of a rule. -/
theorem parseDepfile_rule (r : MakeRule) : ∃ extra,
    (extra = [] ↔ ¬ CutShort r.target) ∧
      parseDepfile r.text = extra ++ r.inputs.map misread := by
  unfold parseDepfile MakeRule.text
  rw [List.append_assoc]
  by_cases hcut : CutShort r.target
  · obtain ⟨extra, hne, heq⟩ := depLoop_target_cut [] hcut r.one_line nofun
      (fill r.lead ++ (escapeMake r.first.text ++
        (r.rest.flatMap (fun e => fill e.1.fillers ++ escapeMake e.2.text) ++ (fill r.trail ++
          chr '\n' :: r.phony.flatMap fun p => chr '\n' :: escapeMake p ++ ascii ":\n"))))
    refine ⟨extra, ⟨fun h => absurd h hne, fun h => absurd hcut h⟩, ?_⟩
    rw [heq]
    exact depLoop_inputs r extra _
  · refine ⟨[], ⟨fun _ => hcut, fun _ => rfl⟩, ?_⟩
    rw [depLoop_target [] hcut r.one_line nofun]
    exact depLoop_inputs r [] _

theorem parseDepfile_eq_iff (r : MakeRule) : parseDepfile r.text = r.inputs ↔
    ¬ CutShort r.target ∧ ∀ p ∈ r.inputs, chr '#' ∉ p ∧ chr '$' ∉ p := by
  obtain ⟨extra, hextra, htext⟩ := parseDepfile_rule r
  rw [htext]
  constructor
  · intro h
    have hlen := congrArg List.length h
    rw [List.length_append, List.length_map] at hlen
    have hnil : extra = [] := List.eq_nil_of_length_eq_zero (by omega)
    rw [hnil, List.nil_append] at h
    refine ⟨hextra.mp hnil, ?_⟩
    intro p hp
    exact misread_eq_self_iff.mp (List.map_inj_left.mp (h.trans (List.map_id _).symm) p hp)
  · rintro ⟨hcut, hclean⟩
    rw [hextra.mpr hcut, List.nil_append]
    refine (List.map_inj_left.mpr fun p hp => ?_).trans (List.map_id _)
    exact misread_eq_self_iff.mpr (hclean p hp)

/-- The line of an input is read back as it was written. -/
structure Store.KeepsLine (s : Store) (path : Bytes) : Prop where
  one_line : chr '\n' ∉ s.key path
  no_tab : chr '\t' ∉ s.key path
  no_bang : (s.key path).head? ≠ some (chr '!')

/-- Where a process has the key of a path. -/
def Process.keyed (j : Process) (path : Bytes) : Bytes :=
  (j.store.resolve (j.store.key path)).getD []

/-- Every readable input has a line, whatever jigd says. -/
theorem exists_inputLine {inputs : List Bytes} {primarySource p : Bytes} (hp : p ∈ inputs)
    (hprimary : p ≠ primarySource) (hread : (j.fs.readFile p).isSome) :
    ∃ id, j.store.key p ++ ascii "\t" ++ id ∈ j.inputLines blake3 inputs primarySource := by
  obtain ⟨content, hcontent⟩ := Option.isSome_iff_exists.mp hread
  have hid : ∃ id, (j.prefetchIdentities inputs).inputId blake3 j.fs p = some id := by
    unfold Store.inputId
    split
    · exact ⟨_, rfl⟩
    · split
      · exact ⟨_, rfl⟩
      · rw [Store.contentId, hcontent]
        exact ⟨_, rfl⟩
  obtain ⟨id, hid⟩ := hid
  refine ⟨id, List.mem_filterMap.mpr ⟨p, List.mem_filter.mpr ⟨hp, by simpa using hprimary⟩, ?_⟩⟩
  rw [Process.inputLine, hid]
  rfl

theorem newline_notMem_processIdentity {path id : Bytes} (hpath : chr '\n' ∉ path)
    (h : j.identity blake3 path = some id) : chr '\n' ∉ id := by
  unfold Process.identity at h
  split at h
  · cases h
    intro hmem
    rcases List.mem_append.mp hmem with hin | hin
    · exact absurd hin (by decide)
    · exact hpath hin
  · exact newline_notMem_contentId h

/-- The same process later, with other files. -/
def Process.later (j : Process) (fs : FileSystem) (identities : List Bytes → List Bytes) :
    Process :=
  { j with fs := fs, identities := identities }

/-- A manifest that is accepted later vouches for what is at the key of the input. -/
theorem later_input_holds {fs : FileSystem}
    {identities : List Bytes → List Bytes} (hnew : j.store.knownIds = ∅) (hj : j.Honest blake3)
    (hlater : (j.later fs identities).Honest blake3)
    {requestKey requestKey' primarySource k : Bytes} {inputs absent : List Bytes}
    (hvalid : (j.later fs identities).validateManifest blake3 requestKey'
      (j.buildManifest blake3 requestKey inputs primarySource absent).text = .ok k)
    {p id : Bytes} (hp : p ∈ inputs) (hprimary : p ≠ primarySource) (hnl : chr '\n' ∉ p)
    (hline : j.store.KeepsLine p) (hid : j.identity blake3 p = some id) :
    (j.later fs identities).identity blake3 (j.keyed p) = some id := by
  obtain ⟨paths, hcheck⟩ := checked_of_valid hvalid
  have hmem := mem_split_lines
    (List.mem_append_left (j.absentLines absent) (mem_inputLines hj hnew hp hprimary hid)) ?_
    (by simp [ascii])
  · exact accepted_input hlater hnew hline.no_tab hline.no_bang (hcheck _ hmem)
  · simp only [List.mem_append, not_or]
    exact ⟨⟨hline.one_line, by decide⟩, newline_notMem_processIdentity hnl hid⟩

/-- A depfile gives back its inputs exactly when no name has a `#` or a `$` and
no colon of the target is followed by something clang escapes, a backslash or a
tab. Then every readable input has a line in the manifest. A later change of one
is a miss if the same is found at its key as at the input itself, and a manifest
that is accepted vouches for the input exactly then. -/
theorem depfile_inputs_recorded_iff (r : MakeRule) :
    (parseDepfile r.text = r.inputs ↔
      ¬ CutShort r.target ∧ ∀ p ∈ r.inputs, chr '#' ∉ p ∧ chr '$' ∉ p) ∧
    (parseDepfile r.text = r.inputs → ∀ (blake3 : Blake3) (j : Process) (tmp : Bytes)
      (link : Option Bytes) (primarySource : Bytes),
      ∀ p ∈ r.inputs, p ≠ primarySource → (j.fs.readFile p).isSome →
        (∃ id, j.store.key p ++ ascii "\t" ++ id ∈
          j.inputLines blake3 (observedInputs tmp (some r.text) link) primarySource) ∧
        (j.store.knownIds = ∅ → j.Honest blake3 → j.store.KeepsLine p →
          ∀ requestKey requestKey' absent fs identities,
            (j.later fs identities).Honest blake3 →
            let later := j.later fs identities
            let manifest := (j.buildManifest blake3 requestKey
              (observedInputs tmp (some r.text) link) primarySource absent).text
            (later.identity blake3 p = later.identity blake3 (j.keyed p) →
              later.identity blake3 p ≠ j.identity blake3 p →
              ∃ err, later.validateManifest blake3 requestKey' manifest = .error err) ∧
            ∀ k, later.validateManifest blake3 requestKey' manifest = .ok k →
              (later.identity blake3 p = j.identity blake3 p ↔
                later.identity blake3 p = later.identity blake3 (j.keyed p)))) := by
  refine ⟨parseDepfile_eq_iff r, ?_⟩
  intro hparse blake3 j tmp link primarySource p hp hprimary hread
  have hmem : p ∈ observedInputs tmp (some r.text) link := by
    apply List.mem_append_left
    rw [Option.elim_some, hparse]
    exact hp
  refine ⟨exists_inputLine hmem hprimary hread, ?_⟩
  intro hnew hj hline requestKey requestKey' absent fs identities hlater later manifest
  have hnl : chr '\n' ∉ p := by
    rcases List.mem_cons.mp hp with rfl | hp
    · exact r.first.no_newline
    · obtain ⟨e, -, rfl⟩ := List.mem_map.mp hp
      exact e.2.no_newline
  have hid : ∃ id, j.identity blake3 p = some id := by
    obtain ⟨content, hcontent⟩ := Option.isSome_iff_exists.mp hread
    unfold Process.identity
    split
    · exact ⟨_, rfl⟩
    · rw [Store.contentId, hcontent]
      exact ⟨_, rfl⟩
  obtain ⟨id, hid⟩ := hid
  have hvouched : ∀ k, later.validateManifest blake3 requestKey' manifest = .ok k →
      later.identity blake3 (j.keyed p) = j.identity blake3 p := by
    intro k hvalid
    rw [hid]
    exact later_input_holds hnew hj hlater hvalid hmem hprimary hnl hline hid
  refine ⟨fun htracked hchanged => ?_, fun k hvalid => by rw [hvouched k hvalid]⟩
  cases hvalid : later.validateManifest blake3 requestKey' manifest with
  | error err => exact ⟨err, rfl⟩
  | ok k => exact absurd (htracked.trans (hvouched k hvalid)) hchanged

/-- The rule `a.o: a.c <header>`. -/
def headerRule (header : InputPath) : MakeRule where
  target := ascii "a.o"
  one_line := by decide
  lead := [.continuation, .blank]
  first := ⟨ascii "a.c", by decide, by decide, by decide, by decide⟩
  rest := [(⟨[.blank, .continuation], by decide⟩, header)]
  trail := []
  phony := [header.text]

/-- A run outside of the store, with one header. -/
def headerProcess (header content : Bytes) : Process where
  store := .make nixStore false [] []
  fs := .ofFiles [(header, content)]
  identities _ := []

theorem headerProcess_honest (blake3 : Blake3) (header content : Bytes) :
    (headerProcess header content).Honest blake3 := by
  intro ask e he
  rw [headerProcess, List.zip_nil_right] at he
  cases he

def spacedHeader : InputPath := ⟨ascii "x y.h", by decide, by decide, by decide, by decide⟩

/-- A header with a blank in its name changes. -/
theorem depfile_inputs_recorded_iff_blank : ∃ err,
    ((headerProcess spacedHeader.text [1]).later (headerProcess spacedHeader.text [2]).fs
      fun _ => []).validateManifest id []
      ((headerProcess spacedHeader.text [1]).buildManifest id []
        (observedInputs [] (some (headerRule spacedHeader).text) none) (ascii "a.c") []).text =
      .error err := by
  have hparse : parseDepfile (headerRule spacedHeader).text = (headerRule spacedHeader).inputs := by
    decide
  have hrecorded := (depfile_inputs_recorded_iff (headerRule spacedHeader)).2 hparse id
    (headerProcess spacedHeader.text [1]) [] none (ascii "a.c") spacedHeader.text (by decide)
    (by decide) (by decide)
  exact (hrecorded.2 rfl (headerProcess_honest _ _ _) ⟨by decide, by decide, by decide⟩ [] [] []
    (headerProcess spacedHeader.text [2]).fs (fun _ => [])
    (headerProcess_honest id spacedHeader.text [2])).1 (by decide) (by decide)

def hashedHeader : InputPath := ⟨ascii "x#y.h", by decide, by decide, by decide, by decide⟩

/-- A header with a `#` in its name changes and the old manifest stays valid. -/
theorem hash_in_name_goes_unnoticed : ∃ (r : MakeRule) (p : Bytes) (k : Bytes),
    p ∈ r.inputs ∧ parseDepfile r.text ≠ r.inputs ∧
    (headerProcess p [1]).fs.readFile p = some [1] ∧
    (headerProcess p [2]).fs.readFile p = some [2] ∧
    (headerProcess p [2]).validateManifest id []
      ((headerProcess p [1]).buildManifest id [] (observedInputs [] (some r.text) none)
        (ascii "a.c") []).text = .ok k := by
  have htext : ((headerProcess hashedHeader.text [1]).buildManifest id []
      (observedInputs [] (some (headerRule hashedHeader).text) none) (ascii "a.c") []).text =
        [] := by
    decide
  refine ⟨headerRule hashedHeader, hashedHeader.text, resultKey id [] [], by decide, by decide,
    by decide, by decide, ?_⟩
  rw [htext]
  rfl

end Repkgs.Jig
