import Mathlib.Data.List.TakeWhile
import Mathlib.Data.List.DropRight

/-!
# The command line of the Windows launcher

Windows hands a process one string, which the process splits into arguments
itself. `run` of the launcher builds such a string from the name and the
arguments of a record and from the launcher's own command line, whose arguments
it does not parse. `commandLineToArgvW` is the system's documented way to split
a command line.
-/

namespace Repkgs.Launch

abbrev WChars := List UInt16

def wchr (c : Char) : UInt16 := UInt16.ofNat c.toNat

def wide (s : String) : WChars := s.toList.map wchr

/-- A string that a NUL can end. -/
abbrev CString := { s : WChars // 0 ∉ s }

def isBlank (c : UInt16) : Bool := c == wchr ' ' || c == wchr '\t'

def isMark (c : UInt16) : Bool := c == wchr '"'

/-- The arguments read so far and the one being read; backslashes wait until
it is known whether a quotation mark follows them. -/
structure Splitter where
  args : List WChars
  word : WChars
  inWord : Bool
  inQuotes : Bool
  slashes : Nat
deriving DecidableEq

namespace Splitter

def start : Splitter := ⟨[], [], false, false, 0⟩

/-- Backslashes in front of anything but a mark stand for themselves. -/
def flush (s : Splitter) : Splitter :=
  { s with word := s.word ++ List.replicate s.slashes (wchr '\\'), slashes := 0 }

def endArg (s : Splitter) : Splitter :=
  if s.inWord then { s with args := s.args ++ [s.word], word := [], inWord := false } else s

/-- `2n` backslashes and a mark are `n` backslashes and the begin or end of a
quotation, `2n + 1` are `n` backslashes and the mark itself. -/
def mark (s : Splitter) : Splitter :=
  let word := s.word ++ List.replicate (s.slashes / 2) (wchr '\\')
  if s.slashes % 2 = 1 then { s with word := word ++ [wchr '"'], inWord := true, slashes := 0 }
  else { s with word := word, inWord := true, inQuotes := !s.inQuotes, slashes := 0 }

def step (s : Splitter) (c : UInt16) : Splitter :=
  if c = wchr '\\' then { s with inWord := true, slashes := s.slashes + 1 }
  else if isMark c then s.mark
  else if isBlank c && !s.inQuotes then s.flush.endArg
  else { s.flush with word := s.flush.word ++ [c], inWord := true }

def finish (s : Splitter) : List WChars := s.flush.endArg.args

end Splitter

def splitArgs (text : WChars) : List WChars := (text.foldl Splitter.step Splitter.start).finish

/-- The program name ends at the next mark if it begins with one and at the next
blank otherwise; backslashes mean nothing in it. -/
def programName : WChars → WChars
  | [] => []
  | c :: cs => if isMark c then cs.takeWhile (!isMark ·) else (c :: cs).takeWhile (!isBlank ·)

def afterProgramName : WChars → WChars
  | [] => []
  | c :: cs =>
      if isMark c then (cs.dropWhile (!isMark ·)).tail else (c :: cs).dropWhile (!isBlank ·)

/-- An empty command line stands for the running executable. -/
def commandLineToArgvW (executable : WChars) (line : WChars) : List WChars :=
  match line.takeWhile (· ≠ 0) with
  | [] => [executable]
  | c :: cs => programName (c :: cs) :: splitArgs (afterProgramName (c :: cs))

/-- What `appendArg` writes between its marks, with `slashes` backslashes read
but not yet written. -/
def escapeArg (slashes : Nat) : WChars → WChars
  | [] => List.replicate (slashes * 2) (wchr '\\')
  | c :: cs =>
      if c = wchr '\\' then escapeArg (slashes + 1) cs
      else
        List.replicate (if c = wchr '"' then slashes * 2 + 1 else slashes) (wchr '\\') ++
          c :: escapeArg 0 cs

def appendArg (line arg : WChars) : WChars :=
  line ++ wchr ' ' :: wchr '"' :: escapeArg 0 arg ++ [wchr '"']

/-- The launcher's own command line after its program name. -/
def userArgs (rest : WChars) : WChars :=
  let stop :=
    if rest.head? = some (wchr '"') then
      match rest.tail.findIdx? isMark with
      | none => rest.length
      | some i => i + 1 + 1
    else min (rest.findIdx isBlank) rest.length
  rest.drop stop

/-- The command line that `Run` gives to the new process. -/
def run (argv0 : WChars) (pre : List WChars) (own : WChars) : WChars :=
  (pre.foldl appendArg (appendArg [] argv0) ++ userArgs own).drop 1

theorem isMark_iff {c : UInt16} : isMark c = true ↔ c = wchr '"' := by
  simp [isMark]

/-- The launcher finds the end of its own program name where the system does. -/
theorem userArgs_eq (own : WChars) : userArgs own = afterProgramName own := by
  cases own with
  | nil => rfl
  | cons c cs =>
      by_cases hc : isMark c = true
      · have hhead : (c :: cs).head? = some (wchr '"') := by simp [isMark_iff.mp hc]
        have hafter : afterProgramName (c :: cs) = (cs.dropWhile (!isMark ·)).tail := if_pos hc
        rw [userArgs, if_pos hhead, hafter, List.tail_cons, List.dropWhile_eq_drop_findIdx_not,
          List.tail_drop]
        cases hfind : cs.findIdx? isMark with
        | none =>
            have hnone : cs.findIdx isMark = cs.length := by
              rw [List.findIdx?_eq_none_iff] at hfind
              exact List.findIdx_eq_length.mpr hfind
            simp [hnone]
        | some i =>
            have hsome : cs.findIdx isMark = i := (List.findIdx?_eq_some_iff_findIdx_eq.mp hfind).2
            simp [hsome]
      · have hhead : (c :: cs).head? ≠ some (wchr '"') := by
          simpa [isMark] using hc
        have hafter : afterProgramName (c :: cs) = (c :: cs).dropWhile (!isBlank ·) := if_neg hc
        rw [userArgs, if_neg hhead, hafter, List.dropWhile_eq_drop_findIdx_not,
          min_eq_left List.findIdx_le_length]
        simp

namespace Splitter

theorem step_backslash (s : Splitter) :
    s.step (wchr '\\') = { s with inWord := true, slashes := s.slashes + 1 } := if_pos rfl

theorem step_mark (s : Splitter) : s.step (wchr '"') = s.mark := by
  have hne : wchr '"' ≠ wchr '\\' := by decide
  have hmark : isMark (wchr '"') = true := by decide
  rw [step, if_neg hne, if_pos hmark]

theorem foldl_backslashes (s : Splitter) (hs : s.inWord = true) (n : Nat) :
    (List.replicate n (wchr '\\')).foldl step s = { s with slashes := s.slashes + n } := by
  induction n generalizing s with
  | zero => rfl
  | succ n ih =>
      rw [List.replicate_succ, List.foldl_cons, step_backslash, ih _ rfl, ← hs]
      simp [Nat.add_assoc, Nat.add_comm 1 n]

/-- Inside a quotation, with nothing pending. -/
def quoting (args : List WChars) (word : WChars) : Splitter := ⟨args, word, true, true, 0⟩

/-- Behind the closing mark of a quotation. -/
def quoted (args : List WChars) (word : WChars) : Splitter := ⟨args, word, true, false, 0⟩

/-- A character of a quotation, with the backslashes that stand before it. -/
theorem foldl_char (args : List WChars) (word : WChars) (n : Nat) {c : UInt16}
    (hslash : c ≠ wchr '\\') (hmark : c ≠ wchr '"') :
    (List.replicate n (wchr '\\') ++ [c]).foldl step (quoting args word) =
      quoting args (word ++ List.replicate n (wchr '\\') ++ [c]) := by
  rw [List.foldl_append, foldl_backslashes _ rfl]
  simp [step, quoting, isMark, hslash, hmark, flush]

/-- A mark of a quotation, with twice the backslashes that stand before it and one for itself. -/
theorem foldl_mark (args : List WChars) (word : WChars) (n : Nat) :
    (List.replicate (n * 2 + 1) (wchr '\\') ++ [wchr '"']).foldl step (quoting args word) =
      quoting args (word ++ List.replicate n (wchr '\\') ++ [wchr '"']) := by
  have hhalf : (0 + (n * 2 + 1)) / 2 = n := by omega
  have hodd : (0 + (n * 2 + 1)) % 2 = 1 := by omega
  rw [List.foldl_append, foldl_backslashes _ rfl, List.foldl_cons, step_mark]
  simp only [mark, quoting, hhalf, hodd, if_pos, List.foldl_nil]

/-- The closing mark, with twice the backslashes that end the argument. -/
theorem foldl_close (args : List WChars) (word : WChars) (n : Nat) :
    (List.replicate (n * 2) (wchr '\\') ++ [wchr '"']).foldl step (quoting args word) =
      quoted args (word ++ List.replicate n (wchr '\\')) := by
  have hhalf : (0 + n * 2) / 2 = n := by omega
  have heven : ¬ (0 + n * 2) % 2 = 1 := by omega
  rw [List.foldl_append, foldl_backslashes _ rfl, List.foldl_cons, step_mark]
  simp only [mark, quoting, quoted, hhalf, if_neg heven, List.foldl_nil, Bool.not_true]

/-- The splitter takes up what the writer still holds back together with the rest. -/
theorem foldl_escapeArg (args : List WChars) (word : WChars) (n : Nat) (arg : WChars) :
    (escapeArg n arg ++ [wchr '"']).foldl step (quoting args word) =
      quoted args (word ++ List.replicate n (wchr '\\') ++ arg) := by
  induction arg generalizing word n with
  | nil => rw [escapeArg, foldl_close, List.append_nil]
  | cons c cs ih =>
      by_cases hslash : c = wchr '\\'
      · rw [escapeArg, if_pos hslash, ih, hslash, List.replicate_succ']
        simp
      · have hone : ∀ text : WChars, escapeArg n (c :: cs) = text ++ escapeArg 0 cs →
            text.foldl step (quoting args word) =
              quoting args (word ++ List.replicate n (wchr '\\') ++ [c]) →
            (escapeArg n (c :: cs) ++ [wchr '"']).foldl step (quoting args word) =
              quoted args (word ++ List.replicate n (wchr '\\') ++ c :: cs) := by
          intro text htext hread
          rw [htext, List.append_assoc, List.foldl_append, hread, ih]
          simp
        by_cases hmark : c = wchr '"'
        · subst hmark
          exact hone _ (by simp [escapeArg, hslash]) (foldl_mark args word n)
        · exact hone _ (by simp [escapeArg, hslash, hmark]) (foldl_char args word n hslash hmark)

theorem step_blank {s : Splitter} (hquotes : s.inQuotes = false) {c : UInt16}
    (hc : isBlank c = true) : s.step c = s.flush.endArg := by
  have hslash : c ≠ wchr '\\' := by
    rintro rfl
    exact absurd hc (by decide)
  have hmark : ¬ isMark c = true := by
    intro h
    rw [isMark_iff.mp h] at hc
    exact absurd hc (by decide)
  rw [step, if_neg hslash, if_neg hmark, if_pos (by simp [hc, hquotes])]

/-- The state between two arguments. -/
def between (args : List WChars) : Splitter := ⟨args, [], false, false, 0⟩

theorem step_blank_quoted (args : List WChars) (word : WChars) {c : UInt16}
    (hc : isBlank c = true) : (quoted args word).step c = between (args ++ [word]) := by
  rw [step_blank rfl hc]
  simp [quoted, between, flush, endArg]

theorem step_blank_between (args : List WChars) {c : UInt16} (hc : isBlank c = true) :
    (between args).step c = between args := by
  rw [step_blank rfl hc]
  simp [between, flush, endArg]

/-- Arguments that were read before have no influence on those that follow. -/
def prepend (args : List WChars) (s : Splitter) : Splitter := { s with args := args ++ s.args }

theorem endArg_prepend (args : List WChars) (s : Splitter) :
    (s.prepend args).endArg = s.endArg.prepend args := by
  cases hword : s.inWord <;> simp [endArg, prepend, hword]

theorem mark_prepend (args : List WChars) (s : Splitter) :
    (s.prepend args).mark = s.mark.prepend args := by
  by_cases hodd : s.slashes % 2 = 1 <;> simp [mark, prepend, hodd]

theorem step_prepend (args : List WChars) (s : Splitter) (c : UInt16) :
    (s.prepend args).step c = (s.step c).prepend args := by
  have hquotes : (s.prepend args).inQuotes = s.inQuotes := rfl
  have hflush : (s.prepend args).flush = s.flush.prepend args := rfl
  simp only [step, hquotes, hflush, mark_prepend, endArg_prepend, apply_ite (prepend args)]
  rfl

theorem foldl_prepend (args : List WChars) (s : Splitter) (text : WChars) :
    text.foldl step (s.prepend args) = (text.foldl step s).prepend args := by
  induction text generalizing s with
  | nil => rfl
  | cons c cs ih => rw [List.foldl_cons, step_prepend, ih, List.foldl_cons]

theorem finish_prepend (args : List WChars) (s : Splitter) :
    (s.prepend args).finish = args ++ s.finish :=
  congrArg Splitter.args (endArg_prepend args s.flush)

end Splitter

open Splitter

theorem finish_between (args : List WChars) (text : WChars) :
    (text.foldl step (between args)).finish = args ++ splitArgs text := by
  have hstart : between args = start.prepend args := by simp [between, prepend, start]
  rw [hstart, foldl_prepend, finish_prepend, splitArgs]

/-- A text begins with a blank or is empty. -/
def Parted (text : WChars) : Prop := ∀ c ∈ text.head?, isBlank c = true

instance (text : WChars) : Decidable (Parted text) :=
  decidable_of_iff (text.head?.all isBlank = true) (by cases text <;> simp [Parted])

theorem finish_quoted (args : List WChars) (word : WChars) {text : WChars} (h : Parted text) :
    (text.foldl step (quoted args word)).finish = args ++ [word] ++ splitArgs text := by
  cases text with
  | nil => simp [splitArgs, finish, flush, endArg, quoted, start]
  | cons c cs =>
      have hc : isBlank c = true := h c rfl
      have hstart : splitArgs (c :: cs) = splitArgs cs := by
        rw [splitArgs, List.foldl_cons, show start = between [] from rfl, step_blank_between _ hc]
        rfl
      rw [List.foldl_cons, step_blank_quoted _ _ hc, finish_between, hstart]

/-- The arguments of a record as `appendArg` writes them, one after the other. -/
def written (args : List WChars) : WChars := args.flatMap (appendArg [])

theorem foldl_appendArg (args : List WChars) (line : WChars) :
    args.foldl appendArg line = line ++ written args := by
  induction args generalizing line with
  | nil => simp [written]
  | cons arg args ih =>
      rw [List.foldl_cons, ih]
      simp [written, appendArg]

theorem parted_written (args : List WChars) {tail : WChars} (h : Parted tail) :
    Parted (written args ++ tail) := by
  cases args with
  | nil => exact h
  | cons arg args =>
      rintro c ⟨⟩
      decide

theorem foldl_appendArg_nil (args : List WChars) (arg : WChars) :
    (appendArg [] arg).foldl step (between args) = quoted args arg := by
  have hopen : ((between args).step (wchr ' ')).step (wchr '"') = quoting args [] := by
    rw [step_blank_between _ (by decide), step_mark]
    simp [between, mark, quoting]
  rw [appendArg, List.nil_append, List.cons_append, List.cons_append, List.foldl_cons,
    List.foldl_cons, hopen, foldl_escapeArg]
  rfl

/-- Splitting undoes `appendArg`, in front of any text that a blank sets apart. -/
theorem splitArgs_written (args : List WChars) {tail : WChars} (h : Parted tail) :
    splitArgs (written args ++ tail) = args ++ splitArgs tail := by
  induction args with
  | nil => rfl
  | cons arg args ih =>
      have hrest := parted_written args h
      calc splitArgs (written (arg :: args) ++ tail)
          = ((appendArg [] arg ++ (written args ++ tail)).foldl step (between [])).finish := by
            simp [splitArgs, written, between, start]
        _ = ((written args ++ tail).foldl step (quoted [] arg)).finish := by
            rw [List.foldl_append, foldl_appendArg_nil]
        _ = arg :: splitArgs (written args ++ tail) := by rw [finish_quoted _ _ hrest]; rfl
        _ = arg :: args ++ splitArgs tail := by rw [ih]; rfl

/-- A name without marks and without a backslash at its end is written as it is. -/
theorem escapeArg_eq_self {arg : WChars} (hmark : wchr '"' ∉ arg) (n : Nat)
    (hlast : (List.replicate n (wchr '\\') ++ arg).getLast? ≠ some (wchr '\\')) :
    escapeArg n arg = List.replicate n (wchr '\\') ++ arg := by
  induction arg generalizing n with
  | nil =>
      cases n with
      | zero => rfl
      | succ n => exact absurd (by simp [List.replicate_succ']) hlast
  | cons c cs ih =>
      have hcs : wchr '"' ∉ cs := fun hmem => hmark (.tail _ hmem)
      have hc : c ≠ wchr '"' := fun h => hmark (h ▸ List.mem_cons_self)
      by_cases hslash : c = wchr '\\'
      · have hmove : List.replicate n (wchr '\\') ++ c :: cs =
            List.replicate (n + 1) (wchr '\\') ++ cs := by
          rw [hslash, List.replicate_succ']
          simp
        rw [hmove] at hlast ⊢
        rw [escapeArg, if_pos hslash, ih hcs (n + 1) hlast]
      · rw [escapeArg, if_neg hslash, if_neg hc]
        cases cs with
        | nil => rfl
        | cons d ds =>
            have hrest : (d :: ds).getLast? ≠ some (wchr '\\') := by
              simpa [List.getLast?_append] using hlast
            rw [ih hcs 0 (by simpa using hrest)]
            rfl

theorem run_eq (argv0 : WChars) (pre : List WChars) (own : WChars) :
    run argv0 pre own =
      wchr '"' :: (escapeArg 0 argv0 ++ wchr '"' :: (written pre ++ afterProgramName own)) := by
  rw [run, foldl_appendArg, userArgs_eq]
  simp [appendArg]

theorem mem_escapeArg {c : UInt16} {n : Nat} {arg : WChars} (h : c ∈ escapeArg n arg) :
    c = wchr '\\' ∨ c ∈ arg := by
  induction arg generalizing n with
  | nil => exact Or.inl (List.eq_of_mem_replicate h)
  | cons d ds ih =>
      rw [escapeArg] at h
      split_ifs at h with hslash
      all_goals
        simp only [List.mem_append, List.mem_replicate, List.mem_cons] at h ⊢
        have := @ih 0
        have := @ih (n + 1)
        tauto

theorem zero_notMem_escapeArg {arg : WChars} (h : 0 ∉ arg) (n : Nat) : 0 ∉ escapeArg n arg := by
  intro hmem
  rcases mem_escapeArg hmem with hslash | harg
  · exact absurd hslash (by decide)
  · exact h harg

theorem zero_notMem_written {args : List WChars} (h : ∀ arg ∈ args, 0 ∉ arg) :
    0 ∉ written args := by
  intro hmem
  obtain ⟨arg, harg, hmem⟩ := List.mem_flatMap.mp hmem
  have hconst : 0 ≠ wchr ' ' ∧ 0 ≠ wchr '"' := by decide
  have hescape := zero_notMem_escapeArg (h arg harg) 0
  simp [appendArg, hconst, hescape] at hmem

theorem afterProgramName_subset (own : WChars) : afterProgramName own ⊆ own := by
  cases own with
  | nil => exact List.Subset.refl _
  | cons c cs =>
      rw [afterProgramName]
      split_ifs
      · exact List.Subset.trans ((List.tail_sublist _).trans (List.dropWhile_sublist _)).subset
          (List.subset_cons_self c cs)
      · exact (List.dropWhile_sublist _).subset

theorem takeWhile_ne_zero {line : WChars} (h : 0 ∉ line) : line.takeWhile (· ≠ 0) = line := by
  rw [List.takeWhile_eq_self_iff]
  intro c hc
  exact decide_eq_true fun hzero => h (hzero ▸ hc)

theorem commandLineToArgvW_tail (executable : WChars) {line : WChars} (h : 0 ∉ line) :
    (commandLineToArgvW executable line).tail = splitArgs (afterProgramName line) := by
  rw [commandLineToArgvW, takeWhile_ne_zero h]
  cases line with
  | nil => rfl
  | cons c cs => rfl

/-- A program name between marks is read as it is. -/
theorem commandLineToArgvW_quoted (executable : WChars) {name rest : WChars}
    (hmark : wchr '"' ∉ name) (hnul : 0 ∉ wchr '"' :: (name ++ wchr '"' :: rest)) :
    commandLineToArgvW executable (wchr '"' :: (name ++ wchr '"' :: rest)) =
      name :: splitArgs rest := by
  have hall : ∀ c ∈ name, (!isMark c) = true := by
    intro c hc
    have hne : c ≠ wchr '"' := fun h => hmark (h ▸ hc)
    simpa [isMark] using hne
  have hquote : isMark (wchr '"') = true := by decide
  rw [commandLineToArgvW, takeWhile_ne_zero hnul]
  simp only [programName, afterProgramName, hquote, if_true, List.takeWhile_append_of_pos hall,
    List.dropWhile_append_of_pos hall]
  rw [List.takeWhile_cons_of_neg (by simp [hquote]), List.dropWhile_cons_of_neg (by simp [hquote]),
    List.tail_cons, List.append_nil]

theorem zero_notMem_line {argv0 own : WChars} {pre : List WChars} (hargv0 : 0 ∉ argv0)
    (hpre : ∀ arg ∈ pre, 0 ∉ arg) (hown : 0 ∉ own) :
    0 ∉ wchr '"' :: (argv0 ++ wchr '"' :: (written pre ++ afterProgramName own)) := by
  have hquote : 0 ≠ wchr '"' := by decide
  have hwritten := zero_notMem_written hpre
  have hafter : 0 ∉ afterProgramName own := fun hmem => hown (afterProgramName_subset own hmem)
  simp [hquote, hwritten, hafter, hargv0]

/-- The launched program finds its name, the arguments of the record as they
are, and then the arguments that the launcher was called with. -/
theorem commandLineToArgvW_run (executable : WChars) (argv0 : CString) (pre : List CString)
    (own : CString) (hmark : wchr '"' ∉ argv0.val) (hlast : argv0.val.getLast? ≠ some (wchr '\\'))
    (hown : Parted (afterProgramName own.val)) :
    commandLineToArgvW executable (run argv0.val (pre.map Subtype.val) own.val) =
      argv0.val :: pre.map Subtype.val ++ (commandLineToArgvW executable own.val).tail := by
  have hpre : ∀ arg ∈ pre.map Subtype.val, 0 ∉ arg := by
    intro arg harg
    obtain ⟨s, -, rfl⟩ := List.mem_map.mp harg
    exact s.property
  have hnul := zero_notMem_line argv0.property hpre own.property
  rw [run_eq, escapeArg_eq_self hmark 0 hlast, commandLineToArgvW_tail executable own.property]
  simp only [List.replicate_zero, List.nil_append]
  rw [commandLineToArgvW_quoted executable hmark hnul, splitArgs_written _ hown]
  rfl

/-- A record with an argument that holds a mark and ends in a backslash and with
an empty one, the launcher called as `"C:\a b\foo.exe" x "y z"`. -/
theorem commandLineToArgvW_run_python :
    commandLineToArgvW (wide "C:\\foo.exe")
        (run (wide "C:\\py thon3") [wide "-c", wide "say \\\"hi\\", []]
          (wide "\"C:\\a b\\foo.exe\" x  \"y z\"")) =
      [wide "C:\\py thon3", wide "-c", wide "say \\\"hi\\", [], wide "x", wide "y z"] :=
  (commandLineToArgvW_run (wide "C:\\foo.exe") ⟨wide "C:\\py thon3", by decide⟩
    [⟨wide "-c", by decide⟩, ⟨wide "say \\\"hi\\", by decide⟩, ⟨[], by decide⟩]
    ⟨wide "\"C:\\a b\\foo.exe\" x  \"y z\"", by decide⟩ (by decide) (by decide) (by decide)).trans
    (by decide)

end Repkgs.Launch
