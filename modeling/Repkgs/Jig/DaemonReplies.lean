import Mathlib.Data.List.Forall2
import Repkgs.Jig.DaemonClient

/-!
# Replies of the Nix daemon

How many reads a call makes past the end of a reply: one for each word and string
that the unfinished log message lacks, and one more for the next message. Only the
fields of an activity or a result can be many. A call succeeds only on a reply with
`STDERR_LAST` and all fields behind it.
-/

namespace Repkgs.Jig.Daemon

open Lib Reads

/-- What a log message is made of. -/
inductive Slot
  | word
  | text
  | fields
  deriving DecidableEq

/-- How many items of a stream are missing, and what is left behind them. -/
abbrev Short := Nat × Bytes

def shortWord (s : Bytes) : Short := if s.length < wordBytes then (1, []) else (0, s.drop wordBytes)

/-- A string that is too long is not read. -/
def shortText (s : Bytes) : Short :=
  if s.length < wordBytes then (1, [])
  else if maxString < headWord s then (0, s.drop wordBytes)
  else if s.length < textSpan s then (1, [])
  else (0, s.drop (textSpan s))

/-- Every field that does not begin lacks its type and its value. -/
def shortFields : Nat → Bytes → Short
  | 0, s => (0, s)
  | count + 1, s =>
      if s.length < wordBytes then (2 * (count + 1), [])
      else
        let value := if headWord s = 1 then shortText (s.drop wordBytes)
          else shortWord (s.drop wordBytes)
        let rest := shortFields count value.2
        (value.1 + rest.1, rest.2)

/-- A count and so many fields; a missing count is zero. -/
def shortCounted (s : Bytes) : Short :=
  if s.length < wordBytes then (1, []) else shortFields (headWord s) (s.drop wordBytes)

def Slot.short : Slot → Bytes → Short
  | word => shortWord
  | text => shortText
  | fields => shortCounted

def shortSlots : List Slot → Bytes → Short
  | [], s => (0, s)
  | slot :: slots, s =>
      let rest := shortSlots slots (slot.short s).2
      ((slot.short s).1 + rest.1, rest.2)

/-- The messages after which more are read. -/
def layout (msg : Nat) : Option (List Slot) :=
  if msg = stderrNext then some [.text]
  else if msg = stderrStartActivity then some [.word, .word, .word, .text, .fields, .word]
  else if msg = stderrStopActivity then some [.word]
  else if msg = stderrResult then some [.word, .word, .fields]
  else none

/-- How many items the log message lacks that the end of the stream cuts off. -/
def missingItems : Nat → Bytes → Nat
  | 0, _ => 0
  | fuel + 1, s =>
      if s.length < wordBytes then 0
      else
        match layout (headWord s) with
        | none => 0
        | some slots =>
            let short := shortSlots slots (s.drop wordBytes)
            if short.1 = 0 then missingItems fuel short.2 else short.1

theorem shortFields_nil (count : Nat) : shortFields count [] = (2 * count, []) := by
  cases count with
  | zero => rfl
  | succ count => exact if_pos (by decide)

/-- A reader leaves what an item leaves, and asks in vain for what is missing. -/
def Takes {α : Type} (p : Reads α) (slot : Bytes → Short) : Prop :=
  ∀ s, (p.run s).failed = (slot s).1 ∧ (p.run s).rest = (slot s).2

theorem takes_readWord : Takes readWord shortWord := by
  intro s
  by_cases h : s.length < wordBytes
  · rw [run_readWord_of_lt h, shortWord, if_pos h]
    exact ⟨rfl, rfl⟩
  · rw [run_readWord_of_le (Nat.not_lt.mp h), shortWord, if_neg h]
    exact ⟨rfl, rfl⟩

theorem takes_readString : Takes readString shortText := by
  intro s
  unfold shortText
  by_cases h : s.length < wordBytes
  · rw [run_readString_of_short h, if_pos h]
    exact ⟨rfl, rfl⟩
  · rw [if_neg h]
    by_cases hmax : maxString < headWord s
    · rw [run_readString_of_large (Nat.not_lt.mp h) hmax, if_pos hmax]
      exact ⟨rfl, rfl⟩
    · rw [if_neg hmax]
      by_cases hcut : s.length < textSpan s
      · rw [run_readString_of_cut (Nat.not_lt.mp h) hcut (Nat.not_lt.mp hmax), if_pos hcut]
        exact ⟨rfl, rfl⟩
      · rw [run_readString_of_le (Nat.not_lt.mp hcut) (Nat.not_lt.mp hmax), if_neg hcut]
        exact ⟨rfl, rfl⟩

variable {α : Type} {slot : Bytes → Short} {s : Bytes}

/-- Going on after an item. -/
theorem Takes.run_bind {α β : Type} {p : Reads α} (h : Takes p slot) (next : Reads β) (s : Bytes) :
    (p >>= fun _ => next).run s =
      ⟨(next.run (slot s).2).value, (next.run (slot s).2).rest,
        (slot s).1 + (next.run (slot s).2).failed⟩ := by
  rw [Reads.run_bind, Outcome.after, (h s).1, (h s).2]

theorem takes_discard {p : Reads α} (h : Takes p slot) :
    Takes (p >>= fun _ => (pure () : Reads Unit)) slot := by
  intro s
  rw [h.run_bind]
  exact ⟨rfl, rfl⟩

theorem takes_skipFieldsFrom (count : Nat) : Takes (skipFieldsFrom count) (shortFields count) := by
  induction count with
  | zero => exact fun s => ⟨rfl, rfl⟩
  | succ count ih =>
      intro s
      rw [skipFieldsFrom, Reads.run_bind, shortFields]
      by_cases h : s.length < wordBytes
      · -- the type is missing and counts as a number
        rw [run_readWord_of_lt h, if_pos h]
        simp only [Option.getD_none, if_neg (show ¬ (0 = 1) by decide), Outcome.after,
          (takes_discard takes_readWord).run_bind, shortWord, (ih _).1, (ih _).2,
          shortFields_nil, List.length_nil, if_pos (show 0 < wordBytes by decide)]
        exact ⟨by omega, trivial⟩
      · rw [run_readWord_of_le (Nat.not_lt.mp h), if_neg h]
        have hvalue : Takes (if headWord s = 1 then readString >>= fun _ => (pure () : Reads Unit)
            else readWord >>= fun _ => pure ())
            (if headWord s = 1 then shortText else shortWord) := by
          split
          · exact takes_discard takes_readString
          · exact takes_discard takes_readWord
        simp only [Option.getD_some, Outcome.after, hvalue.run_bind, (ih _).1, (ih _).2,
          Nat.zero_add, apply_ite (fun f : Bytes → Short => f (s.drop wordBytes)), and_self]

theorem takes_skipFields : Takes skipFields shortCounted := by
  intro s
  rw [skipFields, Reads.run_bind, shortCounted]
  by_cases h : s.length < wordBytes
  · rw [run_readWord_of_lt h, if_pos h]
    exact ⟨rfl, rfl⟩
  · rw [run_readWord_of_le (Nat.not_lt.mp h), if_neg h]
    simpa [Outcome.after] using takes_skipFieldsFrom (headWord s) (s.drop wordBytes)

theorem Takes.short_suffix {p : Reads α} (h : Takes p slot) (s : Bytes) :
    (slot s).2 <:+ s ∧ ((slot s).1 ≠ 0 → (slot s).2 = []) := by
  rw [← (h s).1, ← (h s).2]
  exact ⟨rest_suffix p s, fun hfailed => rest_eq_nil (Or.inl hfailed)⟩

theorem Slot.short_suffix (slot : Slot) (s : Bytes) :
    (slot.short s).2 <:+ s ∧ ((slot.short s).1 ≠ 0 → (slot.short s).2 = []) := by
  cases slot with
  | word => exact takes_readWord.short_suffix s
  | text => exact takes_readString.short_suffix s
  | fields => exact takes_skipFields.short_suffix s

theorem shortSlots_suffix (slots : List Slot) (s : Bytes) :
    (shortSlots slots s).2 <:+ s ∧ ((shortSlots slots s).1 ≠ 0 → (shortSlots slots s).2 = []) := by
  induction slots generalizing s with
  | nil => exact ⟨List.suffix_refl s, fun h => absurd rfl h⟩
  | cons slot slots ih =>
      obtain ⟨hsuffix, hcut⟩ := slot.short_suffix s
      obtain ⟨hsuffix', hcut'⟩ := ih (slot.short s).2
      refine ⟨hsuffix'.trans hsuffix, fun h => ?_⟩
      by_cases hzero : (shortSlots slots (slot.short s).2).1 = 0
      · have hnil := hcut fun h' => h (by simp [shortSlots, h', hzero])
        exact List.suffix_nil.mp (hsuffix'.trans (List.suffix_nil.mpr hnil))
      · exact hcut' hzero

/-- What is read of a message after which the loop fails: an error has a type, a level, a
name and a text. -/
def refusal (msg : Nat) : List Slot :=
  if msg = stderrError then [.text, .word, .text, .text] else []

/-- One round of the loop, given what the rounds behind it do. -/
def drainRound (next : Bytes → Outcome (Option Unit)) (s : Bytes) : Outcome (Option Unit) :=
  if s.length < wordBytes then ⟨none, [], 1⟩
  else if headWord s = stderrLast then ⟨some (), s.drop wordBytes, 0⟩
  else
    match layout (headWord s) with
    | none =>
        let short := shortSlots (refusal (headWord s)) (s.drop wordBytes)
        ⟨none, short.2, short.1⟩
    | some slots =>
        let short := shortSlots slots (s.drop wordBytes)
        ⟨(next short.2).value, (next short.2).rest, short.1 + (next short.2).failed⟩

theorem run_drainStderr_succ (fuel : Nat) (s : Bytes) :
    (drainStderr (fuel + 1)).run s = drainRound (drainStderr fuel).run s := by
  unfold drainRound
  by_cases h : s.length < wordBytes
  · rw [drainStderr, run_required_none (run_readWord_of_lt h), if_pos h]
  · rw [drainStderr, run_required_some (run_readWord_of_le (Nat.not_lt.mp h)), if_neg h]
    by_cases hlast : headWord s = stderrLast
    · rw [if_pos hlast, if_pos hlast]
      rfl
    rw [if_neg hlast, if_neg hlast]
    by_cases herror : headWord s = stderrError
    · rw [if_pos herror, herror, show layout stderrError = none by decide,
        show refusal stderrError = [.text, .word, .text, .text] from if_pos rfl]
      simp [takes_readString.run_bind, takes_readWord.run_bind, shortSlots, Slot.short]
    rw [if_neg herror]
    by_cases hnext : headWord s = stderrNext
    · rw [if_pos hnext, hnext, show layout stderrNext = some [.text] by decide]
      simp [takes_readString.run_bind, shortSlots, Slot.short]
    rw [if_neg hnext]
    by_cases hstart : headWord s = stderrStartActivity
    · rw [if_pos hstart, hstart, show layout stderrStartActivity =
        some [.word, .word, .word, .text, .fields, .word] by decide]
      simp [takes_readString.run_bind, takes_readWord.run_bind, takes_skipFields.run_bind,
        shortSlots, Slot.short, Nat.add_assoc]
    rw [if_neg hstart]
    by_cases hstop : headWord s = stderrStopActivity
    · rw [if_pos hstop, hstop, show layout stderrStopActivity = some [.word] by decide]
      simp [takes_readWord.run_bind, shortSlots, Slot.short]
    rw [if_neg hstop]
    by_cases hresult : headWord s = stderrResult
    · rw [if_pos hresult, hresult,
        show layout stderrResult = some [.word, .word, .fields] by decide]
      simp [takes_readWord.run_bind, takes_skipFields.run_bind, shortSlots, Slot.short,
        Nat.add_assoc]
    rw [if_neg hresult]
    simp [layout, refusal, herror, hnext, hstart, hstop, hresult, shortSlots]

/-- A message takes at least its own word. -/
theorem length_shortSlots_lt (h : wordBytes ≤ s.length) (slots : List Slot) :
    (shortSlots slots (s.drop wordBytes)).2.length < s.length := by
  have hle := (shortSlots_suffix slots (s.drop wordBytes)).1.length_le
  rw [List.length_drop] at hle
  have hword : wordBytes = 8 := rfl
  omega

theorem failed_refusal_le (msg : Nat) (s : Bytes) : (shortSlots (refusal msg) s).1 ≤ 4 := by
  have htext (r : Bytes) : (shortText r).1 ≤ 1 := by
    unfold shortText
    split_ifs <;> simp
  have hword (r : Bytes) : (shortWord r).1 ≤ 1 := by
    unfold shortWord
    split_ifs <;> simp
  unfold refusal
  split
  · have h₁ := htext s
    have h₂ := hword (shortText s).2
    have h₃ := htext (shortWord (shortText s).2).2
    have h₄ := htext (shortText (shortWord (shortText s).2).2).2
    simp only [shortSlots, Slot.short]
    omega
  · exact Nat.zero_le 4

/-- What a round can do. -/
inductive DrainRound (next : Bytes → Outcome (Option Unit)) (s : Bytes) :
    Outcome (Option Unit) → Prop
  | ended (h : s.length < wordBytes) : DrainRound next s ⟨none, [], 1⟩
  | last (h : wordBytes ≤ s.length) (hmsg : headWord s = stderrLast) :
      DrainRound next s ⟨some (), s.drop wordBytes, 0⟩
  | refused (h : wordBytes ≤ s.length) (hmsg : layout (headWord s) = none) (rest : Bytes)
      (failed : Nat) (hfailed : failed ≤ 4) : DrainRound next s ⟨none, rest, failed⟩
  | message (h : wordBytes ≤ s.length) (slots : List Slot)
      (hmsg : layout (headWord s) = some slots) (short : Short)
      (hshort : shortSlots slots (s.drop wordBytes) = short) :
      DrainRound next s
        ⟨(next short.2).value, (next short.2).rest, short.1 + (next short.2).failed⟩

theorem drainRound_cases (next : Bytes → Outcome (Option Unit)) (s : Bytes) :
    DrainRound next s (drainRound next s) := by
  unfold drainRound
  by_cases h : s.length < wordBytes
  · rw [if_pos h]
    exact .ended h
  · rw [if_neg h]
    by_cases hlast : headWord s = stderrLast
    · rw [if_pos hlast]
      exact .last (Nat.not_lt.mp h) hlast
    · rw [if_neg hlast]
      cases hmsg : layout (headWord s) with
      | none => exact .refused (Nat.not_lt.mp h) hmsg _ _ (failed_refusal_le _ _)
      | some slots => exact .message (Nat.not_lt.mp h) slots hmsg _ rfl

theorem drainRound_congr {next next' : Bytes → Outcome (Option Unit)}
    (h : ∀ r : Bytes, r.length < s.length → next r = next' r) :
    drainRound next s = drainRound next' s := by
  unfold drainRound
  by_cases hlen : s.length < wordBytes
  · rw [if_pos hlen, if_pos hlen]
  · rw [if_neg hlen, if_neg hlen]
    cases layout (headWord s) with
    | none => rfl
    | some slots =>
        dsimp only
        rw [h _ (length_shortSlots_lt (Nat.not_lt.mp hlen) slots)]

/-- The loop ends by itself: there are no more messages than bytes. -/
theorem run_drainStderr_eq {fuel fuel' : Nat} (h : s.length < fuel) (h' : s.length < fuel') :
    (drainStderr fuel).run s = (drainStderr fuel').run s := by
  induction fuel generalizing s fuel' with
  | zero => exact absurd h (Nat.not_lt_zero _)
  | succ fuel ih =>
      obtain ⟨fuel', rfl⟩ : ∃ n, fuel' = n + 1 := ⟨fuel' - 1, by omega⟩
      rw [run_drainStderr_succ, run_drainStderr_succ]
      exact drainRound_congr fun r hr => ih (by omega) (by omega)

/-- The loop asked in vain at most as often as a message lacks items, and once more. -/
theorem drainStderr_failed_le_iff {fuel k : Nat} (h : s.length < fuel) (hk : 4 ≤ k) :
    ((drainStderr fuel).run s).failed ≤ k ↔ missingItems fuel s < k := by
  induction fuel generalizing s with
  | zero => exact absurd h (Nat.not_lt_zero _)
  | succ fuel ih =>
      rw [run_drainStderr_succ, missingItems]
      have hround := drainRound_cases (drainStderr fuel).run s
      generalize drainRound (drainStderr fuel).run s = out at hround
      cases hround with
      | ended hlen =>
          rw [if_pos hlen]
          exact iff_of_true (by dsimp only; omega) (by omega)
      | last hlen hmsg =>
          rw [if_neg (Nat.not_lt.mpr hlen), hmsg, show layout stderrLast = none by decide]
          exact iff_of_true (Nat.zero_le k) (by dsimp only; omega)
      | refused hlen hmsg rest failed hfailed =>
          rw [if_neg (Nat.not_lt.mpr hlen), hmsg]
          exact iff_of_true (hfailed.trans hk) (by dsimp only; omega)
      | message hlen slots hmsg short hshort =>
          have hlt := length_shortSlots_lt hlen slots
          obtain ⟨-, hcut⟩ := shortSlots_suffix slots (s.drop wordBytes)
          rw [if_neg (Nat.not_lt.mpr hlen), hmsg]
          dsimp only
          rw [hshort] at hlt hcut ⊢
          by_cases hzero : short.1 = 0
          · rw [if_pos hzero, hzero, Nat.zero_add]
            exact ih (by omega)
          · -- the stream is used up, and the next message fails at its first word
            rw [if_neg hzero, hcut hzero]
            obtain ⟨fuel, rfl⟩ : ∃ n, fuel = n + 1 := ⟨fuel - 1, by omega⟩
            rw [run_drainStderr_succ, drainRound, if_pos (by decide)]
            exact Nat.succ_le_iff

/-- The complete log messages of `s` end where `r` begins. -/
inductive Logs : Bytes → Bytes → Prop
  | none (s : Bytes) : Logs s s
  | message {s s' r : Bytes} {slots : List Slot} (h : wordBytes ≤ s.length)
      (hmsg : layout (headWord s) = some slots)
      (hshort : shortSlots slots (s.drop wordBytes) = (0, s')) (hrest : Logs s' r) : Logs s r

/-- The loop succeeds at `STDERR_LAST` behind complete messages. -/
theorem drainStderr_some {fuel : Nat} (h : ((drainStderr fuel).run s).value = some ()) :
    ∃ r, Logs s r ∧ wordBytes ≤ r.length ∧ headWord r = stderrLast ∧
      (drainStderr fuel).run s = ⟨some (), r.drop wordBytes, 0⟩ := by
  induction fuel generalizing s with
  | zero => cases h
  | succ fuel ih =>
      rw [run_drainStderr_succ] at h ⊢
      have hround := drainRound_cases (drainStderr fuel).run s
      generalize drainRound (drainStderr fuel).run s = out at hround h
      cases hround with
      | ended hlen => cases h
      | last hlen hmsg => exact ⟨s, .none s, hlen, hmsg, rfl⟩
      | refused hlen hmsg rest failed hfailed => cases h
      | message hlen slots hmsg short hshort =>
          obtain ⟨r, hlogs, hlast, hword, hrun⟩ := ih h
          have hzero : short.1 = 0 := by
            by_contra hne
            -- nothing would be left, but the loop found a word
            have hnil := (shortSlots_suffix slots (s.drop wordBytes)).2 (by rwa [hshort])
            rw [hshort] at hnil
            rw [hnil] at hrun
            cases fuel with
            | zero => cases hrun
            | succ fuel =>
                rw [run_drainStderr_succ, drainRound, if_pos (by decide)] at hrun
                cases hrun
          refine ⟨r, .message hlen hmsg (hshort.trans ?_) hlogs, hlast, hword, ?_⟩
          · rw [← hzero]
          · rw [hrun, hzero]
            rfl

inductive Field
  | word
  | text
  | texts

/-- The bytes of a field in full: a string is its size, its text and the padding. -/
def Field.Whole : Field → Bytes → Prop
  | word, bytes => bytes.length = wordBytes
  | text, bytes => bytes.length = textSpan bytes
  | texts, bytes =>
      ∃ (count : Bytes) (texts : List Bytes), bytes = count ++ texts.flatten ∧
        count.length = wordBytes ∧ texts.length = leNat count ∧
        ∀ text ∈ texts, text.length = textSpan text

def Call.shape : Call → List Field
  | connect => []
  | addToStore => [.text, .text, .text, .texts, .word, .word, .word, .texts, .text]
  | submitOutput => [.word]

/-- A program that succeeds only with these fields in front of the stream. -/
def Delivers {α : Type} (p : Reads (Option α)) (shape : List Field) : Prop :=
  ∀ s a rest, p.run s = ⟨some a, rest, 0⟩ →
    ∃ parts, List.Forall₂ Field.Whole shape parts ∧ s = parts.flatten ++ rest

namespace Delivers

variable {α β : Type}

theorem pure (a : Option α) : Delivers (Pure.pure a : Reads (Option α)) [] := by
  intro s b rest h
  cases h
  exact ⟨[], .nil, rfl⟩

theorem required {p : Reads (Option α)} {next : α → Reads (Option β)} {shape : List Field}
    {field : Field} (hstops : Stops p) (hp : Delivers p [field])
    (hnext : ∀ a, Delivers (next a) shape) : Delivers (required p next) (field :: shape) := by
  intro s b rest h
  rcases hstops.cases s with ⟨a, mid, hrun⟩ | ⟨mid, failed, hrun, -⟩
  · rw [run_required_some hrun] at h
    obtain ⟨parts, hparts, rfl⟩ := hp s a mid hrun
    obtain ⟨more, hmore, rfl⟩ := hnext a mid b rest h
    refine ⟨parts ++ more, List.rel_append hparts hmore, ?_⟩
    rw [List.flatten_append, List.append_assoc]
  · rw [run_required_none hrun] at h
    cases h

theorem readWord : Delivers readWord [.word] := by
  intro s a rest h
  by_cases hlen : wordBytes ≤ s.length
  · rw [run_readWord_of_le hlen] at h
    cases h
    refine ⟨[s.take wordBytes], .cons ?_ .nil, ?_⟩
    · exact (List.length_take_of_le hlen)
    · rw [List.flatten_singleton, List.take_append_drop]
  · rw [run_readWord_of_lt (Nat.not_le.mp hlen)] at h
    cases h

end Delivers

/-- A string that was read stood in front of the stream. -/
theorem readString_some {s rest text : Bytes} {failed : Nat}
    (h : readString.run s = ⟨some text, rest, failed⟩) :
    ∃ bytes, Field.text.Whole bytes ∧ s = bytes ++ rest := by
  by_cases hlen : s.length < wordBytes
  · rw [run_readString_of_short hlen] at h
    cases h
  · by_cases hmax : maxString < headWord s
    · rw [run_readString_of_large (Nat.not_lt.mp hlen) hmax] at h
      cases h
    · by_cases hcut : s.length < textSpan s
      · rw [run_readString_of_cut (Nat.not_lt.mp hlen) hcut (Nat.not_lt.mp hmax)] at h
        cases h
      · rw [run_readString_of_le (Nat.not_lt.mp hcut) (Nat.not_lt.mp hmax)] at h
        cases h
        refine ⟨s.take (textSpan s), ?_, (List.take_append_drop _ _).symm⟩
        have hle : wordBytes ≤ textSpan s := Nat.le_add_right _ _
        have hspan : textSpan (s.take (textSpan s)) = textSpan s := by
          rw [textSpan, headWord, List.take_take, Nat.min_eq_left hle, ← headWord, ← textSpan]
        exact (List.length_take_of_le (Nat.not_lt.mp hcut)).trans hspan.symm

theorem skipStringsFrom_some {count : Nat} {s rest : Bytes} {failed : Nat}
    (h : (skipStringsFrom count).run s = ⟨some (), rest, failed⟩) :
    ∃ texts : List Bytes, texts.length = count ∧ (∀ text ∈ texts, text.length = textSpan text) ∧
      s = texts.flatten ++ rest := by
  induction count generalizing s with
  | zero =>
      cases h
      exact ⟨[], rfl, nofun, rfl⟩
  | succ count ih =>
      rcases Stops.readString.cases s with ⟨text, mid, hrun⟩ | ⟨mid, failed, hrun, -⟩
      · rw [skipStringsFrom, run_required_some hrun] at h
        obtain ⟨bytes, hwhole, rfl⟩ := readString_some hrun
        obtain ⟨texts, hlen, htexts, rfl⟩ := ih h
        refine ⟨bytes :: texts, by rw [List.length_cons, hlen], ?_, ?_⟩
        · exact List.forall_mem_cons.mpr ⟨hwhole, htexts⟩
        · rw [List.flatten_cons, List.append_assoc]
      · rw [skipStringsFrom, run_required_none hrun] at h
        cases h

namespace Delivers

theorem readString : Delivers readString [.text] := by
  intro s a rest h
  obtain ⟨bytes, hwhole, rfl⟩ := readString_some h
  exact ⟨[bytes], .cons hwhole .nil, by rw [List.flatten_singleton]⟩

theorem skipStrings : Delivers skipStrings [.texts] := by
  intro s a rest h
  by_cases hlen : wordBytes ≤ s.length
  · rw [Daemon.skipStrings, run_required_some (run_readWord_of_le hlen)] at h
    obtain ⟨texts, hcount, htexts, hs⟩ := skipStringsFrom_some h
    refine ⟨[s.take wordBytes ++ texts.flatten], .cons ?_ .nil, ?_⟩
    · exact ⟨_, texts, rfl, List.length_take_of_le hlen, hcount, htexts⟩
    · rw [List.flatten_singleton, List.append_assoc, ← hs, List.take_append_drop]
  · rw [Daemon.skipStrings, run_required_none (run_readWord_of_lt (Nat.not_le.mp hlen))] at h
    cases h

theorem fields (call : Call) : Delivers call.fields call.shape := by
  have word {β : Type} {next : Nat → Reads (Option β)} {shape : List Field}
      (h : ∀ a, Delivers (next a) shape) := required Stops.readWord readWord h
  have text {β : Type} {next : Bytes → Reads (Option β)} {shape : List Field}
      (h : ∀ a, Delivers (next a) shape) := required Stops.readString readString h
  have texts {β : Type} {next : Unit → Reads (Option β)} {shape : List Field}
      (h : ∀ a, Delivers (next a) shape) := required Stops.skipStrings skipStrings h
  cases call with
  | connect => exact pure _
  | addToStore =>
      exact text fun _ => text fun _ => text fun _ => texts fun _ => word fun _ => word fun _ =>
        word fun _ => texts fun _ => text fun _ => pure _
  | submitOutput => exact word fun _ => pure _

end Delivers

/-- The stream at the first log message, where the opening gets so far. -/
def Call.logs (call : Call) (sent : Nat → Bool) (s : Bytes) : Option Bytes :=
  ((call.opening sent).run s).value.map fun _ => ((call.opening sent).run s).rest

/-- Complete log messages, `STDERR_LAST` and all fields. -/
def Call.Received (call : Call) (sent : Nat → Bool) (s : Bytes) : Prop :=
  ∃ logs r parts rest, call.logs sent s = some logs ∧ Logs logs r ∧ wordBytes ≤ r.length ∧
    headWord r = stderrLast ∧ r.drop wordBytes = parts.flatten ++ rest ∧
    List.Forall₂ Field.Whole call.shape parts

section Calls

variable {call : Call} {sent : Nat → Bool} {s : Bytes} {fuel : Nat}

/-- A call fails before the log messages or goes on to them. -/
theorem Call.run_program (call : Call) (sent : Nat → Bool) (s : Bytes) (fuel : Nat) :
    (∃ rest failed, call.logs sent s = none ∧ failed ≤ 1 ∧
      (call.program sent fuel).run s = ⟨none, rest, failed⟩) ∨
    ∃ logs, call.logs sent s = some logs ∧ logs <:+ s ∧
      (call.program sent fuel).run s =
        (required (drainStderr fuel) fun _ => call.fields).run logs := by
  rcases (Stops.opening sent call).cases s with ⟨a, logs, hrun⟩ | ⟨rest, failed, hrun, hle⟩
  · have hsuffix := rest_suffix (call.opening sent) s
    rw [hrun] at hsuffix
    refine Or.inr ⟨logs, ?_, hsuffix, run_required_some hrun _⟩
    rw [Call.logs, hrun, Option.map_some]
  · refine Or.inl ⟨rest, failed, ?_, hle, run_required_none hrun _⟩
    rw [Call.logs, hrun, Option.map_none]

/-- The part behind the opening: it fails in the log messages, or all of them were read. -/
theorem Call.run_replies (call : Call) (logs : Bytes) (fuel : Nat) :
    (∃ rest failed, (drainStderr fuel).run logs = ⟨none, rest, failed⟩ ∧
      (required (drainStderr fuel) fun _ => call.fields).run logs = ⟨none, rest, failed⟩) ∨
    ∃ r, Logs logs r ∧ wordBytes ≤ r.length ∧ headWord r = stderrLast ∧
      (drainStderr fuel).run logs = ⟨some (), r.drop wordBytes, 0⟩ ∧
      (required (drainStderr fuel) fun _ => call.fields).run logs =
        call.fields.run (r.drop wordBytes) := by
  cases hrun : (drainStderr fuel).run logs with
  | mk value rest failed =>
      cases value with
      | none => exact Or.inl ⟨rest, failed, rfl, run_required_none hrun _⟩
      | some a =>
          have hsome : ((drainStderr fuel).run logs).value = some () := by rw [hrun]
          obtain ⟨r, hlogs, hlen, hlast, hdrain⟩ := drainStderr_some hsome
          exact Or.inr ⟨r, hlogs, hlen, hlast, hrun.symm.trans hdrain,
            run_required_some hdrain _⟩

/-- A call that succeeds has received everything. -/
theorem Call.received_of_success {result : Bytes}
    (h : ((call.program sent fuel).run s).value = some result) : call.Received sent s := by
  rcases call.run_program sent s fuel with ⟨rest, failed, -, -, hrun⟩ | ⟨logs, hlogs, -, hrun⟩
  · rw [hrun] at h
    cases h
  · rw [hrun] at h
    rcases call.run_replies logs fuel with
      ⟨rest, failed, -, hreply⟩ | ⟨r, hr, hlen, hlast, -, hreply⟩
    · rw [hreply] at h
      cases h
    · rw [hreply] at h
      rcases (Stops.fields call).cases (r.drop wordBytes) with
        ⟨a, rest, hfields⟩ | ⟨rest, failed, hfields, -⟩
      · obtain ⟨parts, hparts, hrest⟩ := Delivers.fields call _ _ _ hfields
        exact ⟨logs, r, parts, rest, hlogs, hr, hlen, hlast, hrest, hparts⟩
      · rw [hfields] at h
        cases h

theorem Call.program_failed_le_iff {k : Nat} (hk : 4 ≤ k) (hfuel : s.length < fuel) :
    ((call.program sent fuel).run s).failed ≤ k ↔
      ∀ logs, call.logs sent s = some logs → missingItems (logs.length + 1) logs < k := by
  rcases call.run_program sent s fuel with
    ⟨rest, failed, hnone, hle, hrun⟩ | ⟨logs, hlogs, hsuffix, hrun⟩
  · rw [hrun, hnone]
    exact iff_of_true (hle.trans (by omega)) nofun
  · have hlen := hsuffix.length_le
    have hdrain : ((drainStderr fuel).run logs).failed ≤ k ↔
        missingItems (logs.length + 1) logs < k := by
      rw [run_drainStderr_eq (by omega) (Nat.lt_succ_self logs.length)]
      exact drainStderr_failed_le_iff (Nat.lt_succ_self _) hk
    rw [hrun, hlogs]
    simp only [Option.some.injEq, forall_eq', ← hdrain]
    rcases call.run_replies logs fuel with
      ⟨rest, failed, hdrained, hreply⟩ | ⟨r, -, -, -, hdrained, hreply⟩
    · rw [hreply, hdrained]
    · rw [hreply, hdrained]
      refine iff_of_true ?_ (Nat.zero_le k)
      have hstops := Stops.fields call (r.drop wordBytes)
      omega

/-- More fuel changes nothing. -/
theorem Call.run_program_eq {fuel' : Nat} (hfuel : s.length < fuel) (hfuel' : s.length < fuel') :
    (call.program sent fuel).run s = (call.program sent fuel').run s := by
  rcases (Stops.opening sent call).cases s with ⟨a, logs, hrun⟩ | ⟨rest, failed, hrun, -⟩
  · have hlen := (rest_suffix (call.opening sent) s).length_le
    rw [hrun] at hlen
    have hdrain : (drainStderr fuel).run logs = (drainStderr fuel').run logs :=
      run_drainStderr_eq (Nat.lt_of_le_of_lt hlen hfuel) (Nat.lt_of_le_of_lt hlen hfuel')
    rw [Call.program, Call.program, run_required_some hrun, run_required_some hrun, required,
      required, Reads.run_bind, Reads.run_bind, hdrain]
  · rw [Call.program, Call.program, run_required_none hrun, run_required_none hrun]

end Calls

/-- A call returns for every stream. It reads at most a constant more often than there are
bytes, and succeeds only on a whole reply, if and only if the log message that the end of the
stream cuts off lacks fewer items than that. -/
theorem Call.reads_bounded_iff (call : Call) (sent : Nat → Bool) (s : Bytes) (fuel k : Nat)
    (hfuel : s.length < fuel) (hk : 4 ≤ k) :
    (∀ fuel', s.length < fuel' →
      (call.program sent fuel').run s = (call.program sent fuel).run s) ∧
    (((∀ grain, ((call.program sent fuel).exec grain s 0).2 ≤ k + s.length) ∧
        ∀ grain result, ((call.program sent fuel).exec grain s 0).1 = some result →
          call.Received sent s) ↔
      ∀ logs, call.logs sent s = some logs → missingItems (logs.length + 1) logs < k) := by
  refine ⟨fun fuel' hfuel' => Call.run_program_eq hfuel' hfuel, ?_⟩
  rw [calls_le_iff, Call.program_failed_le_iff hk hfuel]
  refine and_iff_left fun grain result h => ?_
  rw [exec_value] at h
  exact Call.received_of_success h

/-- A reply to `SubmitOutput`. -/
def submittedReply : Bytes := leBytes 8 stderrLast ++ leBytes 8 1

theorem Call.reads_bounded_iff_submitted :
    submittedReply.length < 17 ∧ 4 ≤ 4 ∧
    (∀ fuel', submittedReply.length < fuel' →
      (Call.submitOutput.program (fun _ => true) fuel').run submittedReply =
        (Call.submitOutput.program (fun _ => true) 17).run submittedReply) ∧
    (((∀ grain, ((Call.submitOutput.program (fun _ => true) 17).exec grain submittedReply 0).2 ≤
          4 + submittedReply.length) ∧
        ∀ grain result,
          ((Call.submitOutput.program (fun _ => true) 17).exec grain submittedReply 0).1 =
            some result → Call.submitOutput.Received (fun _ => true) submittedReply) ∧
      ∀ logs, Call.submitOutput.logs (fun _ => true) submittedReply = some logs →
        missingItems (logs.length + 1) logs < 4) ∧
    ((Call.submitOutput.program (fun _ => true) 17).run submittedReply).value = some [] :=
  have h := Call.reads_bounded_iff .submitOutput (fun _ => true) submittedReply 17 4 (by decide)
    (by decide)
  have hlogs : ∀ logs, Call.submitOutput.logs (fun _ => true) submittedReply = some logs →
      missingItems (logs.length + 1) logs < 4 := by
    rintro _ ⟨⟩
    decide
  ⟨by decide, by decide, h.1, ⟨h.2.mpr hlogs, hlogs⟩, by decide⟩

/-- A result message that announces as many fields as a word can, and none of them. -/
def cutResult : Bytes :=
  leBytes 8 stderrResult ++ (leBytes 8 0 ++ (leBytes 8 0 ++ leBytes 8 (2 ^ 64 - 1)))

theorem missingItems_cutResult : missingItems 33 cutResult = 2 * (2 ^ 64 - 1) := by
  have hmsg : layout (headWord cutResult) = some [.word, .word, .fields] := by decide
  have hcount : shortCounted (leBytes 8 (2 ^ 64 - 1)) = (2 * (2 ^ 64 - 1), []) := by
    have hword : headWord (leBytes 8 (2 ^ 64 - 1)) = 2 ^ 64 - 1 := by decide
    rw [shortCounted, if_neg (by decide), hword]
    exact shortFields_nil _
  have hshort : shortSlots [.word, .word, .fields] (cutResult.drop wordBytes) =
      (2 * (2 ^ 64 - 1), []) := by
    have h₁ : shortWord (cutResult.drop wordBytes) =
        (0, leBytes 8 0 ++ leBytes 8 (2 ^ 64 - 1)) := by decide
    have h₂ : shortWord (leBytes 8 0 ++ leBytes 8 (2 ^ 64 - 1)) =
        (0, leBytes 8 (2 ^ 64 - 1)) := by decide
    simp only [shortSlots, Slot.short, h₁, h₂, hcount]
    norm_num
  rw [missingItems, if_neg (by decide), hmsg]
  dsimp only
  rw [hshort, if_neg (by decide)]

/-- After 32 bytes the client goes on to read for as long as the peer told it. -/
theorem Call.submitOutput_reads_cutResult :
    cutResult.length = 32 ∧
    2 ^ 65 ≤ ((Call.submitOutput.program (fun _ => true) 33).exec (fun _ => 1) cutResult 0).2 := by
  have hmissing : ¬ ((Call.submitOutput.program (fun _ => true) 33).run cutResult).failed ≤
      2 ^ 65 - 2 := by
    rw [Call.program_failed_le_iff (by decide) (by decide)]
    intro h
    have hlt := h cutResult (by decide)
    rw [show cutResult.length + 1 = 33 by decide, missingItems_cutResult] at hlt
    exact absurd hlt (by decide)
  have hcalls := @calls_eq_of_bytewise _ (fun _ => 1) (fun _ => rfl)
    (Call.submitOutput.program (fun _ => true) 33) cutResult 0
  have hlen : cutResult.length = 32 := by decide
  rw [rest_eq_nil (Or.inl (by omega)), List.length_nil] at hcalls
  exact ⟨hlen, by omega⟩

end Repkgs.Jig.Daemon
