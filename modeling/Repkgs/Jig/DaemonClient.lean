import Repkgs.Lib.LittleEndian
import Repkgs.Lib.StreamReads

/-!
# The client of the Nix daemon

`DaemonConnection` of `nix_store_mode.cc` sends a request and reads the log
messages and the fields of the reply. A reply may end anywhere. Most readers stop
then; those of log messages go on and take defaults, among them the loop over
the fields of an activity, which runs for as long as the message announced.
-/

namespace Repkgs.Jig.Daemon

open Lib Reads

def wordBytes : Nat := 8

def maxString : Nat := 64 * 2 ^ 20

/-- What fills a string up to whole words. -/
def padding (size : Nat) : Nat := (wordBytes - size % wordBytes) % wordBytes

def readBytes (count : Nat) : Reads (Option Bytes) := ask count done

def readWord : Reads (Option Nat) := readBytes wordBytes >>= fun bytes => pure (bytes.map leNat)

/-- A read without which the function returns. -/
def required {α β : Type} (p : Reads (Option α)) (next : α → Reads (Option β)) :
    Reads (Option β) :=
  p >>= fun a =>
    match a with
    | none => pure none
    | some a => next a

def readString : Reads (Option Bytes) :=
  required readWord fun size =>
    if size > maxString then pure none
    else
      required (readBytes size) fun text =>
        required (readBytes (padding size)) fun _ => pure (some text)

/-- The loop of `SkipStrings`. -/
def skipStringsFrom : Nat → Reads (Option Unit)
  | 0 => pure (some ())
  | count + 1 => required readString fun _ => skipStringsFrom count

def skipStrings : Reads (Option Unit) := required readWord skipStringsFrom

/-- The loop of `SkipFields`: a type, and a string or a number. -/
def skipFieldsFrom : Nat → Reads Unit
  | 0 => pure ()
  | count + 1 =>
      readWord >>= fun type =>
        (if type.getD 0 = 1 then readString >>= fun _ => pure () else readWord >>= fun _ => pure ())
          >>= fun _ => skipFieldsFrom count

def skipFields : Reads Unit := readWord >>= fun count => skipFieldsFrom (count.getD 0)

def workerMagic2 : Nat := 0x6478696f

def protocolVersion : Nat := 1 * 2 ^ 8 + 38

def stderrNext : Nat := 0x6f6c6d67

def stderrLast : Nat := 0x616c7473

def stderrError : Nat := 0x63787470

def stderrStartActivity : Nat := 0x53545254

def stderrStopActivity : Nat := 0x53544f50

def stderrResult : Nat := 0x52534c54

/-- `DrainStderr`, for at most so many messages. What it prints is left out. -/
def drainStderr : Nat → Reads (Option Unit)
  | 0 => pure none
  | fuel + 1 =>
      required readWord fun msg =>
        if msg = stderrLast then pure (some ())
        else if msg = stderrError then
          readString >>= fun _ => readWord >>= fun _ => readString >>= fun _ => readString >>=
            fun _ => pure none
        else if msg = stderrNext then readString >>= fun _ => drainStderr fuel
        else if msg = stderrStartActivity then
          readWord >>= fun _ => readWord >>= fun _ => readWord >>= fun _ => readString >>= fun _ =>
            skipFields >>= fun _ => readWord >>= fun _ => drainStderr fuel
        else if msg = stderrStopActivity then readWord >>= fun _ => drainStderr fuel
        else if msg = stderrResult then
          readWord >>= fun _ => readWord >>= fun _ => skipFields >>= fun _ => drainStderr fuel
        else pure none

/-- What the program asks of the daemon. -/
inductive Call
  | connect
  | addToStore
  | submitOutput
  deriving DecidableEq

/-- The part of a call before the log messages; `sent i` says whether the `i`th request
could be written. `Handshake` exchanges magic numbers, versions and features. -/
def Call.opening (sent : Nat → Bool) : Call → Reads (Option Unit)
  | connect =>
      if !sent 0 then pure none
      else
        required readWord fun magic =>
          if magic ≠ workerMagic2 then pure none
          else
            required readWord fun version =>
              if min version protocolVersion < protocolVersion then pure none
              else if !sent 1 then pure none
              else
                required skipStrings fun _ =>
                  if !sent 2 then pure none
                  else required readString fun _ => required readWord fun _ => pure (some ())
  | addToStore | submitOutput => if sent 0 then pure (some ()) else pure none

/-- The part of a call behind the log messages. `AddToStore` reads a `ValidPathInfo`: path,
deriver, narHash, references, time, size, ultimate, signatures and content address. -/
def Call.fields : Call → Reads (Option Bytes)
  | connect => pure (some [])
  | addToStore =>
      required readString fun path => required readString fun _ => required readString fun _ =>
        required skipStrings fun _ => required readWord fun _ => required readWord fun _ =>
          required readWord fun _ => required skipStrings fun _ => required readString fun _ =>
            pure (some path)
  | submitOutput => required readWord fun _ => pure (some [])

/-- `Connect` from the handshake on, `AddToStore` and `SubmitOutput`; `none` is failure. -/
def Call.program (call : Call) (sent : Nat → Bool) (fuel : Nat) : Reads (Option Bytes) :=
  required (call.opening sent) fun _ => required (drainStderr fuel) fun _ => call.fields

/-- The number in front of a stream. -/
def headWord (s : Bytes) : Nat := leNat (s.take wordBytes)

/-- How many bytes the string in front of a stream takes. -/
def textSpan (s : Bytes) : Nat := wordBytes + (headWord s + padding (headWord s))

section Run

variable {α β : Type} {s : Bytes}

theorem run_readBytes_of_le {n : Nat} (h : n ≤ s.length) :
    (readBytes n).run s = ⟨some (s.take n), s.drop n, 0⟩ :=
  run_ask_of_le h _

theorem run_readBytes_of_lt {n : Nat} (h : s.length < n) : (readBytes n).run s = ⟨none, [], 1⟩ :=
  run_ask_of_lt h _

theorem run_readWord_of_le (h : wordBytes ≤ s.length) :
    readWord.run s = ⟨some (headWord s), s.drop wordBytes, 0⟩ := by
  rw [readWord, run_bind, run_readBytes_of_le h]
  rfl

theorem run_readWord_of_lt (h : s.length < wordBytes) : readWord.run s = ⟨none, [], 1⟩ := by
  rw [readWord, run_bind, run_readBytes_of_lt h]
  rfl

theorem run_required_none {p : Reads (Option α)} {rest : Bytes} {failed : Nat}
    (h : p.run s = ⟨none, rest, failed⟩) (next : α → Reads (Option β)) :
    (required p next).run s = ⟨none, rest, failed⟩ := by
  rw [required, run_bind, h]
  rfl

theorem run_required_some {p : Reads (Option α)} {a : α} {rest : Bytes}
    (h : p.run s = ⟨some a, rest, 0⟩) (next : α → Reads (Option β)) :
    (required p next).run s = (next a).run rest := by
  rw [required, run_bind, h]
  simp [Outcome.after]

theorem run_readString_of_short (h : s.length < wordBytes) :
    readString.run s = ⟨none, [], 1⟩ :=
  run_required_none (run_readWord_of_lt h) _

theorem run_readString_of_large (h : wordBytes ≤ s.length) (hmax : maxString < headWord s) :
    readString.run s = ⟨none, s.drop wordBytes, 0⟩ := by
  rw [readString, run_required_some (run_readWord_of_le h), if_pos hmax]
  rfl

theorem run_readString_of_le (h : textSpan s ≤ s.length) (hmax : headWord s ≤ maxString) :
    readString.run s =
      ⟨some ((s.drop wordBytes).take (headWord s)), s.drop (textSpan s), 0⟩ := by
  unfold textSpan at h
  have hword : wordBytes ≤ s.length := by omega
  have htext : headWord s ≤ (s.drop wordBytes).length := by
    rw [List.length_drop]
    omega
  have hpad : padding (headWord s) ≤ ((s.drop wordBytes).drop (headWord s)).length := by
    rw [List.length_drop, List.length_drop]
    omega
  rw [readString, run_required_some (run_readWord_of_le hword), if_neg (Nat.not_lt.mpr hmax),
    run_required_some (run_readBytes_of_le htext), run_required_some (run_readBytes_of_le hpad),
    List.drop_drop, List.drop_drop]
  rfl

theorem run_readString_of_cut (h : wordBytes ≤ s.length) (hcut : s.length < textSpan s)
    (hmax : headWord s ≤ maxString) : readString.run s = ⟨none, [], 1⟩ := by
  unfold textSpan at hcut
  rw [readString, run_required_some (run_readWord_of_le h), if_neg (Nat.not_lt.mpr hmax)]
  by_cases htext : headWord s ≤ (s.drop wordBytes).length
  · have hpad : ((s.drop wordBytes).drop (headWord s)).length < padding (headWord s) := by
      rw [List.length_drop] at htext
      rw [List.length_drop, List.length_drop]
      omega
    rw [run_required_some (run_readBytes_of_le htext),
      run_required_none (run_readBytes_of_lt hpad)]
  · exact run_required_none (run_readBytes_of_lt (Nat.not_le.mp htext)) _

end Run

/-- A program that asks for nothing more after a failed request, and fails then. -/
def Stops {α : Type} (p : Reads (Option α)) : Prop :=
  ∀ s, (p.run s).failed = 0 ∨ (p.run s).failed = 1 ∧ (p.run s).value = none

namespace Stops

variable {α β : Type}

theorem pure (a : Option α) : Stops (Pure.pure a : Reads (Option α)) := fun _ => Or.inl rfl

theorem readBytes (n : Nat) : Stops (readBytes n) := by
  intro s
  by_cases h : n ≤ s.length
  · rw [run_readBytes_of_le h]
    exact Or.inl rfl
  · rw [run_readBytes_of_lt (Nat.not_le.mp h)]
    exact Or.inr ⟨rfl, rfl⟩

theorem readWord : Stops readWord := by
  intro s
  by_cases h : wordBytes ≤ s.length
  · rw [run_readWord_of_le h]
    exact Or.inl rfl
  · rw [run_readWord_of_lt (Nat.not_le.mp h)]
    exact Or.inr ⟨rfl, rfl⟩

theorem ite {c : Prop} [Decidable c] {p q : Reads (Option α)} (hp : Stops p) (hq : Stops q) :
    Stops (if c then p else q) := by
  split
  · exact hp
  · exact hq

/-- How a program ends that stops. -/
theorem cases {p : Reads (Option α)} (hp : Stops p) (s : Bytes) :
    (∃ a rest, p.run s = ⟨some a, rest, 0⟩) ∨ ∃ rest failed, p.run s = ⟨none, rest, failed⟩ ∧
      failed ≤ 1 := by
  cases hrun : p.run s with
  | mk value rest failed =>
      have hs := hp s
      rw [hrun] at hs
      cases value with
      | none => exact Or.inr ⟨rest, failed, rfl, by simp only at hs; omega⟩
      | some a =>
          obtain rfl : failed = 0 := hs.resolve_right fun h => by cases h.2
          exact Or.inl ⟨a, rest, rfl⟩

theorem required {p : Reads (Option α)} {next : α → Reads (Option β)} (hp : Stops p)
    (hnext : ∀ a, Stops (next a)) : Stops (required p next) := by
  intro s
  rcases hp.cases s with ⟨a, rest, hrun⟩ | ⟨rest, failed, hrun, hle⟩
  · rw [run_required_some hrun]
    exact hnext a rest
  · rw [run_required_none hrun]
    rcases Nat.le_one_iff_eq_zero_or_eq_one.mp hle with rfl | rfl
    · exact Or.inl rfl
    · exact Or.inr ⟨rfl, rfl⟩

theorem readString : Stops readString :=
  required readWord fun size => ite (pure none) <|
    required (readBytes size) fun _ => required (readBytes _) fun _ => pure _

theorem skipStringsFrom (count : Nat) : Stops (skipStringsFrom count) := by
  induction count with
  | zero => exact pure _
  | succ count ih => exact required readString fun _ => ih

theorem skipStrings : Stops skipStrings := required readWord skipStringsFrom

theorem opening (sent : Nat → Bool) (call : Call) : Stops (call.opening sent) := by
  cases call with
  | connect =>
      exact ite (pure none) <| required readWord fun _ => ite (pure none) <|
        required readWord fun _ => ite (pure none) <| ite (pure none) <|
          required skipStrings fun _ => ite (pure none) <|
            required readString fun _ => required readWord fun _ => pure _
  | addToStore => exact ite (pure _) (pure none)
  | submitOutput => exact ite (pure _) (pure none)

theorem fields (call : Call) : Stops call.fields := by
  cases call with
  | connect => exact pure _
  | addToStore =>
      exact required readString fun _ => required readString fun _ => required readString fun _ =>
        required skipStrings fun _ => required readWord fun _ => required readWord fun _ =>
          required readWord fun _ => required skipStrings fun _ => required readString fun _ =>
            pure _
  | submitOutput => exact required readWord fun _ => pure _

end Stops

end Repkgs.Jig.Daemon
