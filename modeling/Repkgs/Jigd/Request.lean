import Mathlib.Data.List.Infix
import Repkgs.Lib.Decimal

/-!
# Request lines

`serve` cuts a line into fields and dispatches on their number and the first
word. `strings.Fields` separates at Unicode white space; a white-space rune
starts with a byte that no other rune continues with, so the scan can go byte
by byte.
-/

namespace Repkgs.Jigd

open Lib

/-- Length of the white-space rune at the start of the text, `0` if there is none. -/
def spaceLen : Bytes → Nat
  | 0xC2 :: b :: _ => if b = 0x85 ∨ b = 0xA0 then 2 else 0
  | 0xE1 :: b :: c :: _ => if b = 0x9A ∧ c = 0x80 then 3 else 0
  | 0xE2 :: b :: c :: _ =>
      if (b = 0x80 ∧ (0x80 ≤ c ∧ c ≤ 0x8A ∨ c = 0xA8 ∨ c = 0xA9 ∨ c = 0xAF)) ∨
          (b = 0x81 ∧ c = 0x9F) then 3 else 0
  | 0xE3 :: b :: c :: _ => if b = 0x80 ∧ c = 0x80 then 3 else 0
  | b :: _ => if b = 0x20 ∨ (0x09 ≤ b ∧ b ≤ 0x0D) then 1 else 0
  | [] => 0

/-- Append the word read so far, unless it is empty. -/
def flushWord (word : Bytes) (rest : List Bytes) : List Bytes :=
  if word.isEmpty then rest else word :: rest

def fieldsLoop : Nat → Bytes → Bytes → List Bytes
  | 0, word, _ => flushWord word []
  | _ + 1, word, [] => flushWord word []
  | n + 1, word, b :: rest =>
      match spaceLen (b :: rest) with
      | 0 => fieldsLoop n (word ++ [b]) rest
      | k + 1 => flushWord word (fieldsLoop n [] (rest.drop k))

/-- `strings.Fields`. -/
def fields (line : Bytes) : List Bytes := fieldsLoop line.length [] line

/-- Value of a non-empty run of decimal digits. -/
def parseDigits (text : Bytes) : Option Nat :=
  if text.isEmpty then none
  else text.foldl (fun acc b => acc.bind fun n =>
    if 0x30 ≤ b ∧ b ≤ 0x39 then some (n * 10 + (b.toNat - 0x30)) else none) (some 0)

/-- `strconv.ParseInt(text, 10, 64)`. -/
def parseInt (text : Bytes) : Option Int :=
  match text with
  | 0x2D :: ds => (parseDigits ds).bind fun n => if n ≤ 2 ^ 63 then some (-n) else none
  | 0x2B :: ds => (parseDigits ds).bind fun n => if n < 2 ^ 63 then some n else none
  | ds => (parseDigits ds).bind fun n => if n < 2 ^ 63 then some n else none

/-- `bufio.NewReaderSize(conn, 1<<16)`. -/
def readerSize : Nat := 2 ^ 16

inductive Request
  | get (key : Bytes)
  | has (key : Bytes)
  | put (key : Bytes) (size : Int)
  | ids (count : Nat)
  | slot (build : Bytes)
  | done (build : Bytes)
  | stats
  | malformed
  deriving DecidableEq, Repr

/-- The switch of `serve`. A malformed number and every unknown line hang up. -/
def parseRequest (line : Bytes) : Request :=
  match fields line with
  | [cmd] => if cmd = ascii "STATS" then .stats else .malformed
  | [cmd, arg] =>
      if cmd = ascii "GET" then .get arg
      else if cmd = ascii "HAS" then .has arg
      else if cmd = ascii "IDS" then
        match parseInt arg with
        | some n => if 0 ≤ n ∧ n ≤ 2 ^ 20 then .ids n.toNat else .malformed
        | none => .malformed
      else if cmd = ascii "SLOT" then .slot arg
      else if cmd = ascii "DONE" then .done arg
      else .malformed
  | [cmd, key, size] =>
      if cmd = ascii "PUT" then
        match parseInt size with
        | some n => .put key n
        | none => .malformed
      else .malformed
  | _ => .malformed

/-- A non-empty text without white space. -/
def IsWord (w : Bytes) : Prop := w ≠ [] ∧ ∀ s ∈ w.tails, spaceLen s = 0

instance (w : Bytes) : Decidable (IsWord w) := inferInstanceAs (Decidable (_ ∧ _))

/-- Words with one blank between them. -/
def joinWords : List Bytes → Bytes
  | [] => []
  | [w] => w
  | w :: ws => w ++ 0x20 :: joinWords ws

theorem spaceLen_of_ne {b : Byte} (h2 : b ≠ 0xC2) (h1 : b ≠ 0xE1) (h3 : b ≠ 0xE2) (h4 : b ≠ 0xE3)
    (t : Bytes) : spaceLen (b :: t) = if b = 0x20 ∨ (0x09 ≤ b ∧ b ≤ 0x0D) then 1 else 0 := by
  unfold spaceLen
  split <;> simp_all

theorem joinWords_cons_cons (w v : Bytes) (vs : List Bytes) :
    joinWords (w :: v :: vs) = w ++ 0x20 :: joinWords (v :: vs) := rfl

/-- A blank ends no rune that was begun before it. -/
theorem spaceLen_append {s : Bytes} (hs : s ≠ []) (h : spaceLen s = 0) (rest : Bytes) :
    spaceLen (s ++ 0x20 :: rest) = 0 := by
  obtain ⟨b, t, rfl⟩ := List.exists_cons_of_ne_nil hs
  rw [List.cons_append]
  by_cases h2 : b = 0xC2
  · subst h2
    cases t with
    | nil => rfl
    | cons c t => exact h
  by_cases h1 : b = 0xE1
  · subst h1
    rcases t with _ | ⟨c, _ | ⟨d, t⟩⟩
    · cases rest <;> rfl
    · simp [spaceLen]
    · exact h
  by_cases h3 : b = 0xE2
  · subst h3
    rcases t with _ | ⟨c, _ | ⟨d, t⟩⟩
    · cases rest <;> simp [spaceLen]
    · simp [spaceLen]
    · exact h
  by_cases h4 : b = 0xE3
  · subst h4
    rcases t with _ | ⟨c, _ | ⟨d, t⟩⟩
    · cases rest <;> rfl
    · simp [spaceLen]
    · exact h
  rw [spaceLen_of_ne h2 h1 h3 h4] at h ⊢
  exact h

theorem fieldsLoop_word (w rest : Bytes) (h : ∀ s, s ≠ [] → s <:+ w → spaceLen (s ++ rest) = 0)
    (n : Nat) (acc : Bytes) :
    fieldsLoop (w.length + n) acc (w ++ rest) = fieldsLoop n (acc ++ w) rest := by
  induction w generalizing acc with
  | nil => simp
  | cons b w ih =>
      have hb : spaceLen (b :: (w ++ rest)) = 0 :=
        h (b :: w) (List.cons_ne_nil b w) (List.suffix_refl _)
      have hrest := ih (fun s hs hsuf => h s hs (hsuf.trans (List.suffix_cons b w))) (acc ++ [b])
      rw [List.append_assoc] at hrest
      rw [show (b :: w).length + n = (w.length + n) + 1 by rw [List.length_cons]; omega,
        List.cons_append, fieldsLoop, hb]
      exact hrest

theorem fields_joinWords (ws : List Bytes) (h : ∀ w ∈ ws, IsWord w) :
    fields (joinWords ws) = ws := by
  induction ws with
  | nil => rfl
  | cons w ws ih =>
      obtain ⟨hne, hspace⟩ := h w (.head _)
      have hrest := ih fun v hv => h v (.tail _ hv)
      cases ws with
      | nil =>
          have hloop := fieldsLoop_word w [] (fun s _ hs => by
            rw [List.append_nil]
            exact hspace s ((List.mem_tails ..).mpr hs)) 0 []
          rw [List.append_nil, Nat.add_zero, List.nil_append] at hloop
          rw [joinWords, fields, hloop, fieldsLoop, flushWord, if_neg (by simpa using hne)]
      | cons v vs =>
          have hloop := fieldsLoop_word w (0x20 :: joinWords (v :: vs))
            (fun s hs hsuf => spaceLen_append hs (hspace s ((List.mem_tails ..).mpr hsuf)) _)
            ((joinWords (v :: vs)).length + 1) []
          have hblank : spaceLen (0x20 :: joinWords (v :: vs)) = 1 :=
            spaceLen_of_ne (by decide) (by decide) (by decide) (by decide) _
          rw [joinWords_cons_cons, fields, List.length_append, List.length_cons, hloop,
            List.nil_append, fieldsLoop, hblank]
          change flushWord w (fields (joinWords (v :: vs))) = _
          rw [hrest, flushWord, if_neg (by simpa using hne)]

theorem isWord_decimal (n : Nat) : IsWord (decimal n) := by
  refine ⟨decimal_ne_nil n, fun s hs => ?_⟩
  cases s with
  | nil => rfl
  | cons b t =>
      have hb := isDigit_of_mem_decimal (((List.mem_tails ..).mp hs).subset (.head _))
      have hdigit : 48 ≤ b ∧ b ≤ 57 := by simpa [isDigit] using hb
      have hne : ∀ c : Byte, ¬ (48 ≤ c ∧ c ≤ 57) → b ≠ c := by
        rintro c hc rfl
        exact hc hdigit
      rw [spaceLen_of_ne (hne _ (by decide)) (hne _ (by decide)) (hne _ (by decide))
        (hne _ (by decide)), if_neg]
      rintro (rfl | ⟨-, hle⟩)
      · exact hne _ (by decide) rfl
      · exact absurd (UInt8.le_trans hdigit.1 hle) (by decide)

theorem parseDigits_eq {ds : Bytes} (hne : ds ≠ []) (h : ∀ b ∈ ds, isDigit b = true) :
    parseDigits ds = some (parseDecimal ds) := by
  have hloop : ∀ (ds : Bytes) (n : Nat), (∀ b ∈ ds, isDigit b = true) →
      ds.foldl (fun acc b => acc.bind fun n =>
        if 0x30 ≤ b ∧ b ≤ 0x39 then some (n * 10 + (b.toNat - 0x30)) else none) (some n) =
      some (ds.foldl (fun n b => 10 * n + (b.toNat - 48)) n) := by
    intro ds
    induction ds with
    | nil => exact fun n _ => rfl
    | cons b ds ih =>
        intro n hds
        have hb : 0x30 ≤ b ∧ b ≤ 0x39 := by
          simpa [isDigit] using hds b (.head _)
        rw [List.foldl_cons, List.foldl_cons, Option.bind_some, if_pos hb,
          ih _ fun c hc => hds c (.tail _ hc), Nat.mul_comm n 10]
  rw [parseDigits, if_neg (by simpa using hne), hloop ds 0 h, parseDecimal]

theorem parseInt_decimal {n : Nat} (h : n < 2 ^ 63) : parseInt (decimal n) = some (n : Int) := by
  have hdigits := parseDigits_eq (decimal_ne_nil n) fun b hb => isDigit_of_mem_decimal hb
  rw [parseDecimal_decimal] at hdigits
  obtain ⟨b, ds, hds⟩ := List.exists_cons_of_ne_nil (decimal_ne_nil n)
  have hb : isDigit b = true := isDigit_of_mem_decimal (hds ▸ List.mem_cons_self ..)
  have hsign : b ≠ 0x2D ∧ b ≠ 0x2B := by
    constructor
    all_goals
      rintro rfl
      exact absurd hb (by decide)
  rw [hds] at hdigits ⊢
  unfold parseInt
  split
  · rename_i heq
    exact absurd (List.cons.inj heq).1 hsign.1
  · rename_i heq
    exact absurd (List.cons.inj heq).1 hsign.2
  · rw [hdigits, Option.bind_some, if_pos h]

theorem fields_two {arg : Bytes} (h : IsWord arg) (cmd : Bytes) (hcmd : IsWord cmd) :
    fields (cmd ++ 0x20 :: arg) = [cmd, arg] :=
  fields_joinWords [cmd, arg] (by simp [hcmd, h])

theorem parseRequest_ids {count : Nat} (h : count ≤ 2 ^ 20) :
    parseRequest (ascii "IDS " ++ decimal count) = .ids count := by
  have hfields : fields (ascii "IDS " ++ decimal count) = [ascii "IDS", decimal count] :=
    fields_two (isWord_decimal count) (ascii "IDS") (by decide)
  have hsmall : count < 2 ^ 63 := h.trans_lt (by decide)
  have hrange : (0 : Int) ≤ count ∧ (count : Int) ≤ 2 ^ 20 := by omega
  rw [parseRequest, hfields]
  simp only [parseInt_decimal hsmall, if_pos hrange]
  rfl

example : parseRequest (ascii "SLOT  b1 ") = .slot (ascii "b1") := by decide

example : parseRequest (ascii "PUT k -3") = .put (ascii "k") (-3) := by decide

end Repkgs.Jigd
