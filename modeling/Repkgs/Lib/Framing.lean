import Mathlib.Data.List.Infix
import Repkgs.Lib.Bytes

/-!
# Self-delimiting records

An append-only file is a sequence of records, each of which says where it ends.
`readAll` takes whole records off the front and stops at the first byte string
that holds none, so a file cut at any byte gives a first part of its records.
-/

namespace Repkgs.Lib

/-- Exactly `n` bytes off the front, or nothing. -/
def readFull (n : Nat) (bs : Bytes) : Option (Bytes × Bytes) :=
  if n ≤ bs.length then some (bs.take n, bs.drop n) else none

theorem readFull_append {n : Nat} {bs : Bytes} (h : bs.length = n) (rest : Bytes) :
    readFull n (bs ++ rest) = some (bs, rest) := by
  subst h
  simp [readFull]

theorem of_readFull {n : Nat} {bs front rest : Bytes} (h : readFull n bs = some (front, rest)) :
    front.length = n ∧ bs = front ++ rest := by
  unfold readFull at h
  split at h
  · next hle =>
      obtain ⟨rfl, rfl⟩ := Prod.mk.inj (Option.some.inj h)
      exact ⟨List.length_take_of_le hle, (List.take_append_drop n bs).symm⟩
  · cases h

/-- A record format. `read` takes one record off the front of a byte string. -/
structure Format (α : Type*) where
  write : α → Bytes
  read : Bytes → Option (α × Bytes)
  Fits : α → Prop
  write_ne_nil : ∀ a, write a ≠ []
  read_write : ∀ {a}, Fits a → ∀ rest, read (write a ++ rest) = some (a, rest)
  of_read : ∀ {bs a rest}, read bs = some (a, rest) → Fits a ∧ bs = write a ++ rest

namespace Format

variable {α : Type*} (fmt : Format α)

/-- The records written one after the other. -/
def writeAll (as : List α) : Bytes := (as.map fmt.write).flatten

/-- Read at most `fuel` records. -/
def readUpTo : Nat → Bytes → List α × Bytes
  | 0, bs => ([], bs)
  | fuel + 1, bs =>
      match fmt.read bs with
      | none => ([], bs)
      | some (a, rest) => (a :: (readUpTo fuel rest).1, (readUpTo fuel rest).2)

/-- All whole records from the front, and the bytes after the last of them. -/
def readAll (bs : Bytes) : List α × Bytes := fmt.readUpTo bs.length bs

/-- A record that was not written to its end. -/
def Torn (tail : Bytes) : Prop := ∃ a, fmt.Fits a ∧ tail <+: fmt.write a ∧ tail ≠ fmt.write a

@[simp] theorem writeAll_nil : fmt.writeAll [] = [] := rfl

@[simp] theorem writeAll_cons (a : α) (as : List α) :
    fmt.writeAll (a :: as) = fmt.write a ++ fmt.writeAll as := by
  simp [writeAll]

@[simp] theorem writeAll_append (as bs : List α) :
    fmt.writeAll (as ++ bs) = fmt.writeAll as ++ fmt.writeAll bs := by
  simp [writeAll]

variable {fmt}

theorem read_length_lt {bs rest : Bytes} {a : α} (h : fmt.read bs = some (a, rest)) :
    rest.length < bs.length := by
  obtain ⟨-, rfl⟩ := fmt.of_read h
  have hpos := List.length_pos_iff.mpr (fmt.write_ne_nil a)
  rw [List.length_append]
  omega

theorem readUpTo_congr {m n : Nat} {bs : Bytes} (hm : bs.length ≤ m) (hn : bs.length ≤ n) :
    fmt.readUpTo m bs = fmt.readUpTo n bs := by
  induction m generalizing n bs with
  | zero =>
      have hnil : fmt.read bs = none := by
        cases hread : fmt.read bs with
        | none => rfl
        | some r => exact absurd (read_length_lt hread) (by omega)
      cases n <;> simp [readUpTo, hnil]
  | succ m ih =>
      cases hread : fmt.read bs with
      | none => cases n <;> simp [readUpTo, hread]
      | some r =>
          have hlt := read_length_lt hread
          obtain ⟨k, rfl⟩ := Nat.exists_eq_succ_of_ne_zero (show n ≠ 0 by omega)
          have hrest : fmt.readUpTo m r.2 = fmt.readUpTo k r.2 := ih (by omega) (by omega)
          simp [readUpTo, hread, hrest]

theorem readAll_of_none {bs : Bytes} (h : fmt.read bs = none) : fmt.readAll bs = ([], bs) := by
  cases hlen : bs.length <;> simp [readAll, readUpTo, h, hlen]

theorem readAll_of_some {bs rest : Bytes} {a : α} (h : fmt.read bs = some (a, rest)) :
    fmt.readAll bs = (a :: (fmt.readAll rest).1, (fmt.readAll rest).2) := by
  have hlt := read_length_lt h
  obtain ⟨n, hn⟩ := Nat.exists_eq_succ_of_ne_zero (show bs.length ≠ 0 by omega)
  have hrest : fmt.readUpTo n rest = fmt.readAll rest :=
    readUpTo_congr (by omega) (Nat.le_refl _)
  rw [← hrest]
  simp [readAll, readUpTo, h, hn]

variable (fmt) in
/-- Reading loses no byte, and what is left holds no whole record. -/
theorem readAll_spec (bs : Bytes) :
    (∀ a ∈ (fmt.readAll bs).1, fmt.Fits a) ∧
      bs = fmt.writeAll (fmt.readAll bs).1 ++ (fmt.readAll bs).2 ∧
      fmt.read (fmt.readAll bs).2 = none := by
  induction hlen : bs.length using Nat.strong_induction_on generalizing bs with
  | _ n ih =>
      cases hread : fmt.read bs with
      | none =>
          rw [readAll_of_none hread]
          exact ⟨by simp, rfl, hread⟩
      | some r =>
          obtain ⟨a, rest⟩ := r
          obtain ⟨hfits, hbs⟩ := fmt.of_read hread
          obtain ⟨hall, heq, hnone⟩ := ih rest.length (hlen ▸ read_length_lt hread) rest rfl
          rw [readAll_of_some hread]
          refine ⟨?_, ?_, hnone⟩
          · intro b hb
            rcases List.mem_cons.mp hb with rfl | hb
            · exact hfits
            · exact hall b hb
          · rw [writeAll_cons, List.append_assoc, ← heq]
            exact hbs

theorem readAll_writeAll_append {as : List α} (h : ∀ a ∈ as, fmt.Fits a) (tail : Bytes) :
    fmt.readAll (fmt.writeAll as ++ tail) =
      (as ++ (fmt.readAll tail).1, (fmt.readAll tail).2) := by
  induction as with
  | nil => rfl
  | cons a as ih =>
      have ha := fmt.read_write (h a (.head _)) (fmt.writeAll as ++ tail)
      have has := ih fun b hb => h b (.tail _ hb)
      rw [writeAll_cons, List.append_assoc, readAll_of_some ha, has]
      rfl

theorem readAll_writeAll {as : List α} (h : ∀ a ∈ as, fmt.Fits a) :
    fmt.readAll (fmt.writeAll as) = (as, []) := by
  have hall := readAll_writeAll_append h []
  simpa [readAll, readUpTo] using hall

variable (fmt) in
/-- A cut file holds a first part of the records. -/
theorem readAll_prefix {p q : Bytes} (h : p <+: q) :
    (fmt.readAll p).1 <+: (fmt.readAll q).1 := by
  obtain ⟨ext, rfl⟩ := h
  obtain ⟨hfits, heq, -⟩ := fmt.readAll_spec p
  have hq : p ++ ext =
      fmt.writeAll (fmt.readAll p).1 ++ ((fmt.readAll p).2 ++ ext) := by
    rw [← List.append_assoc, ← heq]
  rw [hq, readAll_writeAll_append hfits]
  exact List.prefix_append _ _

/-- A torn record is no record, and neither is any first part of it. -/
theorem Torn.read_eq_none {tail : Bytes} (h : fmt.Torn tail) : fmt.read tail = none := by
  obtain ⟨a, hfits, ⟨ext, hext⟩, hne⟩ := h
  cases hread : fmt.read tail with
  | none => rfl
  | some r =>
      obtain ⟨b, rest⟩ := r
      obtain ⟨hb, htail⟩ := fmt.of_read hread
      have hwhole : fmt.write b ++ (rest ++ ext) = fmt.write a ++ [] := by
        rw [← List.append_assoc, ← htail, hext, List.append_nil]
      have hsame := (fmt.read_write hb (rest ++ ext)).symm.trans
        (hwhole ▸ fmt.read_write hfits [])
      have hrest : rest ++ ext = [] := (Prod.mk.inj (Option.some.inj hsame)).2
      rw [List.append_eq_nil_iff] at hrest
      rw [hrest.2, List.append_nil] at hext
      exact absurd hext hne

theorem torn_nil {a : α} (h : fmt.Fits a) : fmt.Torn [] :=
  ⟨a, h, List.nil_prefix, (fmt.write_ne_nil a).symm⟩

/-- Whatever part of whole records and a torn one is left, the whole records
read from it are a first part of those written. -/
theorem readAll_prefix_of_torn {as : List α} {p tail : Bytes} (hfits : ∀ a ∈ as, fmt.Fits a)
    (htorn : fmt.Torn tail) (hp : p <+: fmt.writeAll as ++ tail) :
    (fmt.readAll p).1 <+: as := by
  have hpre := fmt.readAll_prefix hp
  rw [readAll_writeAll_append hfits, readAll_of_none htorn.read_eq_none] at hpre
  simpa using hpre

end Format

end Repkgs.Lib
