import Mathlib.Data.List.Sort
import Repkgs.Lib.Decimal
import Repkgs.Lib.Framing
import Repkgs.Lib.LittleEndian

/-!
# Pack and hint files

A pack is a sequence of records `u32 keylen, u32 vallen, key, value`; a hint
file holds the same records without the value, with the `u64` offset of the
record in the pack. File names are the decimal pack id, padded to six digits.
-/

namespace Repkgs.Jigd

open Lib

def packLimit : Nat := 256 * 2 ^ 20

def recHeader : Nat := 8

def spoolMin : Nat := 4 * 2 ^ 20

/-- One key with its value, as stored in a pack. -/
structure Record where
  key : Bytes
  value : Bytes
  deriving DecidableEq, Repr

/-- What `Put` writes before the value. -/
def Record.header (key : Bytes) (size : Nat) : Bytes :=
  leBytes 4 key.length ++ leBytes 4 size ++ key

def Record.write (r : Record) : Bytes := Record.header r.key r.value.length ++ r.value

/-- One turn of the scan loop of `load`: header, key, value. -/
def Record.read (bs : Bytes) : Option (Record × Bytes) := do
  let (hdr, bs) ← readFull recHeader bs
  let (key, bs) ← readFull (leNat (hdr.take 4)) bs
  let (value, bs) ← readFull (leNat (hdr.drop 4)) bs
  some (⟨key, value⟩, bs)

/-- Both lengths fit their `u32` fields. -/
def Record.Fits (r : Record) : Prop := r.key.length < 256 ^ 4 ∧ r.value.length < 256 ^ 4

/-- One entry of a hint file. -/
structure HintEntry where
  key : Bytes
  vlen : Nat
  off : Nat
  deriving DecidableEq, Repr

def HintEntry.write (e : HintEntry) : Bytes :=
  leBytes 4 e.key.length ++ leBytes 4 e.vlen ++ leBytes 8 e.off ++ e.key

/-- One turn of the hint loop of `load`. -/
def HintEntry.read (bs : Bytes) : Option (HintEntry × Bytes) := do
  let (hdr, bs) ← readFull (recHeader + 8) bs
  let (key, bs) ← readFull (leNat (hdr.take 4)) bs
  some (⟨key, leNat ((hdr.drop 4).take 4), leNat (hdr.drop 8)⟩, bs)

def HintEntry.Fits (e : HintEntry) : Prop :=
  e.key.length < 256 ^ 4 ∧ e.vlen < 256 ^ 4 ∧ e.off < 256 ^ 8

theorem Record.read_write {r : Record} (h : r.Fits) (rest : Bytes) :
    Record.read (r.write ++ rest) = some (r, rest) := by
  have hsplit : r.write ++ rest = (leBytes 4 r.key.length ++ leBytes 4 r.value.length) ++
      (r.key ++ (r.value ++ rest)) := by
    simp [Record.write, Record.header]
  have hhdr : readFull recHeader (r.write ++ rest) =
      some (leBytes 4 r.key.length ++ leBytes 4 r.value.length, r.key ++ (r.value ++ rest)) := by
    rw [hsplit]
    exact readFull_append (by simp [recHeader]) _
  have hklen := leNat_leBytes h.1
  have hvlen := leNat_leBytes h.2
  simp [Record.read, hhdr, hklen, hvlen, readFull_append]

theorem Record.of_read {bs rest : Bytes} {r : Record} (h : Record.read bs = some (r, rest)) :
    r.Fits ∧ bs = r.write ++ rest := by
  simp only [Record.read, Option.bind_eq_bind, Option.bind_eq_some_iff] at h
  obtain ⟨⟨hdr, bs₁⟩, h₁, ⟨key, bs₂⟩, h₂, ⟨value, bs₃⟩, h₃, h₄⟩ := h
  cases h₄
  obtain ⟨hhdr, rfl⟩ := of_readFull h₁
  obtain ⟨hkey, rfl⟩ := of_readFull h₂
  obtain ⟨hvalue, rfl⟩ := of_readFull h₃
  simp only [recHeader] at hhdr hkey hvalue
  have htake : (hdr.take 4).length = 4 := by simp [hhdr]
  have hdrop : (hdr.drop 4).length = 4 := by simp [hhdr]
  refine ⟨⟨?_, ?_⟩, ?_⟩
  · rw [hkey]
    exact leNat_lt htake
  · rw [hvalue]
    exact leNat_lt hdrop
  · simp only [Record.write, Record.header, hkey, hvalue, leBytes_leNat htake,
      leBytes_leNat hdrop, List.take_append_drop, List.append_assoc]

/-- The records of a pack file. -/
def recordFormat : Format Record where
  write := Record.write
  read := Record.read
  Fits := Record.Fits
  write_ne_nil r := by simp [Record.write, Record.header, leBytes]
  read_write := Record.read_write
  of_read := Record.of_read

theorem HintEntry.read_write {e : HintEntry} (h : e.Fits) (rest : Bytes) :
    HintEntry.read (e.write ++ rest) = some (e, rest) := by
  have hsplit : e.write ++ rest =
      (leBytes 4 e.key.length ++ (leBytes 4 e.vlen ++ leBytes 8 e.off)) ++ (e.key ++ rest) := by
    simp [HintEntry.write]
  have hhdr : readFull (recHeader + 8) (e.write ++ rest) =
      some (leBytes 4 e.key.length ++ (leBytes 4 e.vlen ++ leBytes 8 e.off), e.key ++ rest) := by
    rw [hsplit]
    exact readFull_append (by simp [recHeader]) _
  have hklen := leNat_leBytes h.1
  have hvlen := leNat_leBytes h.2.1
  have hoff := leNat_leBytes h.2.2
  have htail : (leBytes 4 e.key.length ++ (leBytes 4 e.vlen ++ leBytes 8 e.off)).drop 8 =
      leBytes 8 e.off := by
    rw [← List.append_assoc, List.drop_left' (by simp)]
  simp [HintEntry.read, hhdr, hklen, hvlen, htail, hoff, readFull_append]

theorem HintEntry.of_read {bs rest : Bytes} {e : HintEntry}
    (h : HintEntry.read bs = some (e, rest)) : e.Fits ∧ bs = e.write ++ rest := by
  simp only [HintEntry.read, Option.bind_eq_bind, Option.bind_eq_some_iff] at h
  obtain ⟨⟨hdr, bs₁⟩, h₁, ⟨key, bs₂⟩, h₂, h₃⟩ := h
  cases h₃
  obtain ⟨hhdr, rfl⟩ := of_readFull h₁
  obtain ⟨hkey, rfl⟩ := of_readFull h₂
  simp only [recHeader] at hhdr hkey
  have hlen₁ : (hdr.take 4).length = 4 := by simp [hhdr]
  have hlen₂ : ((hdr.drop 4).take 4).length = 4 := by simp [hhdr]
  have hlen₃ : (hdr.drop 8).length = 8 := by simp [hhdr]
  refine ⟨⟨?_, leNat_lt hlen₂, leNat_lt hlen₃⟩, ?_⟩
  · rw [hkey]
    exact leNat_lt hlen₁
  · have hdr_eq : hdr = hdr.take 4 ++ ((hdr.drop 4).take 4 ++ hdr.drop 8) := by
      rw [show hdr.drop 8 = (hdr.drop 4).drop 4 by rw [List.drop_drop], List.take_append_drop,
        List.take_append_drop]
    simp only [HintEntry.write, hkey, leBytes_leNat hlen₁, leBytes_leNat hlen₂,
      leBytes_leNat hlen₃]
    nth_rewrite 1 [hdr_eq]
    simp only [List.append_assoc]

/-- The entries of a hint file. -/
def hintFormat : Format HintEntry where
  write := HintEntry.write
  read := HintEntry.read
  Fits := HintEntry.Fits
  write_ne_nil e := by simp [HintEntry.write, leBytes]
  read_write := HintEntry.read_write
  of_read := HintEntry.of_read

/-- `%06d`: the digits, padded with zeros to six of them. -/
def paddedDigits (n : Nat) : Bytes :=
  List.replicate (6 - (digits n).length) 48 ++ digits n

/-- `fmt.Sprintf("%06d.pack", id)`. -/
def packName (id : Nat) : Bytes := paddedDigits id ++ ascii ".pack"

/-- `fmt.Sscanf(name, "%06d.pack", &id)`: the width makes the verb read at most
six digits, and the literal has to follow them. -/
def scanPackName (name : Bytes) : Option Nat :=
  let ds := (name.take 6).takeWhile isDigit
  if ds ≠ [] ∧ (ascii ".pack").isPrefixOf (name.drop ds.length) then some (parseDecimal ds)
  else none

theorem parseDecimal_replicate_append (n : Nat) (ds : Bytes) :
    parseDecimal (List.replicate n 48 ++ ds) = parseDecimal ds := by
  induction n with
  | zero => rfl
  | succ n ih => simpa [parseDecimal, List.replicate_succ] using ih

theorem parseDecimal_paddedDigits (n : Nat) : parseDecimal (paddedDigits n) = n := by
  rw [paddedDigits, parseDecimal_replicate_append, parseDecimal_digits]

theorem isDigit_of_mem_paddedDigits {n : Nat} {b : Byte} (h : b ∈ paddedDigits n) :
    isDigit b = true := by
  rcases List.mem_append.mp h with hpad | hdig
  · rw [List.eq_of_mem_replicate hpad]
    rfl
  · exact isDigit_of_mem_digits hdig

theorem paddedDigits_length_lt {n : Nat} (h : n < 10 ^ 6) : (paddedDigits n).length = 6 := by
  have hle : (Nat.digits 10 n).length ≤ 6 := (Nat.digits_length_le_iff (by decide) n).mpr h
  simp only [paddedDigits, digits, List.length_append, List.length_replicate, List.length_map,
    List.length_reverse]
  omega

theorem paddedDigits_length_ge {n : Nat} (h : 10 ^ 6 ≤ n) : 7 ≤ (paddedDigits n).length := by
  have hlt : 6 < (Nat.digits 10 n).length := (Nat.lt_digits_length_iff (by decide) n).mpr h
  simp only [paddedDigits, digits, List.length_append, List.length_replicate, List.length_map,
    List.length_reverse]
  omega

theorem takeWhile_isDigit_take (n : Nat) (h : 6 ≤ (paddedDigits n).length) :
    ((packName n).take 6).takeWhile isDigit = (paddedDigits n).take 6 := by
  rw [packName, List.take_append_of_le_length h, List.takeWhile_eq_self_iff]
  intro b hb
  exact isDigit_of_mem_paddedDigits (List.mem_of_mem_take hb)

/-- Names with at most six digits are read back. -/
theorem scanPackName_packName {id : Nat} (h : id < 10 ^ 6) :
    scanPackName (packName id) = some id := by
  have hlen := paddedDigits_length_lt h
  have hds : ((packName id).take 6).takeWhile isDigit = paddedDigits id := by
    rw [takeWhile_isDigit_take id hlen.ge, List.take_of_length_le hlen.le]
  have hne : paddedDigits id ≠ [] := by
    intro hnil
    rw [hnil] at hlen
    cases hlen
  have hdrop : (packName id).drop (paddedDigits id).length = ascii ".pack" := by
    rw [packName, List.drop_left]
  rw [scanPackName, hds, hdrop, if_pos ⟨hne, rfl⟩, parseDecimal_paddedDigits]

/-- A seventh digit stands where `.pack` is expected, so the name is not read. -/
theorem scanPackName_packName_large {id : Nat} (h : 10 ^ 6 ≤ id) :
    scanPackName (packName id) = none := by
  have hlen := paddedDigits_length_ge h
  have hds := takeWhile_isDigit_take id (by omega)
  have hlen6 : ((paddedDigits id).take 6).length = 6 := List.length_take_of_le (by omega)
  have hdrop : (packName id).drop 6 =
      (paddedDigits id).get ⟨6, hlen⟩ :: ((paddedDigits id).drop 7 ++ ascii ".pack") := by
    rw [packName, List.drop_append_of_le_length (by omega), List.drop_eq_getElem_cons hlen]
    rfl
  rw [scanPackName, hds, hlen6, hdrop, if_neg]
  rintro ⟨-, hpre⟩
  obtain ⟨hdot, -⟩ := List.cons_prefix_cons.mp (List.isPrefixOf_iff_prefix.mp hpre)
  have hdig := isDigit_of_mem_paddedDigits (List.get_mem (paddedDigits id) ⟨6, hlen⟩)
  rw [← hdot] at hdig
  cases hdig

end Repkgs.Jigd
