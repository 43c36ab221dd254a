import Mathlib.Data.Nat.Digits.Lemmas
import Mathlib.Tactic.IntervalCases
import Mathlib.Tactic.Ring
import Repkgs.Lib.Text

/-!
# Numbers in texts
-/

namespace Repkgs.Lib

/-- The digits of `n` to a base up to ten. -/
def radixDigits (base n : Nat) : Bytes :=
  (Nat.digits base n).reverse.map fun k => UInt8.ofNat (48 + k)

/-- The number a string of digits denotes. -/
def parseRadix (base : Nat) (ds : Bytes) : Nat :=
  ds.foldl (fun n b => base * n + (b.toNat - 48)) 0

theorem parseRadix_append_digit {base k : Nat} (hbase : base ≤ 10) (h : k < base) (ds : Bytes) :
    parseRadix base (ds ++ [UInt8.ofNat (48 + k)]) = base * parseRadix base ds + k := by
  have hk : (UInt8.ofNat (48 + k)).toNat - 48 = k := by
    rw [UInt8.toNat_ofNat']
    omega
  simp only [parseRadix, List.foldl_append, List.foldl_cons, List.foldl_nil, hk]

theorem parseRadix_radixDigits {base : Nat} (hone : 1 < base) (hbase : base ≤ 10) (n : Nat) :
    parseRadix base (radixDigits base n) = n := by
  have hof : ∀ l : List Nat, (∀ k ∈ l, k < base) →
      parseRadix base (l.reverse.map fun k => UInt8.ofNat (48 + k)) = Nat.ofDigits base l := by
    intro l
    induction l with
    | nil => exact fun _ => rfl
    | cons k l ih =>
        intro h
        have hl := ih fun j hj => h j (.tail _ hj)
        rw [List.reverse_cons, List.map_append, List.map_singleton,
          parseRadix_append_digit hbase (h k (.head _)), hl, Nat.ofDigits_cons]
        exact Nat.add_comm _ _
  rw [radixDigits, hof _ fun k hk => Nat.digits_lt_base hone hk, Nat.ofDigits_digits]

/-- The decimal digits of `n`, as `%d` prints them. -/
def digits (n : Nat) : Bytes := (Nat.digits 10 n).reverse.map fun k => UInt8.ofNat (48 + k)

/-- A number in decimal, as it is printed. -/
def decimal (n : Nat) : Bytes := if n = 0 then ascii "0" else digits n

variable {k n : Nat} {b : Byte}

theorem parseDecimal_digits (n : Nat) : parseDecimal (digits n) = n :=
  parseRadix_radixDigits (by decide) le_rfl n

theorem isDigit_of_mem_digits (h : b ∈ digits n) : isDigit b = true := by
  obtain ⟨k, hk, rfl⟩ := List.mem_map.mp h
  have hlt : k < 10 := Nat.digits_lt_base (by decide) (List.mem_reverse.mp hk)
  interval_cases k <;> rfl

theorem parseDecimal_decimal (n : Nat) : parseDecimal (decimal n) = n := by
  rw [decimal]
  split
  · rename_i h
    rw [h]
    rfl
  · exact parseDecimal_digits n

theorem isDigit_of_mem_decimal (h : b ∈ decimal n) : isDigit b = true := by
  rw [decimal] at h
  split at h
  · rw [List.mem_singleton.mp h]
    rfl
  · exact isDigit_of_mem_digits h

theorem decimal_length_le (h : n < 10 ^ (k + 1)) : (decimal n).length ≤ k + 1 := by
  rw [decimal]
  split
  · exact Nat.succ_le_succ (Nat.zero_le k)
  · rw [digits, List.length_map, List.length_reverse]
    exact (Nat.digits_length_le_iff (by decide) n).mpr h

theorem decimal_ne_nil (n : Nat) : decimal n ≠ [] := by
  rw [decimal]
  split
  · exact List.cons_ne_nil _ _
  · rename_i h
    rw [digits, ne_eq, List.map_eq_nil_iff, List.reverse_eq_nil_iff]
    exact Nat.digits_ne_nil_iff_ne_zero.mpr h

/-- A number in octal, as `{:o}` prints it. -/
def octal (n : Nat) : Bytes := if n = 0 then ascii "0" else radixDigits 8 n

def isOctalDigit (b : Byte) : Bool := 48 ≤ b && b ≤ 55

theorem parseRadix_octal (n : Nat) : parseRadix 8 (octal n) = n := by
  rw [octal]
  split
  · next h =>
      rw [h]
      rfl
  · exact parseRadix_radixDigits (by decide) (by decide) n

theorem isOctalDigit_of_mem_octal (h : b ∈ octal n) :
    isOctalDigit b = true := by
  rw [octal] at h
  split at h
  · rw [List.mem_singleton.mp h]
    rfl
  · obtain ⟨k, hk, rfl⟩ := List.mem_map.mp h
    have hlt : k < 8 := Nat.digits_lt_base (by decide) (List.mem_reverse.mp hk)
    interval_cases k <;> rfl

theorem octal_ne_nil (n : Nat) : octal n ≠ [] := by
  rw [octal]
  split
  · exact List.cons_ne_nil _ _
  · next h =>
      rw [radixDigits, ne_eq, List.map_eq_nil_iff, List.reverse_eq_nil_iff]
      exact Nat.digits_ne_nil_iff_ne_zero.mpr h

end Repkgs.Lib
