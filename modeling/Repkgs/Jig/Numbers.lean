import Repkgs.Lib.Decimal

/-!
# Numbers in texts

`ParseUint` of `base.cc` takes blanks around the digits and refuses what does not fit
a `uint64_t`.
-/

namespace Repkgs.Jig

open Lib

/-- `Trim`. -/
def trim (text : Bytes) : Bytes :=
  let blank := fun c => c = chr ' ' ∨ c = chr '\t'
  ((text.dropWhile blank).reverse.dropWhile blank).reverse

/-- `ParseUint` in decimal. -/
def parseUint (text : Bytes) : Option Nat :=
  let digits := trim text
  if digits ≠ [] ∧ digits.all isDigit ∧ parseDecimal digits < 2 ^ 64 then
    some (parseDecimal digits)
  else none

/-- `ParseUint` in octal. -/
def parseOctal (text : Bytes) : Option Nat :=
  let digits := trim text
  if digits ≠ [] ∧ digits.all isOctalDigit ∧ parseRadix 8 digits < 2 ^ 64 then
    some (parseRadix 8 digits)
  else none

theorem trim_digits {ds : Bytes} (h : ∀ c ∈ ds, isDigit c = true) : trim ds = ds := by
  have hdrop : ∀ l : Bytes, (∀ c ∈ l, isDigit c = true) →
      l.dropWhile (fun c => decide (c = chr ' ' ∨ c = chr '\t')) = l := by
    intro l hl
    cases l with
    | nil => rfl
    | cons c l =>
        refine List.dropWhile_cons_of_neg ?_
        have hc := hl c (.head _)
        rintro hblank
        rcases of_decide_eq_true hblank with rfl | rfl <;> exact absurd hc (by decide)
  rw [trim, hdrop ds h, hdrop ds.reverse fun c hc => h c (List.mem_reverse.mp hc),
    List.reverse_reverse]

theorem parseUint_digits {ds : Bytes} (hne : ds ≠ []) (h : ∀ c ∈ ds, isDigit c = true)
    (hlt : parseDecimal ds < 2 ^ 64) : parseUint ds = some (parseDecimal ds) := by
  rw [parseUint, trim_digits h, if_pos ⟨hne, List.all_eq_true.mpr h, hlt⟩]

theorem parseUint_decimal {n : Nat} (h : n < 2 ^ 64) : parseUint (decimal n) = some n := by
  have hdigits := parseUint_digits (decimal_ne_nil n) (fun c hc => isDigit_of_mem_decimal hc)
    (by rwa [parseDecimal_decimal])
  rwa [parseDecimal_decimal] at hdigits

theorem isDigit_of_isOctalDigit {c : Byte} (h : isOctalDigit c = true) : isDigit c = true := by
  simp only [isOctalDigit, isDigit, Bool.and_eq_true, decide_eq_true_iff] at h ⊢
  exact ⟨h.1, UInt8.le_trans h.2 (by decide)⟩

theorem parseOctal_octal {n : Nat} (h : n < 2 ^ 64) : parseOctal (octal n) = some n := by
  have htrim : trim (octal n) = octal n :=
    trim_digits fun c hc => isDigit_of_isOctalDigit (isOctalDigit_of_mem_octal hc)
  rw [parseOctal, htrim, parseRadix_octal]
  exact if_pos ⟨octal_ne_nil n, List.all_eq_true.mpr fun c hc => isOctalDigit_of_mem_octal hc, h⟩

end Repkgs.Jig
