import Mathlib.Data.Nat.Digits.Lemmas
import Repkgs.Lib.LittleEndian

/-!
# Digits of little-endian numbers

A digit of a few bits stands in two neighbouring bytes of a number. Where a digit
list has a fixed length, its digits are found one by one.
-/

namespace Repkgs.Lib

theorem leNat_div_pow (bs : Bytes) (i : Nat) : leNat bs / 256 ^ i = leNat (bs.drop i) := by
  induction bs generalizing i with
  | nil => simp [leNat]
  | cons b bs ih =>
      cases i with
      | zero => simp
      | succ i =>
          have hb : b.toNat < 256 := b.toNat_lt
          have hdiv : (b.toNat + 256 * leNat bs) / 256 = leNat bs := by omega
          rw [leNat, List.drop_succ_cons, ← ih, pow_succ', ← Nat.div_div_eq_div_mul, hdiv]

theorem leNat_mod (bs : Bytes) :
    leNat bs % 2 ^ 16 = (bs.getD 0 0).toNat + 256 * (bs.getD 1 0).toNat := by
  match bs with
  | [] => rfl
  | [b] =>
      have hb : b.toNat < 256 := b.toNat_lt
      have hzero : UInt8.toNat 0 = 0 := rfl
      simp only [leNat, List.getD_cons_zero, List.getD_cons_succ, List.getD_nil]
      omega
  | b :: c :: bs =>
      have hb : b.toNat < 256 := b.toNat_lt
      have hc : c.toNat < 256 := c.toNat_lt
      simp only [leNat, List.getD_cons_zero, List.getD_cons_succ]
      omega

/-- A few bits anywhere in a number stand in two of its bytes, zeros behind the last. -/
theorem leNat_window {w : Nat} (hw : w ≤ 9) (bs : Bytes) (bit : Nat) :
    ((bs.getD (bit / 8) 0).toNat + 256 * (bs.getD (bit / 8 + 1) 0).toNat) / 2 ^ (bit % 8) % 2 ^ w =
      leNat bs / 2 ^ bit % 2 ^ w := by
  have hpair : (bs.getD (bit / 8) 0).toNat + 256 * (bs.getD (bit / 8 + 1) 0).toNat =
      leNat bs / 256 ^ (bit / 8) % 2 ^ 16 := by
    rw [leNat_div_pow, leNat_mod]
    simp [List.getD_eq_getElem?_getD, List.getElem?_drop]
  have hsplit : 2 ^ 16 = 2 ^ (bit % 8) * 2 ^ (16 - bit % 8) := by
    rw [← pow_add]
    congr 1
    omega
  have hdvd : 2 ^ w ∣ 2 ^ (16 - bit % 8) := Nat.pow_dvd_pow 2 (by omega)
  have hbit : 256 ^ (bit / 8) * 2 ^ (bit % 8) = 2 ^ bit := by
    rw [show 256 = 2 ^ 8 from rfl, ← pow_mul, ← pow_add, Nat.div_add_mod]
  rw [hpair, hsplit, Nat.mod_mul_right_div_self, Nat.mod_mod_of_dvd _ hdvd,
    Nat.div_div_eq_div_mul, hbit]

theorem digitsAppend_eq_map {b l n : Nat} (hb : 1 < b) (hn : n < b ^ l) :
    Nat.digitsAppend b l n = (List.range l).map fun i => n / b ^ i % b := by
  refine List.ext_getElem ?_ fun i hi _ => ?_
  · rw [Nat.length_digitsAppend hb l hn, List.length_map, List.length_range]
  · have hget : (Nat.digitsAppend b l n)[i] = (Nat.digits b n).getD i 0 := by
      simp only [Nat.digitsAppend]
      rcases Nat.lt_or_ge i (Nat.digits b n).length with hlt | hge
      · rw [List.getElem_append_left hlt]
        simp [hlt]
      · rw [List.getElem_append_right hge]
        simp [hge]
    rw [List.getElem_map, List.getElem_range, hget, Nat.getD_digits n i hb]

theorem reverse_map_range {α : Type*} (f : Nat → α) (n : Nat) :
    ((List.range n).map f).reverse = (List.range n).map fun i => f (n - 1 - i) := by
  refine List.ext_getElem (by simp) fun i _ _ => ?_
  simp [List.getElem_reverse]

end Repkgs.Lib
