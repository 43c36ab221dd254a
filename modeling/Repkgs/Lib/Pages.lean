import Mathlib.Data.Nat.Bitwise
import Mathlib.Tactic.Ring
import Mathlib.Tactic.Linarith

/-!
# Pages

Addresses are 64-bit numbers. A page size is a power of two, and an address is
rounded to a page by masking its low bits. Rounding up wraps around in the last
page of the address space.
-/

namespace Repkgs.Lib

/-- The multiple of `p` at or below `x`. -/
def down (p x : Nat) : Nat := x / p * p

/-- The multiple of `p` at or above `x`. -/
def up (p x : Nat) : Nat := (x + p - 1) / p * p

section Rounding

variable {p : Nat} (hp : 0 < p)

theorem dvd_down (p x : Nat) : p ∣ down p x := Nat.dvd_mul_left p _

theorem dvd_up (p x : Nat) : p ∣ up p x := Nat.dvd_mul_left p _

theorem down_le (p x : Nat) : down p x ≤ x := Nat.div_mul_le_self x p

theorem down_add_mod (p x : Nat) : down p x + x % p = x := Nat.div_add_mod' x p

theorem down_mono {x y : Nat} (h : x ≤ y) : down p x ≤ down p y :=
  Nat.mul_le_mul_right p (Nat.div_le_div_right h)

/-- Different multiples are a page apart. -/
theorem add_le_of_dvd {a b : Nat} (ha : p ∣ a) (hb : p ∣ b) (hlt : a < b) : a + p ≤ b := by
  have hle := Nat.le_of_dvd (Nat.sub_pos_of_lt hlt) (Nat.dvd_sub hb ha)
  omega

include hp

theorem lt_down_add (x : Nat) : x < down p x + p := by
  have hmod := Nat.mod_lt x hp
  have hadd := down_add_mod p x
  omega

theorem le_up (x : Nat) : x ≤ up p x := by
  have hlt := lt_down_add hp (x + p - 1)
  unfold up
  unfold down at hlt
  omega

theorem up_lt (x : Nat) : up p x < x + p := by
  have hle := down_le p (x + p - 1)
  unfold up
  unfold down at hle
  omega

theorem up_le_of_dvd {x b : Nat} (hb : p ∣ b) (hle : x ≤ b) : up p x ≤ b := by
  by_contra hlt
  have hstep := add_le_of_dvd hb (dvd_up p x) (Nat.not_le.mp hlt)
  have hup := up_lt hp x
  omega

theorem up_mono {x y : Nat} (h : x ≤ y) : up p x ≤ up p y :=
  up_le_of_dvd hp (dvd_up p y) (h.trans (le_up hp y))

theorem le_down_of_dvd {x b : Nat} (hb : p ∣ b) (hle : b ≤ x) : b ≤ down p x := by
  by_contra hlt
  have hstep := add_le_of_dvd (dvd_down p x) hb (Nat.not_le.mp hlt)
  have hdown := lt_down_add hp x
  omega

end Rounding

/-- Rounding up the wrapped number wraps around as the number rounded up does. -/
theorem up_mod {k : Nat} (hk : k ≤ 64) (n : Nat) :
    up (2 ^ k) (n % 2 ^ 64) % 2 ^ 64 = up (2 ^ k) n % 2 ^ 64 := by
  obtain ⟨c, hc⟩ : 2 ^ k ∣ 2 ^ 64 := Nat.pow_dvd_pow 2 hk
  have hpos : 0 < 2 ^ k := Nat.two_pow_pos k
  have hsplit : up (2 ^ k) n = up (2 ^ k) (n % 2 ^ 64) + 2 ^ 64 * (n / 2 ^ 64) := by
    have hsum : n + 2 ^ k - 1 = n % 2 ^ 64 + 2 ^ k - 1 + 2 ^ k * (c * (n / 2 ^ 64)) := by
      have hn := Nat.mod_add_div n (2 ^ 64)
      rw [← Nat.mul_assoc, ← hc]
      omega
    rw [up, up, hsum, Nat.add_mul_div_left _ _ hpos, hc]
    ring
  rw [hsplit, Nat.add_mul_mod_self_left]

abbrev Addr := BitVec 64

def pageDown (pg x : Addr) : Addr := x &&& ~~~(pg - 1)

def pageUp (pg x : Addr) : Addr := (x + pg - 1) &&& ~~~(pg - 1)

variable {pg : Addr} {k : Nat}

theorem toNat_pageDown (hpg : pg.toNat = 2 ^ k) (hk : k < 64) (x : Addr) :
    (pageDown pg x).toNat = down (2 ^ k) x.toNat := by
  have hpos : 0 < 2 ^ k := Nat.two_pow_pos k
  have hlt : 2 ^ k < 2 ^ 64 := Nat.pow_lt_pow_right (by decide) hk
  have hmask : (pg - 1).toNat = 2 ^ k - 1 := by
    rw [BitVec.toNat_sub, hpg]
    have hone : (1 : Addr).toNat = 1 := rfl
    omega
  rw [pageDown, BitVec.toNat_and, BitVec.toNat_not, hmask]
  refine Nat.eq_of_testBit_eq fun i => ?_
  have hnot : 2 ^ 64 - 1 - (2 ^ k - 1) = 2 ^ 64 - (2 ^ k - 1 + 1) := by omega
  rw [Nat.testBit_and, hnot, Nat.testBit_two_pow_sub_succ (by omega), Nat.testBit_two_pow_sub_one,
    down, Nat.testBit_mul_two_pow, Nat.testBit_div_two_pow]
  by_cases hi : k ≤ i
  · rw [Nat.sub_add_cancel hi]
    by_cases h64 : i < 64
    · simp [hi, h64, Nat.not_lt.mpr hi]
    · have hbit : x.toNat.testBit i = false :=
        Nat.testBit_lt_two_pow (x.isLt.trans_le (Nat.pow_le_pow_right (by decide) (by omega)))
      simp [hbit]
  · simp [hi, Nat.not_le.mp hi]

/-- Rounding up is exact but for the very end of the address space, which is address 0. -/
theorem toNat_pageUp (hpg : pg.toNat = 2 ^ k) (hk : k < 64) (x : Addr) :
    (pageUp pg x).toNat = up (2 ^ k) x.toNat % 2 ^ 64 := by
  have hpos : 0 < 2 ^ k := Nat.two_pow_pos k
  have hdvd : 2 ^ k ∣ 2 ^ 64 := Nat.pow_dvd_pow 2 hk.le
  have hx := x.isLt
  have hsum : (x + pg - 1).toNat = (x.toNat + 2 ^ k - 1) % 2 ^ 64 := by
    rw [BitVec.toNat_sub, BitVec.toNat_add, hpg]
    have hone : (1 : Addr).toNat = 1 := rfl
    omega
  have hdown := toNat_pageDown hpg hk (x + pg - 1)
  rw [pageDown] at hdown
  rw [pageUp, hdown, hsum]
  have hup : up (2 ^ k) x.toNat = down (2 ^ k) (x.toNat + 2 ^ k - 1) := rfl
  by_cases hwrap : x.toNat + 2 ^ k - 1 < 2 ^ 64
  · have hle := down_le (2 ^ k) (x.toNat + 2 ^ k - 1)
    rw [Nat.mod_eq_of_lt hwrap, hup, Nat.mod_eq_of_lt (by omega)]
  · have htop : up (2 ^ k) x.toNat = 2 ^ 64 := by
      refine Nat.le_antisymm (up_le_of_dvd hpos hdvd hx.le) ?_
      rw [hup]
      exact le_down_of_dvd hpos hdvd (by omega)
    have hlt : 2 ^ k < 2 ^ 64 := Nat.pow_lt_pow_right (by decide) hk
    have hsmall : (x.toNat + 2 ^ k - 1) % 2 ^ 64 < 2 ^ k := by omega
    rw [htop, Nat.mod_self, down, Nat.div_eq_of_lt hsmall, Nat.zero_mul]

theorem toNat_pageUp_of_mod (hpg : pg.toNat = 2 ^ k) (hk : k < 64) {x : Addr} {n : Nat}
    (hx : x.toNat = n % 2 ^ 64) : (pageUp pg x).toNat = up (2 ^ k) n % 2 ^ 64 := by
  rw [toNat_pageUp hpg hk, hx, up_mod hk.le]

end Repkgs.Lib
