import Mathlib.Analysis.SpecialFunctions.Pow.Real
import Mathlib.Data.Nat.Nth
import Repkgs.Lib.LittleEndian

/-!
# SHA-256

The hash function of FIPS 180-4, as the standard describes it: constants from the
roots of the first primes, padding, message schedule, rounds on eight working
variables and the sum of their results with the chaining value.
-/

namespace Repkgs.Lib.Fips180

abbrev Word := BitVec 32

def ch (x y z : Word) : Word := (x &&& y) ^^^ (~~~x &&& z)

def maj (x y z : Word) : Word := (x &&& y) ^^^ (x &&& z) ^^^ (y &&& z)

def bigSigma0 (x : Word) : Word := x.rotateRight 2 ^^^ x.rotateRight 13 ^^^ x.rotateRight 22

def bigSigma1 (x : Word) : Word := x.rotateRight 6 ^^^ x.rotateRight 11 ^^^ x.rotateRight 25

def smallSigma0 (x : Word) : Word := x.rotateRight 7 ^^^ x.rotateRight 18 ^^^ (x >>> 3)

def smallSigma1 (x : Word) : Word := x.rotateRight 17 ^^^ x.rotateRight 19 ^^^ (x >>> 10)

/-- The first thirty-two bits of the fractional part of a root. -/
noncomputable def rootWord (n p : Nat) : Word :=
  BitVec.ofNat 32 ⌊2 ^ 32 * Int.fract ((p : ℝ) ^ (1 / n : ℝ))⌋₊

/-- The constants come from the cube roots of the first sixty-four primes. -/
noncomputable def roundConstant (t : Nat) : Word := rootWord 3 (Nat.nth Nat.Prime t)

/-- The working variables, and a chaining value. -/
structure Vars where
  a : Word
  b : Word
  c : Word
  d : Word
  e : Word
  f : Word
  g : Word
  h : Word
  deriving DecidableEq

/-- The initial value comes from the square roots of the first eight primes. -/
noncomputable def initial : Vars where
  a := rootWord 2 (Nat.nth Nat.Prime 0)
  b := rootWord 2 (Nat.nth Nat.Prime 1)
  c := rootWord 2 (Nat.nth Nat.Prime 2)
  d := rootWord 2 (Nat.nth Nat.Prime 3)
  e := rootWord 2 (Nat.nth Nat.Prime 4)
  f := rootWord 2 (Nat.nth Nat.Prime 5)
  g := rootWord 2 (Nat.nth Nat.Prime 6)
  h := rootWord 2 (Nat.nth Nat.Prime 7)

/-- Word `t` of a block, the first byte highest. -/
def messageWord (block : Bytes) (t : Nat) : Word :=
  (block.getD (4 * t) 0).toBitVec ++ (block.getD (4 * t + 1) 0).toBitVec ++
    (block.getD (4 * t + 2) 0).toBitVec ++ (block.getD (4 * t + 3) 0).toBitVec

/-- The message schedule. -/
def schedule (block : Bytes) (t : Nat) : Word :=
  if t < 16 then messageWord block t
  else smallSigma1 (schedule block (t - 2)) + schedule block (t - 7) +
    smallSigma0 (schedule block (t - 15)) + schedule block (t - 16)

noncomputable def round (block : Bytes) (v : Vars) (t : Nat) : Vars :=
  let t1 := v.h + bigSigma1 v.e + ch v.e v.f v.g + roundConstant t + schedule block t
  let t2 := bigSigma0 v.a + maj v.a v.b v.c
  ⟨t1 + t2, v.a, v.b, v.c, v.d + t1, v.e, v.f, v.g⟩

noncomputable def compress (H : Vars) (block : Bytes) : Vars :=
  let v := (List.range 64).foldl (round block) H
  ⟨H.a + v.a, H.b + v.b, H.c + v.c, H.d + v.d, H.e + v.e, H.f + v.f, H.g + v.g, H.h + v.h⟩

/-- Zero bytes that fill up a message of `n` bytes, the delimiter and the length to blocks. -/
def paddingZeros (n : Nat) : Nat := (64 - (n + 9) % 64) % 64

/-- The message, a one bit, zeros, and the number of its bits in eight bytes. -/
def pad (message : Bytes) : Bytes :=
  message ++ 0x80 :: (List.replicate (paddingZeros message.length) 0 ++
    (leBytes 8 (8 * message.length)).reverse)

/-- The first `n` blocks of a message. -/
def blocks : Nat → Bytes → List Bytes
  | 0, _ => []
  | n + 1, message => message.take 64 :: blocks n (message.drop 64)

def parse (message : Bytes) : List Bytes := blocks (message.length / 64) message

def wordBytes (w : Word) : Bytes := (leBytes 4 w.toNat).reverse

def digest (H : Vars) : Bytes :=
  [H.a, H.b, H.c, H.d, H.e, H.f, H.g, H.h].flatMap wordBytes

noncomputable def sha256 (message : Bytes) : Bytes :=
  digest ((parse (pad message)).foldl compress initial)

/-- The padding is the shortest that completes a block. -/
theorem paddingZeros_spec (n : Nat) : (n + 1 + paddingZeros n + 8) % 64 = 0 ∧
    ∀ k, (n + 1 + k + 8) % 64 = 0 → paddingZeros n ≤ k := by
  unfold paddingZeros
  exact ⟨by omega, fun k hk => by omega⟩

/-- Whole blocks in front are blocks of their own. -/
theorem blocks_append {front : Bytes} {q : Nat} (h : front.length = 64 * q) (n : Nat)
    (rest : Bytes) : blocks (q + n) (front ++ rest) = blocks q front ++ blocks n rest := by
  induction q generalizing front with
  | zero =>
      rw [List.length_eq_zero_iff.mp h, Nat.zero_add]
      rfl
  | succ q ih =>
      have hlen : 64 ≤ front.length := by omega
      rw [show q + 1 + n = q + n + 1 by omega, blocks, blocks, List.take_append_of_le_length hlen,
        List.drop_append_of_le_length hlen, ih (by rw [List.length_drop]; omega), List.cons_append]

/-- A root to thirty-two places is found by comparing powers. -/
theorem rootWord_eq {n p i k : Nat} (hn : n ≠ 0) (hk : k < 2 ^ 32)
    (hlow : (i * 2 ^ 32 + k) ^ n ≤ p * (2 ^ 32) ^ n)
    (hhigh : p * (2 ^ 32) ^ n < (i * 2 ^ 32 + k + 1) ^ n) :
    rootWord n p = BitVec.ofNat 32 k := by
  set x : ℝ := (p : ℝ) ^ (1 / n : ℝ) with hx
  have hx0 : 0 ≤ x := Real.rpow_nonneg (Nat.cast_nonneg p) _
  have hpow : x ^ n = p := by
    rw [hx, one_div]
    exact Real.rpow_inv_natCast_pow (Nat.cast_nonneg p) hn
  have hscaled : (2 ^ 32 * x) ^ n = p * (2 ^ 32) ^ n := by
    rw [mul_pow, hpow, mul_comm]
  have hle : (i * 2 ^ 32 + k : ℝ) ≤ 2 ^ 32 * x := by
    refine le_of_pow_le_pow_left₀ hn (by positivity) ?_
    rw [hscaled]
    exact_mod_cast hlow
  have hlt : 2 ^ 32 * x < (i * 2 ^ 32 + k + 1 : ℝ) := by
    refine lt_of_pow_lt_pow_left₀ n (by positivity) ?_
    rw [hscaled]
    exact_mod_cast hhigh
  have hk' : (k : ℝ) + 1 ≤ 2 ^ 32 := by exact_mod_cast hk
  have hfloor : ⌊x⌋ = (i : ℤ) := by
    rw [Int.floor_eq_iff]
    constructor
    · have hk0 : (0 : ℝ) ≤ k := Nat.cast_nonneg k
      push_cast
      nlinarith
    · push_cast
      nlinarith
  have hword : ⌊2 ^ 32 * Int.fract x⌋₊ = k := by
    rw [Nat.floor_eq_iff (mul_nonneg (by positivity) (Int.fract_nonneg x)), Int.fract, hfloor]
    push_cast
    constructor <;> linarith
  rw [rootWord, hword]

/-- Whether `k` are the thirty-two bits behind the point of a root with integer part `i`. -/
def isRootWord (n p k i : Nat) : Bool :=
  k < 2 ^ 32 && (i * 2 ^ 32 + k) ^ n ≤ p * (2 ^ 32) ^ n &&
    p * (2 ^ 32) ^ n < (i * 2 ^ 32 + k + 1) ^ n

theorem rootWord_of_any {n p : Nat} {w : Word} (hn : n ≠ 0) {m : Nat}
    (h : (List.range m).any (isRootWord n p w.toNat) = true) : rootWord n p = w := by
  obtain ⟨i, -, hi⟩ := List.any_eq_true.mp h
  simp only [isRootWord, Bool.and_eq_true, decide_eq_true_eq] at hi
  rw [rootWord_eq hn hi.1.1 hi.1.2 hi.2, BitVec.ofNat_toNat, BitVec.setWidth_eq]

/-- A sorted list of all numbers below a bound with some property has them in order. -/
theorem nth_eq_getElem {q : Nat → Prop} [DecidablePred q] {l : List Nat} {bound : Nat}
    (hsorted : l.Pairwise (· < ·)) (hl : ∀ x, x ∈ l ↔ x < bound ∧ q x) {i : Nat}
    (hi : i < l.length) : Nat.nth q i = l[i] := by
  have hmem := (hl l[i]).mp (List.getElem_mem hi)
  have hfilter : (Finset.range l[i]).filter q = (l.take i).toFinset := by
    ext x
    rw [Finset.mem_filter, Finset.mem_range, List.mem_toFinset, List.mem_take_iff_getElem]
    constructor
    · rintro ⟨hx, hq⟩
      obtain ⟨j, hj, rfl⟩ := List.mem_iff_getElem.mp ((hl x).mpr ⟨hx.trans hmem.1, hq⟩)
      refine ⟨j, ?_, rfl⟩
      by_contra hij
      have hle : i ≤ j := by omega
      rcases Nat.lt_or_eq_of_le hle with hlt | rfl
      · exact absurd hx (Nat.lt_asymm (List.pairwise_iff_getElem.mp hsorted i j hi hj hlt))
      · exact Nat.lt_irrefl _ hx
    · rintro ⟨j, hj, rfl⟩
      refine ⟨List.pairwise_iff_getElem.mp hsorted j i (by omega) hi (by omega), ?_⟩
      exact ((hl _).mp (List.getElem_mem _)).2
  have hnodup : (l.take i).Nodup :=
    (List.take_sublist i l).nodup (hsorted.imp fun h => Nat.ne_of_lt h)
  have hcount : Nat.count q l[i] = i := by
    rw [Nat.count_eq_card_filter_range, hfilter, List.toFinset_card_of_nodup hnodup,
      List.length_take, Nat.min_eq_left hi.le]
  calc Nat.nth q i = Nat.nth q (Nat.count q l[i]) := by rw [hcount]
    _ = l[i] := Nat.nth_count hmem.2

/-- The first sixty-four primes. -/
def firstPrimes : List Nat :=
  [2, 3, 5, 7, 11, 13, 17, 19, 23, 29, 31, 37, 41, 43, 47, 53, 59, 61, 67, 71, 73, 79, 83, 89,
    97, 101, 103, 107, 109, 113, 127, 131, 137, 139, 149, 151, 157, 163, 167, 173, 179, 181,
    191, 193, 197, 199, 211, 223, 227, 229, 233, 239, 241, 251, 257, 263, 269, 271, 277, 281,
    283, 293, 307, 311]

theorem mem_firstPrimes (x : Nat) : x ∈ firstPrimes ↔ x < 312 ∧ x.Prime := by
  have hsmall : ∀ x < 312, x ∈ firstPrimes ↔ 2 ≤ x ∧ ∀ m ≤ 17, 2 ≤ m → m < x → ¬ m ∣ x := by
    decide +kernel
  have hbound : ∀ x ∈ firstPrimes, x < 312 := by decide
  constructor
  · intro hx
    have hlt := hbound x hx
    obtain ⟨htwo, hdvd⟩ := (hsmall x hlt).mp hx
    refine ⟨hlt, Nat.prime_def_le_sqrt.mpr ⟨htwo, fun m hm hsqrt => ?_⟩⟩
    have hroot : Nat.sqrt x < 18 := Nat.sqrt_lt'.mpr (by omega)
    exact hdvd m (by omega) hm (hsqrt.trans_lt (Nat.sqrt_lt_self htwo))
  · rintro ⟨hlt, hprime⟩
    obtain ⟨htwo, hdvd⟩ := Nat.prime_def_lt'.mp hprime
    exact (hsmall x hlt).mpr ⟨htwo, fun m _ hm hmx => hdvd m hm hmx⟩

theorem nth_prime {t : Nat} (ht : t < 64) : Nat.nth Nat.Prime t = firstPrimes.getD t 0 := by
  have hlt : t < firstPrimes.length := ht
  have hsorted : firstPrimes.Pairwise (· < ·) := by decide
  rw [nth_eq_getElem hsorted mem_firstPrimes hlt, List.getD_eq_getElem?_getD,
    List.getElem?_eq_getElem hlt]
  rfl

end Repkgs.Lib.Fips180
