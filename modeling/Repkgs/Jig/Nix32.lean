import Repkgs.Jig.Store
import Repkgs.Lib.Digits

/-!
# Hashes in store paths

`Nix32` of `nix_store_mode.cc` reads the digits of a hash from a window of two
bytes, and `CompressHash` folds a digest to the length a store path has room for.
-/

namespace Repkgs.Jig

open Lib

def alphabet : Bytes := ascii "0123456789abcdfghijklmnpqrsvwxyz"

/-- `byte_at` -/
def byteAt (bytes : Bytes) (idx : Nat) : Nat := (bytes.getD idx 0).toNat

/-- `Nix32` of a text that is not empty; sizes do not come near 2⁶¹ bytes. -/
def nix32 (bytes : Bytes) : Bytes :=
  let length := (bytes.length * 8 - 1) / 5 + 1
  (List.range length).map fun idx =>
    let bit := (length - 1 - idx) * 5
    let pair := byteAt bytes (bit / 8) ||| byteAt bytes (bit / 8 + 1) <<< 8
    alphabet.getD ((pair >>> (bit % 8)) &&& 0x1f) 0

def storePathHashBytes : Nat := 20

/-- `CompressHash` -/
def compressHash (digest : Bytes) : Bytes :=
  (List.range digest.length).foldl
    (fun out i => out.modify (i % storePathHashBytes) (· ^^^ digest.getD i 0))
    (List.replicate storePathHashBytes 0)

example : nix32 (ascii "jig") = ascii "6fsba" := by decide

/-- The digits of a number in base 32, `l` of them, the highest first. -/
def base32Digits (l n : Nat) : Bytes :=
  (Nat.digitsAppend 32 l n).reverse.map fun d => alphabet.getD d 0

theorem length_nix32 {bytes : Bytes} (hne : bytes ≠ []) :
    (bytes.length * 8 - 1) / 5 + 1 = (8 * bytes.length + 4) / 5 := by
  have hpos := List.length_pos_iff.mpr hne
  omega

theorem leNat_lt_base32 {bytes : Bytes} : leNat bytes < 32 ^ ((8 * bytes.length + 4) / 5) := by
  calc leNat bytes < 256 ^ bytes.length := leNat_lt rfl
    _ = 2 ^ (8 * bytes.length) := (pow_mul 2 8 _).symm
    _ ≤ 2 ^ (5 * ((8 * bytes.length + 4) / 5)) := Nat.pow_le_pow_right (by decide) (by omega)
    _ = 32 ^ ((8 * bytes.length + 4) / 5) := pow_mul 2 5 _

/-- The window holds one digit. -/
theorem pair_eq_digit (bytes : Bytes) (bit : Nat) :
    ((byteAt bytes (bit / 8) ||| byteAt bytes (bit / 8 + 1) <<< 8) >>> (bit % 8)) &&& 0x1f =
      leNat bytes / 2 ^ bit % 32 := by
  have hlow : byteAt bytes (bit / 8) < 2 ^ 8 := (bytes.getD (bit / 8) 0).toNat_lt
  have hpair : byteAt bytes (bit / 8) ||| byteAt bytes (bit / 8 + 1) <<< 8 =
      byteAt bytes (bit / 8) + 256 * byteAt bytes (bit / 8 + 1) := by
    rw [Nat.shiftLeft_eq, Nat.mul_comm, Nat.or_comm, ← Nat.two_pow_add_eq_or_of_lt hlow,
      Nat.add_comm]
  rw [hpair, Nat.shiftRight_eq_div_pow, show 0x1f = 2 ^ 5 - 1 from rfl,
    Nat.and_two_pow_sub_one_eq_mod]
  exact leNat_window (by decide) bytes bit

theorem nix32_eq_digits {bytes : Bytes} (hne : bytes ≠ []) :
    nix32 bytes = base32Digits ((8 * bytes.length + 4) / 5) (leNat bytes) := by
  have hdigit (i : Nat) : 2 ^ (i * 5) = 32 ^ i := (pow_mul' 2 i 5).trans rfl
  rw [nix32, base32Digits, digitsAppend_eq_map (by decide) leNat_lt_base32, reverse_map_range,
    List.map_map, length_nix32 hne]
  refine List.map_congr_left fun idx _ => ?_
  simp only [Function.comp_apply, pair_eq_digit, hdigit]

theorem idxOf_alphabet {d : Nat} (hd : d < 32) : alphabet.idxOf (alphabet.getD d 0) = d := by
  have hall : ∀ d : Fin 32, alphabet.idxOf (alphabet.getD d 0) = d := by decide
  exact hall ⟨d, hd⟩

/-- Digits can be read back. -/
theorem base32Digits_injective {l m n : Nat} (hm : m < 32 ^ l) (hn : n < 32 ^ l)
    (h : base32Digits l m = base32Digits l n) : m = n := by
  have hread (k : Nat) :
      (base32Digits l k).map alphabet.idxOf = (Nat.digitsAppend 32 l k).reverse := by
    rw [base32Digits, List.map_map]
    refine (List.map_congr_left fun d hd => ?_).trans (List.map_id _)
    exact idxOf_alphabet (Nat.lt_of_mem_digitsAppend (by decide) l d (List.mem_reverse.mp hd))
  have hdigits : Nat.digitsAppend 32 l m = Nat.digitsAppend 32 l n := by
    apply List.reverse_injective
    rw [← hread, ← hread, h]
  exact (Nat.bijOn_digitsAppend (by decide) l).injOn hm hn hdigits

theorem nix32_injective {a b : Bytes} (hlen : a.length = b.length) (h : nix32 a = nix32 b) :
    a = b := by
  by_cases hne : a = []
  · rw [hne, List.length_nil] at hlen
    rw [hne, List.length_eq_zero_iff.mp hlen.symm]
  · have hne' : b ≠ [] := by
      rintro rfl
      exact hne (List.length_eq_zero_iff.mp hlen)
    rw [nix32_eq_digits hne, nix32_eq_digits hne', ← hlen] at h
    have hnat : leNat a = leNat b :=
      base32Digits_injective leNat_lt_base32 (hlen ▸ leNat_lt_base32) h
    calc a = leBytes b.length (leNat a) := (leBytes_leNat hlen).symm
      _ = leBytes b.length (leNat b) := by rw [hnat]
      _ = b := leBytes_leNat rfl

theorem length_compressHash (digest : Bytes) :
    (compressHash digest).length = storePathHashBytes := by
  have hloop (is : List Nat) (out : Bytes) : (is.foldl (fun out i =>
      out.modify (i % storePathHashBytes) (· ^^^ digest.getD i 0)) out).length = out.length := by
    induction is generalizing out with
    | nil => rfl
    | cons i is ih => rw [List.foldl_cons, ih, List.length_modify]
  rw [compressHash, hloop, List.length_replicate]

/-- Only letters of the alphabet are written. -/
theorem mem_alphabet_of_mem_nix32 {bytes : Bytes} {c : Byte} (h : c ∈ nix32 bytes) :
    c ∈ alphabet := by
  obtain ⟨idx, -, rfl⟩ := List.mem_map.mp h
  dsimp only
  have hlt (x : Nat) : x &&& 0x1f < alphabet.length :=
    Nat.lt_of_le_of_lt Nat.and_le_right (by decide)
  rw [List.getD_eq_getElem?_getD, List.getElem?_eq_getElem (hlt _)]
  exact List.getElem_mem _

theorem isStoreHash_nix32 {bytes : Bytes} (h : bytes.length = storePathHashBytes) :
    isStoreHash (nix32 bytes) = true := by
  rw [isStoreHash, Bool.and_eq_true, beq_iff_eq, List.all_eq_true]
  constructor
  · rw [nix32, List.length_map, List.length_range, h]
    decide
  · intro c hc
    exact List.contains_iff_mem.mpr (mem_alphabet_of_mem_nix32 hc)

/-- `Nix32` writes the digits of the number that its bytes are, so that texts of one length are
told apart, and what it makes of a digest can stand in a store path. -/
theorem nix32_base32 :
    (∀ bytes : Bytes, bytes ≠ [] →
      nix32 bytes = base32Digits ((8 * bytes.length + 4) / 5) (leNat bytes) ∧
      (nix32 bytes).length = (8 * bytes.length + 4) / 5) ∧
    (∀ a b : Bytes, a.length = b.length → nix32 a = nix32 b → a = b) ∧
    ∀ digest : Bytes, digest.length = 32 →
      (nix32 (compressHash digest)).length = 32 ∧
      isStoreHash (nix32 (compressHash digest)) = true := by
  refine ⟨fun bytes hne => ⟨nix32_eq_digits hne, ?_⟩, fun a b => nix32_injective,
    fun digest _ => ⟨?_, isStoreHash_nix32 (length_compressHash digest)⟩⟩
  · rw [nix32, List.length_map, List.length_range, length_nix32 hne]
  · rw [nix32, List.length_map, List.length_range, length_compressHash]
    rfl

theorem nix32_base32_byte :
    (nix32 [0x2a] = base32Digits 2 42 ∧ (nix32 [0x2a]).length = 2) ∧
    nix32 [0x2a] ≠ nix32 [0x2b] ∧
    isStoreHash (nix32 (compressHash (List.replicate 32 7))) = true :=
  ⟨nix32_base32.1 [0x2a] (by decide),
    fun h => absurd (nix32_base32.2.1 [0x2a] [0x2b] rfl h) (by decide),
    (nix32_base32.2.2 (List.replicate 32 7) (by decide)).2⟩

end Repkgs.Jig
