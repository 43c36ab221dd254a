import Mathlib.Tactic.IntervalCases
import Repkgs.Lib.Fips180

/-!
# The hash of store paths

`Sha256` of `nix_store_mode.cc` hashes whole blocks where they lie and builds the
last one or two blocks in a buffer. It is the function of the standard.
-/

namespace Repkgs.Jig

open Lib

def kRoundConstants : List (BitVec 32) :=
  [0x428a2f98, 0x71374491, 0xb5c0fbcf, 0xe9b5dba5, 0x3956c25b, 0x59f111f1, 0x923f82a4, 0xab1c5ed5,
    0xd807aa98, 0x12835b01, 0x243185be, 0x550c7dc3, 0x72be5d74, 0x80deb1fe, 0x9bdc06a7, 0xc19bf174,
    0xe49b69c1, 0xefbe4786, 0x0fc19dc6, 0x240ca1cc, 0x2de92c6f, 0x4a7484aa, 0x5cb0a9dc, 0x76f988da,
    0x983e5152, 0xa831c66d, 0xb00327c8, 0xbf597fc7, 0xc6e00bf3, 0xd5a79147, 0x06ca6351, 0x14292967,
    0x27b70a85, 0x2e1b2138, 0x4d2c6dfc, 0x53380d13, 0x650a7354, 0x766a0abb, 0x81c2c92e, 0x92722c85,
    0xa2bfe8a1, 0xa81a664b, 0xc24b8b70, 0xc76c51a3, 0xd192e819, 0xd6990624, 0xf40e3585, 0x106aa070,
    0x19a4c116, 0x1e376c08, 0x2748774c, 0x34b0bcb5, 0x391c0cb3, 0x4ed8aa4a, 0x5b9cca4f, 0x682e6ff3,
    0x748f82ee, 0x78a5636f, 0x84c87814, 0x8cc70208, 0x90befffa, 0xa4506ceb, 0xbef9a3f7, 0xc67178f2]

abbrev HashState := Vector (BitVec 32) 8

def kInitialState : HashState :=
  #v[0x6a09e667, 0xbb67ae85, 0x3c6ef372, 0xa54ff53a,
    0x510e527f, 0x9b05688c, 0x1f83d9ab, 0x5be0cd19]

def kBlockBytes : Nat := 64

/-- The first loop of `Compress`: a word of the block. -/
def loadWord (block : Bytes) (i : Nat) : BitVec 32 :=
  let at' (j : Nat) : BitVec 32 := (block.getD j 0).toBitVec.setWidth 32
  at' (i * 4) <<< 24 ||| at' (i * 4 + 1) <<< 16 ||| at' (i * 4 + 2) <<< 8 ||| at' (i * 4 + 3)

/-- The second loop of `Compress`: a word from earlier ones. -/
def extendWord (schedule : List (BitVec 32)) (i : Nat) : BitVec 32 :=
  let word (j : Nat) : BitVec 32 := schedule.getD j 0
  let s0 := (word (i - 15)).rotateRight 7 ^^^ (word (i - 15)).rotateRight 18 ^^^
    (word (i - 15) >>> 3)
  let s1 := (word (i - 2)).rotateRight 17 ^^^ (word (i - 2)).rotateRight 19 ^^^
    (word (i - 2) >>> 10)
  word (i - 16) + s0 + word (i - 7) + s1

def fillSchedule (block : Bytes) : List (BitVec 32) :=
  let loaded := (List.range 16).foldl (fun s i => s.set i (loadWord block i)) (List.replicate 64 0)
  (List.range' 16 48).foldl (fun s i => s.set i (extendWord s i)) loaded

/-- One round of `Compress`, which shifts the array. -/
def workRound (schedule : List (BitVec 32)) (work : HashState) (i : Nat) : HashState :=
  let s1 := work[4].rotateRight 6 ^^^ work[4].rotateRight 11 ^^^ work[4].rotateRight 25
  let choose := (work[4] &&& work[5]) ^^^ (~~~work[4] &&& work[6])
  let temp1 := work[7] + s1 + choose + kRoundConstants.getD i 0 + schedule.getD i 0
  let s0 := work[0].rotateRight 2 ^^^ work[0].rotateRight 13 ^^^ work[0].rotateRight 22
  let majority := (work[0] &&& work[1]) ^^^ (work[0] &&& work[2]) ^^^ (work[1] &&& work[2])
  let temp2 := s0 + majority
  #v[temp1 + temp2, work[0], work[1], work[2], work[3] + temp1, work[4], work[5], work[6]]

/-- `Compress` -/
def compressBlock (state : HashState) (block : Bytes) : HashState :=
  let work := (List.range 64).foldl (workRound (fillSchedule block)) state
  Vector.zipWith (· + ·) state work

/-- The loop over whole blocks, at most `n` rounds: where it stops, and the state there. -/
def hashBlocks (data : Bytes) : Nat → Nat → HashState → Nat × HashState
  | 0, off, state => (off, state)
  | n + 1, off, state =>
      if data.length - off ≥ kBlockBytes then
        hashBlocks data n (off + kBlockBytes)
          (compressBlock state ((data.drop off).take kBlockBytes))
      else (off, state)

/-- A store to a buffer, which fails outside of it. -/
def store (buf : Bytes) (i : Nat) (b : Byte) : Option Bytes :=
  if i < buf.length then some (buf.set i b) else none

/-- A block of a buffer. -/
def blockAt (buf : Bytes) (i : Nat) : Option Bytes :=
  if i + kBlockBytes ≤ buf.length then some ((buf.drop i).take kBlockBytes) else none

def tailLen (rest : Nat) : Nat :=
  if rest + 1 + 8 ≤ kBlockBytes then kBlockBytes else kBlockBytes * 2

/-- The buffer with the last bytes of the data, the delimiter and the length in bits. -/
def fillTail (data : Bytes) (off : Nat) : Option Bytes := do
  let rest := data.length - off
  let tail := List.replicate (kBlockBytes * 2) 0
  let tail ← (List.range rest).foldlM (fun t i => store t i (data.getD (off + i) 0)) tail
  let tail ← store tail rest 0x80
  let bitLength : BitVec 64 := BitVec.ofNat 64 data.length * 8
  (List.range 8).foldlM (fun t i =>
    store t (tailLen rest - 1 - i) ⟨((bitLength >>> (i * 8)) &&& 0xff).setWidth 8⟩) tail

def outputWord (word : BitVec 32) : Bytes :=
  [24, 16, 8, 0].map fun shift => ⟨((word >>> (shift : Nat)) &&& 0xff).setWidth 8⟩

/-- `Sha256`; there is no result when an access leaves the buffer. -/
def sha256 (data : Bytes) : Option Bytes := do
  let (off, state) := hashBlocks data data.length 0 kInitialState
  let tail ← fillTail data off
  let state ← (List.range' 0 (tailLen (data.length - off) / kBlockBytes) kBlockBytes).foldlM
    (fun state blk => (blockAt tail blk).map (compressBlock state)) state
  return state.toList.flatMap outputWord

example : sha256 (ascii "abc") = some
    [0xba, 0x78, 0x16, 0xbf, 0x8f, 0x01, 0xcf, 0xea, 0x41, 0x41, 0x40, 0xde, 0x5d, 0xae, 0x22,
      0x23, 0xb0, 0x03, 0x61, 0xa3, 0x96, 0x17, 0x7a, 0x9c, 0xb4, 0x10, 0xff, 0x61, 0xf2, 0x00,
      0x15, 0xad] := by
  decide +kernel

def toVars (v : HashState) : Fips180.Vars := ⟨v[0], v[1], v[2], v[3], v[4], v[5], v[6], v[7]⟩

theorem kRoundConstants_eq {t : Nat} (ht : t < 64) :
    kRoundConstants.getD t 0 = Fips180.roundConstant t := by
  have hall : ∀ t < 64, (List.range 8).any (Fips180.isRootWord 3 (Fips180.firstPrimes.getD t 0)
      (kRoundConstants.getD t 0).toNat) = true := by decide +kernel
  rw [Fips180.roundConstant, Fips180.nth_prime ht]
  exact (Fips180.rootWord_of_any (by decide) (hall t ht)).symm

theorem toVars_kInitialState : toVars kInitialState = Fips180.initial := by
  have hall : ∀ t : Fin 8, (List.range 8).any (Fips180.isRootWord 2
      (Fips180.firstPrimes.getD t 0) kInitialState[t].toNat) = true := by decide +kernel
  have hword (t : Fin 8) : Fips180.rootWord 2 (Nat.nth Nat.Prime t) = kInitialState[t] := by
    rw [Fips180.nth_prime (t.isLt.trans (by decide))]
    exact Fips180.rootWord_of_any (by decide) (hall t)
  rw [Fips180.initial, toVars, Fips180.Vars.mk.injEq]
  exact ⟨(hword 0).symm, (hword 1).symm, (hword 2).symm, (hword 3).symm, (hword 4).symm,
    (hword 5).symm, (hword 6).symm, (hword 7).symm⟩

theorem loadWord_eq (block : Bytes) (t : Nat) : loadWord block t = Fips180.messageWord block t := by
  rw [loadWord, Fips180.messageWord, Nat.mul_comm t 4]
  refine BitVec.eq_of_getLsbD_eq fun i hi => ?_
  simp only [BitVec.getLsbD_or, BitVec.getLsbD_shiftLeft, BitVec.getLsbD_setWidth,
    BitVec.getLsbD_append]
  grind

/-- A loop that fills an array from left to right, each word from those before it. -/
theorem foldl_set_eq {f : List (BitVec 32) → Nat → BitVec 32} {g : Nat → BitVec 32} {start n : Nat}
    {s : List (BitVec 32)} (hlen : start + n ≤ s.length) (hs : ∀ t < start, s.getD t 0 = g t)
    (hf : ∀ s i, start ≤ i → i < start + n → (∀ t < i, s.getD t 0 = g t) → f s i = g i) :
    ((List.range' start n).foldl (fun s i => s.set i (f s i)) s).length = s.length ∧
      ∀ t < start + n,
        ((List.range' start n).foldl (fun s i => s.set i (f s i)) s).getD t 0 = g t := by
  induction n with
  | zero => exact ⟨rfl, hs⟩
  | succ n ih =>
      obtain ⟨hlen', hget⟩ := ih (by omega) fun s i hi hlt => hf s i hi (by omega)
      rw [List.range'_concat, Nat.one_mul, List.foldl_append, List.foldl_cons, List.foldl_nil]
      refine ⟨by rw [List.length_set, hlen'], fun t ht => ?_⟩
      rw [List.getD_eq_getElem?_getD, List.getElem?_set]
      by_cases heq : start + n = t
      · subst heq
        rw [if_pos rfl, if_pos (by omega)]
        exact hf _ _ (by omega) (by omega) hget
      · rw [if_neg heq, ← List.getD_eq_getElem?_getD]
        exact hget t (by omega)

theorem extendWord_eq {block : Bytes} {s : List (BitVec 32)} {i : Nat} (hi : 16 ≤ i)
    (hs : ∀ t < i, s.getD t 0 = Fips180.schedule block t) :
    extendWord s i = Fips180.schedule block i := by
  rw [extendWord, Fips180.schedule, if_neg (by omega)]
  simp only [hs (i - 15) (by omega), hs (i - 2) (by omega), hs (i - 16) (by omega),
    hs (i - 7) (by omega)]
  rw [Fips180.smallSigma0, Fips180.smallSigma1]
  ac_rfl

theorem getD_fillSchedule (block : Bytes) {t : Nat} (ht : t < 64) :
    (fillSchedule block).getD t 0 = Fips180.schedule block t := by
  have hload (i : Nat) (hi : i < 16) : loadWord block i = Fips180.schedule block i := by
    rw [loadWord_eq, Fips180.schedule, if_pos hi]
  obtain ⟨hlen, hloaded⟩ := @foldl_set_eq (fun _ i => loadWord block i) (Fips180.schedule block)
    0 16 (List.replicate 64 0) (by simp) (fun t ht => absurd ht (Nat.not_lt_zero t))
    fun _ i _ hi _ => hload i (by omega)
  rw [fillSchedule, List.range_eq_range']
  refine (foldl_set_eq ?_ hloaded ?_).2 t ht
  · rw [hlen, List.length_replicate]
  · exact fun s i hi _ hs => extendWord_eq hi hs

theorem toVars_workRound {block : Bytes} {s : List (BitVec 32)} {i : Nat} (hi : i < 64)
    (hs : s.getD i 0 = Fips180.schedule block i) (work : HashState) :
    toVars (workRound s work i) = Fips180.round block (toVars work) i := by
  simp only [workRound, hs, kRoundConstants_eq hi]
  rfl

/-- `Compress` is the compression function of the standard. -/
theorem toVars_compressBlock (state : HashState) (block : Bytes) :
    toVars (compressBlock state block) = Fips180.compress (toVars state) block := by
  have hrounds : ∀ n ≤ 64, toVars ((List.range n).foldl (workRound (fillSchedule block)) state) =
      (List.range n).foldl (Fips180.round block) (toVars state) := by
    intro n hn
    induction n with
    | zero => rfl
    | succ n ih =>
        rw [List.range_succ, List.foldl_append, List.foldl_append, List.foldl_cons, List.foldl_nil,
          toVars_workRound hn (getD_fillSchedule block hn), ih (by omega)]
        rfl
  rw [compressBlock, Fips180.compress, ← hrounds 64 le_rfl]
  simp [toVars]

theorem toVars_foldl (state : HashState) (bs : List Bytes) :
    toVars (bs.foldl compressBlock state) = bs.foldl Fips180.compress (toVars state) := by
  induction bs generalizing state with
  | nil => rfl
  | cons b bs ih => rw [List.foldl_cons, List.foldl_cons, ih, toVars_compressBlock]

variable {n off : Nat} {buf : Bytes}

/-- The loop takes all whole blocks. -/
theorem hashBlocks_eq (data : Bytes) (state : HashState) (hn : (data.length - off) / 64 ≤ n) :
    hashBlocks data n off state = (off + 64 * ((data.length - off) / 64),
      (Fips180.blocks ((data.length - off) / 64) (data.drop off)).foldl compressBlock state) := by
  induction n generalizing off state with
  | zero =>
      rw [Nat.le_zero.mp hn]
      rfl
  | succ n ih =>
      rw [hashBlocks]
      by_cases h : data.length - off ≥ kBlockBytes
      · have hge : 64 ≤ data.length - off := h
        have hnext : (data.length - off) / 64 = (data.length - (off + 64)) / 64 + 1 := by omega
        have hrest := ih (compressBlock state ((data.drop off).take 64))
          (show (data.length - (off + 64)) / 64 ≤ n by omega)
        rw [if_pos h, hnext, Fips180.blocks, List.foldl_cons, List.drop_drop]
        refine hrest.trans (congrArg (·, _) ?_)
        omega
      · have hlt : data.length - off < 64 := Nat.not_le.mp h
        rw [if_neg h, Nat.div_eq_of_lt hlt]
        rfl

theorem foldlM_store {pos : Nat → Nat} {val : Nat → Byte} (is : List Nat)
    (h : ∀ i ∈ is, pos i < buf.length) :
    is.foldlM (fun t i => store t (pos i) (val i)) buf =
      some (is.foldl (fun t i => t.set (pos i) (val i)) buf) := by
  induction is generalizing buf with
  | nil => rfl
  | cons i is ih =>
      rw [List.foldlM_cons, store, if_pos (h i (.head _)), List.foldl_cons]
      exact ih fun j hj => by
        rw [List.length_set]
        exact h j (.tail _ hj)

/-- A loop that writes from left to right. -/
theorem foldl_set_range (val : Nat → Byte) (hn : n ≤ buf.length) :
    (List.range n).foldl (fun t i => t.set i (val i)) buf =
      (List.range n).map val ++ buf.drop n := by
  induction n with
  | zero => rfl
  | succ n ih =>
      have hset : (buf.drop n).set 0 (val n) = val n :: buf.drop (n + 1) := by
        rw [List.drop_eq_getElem_cons hn, List.set_cons_zero]
      rw [List.range_succ, List.foldl_append, List.foldl_cons, List.foldl_nil, ih (by omega),
        List.set_append_right _ _ (by simp)]
      simp [hset]

/-- A loop that writes from right to left. -/
theorem foldl_set_down (val : Nat → Byte) {n stop : Nat} (hn : n ≤ stop)
    (hstop : stop ≤ buf.length) :
    (List.range n).foldl (fun t i => t.set (stop - 1 - i) (val i)) buf =
      buf.take (stop - n) ++ (((List.range n).map val).reverse ++ buf.drop stop) := by
  induction n with
  | zero => simp
  | succ n ih =>
      have htake : buf.take (stop - n) =
          buf.take (stop - (n + 1)) ++ [buf.get ⟨stop - 1 - n, by omega⟩] := by
        rw [show stop - n = stop - (n + 1) + 1 by omega, List.take_add_one,
          List.getElem?_eq_getElem (show stop - (n + 1) < buf.length by omega)]
        simp [show stop - (n + 1) = stop - 1 - n by omega]
      have hlen : (buf.take (stop - (n + 1))).length = stop - 1 - n := by
        rw [List.length_take]
        omega
      rw [List.range_succ, List.foldl_append, List.foldl_cons, List.foldl_nil, ih (by omega), htake,
        List.append_assoc, List.set_append_right _ _ hlen.le, hlen, Nat.sub_self]
      simp

theorem leBytes_eq_map (w n : Nat) :
    leBytes w n = (List.range w).map fun i => UInt8.ofNat (n / 256 ^ i) := by
  induction w generalizing n with
  | zero => rfl
  | succ w ih =>
      rw [leBytes, ih, List.range_succ_eq_map, List.map_cons, List.map_map]
      simp [Nat.div_div_eq_div_mul, Nat.pow_succ']

/-- A byte of a machine word. -/
theorem byte_eq {w : Nat} (hw : 8 ≤ w) (x : BitVec w) (i : Nat) :
    (⟨((x >>> (i * 8)) &&& 0xff).setWidth 8⟩ : Byte) = UInt8.ofNat (x.toNat / 256 ^ i) := by
  have hpow : 2 ^ (i * 8) = 256 ^ i := (pow_mul' 2 i 8).trans rfl
  have hmask : (0xff : BitVec w).toNat = 2 ^ 8 - 1 := by
    have hlt : 2 ^ 8 ≤ 2 ^ w := Nat.pow_le_pow_right (by decide) hw
    exact Nat.mod_eq_of_lt (show 255 < 2 ^ w by omega)
  apply UInt8.toNat.inj
  rw [UInt8.toNat_ofNat']
  change (((x >>> (i * 8)) &&& 0xff).setWidth 8).toNat = _
  rw [BitVec.toNat_setWidth, BitVec.toNat_and, hmask, Nat.and_two_pow_sub_one_eq_mod,
    BitVec.toNat_ushiftRight, Nat.shiftRight_eq_div_pow, hpow, Nat.mod_mod]

/-- The length in bits, lowest byte first. -/
theorem lengthBytes_eq (hn : n < 2 ^ 61) :
    (List.range 8).map (fun i =>
      (⟨(((BitVec.ofNat 64 n * 8) >>> (i * 8)) &&& 0xff).setWidth 8⟩ : Byte)) =
        leBytes 8 (8 * n) := by
  have hbits : (BitVec.ofNat 64 n * 8).toNat = 8 * n := by
    rw [BitVec.toNat_mul, BitVec.toNat_ofNat, show (8 : BitVec 64).toNat = 8 from rfl]
    omega
  rw [leBytes_eq_map]
  refine List.map_congr_left fun i _ => ?_
  rw [byte_eq (by decide), hbits]

theorem outputWord_eq (w : BitVec 32) : outputWord w = Fips180.wordBytes w := by
  have hbytes : outputWord w = ([0, 1, 2, 3].map fun i =>
      (⟨((w >>> (i * 8 : Nat)) &&& 0xff).setWidth 8⟩ : Byte)).reverse := rfl
  rw [hbytes, Fips180.wordBytes, leBytes_eq_map]
  refine congrArg List.reverse (List.map_congr_left fun i _ => ?_)
  exact byte_eq (by decide) w i

theorem tailLen_cases (rest : Nat) :
    (tailLen rest = 64 ∧ rest + 9 ≤ 64) ∨ (tailLen rest = 128 ∧ 64 < rest + 9) := by
  by_cases hle : rest + 1 + 8 ≤ kBlockBytes
  · exact .inl ⟨if_pos hle, hle⟩
  · exact .inr ⟨if_neg hle, Nat.not_le.mp hle⟩

/-- The rest of the data is copied to the front of the buffer. -/
theorem copy_rest {data : Bytes} (hrest : data.length - off ≤ 128) :
    (List.range (data.length - off)).foldlM (fun t i => store t i (data.getD (off + i) 0))
      (List.replicate 128 0) =
        some (data.drop off ++ List.replicate (128 - (data.length - off)) 0) := by
  have hcopied : (List.range (data.length - off)).map (fun i => data.getD (off + i) 0) =
      data.drop off := by
    refine List.ext_getElem (by simp) fun i hi _ => ?_
    have hlt : off + i < data.length := by
      rw [List.length_map, List.length_range] at hi
      omega
    simp [hlt]
  rw [foldlM_store]
  · rw [foldl_set_range _ (by simpa using hrest), List.drop_replicate, hcopied]
  · intro i hi
    rw [List.length_replicate]
    exact (List.mem_range.mp hi).trans_le hrest

/-- The buffer in the end. -/
theorem fillTail_eq {data : Bytes} (hdata : data.length < 2 ^ 61) (hrest : data.length - off < 64) :
    ∃ tail, fillTail data off = some tail ∧ tail.length = 128 ∧
      tail.take (tailLen (data.length - off)) = data.drop off ++ 0x80 ::
        (List.replicate (tailLen (data.length - off) - 9 - (data.length - off)) 0 ++
          (leBytes 8 (8 * data.length)).reverse) := by
  set rest := data.length - off with hr
  have hlen : 9 + rest ≤ tailLen rest ∧ tailLen rest ≤ 128 := by
    rcases tailLen_cases rest with ⟨h, hle⟩ | ⟨h, hlt⟩ <;> omega
  have hdrop : (data.drop off).length = rest := by rw [List.length_drop]
  have hmark : store (data.drop off ++ List.replicate (128 - rest) 0) rest 0x80 =
      some (data.drop off ++ 0x80 :: List.replicate (127 - rest) 0) := by
    rw [store, if_pos (by rw [List.length_append, hdrop, List.length_replicate]; omega),
      List.set_append_right _ _ hdrop.le, hdrop, Nat.sub_self,
      show 128 - rest = 127 - rest + 1 by omega, List.replicate_succ, List.set_cons_zero]
  set marked := data.drop off ++ 0x80 :: List.replicate (127 - rest) 0 with hmarked
  have hmarkedLen : marked.length = 128 := by
    rw [hmarked, List.length_append, List.length_cons, List.length_replicate, hdrop]
    omega
  have hfront : marked.take (tailLen rest - 8) =
      data.drop off ++ 0x80 :: List.replicate (tailLen rest - 9 - rest) 0 := by
    rw [hmarked, List.take_append, List.take_of_length_le (by omega), hdrop,
      show tailLen rest - 8 - rest = tailLen rest - 9 - rest + 1 by omega, List.take_succ_cons,
      List.take_replicate, Nat.min_eq_left (by omega)]
  refine ⟨marked.take (tailLen rest - 8) ++ ((leBytes 8 (8 * data.length)).reverse ++
    marked.drop (tailLen rest)), ?_, ?_, ?_⟩
  · have hbytes := foldl_set_down (fun i =>
      (⟨(((BitVec.ofNat 64 data.length * 8) >>> (i * 8)) &&& 0xff).setWidth 8⟩ : Byte))
      (show 8 ≤ tailLen rest by omega) (hlen.2.trans hmarkedLen.ge)
    rw [lengthBytes_eq hdata] at hbytes
    rw [fillTail, ← hr, show kBlockBytes * 2 = 128 from rfl, copy_rest (by omega), ← hr]
    simp only [Option.bind_eq_bind, Option.bind_some, hmark]
    rw [foldlM_store, hbytes]
    intro i hi
    have hi8 := List.mem_range.mp hi
    omega
  · simp only [List.length_append, List.length_take, List.length_reverse, leBytes_length,
      List.length_drop, hmarkedLen]
    omega
  · rw [hfront, ← List.append_assoc, List.take_append_of_le_length, List.take_of_length_le,
      List.append_assoc, List.cons_append]
    · simp only [List.length_append, List.length_cons, List.length_replicate, List.length_reverse,
        leBytes_length, hdrop]
      omega
    · simp only [List.length_append, List.length_cons, List.length_replicate, List.length_reverse,
        leBytes_length, hdrop]
      omega

theorem flatMap_outputWord (state : HashState) :
    state.toList.flatMap outputWord = Fips180.digest (toVars state) := by
  have hlist : state.toList =
      [state[0], state[1], state[2], state[3], state[4], state[5], state[6], state[7]] := by
    refine List.ext_getElem (by simp) fun i hi _ => ?_
    rw [Vector.length_toList] at hi
    interval_cases i <;> simp
  rw [hlist, Fips180.digest, toVars]
  exact List.flatMap_congr fun w _ => outputWord_eq w

/-- The blocks of the buffer, one or two. -/
theorem hashTail_eq {tail : Bytes} (hlen : tail.length = 128) (rest : Nat) (state : HashState) :
    (List.range' 0 (tailLen rest / kBlockBytes) kBlockBytes).foldlM
      (fun state blk => (blockAt tail blk).map (compressBlock state)) state =
        some ((Fips180.blocks (tailLen rest / 64) (tail.take (tailLen rest))).foldl
          compressBlock state) := by
  have hblock (i : Nat) (hi : i + 64 ≤ 128) : blockAt tail i = some ((tail.drop i).take 64) :=
    if_pos (hi.trans hlen.ge)
  rcases tailLen_cases rest with ⟨h, -⟩ | ⟨h, -⟩
  · rw [h]
    change ((blockAt tail 0).map (compressBlock state)).bind some = _
    rw [hblock 0 (by decide)]
    simp [Fips180.blocks, List.take_take]
  · rw [h]
    change ((blockAt tail 0).map (compressBlock state)).bind (fun state =>
      ((blockAt tail 64).map (compressBlock state)).bind some) = _
    rw [hblock 0 (by decide), hblock 64 (by decide)]
    simp [Fips180.blocks, List.take_of_length_le hlen.le]

/-- `Sha256` is the hash function of the standard, and stays inside its buffer. -/
theorem sha256_eq {data : Bytes} (h : data.length < 2 ^ 61) :
    sha256 data = some (Fips180.sha256 data) := by
  set q := data.length / 64 with hq
  have hblocks : hashBlocks data data.length 0 kInitialState =
      (64 * q, (Fips180.blocks q data).foldl compressBlock kInitialState) := by
    rw [hashBlocks_eq data kInitialState (by omega)]
    simp [hq]
  have hrest : data.length - 64 * q < 64 := by omega
  obtain ⟨tail, htail, hlen, htake⟩ := fillTail_eq h hrest
  have hpad : Fips180.pad data =
      data.take (64 * q) ++ tail.take (tailLen (data.length - 64 * q)) := by
    have hzeros : Fips180.paddingZeros data.length =
        tailLen (data.length - 64 * q) - 9 - (data.length - 64 * q) := by
      unfold Fips180.paddingZeros
      rcases tailLen_cases (data.length - 64 * q) with ⟨htl, hle⟩ | ⟨htl, hlt⟩ <;> omega
    rw [Fips180.pad, htake, hzeros, ← List.append_assoc, List.take_append_drop]
  have hparse : Fips180.parse (Fips180.pad data) = Fips180.blocks q data ++
      Fips180.blocks (tailLen (data.length - 64 * q) / 64)
        (tail.take (tailLen (data.length - 64 * q))) := by
    have hfront : (data.take (64 * q)).length = 64 * q := by
      rw [List.length_take]
      omega
    have hdata : Fips180.blocks q (data.take (64 * q)) = Fips180.blocks q data := by
      have hsplit := Fips180.blocks_append hfront 0 (data.drop (64 * q))
      rw [List.take_append_drop, Fips180.blocks, List.append_nil] at hsplit
      exact hsplit.symm
    have hcount : (Fips180.pad data).length / 64 = q + tailLen (data.length - 64 * q) / 64 := by
      rw [hpad, List.length_append, hfront, List.length_take, hlen]
      rcases tailLen_cases (data.length - 64 * q) with ⟨htl, -⟩ | ⟨htl, -⟩ <;> omega
    rw [Fips180.parse, hcount, hpad, Fips180.blocks_append hfront, hdata]
  rw [sha256, hblocks]
  simp only [htail, Option.bind_eq_bind, Option.bind_some]
  rw [hashTail_eq hlen, ← List.foldl_append, ← hparse, Option.bind_some, Fips180.sha256,
    ← toVars_kInitialState, ← toVars_foldl, ← flatMap_outputWord]
  rfl

/-- A message that needs two blocks of the buffer. -/
def twoBlocks : Bytes := ascii "abcdbcdecdefdefgefghfghighijhijkijkljklmklmnlmnomnopnopq"

theorem sha256_eq_twoBlocks :
    sha256 twoBlocks = some (Fips180.sha256 twoBlocks) ∧ Fips180.sha256 twoBlocks =
      [0x24, 0x8d, 0x6a, 0x61, 0xd2, 0x06, 0x38, 0xb8, 0xe5, 0xc0, 0x26, 0x93, 0x0c, 0x3e, 0x60,
        0x39, 0xa3, 0x3c, 0xe4, 0x59, 0x64, 0xff, 0x21, 0x67, 0xf6, 0xec, 0xed, 0xd4, 0x19, 0xdb,
        0x06, 0xc1] := by
  have heq : sha256 twoBlocks = some (Fips180.sha256 twoBlocks) := sha256_eq (by decide)
  refine ⟨heq, Option.some.inj (heq.symm.trans ?_)⟩
  decide +kernel

end Repkgs.Jig
