import Mathlib.Algebra.Group.Nat.Defs
import Mathlib.Data.List.GetD
import Mathlib.Data.List.Lex
import Mathlib.Data.Prod.Lex
import Repkgs.Lib.Comparators
import Repkgs.Lib.Text

/-!
# Version order

`version cmp` of uptrack (`version.nu`): a version is a list of components, each
a number, a pre-release word or another word, and versions are compared by the
first component at which they differ. A missing component counts as the number
zero when it meets a number and has a place of its own otherwise, below other
words. Other words are below numbers, so a missing component, another word and
the number zero go round in a circle.
-/

namespace Repkgs.Uptrack

open Lib

inductive Kind
  | digit
  | letter
  | other
  deriving DecidableEq

def isLetter (c : Byte) : Bool :=
  (chr 'A' ≤ c && c ≤ chr 'Z') || (chr 'a' ≤ c && c ≤ chr 'z')

def kindOf (c : Byte) : Kind :=
  if isDigit c then .digit else if isLetter c then .letter else .other

/-- The matches of `(\d+|[A-Za-z]+)`, with the run that is being read. -/
def componentsFrom (kind : Kind) (run : Bytes) : Bytes → List Bytes
  | [] => if kind = .other then [] else [run]
  | c :: text =>
      if kindOf c = kind then componentsFrom kind (run ++ [c]) text
      else (if kind = .other then [] else [run]) ++ componentsFrom (kindOf c) [c] text

def components (text : Bytes) : List Bytes := componentsFrom .other [] text

/-- The leftmost match of `\+.*$` goes. -/
def dropBuild : Bytes → Bytes
  | [] => []
  | c :: text => if c = chr '+' ∧ chr '\n' ∉ text then [] else c :: dropBuild text

/-- `str replace -r '^[vV](?=\d)|\+.*$' ''`: one match is replaced, so build
metadata behind a `v` version stays. -/
def stripVersion (v : Bytes) : Bytes :=
  match v with
  | c :: d :: text => if (c = chr 'v' ∨ c = chr 'V') ∧ isDigit d then d :: text else dropBuild v
  | _ => dropBuild v

/-- The pre-release words. -/
def preWords : List Bytes :=
  [ascii "dev", ascii "pre", ascii "preview", ascii "alpha", ascii "a", ascii "beta", ascii "b",
    ascii "rc", ascii "c", ascii "DEV", ascii "PRE", ascii "ALPHA", ascii "BETA", ascii "RC"]

/-- A component with its class; `absent` is the class between the words. -/
inductive Rank
  | pre (index : Nat)
  | absent
  | word (text : Bytes)
  | num (value : Nat)
  deriving DecidableEq

/-- `into int` of a string of digits, which ends at the greatest `int`. -/
def intoInt (digits : Bytes) : Nat := min (parseDecimal digits) (2 ^ 63 - 1)

def rankOf (p : Bytes) : Rank :=
  if p.head?.any isDigit then .num (intoInt p)
  else match preWords.idxOf? p with
    | some i => .pre i
    | none => .word p

def ranks (v : Bytes) : List Rank := (components (stripVersion v)).map rankOf

def Rank.cls : Rank → Nat
  | .pre _ => 0
  | .absent => 1
  | .word _ => 2
  | .num _ => 3

/-- `<` on the values of one class. -/
def Rank.valueLt : Rank → Rank → Bool
  | .pre i, .pre j => i < j
  | .word v, .word w => v < w
  | .num m, .num n => m < n
  | _, _ => false

/-- One round of `version cmp`: a missing component is zero beside a number. -/
def Rank.cmp (x y : Rank) : Int :=
  let x := if x.cls = 1 ∧ y.cls = 3 then .num 0 else x
  let y := if y.cls = 1 ∧ x.cls = 3 then .num 0 else y
  if x ≠ y then if x.cls < y.cls ∨ (x.cls = y.cls ∧ x.valueLt y) then -1 else 1 else 0

/-- `version cmp`. -/
def versionCmp (a b : Bytes) : Int := lexCmp Rank.cmp .absent (ranks a) (ranks b)

/-- `version max`. -/
def versionMax (versions : List Bytes) : Option Bytes := best versionCmp versions

/-- A component in a linear order; `place` says where a missing one goes. -/
def Rank.key (place : Nat) : Rank → Nat ×ₗ Nat ×ₗ List Nat
  | .pre i => toLex (0, toLex (i, []))
  | .absent => toLex (place, toLex (0, []))
  | .word w => toLex (2, toLex (0, w.map UInt8.toNat))
  | .num n => toLex (3, toLex (n, []))

theorem map_toNat_injective : Function.Injective (List.map UInt8.toNat) :=
  List.map_injective_iff.mpr fun _ _ => UInt8.toNat.inj

theorem map_toNat_lt {v w : Bytes} : v.map UInt8.toNat < w.map UInt8.toNat ↔ v < w := by
  have hmono : ∀ {v w : Bytes}, v < w → v.map UInt8.toNat < w.map UInt8.toNat :=
    fun h => List.map_lt (fun _ _ hxy => UInt8.lt_iff_toNat_lt.mp hxy) h
  refine ⟨fun h => ?_, hmono⟩
  by_contra hge
  by_cases heq : v = w
  · subst heq
    exact lt_irrefl _ h
  · have hlt : w < v := Std.lt_of_le_of_ne (List.not_lt.mp hge) (Ne.symm heq)
    exact lt_asymm h (hmono hlt)

variable {v a b : Bytes} {x y : Rank} {i : Nat}

/-- Away from the pair of a missing component and another word, a missing
component is zero. -/
theorem cmp_eq_zeroKey (hxy : ¬ (x = .absent ∧ y.cls = 2)) (hyx : ¬ (y = .absent ∧ x.cls = 2)) :
    x.cmp y = threeWay (x.key 3) (y.key 3) := by
  cases x <;> cases y <;>
    simp_all [Rank.cmp, Rank.cls, Rank.valueLt, Rank.key, threeWay, Prod.Lex.toLex_lt_toLex,
      map_toNat_lt, map_toNat_injective.eq_iff]

/-- Away from the pair of a missing component and zero, a missing component has a
place of its own. -/
theorem cmp_eq_placeKey (hxy : ¬ (x = .absent ∧ y = .num 0)) (hyx : ¬ (y = .absent ∧ x = .num 0)) :
    x.cmp y = threeWay (x.key 1) (y.key 1) := by
  cases x <;> cases y <;>
    simp_all [Rank.cmp, Rank.cls, Rank.valueLt, Rank.key, threeWay, Prod.Lex.toLex_lt_toLex,
      map_toNat_lt, map_toNat_injective.eq_iff]
  next n => rw [if_neg (Ne.symm hxy), if_pos (Nat.pos_of_ne_zero hxy)]

theorem cmp_neg (x y : Rank) : y.cmp x = -x.cmp y := by
  by_cases hpair : (x = .absent ∧ y.cls = 2) ∨ (y = .absent ∧ x.cls = 2)
  · have hxy : ¬ (x = .absent ∧ y = .num 0) := by
      rintro ⟨rfl, rfl⟩
      rcases hpair with ⟨-, h⟩ | ⟨h, -⟩ <;> cases h
    have hyx : ¬ (y = .absent ∧ x = .num 0) := by
      rintro ⟨rfl, rfl⟩
      rcases hpair with ⟨h, -⟩ | ⟨-, h⟩ <;> cases h
    rw [cmp_eq_placeKey hxy hyx, cmp_eq_placeKey hyx hxy, threeWay_neg]
  · rw [not_or] at hpair
    rw [cmp_eq_zeroKey hpair.1 hpair.2, cmp_eq_zeroKey hpair.2 hpair.1, threeWay_neg]

/-- Components that do not differ: only a missing one and zero are not the same. -/
theorem cmp_eq_zero_iff : x.cmp y = 0 ↔ x.key 3 = y.key 3 := by
  by_cases hpair : (x = .absent ∧ y.cls = 2) ∨ (y = .absent ∧ x.cls = 2)
  · rcases hpair with ⟨rfl, hy⟩ | ⟨rfl, hx⟩
    · cases y <;> simp_all [Rank.cls, Rank.cmp, Rank.key]
    · cases x <;> simp_all [Rank.cls, Rank.cmp, Rank.key]
  · rw [not_or] at hpair
    rw [cmp_eq_zeroKey hpair.1 hpair.2, threeWay_eq_zero]

theorem cmp_self (x : Rank) : x.cmp x = 0 := cmp_eq_zero_iff.mpr rfl

/-- The three components that go round in a circle. -/
def Circular (x y z : Rank) : Prop :=
  .absent ∈ [x, y, z] ∧ .num 0 ∈ [x, y, z] ∧ ∃ w, .word w ∈ [x, y, z]

/-- Other components are ordered. -/
theorem cmp_trans {x y z : Rank} (h : ¬ Circular x y z) (hxy : x.cmp y ≤ 0) (hyz : y.cmp z ≤ 0) :
    x.cmp z ≤ 0 ∧ (x.cmp z = 0 → x.cmp y = 0 ∧ y.cmp z = 0) := by
  have hx : x ∈ [x, y, z] := (.head _)
  have hy : y ∈ [x, y, z] := List.mem_cons_of_mem _ (.head _)
  have hz : z ∈ [x, y, z] := by simp
  by_cases hboth : .absent ∈ [x, y, z] ∧ ∃ w, .word w ∈ [x, y, z]
  · have hzero : .num 0 ∉ [x, y, z] := fun hmem => h ⟨hboth.1, hmem, hboth.2⟩
    have hkey : ∀ u ∈ [x, y, z], ∀ v ∈ [x, y, z], u.cmp v = threeWay (u.key 1) (v.key 1) := by
      intro u hu v hv
      apply cmp_eq_placeKey
      · rintro ⟨-, rfl⟩
        exact hzero hv
      · rintro ⟨-, rfl⟩
        exact hzero hu
    rw [hkey x hx y hy] at hxy ⊢
    rw [hkey y hy z hz] at hyz ⊢
    rw [hkey x hx z hz]
    exact threeWay_trans hxy hyz
  · have hword : ∀ v ∈ [x, y, z], v.cls = 2 → ∃ w, .word w ∈ [x, y, z] := by
      intro v hv hcls
      cases v with
      | word w => exact ⟨w, hv⟩
      | pre i => cases hcls
      | absent => cases hcls
      | num n => cases hcls
    have hkey : ∀ u ∈ [x, y, z], ∀ v ∈ [x, y, z], u.cmp v = threeWay (u.key 3) (v.key 3) := by
      intro u hu v hv
      apply cmp_eq_zeroKey
      · rintro ⟨rfl, hcls⟩
        exact hboth ⟨hu, hword v hv hcls⟩
      · rintro ⟨rfl, hcls⟩
        exact hboth ⟨hv, hword u hu hcls⟩
    rw [hkey x hx y hy] at hxy ⊢
    rw [hkey y hy z hz] at hyz ⊢
    rw [hkey x hx z hz]
    exact threeWay_trans hxy hyz

/-- The component of a version at a position. -/
def component (v : Bytes) (i : Nat) : Rank := (ranks v).getD i .absent

/-- From position `i` on the version has zeros, up to its end or to a pre-release
word. -/
def FadesOut (v : Bytes) (i : Nat) : Prop :=
  ∃ k ≥ i, (∀ j, i ≤ j → j < k → component v j = .num 0) ∧
    (component v k = .absent ∨ ∃ n, component v k = .pre n)

/-- `a` ends where `w` goes on with another word and `z` with zeros only, or with
zeros and a pre-release word. -/
def Clash (a w z : Bytes) : Prop :=
  ∃ i, (∀ j < i, (component a j).cmp (component w j) = 0 ∧
      (component a j).cmp (component z j) = 0) ∧
    component a i = .absent ∧ (∃ text, component w i = .word text) ∧ component z i = .num 0 ∧
    FadesOut z i

theorem versionCmp_of_first (hbefore : ∀ j < i, (component a j).cmp (component b j) = 0)
    (hne : (component a i).cmp (component b i) ≠ 0) :
    versionCmp a b = (component a i).cmp (component b i) :=
  lexCmp_of_first (cmp_self .absent) hbefore hne

theorem versionCmp_of_agree (h : ∀ i, (component a i).cmp (component b i) = 0) :
    versionCmp a b = 0 :=
  lexCmp_of_agree h

theorem versionCmp_self (a : Bytes) : versionCmp a a = 0 := lexCmp_self cmp_self _

theorem versionCmp_neg (a b : Bytes) : versionCmp b a = -versionCmp a b := lexCmp_neg cmp_neg _ _

/-- Where the versions have not differed yet, the comparison goes on as the
components say, or they do not differ here either. -/
theorem component_cmp_nonpos (hbefore : ∀ j < i, (component a j).cmp (component b j) = 0)
    (h : versionCmp a b ≤ 0) :
    (component a i).cmp (component b i) ≤ 0 := by
  by_cases hzero : (component a i).cmp (component b i) = 0
  · exact hzero.le
  · rwa [versionCmp_of_first hbefore hzero] at h

theorem absent_lt_word (text : Bytes) : Rank.absent.cmp (.word text) = -1 := by
  simp [Rank.cmp, Rank.cls]

theorem word_lt_num (text : Bytes) (n : Nat) : (Rank.word text).cmp (.num n) = -1 := by
  simp [Rank.cmp, Rank.cls]

/-- Of the components in a circle, two steps down leave three possibilities. -/
theorem Circular.roles {x y z : Rank} (h : Circular x y z) (hxy : x.cmp y ≤ 0)
    (hyz : y.cmp z ≤ 0) :
    (x = .absent ∧ (∃ w, y = .word w) ∧ z = .num 0) ∨
    (y = .absent ∧ (∃ w, z = .word w) ∧ x = .num 0) ∨
    (z = .absent ∧ (∃ w, x = .word w) ∧ y = .num 0) := by
  cases x <;> cases y <;> cases z <;> simp_all [Circular, Rank.cmp, Rank.cls]

theorem agree_trans {a b c : Bytes} (hab : (component a i).cmp (component b i) = 0)
    (hbc : (component b i).cmp (component c i) = 0) : (component a i).cmp (component c i) = 0 := by
  rw [cmp_eq_zero_iff] at *
  exact hab.trans hbc

theorem agree_symm (h : (component a i).cmp (component b i) = 0) :
    (component b i).cmp (component a i) = 0 := by
  rw [cmp_neg, h]
  rfl

theorem rankOf_ne_absent (p : Bytes) : rankOf p ≠ .absent := by
  unfold rankOf
  split_ifs
  · exact nofun
  · cases preWords.idxOf? p <;> exact nofun

theorem component_eq_absent_iff : component v i = .absent ↔ (ranks v).length ≤ i := by
  refine ⟨fun h => ?_, fun h => List.getD_eq_default _ _ h⟩
  by_contra hlt
  rw [not_le] at hlt
  have hmem : component v i ∈ ranks v := by
    rw [component, List.getD_eq_getElem _ _ hlt]
    exact List.getElem_mem hlt
  obtain ⟨p, -, hp⟩ := List.mem_map.mp hmem
  exact rankOf_ne_absent p (hp.trans h)

/-- A version that has ended is not below one that goes on with zeros exactly when
the zeros lead to its end or to a pre-release word. -/
theorem versionCmp_nonneg_iff (hbefore : ∀ j < i, (component a j).cmp (component b j) = 0)
    (ha : component a i = .absent) : 0 ≤ versionCmp a b ↔ FadesOut b i := by
  have hended : ∀ j, i ≤ j → component a j = .absent := fun j hj =>
    component_eq_absent_iff.mpr ((component_eq_absent_iff.mp ha).trans hj)
  -- the first component that is no zero
  have hex : ∃ k, i ≤ k ∧ component b k ≠ .num 0 := by
    refine ⟨max i (ranks b).length, le_max_left _ _, ?_⟩
    rw [component_eq_absent_iff.mpr (le_max_right _ _)]
    exact nofun
  classical
  let k := Nat.find hex
  obtain ⟨hik, hk⟩ : i ≤ k ∧ component b k ≠ .num 0 := Nat.find_spec hex
  have hzeros : ∀ j, i ≤ j → j < k → component b j = .num 0 := fun j hj hjk =>
    not_not.mp fun hne => Nat.find_min hex hjk ⟨hj, hne⟩
  have hagree : ∀ j < k, (component a j).cmp (component b j) = 0 := by
    intro j hj
    rcases lt_or_ge j i with hji | hij
    · exact hbefore j hji
    · rw [hended j hij, hzeros j hij hj]
      decide
  have hfades : FadesOut b i ↔ component b k = .absent ∨ ∃ n, component b k = .pre n := by
    refine ⟨fun ⟨m, him, hm, hend⟩ => ?_, fun hend => ⟨k, hik, hzeros, hend⟩⟩
    have hmk : m = k := by
      refine le_antisymm (not_lt.mp fun hlt => hk (hm k hik hlt)) (not_lt.mp fun hlt => ?_)
      rw [hzeros m him hlt] at hend
      exact hend.elim nofun nofun
    exact hmk ▸ hend
  rw [hfades]
  have hfirst := versionCmp_of_first hagree
  rw [hended k hik] at hfirst
  cases hcase : component b k with
  | absent =>
      have hlevel : versionCmp a b = 0 := by
        refine versionCmp_of_agree fun j => ?_
        rcases lt_or_ge j k with hjk | hkj
        · exact hagree j hjk
        · rw [hended j (hik.trans hkj), component_eq_absent_iff.mpr
            ((component_eq_absent_iff.mp hcase).trans hkj)]
          decide
      simp [hlevel]
  | pre n =>
      rw [hcase] at hfirst
      simp [hfirst, Rank.cmp, Rank.cls]
  | word text =>
      rw [hcase] at hfirst
      simp [hfirst, Rank.cmp, Rank.cls]
  | num n =>
      have hn : n ≠ 0 := fun h0 => hk (h0 ▸ hcase)
      have hcmp : Rank.absent.cmp (.num n) = -1 := by
        simp [Rank.cmp, Rank.cls, Rank.valueLt, hn.symm, Nat.pos_of_ne_zero hn]
      rw [hcase, hcmp] at hfirst
      simp [hfirst]

/-- Versions that clash go round in a circle. -/
theorem Clash.cmp {a w z : Bytes} (h : Clash a w z) :
    versionCmp a w = -1 ∧ versionCmp w z = -1 ∧ 0 ≤ versionCmp a z := by
  obtain ⟨i, hbefore, ha, ⟨text, hw⟩, hz, hfades⟩ := h
  have haw : versionCmp a w = -1 := by
    have hcmp : (component a i).cmp (component w i) = -1 := by
      rw [ha, hw, absent_lt_word]
    rw [versionCmp_of_first (fun j hj => (hbefore j hj).1) (by rw [hcmp]; decide), hcmp]
  have hwz : versionCmp w z = -1 := by
    have hcmp : (component w i).cmp (component z i) = -1 := by
      rw [hw, hz, word_lt_num]
    refine (versionCmp_of_first (fun j hj => ?_) (by rw [hcmp]; decide)).trans hcmp
    exact agree_trans (agree_symm (hbefore j hj).1) (hbefore j hj).2
  exact ⟨haw, hwz, (versionCmp_nonneg_iff (fun j hj => (hbefore j hj).2) ha).mpr hfades⟩

/-- Versions are ordered unless three of them clash. -/
theorem transOn_iff (l : List Bytes) :
    TransOn versionCmp l ↔ ∀ a ∈ l, ∀ w ∈ l, ∀ z ∈ l, ¬ Clash a w z := by
  constructor
  · intro h a ha w hw z hz hclash
    obtain ⟨haw, hwz, haz⟩ := hclash.cmp
    have hza := versionCmp_neg a z
    have hzw := versionCmp_neg w z
    have hdown := h z hz a ha w hw (by omega) (by omega)
    omega
  · intro h a ha b hb c hc hab hbc
    by_cases hall : ∀ i, (component a i).cmp (component b i) = 0 ∧
        (component b i).cmp (component c i) = 0
    · exact (versionCmp_of_agree fun i => agree_trans (hall i).1 (hall i).2).le
    · -- the first position at which the three differ
      rw [not_forall] at hall
      classical
      let i := Nat.find hall
      have hdiff : ¬ ((component a i).cmp (component b i) = 0 ∧
          (component b i).cmp (component c i) = 0) := Nat.find_spec hall
      have hbefore : ∀ j < i, (component a j).cmp (component b j) = 0 ∧
          (component b j).cmp (component c j) = 0 :=
        fun j hj => not_not.mp (Nat.find_min hall hj)
      have hx := component_cmp_nonpos (fun j hj => (hbefore j hj).1) hab
      have hy := component_cmp_nonpos (fun j hj => (hbefore j hj).2) hbc
      by_cases hcircle : Circular (component a i) (component b i) (component c i)
      · rcases hcircle.roles hx hy with ⟨hai, hbi, hci⟩ | ⟨hbi, hci, hai⟩ | ⟨hci, hai, hbi⟩
        · by_contra hgt
          have hac := fun j hj => agree_trans (hbefore j hj).1 (hbefore j hj).2
          exact h a ha b hb c hc ⟨i, fun j hj => ⟨(hbefore j hj).1, hac j hj⟩, hai, hbi, hci,
            (versionCmp_nonneg_iff hac hai).mp (by omega)⟩
        · have hba := versionCmp_neg a b
          have hagree := fun j hj => agree_symm (hbefore j hj).1
          exact absurd ⟨i, fun j hj => ⟨(hbefore j hj).2, hagree j hj⟩, hbi, hci, hai,
            (versionCmp_nonneg_iff hagree hbi).mp (by omega)⟩ (h b hb c hc a ha)
        · have hcb := versionCmp_neg b c
          have hagree := fun j hj => agree_symm (hbefore j hj).2
          refine absurd ⟨i, fun j hj => ⟨?_, hagree j hj⟩, hci, hai, hbi,
            (versionCmp_nonneg_iff hagree hci).mp (by omega)⟩ (h c hc a ha b hb)
          exact agree_symm (agree_trans (hbefore j hj).1 (hbefore j hj).2)
      · obtain ⟨hle, hlevel⟩ := cmp_trans hcircle hx hy
        rw [versionCmp_of_first (fun j hj => agree_trans (hbefore j hj).1 (hbefore j hj).2)
          fun hzero => hdiff (hlevel hzero)]
        exact hle

/-- A version that a suffix can be put behind: it ends with a digit and has no
build metadata. -/
structure BaseVersion (v : Bytes) : Prop where
  ends_digit : v.getLast?.any isDigit
  no_build : chr '+' ∉ v

theorem dropBuild_of_notMem (h : chr '+' ∉ v) : dropBuild v = v := by
  induction v with
  | nil => rfl
  | cons c v ih =>
      have hc : c ≠ chr '+' := fun heq => h (heq ▸ List.mem_cons_self)
      rw [dropBuild, if_neg fun hif => hc hif.1, ih fun hmem => h (.tail _ hmem)]

/-- The kind of the last byte. -/
def endKind (kind : Kind) (text : Bytes) : Kind := (text.getLast?.map kindOf).getD kind

theorem componentsFrom_append (kind : Kind) (run : Bytes) {text : Bytes} {c : Byte}
    (hc : kindOf c ≠ endKind kind text) (rest : Bytes) :
    componentsFrom kind run (text ++ c :: rest) =
      componentsFrom kind run text ++ componentsFrom (kindOf c) [c] rest := by
  induction text generalizing kind run with
  | nil =>
      have hc : kindOf c ≠ kind := hc
      exact if_neg hc
  | cons b text ih =>
      have hend : endKind kind (b :: text) = endKind (kindOf b) text := by
        rw [endKind, endKind, List.getLast?_cons]
        cases text.getLast? <;> rfl
      rw [hend] at hc
      rw [List.cons_append, componentsFrom, componentsFrom]
      split
      · next heq => exact ih kind (run ++ [b]) (heq ▸ hc)
      · rw [ih (kindOf b) [b] hc, List.append_assoc]

theorem BaseVersion.strip_append (h : BaseVersion v) {s : Bytes} (hs : chr '+' ∉ s) :
    stripVersion (v ++ s) = stripVersion v ++ s ∧
      (stripVersion v).getLast?.any isDigit := by
  have hvs : chr '+' ∉ v ++ s := by
    rw [List.mem_append, not_or]
    exact ⟨h.no_build, hs⟩
  match v, h, hvs with
  | [], h, _ => exact absurd h.ends_digit Bool.false_ne_true
  | [c], h, hvs =>
      have hc : isDigit c = true := h.ends_digit
      have hv : ¬ (c = chr 'v' ∨ c = chr 'V') := by
        rintro (rfl | rfl) <;> exact absurd hc (by decide)
      have hstrip : stripVersion [c] = [c] := dropBuild_of_notMem h.no_build
      rw [hstrip]
      refine ⟨?_, h.ends_digit⟩
      cases s with
      | nil => exact hstrip
      | cons d s =>
          change (if (c = chr 'v' ∨ c = chr 'V') ∧ isDigit d then _ else _) = _
          rw [if_neg fun hif => hv hif.1]
          exact dropBuild_of_notMem hvs
  | c :: d :: t, h, hvs =>
      change (if (c = chr 'v' ∨ c = chr 'V') ∧ isDigit d then _ else _) =
          (if (c = chr 'v' ∨ c = chr 'V') ∧ isDigit d then _ else _) ++ s ∧
        (if (c = chr 'v' ∨ c = chr 'V') ∧ isDigit d then _ else _ : Bytes).getLast?.any isDigit
      split
      · exact ⟨rfl, h.ends_digit⟩
      · rw [dropBuild_of_notMem hvs, dropBuild_of_notMem h.no_build]
        exact ⟨rfl, h.ends_digit⟩

/-- The components of a version with a suffix. -/
theorem BaseVersion.ranks_append (h : BaseVersion v) {c : Byte} {rest : Bytes}
    (hc : isDigit c = false) (hs : chr '+' ∉ c :: rest) :
    ranks (v ++ c :: rest) = ranks v ++ (componentsFrom (kindOf c) [c] rest).map rankOf := by
  obtain ⟨hstrip, hend⟩ := h.strip_append hs
  have hkind : kindOf c ≠ endKind .other (stripVersion v) := by
    cases hlast : (stripVersion v).getLast? with
    | none =>
        rw [hlast] at hend
        cases hend
    | some b =>
        have hb : isDigit b = true := by rwa [hlast] at hend
        rw [endKind, hlast, Option.map_some, Option.getD_some, kindOf, kindOf, hb, hc,
          if_neg Bool.false_ne_true, if_pos rfl]
        split <;> exact nofun
  rw [ranks, hstrip, components, componentsFrom_append _ _ hkind, List.map_append]
  rfl

theorem BaseVersion.chain (h : BaseVersion v) :
    versionCmp (v ++ ascii "rc1") v = -1 ∧ versionCmp v (v ++ ascii ".0") = 0 ∧
      versionCmp v (v ++ ascii ".post1") = -1 ∧
      versionCmp (v ++ ascii ".post1") (v ++ ascii ".1") = -1 ∧
      versionCmp (v ++ ascii ".0") (v ++ ascii ".post1") = 1 := by
  have hbase : ranks v = ranks v ++ [] := (List.append_nil _).symm
  have hrc : ranks (v ++ ascii "rc1") = ranks v ++ [.pre 7, .num 1] :=
    h.ranks_append (by decide) (by decide)
  have hzero : ranks (v ++ ascii ".0") = ranks v ++ [.num 0] :=
    h.ranks_append (by decide) (by decide)
  have hpost : ranks (v ++ ascii ".post1") = ranks v ++ [.word (ascii "post"), .num 1] :=
    h.ranks_append (by decide) (by decide)
  have hone : ranks (v ++ ascii ".1") = ranks v ++ [.num 1] :=
    h.ranks_append (by decide) (by decide)
  have hcmp : ∀ {a b : Bytes} {m m' : List Rank}, ranks a = ranks v ++ m →
      ranks b = ranks v ++ m' → versionCmp a b = lexCmp Rank.cmp .absent m m' := by
    intro a b m m' ha hb
    rw [versionCmp, ha, hb, lexCmp_append_left cmp_self]
  refine ⟨(hcmp hrc hbase).trans ?_, (hcmp hbase hzero).trans ?_, (hcmp hbase hpost).trans ?_,
    (hcmp hpost hone).trans ?_, (hcmp hzero hpost).trans ?_⟩ <;> decide

end Repkgs.Uptrack
