import Mathlib.Data.List.Pairwise
import Repkgs.Lib.Bytes
import Repkgs.Lib.Pages

/-!
# Loading ld.so

The entry stub of `crt_interp.c` maps the segments of the interpreter itself:
it reserves a range that covers all of them, maps the file pages of each segment
over it, clears the rest of the last file page and maps zero pages behind it. Then
it reports where it put the interpreter and jumps to its entry point.
-/

namespace Repkgs.CrtInterp

open Lib

structure Prot where
  read : Bool
  write : Bool
  exec : Bool
  deriving DecidableEq

/-- The fields of a program header that the stub reads. -/
structure Phdr where
  type : BitVec 32
  flags : BitVec 32
  offset : Addr
  vaddr : Addr
  filesz : Addr
  memsz : Addr

def protOf (flags : BitVec 32) : Prot where
  read := flags &&& 4 ≠ 0
  write := flags &&& 2 ≠ 0
  exec := flags &&& 1 ≠ 0

def Phdr.prot (ph : Phdr) : Prot := protOf ph.flags

/-- `PT_LOAD` -/
def Phdr.isLoad (ph : Phdr) : Bool := ph.type = 1

def loads (phs : List Phdr) : List Phdr := phs.filter Phdr.isLoad

def widen (r : Addr × Addr) (ph : Phdr) : Addr × Addr :=
  (if ph.vaddr < r.1 then ph.vaddr else r.1,
    if ph.vaddr + ph.memsz > r.2 then ph.vaddr + ph.memsz else r.2)

/-- The lowest start and the highest end of a segment. -/
def extent (phs : List Phdr) : Addr × Addr := (loads phs).foldl widen (BitVec.allOnes 64, 0)

/-- What the stub does to memory: fixed mappings, and a loop that clears bytes. -/
inductive Op
  | mapFile (addr len : Addr) (prot : Prot) (off : Addr)
  | zero (addr stop : Addr)
  | mapAnon (addr len : Addr) (prot : Prot)

def Op.start : Op → Nat
  | mapFile addr _ _ _ => addr.toNat
  | zero addr _ => addr.toNat
  | mapAnon addr _ _ => addr.toNat

def Op.stop : Op → Nat
  | mapFile addr len _ _ => addr.toNat + len.toNat
  | zero _ stop => stop.toNat
  | mapAnon addr len _ => addr.toNat + len.toNat

/-- The part of step 3 for one segment. -/
def segmentOps (pg bias : Addr) (ph : Phdr) : List Op :=
  let segStart := pageDown pg ph.vaddr
  let off := pageDown pg ph.offset
  let fileEnd := ph.vaddr + ph.filesz
  let memEnd := ph.vaddr + ph.memsz
  let mapLen := pageUp pg fileEnd - segStart
  let anonStart := pageUp pg fileEnd
  let anonEnd := pageUp pg memEnd
  (if mapLen ≠ 0 then [.mapFile (bias + segStart) mapLen ph.prot off] else []) ++
    if memEnd > fileEnd then
      (if ph.prot.write then [.zero (bias + fileEnd) (bias + pageUp pg fileEnd)] else []) ++
        if anonEnd > anonStart then [.mapAnon (bias + anonStart) (anonEnd - anonStart) ph.prot]
        else []
    else []

/-- How much is reserved. -/
def reservedSize (pg : Addr) (phs : List Phdr) : Addr :=
  pageUp pg (extent phs).2 - pageDown pg (extent phs).1

/-- What is added to the addresses of the file when `base` was reserved. -/
def biasOf (pg base : Addr) (phs : List Phdr) : Addr := base - pageDown pg (extent phs).1

structure Started where
  ops : List Op
  auxv : List (Addr × Addr)
  entry : Addr

/-- `AT_BASE` and `AT_ENTRY` -/
def patchAuxv (bias realEntry : Addr) (auxv : List (Addr × Addr)) : Option (List (Addr × Addr)) :=
  if auxv.any (·.1 = 7) && auxv.any (·.1 = 9) then
    some (auxv.map fun a =>
      if a.1 = 7 then (7, bias) else if a.1 = 9 then (9, realEntry) else a)
  else none

/-- Steps 3 to 5 of `reloc_main`, given the address of the reservation. -/
def relocMain (pg base entry realEntry : Addr) (auxv : List (Addr × Addr)) (phs : List Phdr) :
    Option Started :=
  let bias := biasOf pg base phs
  (patchAuxv bias realEntry auxv).map fun auxv =>
    ⟨(loads phs).flatMap (segmentOps pg bias), auxv, bias + entry⟩

structure Cell where
  byte : Byte
  prot : Prot
  deriving DecidableEq

/-- What can be accessed; a page of a file mapping that lies behind the end of the file
cannot. -/
abbrev Memory := Nat → Option Cell

def Memory.fill (m : Memory) (start stop : Nat) (f : Nat → Option Cell) : Memory := fun a =>
  if start ≤ a ∧ a < stop then f a else m a

def Op.exec (pg : Nat) (file : Bytes) (m : Memory) : Op → Option Memory
  | mapFile addr len prot off => some <| m.fill addr.toNat (addr.toNat + len.toNat) fun a =>
      let pos := off.toNat + (a - addr.toNat)
      if down pg pos < file.length then some ⟨file.getD pos 0, prot⟩ else none
  | mapAnon addr len prot => some <| m.fill addr.toNat (addr.toNat + len.toNat) fun _ =>
      some ⟨0, prot⟩
  | zero addr stop =>
      -- a store to what is not mapped or is read-only kills the process
      if (List.range' addr.toNat (stop.toNat - addr.toNat)).all
          fun a => (m a).any fun c => c.prot.write then
        some <| m.fill addr.toNat stop.toNat fun a => (m a).map fun c => { c with byte := 0 }
      else none

def runOps (pg : Nat) (file : Bytes) (ops : List Op) (m : Memory) : Option Memory :=
  ops.foldlM (fun m op => op.exec pg file m) m

theorem Memory.fill_congr {m : Memory} {start stop : Nat} {f g : Nat → Option Cell}
    (h : ∀ a, start ≤ a → a < stop → f a = g a) : m.fill start stop f = m.fill start stop g := by
  funext a
  unfold fill
  split
  · exact h a (by omega) (by omega)
  · rfl

theorem Memory.fill_empty {m : Memory} {start stop : Nat} {f : Nat → Option Cell}
    (h : stop ≤ start) : m.fill start stop f = m := by
  funext a
  exact if_neg (by omega)

section Fills

variable {β : Type} (start stop : β → Nat) (f : β → Nat → Option Cell)

def Memory.fillAll (m : Memory) (l : List β) : Memory :=
  l.foldl (fun m b => m.fill (start b) (stop b) (f b)) m

variable {start stop f}

theorem Memory.fillAll_of_not_mem {m : Memory} {l : List β} {a : Nat}
    (h : ∀ b ∈ l, ¬ (start b ≤ a ∧ a < stop b)) : m.fillAll start stop f l a = m a := by
  induction l generalizing m with
  | nil => rfl
  | cons b l ih =>
      have hrest : (m.fill (start b) (stop b) (f b)).fillAll start stop f l a =
          m.fill (start b) (stop b) (f b) a := ih fun c hc => h c (.tail _ hc)
      exact hrest.trans (if_neg (h b (.head _)))

/-- Where ranges are disjoint, each keeps what it was filled with. -/
theorem Memory.fillAll_of_mem {m : Memory} {l : List β} {b : β} {a : Nat} (hb : b ∈ l)
    (hdisj : l.Pairwise fun b c => ∀ a, start b ≤ a ∧ a < stop b → ¬ (start c ≤ a ∧ a < stop c))
    (ha : start b ≤ a ∧ a < stop b) : m.fillAll start stop f l a = f b a := by
  induction l generalizing m with
  | nil => cases hb
  | cons c l ih =>
      obtain ⟨hhead, htail⟩ := List.pairwise_cons.mp hdisj
      rcases List.mem_cons.mp hb with rfl | hb
      · have hkeep : (m.fill (start b) (stop b) (f b)).fillAll start stop f l a =
            m.fill (start b) (stop b) (f b) a :=
          fillAll_of_not_mem fun c hc => hhead c hc a ha
        exact hkeep.trans (if_pos ha)
      · exact ih hb htail

end Fills

theorem Op.exec_frame {pg : Nat} {file : Bytes} {m m' : Memory} {op : Op} {a : Nat}
    (h : op.exec pg file m = some m') (ha : ¬ (op.start ≤ a ∧ a < op.stop)) : m' a = m a := by
  cases op with
  | mapFile addr len prot off =>
      obtain rfl := Option.some.inj h
      exact if_neg ha
  | mapAnon addr len prot =>
      obtain rfl := Option.some.inj h
      exact if_neg ha
  | zero addr stop =>
      rw [exec] at h
      split at h
      · obtain rfl := Option.some.inj h
        exact if_neg ha
      · cases h

theorem runOps_frame {pg : Nat} {file : Bytes} {ops : List Op} {m m' : Memory} {a : Nat}
    (h : runOps pg file ops m = some m') (ha : ∀ op ∈ ops, ¬ (op.start ≤ a ∧ a < op.stop)) :
    m' a = m a := by
  induction ops generalizing m with
  | nil => exact congrFun (Option.some.inj h).symm a
  | cons op ops ih =>
      obtain ⟨m₁, hop, hrest⟩ := Option.bind_eq_some_iff.mp h
      have hkeep := ih hrest fun other hother => ha other (.tail _ hother)
      exact hkeep.trans (Op.exec_frame hop (ha op (.head _)))

theorem runOps_append (pg : Nat) (file : Bytes) (ops more : List Op) (m : Memory) :
    runOps pg file (ops ++ more) m = (runOps pg file ops m).bind (runOps pg file more) :=
  List.foldlM_append

namespace Phdr

variable (p : Nat) (ph : Phdr)

def fileEnd : Nat := ph.vaddr.toNat + ph.filesz.toNat

def memEnd : Nat := ph.vaddr.toNat + ph.memsz.toNat

/-- The addresses of the pages of a segment. -/
def InPages (x : Nat) : Prop := down p ph.vaddr.toNat ≤ x ∧ x < up p ph.memEnd

end Phdr

/-- Segments as the specification has them, for pages of `p` bytes. -/
structure Loadable (p : Nat) (file : Bytes) (phs : List Phdr) : Prop where
  filesz_le : ∀ ph ∈ loads phs, ph.filesz.toNat ≤ ph.memsz.toNat
  congruent : ∀ ph ∈ loads phs, ph.offset.toNat % p = ph.vaddr.toNat % p
  writable : ∀ ph ∈ loads phs, ph.filesz.toNat < ph.memsz.toNat → ph.prot.write = true
  inFile : ∀ ph ∈ loads phs, ph.offset.toNat + ph.filesz.toNat ≤ file.length
  disjoint : (loads phs).Pairwise fun a b => ∀ x, a.InPages p x → ¬ b.InPages p x

/-- The kernel reserved a range for the stub. -/
structure Reserved (p : Nat) (base size : Addr) : Prop where
  aligned : p ∣ base.toNat
  nonempty : size ≠ 0
  inSpace : base.toNat + size.toNat < 2 ^ 64

/-- Nothing of the range can be accessed yet. -/
def Blank (base size : Addr) (m : Memory) : Prop :=
  ∀ a, base.toNat ≤ a → a < base.toNat + size.toNat → m a = none

/-- The interpreter is in memory as its file says. -/
structure Loaded (pg base entry : Addr) (file : Bytes) (phs : List Phdr) (m : Memory)
    (out : Started) : Prop where
  inside : ∀ op ∈ out.ops, base.toNat ≤ op.start ∧
    op.stop ≤ base.toNat + (reservedSize pg phs).toNat
  kept : (loads phs).Pairwise fun a b => ∀ op ∈ segmentOps pg (biasOf pg base phs) b,
    ∀ x, op.start ≤ x → x < op.stop →
      ¬ ((biasOf pg base phs + a.vaddr).toNat ≤ x ∧
        x < (biasOf pg base phs + a.vaddr).toNat + a.memsz.toNat)
  memory : ∃ m', runOps pg.toNat file out.ops m = some m' ∧ ∀ ph ∈ loads phs,
    (∀ i < ph.memsz.toNat, m' ((biasOf pg base phs + ph.vaddr).toNat + i) =
      some ⟨if i < ph.filesz.toNat then file.getD (ph.offset.toNat + i) 0 else 0, ph.prot⟩) ∧
    (ph.filesz.toNat < ph.memsz.toNat → ∀ i, ph.filesz.toNat ≤ i →
      ph.vaddr.toNat + i < up pg.toNat ph.memEnd →
        m' ((biasOf pg base phs + ph.vaddr).toNat + i) = some ⟨0, ph.prot⟩)
  reported : (∀ a ∈ out.auxv, a.1 = 7 → a.2 = biasOf pg base phs) ∧
    out.entry = biasOf pg base phs + entry

namespace Phdr

variable (p : Nat) (file : Bytes) (ph : Phdr)

/-- If the end of the segment is beyond the address space, so is that of its file contents;
likewise for the ends of their last pages. -/
structure WrapsAlike : Prop where
  stop : 2 ^ 64 ≤ ph.memEnd → 2 ^ 64 ≤ ph.fileEnd
  page : 2 ^ 64 ≤ up p ph.memEnd → 2 ^ 64 ≤ up p ph.fileEnd

/-- There is no page behind those of the file, and the file itself has zeros in the rest of
the last one. -/
structure ZeroTail : Prop where
  page : up p ph.fileEnd = up p ph.memEnd
  zero : ∀ i, ph.filesz.toNat ≤ i → ph.vaddr.toNat + i < up p ph.memEnd →
    file.getD (ph.offset.toNat + i) 0 = 0

end Phdr

/-- No segment runs to the end of the address space or beyond it, or there is one segment
only and its pages are fewer than those of the address space. -/
def Covered (p : Nat) (phs : List Phdr) : Prop :=
  (∀ ph ∈ loads phs, ph.memEnd < 2 ^ 64) ∨
    ∃ ph, loads phs = [ph] ∧ up p ph.memEnd < down p ph.vaddr.toNat + 2 ^ 64

/-- The reservation covers the segments, and what is behind their file contents is cleared
or need not be. -/
structure Placeable (p : Nat) (file : Bytes) (phs : List Phdr) : Prop where
  covered : Covered p phs
  cleared : ∀ ph ∈ loads phs, ph.filesz.toNat < ph.memsz.toNat →
    ph.WrapsAlike p ∨ ph.ZeroTail p file

/-- Where addresses of the file end up: `low` is at `start`. -/
structure Window (bias : Addr) where
  low : Nat
  start : Nat
  size : Nat
  bias_eq : bias.toNat = (start + (2 ^ 64 - low)) % 2 ^ 64
  low_lt : low < 2 ^ 64
  inSpace : start + size < 2 ^ 64

namespace Window

variable {bias : Addr} (w : Window bias)

def place (x : Nat) : Nat := w.start + (x - w.low)

/-- Also the end of the address space, which is address 0, is moved to its place. -/
theorem toNat_add {x : Addr} {n : Nat} (hx : x.toNat = n % 2 ^ 64) (hlow : w.low ≤ n)
    (hn : n ≤ w.low + w.size) : (bias + x).toNat = w.place n := by
  have hbias := w.bias_eq
  have hlt := w.low_lt
  have hsize := w.inSpace
  rw [BitVec.toNat_add, hbias, hx, place]
  omega

theorem place_le {x y : Nat} (h : x ≤ y) : w.place x ≤ w.place y := by
  unfold place
  omega

theorem place_le_end {x : Nat} (h : x ≤ w.low + w.size) : w.place x ≤ w.start + w.size := by
  unfold place
  omega

end Window

/-- A segment that lies in the window. -/
structure Phdr.Fits {bias : Addr} (p : Nat) (file : Bytes) (w : Window bias) (ph : Phdr) :
    Prop where
  filesz_le : ph.filesz.toNat ≤ ph.memsz.toNat
  congruent : ph.offset.toNat % p = ph.vaddr.toNat % p
  writable : ph.filesz.toNat < ph.memsz.toNat → ph.prot.write = true
  inFile : ph.offset.toNat + ph.filesz.toNat ≤ file.length
  low_le : w.low ≤ down p ph.vaddr.toNat
  le_top : up p ph.memEnd ≤ w.low + w.size

/-- The addresses where the pages of a segment are put. -/
def Phdr.Spans {bias : Addr} (p : Nat) (w : Window bias) (ph : Phdr) (a : Nat) : Prop :=
  w.place (down p ph.vaddr.toNat) ≤ a ∧ a < w.place (up p ph.memEnd)

theorem widen_le (r : Addr × Addr) (ph : Phdr) :
    (widen r ph).1.toNat ≤ r.1.toNat ∧ (widen r ph).1.toNat ≤ ph.vaddr.toNat ∧
      r.2.toNat ≤ (widen r ph).2.toNat ∧
        (ph.vaddr + ph.memsz).toNat ≤ (widen r ph).2.toNat := by
  unfold widen
  simp only [BitVec.lt_def, gt_iff_lt]
  split <;> split <;> omega

theorem foldl_widen (phs : List Phdr) (r : Addr × Addr) :
    (phs.foldl widen r).1.toNat ≤ r.1.toNat ∧ r.2.toNat ≤ (phs.foldl widen r).2.toNat ∧
      ∀ ph ∈ phs, (phs.foldl widen r).1.toNat ≤ ph.vaddr.toNat ∧
        (ph.vaddr + ph.memsz).toNat ≤ (phs.foldl widen r).2.toNat := by
  induction phs generalizing r with
  | nil => simp
  | cons ph phs ih =>
      obtain ⟨hlow, hhigh, hmem⟩ := ih (widen r ph)
      obtain ⟨hlow', hvaddr, hhigh', hend⟩ := widen_le r ph
      rw [List.foldl_cons]
      refine ⟨hlow.trans hlow', hhigh'.trans hhigh, fun other hother => ?_⟩
      rcases List.mem_cons.mp hother with rfl | hother
      · exact ⟨hlow.trans hvaddr, hend.trans hhigh⟩
      · exact hmem other hother

theorem foldl_widen_attained (phs : List Phdr) (r : Addr × Addr) :
    (phs.foldl widen r).2 = r.2 ∨ ∃ ph ∈ phs, (phs.foldl widen r).2 = ph.vaddr + ph.memsz := by
  induction phs generalizing r with
  | nil => exact Or.inl rfl
  | cons ph phs ih =>
      rw [List.foldl_cons]
      rcases ih (widen r ph) with hsame | ⟨other, hother, hend⟩
      · rw [hsame]
        by_cases hgt : ph.vaddr + ph.memsz > r.2
        · exact Or.inr ⟨ph, .head _, if_pos hgt⟩
        · exact Or.inl (if_neg hgt)
      · exact Or.inr ⟨other, .tail _ hother, hend⟩

theorem extent_singleton {phs : List Phdr} {ph : Phdr} (h : loads phs = [ph]) :
    extent phs = (ph.vaddr, ph.vaddr + ph.memsz) := by
  rw [extent, h]
  have hmax : ∀ x : Addr, (if x < BitVec.allOnes 64 then x else BitVec.allOnes 64) = x := by
    intro x
    have hx := x.isLt
    split
    · rfl
    · next hge =>
        rw [BitVec.lt_def, BitVec.toNat_allOnes] at hge
        apply BitVec.eq_of_toNat_eq
        rw [BitVec.toNat_allOnes]
        omega
  have hmin : ∀ x : Addr, (if x > 0 then x else 0) = x := by
    intro x
    split
    · rfl
    · next hle =>
        rw [gt_iff_lt, BitVec.lt_def] at hle
        exact BitVec.eq_of_toNat_eq (Nat.le_zero.mp (Nat.not_lt.mp hle)).symm
  change widen (BitVec.allOnes 64, 0) ph = _
  rw [widen, hmax, hmin]

theorem extent_covers {phs : List Phdr} {ph : Phdr} (h : ph ∈ loads phs) :
    (extent phs).1.toNat ≤ ph.vaddr.toNat ∧
      (ph.vaddr + ph.memsz).toNat ≤ (extent phs).2.toNat :=
  (foldl_widen (loads phs) _).2.2 ph h

section Segments

variable {k : Nat} {pg base bias : Addr} {file : Bytes} {phs : List Phdr} {ph : Phdr}
  {m : Memory} (hpg : pg.toNat = 2 ^ k) (hk : k < 64)

include hpg hk

/-- The reservation, counted from its start, modulo the address space. -/
theorem reservedSize_mod :
    (reservedSize pg phs).toNat = (2 ^ 64 - down (2 ^ k) (extent phs).1.toNat +
      up (2 ^ k) (extent phs).2.toNat % 2 ^ 64) % 2 ^ 64 := by
  rw [reservedSize, BitVec.toNat_sub, toNat_pageDown hpg hk, toNat_pageUp hpg hk]

theorem toNat_reservedSize (h : reservedSize pg phs ≠ 0)
    (hle : (extent phs).1.toNat ≤ (extent phs).2.toNat) :
    down (2 ^ k) (extent phs).1.toNat + (reservedSize pg phs).toNat =
      up (2 ^ k) (extent phs).2.toNat := by
  have hpos : 0 < 2 ^ k := Nat.two_pow_pos k
  have hsize : (reservedSize pg phs).toNat ≠ 0 := fun h0 => h (BitVec.eq_of_toNat_eq h0)
  rw [reservedSize_mod hpg hk] at hsize ⊢
  have hdown := down_le (2 ^ k) (extent phs).1.toNat
  have hup := le_up hpos (extent phs).2.toNat
  have htop : up (2 ^ k) (extent phs).2.toNat ≤ 2 ^ 64 :=
    up_le_of_dvd hpos (Nat.pow_dvd_pow 2 hk.le) (extent phs).2.isLt.le
  omega

/-- The window of a reservation. -/
def window (hres : Reserved (2 ^ k) base (reservedSize pg phs)) :
    Window (biasOf pg base phs) where
  low := down (2 ^ k) (extent phs).1.toNat
  start := base.toNat
  size := (reservedSize pg phs).toNat
  bias_eq := by
    rw [biasOf, BitVec.toNat_sub, toNat_pageDown hpg hk, Nat.add_comm]
  low_lt := (down_le _ _).trans_lt (extent phs).1.isLt
  inSpace := hres.inSpace

theorem Loadable.fits (h : Loadable (2 ^ k) file phs)
    (hres : Reserved (2 ^ k) base (reservedSize pg phs))
    (hcov : Covered (2 ^ k) phs) (hph : ph ∈ loads phs) :
      ph.Fits (2 ^ k) file (window hpg hk hres) := by
  have hpos : 0 < 2 ^ k := Nat.two_pow_pos k
  obtain ⟨hlow, hhigh⟩ := extent_covers hph
  refine ⟨h.filesz_le ph hph, h.congruent ph hph, h.writable ph hph, h.inFile ph hph,
    down_mono hlow, ?_⟩
  have hle : ph.vaddr.toNat ≤ ph.memEnd := Nat.le_add_right _ _
  change up (2 ^ k) ph.memEnd ≤ down (2 ^ k) (extent phs).1.toNat + (reservedSize pg phs).toNat
  rcases hcov with hspace | ⟨only, honly, hpages⟩
  · have hend : (ph.vaddr + ph.memsz).toNat = ph.memEnd := by
      rw [BitVec.toNat_add]
      exact Nat.mod_eq_of_lt (hspace ph hph)
    rw [hend] at hhigh
    have hsize := toNat_reservedSize hpg hk hres.nonempty (hlow.trans (hle.trans hhigh))
    calc up (2 ^ k) ph.memEnd ≤ up (2 ^ k) (extent phs).2.toNat := up_mono hpos hhigh
      _ = _ := hsize.symm
  · -- both ends of the reservation are those of the segment
    rw [honly, List.mem_singleton] at hph
    subst hph
    have hend : up (2 ^ k) (ph.vaddr + ph.memsz).toNat % 2 ^ 64 =
        up (2 ^ k) ph.memEnd % 2 ^ 64 := by
      rw [BitVec.toNat_add]
      exact up_mod hk.le _
    have hdown := down_le (2 ^ k) ph.vaddr.toNat
    have hup := le_up hpos ph.memEnd
    have hvaddr := ph.vaddr.isLt
    rw [reservedSize_mod hpg hk, extent_singleton honly]
    dsimp only
    rw [hend]
    omega

namespace Phdr.Fits

variable {w : Window bias} (h : ph.Fits (2 ^ k) file w)

include h

omit hpg hk in
theorem fileEnd_le : ph.fileEnd ≤ ph.memEnd := Nat.add_le_add_left h.filesz_le _

omit hpg hk h in
theorem toNat_fileEnd : (ph.vaddr + ph.filesz).toNat = ph.fileEnd % 2 ^ 64 := BitVec.toNat_add _ _

omit hpg hk h in
theorem toNat_memEnd : (ph.vaddr + ph.memsz).toNat = ph.memEnd % 2 ^ 64 := BitVec.toNat_add _ _

omit hpg hk in
/-- The pages are fewer than those of the address space. -/
theorem up_memEnd_lt : up (2 ^ k) ph.memEnd < down (2 ^ k) ph.vaddr.toNat + 2 ^ 64 := by
  have hlow := h.low_le
  have htop := h.le_top
  have hspace := w.inSpace
  omega

omit hpg hk in
theorem up_fileEnd_le : up (2 ^ k) ph.fileEnd ≤ up (2 ^ k) ph.memEnd :=
  up_mono (Nat.two_pow_pos k) h.fileEnd_le

omit hpg hk h in
theorem down_le_up : down (2 ^ k) ph.vaddr.toNat ≤ up (2 ^ k) ph.fileEnd :=
  (down_le _ _).trans ((Nat.le_add_right _ _).trans (le_up (Nat.two_pow_pos k) _))

theorem toNat_start :
    (bias + pageDown pg ph.vaddr).toNat = w.place (down (2 ^ k) ph.vaddr.toNat) := by
  have hle : down (2 ^ k) ph.vaddr.toNat ≤ up (2 ^ k) ph.fileEnd := down_le_up
  have hup := h.up_fileEnd_le
  refine w.toNat_add ?_ h.low_le (by have := h.le_top; omega)
  rw [toNat_pageDown hpg hk, Nat.mod_eq_of_lt ((down_le _ _).trans_lt ph.vaddr.isLt)]

omit hpg hk in
theorem toNat_clear : (bias + (ph.vaddr + ph.filesz)).toNat = w.place ph.fileEnd := by
  have hlow := h.low_le.trans (down_le _ _)
  have hup := le_up (Nat.two_pow_pos k) ph.fileEnd
  have hle := h.up_fileEnd_le
  have htop := h.le_top
  exact w.toNat_add toNat_fileEnd (hlow.trans (Nat.le_add_right _ _)) (by omega)

theorem toNat_fileStop :
    (bias + pageUp pg (ph.vaddr + ph.filesz)).toNat = w.place (up (2 ^ k) ph.fileEnd) := by
  exact w.toNat_add (toNat_pageUp_of_mod hpg hk toNat_fileEnd) (h.low_le.trans down_le_up)
    (h.up_fileEnd_le.trans h.le_top)

omit hpg hk h in
/-- Every page that is mapped holds bytes of the file. -/
theorem page_in_file (hcong : ph.offset.toNat % 2 ^ k = ph.vaddr.toNat % 2 ^ k)
    (hfile : ph.offset.toNat + ph.filesz.toNat ≤ file.length) {i : Nat}
    (hi : down (2 ^ k) ph.vaddr.toNat + i < up (2 ^ k) ph.fileEnd) :
    down (2 ^ k) (down (2 ^ k) ph.offset.toNat + i) < file.length := by
  by_contra hlen
  have hpos : 0 < 2 ^ k := Nat.two_pow_pos k
  have hoff := down_add_mod (2 ^ k) ph.offset.toNat
  have hvaddr := down_add_mod (2 ^ k) ph.vaddr.toNat
  set o := down (2 ^ k) ph.offset.toNat
  set v := down (2 ^ k) ph.vaddr.toNat
  set q := down (2 ^ k) (o + i) with hq
  have hle : o ≤ q := le_down_of_dvd hpos (dvd_down _ _) (Nat.le_add_right o i)
  have hqle : q ≤ o + i := down_le _ _
  -- the page counted in addresses instead of offsets
  have hdvd : 2 ^ k ∣ q - o + v :=
    Nat.dvd_add (Nat.dvd_sub (dvd_down _ _) (dvd_down _ _)) (dvd_down _ _)
  have hend : ph.fileEnd ≤ q - o + v := by
    unfold fileEnd
    omega
  have hup := up_le_of_dvd hpos hdvd hend
  omega

/-- The byte that the file mapping has at an address. -/
def fileByte (file : Bytes) (p : Nat) (w : Window bias) (ph : Phdr) (a : Nat) : Byte :=
  file.getD (down p ph.offset.toNat + (a - w.place (down p ph.vaddr.toNat))) 0

theorem toNat_mapLen :
    w.place (down (2 ^ k) ph.vaddr.toNat) +
        (pageUp pg (ph.vaddr + ph.filesz) - pageDown pg ph.vaddr).toNat =
      w.place (up (2 ^ k) ph.fileEnd) := by
  have hle : down (2 ^ k) ph.vaddr.toNat ≤ up (2 ^ k) ph.fileEnd := down_le_up
  have hup := h.up_fileEnd_le
  have htop := h.le_top
  have hlow := h.low_le
  have hmem := h.up_memEnd_lt
  have hvaddr := (down_le (2 ^ k) ph.vaddr.toNat).trans_lt ph.vaddr.isLt
  rw [BitVec.toNat_sub, toNat_pageDown hpg hk, toNat_pageUp_of_mod hpg hk toNat_fileEnd,
    Window.place, Window.place]
  omega

theorem run_mapFile :
    runOps (2 ^ k) file
      (if pageUp pg (ph.vaddr + ph.filesz) - pageDown pg ph.vaddr ≠ 0 then
        [.mapFile (bias + pageDown pg ph.vaddr)
          (pageUp pg (ph.vaddr + ph.filesz) - pageDown pg ph.vaddr) ph.prot
          (pageDown pg ph.offset)] else []) m =
      some (m.fill (w.place (down (2 ^ k) ph.vaddr.toNat)) (w.place (up (2 ^ k) ph.fileEnd))
        fun a => some ⟨fileByte file (2 ^ k) w ph a, ph.prot⟩) := by
  have hlen := h.toNat_mapLen hpg hk
  set len := pageUp pg (ph.vaddr + ph.filesz) - pageDown pg ph.vaddr
  by_cases hzero : len = 0
  · have hz : len.toNat = 0 := by rw [hzero]; rfl
    rw [if_neg (by simpa using hzero), Memory.fill_empty (by omega)]
    rfl
  · rw [if_pos hzero]
    change some (m.fill _ _ _) = _
    rw [h.toNat_start hpg hk, hlen, toNat_pageDown hpg hk]
    refine congrArg some (Memory.fill_congr fun a hstart hstop => if_pos ?_)
    refine page_in_file h.congruent h.inFile ?_
    have hlow := h.low_le
    unfold Window.place at hstart hstop ⊢
    omega

theorem run_zero (hlt : ph.filesz.toNat < ph.memsz.toNat)
    (hm : ∀ a, w.place ph.fileEnd ≤ a → a < w.place (up (2 ^ k) ph.fileEnd) →
      ∃ b, m a = some ⟨b, ph.prot⟩) :
    runOps (2 ^ k) file
      (if ph.prot.write then [.zero (bias + (ph.vaddr + ph.filesz))
        (bias + pageUp pg (ph.vaddr + ph.filesz))] else []) m =
      some (m.fill (w.place ph.fileEnd) (w.place (up (2 ^ k) ph.fileEnd))
        fun _ => some ⟨0, ph.prot⟩) := by
  have hwrite := h.writable hlt
  rw [if_pos hwrite]
  change (Op.exec _ _ _ _).bind some = _
  rw [Option.bind_fun_some, Op.exec, h.toNat_clear, h.toNat_fileStop hpg hk]
  have hall : (List.range' (w.place ph.fileEnd)
      (w.place (up (2 ^ k) ph.fileEnd) - w.place ph.fileEnd)).all
        (fun a => (m a).any fun c => c.prot.write) = true := by
    rw [List.all_eq_true]
    intro a ha
    rw [List.mem_range'_1] at ha
    obtain ⟨b, hb⟩ := hm a ha.1 (by omega)
    rw [hb]
    exact hwrite
  rw [if_pos hall]
  refine congrArg some (Memory.fill_congr fun a hstart hstop => ?_)
  obtain ⟨b, hb⟩ := hm a hstart hstop
  rw [hb]
  rfl

/-- The pages behind the file are mapped unless they run to the end of the address space. -/
theorem run_mapAnon (hwraps : ph.WrapsAlike (2 ^ k)) :
    runOps (2 ^ k) file
      (if pageUp pg (ph.vaddr + ph.memsz) > pageUp pg (ph.vaddr + ph.filesz) then
        [.mapAnon (bias + pageUp pg (ph.vaddr + ph.filesz))
          (pageUp pg (ph.vaddr + ph.memsz) - pageUp pg (ph.vaddr + ph.filesz)) ph.prot]
        else []) m =
      some (m.fill (w.place (up (2 ^ k) ph.fileEnd)) (w.place (up (2 ^ k) ph.memEnd))
        fun _ => some ⟨0, ph.prot⟩) := by
  have hle := h.up_fileEnd_le
  have hmem := h.up_memEnd_lt
  have hvaddr := (down_le (2 ^ k) ph.vaddr.toNat).trans_lt ph.vaddr.isLt
  have hpage := hwraps.page
  have hlow : w.low ≤ up (2 ^ k) ph.fileEnd := h.low_le.trans down_le_up
  have hstart := toNat_pageUp_of_mod hpg hk (@toNat_fileEnd ph)
  have hend := toNat_pageUp_of_mod hpg hk (@toNat_memEnd ph)
  by_cases hgt : pageUp pg (ph.vaddr + ph.memsz) > pageUp pg (ph.vaddr + ph.filesz)
  · rw [if_pos hgt]
    change some (m.fill _ _ _) = _
    rw [gt_iff_lt, BitVec.lt_def, hstart, hend] at hgt
    rw [h.toNat_fileStop hpg hk, BitVec.toNat_sub, hstart, hend]
    congr 2
    unfold Window.place
    omega
  · rw [if_neg hgt, Memory.fill_empty]
    · rfl
    · rw [gt_iff_lt, BitVec.lt_def, hstart, hend] at hgt
      exact w.place_le (by omega)

/-- What a segment is when it is loaded, with the slack of its first and last pages. -/
def image (file : Bytes) (p : Nat) (w : Window bias) (ph : Phdr) (a : Nat) : Option Cell :=
  some ⟨if ph.filesz.toNat < ph.memsz.toNat ∧ w.place ph.fileEnd ≤ a then 0
    else fileByte file p w ph a, ph.prot⟩

omit hpg hk in
/-- The byte that the file mapping has at an offset into the segment. -/
theorem fileByte_add (i : Nat) :
    fileByte file (2 ^ k) w ph (w.place ph.vaddr.toNat + i) =
      file.getD (ph.offset.toNat + i) 0 := by
  have hoff := down_add_mod (2 ^ k) ph.offset.toNat
  have hvaddr := down_add_mod (2 ^ k) ph.vaddr.toNat
  have hcong := h.congruent
  have hlow := h.low_le
  rw [fileByte]
  congr 1
  unfold Window.place
  omega

omit hpg hk in
theorem gt_iff_wrapsAlike (hlt : ph.filesz.toNat < ph.memsz.toNat) :
    ph.vaddr + ph.memsz > ph.vaddr + ph.filesz ↔ (2 ^ 64 ≤ ph.memEnd → 2 ^ 64 ≤ ph.fileEnd) := by
  have hmem := (le_up (Nat.two_pow_pos k) ph.memEnd).trans_lt h.up_memEnd_lt
  have hdown := down_le (2 ^ k) ph.vaddr.toNat
  have hvaddr := ph.vaddr.isLt
  rw [gt_iff_lt, BitVec.lt_def, toNat_fileEnd, toNat_memEnd]
  unfold fileEnd memEnd at *
  omega

theorem run_segmentOps
    (hclear : ph.filesz.toNat < ph.memsz.toNat → ph.WrapsAlike (2 ^ k) ∨ ph.ZeroTail (2 ^ k) file) :
    runOps (2 ^ k) file (segmentOps pg bias ph) m =
      some (m.fill (w.place (down (2 ^ k) ph.vaddr.toNat)) (w.place (up (2 ^ k) ph.memEnd))
        (image file (2 ^ k) w ph)) := by
  have hvaddr : w.place (down (2 ^ k) ph.vaddr.toNat) ≤ w.place ph.fileEnd :=
    w.place_le ((down_le _ _).trans (Nat.le_add_right _ _))
  have hfile : w.place ph.fileEnd ≤ w.place (up (2 ^ k) ph.fileEnd) :=
    w.place_le (le_up (Nat.two_pow_pos k) _)
  have hmem := w.place_le h.up_fileEnd_le
  rw [segmentOps, runOps_append, h.run_mapFile hpg hk, Option.bind_some]
  by_cases hlt : ph.filesz.toNat < ph.memsz.toNat
  · by_cases hstop : 2 ^ 64 ≤ ph.memEnd → 2 ^ 64 ≤ ph.fileEnd
    · have hwraps : ph.WrapsAlike (2 ^ k) :=
        (hclear hlt).elim id fun htail => ⟨hstop, fun hle => htail.page ▸ hle⟩
      rw [if_pos ((h.gt_iff_wrapsAlike hlt).mpr hstop), runOps_append, h.run_zero hpg hk hlt,
        Option.bind_some, h.run_mapAnon hpg hk hwraps]
      · congr 1
        funext a
        unfold Memory.fill image
        grind
      · intro a hstart hend
        exact ⟨_, if_pos ⟨hvaddr.trans hstart, hend⟩⟩
    · -- nothing is cleared, but the file has zeros there
      have htail : ph.ZeroTail (2 ^ k) file :=
        (hclear hlt).resolve_left fun hwraps => hstop hwraps.stop
      rw [if_neg fun hgt => hstop ((h.gt_iff_wrapsAlike hlt).mp hgt), ← htail.page]
      refine congrArg some (Memory.fill_congr fun a _ hend => ?_)
      rw [image]
      split
      · next hbehind =>
          have hlow := h.low_le.trans (down_le _ _)
          have hzero := htail.zero (a - w.place ph.vaddr.toNat)
          have hbyte := h.fileByte_add (a - w.place ph.vaddr.toNat)
          rw [htail.page] at hend
          unfold Window.place at hbehind hend hzero hbyte
          unfold fileEnd at hbehind
          rw [show w.start + (ph.vaddr.toNat - w.low) +
            (a - (w.start + (ph.vaddr.toNat - w.low))) = a by omega] at hbyte
          rw [hbyte, hzero (by omega) (by omega)]
      · rfl
  · have heq : ph.filesz.toNat = ph.memsz.toNat := Nat.le_antisymm h.filesz_le (Nat.not_lt.mp hlt)
    have hends : ph.fileEnd = ph.memEnd := by rw [fileEnd, memEnd, heq]
    have hngt : ¬ ph.vaddr + ph.memsz > ph.vaddr + ph.filesz := by
      rw [gt_iff_lt, BitVec.lt_def, toNat_fileEnd, toNat_memEnd, hends]
      exact Nat.lt_irrefl _
    rw [if_neg hngt, hends]
    refine congrArg some (Memory.fill_congr fun a _ _ => ?_)
    rw [image, if_neg (by simp [hlt])]

/-- Nothing outside the pages of a segment is touched; and when the ends wrap around
differently, nothing behind the pages of the file is. -/
theorem range_of_mem {op : Op} (hop : op ∈ segmentOps pg bias ph) :
    w.place (down (2 ^ k) ph.vaddr.toNat) ≤ op.start ∧
      (op.stop ≤ w.place (up (2 ^ k) ph.fileEnd) ∨
        op.stop ≤ w.place (up (2 ^ k) ph.memEnd) ∧ ph.WrapsAlike (2 ^ k)) := by
  have hvaddr : w.place (down (2 ^ k) ph.vaddr.toNat) ≤ w.place ph.fileEnd :=
    w.place_le ((down_le _ _).trans (Nat.le_add_right _ _))
  have hfile : w.place ph.fileEnd ≤ w.place (up (2 ^ k) ph.fileEnd) :=
    w.place_le (le_up (Nat.two_pow_pos k) _)
  rw [segmentOps] at hop
  rcases List.mem_append.mp hop with hop | hop
  · split at hop
    · rw [List.mem_singleton.mp hop]
      refine ⟨(h.toNat_start hpg hk).ge, .inl ?_⟩
      rw [Op.stop, h.toNat_start hpg hk, h.toNat_mapLen hpg hk]
    · cases hop
  split at hop
  · next hbss =>
    rcases List.mem_append.mp hop with hop | hop
    · split at hop
      · rw [List.mem_singleton.mp hop]
        exact ⟨hvaddr.trans h.toNat_clear.ge, .inl (h.toNat_fileStop hpg hk).le⟩
      · cases hop
    · split at hop
      · next hgt =>
        have hmem := h.up_memEnd_lt
        have hstart := (down_le (2 ^ k) ph.vaddr.toNat).trans_lt ph.vaddr.isLt
        have hle := h.up_fileEnd_le
        have hpages : down (2 ^ k) ph.vaddr.toNat ≤ up (2 ^ k) ph.fileEnd := down_le_up
        have hlow := h.low_le.trans hpages
        have hlt : ph.filesz.toNat < ph.memsz.toNat := by
          refine lt_of_le_of_ne h.filesz_le fun heq => ?_
          rw [BitVec.eq_of_toNat_eq heq] at hbss
          exact absurd hbss (Nat.lt_irrefl _)
        rw [gt_iff_lt, BitVec.lt_def, toNat_pageUp_of_mod hpg hk toNat_fileEnd,
          toNat_pageUp_of_mod hpg hk toNat_memEnd] at hgt
        rw [List.mem_singleton.mp hop]
        refine ⟨(hvaddr.trans hfile).trans (h.toNat_fileStop hpg hk).ge, .inr ⟨?_, ?_, ?_⟩⟩
        · rw [Op.stop, h.toNat_fileStop hpg hk, BitVec.toNat_sub,
            toNat_pageUp_of_mod hpg hk toNat_fileEnd, toNat_pageUp_of_mod hpg hk toNat_memEnd,
            Window.place, Window.place]
          omega
        · exact (h.gt_iff_wrapsAlike hlt).mp hbss
        · omega
      · cases hop
  · cases hop

theorem stop_le_of_mem {op : Op} (hop : op ∈ segmentOps pg bias ph) :
    op.stop ≤ w.place (up (2 ^ k) ph.memEnd) := by
  rcases (h.range_of_mem hpg hk hop).2 with hstop | ⟨hstop, -⟩
  · exact hstop.trans (w.place_le h.up_fileEnd_le)
  · exact hstop

omit hpg hk in
theorem toNat_vaddr : (bias + ph.vaddr).toNat = w.place ph.vaddr.toNat := by
  have hlow := h.low_le.trans (down_le _ _)
  have hle : ph.vaddr.toNat ≤ ph.memEnd := Nat.le_add_right _ _
  have hup := le_up (Nat.two_pow_pos k) ph.memEnd
  refine w.toNat_add (Nat.mod_eq_of_lt ph.vaddr.isLt).symm hlow ?_
  exact hle.trans (hup.trans h.le_top)

omit hpg hk in
/-- Offsets into a segment are offsets into memory. -/
theorem place_add (i : Nat) : w.place (ph.vaddr.toNat + i) = w.place ph.vaddr.toNat + i := by
  have hlow := h.low_le.trans (down_le _ _)
  unfold Window.place
  omega

omit hpg hk in
/-- An address of a window is that of one page of the file. -/
theorem inPages_of_spans {a : Nat} (ha : ph.Spans (2 ^ k) w a) :
    ph.InPages (2 ^ k) (a - w.start + w.low) := by
  have hlow := h.low_le
  unfold Spans Window.place at ha
  exact ⟨by omega, by omega⟩

omit hpg hk in
theorem image_of_lt {i : Nat} (hi : i < ph.memsz.toNat) :
    image file (2 ^ k) w ph (w.place ph.vaddr.toNat + i) =
      some ⟨if i < ph.filesz.toNat then file.getD (ph.offset.toNat + i) 0 else 0, ph.prot⟩ := by
  have hend : w.place ph.fileEnd = w.place ph.vaddr.toNat + ph.filesz.toNat := h.place_add _
  by_cases hfile : i < ph.filesz.toNat
  · rw [image, if_neg (by omega), if_pos hfile, h.fileByte_add]
  · rw [image, if_pos ⟨by omega, by omega⟩, if_neg hfile]

omit hpg hk in
theorem image_of_le {i : Nat} (hlt : ph.filesz.toNat < ph.memsz.toNat) (hi : ph.filesz.toNat ≤ i) :
    image file (2 ^ k) w ph (w.place ph.vaddr.toNat + i) = some ⟨0, ph.prot⟩ := by
  have hend : w.place ph.fileEnd = w.place ph.vaddr.toNat + ph.filesz.toNat := h.place_add _
  rw [image, if_pos ⟨hlt, by omega⟩]

end Phdr.Fits

/-- Memory with all segments loaded. -/
def Memory.fillSegments (p : Nat) (file : Bytes) (w : Window bias) (m : Memory)
    (l : List Phdr) : Memory :=
  m.fillAll (fun ph => w.place (down p ph.vaddr.toNat)) (fun ph => w.place (up p ph.memEnd))
    (Phdr.Fits.image file p w) l

theorem run_segments {w : Window bias} {l : List Phdr}
    (hfits : ∀ ph ∈ l, ph.Fits (2 ^ k) file w)
    (hclear : ∀ ph ∈ l, ph.filesz.toNat < ph.memsz.toNat →
      ph.WrapsAlike (2 ^ k) ∨ ph.ZeroTail (2 ^ k) file) :
    runOps (2 ^ k) file (l.flatMap (segmentOps pg bias)) m =
      some (m.fillSegments (2 ^ k) file w l) := by
  induction l generalizing m with
  | nil => rfl
  | cons ph l ih =>
      rw [List.flatMap_cons, runOps_append,
        (hfits ph (.head _)).run_segmentOps hpg hk (hclear ph (.head _)),
        Option.bind_some, ih (fun other hother => hfits other (.tail _ hother))
          fun other hother => hclear other (.tail _ hother)]
      rfl

variable {entry realEntry : Addr} {auxv auxv' : List (Addr × Addr)}

omit hpg hk in
theorem patchAuxv_base (h : patchAuxv bias realEntry auxv = some auxv') :
    ∀ a ∈ auxv', a.1 = 7 → a.2 = bias := by
  intro a ha hkey
  rw [patchAuxv] at h
  split at h
  · obtain rfl := Option.some.inj h
    obtain ⟨b, -, rfl⟩ := List.mem_map.mp ha
    by_cases hb : b.1 = 7
    · rw [if_pos hb]
    · rw [if_neg hb] at hkey
      split at hkey
      · cases hkey
      · exact absurd hkey hb
  · cases h

/-- What `relocMain` returns when it does not stop over the auxiliary vector. -/
def startedAt (pg base entry : Addr) (phs : List Phdr) (auxv : List (Addr × Addr)) : Started :=
  ⟨(loads phs).flatMap (segmentOps pg (biasOf pg base phs)), auxv, biasOf pg base phs + entry⟩

section Covered

variable (hload : Loadable (2 ^ k) file phs) (hres : Reserved (2 ^ k) base (reservedSize pg phs))
  (hcov : Covered (2 ^ k) phs)

include hload hres hcov

theorem disjoint_spans :
    (loads phs).Pairwise fun a b => ∀ x, a.Spans (2 ^ k) (window hpg hk hres) x →
      ¬ b.Spans (2 ^ k) (window hpg hk hres) x := by
  refine hload.disjoint.imp_of_mem fun {a b} ha hb hdisj x hxa hxb => ?_
  exact hdisj _ ((hload.fits hpg hk hres hcov ha).inPages_of_spans hxa)
    ((hload.fits hpg hk hres hcov hb).inPages_of_spans hxb)

theorem ops_inside {op : Op}
    (hop : op ∈ (loads phs).flatMap (segmentOps pg (biasOf pg base phs))) :
    base.toNat ≤ op.start ∧ op.stop ≤ base.toNat + (reservedSize pg phs).toNat := by
  obtain ⟨ph, hph, hop⟩ := List.mem_flatMap.mp hop
  have hfits := hload.fits hpg hk hres hcov hph
  have hstart := (hfits.range_of_mem hpg hk hop).1
  have hstop := hfits.stop_le_of_mem hpg hk hop
  have hend : (window hpg hk hres).place (up (2 ^ k) ph.memEnd) ≤
      base.toNat + (reservedSize pg phs).toNat := (window hpg hk hres).place_le_end hfits.le_top
  exact ⟨(Nat.le_add_right _ _).trans hstart, hstop.trans hend⟩

theorem ops_keep_segments :
    (loads phs).Pairwise fun a b => ∀ op ∈ segmentOps pg (biasOf pg base phs) b,
      ∀ x, op.start ≤ x → x < op.stop →
        ¬ ((biasOf pg base phs + a.vaddr).toNat ≤ x ∧
          x < (biasOf pg base phs + a.vaddr).toNat + a.memsz.toNat) := by
  refine (disjoint_spans hpg hk hload hres hcov).imp_of_mem
    fun {a b} ha hb hdisj op hop x hstart hstop hx => ?_
  have hfa := hload.fits hpg hk hres hcov ha
  have hfb := hload.fits hpg hk hres hcov hb
  rw [hfa.toNat_vaddr, ← hfa.place_add] at hx
  refine hdisj x ⟨?_, ?_⟩ ⟨?_, ?_⟩
  · exact ((window hpg hk hres).place_le (down_le _ _)).trans hx.1
  · exact hx.2.trans_le ((window hpg hk hres).place_le (le_up (Nat.two_pow_pos k) _))
  · exact (hfb.range_of_mem hpg hk hop).1.trans hstart
  · exact hstop.trans_le (hfb.stop_le_of_mem hpg hk hop)

theorem read_segment (hph : ph ∈ loads phs) {i : Nat}
    (hi : ph.vaddr.toNat + i < up (2 ^ k) ph.memEnd) :
    m.fillSegments (2 ^ k) file (window hpg hk hres) (loads phs)
        ((biasOf pg base phs + ph.vaddr).toNat + i) =
      Phdr.Fits.image file (2 ^ k) (window hpg hk hres) ph
        ((window hpg hk hres).place ph.vaddr.toNat + i) := by
  have hfits := hload.fits hpg hk hres hcov hph
  have hlow := hfits.low_le.trans (down_le _ _)
  rw [hfits.toNat_vaddr]
  refine Memory.fillAll_of_mem hph (disjoint_spans hpg hk hload hres hcov) ⟨?_, ?_⟩
  · exact ((window hpg hk hres).place_le (down_le _ _)).trans (Nat.le_add_right _ _)
  · unfold Window.place
    omega

theorem loaded_of_cleared
    (hauxv : patchAuxv (biasOf pg base phs) realEntry auxv = some auxv')
    (hclear : ∀ ph ∈ loads phs, ph.filesz.toNat < ph.memsz.toNat →
      ph.WrapsAlike (2 ^ k) ∨ ph.ZeroTail (2 ^ k) file) :
    Loaded pg base entry file phs m (startedAt pg base entry phs auxv') := by
  have hrun : runOps pg.toNat file (startedAt pg base entry phs auxv').ops m =
      some (m.fillSegments (2 ^ k) file (window hpg hk hres) (loads phs)) := by
    rw [hpg]
    exact run_segments hpg hk (fun ph hph => hload.fits hpg hk hres hcov hph) hclear
  refine ⟨fun op hop => ops_inside hpg hk hload hres hcov hop,
    ops_keep_segments hpg hk hload hres hcov,
    ⟨_, hrun, fun ph hph => ?_⟩, patchAuxv_base hauxv, rfl⟩
  have hfits := hload.fits hpg hk hres hcov hph
  refine ⟨fun i hi => ?_, fun hlt i hi hup => ?_⟩
  · have hend : ph.vaddr.toNat + i < up (2 ^ k) ph.memEnd :=
      (Nat.add_lt_add_left hi _).trans_le (le_up (Nat.two_pow_pos k) ph.memEnd)
    exact (read_segment hpg hk hload hres hcov hph hend).trans (hfits.image_of_lt hi)
  · rw [hpg] at hup
    exact (read_segment hpg hk hload hres hcov hph hup).trans (hfits.image_of_le hlt hi)

/-- A loaded segment whose ends wrap around differently has no pages behind those of the file. -/
theorem up_fileEnd_eq (hblank : Blank base (reservedSize pg phs) m)
    (h : Loaded pg base entry file phs m (startedAt pg base entry phs auxv))
    (hph : ph ∈ loads phs) (hlt : ph.filesz.toNat < ph.memsz.toNat)
    (hwraps : ¬ ph.WrapsAlike (2 ^ k)) : up (2 ^ k) ph.fileEnd = up (2 ^ k) ph.memEnd := by
  by_contra hfile
  have hfits := hload.fits hpg hk hres hcov hph
  have hle := hfits.up_fileEnd_le
  have hfileEnd := le_up (Nat.two_pow_pos k) ph.fileEnd
  have hend : ph.fileEnd = ph.vaddr.toNat + ph.filesz.toNat := rfl
  have hsymm : Std.Symm fun a b : Phdr => ∀ x, a.Spans (2 ^ k) (window hpg hk hres) x →
      ¬ b.Spans (2 ^ k) (window hpg hk hres) x := ⟨fun _ _ hdisj x hb ha => hdisj x ha hb⟩
  obtain ⟨m', hrun, hmem⟩ := h.memory
  set i := up (2 ^ k) ph.fileEnd - ph.vaddr.toNat with hi
  have hplace := hfits.place_add i
  have hx : ph.vaddr.toNat + i = up (2 ^ k) ph.fileEnd := by omega
  -- the first page behind those of the file stays as it was reserved
  have hcell := (hmem ph hph).2 hlt i (by omega) (by rw [hpg, hx]; omega)
  rw [hfits.toNat_vaddr, ← hplace, hx] at hcell
  have hlow : (window hpg hk hres).low ≤ up (2 ^ k) ph.fileEnd :=
    hfits.low_le.trans Phdr.Fits.down_le_up
  have hstrict : (window hpg hk hres).place (up (2 ^ k) ph.fileEnd) <
      (window hpg hk hres).place (up (2 ^ k) ph.memEnd) := by
    unfold Window.place
    omega
  have hkeep : m' ((window hpg hk hres).place (up (2 ^ k) ph.fileEnd)) =
      m ((window hpg hk hres).place (up (2 ^ k) ph.fileEnd)) := by
    refine runOps_frame hrun fun op hop hin => ?_
    obtain ⟨other, hother, hop⟩ := List.mem_flatMap.mp hop
    by_cases heq : other = ph
    · subst heq
      rcases (hfits.range_of_mem hpg hk hop).2 with hstop | ⟨-, halike⟩
      · exact absurd hin.2 (Nat.not_lt.mpr hstop)
      · exact hwraps halike
    · have hfo := hload.fits hpg hk hres hcov hother
      have hother := (disjoint_spans hpg hk hload hres hcov).forall hother hph heq
        ((window hpg hk hres).place (up (2 ^ k) ph.fileEnd))
      refine hother ⟨?_, ?_⟩ ⟨(window hpg hk hres).place_le Phdr.Fits.down_le_up, hstrict⟩
      · exact (hfo.range_of_mem hpg hk hop).1.trans hin.1
      · exact hin.2.trans_le (hfo.stop_le_of_mem hpg hk hop)
  have hnone := hblank ((window hpg hk hres).place (up (2 ^ k) ph.fileEnd))
    (Nat.le_add_right _ _) (hstrict.trans_le ((window hpg hk hres).place_le_end hfits.le_top))
  rw [hkeep, hnone] at hcell
  cases hcell

theorem cleared_of_loaded (hblank : Blank base (reservedSize pg phs) m)
    (h : Loaded pg base entry file phs m (startedAt pg base entry phs auxv))
    (hph : ph ∈ loads phs) (hlt : ph.filesz.toNat < ph.memsz.toNat) :
    ph.WrapsAlike (2 ^ k) ∨ ph.ZeroTail (2 ^ k) file := by
  by_cases hwraps : ph.WrapsAlike (2 ^ k)
  · exact Or.inl hwraps
  have hpage := up_fileEnd_eq hpg hk hload hres hcov hblank h hph hlt hwraps
  have hfits := hload.fits hpg hk hres hcov hph
  -- the end of the segment is beyond the address space, so it is the only one
  have hstop : ¬ (2 ^ 64 ≤ ph.memEnd → 2 ^ 64 ≤ ph.fileEnd) :=
    fun hstop => hwraps ⟨hstop, fun hle => hpage ▸ hle⟩
  have honly : loads phs = [ph] := by
    rcases hcov with hspace | ⟨only, honly, -⟩
    · exact absurd (fun hle => absurd (hspace ph hph) (Nat.not_lt.mpr hle)) hstop
    · rw [honly, List.mem_singleton] at hph
      rw [honly, hph]
  refine Or.inr ⟨hpage, fun i hi hend => ?_⟩
  obtain ⟨m', hrun, hmem⟩ := h.memory
  have hcell := (hmem ph hph).2 hlt i hi (by rwa [hpg])
  have hops : (startedAt pg base entry phs auxv).ops = segmentOps pg (biasOf pg base phs) ph := by
    rw [startedAt, honly, List.flatMap_cons, List.flatMap_nil, List.append_nil]
  rw [hops, hpg, segmentOps, if_neg fun hgt => hstop ((hfits.gt_iff_wrapsAlike hlt).mp hgt),
    List.append_nil, hfits.run_mapFile hpg hk] at hrun
  obtain rfl := Option.some.inj hrun
  have hin : (window hpg hk hres).place (down (2 ^ k) ph.vaddr.toNat) ≤
      (window hpg hk hres).place ph.vaddr.toNat + i ∧
      (window hpg hk hres).place ph.vaddr.toNat + i <
        (window hpg hk hres).place (up (2 ^ k) ph.fileEnd) := by
    have hdown := (window hpg hk hres).place_le (down_le (2 ^ k) ph.vaddr.toNat)
    have hlow := hfits.low_le.trans (down_le _ _)
    rw [hpage]
    unfold Window.place at *
    omega
  rw [hfits.toNat_vaddr, Memory.fill, if_pos hin, hfits.fileByte_add] at hcell
  exact congrArg Cell.byte (Option.some.inj hcell)

end Covered

/-- In a process with nothing else in memory, every segment that is loaded lies inside the
reservation. -/
theorem memEnd_le_of_loaded (hres : Reserved (2 ^ k) base (reservedSize pg phs))
    (h : Loaded pg base entry file phs (fun _ => none) (startedAt pg base entry phs auxv))
    (hph : ph ∈ loads phs) (hpos : 0 < ph.memsz.toNat) :
    ph.memEnd ≤ (window hpg hk hres).low + (window hpg hk hres).size := by
  obtain ⟨m', hrun, hmem⟩ := h.memory
  have hinside : ∀ i < ph.memsz.toNat, base.toNat ≤ (biasOf pg base phs + ph.vaddr).toNat + i ∧
      (biasOf pg base phs + ph.vaddr).toNat + i <
        base.toNat + (reservedSize pg phs).toNat := by
    intro i hi
    have hcell := (hmem ph hph).1 i hi
    by_contra hout
    have hframe : m' ((biasOf pg base phs + ph.vaddr).toNat + i) = none := by
      refine runOps_frame hrun fun op hop hin => hout ?_
      obtain ⟨hstart, hstop⟩ := h.inside op hop
      omega
    rw [hframe] at hcell
    cases hcell
  have hfirst := hinside 0 hpos
  have hlast := hinside (ph.memsz.toNat - 1) (by omega)
  have hbias := (window hpg hk hres).bias_eq
  have hlow : (window hpg hk hres).low ≤ ph.vaddr.toNat :=
    (down_le _ _).trans (extent_covers hph).1
  have hvaddr := ph.vaddr.isLt
  have hbase := base.isLt
  have hspace := (window hpg hk hres).inSpace
  have hstart : (window hpg hk hres).start = base.toNat := rfl
  have hsize : (window hpg hk hres).size = (reservedSize pg phs).toNat := rfl
  rw [BitVec.toNat_add] at hfirst hlast
  unfold Phdr.memEnd
  omega

omit hpg hk in
/-- A segment whose pages reach the end of the address space has the last of them. -/
theorem inPages_last (h : 2 ^ 64 ≤ up (2 ^ k) ph.memEnd) : ph.InPages (2 ^ k) (2 ^ 64 - 1) := by
  have hvaddr := ph.vaddr.isLt
  have hdown := down_le (2 ^ k) ph.vaddr.toNat
  exact ⟨by omega, by omega⟩

omit hpg in
/-- If the highest end is in the last page, no segment runs to the end of the address space:
the two would share the page. -/
theorem lt_of_extent_last (hload : Loadable (2 ^ k) file phs)
    (hlast : up (2 ^ k) (extent phs).2.toNat = 2 ^ 64)
    (hend : ∀ q ∈ loads phs, q.memEnd ≤ 2 ^ 64) (hph : ph ∈ loads phs) : ph.memEnd < 2 ^ 64 := by
  have hpos : 0 < 2 ^ k := Nat.two_pow_pos k
  by_contra hge
  have hfull : ph.memEnd = 2 ^ 64 := Nat.le_antisymm (hend ph hph) (Nat.not_lt.mp hge)
  have hhigh := up_lt hpos (extent phs).2.toNat
  have hlt : 2 ^ k < 2 ^ 64 := Nat.pow_lt_pow_right (by decide) hk
  obtain ⟨q, hq, hqend⟩ : ∃ q ∈ loads phs, (extent phs).2 = q.vaddr + q.memsz := by
    refine (foldl_widen_attained (loads phs) (BitVec.allOnes 64, 0)).resolve_left fun hzero => ?_
    have hzero : (extent phs).2.toNat = 0 := congrArg BitVec.toNat hzero
    omega
  have hqmod : (extent phs).2.toNat = q.memEnd % 2 ^ 64 := by
    rw [hqend]
    exact BitVec.toNat_add _ _
  have hqle := hend q hq
  have hqsame : (extent phs).2.toNat = q.memEnd := by omega
  have hne : ph ≠ q := by
    rintro rfl
    omega
  have hsymm : Std.Symm fun a b : Phdr => ∀ x, a.InPages (2 ^ k) x → ¬ b.InPages (2 ^ k) x :=
    ⟨fun _ _ hdisj x hb ha => hdisj x ha hb⟩
  refine hload.disjoint.forall hph hq hne _ (inPages_last ?_) (inPages_last ?_)
  · exact hfull.ge.trans (le_up hpos _)
  · rw [← hqsame, hlast]

/-- A segment that runs to the end of the address space or beyond it is the only one. -/
theorem covered_of_loaded (hload : Loadable (2 ^ k) file phs)
    (hres : Reserved (2 ^ k) base (reservedSize pg phs))
    (h : Loaded pg base entry file phs (fun _ => none) (startedAt pg base entry phs auxv)) :
    Covered (2 ^ k) phs := by
  have hpos : 0 < 2 ^ k := Nat.two_pow_pos k
  have hdvd : 2 ^ k ∣ 2 ^ 64 := Nat.pow_dvd_pow 2 hk.le
  have hend : ∀ q ∈ loads phs, 2 ^ 64 ≤ q.memEnd →
      q.memEnd ≤ (window hpg hk hres).low + (window hpg hk hres).size := by
    intro q hq hle
    refine memEnd_le_of_loaded hpg hk hres h hq ?_
    have hvaddr := q.vaddr.isLt
    unfold Phdr.memEnd at hle
    omega
  have hsize : (reservedSize pg phs).toNat = _ := reservedSize_mod hpg hk
  have hlow : (window hpg hk hres).low = down (2 ^ k) (extent phs).1.toNat := rfl
  have hwsize : (window hpg hk hres).size = (reservedSize pg phs).toNat := rfl
  have hwlow := (window hpg hk hres).low_lt
  have htop : up (2 ^ k) (extent phs).2.toNat ≤ 2 ^ 64 :=
    up_le_of_dvd hpos hdvd (extent phs).2.isLt.le
  by_cases hspace : ∀ ph ∈ loads phs, ph.memEnd < 2 ^ 64
  · exact Or.inl hspace
  rcases htop.eq_or_lt with hfull | hshort
  · refine absurd (fun ph hph => lt_of_extent_last hk hload hfull (fun q hq => ?_) hph) hspace
    by_contra hgt
    have hqle := hend q hq (by omega)
    omega
  · simp only [not_forall, not_lt] at hspace
    obtain ⟨ph, hph, hbeyond⟩ := hspace
    have hphend := hend ph hph hbeyond
    -- the reservation wraps around, and so does every segment
    have hall : ∀ q ∈ loads phs, 2 ^ 64 ≤ q.memEnd := by
      intro q hq
      obtain ⟨hqlow, hqhigh⟩ := extent_covers hq
      have hdown := down_le (2 ^ k) (extent phs).1.toNat
      have hup := le_up hpos (extent phs).2.toNat
      rw [Phdr.Fits.toNat_memEnd] at hqhigh
      have hqvaddr : q.vaddr.toNat ≤ q.memEnd := Nat.le_add_right _ _
      omega
    have honly : loads phs = [ph] := by
      have hdisj := hload.disjoint
      match hloads : loads phs with
      | [] =>
          rw [hloads] at hph
          cases hph
      | [a] =>
          rw [hloads, List.mem_singleton] at hph
          rw [hph]
      | a :: b :: l =>
          rw [hloads] at hall hdisj
          exact absurd (inPages_last ((hall b (.tail _ (.head _))).trans (le_up hpos _)))
            (List.rel_of_pairwise_cons hdisj (.head _) _
              (inPages_last ((hall a (.head _)).trans (le_up hpos _))))
    refine Or.inr ⟨ph, honly, ?_⟩
    have hdvdEnd : 2 ^ k ∣ (window hpg hk hres).low + (window hpg hk hres).size := by
      have heq : (window hpg hk hres).low + (window hpg hk hres).size =
          2 ^ 64 + up (2 ^ k) (extent phs).2.toNat := by omega
      rw [heq]
      exact Nat.dvd_add hdvd (dvd_up _ _)
    have hupEnd := up_le_of_dvd hpos hdvdEnd hphend
    have hmono : (window hpg hk hres).low ≤ down (2 ^ k) ph.vaddr.toNat :=
      down_mono (extent_covers hph).1
    have hisLt := (reservedSize pg phs).isLt
    omega

omit hpg hk in
theorem patchAuxv_eq_some (hbase : ∃ a ∈ auxv, a.1 = 7) (hentry : ∃ a ∈ auxv, a.1 = 9) :
    ∃ auxv', patchAuxv bias realEntry auxv = some auxv' := by
  have hfound : (auxv.any (·.1 = 7) && auxv.any (·.1 = 9)) = true := by
    rw [Bool.and_eq_true, List.any_eq_true, List.any_eq_true]
    simpa using And.intro hbase hentry
  exact ⟨_, if_pos hfound⟩

/-- Whatever else is in memory, the stub loads an interpreter as its program headers say,
exactly when no segment reaches the end of the address space in a way that the sums of the
stub wrap around differently. -/
theorem relocMain_loads_iff (hload : Loadable (2 ^ k) file phs)
    (hres : Reserved (2 ^ k) base (reservedSize pg phs))
    (hbase : ∃ a ∈ auxv, a.1 = 7) (hentry : ∃ a ∈ auxv, a.1 = 9) :
    ∃ out, relocMain pg base entry realEntry auxv phs = some out ∧
      ((∀ m, Blank base (reservedSize pg phs) m → Loaded pg base entry file phs m out) ↔
        Placeable (2 ^ k) file phs) := by
  obtain ⟨auxv', hauxv⟩ : ∃ auxv', patchAuxv (biasOf pg base phs) realEntry auxv = some auxv' :=
    patchAuxv_eq_some hbase hentry
  refine ⟨startedAt pg base entry phs auxv', ?_, fun h => ?_, fun h m _ => ?_⟩
  · rw [relocMain, hauxv]
    rfl
  · have hnone : Blank base (reservedSize pg phs) fun _ => none := fun _ _ _ => rfl
    have hcov := covered_of_loaded hpg hk hload hres (h _ hnone)
    exact ⟨hcov, fun ph hph hlt =>
      cleared_of_loaded hpg hk hload hres hcov hnone (h _ hnone) hph hlt⟩
  · exact loaded_of_cleared hpg hk hload hres h.covered hauxv h.cleared

end Segments

namespace Sample

/-- Code, and data with zero pages behind it. -/
def small : List Phdr :=
  [⟨1, 5, 0, 0, 0x18, 0x18⟩, ⟨1, 6, 0x10, 0x1010, 8, 0x2000⟩]

/-- Data in the last three pages of the address space, of which the file has one. -/
def topmost : List Phdr := [⟨1, 6, 0, 0xffffffffffffd000, 0x1000, 0x2fff⟩]

/-- Data up to the very end of the address space, of which the file has all but a byte. -/
def brimful : List Phdr := [⟨1, 6, 0, 0xffffffffffffe000, 0x1fff, 0x2000⟩]

def file : Bytes := List.replicate 0x2000 7

theorem inFile {phs : List Phdr}
    (h : ∀ ph ∈ loads phs, ph.offset.toNat + ph.filesz.toNat ≤ 0x2000) :
    ∀ ph ∈ loads phs, ph.offset.toNat + ph.filesz.toNat ≤ file.length := by
  rwa [file, List.length_replicate]

theorem small_loadable : Loadable (2 ^ 12) file small := by
  refine ⟨by decide, by decide, by decide, inFile (by decide), ?_⟩
  refine List.Pairwise.cons (fun b hb x hx hx' => ?_) (List.pairwise_singleton _ _)
  rw [List.mem_singleton.mp hb] at hx'
  exact absurd (hx.2.trans_le (by decide)) (Nat.not_lt.mpr hx'.1)

theorem topmost_loadable : Loadable (2 ^ 12) file topmost :=
  ⟨by decide, by decide, by decide, inFile (by decide), List.pairwise_singleton _ _⟩

theorem brimful_loadable : Loadable (2 ^ 12) file brimful :=
  ⟨by decide, by decide, by decide, inFile (by decide), List.pairwise_singleton _ _⟩

theorem small_placeable : Placeable (2 ^ 12) file small := by
  refine ⟨Or.inl (by decide), fun ph hph _ => Or.inl ?_⟩
  have hall : ∀ ph ∈ loads small, ph.memEnd < 2 ^ 64 ∧ up (2 ^ 12) ph.memEnd < 2 ^ 64 := by decide
  exact ⟨fun hle => absurd (hall ph hph).1 (Nat.not_lt.mpr hle),
    fun hle => absurd (hall ph hph).2 (Nat.not_lt.mpr hle)⟩

end Sample

theorem relocMain_loads_small :
    Loadable (2 ^ 12) Sample.file Sample.small ∧
    ∃ out, relocMain 0x1000 0x10000 0x100 0x400 [(7, 0), (9, 0)] Sample.small = some out ∧
      ∀ m, Blank 0x10000 (reservedSize 0x1000 Sample.small) m →
        Loaded 0x1000 0x10000 0x100 Sample.file Sample.small m out := by
  obtain ⟨out, hout, hiff⟩ := @relocMain_loads_iff 12 0x1000 0x10000 Sample.file Sample.small
    rfl (by decide) 0x100 0x400 [(7, 0), (9, 0)] Sample.small_loadable
    ⟨by decide, by decide, by decide⟩ (by decide) (by decide)
  exact ⟨Sample.small_loadable, out, hout, hiff.mpr Sample.small_placeable⟩

/-- A table whose last page is the last of all: the pages behind the file stay unmapped. One
that ends with the address space: the last byte is that of the file and not zero. -/
theorem topmost_not_loaded :
    (Loadable (2 ^ 12) Sample.file Sample.topmost ∧
      Reserved (2 ^ 12) 0x10000 (reservedSize 0x1000 Sample.topmost) ∧
      ∃ out, relocMain 0x1000 0x10000 0x100 0x400 [(7, 0), (9, 0)] Sample.topmost = some out ∧
        out.ops.length = 2 ∧
        ¬ Loaded 0x1000 0x10000 0x100 Sample.file Sample.topmost (fun _ => none) out) ∧
    Loadable (2 ^ 12) Sample.file Sample.brimful ∧
      Reserved (2 ^ 12) 0x10000 (reservedSize 0x1000 Sample.brimful) ∧
      ∃ out, relocMain 0x1000 0x10000 0x100 0x400 [(7, 0), (9, 0)] Sample.brimful = some out ∧
        out.ops.length = 1 ∧
        ¬ Loaded 0x1000 0x10000 0x100 Sample.file Sample.brimful (fun _ => none) out := by
  have hnone : ∀ size, Blank 0x10000 size fun _ => none := fun _ _ _ _ => rfl
  have htop : Reserved (2 ^ 12) 0x10000 (reservedSize 0x1000 Sample.topmost) :=
    ⟨by decide, by decide, by decide⟩
  have hbrim : Reserved (2 ^ 12) 0x10000 (reservedSize 0x1000 Sample.brimful) :=
    ⟨by decide, by decide, by decide⟩
  refine ⟨⟨Sample.topmost_loadable, htop, _, rfl, by decide, fun hloaded => ?_⟩,
    Sample.brimful_loadable, hbrim, _, rfl, by decide, fun hloaded => ?_⟩
  · rcases cleared_of_loaded rfl (by decide) Sample.topmost_loadable htop (Or.inl (by decide))
      (hnone _) hloaded (.head _) (by decide) with hwraps | htail
    · exact absurd (hwraps.page (by decide)) (by decide)
    · exact absurd htail.page (by decide)
  · rcases cleared_of_loaded rfl (by decide) Sample.brimful_loadable hbrim
      (Or.inr ⟨_, rfl, by decide⟩) (hnone _) hloaded (.head _) (by decide) with hwraps | htail
    · exact absurd (hwraps.stop (by decide)) (by decide)
    · have hzero := htail.zero 0x1fff (by decide) (by decide)
      rw [Sample.file, List.getD_replicate] at hzero
      · cases hzero
      · decide

end Repkgs.CrtInterp
