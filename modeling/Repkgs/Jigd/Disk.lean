import Repkgs.Jigd.PackFormat
import Repkgs.Lib.Maps

/-!
# The tier directories

A directory holds pack files and hint files, found by tier and pack id. Every
system call that changes a directory is a `FileOp`; an operation of the store is
the list of them it makes, so a process killed half-way leaves a first part of
that list behind. Temporary files are left out: nothing reads them again.
-/

namespace Repkgs.Jigd

open Lib

structure PackFile where
  bytes : Bytes
  mtime : Int
  deriving DecidableEq

/-- The pack and hint files of all tiers. -/
structure Disk where
  packs : Map (Nat × Nat) PackFile
  hints : Map (Nat × Nat) Bytes
  deriving DecidableEq

namespace Disk

def empty : Disk := ⟨∅, ∅⟩

def pack? (d : Disk) (tier id : Nat) : Option PackFile := d.packs.lookup (tier, id)

def bytes? (d : Disk) (tier id : Nat) : Option Bytes := (d.pack? tier id).map PackFile.bytes

def hint? (d : Disk) (tier id : Nat) : Option Bytes := d.hints.lookup (tier, id)

/-- `filepath.Glob` of `*.pack`, sorted. -/
def packNames (d : Disk) (tier : Nat) : List Bytes :=
  ((d.packs.keys.filter fun k => k.1 = tier).map fun k => packName k.2).insertionSort (· ≤ ·)

end Disk

/-- `Seek` and `Write`: a gap is filled with zeros, bytes behind the data stay. -/
def writeAt (bs : Bytes) (off : Nat) (data : Bytes) : Bytes :=
  bs.take off ++ List.replicate (off - bs.length) 0 ++ data ++ bs.drop (off + data.length)

/-- `Truncate`: cuts, or extends with zeros. -/
def truncateTo (bs : Bytes) (size : Nat) : Bytes :=
  bs.take size ++ List.replicate (size - bs.length) 0

/-- Writing behind the first part of a file. -/
theorem writeAt_append (front back data : Bytes) :
    writeAt (front ++ back) front.length data = front ++ (data ++ back.drop data.length) := by
  simp [writeAt, ← List.drop_drop]

theorem exists_append_of_le {bs : Bytes} {n : Nat} (h : n ≤ bs.length) :
    ∃ front back, bs = front ++ back ∧ front.length = n :=
  ⟨bs.take n, bs.drop n, (List.take_append_drop n bs).symm, List.length_take_of_le h⟩

theorem writeAt_writeAt {bs : Bytes} {off : Nat} (h : off ≤ bs.length) (x y : Bytes) :
    writeAt (writeAt bs off x) (off + x.length) y = writeAt bs off (x ++ y) := by
  obtain ⟨front, back, rfl, rfl⟩ := exists_append_of_le h
  have hsecond := writeAt_append (front ++ x) (back.drop x.length) y
  rw [List.length_append, List.append_assoc] at hsecond
  rw [writeAt_append, writeAt_append, hsecond, List.length_append, List.drop_drop]
  simp only [List.append_assoc]

theorem writeAt_overwrite {bs : Bytes} {off : Nat} (h : off ≤ bs.length) (x y : Bytes) :
    writeAt (writeAt bs off x) off (x ++ y) = writeAt bs off (x ++ y) := by
  obtain ⟨front, back, rfl, rfl⟩ := exists_append_of_le h
  rw [writeAt_append, writeAt_append, writeAt_append, List.length_append, ← List.drop_drop,
    List.drop_left, List.drop_drop]

theorem truncateTo_of_le {bs : Bytes} {size : Nat} (h : size ≤ bs.length) :
    truncateTo bs size = bs.take size := by
  simp [truncateTo, Nat.sub_eq_zero_of_le h]

/-- The bytes a `SectionReader` delivers. -/
def sectionBytes (bs : Bytes) (off len : Nat) : Bytes := (bs.drop off).take len

/-- System calls that change a directory. A link keeps an existing target. -/
inductive FileOp
  | create (tier id : Nat) (now : Int)
  | write (tier id off : Nat) (data : Bytes) (now : Int)
  | truncate (tier id size : Nat) (now : Int)
  | chtimes (tier id : Nat) (mtime : Int)
  | linkPack (tier id : Nat)
  | removePack (tier id : Nat)
  | putHint (tier id : Nat) (data : Bytes)
  | linkHint (tier id : Nat)
  | removeHint (tier id : Nat)
  deriving DecidableEq

/-- The directory after one system call. -/
def FileOp.apply (d : Disk) : FileOp → Disk
  | .create t id now => { d with packs := d.packs.insert (t, id) ⟨[], now⟩ }
  | .write t id off data now =>
      { d with packs := Map.adjust d.packs (t, id) fun f => ⟨writeAt f.bytes off data, now⟩ }
  | .truncate t id size now =>
      { d with packs := Map.adjust d.packs (t, id) fun f => ⟨truncateTo f.bytes size, now⟩ }
  | .chtimes t id mtime =>
      { d with packs := Map.adjust d.packs (t, id) fun f => { f with mtime := mtime } }
  | .linkPack t id =>
      match d.pack? t id, d.pack? (t + 1) id with
      | some f, none => { d with packs := d.packs.insert (t + 1, id) f }
      | _, _ => d
  | .removePack t id => { d with packs := d.packs.erase (t, id) }
  | .putHint t id data => { d with hints := d.hints.insert (t, id) data }
  | .linkHint t id =>
      match d.hint? t id, d.hint? (t + 1) id with
      | some h, none => { d with hints := d.hints.insert (t + 1, id) h }
      | _, _ => d
  | .removeHint t id => { d with hints := d.hints.erase (t, id) }

/-- The directory after a list of system calls. -/
def Disk.applyAll (d : Disk) (ops : List FileOp) : Disk := ops.foldl FileOp.apply d

@[simp] theorem Disk.applyAll_nil (d : Disk) : d.applyAll [] = d := rfl

@[simp] theorem Disk.applyAll_cons (d : Disk) (op : FileOp) (ops : List FileOp) :
    d.applyAll (op :: ops) = (op.apply d).applyAll ops := rfl

theorem Disk.applyAll_append (d : Disk) (ops ops' : List FileOp) :
    d.applyAll (ops ++ ops') = (d.applyAll ops).applyAll ops' :=
  List.foldl_append

section Lookup

variable (d : Disk) (t id t' id' : Nat)

@[simp] theorem bytes?_create (now : Int) :
    (FileOp.apply d (.create t id now)).bytes? t' id' =
      if (t', id') = (t, id) then some [] else d.bytes? t' id' := by
  simp only [FileOp.apply, Disk.bytes?, Disk.pack?, Map.lookup_insert_eq]
  split <;> rfl

@[simp] theorem bytes?_write (off : Nat) (data : Bytes) (now : Int) :
    (FileOp.apply d (.write t id off data now)).bytes? t' id' =
      if (t', id') = (t, id) then (d.bytes? t' id').map fun bs => writeAt bs off data
      else d.bytes? t' id' := by
  simp only [FileOp.apply, Disk.bytes?, Disk.pack?, Map.lookup_adjust]
  split
  · simp [Function.comp_def]
  · rfl

@[simp] theorem bytes?_truncate (size : Nat) (now : Int) :
    (FileOp.apply d (.truncate t id size now)).bytes? t' id' =
      if (t', id') = (t, id) then (d.bytes? t' id').map fun bs => truncateTo bs size
      else d.bytes? t' id' := by
  simp only [FileOp.apply, Disk.bytes?, Disk.pack?, Map.lookup_adjust]
  split
  · simp [Function.comp_def]
  · rfl

@[simp] theorem bytes?_chtimes (mtime : Int) :
    (FileOp.apply d (.chtimes t id mtime)).bytes? t' id' = d.bytes? t' id' := by
  simp only [FileOp.apply, Disk.bytes?, Disk.pack?, Map.lookup_adjust]
  split
  · simp [Function.comp_def]
  · rfl

@[simp] theorem bytes?_linkPack :
    (FileOp.apply d (.linkPack t id)).bytes? t' id' =
      if (t', id') = (t + 1, id) then (d.bytes? t' id').or (d.bytes? t id)
      else d.bytes? t' id' := by
  simp only [FileOp.apply, Disk.bytes?]
  split
  · next f hfrom hto =>
      rw [hfrom]
      simp only [Disk.pack?, Map.lookup_insert_eq]
      split
      · next h =>
          cases h
          simp only [Disk.pack?] at hto
          simp [hto]
      · rfl
  · next hno =>
      split
      · next h =>
          cases h
          cases hto : d.pack? (t + 1) id with
          | some f => simp
          | none =>
              cases hfrom : d.pack? t id with
              | none => simp
              | some f => exact absurd hto (hno f hfrom)
      · rfl

@[simp] theorem bytes?_removePack :
    (FileOp.apply d (.removePack t id)).bytes? t' id' =
      if (t', id') = (t, id) then none else d.bytes? t' id' := by
  simp only [FileOp.apply, Disk.bytes?, Disk.pack?, Map.lookup_erase_eq]
  split <;> rfl

@[simp] theorem bytes?_putHint (data : Bytes) :
    (FileOp.apply d (.putHint t id data)).bytes? t' id' = d.bytes? t' id' := rfl

@[simp] theorem bytes?_linkHint :
    (FileOp.apply d (.linkHint t id)).bytes? t' id' = d.bytes? t' id' := by
  simp only [FileOp.apply]
  split <;> rfl

@[simp] theorem bytes?_removeHint :
    (FileOp.apply d (.removeHint t id)).bytes? t' id' = d.bytes? t' id' := rfl

@[simp] theorem hint?_create (now : Int) :
    (FileOp.apply d (.create t id now)).hint? t' id' = d.hint? t' id' := rfl

@[simp] theorem hint?_write (off : Nat) (data : Bytes) (now : Int) :
    (FileOp.apply d (.write t id off data now)).hint? t' id' = d.hint? t' id' := rfl

@[simp] theorem hint?_truncate (size : Nat) (now : Int) :
    (FileOp.apply d (.truncate t id size now)).hint? t' id' = d.hint? t' id' := rfl

@[simp] theorem hint?_chtimes (mtime : Int) :
    (FileOp.apply d (.chtimes t id mtime)).hint? t' id' = d.hint? t' id' := rfl

@[simp] theorem hint?_linkPack :
    (FileOp.apply d (.linkPack t id)).hint? t' id' = d.hint? t' id' := by
  simp only [FileOp.apply]
  split <;> rfl

@[simp] theorem hint?_removePack :
    (FileOp.apply d (.removePack t id)).hint? t' id' = d.hint? t' id' := rfl

@[simp] theorem hint?_putHint (data : Bytes) :
    (FileOp.apply d (.putHint t id data)).hint? t' id' =
      if (t', id') = (t, id) then some data else d.hint? t' id' :=
  Map.lookup_insert_eq _ _ _ _

@[simp] theorem hint?_linkHint :
    (FileOp.apply d (.linkHint t id)).hint? t' id' =
      if (t', id') = (t + 1, id) then (d.hint? t' id').or (d.hint? t id)
      else d.hint? t' id' := by
  simp only [FileOp.apply]
  split
  · next h hfrom hto =>
      rw [hfrom]
      simp only [Disk.hint?, Map.lookup_insert_eq]
      split
      · next heq =>
          cases heq
          simp only [Disk.hint?] at hto
          simp [hto]
      · rfl
  · next hno =>
      split
      · next heq =>
          cases heq
          cases hto : d.hint? (t + 1) id with
          | some h => rfl
          | none =>
              cases hfrom : d.hint? t id with
              | none => rfl
              | some h => exact absurd hto (hno h hfrom)
      · rfl

@[simp] theorem hint?_removeHint :
    (FileOp.apply d (.removeHint t id)).hint? t' id' =
      if (t', id') = (t, id) then none else d.hint? t' id' :=
  Map.lookup_erase_eq _ _ _

end Lookup

/-- The pack whose files a system call changes. -/
def FileOp.target : FileOp → Nat
  | .create _ id _ | .write _ id _ _ _ | .truncate _ id _ _ | .chtimes _ id _ | .linkPack _ id
  | .removePack _ id | .putHint _ id _ | .linkHint _ id | .removeHint _ id => id

theorem apply_other {op : FileOp} {i : Nat} (hne : op.target ≠ i) (d : Disk) (t : Nat) :
    (op.apply d).bytes? t i = d.bytes? t i ∧ (op.apply d).hint? t i = d.hint? t i := by
  have hi : i ≠ op.target := hne.symm
  cases op <;> simp only [FileOp.target] at hi <;> simp [hi]

/-- The files of every other pack stay as they are. -/
theorem applyAll_other {ops : List FileOp} {i : Nat} (hops : ∀ op ∈ ops, op.target ≠ i)
    (d : Disk) (t : Nat) :
    (d.applyAll ops).bytes? t i = d.bytes? t i ∧ (d.applyAll ops).hint? t i = d.hint? t i := by
  induction ops generalizing d with
  | nil => exact ⟨rfl, rfl⟩
  | cons op ops ih =>
      obtain ⟨hbytes, hhint⟩ := ih (fun o ho => hops o (.tail _ ho)) (op.apply d)
      obtain ⟨hbytes', hhint'⟩ := apply_other (hops op (.head _)) d t
      exact ⟨hbytes.trans hbytes', hhint.trans hhint'⟩

end Repkgs.Jigd
