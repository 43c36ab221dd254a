import Repkgs.Jigd.Disk

/-!
# The blob store

The operations of `store.go` on the in-memory tables and the tier directories.
A file descriptor of a pack is the place of its file; what the operating system
answers (failed calls, short writes, the order a map is walked in) is an input.
-/

namespace Repkgs.Jigd

open Lib

/-- Where a value lives: `off` is of the value, not the record. -/
structure Loc where
  pack : Nat
  off : Nat
  len : Nat
  deriving DecidableEq, Repr

/-- A directory with a byte budget, zero for none. -/
structure Tier where
  budget : Int
  total : Int
  deriving DecidableEq, Repr

structure Pack where
  id : Nat
  tier : Nat
  size : Nat
  live : Int
  used : Int
  touched : Int
  deriving DecidableEq, Repr

/-- The tables that `load` fills. -/
structure Core where
  tiers : List Tier
  index : Map Bytes Loc
  packs : Map Nat Pack
  deriving DecidableEq

/-- An open store. `kicked` says that the channel to the demoter holds a token. -/
structure Store extends Core where
  active : Nat
  closed : Bool
  kicked : Bool
  deriving DecidableEq

/-- The result of an operation: the tables, the system calls made, and success. -/
structure Outcome (σ : Type) where
  state : σ
  ops : List FileOp
  ok : Bool

/-- The order in which a map is walked. -/
structure Shuffle where
  run : List (Bytes × Loc) → List (Bytes × Loc)
  perm : ∀ l, (run l).Perm l

def Shuffle.none : Shuffle := ⟨id, fun l => List.Perm.refl l⟩

/-- Arithmetic of `uint32`. -/
def u32 (n : Nat) : Nat := n % 2 ^ 32

def sub32 (a b : Nat) : Nat := (u32 a + 2 ^ 32 - u32 b) % 2 ^ 32

/-- An entry of a hint file counts if its record lies inside the pack. The bound
is checked in `int64`, the offset is kept in `uint32`. -/
def hintLoc (id size : Nat) (e : HintEntry) : Option (Bytes × Loc) :=
  if (size : Int) < Int.bmod (e.off + recHeader + e.key.length + e.vlen) (2 ^ 64) then none
  else some (e.key, ⟨id, u32 (u32 e.off + recHeader + e.key.length), e.vlen⟩)

/-- The entries of a sealed pack, from its hint file. -/
def hintLocs (id size : Nat) (hint : Bytes) : List (Bytes × Loc) :=
  (hintFormat.readAll hint).1.filterMap (hintLoc id size)

/-- The entries of an unsealed pack, from its whole records. -/
def scanLocs (id : Nat) : Nat → List Record → List (Bytes × Loc)
  | _, [] => []
  | off, r :: rs =>
      (r.key, ⟨id, u32 (u32 off + recHeader + r.key.length), r.value.length⟩) ::
        scanLocs id (off + recHeader + r.key.length + r.value.length) rs

/-- Take an entry over unless the index has one from a newer pack. -/
def Core.add (c : Core) (e : Bytes × Loc) : Core :=
  let insert (packs : Map Nat Pack) : Core :=
    { c with
      index := c.index.insert e.1 e.2
      packs := Map.adjust packs e.2.pack fun p => { p with live := p.live + e.2.len } }
  match c.index.lookup e.1 with
  | none => insert c.packs
  | some old =>
      if e.2.pack < old.pack then c
      else insert (Map.adjust c.packs old.pack fun p => { p with live := p.live - old.len })

def addTotal (tiers : List Tier) (t : Nat) (n : Int) : List Tier :=
  tiers.modify t fun tier => { tier with total := tier.total + n }

/-- The entry `seal` writes for a key: the offset is that of the record. -/
def hintEntry (e : Bytes × Loc) : HintEntry :=
  ⟨e.1, e.2.len, sub32 (sub32 e.2.off recHeader) e.1.length⟩

/-- The hint file for a pack: its index entries, in the order the map is walked. -/
def hintOf (index : Map Bytes Loc) (id : Nat) (order : Shuffle) : Bytes :=
  hintFormat.writeAll
    (((order.run (Map.toPairs index)).filter fun e => e.2.pack = id).map hintEntry)

/-- The rename that ends `seal`. -/
def Core.seal (c : Core) (p : Pack) (order : Shuffle) : FileOp :=
  .putHint p.tier p.id (hintOf c.index p.id order)

/-- Which of the system calls of `load` fail. -/
structure LoadIO where
  openFails : Bool
  statFails : Bool
  hintFails : Bool
  truncateFails : Bool
  sealFails : Bool
  order : Shuffle

def LoadIO.faultless (order : Shuffle) : LoadIO := ⟨false, false, false, false, false, order⟩

/-- A sealed pack is loaded from its hint file. -/
def Core.loadHint (c : Core) (p : Pack) (hint : Bytes) : Outcome Core :=
  let c := (hintLocs p.id p.size hint).foldl Core.add c
  ⟨{ c with tiers := addTotal c.tiers p.tier p.size }, [], true⟩

/-- The tables once a pack is known to have `size` bytes. -/
def Core.resize (c : Core) (p : Pack) (size : Nat) : Core :=
  { c with
    tiers := addTotal c.tiers p.tier size
    packs := Map.adjust c.packs p.id fun p => { p with size := size } }

/-- An unsealed pack is scanned; a torn tail is cut and the hint file written. -/
def Core.loadScan (c : Core) (p : Pack) (bytes : Bytes) (now : Int) (io : LoadIO) :
    Outcome Core :=
  let recs := (recordFormat.readAll bytes).1
  let off := (recordFormat.writeAll recs).length
  let c := (scanLocs p.id 0 recs).foldl Core.add c
  if off ≠ p.size && io.truncateFails then ⟨c, [], false⟩
  else
    let cut := if off ≠ p.size then [FileOp.truncate p.tier p.id off now] else []
    let c := c.resize p off
    if io.sealFails then ⟨c, cut, false⟩ else ⟨c, cut ++ [c.seal p io.order], true⟩

/-- Load one pack: from its hint file if it has one, else by scanning it. -/
def Core.load (c : Core) (d : Disk) (t id : Nat) (now : Int) (io : LoadIO) : Outcome Core :=
  match d.pack? t id with
  | none => ⟨c, [], false⟩
  | some f =>
      if io.openFails || io.statFails then ⟨c, [], false⟩
      else
        let p : Pack := ⟨id, t, f.bytes.length, 0, f.mtime, f.mtime⟩
        let c := { c with packs := c.packs.insert id p }
        match if io.hintFails then none else d.hint? t id with
        | some hint => c.loadHint p hint
        | none => c.loadScan p f.bytes now io

/-- Create the pack file that takes the writes from now on, unless it exists. -/
def Core.startPack (c : Core) (d : Disk) (id : Nat) (now : Int) (fails : Bool) : Option Core :=
  if fails || (d.pack? 0 id).isSome then none
  else some { c with packs := c.packs.insert id ⟨id, 0, 0, 0, now, now⟩ }

/-- What `OpenStore` has done so far. -/
structure Opening where
  core : Core
  disk : Disk
  ops : List FileOp
  last : Nat

/-- The faults of `OpenStore`, pack by pack, and of the final `rotate`. -/
structure OpenIO where
  load : Nat → Nat → LoadIO
  createFails : Bool

def Opening.emit (o : Opening) (ops : List FileOp) : Opening :=
  { o with disk := o.disk.applyAll ops, ops := o.ops ++ ops }

/-- One file of a directory: unreadable names and packs that fail to load are
skipped, a pack loaded from a faster tier loses this copy. -/
def openPack (now : Int) (io : OpenIO) (t : Nat) (o : Opening) (name : Bytes) : Opening :=
  match scanPackName name with
  | none => o
  | some id =>
      if id ∈ o.core.packs then o.emit [.removePack t id, .removeHint t id]
      else
        let r := o.core.load o.disk t id now (io.load t id)
        { o.emit r.ops with
          core := r.state
          last := if r.ok then max o.last id else o.last }

def openTier (now : Int) (io : OpenIO) (o : Opening) (t : Nat) : Opening :=
  (o.disk.packNames t).foldl (openPack now io t) o

/-- The loop of `OpenStore` over the tiers, fast one first. -/
def openTiers (budgets : List Int) (d : Disk) (now : Int) (io : OpenIO) : Opening :=
  (List.range budgets.length).foldl (openTier now io)
    ⟨⟨budgets.map fun b => ⟨b, 0⟩, ∅, ∅⟩, d, [], 0⟩

/-- `OpenStore`: the store, or nothing when the new pack cannot be created. -/
def openStore (budgets : List Int) (d : Disk) (now : Int) (io : OpenIO) :
    Outcome (Option Store) :=
  let o := openTiers budgets d now io
  let id := u32 (o.last + 1)
  match o.core.startPack o.disk id now (io.createFails || budgets.isEmpty) with
  | none => ⟨none, o.ops, false⟩
  | some c => ⟨some { c with active := id, closed := false, kicked := false },
      o.ops ++ [.create 0 id now], true⟩

/-- A section of an open pack file. -/
structure Reader where
  tier : Nat
  id : Nat
  off : Nat
  len : Nat
  deriving DecidableEq, Repr

def Reader.bytes (r : Reader) (d : Disk) : Option Bytes :=
  (d.bytes? r.tier r.id).map fun bs => sectionBytes bs r.off r.len

/-- The reader `Get` returns. -/
def Store.get (s : Store) (key : Bytes) : Option Reader := do
  let l ← s.index.lookup key
  let p ← s.packs.lookup l.pack
  some ⟨p.tier, p.id, l.off, l.len⟩

def touchEvery : Int := 60 * 10 ^ 9

/-- What `Get` notes about its pack: the time of the read, and now and then the
file's modification time. -/
def Store.touch (s : Store) (key : Bytes) (now : Int) : Outcome Store :=
  match (s.index.lookup key).bind fun l => s.packs.lookup l.pack with
  | none => ⟨s, [], true⟩
  | some p =>
      let due := decide (touchEvery < now - p.touched)
      ⟨{ s with packs := Map.adjust s.packs p.id fun p =>
          { p with used := now, touched := if due then now else p.touched } },
        if due then [.chtimes p.tier p.id now] else [], true⟩

/-- Which of the system calls of `Put` fail, and how far the two writes get. -/
structure PutIO where
  spoolFails : Bool
  sealFails : Bool
  createFails : Bool
  seekFails : Bool
  hdrWritten : Nat
  bodyWritten : Nat
  truncateFails : Bool
  order : Shuffle

/-- Seal the active pack and start the next one. A failed create leaves the old
pack active, with its hint file written. -/
def Store.rotate (s : Store) (d : Disk) (now : Int) (io : PutIO) : Outcome Store :=
  match s.packs.lookup s.active with
  | none => ⟨s, [], false⟩
  | some a =>
      if io.sealFails then ⟨s, [], false⟩
      else
        let id := u32 (s.active + 1)
        match s.startPack d id now io.createFails with
        | none => ⟨s, [s.seal a io.order], false⟩
        | some c => ⟨{ s with toCore := c, active := id },
            [s.seal a io.order, .create 0 id now], true⟩

/-- What `Put` refuses. -/
def badPut (key : Bytes) (size : Int) : Bool :=
  key.isEmpty || key.length > 4096 || key.any (fun b => b == 10 || b == 32) ||
    size < 0 || size > 2 * 2 ^ 30

/-- The pack table once the old value of a key no longer counts as live. -/
def Core.unlive (c : Core) (key : Bytes) : Map Nat Pack :=
  match c.index.lookup key with
  | none => c.packs
  | some old => Map.adjust c.packs old.pack fun p => { p with live := p.live - old.len }

/-- The tables after a record was written to the active pack `a`. -/
def Store.record (s : Store) (a : Pack) (key body : Bytes) : Store :=
  let recLen := recHeader + key.length + body.length
  let tiers := addTotal s.tiers 0 recLen
  { s with
    tiers := tiers
    index := s.index.insert key
      ⟨a.id, u32 (u32 a.size + recHeader + u32 key.length), u32 body.length⟩
    packs := Map.adjust (s.unlive key) a.id fun p =>
      { p with size := p.size + recLen, live := p.live + body.length }
    kicked := s.kicked || tiers.head?.any fun t => 0 < t.budget && t.budget < t.total }

/-- Append one record to the active pack. A write that stops short is rolled
back with `Truncate`; for an empty value only the header is written. -/
def Store.append (s : Store) (key body : Bytes) (now : Int) (io : PutIO) : Outcome Store :=
  match s.packs.lookup s.active with
  | none => ⟨s, [], false⟩
  | some a =>
      let hdr := Record.header key body.length
      let undo := if io.truncateFails then [] else [FileOp.truncate a.tier a.id a.size now]
      if io.seekFails then ⟨s, [], false⟩
      else if io.hdrWritten < hdr.length then
        ⟨s, .write a.tier a.id a.size (hdr.take io.hdrWritten) now :: undo, false⟩
      else if io.bodyWritten < body.length then
        ⟨s, .write a.tier a.id a.size hdr now ::
          .write a.tier a.id (a.size + hdr.length) (body.take io.bodyWritten) now :: undo, false⟩
      else
        ⟨s.record a key body,
          .write a.tier a.id a.size hdr now ::
            if body.isEmpty then [] else [.write a.tier a.id (a.size + hdr.length) body now],
          true⟩

/-- `Put` with the lock held: rotate when the record does not fit, then append. -/
def Store.putLocked (s : Store) (d : Disk) (key body : Bytes) (now : Int) (io : PutIO) :
    Outcome Store :=
  let full := (s.packs.lookup s.active).any fun a =>
    packLimit < a.size + (recHeader + key.length + body.length) && 0 < a.size
  if full then
    let r := s.rotate d now io
    if r.ok then
      let w := r.state.append key body now io
      ⟨w.state, r.ops ++ w.ops, w.ok⟩
    else r
  else s.append key body now io

/-- `Put`: `size` bytes are read from `r` before the lock is taken. -/
def Store.put (s : Store) (d : Disk) (key : Bytes) (size : Int) (r : Bytes) (now : Int)
    (io : PutIO) : Outcome Store :=
  if badPut key size || r.length < size.toNat || (spoolMin ≤ size.toNat && io.spoolFails) ||
      s.closed then ⟨s, [], false⟩
  else s.putLocked d key (r.take size.toNat) now io

def Pack.stale (p : Pack) : Bool := p.live * 2 < p.size

/-- The order in which packs leave a tier. -/
def Pack.before (p q : Pack) : Bool :=
  if p.stale != q.stale then p.stale
  else p.used < q.used || (p.used == q.used && p.id < q.id)

/-- The packs that may leave tier `t`. -/
def Store.candidates (s : Store) (t : Nat) : List Pack :=
  ((Map.toPairs s.packs).map Prod.snd).filter fun p => p.tier == t && p.id != s.active

/-- The pack to leave the first tier that is over budget and has one to give. -/
def Store.victim (s : Store) : Option Pack :=
  (List.range s.tiers.length).findSome? fun t =>
    s.tiers[t]?.bind fun tier =>
      if tier.budget ≤ 0 ∨ tier.total ≤ tier.budget then none
      else ((s.candidates t).insertionSort fun p q => q.before p = false).head?

/-- Which of the steps of a demotion fails. -/
structure MoveIO where
  packFails : Bool
  hintFails : Bool
  openFails : Bool

/-- Delete a pack of the last tier. -/
def Store.evict (s : Store) (p : Pack) : Outcome Store :=
  ⟨{ s with
      index := Map.filter s.index fun _ l => l.pack != p.id
      packs := s.packs.erase p.id
      tiers := addTotal s.tiers p.tier (-p.size) },
    [.removePack p.tier p.id, .removeHint p.tier p.id], true⟩

/-- Link or copy a pack and its hint to the next tier, then switch over. A
failure leaves what was copied behind. -/
def Store.demote (s : Store) (d : Disk) (p : Pack) (io : MoveIO) : Outcome Store :=
  if io.packFails || (d.pack? p.tier p.id).isNone then ⟨s, [], false⟩
  else if io.hintFails || (d.hint? p.tier p.id).isNone then
    ⟨s, [.linkPack p.tier p.id], false⟩
  else if io.openFails then ⟨s, [.linkPack p.tier p.id, .linkHint p.tier p.id], false⟩
  else
    ⟨{ s with
        packs := Map.adjust s.packs p.id fun p => { p with tier := p.tier + 1 }
        tiers := addTotal (addTotal s.tiers p.tier (-p.size)) (p.tier + 1) p.size },
      [.linkPack p.tier p.id, .linkHint p.tier p.id, .chtimes (p.tier + 1) p.id p.used,
        .removePack p.tier p.id, .removeHint p.tier p.id], true⟩

def Store.moveDown (s : Store) (d : Disk) (p : Pack) (io : MoveIO) : Outcome Store :=
  if p.tier + 1 = s.tiers.length then s.evict p else s.demote d p io

/-- `Close` seals the active pack. -/
def Store.close (s : Store) (sealFails : Bool) (order : Shuffle) : Outcome Store :=
  match s.packs.lookup s.active with
  | none => ⟨{ s with closed := true }, [], false⟩
  | some a =>
      ⟨{ s with closed := true }, if sealFails then [] else [s.seal a order], !sealFails⟩

end Repkgs.Jigd
