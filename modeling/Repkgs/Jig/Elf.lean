import Repkgs.Jig.BinaryImage
import Repkgs.Jig.FixupPaths
import Repkgs.Lib.Walk

/-!
# Rewriting an ELF file

`elf_fixup.cc`. `FixElf` makes the RUNPATH of a file relative to its place, turns
NEEDED names into direct paths where the padded RUNPATH leaves room for them, and
hands PT_INTERP over to the stub at the entry point. All offsets come from the
file; they are 64-bit numbers, and the program is built to trap where a sum of them
overflows. A sum that is written as a plain one starts from an offset inside of the
image, or is compared with nothing else than its bounds, and cannot overflow.
-/

namespace Repkgs.Jig.Elf

open Lib

/-- `a + b` in 64 bits, or a trap. -/
def add64 (a b : Nat) : Except Fault Nat :=
  if a + b < 2 ^ 64 then .ok (a + b) else .error .overflow

/-- The value of a loop that came to its end. -/
def ended {α : Type*} : Option α → Except Fault α
  | none => .error .endlessLoop
  | some a => .ok a

/-- `std::vector::at`. -/
def atIndex {α : Type*} (xs : List α) (i : Nat) : Except Fault α :=
  match xs[i]? with
  | none => .error .outOfRange
  | some a => .ok a

/-- `Elf64_Ehdr` as its 64 bytes. -/
def ehdrSize : Nat := 64

def eType (ehdr : Bytes) : Nat := field ehdr 16 2

def eEntry (ehdr : Bytes) : Nat := field ehdr 24 8

def ePhoff (ehdr : Bytes) : Nat := field ehdr 32 8

def eShoff (ehdr : Bytes) : Nat := field ehdr 40 8

def ePhentsize (ehdr : Bytes) : Nat := field ehdr 54 2

def ePhnum (ehdr : Bytes) : Nat := field ehdr 56 2

def eShentsize (ehdr : Bytes) : Nat := field ehdr 58 2

def eShnum (ehdr : Bytes) : Nat := field ehdr 60 2

/-- `Elf64_Phdr` as its 56 bytes. -/
def phdrSize : Nat := 56

def pType (phdr : Bytes) : Nat := field phdr 0 4

def pOffset (phdr : Bytes) : Nat := field phdr 8 8

def pVaddr (phdr : Bytes) : Nat := field phdr 16 8

def pFilesz (phdr : Bytes) : Nat := field phdr 32 8

def ptNull : Nat := 0

def ptLoad : Nat := 1

def ptInterp : Nat := 3

structure Section where
  type : Nat
  offset : Nat
  size : Nat
  link : Nat
  entsize : Nat
  deriving DecidableEq

def shtDynamic : Nat := 6

def shtNobits : Nat := 8

def shtDynsym : Nat := 11

def shtGnuVerneed : Nat := 0x6ffffffe

/-- `SectionEnd`. -/
def sectionEnd (image : Bytes) (s : Section) : Nat :=
  if image.length ≤ s.offset then 0 else s.offset + min s.size (image.length - s.offset)

/-- The header at an index; the one before it, if any, is inside of the image. -/
def readSection (image ehdr : Bytes) (i : Nat) : Option Section :=
  (readRaw image (eShoff ehdr + i * eShentsize ehdr) 64).map fun shdr =>
    { type := field shdr 4 4
      offset := field shdr 24 8
      size := field shdr 32 8
      link := field shdr 40 4
      entsize := field shdr 56 8 }

/-- `ReadSections`. -/
def readSections (image ehdr : Bytes) : List Section :=
  readWhile (readSection image ehdr) (eShnum ehdr) 0

def ofType (sections : List Section) (type : Nat) : Option Section :=
  sections.find? fun s => s.type == type

def dtNull : Nat := 0

def dtNeeded : Nat := 1

def dtRpath : Nat := 15

def dtRunpath : Nat := 29

structure Needed where
  name : Bytes
  /-- File offset of this entry's `d_val`. -/
  valOffset : Nat
  /-- File offsets of the `vn_file`s that name it. -/
  vnFiles : List Nat
  deriving DecidableEq

structure DynamicInfo where
  needed : List Needed
  dynstr : Nat
  runpathOffset : Option Nat

/-- One round of the loop over `Elf64_Dyn`s: its place, its tag and its value. -/
def visitDyn (image : Bytes) (stop off : Nat) : Option ((Nat × Nat × Nat) × Nat) :=
  if off < stop then
    match readRaw image off 16 with
    | none => none
    | some dyn =>
        if field dyn 0 8 = dtNull then none
        else some ((off, field dyn 0 8, field dyn 8 8), off + 16)
  else none

def dynEntries (image : Bytes) (dynamic : Section) : Option (List (Nat × Nat × Nat)) :=
  walk (visitDyn image (sectionEnd image dynamic)) (image.length + 1) dynamic.offset

/-- One round of the loop over `Elf64_Verneed`s: its place and `vn_file`. -/
def visitVerneed (image : Bytes) (off : Nat) : Option ((Nat × Nat) × Nat) :=
  if off = 0 then none
  else (readRaw image off 16).map fun ent =>
    ((off, field ent 4 4), if field ent 12 4 = 0 then 0 else off + field ent 12 4)

def verneeds (image : Bytes) (sections : List Section) : Option (List (Nat × Nat)) :=
  walk (visitVerneed image) (image.length + 1)
    (((ofType sections shtGnuVerneed).map Section.offset).getD 0)

/-- The strings that some entries point to, with the places of the entries. -/
def stringsAt (image : Bytes) (dynstr : Nat) (entries : List (Nat × Nat)) :
    Except Fault (List (Nat × Bytes)) :=
  entries.mapM fun e => (add64 dynstr e.2).map fun str => (e.1, cString image str)

/-- The entries with one of some tags, and their values. -/
def tagged (dyns : List (Nat × Nat × Nat)) (tags : List Nat) : List (Nat × Nat) :=
  (dyns.filter fun d => tags.contains d.2.1).map fun d => (d.1, d.2.2)

/-- The NEEDED entries, each with the `vn_file`s that read as its name. -/
def neededOf (names files : List (Nat × Bytes)) : List Needed :=
  names.map fun (off, name) =>
    { name
      valOffset := off + 8
      vnFiles := (files.filter fun v => v.2 == name).map fun v => v.1 + 4 }

/-- The last RUNPATH or RPATH. -/
def runpathOf (dynstr : Nat) (dyns : List (Nat × Nat × Nat)) : Except Fault (Option Nat) :=
  ((tagged dyns [dtRunpath, dtRpath]).mapM fun e => add64 dynstr e.2).map List.getLast?

/-- The dynamic section and its strings, if they can be used. -/
def dynamicTable (sections : List Section) : Except Fault (Option (Section × Section)) :=
  match ofType sections shtDynamic with
  | none => .ok none
  | some dynamic =>
      if sections.length ≤ dynamic.link then .ok none
      else
        (atIndex sections dynamic.link).map fun dynstr =>
          if dynstr.type = shtNobits then none else some (dynamic, dynstr)

/-- `ReadDynamic`. -/
def readDynamic (image : Bytes) (sections : List Section) : Except Fault DynamicInfo :=
  dynamicTable sections >>= fun table =>
  match table with
  | none => .ok ⟨[], 0, none⟩
  | some (dynamic, dynstr) =>
      ended (dynEntries image dynamic) >>= fun dyns =>
      ended (verneeds image sections) >>= fun vers =>
      stringsAt image dynstr.offset (tagged dyns [dtNeeded]) >>= fun names =>
      runpathOf dynstr.offset dyns >>= fun runpath =>
      stringsAt image dynstr.offset vers >>= fun files =>
      .ok ⟨neededOf names files, dynstr.offset, runpath⟩

/-- The symbol table and the file offset of its strings, if they can be used. -/
def symbolTable (sections : List Section) : Except Fault (Option (Section × Nat)) :=
  match ofType sections shtDynsym with
  | none => .ok none
  | some dynsym =>
      if dynsym.entsize < 24 ∨ sections.length ≤ dynsym.link then .ok none
      else atIndex sections dynsym.link >>= fun strtab => .ok (some (dynsym, strtab.offset))

/-- The loop over the symbols from `off` on; `visit` may end it with a result. -/
def overSymbols {α : Type} (stop entsize : Nat) (visit : Nat → Except Fault (Option α)) :
    Nat → Nat → Except Fault (Option α)
  | 0, _ => .error .endlessLoop
  | fuel + 1, off =>
      if off < stop then
        visit off >>= fun found =>
        match found with
        | some a => .ok (some a)
        | none => add64 off entsize >>= overSymbols stop entsize visit fuel
      else .ok none

/-- The loop over the symbol table, if it can be used. `visit` gets the offset of the
strings and what was read of the symbol. -/
def searchSymbols {α : Type} (image : Bytes) (sections : List Section)
    (visit : Nat → Option Bytes → Except Fault (Option α)) : Except Fault (Option α) :=
  symbolTable sections >>= fun table =>
  match table with
  | none => .ok none
  | some (dynsym, strtab) =>
      overSymbols (sectionEnd image dynsym) dynsym.entsize
        (fun off => visit strtab (readRaw image off 24)) (image.length + 1) dynsym.offset

/-- One round of `SymbolInside`: a symbol outside of the image is passed over. -/
def visitInside (image : Bytes) (start stop strtab : Nat) :
    Option Bytes → Except Fault (Option Bytes)
  | none => .ok none
  | some sym =>
      (add64 strtab (field sym 0 4)).map fun name =>
        if start < name ∧ name < stop then some (cString image name) else none

/-- `SymbolInside`. -/
def symbolInside (image : Bytes) (sections : List Section) (start stop : Nat) :
    Except Fault (Option Bytes) :=
  searchSymbols image sections (visitInside image start stop)

/-- The file system as the rewriting sees it. `pathExists` is `fs::exists`, which
throws if the question has no answer, as for a name that is too long. -/
structure Host where
  storeDir : Bytes
  pathExists : Bytes → Option Bool
  /-- `WriteBack`: whether the new bytes could be written to the path. -/
  writeBack : Bytes → Bytes → Bool

def Host.asks (h : Host) (path : Bytes) : Except Fault Bool :=
  match h.pathExists path with
  | none => .error .filesystemError
  | some found => .ok found

structure RunpathDir where
  entry : Bytes
  dir : Bytes
  keep : Bool
  deriving DecidableEq

def libcName : Bytes := ascii "libc.so.6"

/-- `RunpathDir::IsLibc`. -/
def RunpathDir.isLibc (h : Host) (d : RunpathDir) : Except Fault Bool :=
  h.asks (appendPath d.dir libcName)

def origin : Bytes := ascii "$ORIGIN"

/-- Where an entry of the old RUNPATH will finally be. -/
def entryDir (ctx : FixupContext) (finalHere entry : Bytes) : Bytes :=
  if entry = origin ∨ (origin ++ ascii "/").isPrefixOf entry then
    lexicallyNormal (appendPath finalHere (entry.drop (origin.length + 1)))
  else ctx.final entry

/-- `RelativizeRunpath`. -/
def relativizeRunpath (h : Host) (ctx : FixupContext) (old here : Bytes) : List RunpathDir :=
  let finalHere := ctx.final here
  ((split old (chr ':')).map (entryDir ctx finalHere)).filterMap (fun dir =>
      if isStorePath h.storeDir dir then
        some ⟨relativeTo finalHere dir origin, ctx.onDisk dir, true⟩
      else none) ++
    ctx.ownLibDirs.map fun own => ⟨relativeTo finalHere (ctx.final own) origin, own, false⟩

/-- `Join`. -/
def join (parts : List Bytes) (sep : Bytes) : Bytes :=
  parts.foldl (fun out part => if out.isEmpty then out ++ part else out ++ sep ++ part) []

/-- `RenderRunpath`. -/
def renderRunpath (runpath : List RunpathDir) : Bytes :=
  join ((runpath.filter RunpathDir.keep).foldl (fun kept d =>
    if kept.contains d.entry then kept else kept ++ [d.entry]) []) (ascii ":")

/-- What happens to a NEEDED: it is not ours to resolve, no directory has it, it stays
a soname because libc is beside it, or the directory at an index serves it directly. -/
inductive Place
  | skipped
  | missing
  | inLibc (i : Nat) (d : RunpathDir)
  | direct (i : Nat) (d : RunpathDir)
  deriving DecidableEq

/-- The first directory with a file of this name. -/
def findDir (h : Host) (name : Bytes) :
    List RunpathDir → Nat → Except Fault (Option (Nat × RunpathDir))
  | [], _ => .ok none
  | d :: rest, i =>
      h.asks (appendPath d.dir name) >>= fun found =>
      if found then .ok (some (i, d)) else findDir h name rest (i + 1)

def isOutside (name : Bytes) : Bool :=
  name.contains (chr '/') || (ascii "ld-linux").isPrefixOf name ||
    (ascii "linux-vdso").isPrefixOf name

/-- What the first directory with the name makes of it. -/
def placeIn (h : Host) : Option (Nat × RunpathDir) → Except Fault Place
  | none => .ok .missing
  | some (i, d) => d.isLibc h >>= fun libc => .ok (if libc then .inLibc i d else .direct i d)

def place (h : Host) (runpath : List RunpathDir) (lib : Needed) : Except Fault Place :=
  if isOutside lib.name then .ok .skipped
  else findDir h lib.name runpath 0 >>= placeIn h

/-- A NEEDED that becomes a path, with the directory that serves it. -/
structure Direct where
  lib : Needed
  index : Nat
  dir : RunpathDir
  deriving DecidableEq

def Direct.target (dep : Direct) : Bytes := dep.dir.entry ++ chr '/' :: dep.lib.name

def directsOf (needed : List Needed) (places : List Place) : List Direct :=
  (needed.zip places).filterMap fun
    | (lib, .direct i d) => some ⟨lib, i, d⟩
    | _ => none

/-- The directories with another `keep` at the indices that serve a NEEDED. -/
def setKeep (runpath : List RunpathDir) (directs : List Direct) (keep : Bool) : List RunpathDir :=
  runpath.mapIdx fun i d => if directs.any (·.index == i) then { d with keep } else d

/-- What takes the place of the old RUNPATH. -/
structure Plan where
  neu : Bytes
  blob : Bytes
  directs : List Direct
  deriving DecidableEq

/-- The direct paths behind the RUNPATH if they fit, else the RUNPATH alone. -/
def plan (old : Bytes) (runpath : List RunpathDir) (directs : List Direct) : Plan :=
  let neu := renderRunpath (setKeep runpath directs false)
  let blob := neu ++ directs.flatMap fun dep => 0 :: dep.target
  if old.length < blob.length then
    let neu := renderRunpath (setKeep runpath directs true)
    ⟨neu, neu, []⟩
  else ⟨neu, blob, directs⟩

/-- NEEDED entries and `vn_file`s point to their new strings, from `str` on. -/
def pointNeeded (image : Bytes) : List Direct → Nat → Bytes
  | [], _ => image
  | dep :: rest, str =>
      let image := writeNat image dep.lib.valOffset 8 str
      let image := dep.lib.vnFiles.foldl (fun img off => writeNat img off 4 str) image
      pointNeeded image rest (str + dep.target.length + 1)

/-- The file while it is rewritten. -/
structure Progress where
  image : Bytes
  errors : Nat
  dirty : Bool
  deriving DecidableEq

/-- What `FixRunpath` is about to write: the place and the text of the old RUNPATH, the
start of the strings, the NEEDED it did not find, and the plan. -/
structure Relink where
  offset : Nat
  dynstr : Nat
  old : Bytes
  missing : Nat
  plan : Plan

/-- `FixRunpath` up to its plan; `none` if there is no RUNPATH. -/
def planRunpath (h : Host) (ctx : FixupContext) (path image : Bytes) (sections : List Section) :
    Except Fault (Option Relink) :=
  readDynamic image sections >>= fun dynamic =>
  match dynamic.runpathOffset with
  | none => .ok none
  | some offset =>
      let old := cString image offset
      let runpath := relativizeRunpath h ctx old (parentPath path)
      (dynamic.needed.mapM (place h runpath)).map fun places =>
        some ⟨offset, dynamic.dynstr, old, places.count .missing,
          plan old runpath (directsOf dynamic.needed places)⟩

/-- The image with the new strings in the place of the old RUNPATH, if they fit. -/
def relinked (image : Bytes) (r : Relink) : Option Bytes :=
  (writePadded image r.offset (r.old.length + 1) r.plan.blob).map fun image =>
    -- the RUNPATH does not begin in front of the strings
    pointNeeded image r.plan.directs (r.offset + r.plan.neu.length + 1 - r.dynstr)

/-- The part of `FixRunpath` that writes; the flag says whether to go on. -/
def writeRunpath (image : Bytes) (sections : List Section) (r : Relink) :
    Except Fault (Bool × Progress) :=
  if r.plan.blob = r.old then .ok (true, ⟨image, r.missing, false⟩)
  else
    (symbolInside image sections r.offset (r.offset + r.old.length)).map fun inside =>
      match inside, relinked image r with
      | none, some image' => (true, ⟨image', r.missing, true⟩)
      | _, _ => (false, ⟨image, r.missing + 1, false⟩)

/-- `FixRunpath`. -/
def fixRunpath (h : Host) (ctx : FixupContext) (path image : Bytes) (sections : List Section) :
    Except Fault (Bool × Progress) :=
  planRunpath h ctx path image sections >>= fun found =>
  match found with
  | none => .ok (true, ⟨image, 0, false⟩)
  | some r => writeRunpath image sections r

def relocStubMagic : Bytes := ascii "RELOCSTB"

def relocStubHeader : Nat := 16

/-- The program header at an index. -/
def readPhdr (image ehdr : Bytes) (i : Nat) : Option Bytes :=
  readRaw image (ePhoff ehdr + i * ePhentsize ehdr) phdrSize

/-- The program header is that of a PT_LOAD whose bytes in the file have the address. -/
def Loads (vaddr : Nat) (phdr : Bytes) : Prop :=
  pType phdr = ptLoad ∧ pVaddr phdr ≤ vaddr ∧ vaddr - pVaddr phdr < pFilesz phdr

instance (vaddr : Nat) (phdr : Bytes) : Decidable (Loads vaddr phdr) :=
  inferInstanceAs (Decidable (_ ∧ _))

/-- The loop of `FileOffset` from an index on. Headers outside of the image are skipped,
so the sum for a later one may overflow. -/
def fileOffsetFrom (image ehdr : Bytes) (vaddr : Nat) : Nat → Nat → Except Fault (Option Nat)
  | 0, _ => .ok none
  | n + 1, i =>
      add64 (ePhoff ehdr) (i * ePhentsize ehdr) >>= fun off =>
      match (readRaw image off phdrSize).filter (decide <| Loads vaddr ·) with
      | some phdr => (add64 (pOffset phdr) (vaddr - pVaddr phdr)).map some
      | none => fileOffsetFrom image ehdr vaddr n (i + 1)

/-- `FileOffset`. -/
def fileOffset (image ehdr : Bytes) (vaddr : Nat) : Except Fault (Option Nat) :=
  fileOffsetFrom image ehdr vaddr (ePhnum ehdr) 0

/-- The bytes in front of the entry point are those of a stub header. -/
def hasStubHeader (image ehdr : Bytes) : Except Fault Bool :=
  if eEntry ehdr < relocStubHeader then .ok false
  else
    fileOffset image ehdr (eEntry ehdr - relocStubHeader) >>= fun found =>
    match found with
    | none => .ok false
    | some off => (substr image off relocStubMagic.length).map fun magic => magic == relocStubMagic

/-- One round of `FindRelocStart`: a symbol outside of the image ends it, without a result. -/
def visitStart (image : Bytes) (strtab : Nat) : Option Bytes → Except Fault (Option (Option Nat))
  | none => .ok (some none)
  | some sym =>
      (add64 strtab (field sym 0 4)).map fun name =>
        if cString image name = ascii "__reloc_start" then some (some (field sym 8 8)) else none

/-- `FindRelocStart`. -/
def findRelocStart (image ehdr : Bytes) (sections : List Section) : Except Fault (Option Nat) :=
  hasStubHeader image ehdr >>= fun stub =>
  if stub then .ok (some (eEntry ehdr))
  else (searchSymbols image sections (visitStart image)).map Option.join

/-- One program header. `none` ends the loop without an error. -/
def disableInterp (h : Host) (ctx : FixupContext) (path ehdr : Bytes) (stub : Option Nat)
    (phOff : Nat) (phdr : Bytes) (p : Progress) : Bool × Progress :=
  if pType phdr ≠ ptInterp then (true, p)
  else
    match stub with
    | none => (true, p)
    | some entry =>
        let old := cString p.image (pOffset phdr)
        let written :=
          if isStorePath h.storeDir old then
            writePadded p.image (pOffset phdr) (pFilesz phdr)
              (relativeTo (ctx.final (parentPath path)) old [])
          else some p.image
        match written with
        | none => (false, { p with errors := p.errors + 1 })
        | some image =>
            let image := (overwrite image phOff (leBytes 4 ptNull ++ phdr.drop 4)).getD image
            let header := patch ehdr 24 (leBytes 8 entry)
            (true, ⟨(overwrite image 0 header).getD image, p.errors, true⟩)

/-- The loop of `FixInterp` over the program headers from `i` on. -/
def fixInterpFrom (h : Host) (ctx : FixupContext) (path ehdr : Bytes) (stub : Option Nat) :
    Nat → Nat → Progress → Bool × Progress
  | 0, _, p => (true, p)
  | n + 1, i, p =>
      match readPhdr p.image ehdr i with
      | none => (true, p)
      | some phdr =>
          let phOff := ePhoff ehdr + i * ePhentsize ehdr
          match disableInterp h ctx path ehdr stub phOff phdr p with
          | (false, p) => (false, p)
          | (true, p) => fixInterpFrom h ctx path ehdr stub n (i + 1) p

/-- `FixInterp`. -/
def fixInterp (h : Host) (ctx : FixupContext) (path ehdr : Bytes) (sections : List Section)
    (p : Progress) : Except Fault (Bool × Progress) :=
  findRelocStart p.image ehdr sections >>= fun stub =>
  .ok (fixInterpFrom h ctx path ehdr stub (ePhnum ehdr) 0 p)

/-- `IsElf64LittleEndian`. -/
def isElf64LittleEndian (image : Bytes) : Bool :=
  (0x7f :: ascii "ELF").isPrefixOf image && decide (5 < image.length) &&
    image[4]? == some 2 && image[5]? == some 1

/-- ET_EXEC or ET_DYN. -/
def isLinked (ehdr : Bytes) : Bool := eType ehdr == 2 || eType ehdr == 3

/-- What `FixElf` leaves: the bytes it wrote to the file, if any, and how many errors
it counted. -/
structure Fixup where
  written : Option Bytes
  errors : Nat
  deriving DecidableEq

/-- The end of `FixElf`: what was rewritten goes to the file. -/
def finish (h : Host) (path : Bytes) : Bool × Progress → Fixup
  | (false, p) => ⟨none, p.errors⟩
  | (true, p) =>
      if p.dirty then
        if h.writeBack path p.image then ⟨some p.image, p.errors⟩ else ⟨none, p.errors + 1⟩
      else ⟨none, p.errors⟩

/-- The steps of `FixElf` behind its checks. -/
def rewrites (h : Host) (ctx : FixupContext) (path image ehdr : Bytes) : Except Fault Fixup :=
  let sections := readSections image ehdr
  fixRunpath h ctx path image sections >>= fun (go, p) =>
  if go = false then .ok (finish h path (false, p))
  else (fixInterp h ctx path ehdr sections p).map (finish h path)

/-- `FixElf`; `none` if the file is no 64-bit little-endian ELF. -/
def fixElf (h : Host) (ctx : FixupContext) (path image : Bytes) :
    Except Fault (Option Fixup) :=
  if isElf64LittleEndian image = false then .ok none
  else
    match readRaw image 0 ehdrSize with
    | none => .ok (some ⟨none, 0⟩)
    | some ehdr =>
        if isLinked ehdr = false then .ok (some ⟨none, 0⟩)
        else (rewrites h ctx path image ehdr).map some

end Repkgs.Jig.Elf
