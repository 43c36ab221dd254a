import Repkgs.Jig.BinaryImage
import Repkgs.Jig.FixupPaths

/-!
# Rewriting the load commands of a Mach-O file

`macho_fixup.cc`. The load commands of a 64-bit image are read into a table,
those that carry a path are respelled, and the table is written back over the
header padding. The pages of the file change, so the hashes of an ad-hoc
signature are computed again.
-/

namespace Repkgs.Jig

open Lib

namespace MachO

def magic64 : Nat := 0xfeedfacf

def loadDylib : Nat := 0xc

def idDylib : Nat := 0xd

def loadWeakDylib : Nat := 0x80000018

def rpath : Nat := 0x8000001c

def reexportDylib : Nat := 0x8000001f

def loadUpwardDylib : Nat := 0x80000023

def codeSignature : Nat := 0x1d

def segment64 : Nat := 0x19

/-- `sizeof(MachHeader64)`. -/
def headerSize : Nat := 32

/-- `sizeof(LoadCommand)`. -/
def loadCommandSize : Nat := 8

structure Command where
  cmd : Nat
  /-- The whole load command. -/
  bytes : Bytes
  /-- Where the path of a dylib or rpath command begins, else 0. -/
  pathOff : Nat
  deriving DecidableEq

/-- `Command::Path`. -/
def Command.path (c : Command) : Bytes :=
  if c.pathOff = 0 then [] else (cut 0 (c.bytes.drop c.pathOff)).1

/-- `Command::SetPath`. -/
def Command.setPath (c : Command) (path : Bytes) : Command :=
  let bytes := resize c.bytes c.pathOff ++ path
  let bytes := resize bytes ((bytes.length + 8) / 8 * 8)
  { c with bytes := writeNat bytes 4 4 bytes.length }

def isPathCommand (cmd : Nat) : Bool :=
  cmd == loadDylib || cmd == loadWeakDylib || cmd == reexportDylib || cmd == loadUpwardDylib ||
    cmd == idDylib || cmd == rpath

/-- The load command at `offset`, if its head fits and its size is possible. -/
def readCommand (image : Bytes) (offset : Nat) : Option Command :=
  match readRaw image offset loadCommandSize with
  | none => none
  | some load =>
      let cmd := field load 0 4
      let size := field load 4 4
      if size < loadCommandSize ∨ image.length < offset + size then none
      else
        let lcStr := (readNat image (offset + loadCommandSize) 4).getD 0
        some
          { cmd
            bytes := slice image offset size
            pathOff := if isPathCommand cmd && decide (lcStr < size) then lcStr else 0 }

/-- The load commands from `offset` on, each with its place. -/
def readCommands (image : Bytes) : Nat → Nat → List (Nat × Command)
  | 0, _ => []
  | ncmds + 1, offset =>
      match readCommand image offset with
      | none => []
      | some command =>
          (offset, command) :: readCommands image ncmds (offset + command.bytes.length)

/-- Where the content of a segment begins in the file. The segment that maps the
header itself begins with its sections. -/
def contentOffsets (image : Bytes) (offset : Nat) : List Nat :=
  let fileoff := (readNat image (offset + 40) 8).getD 0
  let filesize := (readNat image (offset + 48) 8).getD 0
  if filesize ≠ 0 ∧ fileoff = 0 then
    let nsects := (readNat image (offset + 64) 4).getD 0
    ((List.range nsects).map fun sect =>
      (readNat image (offset + 72 + sect * 80 + 48) 4).getD 0).filter (· ≠ 0)
  else if filesize ≠ 0 then [fileoff] else []

structure LoadCommands where
  commands : List Command
  /-- Where segments and sections begin in the file. -/
  contents : List Nat
  /-- Bytes from the end of the header to the first segment's file content. -/
  room : Nat

/-- The table that the first `ncmds` load commands make. -/
def loadCommands (image : Bytes) (ncmds : Nat) : LoadCommands :=
  let located := readCommands image ncmds headerSize
  let contents := located.flatMap fun (offset, c) =>
    if c.cmd = segment64 then contentOffsets image offset else []
  { commands := located.map Prod.snd
    contents
    room := contents.foldl (fun room off => min room (off - headerSize))
      (image.length - headerSize) }

/-- `ReadLoadCommands`. The subtraction of the header traps for content inside of it. -/
def readLoadCommands (image : Bytes) (ncmds : Nat) : Except Fault LoadCommands :=
  if ∃ off ∈ (loadCommands image ncmds).contents, off < headerSize then .error .overflow
  else .ok (loadCommands image ncmds)

/-- Why signing stops: the message is printed and the file given up, or the
program ends. -/
inductive Stop
  | refused
  | fault (f : Fault)
  deriving DecidableEq

/-- `Big32`. -/
def big32 (image : Bytes) (off : Nat) : Option Nat :=
  (readRaw image off 4).map fun raw => leNat raw.reverse

/-- The image while it is signed, and where hash slots were written. -/
structure Signing where
  image : Bytes
  slots : List Nat
  deriving DecidableEq

/-- The fields of a code directory that the hashes depend on. -/
structure Directory where
  off : Nat
  hashOff : Nat
  slots : Nat
  limit : Nat
  page : Nat
  deriving DecidableEq

def sha256Size : Nat := 32

/-- One slot: the hash of its page, written to its place. -/
def signSlot (sha256 : Bytes → Bytes) (d : Directory) (st : Signing) (slot : Nat) :
    Except Stop Signing :=
  let start := slot * d.page
  -- `begin + page` and `end - begin` trap when they leave the 64 bits
  if 2 ^ 64 ≤ start + d.page ∨ d.limit < start then .error (.fault .overflow)
  else
    match substr st.image start (min (start + d.page) d.limit - start) with
    | .error f => .error (.fault f)
    | .ok page =>
        let off := d.off + d.hashOff + slot * sha256Size
        match overwrite st.image off (sha256 page) with
        | none => .error .refused
        | some image => .ok ⟨image, off :: st.slots⟩

/-- The code directory at `off`. -/
def readDirectory (image : Bytes) (off : Nat) : Except Stop Directory :=
  let hashSize := (readNat image (off + 36) 1).getD 0
  let hashType := (readNat image (off + 37) 1).getD 0
  let shift := (readNat image (off + 39) 1).getD 0
  if 64 ≤ shift then .error (.fault .undefinedShift)
  else if hashType ≠ 2 ∨ hashSize ≠ sha256Size then .error .refused
  else
    .ok
      { off
        hashOff := (big32 image (off + 16)).getD 0
        slots := (big32 image (off + 28)).getD 0
        limit := (big32 image (off + 32)).getD 0
        page := 2 ^ shift }

/-- One blob of the signature. Only code directories have slots. `sig_off` has 32 bits, and
so have its sums. -/
def signBlob (sha256 : Bytes → Bytes) (sigOff : Nat) (st : Signing) (i : Nat) :
    Except Stop Signing :=
  let off := sigOff + (big32 st.image (sigOff + 12 + i * 8 + 4)).getD 0
  if 2 ^ 32 ≤ sigOff + 12 ∨ 2 ^ 32 ≤ off then .error (.fault .overflow)
  else if big32 st.image off ≠ some 0xfade0c02 then .ok st
  else readDirectory st.image off >>= fun d => (List.range d.slots).foldlM (signSlot sha256 d) st

/-- The offset that the last `LC_CODE_SIGNATURE` holds. -/
def signatureOffset (image : Bytes) : Nat → Nat → Option Nat → Option Nat
  | 0, _, sigOff => sigOff
  | ncmds + 1, offset, sigOff =>
      match readRaw image offset loadCommandSize with
      | none => sigOff
      | some load =>
          if field load 4 4 < loadCommandSize then sigOff
          else signatureOffset image ncmds (offset + field load 4 4)
            (if field load 0 4 = codeSignature then readNat image (offset + loadCommandSize) 4
              else sigOff)

/-- `Resign`. -/
def resign (sha256 : Bytes → Bytes) (image : Bytes) : Except Stop Signing :=
  let ncmds := ((readRaw image 0 headerSize).map (field · 16 4)).getD 0
  match signatureOffset image ncmds headerSize none with
  | none => .ok ⟨image, []⟩
  | some sigOff =>
      if big32 image sigOff ≠ some 0xfade0cc0 then .error .refused
      else if 2 ^ 32 ≤ sigOff + 8 then .error (.fault .overflow)
      else
        let blobs := (big32 image (sigOff + 8)).getD 0
        (List.range blobs).foldlM (signBlob sha256 sigOff) ⟨image, []⟩

/-- The file system and the library functions the rewriting calls. -/
structure Host where
  storeDir : Bytes
  pathExists : Bytes → Bool
  sha256 : Bytes → Bytes
  sha256_length : ∀ text, (sha256 text).length = sha256Size
  /-- `WriteBack`: whether the new bytes could be written to the path. -/
  writeBack : Bytes → Bytes → Bool

def isSystemPath (path : Bytes) : Bool :=
  (ascii "/usr/lib/").isPrefixOf path || (ascii "/System/").isPrefixOf path

/-- `Resolve`. -/
def resolve (h : Host) (ctx : FixupContext) (here path : Bytes) : Option Bytes :=
  if isSystemPath path then
    let stem := if (ascii ".dylib").isSuffixOf path then path.take (path.length - 6) else path
    if ctx.sdk.isEmpty || h.pathExists (appendPath ctx.sdk (stem.drop 1 ++ ascii ".tbd")) then
      some path
    else none
  else
    let target :=
      if (ascii "@rpath/").isPrefixOf path then
        (ctx.ownLibDirs.find? fun dir => h.pathExists (appendPath dir (path.drop 7))).map fun dir =>
          ctx.final (appendPath dir (path.drop 7))
      else if (ascii "@loader_path/").isPrefixOf path then
        some (lexicallyNormal (appendPath here (path.drop 13)))
      else if isStorePath h.storeDir (ctx.final path) then some (ctx.final path)
      else none
    target.filter fun t => samePath (ctx.onDisk t) t || h.pathExists (ctx.onDisk t)

/-- What `NewSpelling` says about a path command. `missing` is an error. -/
inductive Spelling
  | leave
  | say (text : Bytes)
  | missing
  deriving DecidableEq

/-- `NewSpelling`. -/
def newSpelling (h : Host) (ctx : FixupContext) (self : Bytes) (c : Command) : Spelling :=
  let here := parentPath self
  let loaderPath := ascii "@loader_path"
  if c.cmd = idDylib then .say self
  else if c.cmd = rpath then
    let target := ctx.final c.path
    if isStorePath h.storeDir target then .say (relativeTo here target loaderPath) else .leave
  else
    match resolve h ctx here c.path with
    | none => .missing
    | some target =>
        .say (if isSystemPath c.path then c.path else relativeTo here target loaderPath)

/-- What `FixMachO` decides for one command of the table. -/
def spelling (h : Host) (ctx : FixupContext) (self : Bytes) (c : Command) : Spelling :=
  if c.pathOff = 0 then .leave else newSpelling h ctx self c

/-- The command gets another path. -/
def changes (h : Host) (ctx : FixupContext) (self : Bytes) (c : Command) : Bool :=
  match spelling h ctx self c with
  | .say text => text ≠ c.path
  | _ => false

def respell (h : Host) (ctx : FixupContext) (self : Bytes) (c : Command) : Command :=
  match spelling h ctx self c with
  | .say text => if text ≠ c.path then c.setPath text else c
  | _ => c

/-- The image with another table of load commands, the rest of the room zero. -/
def writeTable (image cmds : Bytes) (room : Nat) : Bytes :=
  let image := writeNat image 20 4 cmds.length
  (overwrite image headerSize (resize cmds room)).getD image

/-- What `FixMachO` leaves: the bytes it wrote to the file, if any, and how many
errors it counted. -/
structure Fixup where
  written : Option Signing
  errors : Nat
  deriving DecidableEq

/-- `FixMachO` once the load commands are read. -/
def fixTable (h : Host) (ctx : FixupContext) (path image : Bytes) (table : LoadCommands) :
    Except Fault Fixup :=
  let self := ctx.final path
  let missing := (table.commands.filter fun c => spelling h ctx self c = .missing).length
  if table.commands.any (changes h ctx self) = false then .ok ⟨none, missing⟩
  else
    let cmds := table.commands.flatMap fun c => (respell h ctx self c).bytes
    if table.room < cmds.length then .ok ⟨none, missing + 1⟩
    else
      match resign h.sha256 (writeTable image cmds table.room) with
      | .error .refused => .ok ⟨none, missing + 1⟩
      | .error (.fault f) => .error f
      | .ok signed =>
          if h.writeBack path signed.image then .ok ⟨some signed, missing⟩
          else .ok ⟨none, missing + 1⟩

/-- `FixMachO`; `none` if the file is no 64-bit Mach-O. -/
def fixMachO (h : Host) (ctx : FixupContext) (path image : Bytes) :
    Except Fault (Option Fixup) :=
  match readRaw image 0 headerSize with
  | none => .ok none
  | some header =>
      if field header 0 4 ≠ magic64 then .ok none
      else
        readLoadCommands image (field header 16 4) >>= fun table =>
          (fixTable h ctx path image table).map some

end MachO

end Repkgs.Jig
