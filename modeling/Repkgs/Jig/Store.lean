import Repkgs.Lib.Replace
import Repkgs.Lib.Maps
import Repkgs.Jig.Paths

/-!
# Store awareness of jig

How store paths enter cache keys (`store.cc`). A build has a set of store roots;
in content mode the hashes of store paths are masked and a masked name maps back
to a file through the roots of the build that reads it.
-/

namespace Repkgs.Jig

open Lib

/-- Base-32 characters before the `-` in the name of a store path. -/
def storeHashLength : Nat := 32

/-- What may follow a store root in a text. -/
def pathEnds : Bytes := ascii " \t\n\\:\"';,)]\x7d>"

/-- The alphabet of nix base32, without `e o u t`. -/
def base32 : Bytes := ascii "0123456789abcdfghijklmnpqrsvwxyz"

def isStoreHash (text : Bytes) : Bool :=
  text.length == storeHashLength && text.all fun c => base32.contains c

/-- `Store::IsStorePath` for the store directory `dir`. -/
def isStorePath (dir path : Bytes) : Bool :=
  dir.isPrefixOf path && path[dir.length]? == some (chr '/')

/-- `<dir>/`. -/
def storePrefix (dir : Bytes) : Bytes := dir ++ ascii "/"

/-- A hash and the `-` behind it. -/
def startsWithHash (text : Bytes) : Bool :=
  text[storeHashLength]? == some (chr '-') && isStoreHash (text.take storeHashLength)

/-- `<dir>/` at the beginning of a text: a hash behind it becomes `*`, and the
search goes on behind the next character. -/
def maskHashRule (dir : Bytes) : Rule Byte := fun text =>
  let start := storePrefix dir
  if start.isPrefixOf text then
    if startsWithHash (text.drop start.length) then
      some (start.length + storeHashLength, start ++ ascii "*")
    else some (start.length + 1, text.take (start.length + 1))
  else none

/-- `Store::MaskHashes`. -/
def maskHashes (dir text : Bytes) : Bytes := scan (maskHashRule dir) text

/-- Replace one string by another. -/
def replaceRule (src dst : Bytes) : Rule Byte := fun text =>
  if src.isPrefixOf text then some (src.length, dst) else none

theorem replaces_replaceRule (src dst : Bytes) : Replaces (replaceRule src dst) src dst where
  found h := if_pos (List.isPrefixOf_iff_prefix.mpr h)
  other h := if_neg (mt List.isPrefixOf_iff_prefix.mp h)

/-- What follows a whole root: the end, a slash, or one of `kPathEnds`. -/
def closesRoot : Bytes → Bool
  | [] => true
  | c :: _ => c = chr '/' || pathEnds.contains c

/-- A masked root becomes the real one, unless it is part of a longer name. -/
def resolveRule (masked real : Bytes) : Rule Byte := fun text =>
  if masked.isPrefixOf text then
    some (masked.length, if closesRoot (text.drop masked.length) then real else masked)
  else none

/-- `std::isalnum` in the C locale. -/
def isAlnum (c : Byte) : Bool :=
  (chr '0' ≤ c && c ≤ chr '9') || (chr 'A' ≤ c && c ≤ chr 'Z') || (chr 'a' ≤ c && c ≤ chr 'z')

/-- A random name behind `head`. A text that is too short ends the search; a
match cannot begin inside the `#`s. -/
def randomRule (head : Bytes) (width : Nat) : Rule Byte := fun text =>
  if head.isPrefixOf text then
    let tail := (text.drop head.length).take width
    if tail.length < width then some (text.length, text)
    else if tail.all isAlnum then
      some (head.length + width, head ++ List.replicate width (chr '#'))
    else some (head.length, head)
  else none

/-- `MaskRandomNames`. -/
def maskRandomNames (text : Bytes) : Bytes :=
  scan (randomRule (ascii "cmTC_") 5) (scan (randomRule (ascii "TryCompile-") 6) text)

/-- Where the path part of an argument begins, if it has one. -/
def pathStart (arg : Bytes) : Option Nat :=
  if (ascii "-D").isPrefixOf arg || (ascii "-U").isPrefixOf arg then none
  else if (ascii "--").isPrefixOf arg then
    let equals := (cut (chr '=') arg).1.length
    if equals < arg.length then some (equals + 1) else none
  else if (ascii "-").isPrefixOf arg && 2 < arg.length then
    let flag := (cut (chr '=') arg).1
    if flag.length < arg.length && !flag.contains (chr '/') then some (flag.length + 1) else some 2
  else if (ascii "-").isPrefixOf arg then none
  else some 0

/-- `NormalizePathArg`. -/
def normalizePathArg (arg : Bytes) : Bytes :=
  match pathStart arg with
  | none => arg
  | some start =>
      let value := arg.drop start
      if !value.contains (chr '/') && value.head? ≠ some (chr '.') then arg
      else
        let normal := lexicallyNormal value
        let normal :=
          if 1 < normal.length && normal.getLast? = some (chr '/') then normal.dropLast else normal
        arg.take start ++ if normal.isEmpty then dot else normal

example : normalizePathArg (ascii "-I./a//b/../c/") = ascii "-Ia/c" := by decide

/-- The members of class `Store`. -/
structure Store where
  dir : Bytes
  byContent : Bool
  out : Bytes
  outHash : Bytes
  maskedToReal : Map Bytes Bytes
  knownIds : Map Bytes Bytes

/-- The first `n` bytes of a path and what follows up to the next slash. -/
def rootPart (n : Nat) (path : Bytes) : Bytes := path.take n ++ (cut (chr '/') (path.drop n)).1

/-- Of the roots with a masked name the first one stays. -/
def addRoot (dir : Bytes) (roots : Map Bytes Bytes) (root : Bytes) : Map Bytes Bytes :=
  let real := rootPart (dir.length + 1) root
  let masked := maskHashes dir real
  if masked = real then roots else Map.emplace roots masked real

/-- `Store::Store`, from the store directory and the environment. -/
def Store.make (dir : Bytes) (byContent : Bool) (out storeRoots : Bytes) : Store :=
  if byContent then
    let hashEnd := dir.length + 1 + storeHashLength
    { dir, byContent, out
      outHash :=
        if isStorePath dir out && out[hashEnd]? == some (chr '-') then
          (out.drop (dir.length + 1)).take storeHashLength
        else []
      maskedToReal := (split storeRoots (chr ' ') ++ [out]).foldl (addRoot dir) ∅
      knownIds := ∅ }
  else { dir, byContent, out, outHash := [], maskedToReal := ∅, knownIds := ∅ }

namespace Store

/-- `Store::Key`. -/
def key (s : Store) (arg : Bytes) : Bytes :=
  let masked := maskRandomNames (normalizePathArg arg)
  if s.byContent then maskHashes s.dir masked else masked

/-- `Store::Resolve`. -/
def resolve (s : Store) (path : Bytes) : Option Bytes :=
  if !(s.dir ++ ascii "/*-").isPrefixOf path then some path
  else
    let masked := rootPart (s.dir.length + 3) path
    (s.maskedToReal.lookup masked).map fun root => root ++ path.drop masked.length

/-- The order in which a pass over `masked_to_real_` meets the roots is not specified. -/
def Iterates (s : Store) (order : List (Bytes × Bytes)) : Prop :=
  (order.map Prod.fst).Nodup ∧
    ∀ masked real, (masked, real) ∈ order ↔ s.maskedToReal.lookup masked = some real

/-- `Store::ResolveAll`, for a pass over the roots in this order. -/
def resolveAll (s : Store) (order : List (Bytes × Bytes)) (text : Bytes) : Bytes :=
  order.foldl (fun t root => scan (resolveRule root.1 root.2) t) (maskHashes s.dir text)

/-- The placeholder for the hash of the build's own output. -/
def outPlaceholder : Bytes := List.replicate storeHashLength (chr 'e')

/-- `Store::SwapOutHash`. -/
def swapOutHash (s : Store) (bytes : Bytes) (back : Bool) : Bytes :=
  if s.outHash.isEmpty then bytes
  else
    let real := s.dir ++ ascii "/" ++ s.outHash ++ ascii "-"
    let placeholder := s.dir ++ ascii "/" ++ outPlaceholder ++ ascii "-"
    if back then scan (replaceRule placeholder real) bytes
    else scan (replaceRule real placeholder) bytes

def maskOut (s : Store) (bytes : Bytes) : Bytes := s.swapOutHash bytes false

def unmaskOut (s : Store) (bytes : Bytes) : Bytes := s.swapOutHash bytes true

/-- `Store::DaemonMayIdentify`. -/
def daemonMayIdentify (s : Store) (path : Bytes) : Bool :=
  let underOut := !s.out.isEmpty && s.out.isPrefixOf path &&
    (path.length == s.out.length || path[s.out.length]? == some (chr '/'))
  s.byContent && isStorePath s.dir path && !underOut

/-- `Store::RememberIdentity`. -/
def rememberIdentity (s : Store) (path identity : Bytes) : Store :=
  { s with knownIds := s.knownIds.insert path identity }

end Store

/-- The lowercase hex digit of a number below 16. -/
def hexDigit (n : Nat) : Byte := (ascii "0123456789abcdef").getD n 0

/-- `HexEncode`. -/
def hexEncode (bytes : Bytes) : Bytes :=
  bytes.flatMap fun b => [hexDigit (b.toNat / 16), hexDigit (b.toNat % 16)]

theorem exists_of_mem_hexEncode {bytes : Bytes} {c : Byte} (h : c ∈ hexEncode bytes) :
    ∃ n < 16, c = hexDigit n := by
  obtain ⟨b, -, hb⟩ := List.mem_flatMap.mp h
  have hlt : b.toNat < 256 := b.toNat_lt
  rcases List.mem_cons.mp hb with rfl | hb
  · exact ⟨_, by omega, rfl⟩
  · exact ⟨_, by omega, List.mem_singleton.mp hb⟩

theorem hexEncode_injective : Function.Injective hexEncode := by
  have hdigit : ∀ a < 16, ∀ b < 16, hexDigit a = hexDigit b → a = b := by decide
  intro x y h
  induction x generalizing y with
  | nil =>
      cases y with
      | nil => rfl
      | cons b y => exact absurd h (by simp [hexEncode])
  | cons a x ih =>
      cases y with
      | nil => exact absurd h (by simp [hexEncode])
      | cons b y =>
          change hexDigit (a.toNat / 16) :: hexDigit (a.toNat % 16) :: hexEncode x =
            hexDigit (b.toNat / 16) :: hexDigit (b.toNat % 16) :: hexEncode y at h
          obtain ⟨hhigh, hlow, htail⟩ : _ ∧ _ ∧ _ := by simpa only [List.cons.injEq] using h
          have ha : a.toNat < 256 := a.toNat_lt
          have hb : b.toNat < 256 := b.toNat_lt
          have hq := hdigit _ (by omega) _ (by omega) hhigh
          have hr := hdigit _ (by omega) _ (by omega) hlow
          have hab : a = b := UInt8.toNat_inj.mp (by omega)
          rw [hab, ih htail]

/-- A hash function stands for the first 128 bits of BLAKE3. -/
abbrev Blake3 := Bytes → Bytes

def hashOf (blake3 : Blake3) (data : Bytes) : Bytes := hexEncode (blake3 data)

/-- The identity of a file by its content, the last part of `Store::InputId`. -/
def Store.contentId (s : Store) (blake3 : Blake3) (fs : FileSystem) (path : Bytes) :
    Option Bytes :=
  (fs.readFile path).map fun content =>
    ascii "C:" ++ hashOf blake3 (if isStorePath s.dir path then content else s.maskOut content)

/-- `Store::InputId`. -/
def Store.inputId (s : Store) (blake3 : Blake3) (fs : FileSystem) (path : Bytes) : Option Bytes :=
  if isStorePath s.dir path && !s.byContent then some (ascii "S:" ++ path)
  else
    match s.knownIds.lookup path with
    | some known => some known
    | none => s.contentId blake3 fs path

end Repkgs.Jig
