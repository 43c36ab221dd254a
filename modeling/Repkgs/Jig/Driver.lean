import Repkgs.Jig.CcArgs

/-!
# The compiler driver

`BuildDriverArgs` turns the arguments of the build system into the command line
of the real compiler (`driver.cc`): toolchain and package flags in front, the
link policy behind. `RunCcMode` adds what the driver put in to the key.
-/

namespace Repkgs.Jig

open Lib

/-- Flags of the package, from `$PKGS_CC`. -/
structure PackageCcFlags where
  cflags : Args
  cxxflags : Args
  ldflags : Args

inductive BinFmt
  | elf
  | machO
  | coff
  deriving DecidableEq

inductive Language
  | c
  | cxx
  | fortran
  deriving DecidableEq

/-- `etc/jig.json`. Without one only the compiler is known and nothing is added. -/
structure DriverConf where
  cc : Bytes
  fc : Bytes
  binfmt : BinFmt
  libc : Bytes
  interp : Bytes
  crt : Bytes
  runtimes : Bytes
  flags : Args
  cxxflags : Args
  fflags : Args
  prefixMap : Args
  package : PackageCcFlags
  present : Bool

/-- What the driver asks its surroundings: the store directory, `$PKGS_PREFIX_MAP`,
the temporary file of `-E`, canonical paths and whether files exist. -/
structure DriverEnv where
  storeDir : Bytes
  pkgsPrefixMap : Bytes
  tmpOutput : Bytes
  realDir : Bytes → Bytes
  fileExists : Bytes → Bool

/-- Pad bytes per RUNPATH entry. -/
def runpathSlack : Nat := 48

/-- Pad bytes per `-l`. -/
def neededSlack : Nat := 80

/-- `./` pairs in front of the name of the dynamic linker. -/
def interpSlack : Nat := 12

def isHostDir (path : Bytes) : Bool :=
  ["/usr", "/lib", "/opt"].any fun d => (ascii d).isPrefixOf path

/-- The RUNPATH under construction: rpaths of the build system as they are, then ours. -/
structure RunpathList where
  verbatim : Bytes
  entries : List Bytes

namespace RunpathList

def add (r : RunpathList) (dir : Bytes) : RunpathList :=
  if isHostDir dir || dir ∈ r.entries then r else { r with entries := r.entries ++ [dir] }

/-- The entries of an rpath keep their text, duplicates and empty ones included. -/
def addVerbatim (r : RunpathList) (rpath : Bytes) : RunpathList :=
  let parts := (rpath.splitOn (chr ':')).filter fun part => !isHostDir part
  { r with verbatim := r.verbatim ++ parts.flatMap (· ++ ascii ":") }

def render (r : RunpathList) (libs : Nat) : Bytes :=
  let stores := r.entries.length + r.verbatim.count (chr ':')
  r.verbatim ++ r.entries.flatMap (· ++ ascii "/.:") ++ ascii "/" ++
    List.replicate (max stores 1 * runpathSlack + libs * neededSlack - 1) (chr '_')

end RunpathList

/-- `TakeRpathArg`: the value, and how many further arguments it takes. -/
def takeRpathArg (arg : Bytes) (rest : Args) : Option (Bytes × Nat) :=
  match rest with
  | next :: _ =>
      if (arg = ascii "-Wl,-rpath" || arg = ascii "-Wl,--rpath") &&
          (ascii "-Wl,").isPrefixOf next then
        some (next.drop 4, 1)
      else joined
  | [] => joined
where
  joined : Option (Bytes × Nat) :=
    match ["-Wl,-rpath,", "-Wl,--rpath,", "-Wl,-rpath=", "-Wl,--rpath="].find? fun s =>
        (ascii s).isPrefixOf arg with
    | some s => some (arg.drop (ascii s).length, 0)
    | none => spread
  spread : Option (Bytes × Nat) :=
    match rest with
    | rpath :: linker :: value :: _ =>
        if arg = ascii "-Xlinker" && (rpath = ascii "-rpath" || rpath = ascii "--rpath") &&
            linker = ascii "-Xlinker" then some (value, 3)
        else none
    | _ => none

def isOutputOnlyMode (arg : Bytes) : Bool :=
  ["-c", "-E", "-S", "-M", "-MM", "-fsyntax-only", "-###"].any fun o => arg = ascii o

def refusesLinkPolicy (arg : Bytes) : Bool :=
  ["-static", "-static-pie", "-r", "-Wl,-r", "-nostartfiles"].any fun o => arg = ascii o

def isRuntimeLib (lib : Bytes) : Bool :=
  ["c++", "stdc++", "gcc_s", "unwind", ":libunwind.so"].any fun l => lib = ascii l

def isFortifyArg (arg : Bytes) : Bool :=
  (ascii "-D_FORTIFY_SOURCE").isPrefixOf arg || arg = ascii "-U_FORTIFY_SOURCE" ||
    (ascii "-Wp,-D_FORTIFY_SOURCE").isPrefixOf arg || (ascii "-Wp,-U_FORTIFY_SOURCE").isPrefixOf arg

def isPicArg (arg : Bytes) : Bool :=
  ["-fPIC", "-fpic", "-fPIE", "-fpie", "-fno-PIC", "-fno-pic", "-pie"].any fun o => arg = ascii o

/-- `FlagValue`: `-Lx` or `-L x`. -/
def flagValue (arg : Bytes) (rest : Args) (flag : Bytes) : Option Bytes :=
  if !flag.isPrefixOf arg then none
  else if flag.length < arg.length then some (arg.drop flag.length)
  else rest.head?

/-- `IsSharedLibName`. -/
def isSharedLibName (base : Bytes) : Bool :=
  if (ascii ".dylib").isSuffixOf base then true
  else
    match base.tails.reverse.find? fun t => (ascii ".so").isPrefixOf t with
    | none => false
    | some t =>
        match t.drop 3 with
        | [] => true
        | c :: cs => c = chr '.' && cs.all fun d => d = chr '.' || (chr '0' ≤ d && d ≤ chr '9')

structure UserArgs where
  args : Args := []
  runpath : RunpathList := ⟨[], []⟩
  output : Bytes := []
  linking : Bool := true
  haveInput : Bool := false
  shared : Bool := false
  noPolicy : Bool := false
  optimizes : Bool := true
  setsFortify : Bool := false

/-- `ElfArg`: a dynamic linker the build system asks for is dropped. -/
def elfArg (arg : Bytes) : Option Bytes :=
  if (ascii "-Wl,--dynamic-linker").isPrefixOf arg ||
      (ascii "-Wl,-dynamic-linker").isPrefixOf arg then
    none
  else some arg

/-- `CoffArg`: no PIC flags, and no C++ before 14. -/
def coffArg (arg : Bytes) : Option Bytes :=
  if isPicArg arg then none
  else if ((ascii "-std=c").isPrefixOf arg || (ascii "-std=gnu").isPrefixOf arg) &&
      ["++98", "++03", "++0x", "++11"].any (fun old => (ascii old).isSuffixOf arg) then
    some (arg.take (arg.length - 2) ++ ascii "14")
  else some arg

/-- How an argument passes through; `none` drops it. -/
def BinFmt.arg : BinFmt → Bytes → Option Bytes
  | .elf => elfArg
  | .machO => some
  | .coff => coffArg

/-- The build system's rpaths become ours to render. -/
def BinFmt.takesRpath : BinFmt → Bool
  | .elf => true
  | _ => false

/-- What every command line gets. -/
def BinFmt.always : BinFmt → Args
  | .elf => [ascii "-Wl,--build-id=sha1",
      ascii "-Wl,--package-metadata=\x7b\"type\":\"repkgs\"\x7d"]
  | _ => []

/-- An argument that is no rpath. -/
def UserArgs.enter (fmt : BinFmt) (user : UserArgs) (arg : Bytes) (rest : Args) : UserArgs :=
  let user := { user with output := (flagValue arg rest (ascii "-o")).getD user.output }
  match fmt.arg arg with
  | none => user
  | some kept =>
      { user with
        linking := user.linking && !isOutputOnlyMode arg
        shared := user.shared || arg = ascii "-shared" || arg = ascii "-dynamiclib"
        noPolicy := user.noPolicy || refusesLinkPolicy arg
        haveInput := user.haveInput || !(ascii "-").isPrefixOf arg
        setsFortify := user.setsFortify || isFortifyArg arg
        optimizes := if (ascii "-O").isPrefixOf arg then arg ≠ ascii "-O0" else user.optimizes
        args := user.args ++ [kept] }

/-- The loop of `ScanUserArgs`, after `skip` arguments that belong to an rpath. -/
def scanUserFrom (fmt : BinFmt) : Nat → UserArgs → Args → UserArgs
  | _, user, [] => user
  | skip + 1, user, _ :: rest => scanUserFrom fmt skip user rest
  | 0, user, arg :: rest =>
      match if fmt.takesRpath then takeRpathArg arg rest else none with
      | some (rpath, n) =>
          scanUserFrom fmt n { user with runpath := user.runpath.addVerbatim rpath } rest
      | none => scanUserFrom fmt 0 (user.enter fmt arg rest) rest

/-- `ScanUserArgs`. -/
def scanUserArgs (fmt : BinFmt) (raw : Args) : UserArgs := scanUserFrom fmt 0 {} raw

/-- What the arguments of a link say about libraries. -/
structure LinkArgs where
  libDirs : List Bytes := []
  libs : List Bytes := []
  linksRuntime : Bool
  runpath : RunpathList

def LinkArgs.enter (env : DriverEnv) (l : LinkArgs) (arg : Bytes) (rest : Args) : LinkArgs :=
  let l :=
    match flagValue arg rest (ascii "-L"), flagValue arg rest (ascii "-l") with
    | some dir, _ => { l with libDirs := l.libDirs ++ [dir] }
    | none, some lib =>
        { l with linksRuntime := l.linksRuntime || isRuntimeLib lib, libs := l.libs ++ [lib] }
    | none, none =>
        if isStorePath env.storeDir arg && isSharedLibName (fileName arg) then
          { l with runpath := l.runpath.add (parentPath (env.realDir arg)) }
        else l
  if arg = ascii "-nostdlib++" || arg = ascii "-nostdlib" then { l with linksRuntime := false }
  else l

def scanLinkArgs (env : DriverEnv) : LinkArgs → Args → LinkArgs
  | l, [] => l
  | l, arg :: rest => scanLinkArgs env (l.enter env arg rest) rest

/-- `AddRunpathEntries`: the RUNPATH and the number of `-l`. -/
def addRunpathEntries (env : DriverEnv) (conf : DriverConf) (cxx : Bool) (args : Args)
    (runpath : RunpathList) : RunpathList × Nat :=
  let l := scanLinkArgs env { linksRuntime := cxx, runpath } args
  let provides (dir : Bytes) : Bool := l.libs.any fun lib =>
    env.fileExists (dir ++ ascii "/lib" ++ lib ++ ascii ".so") ||
      env.fileExists (dir ++ ascii "/lib" ++ lib ++ ascii ".dylib")
  let runpath := l.libDirs.foldl
    (fun r dir =>
      let real := env.realDir dir
      if isStorePath env.storeDir real && provides real then r.add real else r) l.runpath
  let runpath :=
    if l.linksRuntime && !conf.runtimes.isEmpty then runpath.add conf.runtimes else runpath
  (runpath.add (conf.libc ++ ascii "/lib"), l.libs.length)

/-- `ElfLink`: RUNPATH, dynamic linker and the entry stub. -/
def elfLink (env : DriverEnv) (conf : DriverConf) (cxx : Bool) (user : UserArgs) : Args :=
  let (runpath, libs) :=
    addRunpathEntries env conf cxx (user.args ++ conf.package.ldflags) user.runpath
  let libcLib := conf.libc ++ ascii "/lib/"
  let linker := ascii "-Wl,--dynamic-linker=" ++ libcLib
  [ascii "-Wl,--undefined-version", ascii "-Wl,-rpath," ++ runpath.render libs,
      ascii "-Wl,--enable-new-dtags"] ++
    if user.shared then []
    else if conf.crt.isEmpty then [linker ++ conf.interp]
    else
      [ascii "-x", ascii "none", conf.crt,
        linker ++ (List.replicate interpSlack (ascii "./")).flatten ++ conf.interp,
        ascii "-Wl,--export-dynamic-symbol=__reloc_start"]

def BinFmt.link (fmt : BinFmt) (env : DriverEnv) (conf : DriverConf) (cxx : Bool)
    (user : UserArgs) : Args :=
  match fmt with
  | .elf => elfLink env conf cxx user
  | .machO => [ascii "-Wl,-headerpad_max_install_names"]
  | .coff => []

def toLower (c : Byte) : Byte := if chr 'A' ≤ c && c ≤ chr 'Z' then c + 32 else c

/-- The `-L` directories of a command line. -/
def libDirsOf : Args → List Bytes
  | [] => []
  | arg :: rest => (flagValue arg rest (ascii "-L")).toList ++ libDirsOf rest

/-- `CoffLibs`: a `-l` that no `-L` directory has as spelled is lower-cased. -/
def coffLibs (env : DriverEnv) (conf : DriverConf) (args : Args) : Args :=
  let dirs := libDirsOf args ++ libDirsOf conf.package.ldflags
  let known (name : Bytes) : Bool := dirs.any fun dir =>
    env.fileExists (dir ++ ascii "/lib" ++ name ++ ascii ".dll.a") ||
      env.fileExists (dir ++ ascii "/lib" ++ name ++ ascii ".a") ||
      env.fileExists (dir ++ ascii "/" ++ name)
  args.map fun arg =>
    if !(ascii "-l").isPrefixOf arg || arg.contains (chr '/') || known (arg.drop 2) then arg
    else ascii "-l" ++ (arg.drop 2).map toLower

def startBracket : Bytes := ascii "--start-no-unused-arguments"

def endBracket : Bytes := ascii "--end-no-unused-arguments"

/-- Flags between the brackets, in front of the build system's. -/
def frontFlags (env : DriverEnv) (conf : DriverConf) (cxx : Bool) (user : UserArgs) : Args :=
  conf.flags ++
    conf.package.cflags.filter (fun flag =>
      !(isFortifyArg flag && (user.setsFortify || !user.optimizes))) ++
    (if cxx then ascii "--driver-mode=g++" :: (conf.cxxflags ++ conf.package.cxxflags) else []) ++
    (conf.prefixMap ++ split env.pkgsPrefixMap (chr ':')).map (ascii "-ffile-prefix-map=" ++ ·) ++
    conf.binfmt.always

/-- Arguments behind the build system's, and those as they are passed on. -/
def linkFlags (env : DriverEnv) (conf : DriverConf) (cxx : Bool) (user : UserArgs) : Args × Args :=
  if user.linking && user.haveInput then
    let user :=
      if conf.binfmt = .coff then { user with args := coffLibs env conf user.args } else user
    (user.args, conf.package.ldflags ++
      if user.noPolicy then [] else conf.binfmt.link env conf cxx user)
  else (user.args, [])

/-- `BuildDriverArgs`. -/
def buildDriverArgs (env : DriverEnv) (conf : DriverConf) (lang : Language) (raw : Args) : Args :=
  let cxx := lang = .cxx
  let user := scanUserArgs conf.binfmt raw
  let front :=
    if lang = .fortran then ascii "-Qunused-arguments" :: (conf.fflags ++ conf.binfmt.always)
    else startBracket :: frontFlags env conf cxx user ++ [endBracket]
  let (kept, tail) := linkFlags env conf cxx user
  front ++ kept ++ tail

/-- Only ELF links are cached, and no Fortran. -/
def refusesCache (conf : DriverConf) (lang : Language) (inv : Invocation) : Bool :=
  (inv.link || inv.linkOne) && conf.binfmt ≠ .elf || lang = .fortran

def Invocation.unlessRefused (inv : Invocation) (refused : Bool) : Invocation :=
  { inv with cacheable := inv.cacheable && !refused }

/-- The driver's command line; what is not of the build system is added to the key. -/
def Invocation.driven (inv : Invocation) (args userArgs : Args) : Invocation :=
  { inv with args, keyArgs := inv.keyArgs ++ args.filter fun arg => arg ∉ userArgs }

/-- The invocation `RunCcMode` keys and runs. -/
def ccInvocation (env : DriverEnv) (conf : DriverConf) (lang : Language) (userArgs : Args) :
    Invocation :=
  let inv := parseInvocation env.tmpOutput userArgs
  let inv := inv.unlessRefused (refusesCache conf lang inv)
  if conf.present then inv.driven (buildDriverArgs env conf lang userArgs) userArgs else inv

/-- The inputs of the key agree. A link has no source field. -/
structure SameKey (inv₁ inv₂ : Invocation) : Prop where
  link : inv₁.link = inv₂.link
  linkOne : inv₁.linkOne = inv₂.linkOne
  source : inv₁.link = false → inv₁.source = inv₂.source
  inputs : inv₁.inputs = inv₂.inputs
  pch : inv₁.pch = inv₂.pch
  keyArgs : inv₁.keyArgs = inv₂.keyArgs

/-- A call of the compiler wrapper, after response files were expanded. -/
structure CcRun where
  env : DriverEnv
  conf : DriverConf
  lang : Language
  user : Args

namespace CcRun

def inv (r : CcRun) : Invocation := ccInvocation r.env r.conf r.lang r.user

theorem inv_pch (r : CcRun) : r.inv.pch = (items r.user).filterMap Item.header? := by
  have hparse : (parseInvocation r.env.tmpOutput r.user).pch =
      (items r.user).filterMap Item.header? :=
    (classify_options _ _).2.trans (Parsing.foldl_pch { args := r.user } (items r.user))
  unfold inv ccInvocation
  split <;> exact hparse

/-- The key arguments: those of the build system, then what the driver added. -/
theorem inv_keyArgs (r : CcRun) : ∃ added,
    r.inv.keyArgs = (items r.user).flatMap Item.key ++ added ∧
      ∀ arg ∈ added, arg ∈ r.inv.args ∧ arg ∉ r.user := by
  have hparse : (parseInvocation r.env.tmpOutput r.user).keyArgs =
      (items r.user).flatMap Item.key :=
    (classify_options _ _).1.trans (Parsing.foldl_keyArgs { args := r.user } (items r.user))
  unfold inv ccInvocation
  split
  · refine ⟨_, congrArg (· ++ _) hparse, fun arg harg => ?_⟩
    obtain ⟨hmem, hnot⟩ := List.mem_filter.mp harg
    exact ⟨hmem, of_decide_eq_true hnot⟩
  · exact ⟨[], hparse.trans (List.append_nil _).symm, nofun⟩

end CcRun

end Repkgs.Jig
