import Repkgs.Jig.BinaryImage
import Repkgs.Jig.Numbers
import Repkgs.Jig.Store

/-!
# Artefacts of rustc

`PackFiles` stores the outputs of a compile in one blob, a text header before the
bytes of every file, and puts `@` for the value of `-C extra-filename` in their names.
`UnpackFiles` reads the blob of a hit and puts the value of the compile at hand
(`rustc_mode.cc`).
-/

namespace Repkgs.Jig.Rust

open Lib

/-- `ReplaceAll`. -/
def replaceAll (text src dst : Bytes) : Bytes :=
  if src.isEmpty then text else scan (replaceRule src dst) text

/-- `kPermissionBits`, as the number of values. -/
def permissionBits : Nat := 0o1000

/-- One file of a blob: `<name> <octal mode> <size>`, a newline and the bytes. -/
def packFile (stem path data : Bytes) (mode : Nat) : Bytes :=
  replaceAll (fileName path) stem (ascii "@") ++ ascii " " ++ octal (mode % permissionBits) ++
    ascii " " ++ decimal data.length ++ ascii "\n" ++ data

/-- `PackFiles`; a file that cannot be read is left out. -/
def packFiles (disk : Bytes → Option (Bytes × Nat)) (paths : List Bytes) (stem : Bytes) : Bytes :=
  paths.flatMap fun path =>
    match disk path with
    | none => []
    | some (data, mode) => packFile stem path data mode

/-- A file that `UnpackFiles` writes to its directory. -/
structure Written where
  name : Bytes
  bytes : Bytes
  mode : Nat
  deriving DecidableEq

/-- `string_view::remove_prefix`, undefined beyond the end. -/
def removeFront (text : Bytes) (n : Nat) : Except Fault Bytes :=
  if n ≤ text.length then .ok (text.drop n) else .error .outOfRange

/-- The fields of a header line. -/
def parseHead (line : Bytes) : Option (Bytes × Nat × Nat) :=
  match split line (chr ' ') with
  | [name, mode, size] => do
      let mode ← parseOctal mode
      let size ← parseUint size
      some (name, mode, size)
  | _ => none

/-- `UnpackFiles`, at most `fuel` rounds: the files written, and the result. Whether
the next `WriteFile` succeeds is an input. -/
def unpackFiles (stem : Bytes) : Nat → (Nat → Bool) → Bytes → Except Fault (List Written × Bool)
  | 0, _, _ => .error .endlessLoop
  | fuel + 1, writes, blob =>
      if blob.isEmpty then .ok ([], true)
      else if chr '\n' ∉ blob then .ok ([], false)
      else
        let line := (cut (chr '\n') blob).1
        let start := line.length + 1
        match parseHead line with
        | none => .ok ([], false)
        | some (name, mode, size) =>
            if blob.length - start < size then .ok ([], false)
            else
              substr blob start size >>= fun body =>
                if writes 0 then
                  removeFront blob (start + size) >>= fun rest =>
                    unpackFiles stem fuel (fun n => writes (n + 1)) rest >>= fun r =>
                      .ok (⟨replaceAll name (ascii "@") stem, body, mode⟩ :: r.1, r.2)
                else .ok ([], false)

/-- A text with a newline is its first line, the newline and the rest. -/
theorem cut_newline {blob : Bytes} (h : chr '\n' ∈ blob) :
    ∃ rest, blob = (cut (chr '\n') blob).1 ++ chr '\n' :: rest := by
  have htext := cut_append (chr '\n') blob
  rcases cut_snd (chr '\n') blob with hnil | ⟨rest, hrest⟩
  · rw [hnil, List.append_nil] at htext
    exact absurd (htext ▸ h) (notMem_cut_fst _ _)
  · rw [hrest] at htext
    exact ⟨rest, htext.symm⟩

/-- Whatever the blob is, the loop ends and reads inside it. -/
theorem unpackFiles_ok (stem : Bytes) (fuel : Nat) (writes : Nat → Bool) (blob : Bytes)
    (hfuel : blob.length < fuel) : ∃ r, unpackFiles stem fuel writes blob = .ok r := by
  induction fuel generalizing writes blob with
  | zero => omega
  | succ fuel ih =>
      rw [unpackFiles]
      by_cases hempty : blob.isEmpty = true
      · exact ⟨_, if_pos hempty⟩
      by_cases hline : chr '\n' ∈ blob
      swap
      · exact ⟨_, by rw [if_neg hempty, if_pos hline]⟩
      rw [if_neg hempty, if_neg (not_not.mpr hline)]
      simp only
      cases hhead : parseHead (cut (chr '\n') blob).1 with
      | none => exact ⟨_, rfl⟩
      | some head =>
          obtain ⟨name, mode, size⟩ := head
          simp only
          by_cases hsize : blob.length - ((cut (chr '\n') blob).1.length + 1) < size
          · exact ⟨_, if_pos hsize⟩
          -- the header line and its newline lie in the blob, and so does the body
          obtain ⟨rest, hblob⟩ := cut_newline hline
          have hlen := congrArg List.length hblob
          rw [List.length_append, List.length_cons] at hlen
          rw [if_neg hsize, substr, if_neg (by omega), removeFront, if_pos (by omega)]
          simp only [bind, Except.bind]
          cases writes 0 with
          | false => exact ⟨_, rfl⟩
          | true =>
              have hshort :
                  (blob.drop ((cut (chr '\n') blob).1.length + 1 + size)).length < fuel := by
                rw [List.length_drop]
                omega
              obtain ⟨r, hr⟩ := ih (fun n => writes (n + 1)) _ hshort
              exact ⟨_, by rw [if_pos rfl, hr]⟩

theorem fileName_append {dir name : Bytes} (h : chr '/' ∉ name) :
    fileName (dir ++ chr '/' :: name) = name := by
  rw [fileName, List.reverse_append, List.reverse_cons, List.append_assoc, List.singleton_append,
    cut_append_cons fun hmem => h (List.mem_reverse.mp hmem)]
  exact List.reverse_reverse name

theorem parseHead_spelled {name : Bytes} (hne : name ≠ []) (hblank : chr ' ' ∉ name)
    {mode size : Nat} (hmode : mode < 2 ^ 64) (hsize : size < 2 ^ 64) :
    parseHead (name ++ ascii " " ++ octal mode ++ ascii " " ++ decimal size) =
      some (name, mode, size) := by
  have hoctal : chr ' ' ∉ octal mode := fun hmem =>
    absurd (isOctalDigit_of_mem_octal hmem) (by decide)
  have hdecimal : chr ' ' ∉ decimal size := fun hmem =>
    absurd (isDigit_of_mem_decimal hmem) (by decide)
  have hsplit : split (name ++ ascii " " ++ octal mode ++ ascii " " ++ decimal size) (chr ' ') =
      [name, octal mode, decimal size] := by
    have hline : name ++ ascii " " ++ octal mode ++ ascii " " ++ decimal size =
        name ++ chr ' ' :: (octal mode ++ chr ' ' :: decimal size) := by
      simp [ascii, chr]
    rw [split, hline, splitOn_append_cons hblank, splitOn_append_cons hoctal,
      List.splitOn_eq_singleton hdecimal]
    simp [hne, octal_ne_nil, decimal_ne_nil]
  rw [parseHead, hsplit]
  simp [parseOctal_octal hmode, parseUint_decimal hsize]

/-- The first file of a blob. -/
theorem unpackFiles_packFile {stem stem' path data rest : Bytes} {mode fuel : Nat}
    (hne : replaceAll (fileName path) stem' (ascii "@") ≠ [])
    (hblank : chr ' ' ∉ replaceAll (fileName path) stem' (ascii "@"))
    (hline : chr '\n' ∉ replaceAll (fileName path) stem' (ascii "@"))
    (hdata : data.length < 2 ^ 64) :
    unpackFiles stem (fuel + 1) (fun _ => true) (packFile stem' path data mode ++ rest) =
      unpackFiles stem fuel (fun _ => true) rest >>= fun r =>
        .ok (⟨replaceAll (replaceAll (fileName path) stem' (ascii "@")) (ascii "@") stem, data,
          mode % permissionBits⟩ :: r.1, r.2) := by
  have hmode : mode % permissionBits < 2 ^ 64 :=
    (Nat.mod_lt mode (by decide)).trans (by decide)
  have hhead := parseHead_spelled hne hblank hmode hdata
  generalize hname : replaceAll (fileName path) stem' (ascii "@") = name at hne hblank hline hhead ⊢
  generalize hlineEq : name ++ ascii " " ++ octal (mode % permissionBits) ++ ascii " " ++
    decimal data.length = line at hhead
  have hnewline : chr '\n' ∉ line := by
    rw [← hlineEq]
    simp only [List.mem_append, not_or]
    refine ⟨⟨⟨⟨hline, by decide⟩, fun hmem => ?_⟩, by decide⟩, fun hmem => ?_⟩
    · exact absurd (isOctalDigit_of_mem_octal hmem) (by decide)
    · exact absurd (isDigit_of_mem_decimal hmem) (by decide)
  have hblob : packFile stem' path data mode ++ rest = line ++ chr '\n' :: (data ++ rest) := by
    rw [packFile, hname, hlineEq]
    simp [ascii, chr]
  have hlen : (line ++ chr '\n' :: (data ++ rest)).length =
      line.length + 1 + data.length + rest.length := by
    simp only [List.length_append, List.length_cons]
    omega
  have hsplit : line ++ chr '\n' :: (data ++ rest) = (line ++ [chr '\n']) ++ data ++ rest := by simp
  have hbody : slice (line ++ chr '\n' :: (data ++ rest)) (line.length + 1) data.length = data := by
    rw [hsplit, slice, List.append_assoc, List.drop_left' (by simp), List.take_left]
  have hrest :
      (line ++ chr '\n' :: (data ++ rest)).drop (line.length + 1 + data.length) = rest := by
    refine hsplit ▸ List.drop_left' ?_
    simp only [List.length_append, List.length_singleton]
  rw [hblob, unpackFiles, if_neg (by simp), if_neg (by simp)]
  simp only [cut_append_cons hnewline, hhead, substr, removeFront, hlen]
  rw [if_neg (by omega), if_neg (by omega), if_pos (by omega), hbody, hrest]
  rfl

def isCrateChar (c : Byte) : Bool := isAlnum c || c == chr '_'

def isHexDigit (c : Byte) : Bool := (ascii "0123456789abcdefABCDEF").contains c

/-- The characters of the part of a file name behind crate name and extra filename. -/
def isSuffixChar (c : Byte) : Bool := isAlnum c || (ascii "._-").contains c

/-- A value of `-C extra-filename`: empty, or `-` and hex digits. -/
def ExtraFilename (s : Bytes) : Prop :=
  s = [] ∨ ∃ hex, s = chr '-' :: hex ∧ hex.all isHexDigit = true

/-- A file that rustc names `<lead><crate><extra filename><suffix>`. -/
structure Artefact where
  lead : Bytes
  suffix : Bytes
  bytes : Bytes
  mode : Nat
  deriving DecidableEq

def Artefact.name (a : Artefact) (crate extra : Bytes) : Bytes :=
  a.lead ++ crate ++ (extra ++ a.suffix)

/-- What rustc may write for a crate. -/
structure Artefact.Valid (a : Artefact) : Prop where
  lead_eq : a.lead = [] ∨ a.lead = ascii "lib"
  suffix_chars : a.suffix.all isSuffixChar = true
  mode_lt : a.mode < permissionBits
  size_lt : a.bytes.length < 2 ^ 64

theorem isSuffixChar_of_isHexDigit {c : Byte} (h : isHexDigit c = true) :
    isSuffixChar c = true := by
  have hall : (ascii "0123456789abcdefABCDEF").all isSuffixChar = true := by decide
  exact List.all_eq_true.mp hall c (List.contains_iff_mem.mp h)

theorem ExtraFilename.chars {s : Bytes} (h : ExtraFilename s) : ∀ c ∈ s, isSuffixChar c = true := by
  rcases h with rfl | ⟨hex, rfl, hhex⟩
  · exact fun c hc => absurd hc List.not_mem_nil
  · intro c hc
    rcases List.mem_cons.mp hc with rfl | hc
    · decide
    · exact isSuffixChar_of_isHexDigit (List.all_eq_true.mp hhex c hc)

section Names

variable {a : Artefact} {crate extra extra' : Bytes}

theorem Artefact.Valid.front_chars (h : a.Valid) (hcrate : crate.all isCrateChar = true) :
    ∀ c ∈ a.lead ++ crate, isCrateChar c = true := by
  intro c hc
  rcases List.mem_append.mp hc with hc | hc
  · rcases h.lead_eq with hlead | hlead
    · rw [hlead] at hc
      exact absurd hc List.not_mem_nil
    · have hall : (ascii "lib").all isCrateChar = true := by decide
      exact List.all_eq_true.mp hall c (hlead ▸ hc)
  · exact List.all_eq_true.mp hcrate c hc

theorem Artefact.Valid.name_chars (h : a.Valid) (hcrate : crate.all isCrateChar = true)
    (hextra : ExtraFilename extra) : ∀ c ∈ a.name crate extra, isSuffixChar c = true := by
  intro c hc
  rcases List.mem_append.mp hc with hc | hc
  · have hchar := h.front_chars hcrate c hc
    simp only [isCrateChar, isSuffixChar, Bool.or_eq_true, beq_iff_eq] at hchar ⊢
    rcases hchar with hchar | rfl
    · exact Or.inl hchar
    · exact Or.inr (by decide)
  · rcases List.mem_append.mp hc with hc | hc
    · exact hextra.chars c hc
    · exact List.all_eq_true.mp h.suffix_chars c hc

/-- The name in the blob: `@` for the extra filename, and for its copies in the suffix. -/
theorem Artefact.Valid.packed_name (h : a.Valid) (hcrate : crate.all isCrateChar = true)
    (hextra : ExtraFilename extra) (hne : extra ≠ []) (dst : Bytes) :
    scan (replaceRule extra dst) (a.name crate extra) =
      a.lead ++ crate ++ (dst ++ scan (replaceRule extra dst) a.suffix) := by
  obtain ⟨hex, rfl, -⟩ := hextra.resolve_left hne
  have hrule := replaces_replaceRule (chr '-' :: hex) dst
  rw [Artefact.name, hrule.scan_front rfl, hrule.scan_found hne]
  exact fun hmem => absurd (h.front_chars hcrate _ hmem) (by decide)

/-- The name under which `UnpackFiles` writes the file. -/
theorem Artefact.Valid.unpacked_name (h : a.Valid) (hcrate : crate.all isCrateChar = true)
    (hextra : ExtraFilename extra) :
    replaceAll (replaceAll (a.name crate extra) extra (ascii "@")) (ascii "@") extra' =
      a.lead ++ crate ++
        if extra = [] then a.suffix else extra' ++ scan (replaceRule extra extra') a.suffix := by
  have hmark : chr '@' ∉ a.name crate extra := fun hmem =>
    absurd (h.name_chars hcrate hextra _ hmem) (by decide)
  have hback := replaces_replaceRule (ascii "@") extra'
  by_cases hne : extra = []
  · subst hne
    have hself := (hback.scan_eq_self_iff (List.cons_ne_nil _ _) (a.name crate [])).mpr
      (Or.inr fun hocc => hmark (hocc.subset (.head _)))
    rw [if_pos rfl]
    exact hself
  · have hpacked : replaceAll (a.name crate extra) extra (ascii "@") =
        scan (replaceRule extra (ascii "@")) (a.name crate extra) :=
      if_neg (mt List.isEmpty_iff.mp hne)
    rw [hpacked, if_neg hne, ← h.packed_name hcrate hextra hne extra']
    exact scan_through_mark (replaces_replaceRule extra (ascii "@")) hback
      (replaces_replaceRule extra extra') hne _ hmark

/-- The name is right if both values are the same, or if there is a value to replace
and the suffix does not contain it. -/
theorem Artefact.Valid.unpacked_name_iff (h : a.Valid) (hcrate : crate.all isCrateChar = true)
    (hextra : ExtraFilename extra) :
    replaceAll (replaceAll (a.name crate extra) extra (ascii "@")) (ascii "@") extra' =
      a.name crate extra' ↔ extra = extra' ∨ (extra ≠ [] ∧ ¬ extra <:+: a.suffix) := by
  rw [h.unpacked_name hcrate hextra, Artefact.name, List.append_cancel_left_eq]
  by_cases hne : extra = []
  · rw [if_pos hne, hne]
    simp [List.self_eq_append_left, eq_comm]
  · rw [if_neg hne, List.append_cancel_left_eq,
      (replaces_replaceRule extra extra').scan_eq_self_iff hne]
    simp [hne]

theorem Artefact.Valid.packed_chars (h : a.Valid) (hcrate : crate.all isCrateChar = true)
    (hextra : ExtraFilename extra) {c : Byte}
    (hc : c ∈ replaceAll (a.name crate extra) extra (ascii "@")) :
    isSuffixChar c = true ∨ c = chr '@' := by
  by_cases hne : extra = []
  · subst hne
    exact Or.inl (h.name_chars hcrate hextra c hc)
  · have hpacked : replaceAll (a.name crate extra) extra (ascii "@") =
        scan (replaceRule extra (ascii "@")) (a.name crate extra) :=
      if_neg (mt List.isEmpty_iff.mp hne)
    rw [hpacked] at hc
    rcases (replaces_replaceRule extra (ascii "@")).mem_scan hne _ hc with hc | hc
    · exact Or.inl (h.name_chars hcrate hextra c hc)
    · exact Or.inr (List.mem_singleton.mp hc)

theorem Artefact.Valid.packed_ne_nil (h : a.Valid) (hcrate : crate.all isCrateChar = true)
    (hcrateNe : crate ≠ []) (hextra : ExtraFilename extra) :
    replaceAll (a.name crate extra) extra (ascii "@") ≠ [] := by
  by_cases hne : extra = []
  · subst hne
    simp [replaceAll, Artefact.name, hcrateNe]
  · rw [replaceAll, if_neg (mt List.isEmpty_iff.mp hne), h.packed_name hcrate hextra hne]
    simp [hcrateNe]

end Names

/-- What `UnpackFiles` makes of the artefacts of a crate. -/
theorem unpackFiles_packFiles {crate extra : Bytes} (hcrate : crate.all isCrateChar = true)
    (hcrateNe : crate ≠ []) (hextra : ExtraFilename extra) (extra' outDir : Bytes)
    (disk : Bytes → Option (Bytes × Nat)) (artefacts : List Artefact)
    (hvalid : ∀ a ∈ artefacts, a.Valid)
    (hdisk : ∀ a ∈ artefacts,
      disk (outDir ++ chr '/' :: a.name crate extra) = some (a.bytes, a.mode)) (fuel : Nat)
    (hfuel : artefacts.length < fuel) :
    unpackFiles extra' fuel (fun _ => true)
        (packFiles disk (artefacts.map fun a => outDir ++ chr '/' :: a.name crate extra) extra) =
      .ok (artefacts.map fun a => ⟨replaceAll (replaceAll (a.name crate extra) extra (ascii "@"))
        (ascii "@") extra', a.bytes, a.mode⟩, true) := by
  induction artefacts generalizing fuel with
  | nil =>
      obtain ⟨fuel, rfl⟩ := Nat.exists_eq_succ_of_ne_zero (Nat.ne_zero_of_lt hfuel)
      rfl
  | cons a artefacts ih =>
      obtain ⟨fuel, rfl⟩ := Nat.exists_eq_succ_of_ne_zero (Nat.ne_zero_of_lt hfuel)
      have ha := hvalid a (.head _)
      have hname : fileName (outDir ++ chr '/' :: a.name crate extra) = a.name crate extra :=
        fileName_append fun hmem => absurd (ha.name_chars hcrate hextra _ hmem) (by decide)
      have hchar : ∀ c, isSuffixChar c = false → c ≠ chr '@' →
          c ∉ replaceAll (a.name crate extra) extra (ascii "@") := by
        intro c hno hne hmem
        rcases ha.packed_chars hcrate hextra hmem with hc | hc
        · exact absurd (hc.symm.trans hno) (by decide)
        · exact hne hc
      have hrest := ih (fun b hb => hvalid b (.tail _ hb))
        (fun b hb => hdisk b (.tail _ hb)) fuel (Nat.lt_of_succ_lt_succ hfuel)
      rw [packFiles] at hrest ⊢
      rw [List.map_cons, List.flatMap_cons, hdisk a (.head _)]
      simp only
      rw [unpackFiles_packFile (hname.symm ▸ ha.packed_ne_nil hcrate hcrateNe hextra)
        (hname.symm ▸ hchar _ (by decide) (by decide))
        (hname.symm ▸ hchar _ (by decide) (by decide)) ha.size_lt, hrest, hname,
        Nat.mod_eq_of_lt ha.mode_lt]
      rfl

/-- Every file adds to the blob. -/
theorem length_le_packFiles (disk : Bytes → Option (Bytes × Nat)) (paths : List Bytes)
    (stem : Bytes) (hdisk : ∀ path ∈ paths, (disk path).isSome) :
    paths.length ≤ (packFiles disk paths stem).length := by
  induction paths with
  | nil => exact Nat.zero_le _
  | cons path paths ih =>
      obtain ⟨⟨data, mode⟩, hfile⟩ := Option.isSome_iff_exists.mp (hdisk path (.head _))
      have hrest := ih fun p hp => hdisk p (.tail _ hp)
      have hfirst : 0 < (packFile stem path data mode).length :=
        List.length_pos_of_ne_nil (by simp [packFile, ascii])
      rw [packFiles] at hrest ⊢
      rw [List.flatMap_cons, hfile, List.length_append, List.length_cons]
      simp only
      omega

/-- The blob of the artefacts of a crate in a directory. -/
def packArtefacts (disk : Bytes → Option (Bytes × Nat)) (outDir crate extra : Bytes)
    (artefacts : List Artefact) : Bytes :=
  packFiles disk (artefacts.map fun a => outDir ++ chr '/' :: a.name crate extra) extra

/-- Artefacts packed under one extra filename and unpacked under another have the
right names, bytes and modes exactly if there was something to replace, and only once
in every name, or nothing to change. Unpacking any blob ends and reads inside it. -/
theorem rust_artefacts_replay_iff (crate : Bytes) (hcrate : crate.all isCrateChar = true)
    (hcrateNe : crate ≠ []) (extra extra' : Bytes) (hextra : ExtraFilename extra) (outDir : Bytes)
    (disk : Bytes → Option (Bytes × Nat)) (artefacts : List Artefact)
    (hvalid : ∀ a ∈ artefacts, a.Valid)
    (hdisk : ∀ a ∈ artefacts,
      disk (outDir ++ chr '/' :: a.name crate extra) = some (a.bytes, a.mode)) :
    (unpackFiles extra' ((packArtefacts disk outDir crate extra artefacts).length + 1)
        (fun _ => true) (packArtefacts disk outDir crate extra artefacts) =
        .ok (artefacts.map fun a => ⟨a.name crate extra', a.bytes, a.mode⟩, true) ↔
      ∀ a ∈ artefacts, extra = extra' ∨ (extra ≠ [] ∧ ¬ extra <:+: a.suffix)) ∧
    (∀ (stem : Bytes) (writes : Nat → Bool) (blob : Bytes),
      ∃ r, unpackFiles stem (blob.length + 1) writes blob = .ok r) := by
  refine ⟨?_, fun stem writes blob => unpackFiles_ok stem _ writes blob (Nat.lt_succ_self _)⟩
  have hlen := length_le_packFiles disk
    (artefacts.map fun a => outDir ++ chr '/' :: a.name crate extra) extra (by
      intro path hpath
      obtain ⟨a, ha, rfl⟩ := List.mem_map.mp hpath
      rw [hdisk a ha]
      rfl)
  rw [List.length_map] at hlen
  rw [packArtefacts]
  simp only [unpackFiles_packFiles hcrate hcrateNe hextra extra' outDir disk artefacts hvalid
    hdisk _ (Nat.lt_succ_of_le hlen), Except.ok.injEq, Prod.mk.injEq, and_true, List.map_inj_left,
    Written.mk.injEq]
  exact forall₂_congr fun a ha => (hvalid a ha).unpacked_name_iff hcrate hextra

/-- A library of the crate `foo`. -/
def fooRlib : Artefact := ⟨ascii "lib", ascii ".rlib", ascii "!<arch>", 0o644⟩

theorem fooRlib_valid : fooRlib.Valid := ⟨Or.inr rfl, by decide, by decide, by decide⟩

def fooDisk (extra : Bytes) (path : Bytes) : Option (Bytes × Nat) :=
  if path = ascii "out" ++ chr '/' :: fooRlib.name (ascii "foo") extra then
    some (fooRlib.bytes, fooRlib.mode)
  else none

theorem rust_artefacts_replay_iff_foo :
    unpackFiles (ascii "-b2") ((packFiles (fooDisk (ascii "-a1")) [ascii "out/libfoo-a1.rlib"]
        (ascii "-a1")).length + 1) (fun _ => true)
        (packFiles (fooDisk (ascii "-a1")) [ascii "out/libfoo-a1.rlib"] (ascii "-a1")) =
      .ok ([⟨ascii "libfoo-b2.rlib", ascii "!<arch>", 0o644⟩], true) := by
  refine (rust_artefacts_replay_iff (ascii "foo") (by decide) (by decide) (ascii "-a1")
    (ascii "-b2") (Or.inr ⟨ascii "a1", rfl, by decide⟩) (ascii "out") (fooDisk (ascii "-a1"))
    [fooRlib] ?_ ?_).1.mpr ?_
  · intro a ha
    rw [List.mem_singleton.mp ha]
    exact fooRlib_valid
  · intro a ha
    rw [List.mem_singleton.mp ha]
    exact if_pos rfl
  · intro a ha
    rw [List.mem_singleton.mp ha]
    exact Or.inr ⟨by decide, by decide⟩

/-- A crate compiled without an extra filename keeps its name when it is replayed
for a compile that has one. -/
theorem no_extra_filename_stays :
    ¬ ∀ (crate extra extra' outDir : Bytes) (disk : Bytes → Option (Bytes × Nat))
      (artefacts : List Artefact), crate.all isCrateChar = true → crate ≠ [] →
      ExtraFilename extra → ExtraFilename extra' → (∀ a ∈ artefacts, a.Valid) →
      (∀ a ∈ artefacts,
        disk (outDir ++ chr '/' :: a.name crate extra) = some (a.bytes, a.mode)) →
      unpackFiles extra' ((packArtefacts disk outDir crate extra artefacts).length + 1)
        (fun _ => true) (packArtefacts disk outDir crate extra artefacts) =
        .ok (artefacts.map fun a => ⟨a.name crate extra', a.bytes, a.mode⟩, true) := by
  intro h
  have hbad := h (ascii "foo") [] (ascii "-a1") (ascii "out") (fooDisk []) [fooRlib] (by decide)
    (by decide) (Or.inl rfl) (Or.inr ⟨ascii "a1", rfl, by decide⟩)
    (fun a ha => List.mem_singleton.mp ha ▸ fooRlib_valid)
    (fun a ha => List.mem_singleton.mp ha ▸ if_pos rfl)
  exact absurd hbad (by decide +kernel)

end Repkgs.Jig.Rust
