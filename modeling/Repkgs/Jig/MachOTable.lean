import Mathlib.Algebra.Order.BigOperators.Group.List
import Repkgs.Jig.MachO
import Repkgs.Lib.Failing

/-!
# The table of load commands is rewritten consistently

Reading the rewritten image again gives the old commands, those that changed
with their new path. The content of the file behind the header stays where it
is, apart from the hash slots of a signature.
-/

namespace Repkgs.Jig.MachO

open Lib

variable {image : Bytes} {c : Command} {off : Nat}

/-- The fields of a command agree with its bytes, and its path lies behind the
head of the command. -/
structure Command.Coherent (c : Command) : Prop where
  size : loadCommandSize ≤ c.bytes.length
  cmd_eq : field c.bytes 0 4 = c.cmd
  size_eq : field c.bytes 4 4 = c.bytes.length
  lcStr_eq : isPathCommand c.cmd = true →
    12 ≤ c.pathOff ∧ c.pathOff < c.bytes.length ∧ field c.bytes 8 4 = c.pathOff
  pathOff_eq : isPathCommand c.cmd = false → c.pathOff = 0

theorem field_slice {xs : Bytes} {n k w : Nat} (h : k + w ≤ n) :
    field (slice xs off n) k w = field xs (off + k) w := by
  rw [field, field, slice_slice h]

theorem readCommand_eq_some (h : readCommand image off = some c) :
    off + c.bytes.length ≤ image.length ∧ slice image off c.bytes.length = c.bytes ∧
      loadCommandSize ≤ c.bytes.length ∧ field image off 4 = c.cmd ∧
      field image (off + 4) 4 = c.bytes.length ∧
      c.pathOff = if isPathCommand c.cmd &&
        decide ((readNat image (off + loadCommandSize) 4).getD 0 < c.bytes.length)
        then (readNat image (off + loadCommandSize) 4).getD 0 else 0 := by
  rw [readCommand] at h
  cases hload : readRaw image off loadCommandSize with
  | none => rw [hload] at h; cases h
  | some load =>
      obtain ⟨-, rfl⟩ := readRaw_eq_some.mp hload
      rw [hload] at h
      dsimp only at h
      rw [field_slice (by decide), field_slice (by decide), Nat.add_zero] at h
      by_cases hsize : field image (off + 4) 4 < loadCommandSize ∨
          image.length < off + field image (off + 4) 4
      · rw [if_pos hsize] at h
        cases h
      rw [if_neg hsize] at h
      rw [not_or, not_lt, not_lt] at hsize
      obtain rfl := Option.some.inj h
      have hlength := length_slice hsize.2
      exact ⟨by rw [hlength]; exact hsize.2, by rw [hlength], by rw [hlength]; exact hsize.1, rfl,
        hlength.symm, by rw [hlength]⟩

/-- A command that was read agrees with its bytes when its path is where a path
can be. -/
theorem coherent_of_readCommand (h : readCommand image off = some c)
    (hpath : isPathCommand c.cmd = true → 12 ≤ c.pathOff) : c.Coherent := by
  obtain ⟨hfits, hbytes, hsize, hcmd, hcmdsize, hoff⟩ := readCommand_eq_some h
  have hfield : ∀ k w, k + w ≤ c.bytes.length → field c.bytes k w = field image (off + k) w := by
    intro k w hk
    conv_lhs => rw [← hbytes]
    exact field_slice hk
  have hsize8 : 8 ≤ c.bytes.length := hsize
  refine ⟨hsize, ?_, ?_, fun hp => ?_, fun hp => ?_⟩
  · rw [hfield 0 4 (by omega), Nat.add_zero, hcmd]
  · rw [hfield 4 4 (by omega), hcmdsize]
  · have h12 := hpath hp
    rw [hp, Bool.true_and] at hoff
    split_ifs at hoff with hlt
    · rw [decide_eq_true_eq, ← hoff] at hlt
      refine ⟨h12, hlt, ?_⟩
      rw [hfield 8 4 (by omega), hoff, readNat_of_fits (by rw [loadCommandSize]; omega)]
      rfl
    · omega
  · rw [hoff, hp, Bool.false_and, if_neg (by simp)]

/-- A command that stands in an image is read from there. -/
theorem readCommand_of_coherent (hc : c.Coherent) (hfits : off + c.bytes.length ≤ image.length)
    (hbytes : slice image off c.bytes.length = c.bytes) : readCommand image off = some c := by
  have hsize : 8 ≤ c.bytes.length := hc.size
  have hfield : ∀ k w, k + w ≤ c.bytes.length → field image (off + k) w = field c.bytes k w := by
    intro k w hk
    conv_rhs => rw [← hbytes]
    exact (field_slice hk).symm
  have hload : readRaw image off loadCommandSize = some (slice image off loadCommandSize) :=
    readRaw_eq_some.mpr ⟨by rw [loadCommandSize]; omega, rfl⟩
  have hcmd : field (slice image off loadCommandSize) 0 4 = c.cmd := by
    rw [field_slice (by decide), hfield 0 4 (by omega), hc.cmd_eq]
  have hcmdsize : field (slice image off loadCommandSize) 4 4 = c.bytes.length := by
    rw [field_slice (by decide), hfield 4 4 (by omega), hc.size_eq]
  have hpath : (if isPathCommand c.cmd &&
        decide ((readNat image (off + loadCommandSize) 4).getD 0 < c.bytes.length)
        then (readNat image (off + loadCommandSize) 4).getD 0 else 0) = c.pathOff := by
    cases hp : isPathCommand c.cmd with
    | false => rw [hc.pathOff_eq hp]; rfl
    | true =>
        obtain ⟨h12, hlt, hstr⟩ := hc.lcStr_eq hp
        rw [readNat_of_fits (by rw [loadCommandSize]; omega), Option.getD_some, loadCommandSize,
          hfield 8 4 (by omega), hstr, Bool.true_and, if_pos (decide_eq_true hlt)]
  rw [readCommand, hload]
  dsimp only
  rw [hcmd, hcmdsize, if_neg (by rw [loadCommandSize]; omega), hpath, hbytes]

/-- The commands that stand in a row in an image are read back. -/
theorem readCommands_of_coherent {commands : List Command} (hc : ∀ c ∈ commands, c.Coherent)
    (hfits : off + (commands.flatMap Command.bytes).length ≤ image.length)
    (hbytes : slice image off (commands.flatMap Command.bytes).length =
      commands.flatMap Command.bytes) :
    (readCommands image commands.length off).map Prod.snd = commands := by
  induction commands generalizing off with
  | nil => rfl
  | cons c commands ih =>
      rw [List.flatMap_cons] at hfits hbytes
      rw [List.length_append] at hfits hbytes
      have hfirst : slice image off c.bytes.length = c.bytes := by
        have htake := congrArg (List.take c.bytes.length) hbytes
        rw [List.take_left, slice, List.take_take, min_eq_left (by omega)] at htake
        exact htake
      have hrest : slice image (off + c.bytes.length) (commands.flatMap Command.bytes).length =
          commands.flatMap Command.bytes := by
        have hdrop := congrArg (List.drop c.bytes.length) hbytes
        rw [List.drop_left, slice, List.drop_take, List.drop_drop, Nat.add_sub_cancel_left] at hdrop
        exact hdrop
      rw [List.length_cons, readCommands,
        readCommand_of_coherent (hc c (.head _)) (by omega) hfirst]
      rw [List.map_cons, ih (fun d hd => hc d (.tail _ hd)) (by omega) hrest]

theorem readCommand_of_mem {ncmds p : Nat} (h : (p, c) ∈ readCommands image ncmds off) :
    readCommand image p = some c := by
  induction ncmds generalizing off with
  | zero => cases h
  | succ ncmds ih =>
      rw [readCommands] at h
      cases hread : readCommand image off with
      | none => rw [hread] at h; cases h
      | some first =>
          rw [hread] at h
          rcases List.mem_cons.mp h with heq | htail
          · obtain ⟨rfl, rfl⟩ := Prod.mk.inj heq
            exact hread
          · exact ih htail

/-- `Resign` finds the signature that the table names. -/
theorem signatureOffset_eq {n off : Nat} {acc : Option Nat} {commands : List Command}
    (hread : (readCommands image n off).map Prod.snd = commands) (hn : commands.length = n)
    (hsize : ∀ c ∈ commands, c.cmd = codeSignature → 12 ≤ c.bytes.length) :
    signatureOffset image n off acc = commands.foldl (fun sig c =>
      if c.cmd = codeSignature then some (field c.bytes 8 4) else sig) acc := by
  induction n generalizing off acc commands with
  | zero =>
      obtain rfl := List.eq_nil_of_length_eq_zero hn
      rfl
  | succ n ih =>
      rw [readCommands] at hread
      cases hfirst : readCommand image off with
      | none =>
          rw [hfirst] at hread
          subst hread
          cases hn
      | some c =>
          rw [hfirst] at hread
          subst hread
          obtain ⟨hfits, hbytes, hsize8, hcmd, hcmdsize, -⟩ := readCommand_eq_some hfirst
          have h8 : 8 ≤ c.bytes.length := hsize8
          have hload : readRaw image off loadCommandSize =
              some (slice image off loadCommandSize) :=
            readRaw_eq_some.mpr ⟨by rw [loadCommandSize]; omega, rfl⟩
          have hcmd' : field (slice image off loadCommandSize) 0 4 = c.cmd :=
            (field_slice (by decide)).trans hcmd
          have hcmdsize' : field (slice image off loadCommandSize) 4 4 = c.bytes.length :=
            (field_slice (by decide)).trans hcmdsize
          rw [signatureOffset, hload]
          dsimp only
          rw [hcmd', hcmdsize', if_neg (by rw [loadCommandSize]; omega)]
          have hnew : (if c.cmd = codeSignature then readNat image (off + loadCommandSize) 4
              else acc) = if c.cmd = codeSignature then some (field c.bytes 8 4) else acc := by
            split_ifs with hsig
            · have h12 := hsize c (.head _) hsig
              rw [readNat_of_fits (by rw [loadCommandSize]; omega), loadCommandSize]
              conv_rhs => rw [← hbytes]
              rw [field_slice (by omega)]
            · rfl
          rw [hnew]
          exact ih rfl (Nat.succ.inj hn) fun e he => hsize e (.tail _ he)

/-- The size of a command whose path ends at `n`: the next multiple of 8 that leaves
a byte for the NUL. -/
def paddedSize (n : Nat) : Nat := (n + 8) / 8 * 8

theorem lt_paddedSize (n : Nat) : n < paddedSize n := by
  unfold paddedSize
  omega

theorem resize_of_le {bytes : Bytes} {n : Nat} (h : n ≤ bytes.length) :
    resize bytes n = bytes.take n := by
  rw [resize, Nat.sub_eq_zero_of_le h, List.replicate_zero, List.append_nil]

theorem resize_of_ge {bytes : Bytes} {n : Nat} (h : bytes.length ≤ n) :
    resize bytes n = bytes ++ List.replicate (n - bytes.length) 0 := by
  rw [resize, List.take_of_length_le h]

theorem length_resize (bytes : Bytes) (n : Nat) : (resize bytes n).length = n := by
  rw [resize, List.length_append, List.length_take, List.length_replicate]
  omega

section SetPath

variable (text : Bytes) (hlow : 12 ≤ c.pathOff) (hhigh : c.pathOff < c.bytes.length)
include hlow hhigh

/-- The bytes of a command with a new path, before its size is set. -/
theorem setPath_bytes : (c.setPath text).bytes =
    patch (c.bytes.take c.pathOff ++ (text ++
        List.replicate (paddedSize (c.pathOff + text.length) - (c.pathOff + text.length)) 0)) 4
      (leBytes 4 (paddedSize (c.pathOff + text.length))) := by
  have hbody : (c.bytes.take c.pathOff ++ text).length = c.pathOff + text.length := by
    rw [List.length_append, List.length_take_of_le hhigh.le]
  have hlt := lt_paddedSize (c.pathOff + text.length)
  have hpad : resize (c.bytes.take c.pathOff ++ text) (paddedSize (c.pathOff + text.length)) =
      c.bytes.take c.pathOff ++ (text ++
        List.replicate (paddedSize (c.pathOff + text.length) - (c.pathOff + text.length)) 0) := by
    rw [resize_of_ge (by rw [hbody]; exact hlt.le), hbody, List.append_assoc]
  have hlength := length_resize (c.bytes.take c.pathOff ++ text)
    (paddedSize (c.pathOff + text.length))
  rw [hpad] at hlength
  rw [Command.setPath, resize_of_le hhigh.le]
  dsimp only
  rw [hbody, ← paddedSize, hpad, hlength, writeNat_of_fits (by rw [hlength]; omega)]

theorem setPath_fits : 4 + (leBytes 4 (paddedSize (c.pathOff + text.length))).length ≤
    (c.bytes.take c.pathOff ++ (text ++ List.replicate
      (paddedSize (c.pathOff + text.length) - (c.pathOff + text.length)) (0 : Byte))).length := by
  have hlt := lt_paddedSize (c.pathOff + text.length)
  rw [leBytes_length, List.length_append, List.length_append, List.length_take_of_le hhigh.le,
    List.length_replicate]
  omega

theorem length_setPath : (c.setPath text).bytes.length = paddedSize (c.pathOff + text.length) := by
  have hlt := lt_paddedSize (c.pathOff + text.length)
  rw [setPath_bytes text hlow hhigh, length_patch (setPath_fits text hlow hhigh),
    List.length_append,
    List.length_append, List.length_take_of_le hhigh.le, List.length_replicate]
  omega

/-- In front of its path the command only changes its size. -/
theorem getElem?_setPath {i : Nat} (hi : i < c.pathOff) (hsize : i < 4 ∨ 8 ≤ i) :
    (c.setPath text).bytes[i]? = c.bytes[i]? := by
  rw [setPath_bytes text hlow hhigh, getElem?_patch (setPath_fits text hlow hhigh), leBytes_length,
    if_neg (by omega),
    List.getElem?_append_left (by rw [List.length_take_of_le hhigh.le]; exact hi),
    List.getElem?_take_of_lt hi]

theorem drop_setPath : (c.setPath text).bytes.drop c.pathOff = text ++
    List.replicate (paddedSize (c.pathOff + text.length) - (c.pathOff + text.length)) 0 := by
  apply List.ext_getElem?
  intro i
  have htake : (c.bytes.take c.pathOff).length = c.pathOff := List.length_take_of_le hhigh.le
  rw [List.getElem?_drop, setPath_bytes text hlow hhigh,
    getElem?_patch (setPath_fits text hlow hhigh),
    leBytes_length, if_neg (by omega), List.getElem?_append_right (by omega), htake,
    Nat.add_sub_cancel_left]

theorem field_setPath {k w : Nat} (hk : k + w ≤ c.pathOff) (hsize : k + w ≤ 4 ∨ 8 ≤ k) :
    field (c.setPath text).bytes k w = field c.bytes k w := by
  rw [field, field]
  congr 1
  apply slice_congr
  intro i hlo hhi
  exact getElem?_setPath text hlow hhigh (by omega) (by omega)

theorem size_setPath (hsmall : paddedSize (c.pathOff + text.length) < 2 ^ 32) :
    field (c.setPath text).bytes 4 4 = (c.setPath text).bytes.length := by
  rw [length_setPath text hlow hhigh, setPath_bytes text hlow hhigh, field]
  have hback := slice_patch (setPath_fits text hlow hhigh)
  rw [leBytes_length] at hback
  rw [hback, leNat_leBytes (by norm_num at hsmall ⊢; exact hsmall)]

/-- The path reads back, and a NUL follows it. -/
theorem path_setPath (hnul : 0 ∉ text) : (c.setPath text).path = text ∧
    (c.setPath text).bytes[c.pathOff + text.length]? = some 0 := by
  have hlt := lt_paddedSize (c.pathOff + text.length)
  obtain ⟨k, hk⟩ : ∃ k, paddedSize (c.pathOff + text.length) - (c.pathOff + text.length) = k + 1 :=
    Nat.exists_eq_succ_of_ne_zero (by omega)
  have hdrop := drop_setPath text hlow hhigh
  rw [hk, List.replicate_succ] at hdrop
  constructor
  · have hoff : (c.setPath text).pathOff = c.pathOff := rfl
    rw [Command.path, hoff, if_neg (by omega), hdrop, cut_append_cons hnul]
  · rw [← List.getElem?_drop, hdrop, List.getElem?_append_right (Nat.le_refl _), Nat.sub_self]
    rfl

end SetPath

theorem coherent_setPath {text : Bytes} (hc : c.Coherent) (hpath : isPathCommand c.cmd = true)
    (hsmall : (c.setPath text).bytes.length < 2 ^ 32) : (c.setPath text).Coherent := by
  obtain ⟨hlow, hhigh, hstr⟩ := hc.lcStr_eq hpath
  have hlength := length_setPath text hlow hhigh
  have hlt := lt_paddedSize (c.pathOff + text.length)
  have hcmd : (c.setPath text).cmd = c.cmd := rfl
  have hoff : (c.setPath text).pathOff = c.pathOff := rfl
  refine ⟨by rw [hlength, loadCommandSize]; omega, ?_, ?_, fun _ => ⟨by omega, by omega, ?_⟩,
    fun hno => ?_⟩
  · rw [field_setPath text hlow hhigh (by omega) (by omega), hc.cmd_eq, hcmd]
  · exact size_setPath text hlow hhigh (by rw [← hlength]; exact hsmall)
  · rw [field_setPath text hlow hhigh (by omega) (by omega), hstr, hoff]
  · rw [hcmd, hpath] at hno
    cases hno

theorem foldl_min_le {f : Nat → Nat} {bounds : List Nat} {start : Nat} :
    bounds.foldl (fun room o => min room (f o)) start ≤ start ∧
      ∀ o ∈ bounds, bounds.foldl (fun room o => min room (f o)) start ≤ f o := by
  induction bounds generalizing start with
  | nil => simp
  | cons b bounds ih =>
      rw [List.foldl_cons, List.forall_mem_cons]
      obtain ⟨hstart, hrest⟩ := @ih (min start (f b))
      exact ⟨hstart.trans (min_le_left _ _), hstart.trans (min_le_right _ _), hrest⟩

theorem room_le (image : Bytes) (ncmds : Nat) :
    (loadCommands image ncmds).room ≤ image.length - headerSize :=
  foldl_min_le.1

/-- The room ends where content that lies behind the header begins. -/
theorem room_le_content {ncmds o : Nat} (ho : o ∈ (loadCommands image ncmds).contents)
    (hheader : headerSize ≤ o) : headerSize + (loadCommands image ncmds).room ≤ o := by
  have hle : (loadCommands image ncmds).room ≤ o - headerSize := foldl_min_le.2 o ho
  omega

section WriteTable

variable (cmds : Bytes) {room : Nat} (hheader : headerSize + room ≤ image.length)
include hheader

theorem writeTable_fits : headerSize + (resize cmds room).length ≤
    (writeNat image 20 4 cmds.length).length := by
  rw [length_resize, (sameOutside_writeNat image 20 4 cmds.length).length_eq]
  exact hheader

theorem writeTable_eq : writeTable image cmds room =
    patch (writeNat image 20 4 cmds.length) headerSize (resize cmds room) := by
  rw [writeTable, overwrite_of_fits (writeTable_fits cmds hheader), Option.getD_some]

theorem sameOutside_writeTable :
    SameOutside (fun i => (20 ≤ i ∧ i < 24) ∨ headerSize ≤ i ∧ i < headerSize + room) image
      (writeTable image cmds room) := by
  have hsize := sameOutside_writeNat image 20 4 cmds.length
  have htable := SameOutside.patch (writeTable_fits cmds hheader)
  rw [length_resize] at htable
  rw [writeTable_eq cmds hheader]
  exact (hsize.mono fun i hi => Or.inl hi).trans (htable.mono fun i hi => Or.inr hi)

theorem sizeofcmds_writeTable (hsmall : cmds.length < 2 ^ 32) :
    field (writeTable image cmds room) 20 4 = cmds.length := by
  have h32 : headerSize = 32 := rfl
  have hbytes : 20 + (leBytes 4 cmds.length).length ≤ image.length := by
    rw [leBytes_length]
    omega
  have hback := slice_patch hbytes
  rw [leBytes_length] at hback
  rw [writeTable_eq cmds hheader,
    field_sameOutside (SameOutside.patch (writeTable_fits cmds hheader)) (fun i _ hi => by omega),
    field, writeNat_of_fits (by omega), hback,
    leNat_leBytes (by norm_num at hsmall ⊢; exact hsmall)]

variable {cmds} (hroom : cmds.length ≤ room)
include hroom

/-- The table stands behind the header of the new image. -/
theorem slice_writeTable : slice (writeTable image cmds room) headerSize cmds.length = cmds := by
  have hback := slice_patch (writeTable_fits cmds hheader)
  have htake := congrArg (List.take cmds.length) hback
  rw [length_resize, slice, List.take_take, min_eq_left hroom] at htake
  rw [writeTable_eq cmds hheader, slice, htake, resize_of_ge hroom, List.take_left]

end WriteTable

/-- The positions that hash slots occupy. -/
def InSlots (slots : List Nat) (i : Nat) : Prop := ∃ s ∈ slots, s ≤ i ∧ i < s + sha256Size

variable {sha256 : Bytes → Bytes}

theorem sameOutside_signSlot (hsha : ∀ text, (sha256 text).length = sha256Size) {d : Directory}
    {st st' : Signing} {slot : Nat} (hst : SameOutside (InSlots st.slots) image st.image)
    (h : signSlot sha256 d st slot = .ok st') :
    SameOutside (InSlots st'.slots) image st'.image := by
  rw [signSlot] at h
  dsimp only at h
  split_ifs at h
  split at h
  · cases h
  · split at h
    · cases h
    · next signed hover =>
      cases h
      have hwrite := sameOutside_overwrite hover
      rw [hsha] at hwrite
      refine (hst.mono fun i hi => ?_).trans (hwrite.mono fun i hi => ?_)
      · obtain ⟨s, hs, hin⟩ := hi
        exact ⟨s, List.mem_cons_of_mem _ hs, hin⟩
      · exact ⟨_, List.mem_cons_self, hi⟩

/-- `Resign` writes hash slots and nothing else. -/
theorem sameOutside_resign (hsha : ∀ text, (sha256 text).length = sha256Size) {signed : Signing}
    (h : resign sha256 image = .ok signed) :
    SameOutside (InSlots signed.slots) image signed.image := by
  rw [resign] at h
  dsimp only at h
  split at h
  · cases h
    exact SameOutside.refl _ _
  · split_ifs at h
    refine foldlM_invariant (fun st => SameOutside (InSlots st.slots) image st.image)
      (fun i _ st st' hst hblob => ?_) (SameOutside.refl _ _) h
    rw [signBlob] at hblob
    split_ifs at hblob
    · cases hblob
      exact hst
    · obtain ⟨d, -, hslots⟩ := bind_eq_ok_iff.mp hblob
      exact foldlM_invariant (fun st => SameOutside (InSlots st.slots) image st.image)
        (fun slot _ s t hs ht => sameOutside_signSlot hsha hs ht) hst hslots

section Spelling

variable {h : Host} {ctx : FixupContext} {path : Bytes}

/-- The paths of a context and of a file are C strings. -/
structure NulFree (ctx : FixupContext) (path : Bytes) : Prop where
  dest : 0 ∉ ctx.dest
  ownLibDirs : ∀ dir ∈ ctx.ownLibDirs, 0 ∉ dir
  path : 0 ∉ path

theorem notMem_zero_iff {text : Bytes} : 0 ∉ text ↔ ∀ c ∈ text, c ≠ 0 :=
  ⟨fun h _ hc heq => h (heq ▸ hc), fun h hc => h 0 hc rfl⟩

theorem nul_notMem_path (c : Command) : 0 ∉ c.path := by
  rw [Command.path]
  split_ifs
  · exact List.not_mem_nil
  · exact notMem_cut_fst _ _

theorem nul_notMem_final (hdest : 0 ∉ ctx.dest) {p : Bytes} (hp : 0 ∉ p) : 0 ∉ ctx.final p := by
  rw [notMem_zero_iff] at hdest hp ⊢
  exact forall_mem_rebase (by decide) (by decide) hdest hp

theorem nul_notMem_relativeTo {dir target : Bytes} (ht : 0 ∉ target) :
    0 ∉ relativeTo dir target (ascii "@loader_path") := by
  rw [notMem_zero_iff] at ht ⊢
  exact forall_mem_relativeTo (by decide) (by decide) ht (notMem_zero_iff.mp (by decide))

theorem nul_notMem_appendPath {p q : Bytes} (hp : 0 ∉ p) (hq : 0 ∉ q) : 0 ∉ appendPath p q := by
  rw [notMem_zero_iff] at hp hq ⊢
  exact forall_mem_appendPath (by decide) hp hq

theorem nul_notMem_drop {text : Bytes} (ht : 0 ∉ text) (n : Nat) : 0 ∉ text.drop n :=
  fun hmem => ht (List.mem_of_mem_drop hmem)

theorem nul_notMem_parentPath {p : Bytes} (hp : 0 ∉ p) : 0 ∉ parentPath p := by
  rw [parentPath]
  split
  · split
    · exact List.not_mem_nil
    · decide
  · intro hmem
    have hfront := (List.dropWhile_suffix _).subset (List.mem_reverse.mp hmem)
    exact hp (List.mem_reverse.mp ((List.dropWhile_suffix _).subset hfront))

theorem nul_notMem_resolve (hfree : NulFree ctx path) {here p target : Bytes} (hhere : 0 ∉ here)
    (hp : 0 ∉ p) (ht : resolve h ctx here p = some target) : 0 ∉ target := by
  rw [resolve] at ht
  split at ht
  · simp only [Option.ite_none_right_eq_some, Option.some.injEq] at ht
    exact ht.2 ▸ hp
  · have htarget := (Option.filter_eq_some_iff.mp ht).1
    split at htarget
    · obtain ⟨dir, hdir, rfl⟩ := Option.map_eq_some_iff.mp htarget
      exact nul_notMem_final hfree.dest (nul_notMem_appendPath
        (hfree.ownLibDirs dir (List.mem_of_find?_eq_some hdir)) (nul_notMem_drop hp 7))
    · split at htarget
      · cases htarget
        rw [notMem_zero_iff]
        exact forall_mem_lexicallyNormal (by decide) (by decide)
          (notMem_zero_iff.mp (nul_notMem_appendPath hhere (nul_notMem_drop hp 13)))
      · split at htarget
        · cases htarget
          exact nul_notMem_final hfree.dest hp
        · cases htarget

theorem nul_notMem_spelling (hfree : NulFree ctx path) {text : Bytes}
    (hsay : spelling h ctx (ctx.final path) c = .say text) : 0 ∉ text := by
  have hself := nul_notMem_final hfree.dest hfree.path
  rw [spelling] at hsay
  split at hsay
  · cases hsay
  · rw [newSpelling] at hsay
    dsimp only at hsay
    split at hsay
    · cases hsay
      exact hself
    · split at hsay
      · split at hsay
        · cases hsay
          exact nul_notMem_relativeTo (nul_notMem_final hfree.dest (nul_notMem_path c))
        · cases hsay
      · split at hsay
        · cases hsay
        · next target htarget =>
          cases hsay
          split
          · exact nul_notMem_path c
          · exact nul_notMem_relativeTo (nul_notMem_resolve hfree (nul_notMem_parentPath hself)
              (nul_notMem_path c) htarget)

end Spelling

/-- The load commands that the header of an image counts. -/
def table (image : Bytes) : LoadCommands := loadCommands image (field image 16 4)

/-- The size of `rpath_command` and `dylib_command`, which the path follows. -/
def fixedPart (cmd : Nat) : Nat := if cmd = rpath then 12 else 24

/-- A 64-bit Mach-O whose load commands can all be read, with every path behind the
fixed part of its command. -/
structure WellFormed (image : Bytes) : Prop where
  header : headerSize ≤ image.length
  magic : field image 0 4 = magic64
  complete : (table image).commands.length = field image 16 4
  paths : ∀ c ∈ (table image).commands, isPathCommand c.cmd = true → fixedPart c.cmd ≤ c.pathOff

instance instDecidableWellFormed (image : Bytes) : Decidable (WellFormed image) :=
  decidable_of_iff (headerSize ≤ image.length ∧ field image 0 4 = magic64 ∧
      (table image).commands.length = field image 16 4 ∧
      ∀ c ∈ (table image).commands, isPathCommand c.cmd = true → fixedPart c.cmd ≤ c.pathOff)
    ⟨fun ⟨a, b, c, d⟩ => ⟨a, b, c, d⟩, fun ⟨a, b, c, d⟩ => ⟨a, b, c, d⟩⟩

theorem WellFormed.coherent (hwf : WellFormed image) :
    ∀ c ∈ (table image).commands, c.Coherent := by
  intro c hc
  obtain ⟨⟨off, _⟩, hmem, rfl⟩ := List.mem_map.mp hc
  refine coherent_of_readCommand (readCommand_of_mem hmem) fun hpath => ?_
  have hle := hwf.paths _ hc hpath
  rw [fixedPart] at hle
  split_ifs at hle <;> omega

/-- A command of the new table against the one it was, for what `NewSpelling` chose. -/
structure Respelled (choice : Spelling) (c c' : Command) : Prop where
  cmd_eq : c'.cmd = c.cmd
  pathOff_eq : c'.pathOff = c.pathOff
  other : isPathCommand c.cmd = false → c'.bytes = c.bytes
  left : choice = .leave → c'.bytes = c.bytes
  path_eq : ∀ text, choice = .say text → c'.path = text
  kept : ∀ text, choice = .say text → c.path = text → c'.bytes = c.bytes
  changed : ∀ text, choice = .say text → c.path ≠ text → c'.bytes.length % 8 = 0 ∧
    c'.bytes[c.pathOff + text.length]? = some 0 ∧
    ∀ i < c.pathOff, i < 4 ∨ 8 ≤ i → c'.bytes[i]? = c.bytes[i]?

section Fixup

variable {h : Host} {ctx : FixupContext} {path : Bytes}

theorem isPathCommand_of_pathOff (hc : c.Coherent) (hoff : c.pathOff ≠ 0) :
    isPathCommand c.cmd = true := by
  by_contra hno
  exact hoff (hc.pathOff_eq (Bool.not_eq_true _ ▸ hno))

theorem pathOff_ne_zero {self text : Bytes} (hsay : spelling h ctx self c = .say text) :
    c.pathOff ≠ 0 := by
  intro hzero
  rw [spelling, if_pos hzero] at hsay
  cases hsay

theorem respelled_respell (hc : c.Coherent) (hfree : NulFree ctx path) :
    Respelled (spelling h ctx (ctx.final path) c) c (respell h ctx (ctx.final path) c) := by
  cases hsay : spelling h ctx (ctx.final path) c with
  | leave =>
      rw [respell, hsay]
      exact ⟨rfl, rfl, fun _ => rfl, fun _ => rfl, by simp, by simp, by simp⟩
  | missing =>
      rw [respell, hsay]
      exact ⟨rfl, rfl, fun _ => rfl, fun _ => rfl, by simp, by simp, by simp⟩
  | say text =>
      have hpath := isPathCommand_of_pathOff hc (pathOff_ne_zero hsay)
      obtain ⟨hlow, hhigh, -⟩ := hc.lcStr_eq hpath
      rw [respell, hsay]
      dsimp only
      split_ifs with heq
      · refine ⟨rfl, rfl, fun hno => ?_, by simp, fun t ht => ?_, fun t ht hsame => ?_,
          fun t ht _ => ?_⟩
        · rw [hpath] at hno
          cases hno
        all_goals cases ht
        · exact (path_setPath text hlow hhigh (nul_notMem_spelling hfree hsay)).1
        · exact absurd hsame.symm heq
        · refine ⟨?_, (path_setPath text hlow hhigh (nul_notMem_spelling hfree hsay)).2,
            fun i hi hsize => getElem?_setPath text hlow hhigh hi hsize⟩
          rw [length_setPath text hlow hhigh, paddedSize]
          exact Nat.mul_mod_left _ _
      · rw [not_not] at heq
        refine ⟨rfl, rfl, fun _ => rfl, fun _ => rfl, fun t ht => ?_, fun _ _ _ => rfl,
          fun t ht hne => ?_⟩
        all_goals cases ht
        · exact heq.symm
        · exact absurd heq.symm hne

theorem coherent_respell (hc : c.Coherent) {self : Bytes}
    (hsmall : (respell h ctx self c).bytes.length < 2 ^ 32) : (respell h ctx self c).Coherent := by
  rw [respell] at hsmall ⊢
  split at hsmall
  · next text hsay =>
    split_ifs at hsmall ⊢
    · exact coherent_setPath hc (isPathCommand_of_pathOff hc (pathOff_ne_zero hsay)) hsmall
    · exact hc
  · exact hc

theorem respell_cmd (self : Bytes) (c : Command) : (respell h ctx self c).cmd = c.cmd := by
  rw [respell]
  split
  · split_ifs <;> rfl
  · rfl

/-- The new table of the file, in bytes. -/
def newTable (h : Host) (ctx : FixupContext) (path image : Bytes) : Bytes :=
  (table image).commands.flatMap fun c => (respell h ctx (ctx.final path) c).bytes

/-- The image with the new table. -/
def rewritten (h : Host) (ctx : FixupContext) (path image : Bytes) : Bytes :=
  writeTable image (newTable h ctx path image) (table image).room

theorem room_fits (hheader : headerSize ≤ image.length) :
    headerSize + (table image).room ≤ image.length := by
  have hle : (table image).room ≤ image.length - headerSize := room_le image _
  omega

theorem sameOutside_rewritten (hheader : headerSize ≤ image.length) :
    SameOutside (fun i => (20 ≤ i ∧ i < 24) ∨
        headerSize ≤ i ∧ i < headerSize + (table image).room) image (rewritten h ctx path image) :=
  sameOutside_writeTable (newTable h ctx path image) (room_fits hheader)

theorem ncmds_rewritten (hheader : headerSize ≤ image.length) :
    field (rewritten h ctx path image) 16 4 = field image 16 4 := by
  have h32 : headerSize = 32 := rfl
  exact field_sameOutside (sameOutside_rewritten hheader) fun i _ hi => by omega

/-- `FixMachO` with a header to read. -/
theorem fixMachO_eq (hheader : headerSize ≤ image.length) : fixMachO h ctx path image =
    if field image 0 4 ≠ magic64 then .ok none
    else if ∃ o ∈ (table image).contents, o < headerSize then .error .overflow
    else (fixTable h ctx path image (table image)).map some := by
  have hread : readRaw image 0 headerSize = some (slice image 0 headerSize) :=
    readRaw_eq_some.mpr ⟨by rw [Nat.zero_add]; exact hheader, rfl⟩
  rw [fixMachO, hread]
  dsimp only
  rw [field_slice (by decide), field_slice (by decide), Nat.zero_add, Nat.zero_add,
    readLoadCommands, ← table]
  split_ifs <;> rfl

/-- What a run without errors did. -/
theorem fixMachO_eq_some (hwf : WellFormed image) {written : Option Signing}
    (hrun : fixMachO h ctx path image = .ok (some ⟨written, 0⟩)) :
    (∀ o ∈ (table image).contents, headerSize ≤ o) ∧
      (∀ c ∈ (table image).commands, spelling h ctx (ctx.final path) c ≠ .missing) ∧
      (written = none ∧ (∀ c ∈ (table image).commands, changes h ctx (ctx.final path) c = false) ∨
        ∃ signed, written = some signed ∧ (newTable h ctx path image).length ≤ (table image).room ∧
          resign h.sha256 (rewritten h ctx path image) = .ok signed) := by
  rw [fixMachO_eq hwf.header, if_neg (not_not.mpr hwf.magic)] at hrun
  split_ifs at hrun with hlow
  obtain ⟨fixup, hfix, heq⟩ := map_eq_ok_iff.mp hrun
  obtain rfl := Option.some.inj heq
  rw [fixTable] at hfix
  dsimp only at hfix
  rw [← newTable, ← rewritten] at hfix
  refine ⟨fun o ho => not_lt.mp fun hlt => hlow ⟨o, ho, hlt⟩, ?_⟩
  generalize hmissing : ((table image).commands.filter fun c =>
    spelling h ctx (ctx.final path) c = .missing).length = missing at hfix
  have hnone : missing = 0 →
      ∀ c ∈ (table image).commands, spelling h ctx (ctx.final path) c ≠ .missing := by
    rintro rfl c hc hmiss
    have hall := List.filter_eq_nil_iff.mp (List.eq_nil_of_length_eq_zero hmissing) c hc
    exact hall (decide_eq_true hmiss)
  split_ifs at hfix with hany hroom
  · obtain ⟨rfl, hzero⟩ : written = none ∧ missing = 0 := by simpa [eq_comm] using hfix
    exact ⟨hnone hzero, Or.inl ⟨rfl, by simpa using hany⟩⟩
  · simp at hfix
  · split at hfix
    · simp at hfix
    · cases hfix
    · next signed hsigned =>
      split_ifs at hfix
      · obtain ⟨rfl, hzero⟩ : written = some signed ∧ missing = 0 := by
          simpa [eq_comm] using hfix
        exact ⟨hnone hzero, Or.inr ⟨signed, rfl, not_lt.mp hroom, hsigned⟩⟩
      · simp at hfix

theorem length_respell_le (hc : c ∈ (table image).commands) :
    (respell h ctx (ctx.final path) c).bytes.length ≤ (newTable h ctx path image).length := by
  rw [newTable, List.length_flatMap]
  exact List.le_sum_of_mem (List.mem_map.mpr ⟨c, hc, rfl⟩)

/-- The new table is read back from an image that holds it behind its header. -/
theorem table_of_newTable (hwf : WellFormed image) {image' : Bytes}
    (hncmds : field image' 16 4 = field image 16 4)
    (hfits : headerSize + (newTable h ctx path image).length ≤ image'.length)
    (hbytes : slice image' headerSize (newTable h ctx path image).length =
      newTable h ctx path image)
    (hsmall : ∀ c ∈ (table image).commands,
      (respell h ctx (ctx.final path) c).bytes.length < 2 ^ 32) :
    (table image').commands = (table image).commands.map (respell h ctx (ctx.final path)) := by
  have hcoherent : ∀ c ∈ (table image).commands.map (respell h ctx (ctx.final path)),
      c.Coherent := by
    rintro _ hc'
    obtain ⟨c, hc, rfl⟩ := List.mem_map.mp hc'
    exact coherent_respell (hwf.coherent c hc) (hsmall c hc)
  rw [newTable, ← List.flatMap_map] at hfits hbytes
  have hread := readCommands_of_coherent hcoherent hfits hbytes
  rw [List.length_map, hwf.complete, ← hncmds] at hread
  exact hread

/-- A file without a signature whose paths resolve is rewritten if the new table has room. -/
theorem fixMachO_unsigned (hwf : WellFormed image)
    (hbehind : ∀ o ∈ (table image).contents, headerSize ≤ o)
    (hfound : ∀ c ∈ (table image).commands, spelling h ctx (ctx.final path) c ≠ .missing)
    (hchange : ∃ c ∈ (table image).commands, changes h ctx (ctx.final path) c = true)
    (hfits : (newTable h ctx path image).length ≤ (table image).room)
    (hsmall : ∀ c ∈ (table image).commands,
      (respell h ctx (ctx.final path) c).bytes.length < 2 ^ 32)
    (hunsigned : ∀ c ∈ (table image).commands, c.cmd ≠ codeSignature)
    (hback : ∀ bytes, h.writeBack path bytes = true) :
    ∃ image', fixMachO h ctx path image = .ok (some ⟨some ⟨image', []⟩, 0⟩) ∧
      (table image').commands = (table image).commands.map (respell h ctx (ctx.final path)) := by
  have hheader := hwf.header
  have hroom := room_fits hheader
  have hlength : (rewritten h ctx path image).length = image.length :=
    (sameOutside_rewritten hheader).length_eq
  have hncmds := @ncmds_rewritten image h ctx path hheader
  have hcommands := table_of_newTable hwf hncmds (by rw [hlength]; omega)
    (slice_writeTable hroom hfits) hsmall
  refine ⟨_, ?_, hcommands⟩
  have hnone : signatureOffset (rewritten h ctx path image) (field image 16 4) headerSize none =
      none := by
    have hread := hcommands
    rw [table, hncmds] at hread
    have hcmd : ∀ c ∈ (table image).commands.map (respell h ctx (ctx.final path)),
        c.cmd ≠ codeSignature := by
      rintro _ hc'
      obtain ⟨c, hc, rfl⟩ := List.mem_map.mp hc'
      rw [respell_cmd]
      exact hunsigned c hc
    rw [signatureOffset_eq hread (by rw [List.length_map, hwf.complete])
      fun c hc hsig => absurd hsig (hcmd c hc)]
    refine List.foldlRecOn (motive := fun sig => sig = none) _ _ rfl fun sig hsig c hc => ?_
    rw [if_neg (hcmd c hc), hsig]
  have hresign : resign h.sha256 (rewritten h ctx path image) =
      .ok ⟨rewritten h ctx path image, []⟩ := by
    rw [resign, readRaw_eq_some.mpr ⟨by rw [hlength, Nat.zero_add]; exact hheader, rfl⟩]
    dsimp only [Option.map_some, Option.getD_some]
    rw [field_slice (by decide), Nat.zero_add, hncmds, hnone]
  have hany : (table image).commands.any (changes h ctx (ctx.final path)) = true :=
    List.any_eq_true.mpr hchange
  have hmissing : ((table image).commands.filter fun c =>
      spelling h ctx (ctx.final path) c = .missing) = [] :=
    List.filter_eq_nil_iff.mpr fun c hc hmiss => hfound c hc (of_decide_eq_true hmiss)
  rw [fixMachO_eq hheader, if_neg (not_not.mpr hwf.magic),
    if_neg fun ⟨o, ho, hlt⟩ => absurd (hbehind o ho) (not_le.mpr hlt), fixTable]
  dsimp only
  rw [← newTable, ← rewritten, hany, hmissing, if_neg (by simp), if_neg (not_lt.mpr hfits), hresign]
  dsimp only
  rw [hback, if_pos rfl]
  rfl

/-- A file that `FixMachO` handles without an error. If nothing had to change, every
path command already said what was chosen. Otherwise the size stays, content changes
only in hash slots, and the new table reads as the old one with the new paths, as long as
it has less than 4 GiB and no slot lies in it. -/
theorem fixMachO_relocates (hwf : WellFormed image) (hfree : NulFree ctx path)
    {written : Option Signing} (hrun : fixMachO h ctx path image = .ok (some ⟨written, 0⟩)) :
    (∀ c ∈ (table image).commands, spelling h ctx (ctx.final path) c ≠ .missing) ∧
      match written with
      | none => ∀ c ∈ (table image).commands, ∀ text,
          spelling h ctx (ctx.final path) c = .say text → c.path = text
      | some signed =>
          signed.image.length = image.length ∧
          (∀ o ∈ (table image).contents, ∀ p, o ≤ p → ¬ InSlots signed.slots p →
            signed.image[p]? = image[p]?) ∧
          ((newTable h ctx path image).length < 2 ^ 32 →
            (∀ s ∈ signed.slots, headerSize + (newTable h ctx path image).length ≤ s) →
            field signed.image 16 4 = field image 16 4 ∧
              List.Forall₂ (fun c c' => Respelled (spelling h ctx (ctx.final path) c) c c')
                (table image).commands (table signed.image).commands ∧
              field signed.image 20 4 =
                ((table signed.image).commands.map fun c => c.bytes.length).sum) := by
  obtain ⟨hbehind, hfound, hcases⟩ := fixMachO_eq_some hwf hrun
  refine ⟨hfound, ?_⟩
  rcases hcases with ⟨rfl, hsame⟩ | ⟨signed, rfl, hfits, hsigned⟩
  · intro c hc text hsay
    have hchange := hsame c hc
    rw [changes, hsay] at hchange
    have heq : text = c.path := by simpa using hchange
    exact heq.symm
  · have hroom := room_fits hwf.header
    have htable := @sameOutside_rewritten image h ctx path hwf.header
    have hsign := sameOutside_resign h.sha256_length hsigned
    refine ⟨hsign.length_eq.trans htable.length_eq, fun o ho p hp hslot => ?_,
      fun hsmall hslots => ?_⟩
    · have hend := room_le_content ho (hbehind o ho)
      rw [hsign.getElem?_eq p hslot, htable.getElem?_eq p]
      have h32 : headerSize = 32 := rfl
      change headerSize + (table image).room ≤ o at hend
      omega
    · have h32 : headerSize = 32 := rfl
      have hlow : ∀ i, i < headerSize + (newTable h ctx path image).length →
          ¬ InSlots signed.slots i := by
        rintro i hi ⟨s, hs, hle, -⟩
        have := hslots s hs
        omega
      have hncmds : field signed.image 16 4 = field image 16 4 := by
        rw [field_sameOutside hsign fun i _ hi => hlow i (by omega), ncmds_rewritten hwf.header]
      have hcommands := table_of_newTable hwf hncmds
        (by rw [hsign.length_eq, htable.length_eq]; omega)
        (by rw [hsign.slice_eq fun i _ hi => hlow i (by omega), rewritten,
          slice_writeTable hroom hfits])
        fun c hc => lt_of_le_of_lt (length_respell_le hc) hsmall
      refine ⟨hncmds, ?_, ?_⟩
      · rw [hcommands, List.forall₂_map_right_iff, List.forall₂_same]
        exact fun c hc => respelled_respell (hwf.coherent c hc) hfree
      · rw [field_sameOutside hsign fun i _ hi => hlow i (by omega),
          rewritten, sizeofcmds_writeTable _ hroom hsmall, hcommands, newTable,
          List.length_flatMap, List.map_map]
        rfl

end Fixup

namespace Sample

def host : Host where
  storeDir := ascii "/nix/store"
  pathExists _ := true
  sha256 _ := List.replicate 32 1
  sha256_length _ := List.length_replicate
  writeBack _ _ := true

def package : FixupContext where
  prefixDir := ascii "/nix/store/p"
  dest := ascii "/nix/store/p"
  ownLibDirs := []
  sdk := []

def library : Bytes := ascii "/nix/store/p/l"

/-- The header up to the number of its commands. -/
def headerFront (ncmds : Nat) : Bytes :=
  leBytes 4 magic64 ++ List.replicate 12 0 ++ leBytes 4 ncmds

/-- A header, the commands and zero bytes behind them. -/
def machO (commands : List Bytes) (padding : Nat) : Bytes :=
  headerFront commands.length ++ (leBytes 4 commands.flatten.length ++ (List.replicate 8 0 ++
    (commands.flatten ++ List.replicate padding 0)))

/-- A dylib command whose last bytes are `text`. -/
def dylib (cmd : Nat) (text : Bytes) : Bytes :=
  leBytes 4 cmd ++ leBytes 4 (24 + text.length) ++ leBytes 4 24 ++ List.replicate 12 0 ++ text

/-- A segment without sections. -/
def segment (fileoff filesize : Nat) : Bytes :=
  leBytes 4 segment64 ++ leBytes 4 72 ++ List.replicate 32 0 ++ leBytes 8 fileoff ++
    leBytes 8 filesize ++ List.replicate 16 0

/-- The commands of a library that needs a system library. -/
def commands (name needed : Bytes) : List Bytes := [dylib idDylib name, dylib loadDylib needed]

/-- The library calls itself `l`; what it needs is padded. -/
def padded : Bytes :=
  machO (commands (ascii "l" ++ List.replicate 7 0) (ascii "/usr/lib/a" ++ List.replicate 6 0)) 64

def paddedFixed : Bytes :=
  machO (commands (library ++ List.replicate 2 0) (ascii "/usr/lib/a" ++ List.replicate 6 0)) 56

/-- The same library; the name it needs ends with its command. -/
def unpadded : Bytes := machO (commands (ascii "l" ++ List.replicate 7 0) (ascii "/usr/lib/a")) 64

def unpaddedFixed : Bytes :=
  machO (commands (library ++ List.replicate 2 0) (ascii "/usr/lib/a")) 56

def bigBytes (w n : Nat) : Bytes := (leBytes w n).reverse

/-- A signature with one code directory, its slots behind it. -/
def signature (shift slots limit : Nat) : Bytes :=
  bigBytes 4 0xfade0cc0 ++ bigBytes 4 (64 + 32 * slots) ++ bigBytes 4 1 ++
    bigBytes 4 0 ++ bigBytes 4 20 ++
    bigBytes 4 0xfade0c02 ++ bigBytes 4 (44 + 32 * slots) ++ List.replicate 8 0 ++
    bigBytes 4 44 ++ List.replicate 8 0 ++ bigBytes 4 slots ++ bigBytes 4 limit ++
    [32, 2, 0, UInt8.ofNat shift] ++ List.replicate 4 0 ++ List.replicate (32 * slots) 0

def codeSignatureCommand (dataoff datasize : Nat) : Bytes :=
  leBytes 4 codeSignature ++ leBytes 4 16 ++ leBytes 4 dataoff ++ leBytes 4 datasize

/-- A command that nothing reads, around `text`. -/
def carrier (text : Bytes) : Command :=
  ⟨0, leBytes 4 0 ++ (leBytes 4 (8 + text.length) ++ text), 0⟩

/-- A library whose signature lies in a command of its table once its name is written. -/
def carried (name : Bytes) (slot : Byte) (padding : Nat) : Bytes :=
  machO [dylib idDylib name, codeSignatureCommand 96 0,
    (carrier ((signature 12 1 32).take 64 ++ List.replicate 32 slot)).bytes] padding

theorem package_nulFree : NulFree package library := ⟨by decide, by simp [package], by decide⟩

end Sample

namespace Sample

/-- The command in which a library calls itself `l`. -/
def ownName : Command := ⟨idDylib, dylib idDylib (ascii "l" ++ List.replicate 7 0), 24⟩

theorem coherent_ownName : ownName.Coherent :=
  ⟨by decide, by decide, by decide, fun _ => by decide, fun hno => by cases hno⟩

theorem length_carrier (text : Bytes) : (carrier text).bytes.length = 8 + text.length := by
  rw [carrier, List.length_append, List.length_append, leBytes_length, leBytes_length]
  omega

theorem coherent_carrier {text : Bytes} (h : 8 + text.length < 2 ^ 32) :
    (carrier text).Coherent := by
  have hlength := length_carrier text
  have hsize : field (carrier text).bytes 4 4 = leNat (leBytes 4 (8 + text.length)) := rfl
  refine ⟨by rw [hlength]; exact Nat.le_add_right _ _, rfl, ?_, fun hyes => ?_, fun _ => rfl⟩
  · rw [hsize, hlength, leNat_leBytes (by norm_num at h ⊢; exact h)]
  · cases hyes

theorem field_machO {commands : List Bytes} {padding k : Nat} (hk : k + 4 ≤ 20) :
    field (machO commands padding) k 4 = field (headerFront commands.length) k 4 := by
  rw [field, field]
  congr 1
  refine slice_congr fun i _ hi => List.getElem?_append_left ?_
  exact lt_of_lt_of_le hi hk

theorem length_machO (commands : List Bytes) (padding : Nat) :
    (machO commands padding).length = headerSize + (commands.flatten.length + padding) := by
  have hfront : (headerFront commands.length).length = 20 := rfl
  have hheader : headerSize = 20 + (4 + 8) := rfl
  rw [machO, List.length_append, List.length_append, List.length_append, List.length_append,
    List.length_replicate, List.length_replicate, leBytes_length, hfront, hheader]
  omega

theorem slice_machO (commands : List Bytes) (padding : Nat) :
    slice (machO commands padding) headerSize commands.flatten.length = commands.flatten := by
  have hheader : (headerFront commands.length ++ (leBytes 4 commands.flatten.length ++
      List.replicate 8 0)).length = headerSize := rfl
  rw [machO, ← List.append_assoc (leBytes _ _), ← List.append_assoc, slice,
    List.drop_left' hheader, List.take_left]

/-- The library with `text` in its table behind its name. -/
def longTable (text : Bytes) : Bytes := machO ([ownName, carrier text].map Command.bytes) 8

theorem header_longTable (text : Bytes) :
    field (longTable text) 0 4 = magic64 ∧ field (longTable text) 16 4 = 2 := by
  rw [longTable, field_machO (by decide), field_machO (by decide)]
  exact (by decide : field (headerFront 2) 0 4 = magic64 ∧ field (headerFront 2) 16 4 = 2)

variable {text : Bytes} (hsmall : 8 + text.length < 2 ^ 32)
include hsmall

theorem table_longTable : (table (longTable text)).commands = [ownName, carrier text] := by
  have hcoherent : ∀ c ∈ [ownName, carrier text], c.Coherent :=
    List.forall_mem_cons.mpr ⟨coherent_ownName,
      List.forall_mem_singleton.mpr (coherent_carrier hsmall)⟩
  have hread : (readCommands (longTable text) 2 headerSize).map Prod.snd =
      [ownName, carrier text] := by
    refine readCommands_of_coherent hcoherent ?_ ?_
    · rw [longTable, length_machO, List.flatMap_def]
      omega
    · rw [longTable, List.flatMap_def, slice_machO]
  rw [table, (header_longTable text).2]
  exact hread

theorem contents_longTable : (table (longTable text)).contents = [] := by
  refine List.flatMap_eq_nil_iff.mpr fun located hmem => if_neg ?_
  have hcommand : located.2 ∈ (table (longTable text)).commands := List.mem_map_of_mem hmem
  rw [table_longTable hsmall] at hcommand
  rcases List.mem_pair.mp hcommand with heq | heq
  · rw [heq]
    decide
  · rw [heq]
    exact Nat.zero_ne_add_one 24

theorem wellFormed_longTable : WellFormed (longTable text) := by
  refine ⟨by rw [longTable, length_machO]; omega, (header_longTable text).1, ?_,
    fun c hc hpath => ?_⟩
  · rw [table_longTable hsmall, (header_longTable text).2]
    rfl
  · rw [table_longTable hsmall] at hc
    rcases List.mem_pair.mp hc with rfl | rfl
    · decide
    · cases hpath

/-- The library gets its name, whatever else its table holds. -/
theorem fixMachO_longTable : ∃ image', fixMachO host package library (longTable text) =
    .ok (some ⟨some ⟨image', []⟩, 0⟩) ∧
      (table image').commands = [ownName.setPath library, carrier text] := by
  have hown : spelling host package (package.final library) ownName = .say library := by decide
  have hother : spelling host package (package.final library) (carrier text) = .leave := if_pos rfl
  have hname : respell host package (package.final library) ownName = ownName.setPath library := by
    rw [respell, hown]
    exact if_pos (by decide)
  have hsame : respell host package (package.final library) (carrier text) = carrier text := by
    rw [respell, hother]
  have hnew : [ownName, carrier text].map (respell host package (package.final library)) =
      [ownName.setPath library, carrier text] := by
    rw [List.map_cons, List.map_singleton, hname, hsame]
  have htable := table_longTable hsmall
  have hlength : (ownName.setPath library).bytes.length = 40 := by decide
  have hcarrier := length_carrier text
  rw [← hnew, ← htable]
  refine fixMachO_unsigned (wellFormed_longTable hsmall) ?_ ?_ ?_ ?_ ?_ ?_ fun _ => rfl
  · rw [contents_longTable hsmall]
    exact fun o ho => absurd ho List.not_mem_nil
  · rw [htable, List.forall_mem_cons, List.forall_mem_singleton, hown, hother]
    decide
  · rw [htable]
    exact ⟨ownName, .head _, by decide⟩
  · have hroom : (table (longTable text)).room = (longTable text).length - headerSize := by
      change List.foldl _ _ (table (longTable text)).contents = _
      rw [contents_longTable hsmall]
      rfl
    rw [hroom, longTable, length_machO, newTable, ← longTable, htable]
    simp only [List.flatMap_cons, List.flatMap_nil, List.map_cons, List.map_nil, List.flatten_cons,
      List.flatten_nil, List.length_append, List.length_nil, hname, hsame, hlength, hcarrier]
    have hbefore : ownName.bytes.length = 32 := by decide
    omega
  · rw [htable, List.forall_mem_cons, List.forall_mem_singleton, hname, hsame, hlength, hcarrier]
    exact ⟨by decide, hsmall⟩
  · rw [htable, List.forall_mem_cons, List.forall_mem_singleton]
    exact ⟨by decide, Nat.zero_ne_add_one 28⟩

end Sample

open Sample in
/-- A command whose path already is the chosen one is not padded again. A hash slot inside
of another command changes that command, and a table of 4 GiB has no `sizeofcmds`. -/
theorem unpadded_command_stays :
    (WellFormed unpadded ∧
      fixMachO host package library unpadded = .ok (some ⟨some ⟨unpaddedFixed, []⟩, 0⟩) ∧
      ∃ c ∈ (table unpaddedFixed).commands, isPathCommand c.cmd = true ∧
        c.bytes.length % 8 ≠ 0 ∧ c.bytes.getLast? ≠ some 0) ∧
    (∃ before after, WellFormed before ∧
      fixMachO host package library before = .ok (some ⟨some ⟨after, [160]⟩, 0⟩) ∧
      ∃ c ∈ (table before).commands, isPathCommand c.cmd = false ∧
        c ∉ (table after).commands) ∧
    ∃ before signed, WellFormed before ∧
      fixMachO host package library before = .ok (some ⟨some signed, 0⟩) ∧
      field signed.image 20 4 ≠
        ((table signed.image).commands.map fun c => c.bytes.length).sum := by
  refine ⟨by decide +kernel, ⟨carried (ascii "l" ++ List.replicate 7 0) 0 64,
    carried (library ++ List.replicate 2 0) 1 56, by decide +kernel⟩, ?_⟩
  obtain ⟨text, hsmall, hbig⟩ : ∃ text : Bytes, 8 + text.length < 2 ^ 32 ∧
      2 ^ 32 ≤ 48 + text.length :=
    ⟨List.replicate (2 ^ 32 - 16) 0, by rw [List.length_replicate]; decide,
      by rw [List.length_replicate]; decide⟩
  obtain ⟨image', hrun, hcommands⟩ := fixMachO_longTable hsmall
  refine ⟨longTable text, ⟨image', []⟩, wellFormed_longTable hsmall, hrun, fun heq => ?_⟩
  have hfield : field image' 20 4 < 256 ^ 4 := field_lt image' 20 4
  have hsum : ((table image').commands.map fun c => c.bytes.length).sum = 48 + text.length := by
    rw [hcommands, List.map_cons, List.map_singleton, List.sum_cons, List.sum_singleton,
      length_carrier]
    have hown : (ownName.setPath library).bytes.length = 40 := by decide
    omega
  change field image' 20 4 = _ at heq
  rw [hsum] at heq
  norm_num at hfield hbig
  omega

open Sample in
theorem fixMachO_relocates_padded :
    field paddedFixed 16 4 = field padded 16 4 ∧
      List.Forall₂ (fun c c' => Respelled (spelling host package (package.final library) c) c c')
        (table padded).commands (table paddedFixed).commands ∧
      field paddedFixed 20 4 = ((table paddedFixed).commands.map fun c => c.bytes.length).sum :=
  (fixMachO_relocates (by decide +kernel) package_nulFree
    (by decide +kernel : fixMachO host package library padded =
      .ok (some ⟨some ⟨paddedFixed, []⟩, 0⟩))).2.2.2 (by decide +kernel)
    (fun _ hs => absurd hs List.not_mem_nil)

end Repkgs.Jig.MachO
