import Repkgs.Jig.MachOSafety

/-!
# Signatures follow the bytes

A signature in the linker's layout covers the pages in front of it. Slots are written
behind them, so a page reads the same whenever it is hashed, and every slot of the file
that is written back holds the hash of its page.
-/

namespace Repkgs.Jig.MachO

open Lib

variable {sha256 : Bytes → Bytes} {image : Bytes} {d : Directory} {st : Signing} {sigOff : Nat}

/-- The positions of the hash slots of a directory. -/
def InArray (d : Directory) (p : Nat) : Prop := slotOffset d 0 ≤ p ∧ p < slotOffset d d.slots

/-- A directory as the linker writes it, for a signature at `sigOff`. -/
structure Directory.Linked (d : Directory) (sigOff : Nat) : Prop where
  page_pos : 0 < d.page
  page_le : d.page ≤ 2 ^ 16
  limit_le : d.limit ≤ sigOff
  slots_eq : d.slots = (d.limit + d.page - 1) / d.page
  array : sigOff ≤ slotOffset d 0

theorem Directory.Linked.bounded (hd : d.Linked sigOff) (hsig : sigOff < 2 ^ 32) : d.Bounded :=
  ⟨lt_of_le_of_lt hd.limit_le hsig, hd.page_le.trans (by decide)⟩

/-- One slot of a directory. -/
theorem signSlot_spec (hsha : ∀ text, (sha256 text).length = sha256Size) (hd : d.Bounded)
    {slot : Nat} {st' : Signing} (hrun : signSlot sha256 d st slot = .ok st') :
    slotOffset d slot + sha256Size ≤ st.image.length ∧
      st'.image = patch st.image (slotOffset d slot) (sha256 (pageOf st.image d slot)) := by
  rcases signSlot_cases hsha hd st slot with ⟨-, f, herr⟩ | ⟨-, ⟨-, herr⟩ | ⟨hfits, hok⟩⟩
  · cases herr.symm.trans hrun
  · cases herr.symm.trans hrun
  · cases hok.symm.trans hrun
    exact ⟨hfits, rfl⟩

theorem pageOf_sameOutside {touched : Nat → Prop} {image' : Bytes} (hd : d.Linked sigOff)
    (h : SameOutside touched image image') (hlow : ∀ p, touched p → sigOff ≤ p) {slot : Nat} :
    pageOf image' d slot = pageOf image d slot := by
  refine h.slice_eq fun p hlo hhi htouched => ?_
  have hp := hlow p htouched
  have hlimit := hd.limit_le
  have hmin : min ((slot + 1) * d.page) d.limit ≤ d.limit := min_le_right _ _
  omega

/-- The loop over the slots of a directory writes its array, and in every slot the hash
of its page. -/
theorem signSlots_spec (hsha : ∀ text, (sha256 text).length = sha256Size) (hd : d.Linked sigOff)
    (hsig : sigOff < 2 ^ 32) {n : Nat} (hn : n ≤ d.slots) {st' : Signing}
    (hrun : (List.range n).foldlM (signSlot sha256 d) st = .ok st') :
    SameOutside (InArray d) st.image st'.image ∧ ∀ slot < n,
      slice st'.image (slotOffset d slot) sha256Size = sha256 (pageOf st.image d slot) := by
  induction n generalizing st' with
  | zero =>
      cases hrun
      exact ⟨SameOutside.refl _ _, fun slot hslot => absurd hslot (Nat.not_lt_zero slot)⟩
  | succ n ih =>
      rw [foldlM_range_succ] at hrun
      obtain ⟨t, ht, hround⟩ := bind_eq_ok_iff.mp hrun
      obtain ⟨hframe, hdone⟩ := ih (Nat.le_of_succ_le hn) ht
      obtain ⟨hfits, heq⟩ := signSlot_spec hsha (hd.bounded hsig) hround
      have hpage : pageOf t.image d n = pageOf st.image d n :=
        pageOf_sameOutside hd hframe fun p hp => hd.array.trans hp.1
      rw [hpage] at heq
      have hlength := hsha (pageOf st.image d n)
      rw [← hlength] at hfits
      have hwrite := SameOutside.patch hfits
      rw [hlength, ← heq] at hwrite
      refine ⟨hframe.trans (hwrite.mono fun p hp => ⟨?_, ?_⟩), fun slot hslot => ?_⟩
      · rw [slotOffset] at hp ⊢
        omega
      · rw [slotOffset, sha256Size] at hp ⊢
        omega
      · rcases Nat.lt_succ_iff_lt_or_eq.mp hslot with hlt | rfl
        · rw [← hdone slot hlt]
          refine hwrite.slice_eq fun p _ hhi hp => ?_
          rw [slotOffset, sha256Size] at hhi hp
          omega
        · have hback := slice_patch hfits
          rw [hlength] at hback
          rw [heq, hback]

/-- The length a blob gives in its second word. -/
def blobLength (image : Bytes) (off : Nat) : Nat := (big32 image (off + 4)).getD 0

def blobCount (image : Bytes) (sigOff : Nat) : Nat := (big32 image (sigOff + 8)).getD 0

/-- The bytes of blob `i`. -/
def InBlob (image : Bytes) (sigOff i p : Nat) : Prop :=
  blobOffset image sigOff i ≤ p ∧
    p < blobOffset image sigOff i + blobLength image (blobOffset image sigOff i)

/-- The offset in the last `LC_CODE_SIGNATURE` of a table. -/
def signatureOf (commands : List Command) : Option Nat :=
  commands.foldl (fun off c => if c.cmd = codeSignature then some (field c.bytes 8 4) else off) none

/-- An embedded signature as the linker lays it out: in the content of a segment, below
4 GiB, with its index in front and blobs that hold their own headers. Every code directory
uses SHA-256, covers the pages in front of the signature, and its slots share no byte with
its own header, the index, another blob or another directory's slots. -/
structure LinkerLayout (image : Bytes) (sigOff : Nat) : Prop where
  command : signatureOf (table image).commands = some sigOff
  commandSize : ∀ c ∈ (table image).commands, c.cmd = codeSignature → 12 ≤ c.bytes.length
  content : ∃ o ∈ (table image).contents, headerSize ≤ o ∧ o ≤ sigOff
  magic : big32 image sigOff = some 0xfade0cc0
  inFile : sigOff + blobLength image sigOff ≤ image.length
  low : sigOff + blobLength image sigOff ≤ 2 ^ 32
  index : 12 + 8 * blobCount image sigOff ≤ blobLength image sigOff
  blob : ∀ i < blobCount image sigOff, 8 ≤ blobLength image (blobOffset image sigOff i) ∧
    ∀ p, InBlob image sigOff i p → sigOff ≤ p ∧ p < sigOff + blobLength image sigOff
  directory : ∀ i < blobCount image sigOff,
    big32 image (blobOffset image sigOff i) = some 0xfade0c02 →
      44 ≤ blobLength image (blobOffset image sigOff i) ∧
        ∃ d, directoryAt image sigOff i = some d ∧ d.Linked sigOff
  apart : ∀ i < blobCount image sigOff, ∀ d, directoryAt image sigOff i = some d →
    ∀ p, InArray d p → sigOff + (12 + 8 * blobCount image sigOff) ≤ p ∧
      p < sigOff + blobLength image sigOff ∧
      (p < blobOffset image sigOff i ∨ blobOffset image sigOff i + 44 ≤ p) ∧
      ∀ j < blobCount image sigOff, j ≠ i → ¬ InBlob image sigOff j p ∧
        ∀ d', directoryAt image sigOff j = some d' → ¬ InArray d' p

/-- The slots of the first `k` directories. -/
def InArrays (image : Bytes) (sigOff k p : Nat) : Prop :=
  ∃ i < k, ∃ d, directoryAt image sigOff i = some d ∧ InArray d p

section Blobs

variable {image' : Bytes} {touched : Nat → Prop}

theorem big32_sameOutside (h : SameOutside touched image image') {off : Nat}
    (hout : ∀ p, off ≤ p → p < off + 4 → ¬ touched p) : big32 image' off = big32 image off := by
  rw [big32, big32, readRaw_sameOutside h hout]

theorem readNat_sameOutside (h : SameOutside touched image image') {off width : Nat}
    (hout : ∀ p, off ≤ p → p < off + width → ¬ touched p) :
    readNat image' off width = readNat image off width := by
  rw [readNat, readNat, readRaw_sameOutside h hout]

theorem readDirectory_sameOutside (h : SameOutside touched image image') {off : Nat}
    (hout : ∀ p, off ≤ p → p < off + 44 → ¬ touched p) :
    readDirectory image' off = readDirectory image off := by
  have hbig : ∀ k, k ≤ 40 → big32 image' (off + k) = big32 image (off + k) := fun k hk =>
    big32_sameOutside h fun p hlo hhi => hout p (by omega) (by omega)
  have hbyte : ∀ k, k < 44 → readNat image' (off + k) 1 = readNat image (off + k) 1 := fun k hk =>
    readNat_sameOutside h fun p hlo hhi => hout p (by omega) (by omega)
  rw [readDirectory, readDirectory, hbig 16 (by omega), hbig 28 (by omega), hbig 32 (by omega),
    hbyte 36 (by omega), hbyte 37 (by omega), hbyte 39 (by omega)]

variable (hl : LinkerLayout image sigOff) {k : Nat}
include hl

theorem LinkerLayout.sigOff_lt : sigOff < 2 ^ 32 := by
  have hindex := hl.index
  have hlow := hl.low
  omega

/-- What the first directories write leaves the index and the other blobs alone. -/
theorem LinkerLayout.not_inArrays_index (hk : k ≤ blobCount image sigOff) {p : Nat}
    (hp : p < sigOff + (12 + 8 * blobCount image sigOff)) : ¬ InArrays image sigOff k p := by
  rintro ⟨i, hi, d, hd, harray⟩
  have hapart := (hl.apart i (lt_of_lt_of_le hi hk) d hd p harray).1
  omega

theorem LinkerLayout.not_inArrays_blob (hk : k < blobCount image sigOff) {p : Nat}
    (hp : InBlob image sigOff k p) : ¬ InArrays image sigOff k p := by
  rintro ⟨i, hi, d, hd, harray⟩
  exact ((hl.apart i (lt_trans hi hk) d hd p harray).2.2.2 k hk (Nat.ne_of_gt hi)).1 hp

variable (hframe : SameOutside (fun p => p < sigOff ∨ InArrays image sigOff k p) image image')
include hframe

theorem LinkerLayout.blobOffset_eq (hk : k < blobCount image sigOff) :
    blobOffset image' sigOff k = blobOffset image sigOff k := by
  rw [blobOffset, blobOffset, big32_sameOutside hframe fun p hlo hhi => ?_]
  rintro (hp | hp)
  · omega
  · exact hl.not_inArrays_index hk.le (by omega) hp

/-- The blob whose turn it is reads as in the original image. -/
theorem LinkerLayout.blob_eq (hk : k < blobCount image sigOff) :
    big32 image' (blobOffset image sigOff k) = big32 image (blobOffset image sigOff k) ∧
      (big32 image (blobOffset image sigOff k) = some 0xfade0c02 →
        readDirectory image' (blobOffset image sigOff k) =
          readDirectory image (blobOffset image sigOff k)) := by
  obtain ⟨hsize, hin⟩ := hl.blob k hk
  have hout : ∀ p, InBlob image sigOff k p →
      ¬ (p < sigOff ∨ InArrays image sigOff k p) := by
    rintro p hp (hlow | harray)
    · have hge := (hin p hp).1
      omega
    · exact hl.not_inArrays_blob hk hp harray
  constructor
  · exact big32_sameOutside hframe fun p hlo hhi => hout p ⟨hlo, by omega⟩
  · intro hmagic
    have h44 := (hl.directory k hk hmagic).1
    exact readDirectory_sameOutside hframe fun p hlo hhi => hout p ⟨hlo, by omega⟩

end Blobs

/-- Signing an image that reads like `image` from its signature on. -/
theorem signBlobs_spec (hsha : ∀ text, (sha256 text).length = sha256Size)
    (hl : LinkerLayout image sigOff) {moved : Bytes}
    (hmoved : SameOutside (fun p => p < sigOff) image moved) {k : Nat}
    (hk : k ≤ blobCount image sigOff) {st : Signing}
    (hrun : (List.range k).foldlM (signBlob sha256 sigOff) ⟨moved, []⟩ = .ok st) :
    SameOutside (InArrays image sigOff k) moved st.image ∧
      ∀ i < k, ∀ d, directoryAt image sigOff i = some d → ∀ slot < d.slots,
        slice st.image (slotOffset d slot) sha256Size = sha256 (pageOf moved d slot) := by
  induction k generalizing st with
  | zero =>
      cases hrun
      exact ⟨SameOutside.refl _ _, fun i hi => absurd hi (Nat.not_lt_zero i)⟩
  | succ k ih =>
      have hlt : k < blobCount image sigOff := hk
      rw [foldlM_range_succ] at hrun
      obtain ⟨t, ht, hround⟩ := bind_eq_ok_iff.mp hrun
      obtain ⟨hframe, hdone⟩ := ih hlt.le ht
      have hboth : SameOutside (fun p => p < sigOff ∨ InArrays image sigOff k p) image t.image :=
        (hmoved.mono fun p hp => Or.inl hp).trans (hframe.mono fun p hp => Or.inr hp)
      have hoff := hl.blobOffset_eq hboth hlt
      obtain ⟨hmagic, hdir⟩ := hl.blob_eq hboth hlt
      rw [signBlob, ← blobOffset, hoff, hmagic] at hround
      have hsum : ¬ (2 ^ 32 ≤ sigOff + 12 ∨ 2 ^ 32 ≤ blobOffset image sigOff k) := by
        intro hover
        rw [if_pos hover] at hround
        cases hround
      rw [if_neg hsum] at hround
      by_cases hcode : big32 image (blobOffset image sigOff k) = some 0xfade0c02
      · obtain ⟨-, d, hd, hlinked⟩ := hl.directory k hlt hcode
        have hread := (directoryAt_eq_some hd).2
        rw [if_neg (not_not.mpr hcode), hdir hcode, hread] at hround
        change (List.range d.slots).foldlM (signSlot sha256 d) t = .ok st at hround
        obtain ⟨hslots, hhash⟩ := signSlots_spec hsha hlinked hl.sigOff_lt le_rfl hround
        have harrays : ∀ p, InArrays image sigOff k p → sigOff ≤ p := by
          rintro p ⟨i, hi, e, he, harray⟩
          have hge := (hl.apart i (lt_trans hi hlt) e he p harray).1
          omega
        refine ⟨(hframe.mono ?_).trans (hslots.mono ?_), fun i hi e he slot hslot => ?_⟩
        · rintro p ⟨i, hi, e, he, harray⟩
          exact ⟨i, Nat.lt_succ_of_lt hi, e, he, harray⟩
        · exact fun p harray => ⟨k, Nat.lt_succ_self k, d, hd, harray⟩
        · rcases Nat.lt_succ_iff_lt_or_eq.mp hi with hbefore | rfl
          · rw [← hdone i hbefore e he slot hslot]
            refine hslots.slice_eq fun p hlo hhi harray => ?_
            have hmem : InArray e p := by
              rw [slotOffset, sha256Size] at hlo hhi
              rw [InArray, slotOffset, slotOffset, sha256Size]
              omega
            exact ((hl.apart i (lt_trans hbefore hlt) e he p hmem).2.2.2 k hlt
              (Nat.ne_of_gt hbefore)).2 d hd harray
          · obtain rfl : d = e := Option.some.inj (hd.symm.trans he)
            rw [hhash slot hslot, pageOf_sameOutside hlinked hframe harrays]
      · have hnone : directoryAt image sigOff k = none := by rw [directoryAt, if_neg hcode]
        rw [if_pos hcode] at hround
        cases hround
        refine ⟨hframe.mono ?_, fun i hi e he slot hslot => ?_⟩
        · rintro p ⟨i, hi, e, he, harray⟩
          exact ⟨i, Nat.lt_succ_of_lt hi, e, he, harray⟩
        · rcases Nat.lt_succ_iff_lt_or_eq.mp hi with hbefore | rfl
          · exact hdone i hbefore e he slot hslot
          · cases hnone.symm.trans he

/-- A signed image names the same directories as before. -/
theorem LinkerLayout.directoryAt_eq (hl : LinkerLayout image sigOff) {image' : Bytes}
    (hframe : SameOutside
      (fun p => p < sigOff ∨ InArrays image sigOff (blobCount image sigOff) p) image image') :
    blobCount image' sigOff = blobCount image sigOff ∧
      ∀ i < blobCount image sigOff,
        directoryAt image' sigOff i = directoryAt image sigOff i := by
  have hindex := hl.index
  have hlow := hl.low
  have hfront : ∀ p, sigOff ≤ p → p < sigOff + (12 + 8 * blobCount image sigOff) →
      ¬ (p < sigOff ∨ InArrays image sigOff (blobCount image sigOff) p) := by
    rintro p hge hlt (hp | hp)
    · omega
    · exact hl.not_inArrays_index le_rfl hlt hp
  refine ⟨?_, fun i hi => ?_⟩
  · rw [blobCount, blobCount, big32_sameOutside hframe fun p hlo hhi =>
      hfront p (by omega) (by omega)]
  · have hoff : blobOffset image' sigOff i = blobOffset image sigOff i := by
      rw [blobOffset, blobOffset,
        big32_sameOutside hframe fun p hlo hhi => hfront p (by omega) (by omega)]
    obtain ⟨hsize, hin⟩ := hl.blob i hi
    -- the header of a blob: its own slots lie elsewhere, and so do those of other directories
    have hheader : ∀ p, InBlob image sigOff i p → p < blobOffset image sigOff i + 44 →
        ¬ (p < sigOff ∨ InArrays image sigOff (blobCount image sigOff) p) := by
      rintro p hblob hlt (hp | ⟨j, hj, d, hd, harray⟩)
      · have hge := (hin p hblob).1
        omega
      · obtain ⟨-, -, hown, hother⟩ := hl.apart j hj d hd p harray
        by_cases hij : i = j
        · subst hij
          have hge := hblob.1
          omega
        · exact (hother i hi hij).1 hblob
    have hmagic : big32 image' (blobOffset image sigOff i) =
        big32 image (blobOffset image sigOff i) :=
      big32_sameOutside hframe fun p hlo hhi => hheader p ⟨hlo, by omega⟩ (by omega)
    rw [directoryAt, directoryAt, hoff, hmagic]
    by_cases hcode : big32 image (blobOffset image sigOff i) = some 0xfade0c02
    · have h44 := (hl.directory i hi hcode).1
      rw [if_pos hcode, if_pos hcode,
        readDirectory_sameOutside hframe fun p hlo hhi => hheader p ⟨hlo, by omega⟩ hhi]
    · rw [if_neg hcode, if_neg hcode]

section Fixup

variable {h : Host} {ctx : FixupContext} {path : Bytes}

/-- A signature command is no path command and stays as it is. -/
theorem respell_codeSignature {c : Command} (hc : c.Coherent) (hsig : c.cmd = codeSignature)
    (self : Bytes) : respell h ctx self c = c := by
  have hoff : c.pathOff = 0 := hc.pathOff_eq (by rw [hsig]; rfl)
  rw [respell, spelling, if_pos hoff]

theorem signatureOf_respell (self : Bytes) {commands : List Command}
    (hc : ∀ c ∈ commands, c.Coherent) (acc : Option Nat) :
    (commands.map (respell h ctx self)).foldl (fun sig c =>
        if c.cmd = codeSignature then some (field c.bytes 8 4) else sig) acc =
      commands.foldl (fun sig c =>
        if c.cmd = codeSignature then some (field c.bytes 8 4) else sig) acc := by
  induction commands generalizing acc with
  | nil => rfl
  | cons c commands ih =>
      rw [List.map_cons, List.foldl_cons, List.foldl_cons, respell_cmd,
        ih fun e he => hc e (.tail _ he)]
      by_cases hsig : c.cmd = codeSignature
      · rw [respell_codeSignature (hc c (.head _)) hsig]
      · rw [if_neg hsig, if_neg hsig]

/-- In a file with a signature in the linker's layout that `FixMachO` rewrites without an
error, every slot of every code directory of the written image holds the hash of its page
in that image, and from the signature on only slots have changed. -/
theorem fixMachO_signature_follows (hwf : WellFormed image) (hl : LinkerLayout image sigOff)
    {signed : Signing} (hrun : fixMachO h ctx path image = .ok (some ⟨some signed, 0⟩)) :
    (∀ i < blobCount signed.image sigOff, ∀ d, directoryAt signed.image sigOff i = some d →
        ∀ slot < d.slots, slice signed.image (slotOffset d slot) sha256Size =
          h.sha256 (pageOf signed.image d slot)) ∧
      ∀ p, sigOff ≤ p →
        (∀ i < blobCount signed.image sigOff, ∀ d, directoryAt signed.image sigOff i = some d →
          ¬ InArray d p) →
        signed.image[p]? = image[p]? := by
  obtain ⟨-, -, ⟨hnone, -⟩ | ⟨signed', heq, hfits, hsigned⟩⟩ := fixMachO_eq_some hwf hrun
  · cases hnone
  obtain rfl := Option.some.inj heq
  have h32 : headerSize = 32 := rfl
  have hheader := hwf.header
  have hroom := room_fits hheader
  have hsig : headerSize + (table image).room ≤ sigOff := by
    obtain ⟨o, ho, hlow, hle⟩ := hl.content
    exact (room_le_content ho hlow).trans hle
  have hlt := hl.sigOff_lt
  -- the new table is written in front of the signature
  have htable := @sameOutside_rewritten image h ctx path hheader
  have hncmds := @ncmds_rewritten image h ctx path hheader
  generalize hmoved : rewritten h ctx path image = moved at htable hsigned hncmds
  have hfront : SameOutside (fun p => p < sigOff) image moved := by
    refine htable.mono fun p hp => ?_
    omega
  have hbytes : slice moved headerSize (newTable h ctx path image).length =
      newTable h ctx path image := by
    rw [← hmoved, rewritten, slice_writeTable hroom hfits]
  have hcommands := table_of_newTable hwf hncmds (by rw [htable.length_eq]; omega) hbytes
    fun c hc => lt_of_le_of_lt (length_respell_le hc) (by omega)
  have hfound : signatureOffset moved (field moved 16 4) headerSize none = some sigOff := by
    have hcount : ((table image).commands.map (respell h ctx (ctx.final path))).length =
        field moved 16 4 := by
      rw [List.length_map, hwf.complete, hncmds]
    refine (signatureOffset_eq hcommands hcount fun c' hc' hcode => ?_).trans ?_
    · obtain ⟨c, hc, rfl⟩ := List.mem_map.mp hc'
      rw [respell_cmd] at hcode
      rw [respell_codeSignature (hwf.coherent c hc) hcode]
      exact hl.commandSize c hc hcode
    · exact (signatureOf_respell _ hwf.coherent none).trans hl.command
  have hmagic : big32 moved sigOff = some 0xfade0cc0 := by
    rw [big32_sameOutside hfront fun p hp _ => by omega, hl.magic]
  have hindex := hl.index
  have hlow := hl.low
  have hcount : (big32 moved (sigOff + 8)).getD 0 = blobCount image sigOff := by
    rw [blobCount, big32_sameOutside hfront fun p hp _ => by omega]
  have hblobs : (List.range (blobCount image sigOff)).foldlM (signBlob h.sha256 sigOff)
      ⟨moved, []⟩ = .ok signed := by
    have hread : ((readRaw moved 0 headerSize).map (field · 16 4)).getD 0 = field moved 16 4 := by
      rw [readRaw_eq_some.mpr ⟨by rw [htable.length_eq]; omega, rfl⟩]
      exact field_slice (by decide)
    rw [resign, hread, hfound] at hsigned
    dsimp only at hsigned
    rwa [if_neg (not_not.mpr hmagic), if_neg (by omega), hcount] at hsigned
  obtain ⟨hslots, hhash⟩ := signBlobs_spec h.sha256_length hl hfront le_rfl hblobs
  obtain ⟨hsame, hdirs⟩ := hl.directoryAt_eq
    ((hfront.mono fun p hp => Or.inl hp).trans (hslots.mono fun p hp => Or.inr hp))
  have harrays : ∀ p, InArrays image sigOff (blobCount image sigOff) p → sigOff ≤ p := by
    rintro p ⟨i, hi, d, hd, harray⟩
    have hge := (hl.apart i hi d hd p harray).1
    omega
  rw [hsame]
  refine ⟨fun i hi d hd slot hslot => ?_, fun p hp hout => ?_⟩
  · rw [hdirs i hi] at hd
    obtain ⟨-, e, he, hlinked⟩ := hl.directory i hi (directoryAt_eq_some hd).1
    obtain rfl : d = e := Option.some.inj (hd.symm.trans he)
    rw [hhash i hi d hd slot hslot, pageOf_sameOutside hlinked hslots harrays]
  · rw [hslots.getElem?_eq p, hfront.getElem?_eq p (by omega)]
    rintro ⟨i, hi, d, hd, harray⟩
    exact hout i hi d (by rw [hdirs i hi, hd]) harray

end Fixup

namespace Sample

/-- A host that takes the first bytes of a text for its hash. -/
def beginnings : Host :=
  { host with
    sha256 := fun text => resize text sha256Size
    sha256_length := fun text => length_resize text sha256Size }

/-- The library with four pages, the last one of 8 bytes, in front of its signature. -/
def fourPages : Bytes := signedLibrary 6 4 200

def fourPagesFixed : Bytes :=
  hashSlots beginnings.sha256 ⟨220, 44, 4, 200, 64⟩
    (machO [dylib idDylib (library ++ List.replicate 2 0), codeSignatureCommand 200 0,
      segment 200 192] 40 ++ signature 6 4 200) 4

theorem fourPages_directory : blobCount fourPages 200 = 1 ∧ blobOffset fourPages 200 0 = 220 ∧
    blobLength fourPages 200 = 192 ∧ blobLength fourPages 220 = 172 ∧
    directoryAt fourPages 200 0 = some ⟨220, 44, 4, 200, 64⟩ := by
  decide +kernel

theorem fourPages_layout : LinkerLayout fourPages 200 := by
  obtain ⟨hcount, hoff, hlength, hblob, hdir⟩ := fourPages_directory
  refine ⟨by decide +kernel, by decide +kernel, ⟨200, by decide +kernel, by decide, le_rfl⟩,
    by decide +kernel, by decide +kernel, by rw [hlength]; decide, by rw [hcount, hlength]; decide,
    fun i hi => ?_, fun i hi _ => ?_, fun i hi d hd p hp => ?_⟩
  all_goals
    rw [hcount] at hi
    obtain rfl := Nat.lt_one_iff.mp hi
  · rw [hoff, hblob, hlength]
    refine ⟨by decide, fun p hp => ?_⟩
    rw [InBlob, hoff, hblob] at hp
    omega
  · rw [hoff, hblob]
    exact ⟨by decide, _, hdir, by decide, by decide, by decide, by decide, by decide⟩
  · obtain rfl := Option.some.inj (hdir.symm.trans hd)
    rw [InArray, slotOffset, slotOffset, sha256Size] at hp
    rw [hcount, hlength, hoff]
    dsimp only at hp
    refine ⟨by omega, by omega, by omega, fun j hj hne => ?_⟩
    omega

end Sample

open Sample in
theorem fixMachO_signature_follows_fourPages :
    fixMachO beginnings package library fourPages =
        .ok (some ⟨some ⟨fourPagesFixed, [360, 328, 296, 264]⟩, 0⟩) ∧
      ∀ i < blobCount fourPagesFixed 200, ∀ d, directoryAt fourPagesFixed 200 i = some d →
        ∀ slot < d.slots, slice fourPagesFixed (slotOffset d slot) sha256Size =
          resize (pageOf fourPagesFixed d slot) sha256Size := by
  have hrun : fixMachO beginnings package library fourPages =
      .ok (some ⟨some ⟨fourPagesFixed, [360, 328, 296, 264]⟩, 0⟩) := by
    decide +kernel
  exact ⟨hrun, (fixMachO_signature_follows (by decide +kernel) fourPages_layout hrun).1⟩

end Repkgs.Jig.MachO
