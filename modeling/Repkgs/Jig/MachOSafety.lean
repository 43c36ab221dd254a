import Repkgs.Jig.MachOTable

/-!
# Hostile Mach-O files

What `FixMachO` reads from a file is checked before it is used, in all but four
places: content may begin inside the header, the index of a signature may name a blob
4 GiB behind it, a code directory may name any page shift, and it may name more slots
than it covers or the file has pages.
-/

namespace Repkgs.Jig.MachO

open Lib

variable {sha256 : Bytes → Bytes} {image : Bytes} {d : Directory} {st : Signing}

def slotOffset (d : Directory) (slot : Nat) : Nat := d.off + d.hashOff + slot * sha256Size

/-- The bytes that a slot vouches for: its page, cut at the limit. -/
def pageOf (image : Bytes) (d : Directory) (slot : Nat) : Bytes :=
  slice image (slot * d.page) (min ((slot + 1) * d.page) d.limit - slot * d.page)

/-- The page of a slot begins in what the directory covers and in the file. -/
def PageBegins (d : Directory) (size slot : Nat) : Prop :=
  slot * d.page ≤ d.limit ∧ slot * d.page ≤ size

/-- The slot lies in the file. -/
def SlotFits (d : Directory) (size slot : Nat) : Prop := slotOffset d slot + sha256Size ≤ size

/-- Every slot in front of which all slots lie in the file has a page. -/
def SlotsInside (d : Directory) (size : Nat) : Prop :=
  ∀ slot < d.slots, (∀ s < slot, SlotFits d size s) → PageBegins d size slot

/-- The image with the hash of a page in its slot. -/
def hashSlot (sha256 : Bytes → Bytes) (d : Directory) (image : Bytes) (slot : Nat) : Bytes :=
  patch image (slotOffset d slot) (sha256 (pageOf image d slot))

/-- Every number of the directory has 32 bits, and its page size is a power of two below
`2 ^ 64`. -/
structure Directory.Bounded (d : Directory) : Prop where
  limit_lt : d.limit < 2 ^ 32
  page_le : d.page ≤ 2 ^ 63

/-- The three outcomes of a slot. -/
theorem signSlot_cases (hsha : ∀ text, (sha256 text).length = sha256Size) (hd : d.Bounded)
    (st : Signing) (slot : Nat) :
    (¬ PageBegins d st.image.length slot ∧
        ∃ f, signSlot sha256 d st slot = .error (.fault f)) ∨
      PageBegins d st.image.length slot ∧
        (¬ SlotFits d st.image.length slot ∧ signSlot sha256 d st slot = .error .refused ∨
          SlotFits d st.image.length slot ∧ signSlot sha256 d st slot =
            .ok ⟨hashSlot sha256 d st.image slot, slotOffset d slot :: st.slots⟩) := by
  have hlimit := hd.limit_lt
  have hpage := hd.page_le
  have hnext : slot * d.page + d.page = (slot + 1) * d.page := (Nat.succ_mul slot d.page).symm
  rw [signSlot, PageBegins, SlotFits]
  dsimp only
  by_cases hover : d.limit < slot * d.page
  · rw [if_pos (Or.inr hover)]
    exact Or.inl ⟨fun h => absurd h.1 (not_le.mpr hover), _, rfl⟩
  rw [if_neg (by omega), substr]
  by_cases hbehind : st.image.length < slot * d.page
  · rw [if_pos hbehind]
    exact Or.inl ⟨fun h => absurd h.2 (not_le.mpr hbehind), _, rfl⟩
  rw [if_neg hbehind, hnext, ← slotOffset]
  refine Or.inr ⟨⟨not_lt.mp hover, not_lt.mp hbehind⟩, ?_⟩
  dsimp only
  by_cases hslot : slotOffset d slot + sha256Size ≤ st.image.length
  · rw [overwrite_of_fits (by rw [hsha]; exact hslot)]
    exact Or.inr ⟨hslot, rfl⟩
  · rw [overwrite, if_neg (by rw [fits_iff, hsha]; exact hslot)]
    exact Or.inl ⟨hslot, rfl⟩

/-- The program ends with a fault. -/
def Faults {α : Type} (run : Except Stop α) : Prop := ∃ f, run = .error (.fault f)

theorem faults_bind_iff {α β : Type} {r : Except Stop α} {g : α → Except Stop β} :
    Faults (r >>= g) ↔ Faults r ∨ ∃ a, r = .ok a ∧ Faults (g a) := by
  simp only [Faults, bind_eq_error_iff, exists_or]
  refine or_congr_right ⟨?_, ?_⟩
  · rintro ⟨f, a, ha, hf⟩
    exact ⟨a, ha, f, hf⟩
  · rintro ⟨a, ha, f, hf⟩
    exact ⟨f, a, ha, hf⟩

section Rounds

-- `Safe i` says that round `i` does not fault and `Goes i` that it is not refused
variable {σ : Type} {g : σ → Nat → Except Stop σ} {s : σ} {Safe Goes : Nat → Prop} {n : Nat}
  (hround : ∀ i t, (List.range i).foldlM g s = .ok t →
    ((∃ t', g t i = .ok t') ↔ Safe i ∧ Goes i) ∧ (Faults (g t i) ↔ ¬ Safe i))
include hround

theorem rounds_ok_iff :
    (∃ t, (List.range n).foldlM g s = .ok t) ↔ ∀ i < n, Safe i ∧ Goes i := by
  induction n with
  | zero => exact ⟨fun _ i hi => absurd hi (Nat.not_lt_zero i), fun _ => ⟨s, rfl⟩⟩
  | succ n ih =>
      simp only [Nat.forall_lt_succ_right, ← ih, foldlM_range_succ, bind_eq_ok_iff]
      constructor
      · rintro ⟨t', t, ht, hstep⟩
        exact ⟨⟨t, ht⟩, (hround n t ht).1.mp ⟨t', hstep⟩⟩
      · rintro ⟨⟨t, ht⟩, hgood⟩
        obtain ⟨t', hstep⟩ := (hround n t ht).1.mpr hgood
        exact ⟨t', t, ht, hstep⟩

/-- A counted loop faults in the first round that is not safe, unless a round in front of
it was refused. -/
theorem faults_rounds_iff : Faults ((List.range n).foldlM g s) ↔
    ¬ ∀ i < n, (∀ j < i, Goes j) → Safe i := by
  have hfaults : Faults ((List.range n).foldlM g s) ↔
      ∃ i < n, ∃ t, (List.range i).foldlM g s = .ok t ∧ Faults (g t i) := by
    simp only [Faults, foldlM_range_eq_error_iff]
    grind
  rw [hfaults, ← not_iff_not, not_not]
  constructor
  · intro hnone i
    -- all rounds in front of `i` are safe by induction, so the loop comes to `i`
    induction i using Nat.strong_induction_on with
    | _ i ih =>
        intro hi hgoes
        obtain ⟨t, ht⟩ := (rounds_ok_iff hround).mpr fun j hj =>
          ⟨ih j hj (hj.trans hi) fun k hk => hgoes k (hk.trans hj), hgoes j hj⟩
        by_contra hunsafe
        exact hnone ⟨i, hi, t, ht, (hround i t ht).2.mpr hunsafe⟩
  · rintro hsafe ⟨i, hi, t, ht, hfault⟩
    have hbefore := (rounds_ok_iff hround).mp ⟨t, ht⟩
    exact (hround i t ht).2.mp hfault (hsafe i hi fun j hj => (hbefore j hj).2)

end Rounds

/-- The image with the first `n` slots of a directory hashed. -/
def hashSlots (sha256 : Bytes → Bytes) (d : Directory) (image : Bytes) (n : Nat) : Bytes :=
  (List.range n).foldl (hashSlot sha256 d) image

section Slots

variable (hsha : ∀ text, (sha256 text).length = sha256Size) (hd : d.Bounded)
include hsha hd

/-- The loop over the slots computes `hashSlots`. -/
theorem image_signSlots {n : Nat} {st' : Signing}
    (hrun : (List.range n).foldlM (signSlot sha256 d) st = .ok st') :
    st'.image = hashSlots sha256 d st.image n ∧ st'.image.length = st.image.length := by
  induction n generalizing st' with
  | zero =>
      cases hrun
      exact ⟨rfl, rfl⟩
  | succ n ih =>
      rw [foldlM_range_succ] at hrun
      obtain ⟨t, ht, hround⟩ := bind_eq_ok_iff.mp hrun
      obtain ⟨himage, hlength⟩ := ih ht
      rcases signSlot_cases hsha hd t n with ⟨-, f, herr⟩ | ⟨-, ⟨-, herr⟩ | ⟨hfits, hok⟩⟩
      · cases herr.symm.trans hround
      · cases herr.symm.trans hround
      · cases hok.symm.trans hround
        refine ⟨?_, (length_patch (by rw [hsha]; exact hfits)).trans hlength⟩
        rw [hashSlots, List.range_succ, List.foldl_append, ← hashSlots, ← himage]
        rfl

theorem signSlots_round (i : Nat) (t : Signing)
    (ht : (List.range i).foldlM (signSlot sha256 d) st = .ok t) :
    ((∃ t', signSlot sha256 d t i = .ok t') ↔
        PageBegins d st.image.length i ∧ SlotFits d st.image.length i) ∧
      (Faults (signSlot sha256 d t i) ↔ ¬ PageBegins d st.image.length i) := by
  rw [← (image_signSlots hsha hd ht).2]
  rcases signSlot_cases hsha hd t i with ⟨hpage, f, herr⟩ | ⟨hpage, ⟨hfits, herr⟩ | ⟨hfits, hok⟩⟩
  · simp [Faults, herr, hpage]
  · simp [Faults, herr, hpage, hfits]
  · simp [Faults, hok, hpage, hfits]

end Slots

/-- Where the blob that entry `i` of the signature names begins. -/
def blobOffset (image : Bytes) (sigOff i : Nat) : Nat :=
  sigOff + (big32 image (sigOff + 12 + i * 8 + 4)).getD 0

/-- The code directory that entry `i` of a signature names. -/
def directoryAt (image : Bytes) (sigOff i : Nat) : Option Directory :=
  if big32 image (blobOffset image sigOff i) = some 0xfade0c02 then
    (readDirectory image (blobOffset image sigOff i)).toOption
  else none

theorem directoryAt_eq_some {i : Nat} (h : directoryAt image sigOff i = some d) :
    big32 image (blobOffset image sigOff i) = some 0xfade0c02 ∧
      readDirectory image (blobOffset image sigOff i) = .ok d := by
  rw [directoryAt] at h
  split_ifs at h with hmagic
  refine ⟨hmagic, ?_⟩
  cases hread : readDirectory image (blobOffset image sigOff i) with
  | error e => rw [hread] at h; cases h
  | ok d' =>
      rw [hread] at h
      cases h
      rfl


/-- The sums that lead to a blob have 32 bits. If it is a code directory, its shift is
below 64 and every slot has a page while the slots in front of it lie in the file. -/
def BlobSafe (image : Bytes) (sigOff i : Nat) : Prop :=
  sigOff + 12 < 2 ^ 32 ∧ blobOffset image sigOff i < 2 ^ 32 ∧
    (big32 image (blobOffset image sigOff i) = some 0xfade0c02 →
      (readNat image (blobOffset image sigOff i + 39) 1).getD 0 < 64 ∧
        ∀ d, readDirectory image (blobOffset image sigOff i) = .ok d →
          SlotsInside d image.length)

/-- If the blob is a code directory, it uses SHA-256 and its slots lie in the file. -/
def BlobSigned (image : Bytes) (sigOff i : Nat) : Prop :=
  big32 image (blobOffset image sigOff i) = some 0xfade0c02 →
    ∃ d, readDirectory image (blobOffset image sigOff i) = .ok d ∧
      ∀ slot < d.slots, SlotFits d image.length slot

/-- The image with the slots of a blob hashed. -/
def hashBlob (sha256 : Bytes → Bytes) (sigOff : Nat) (image : Bytes) (i : Nat) : Bytes :=
  match directoryAt image sigOff i with
  | some d => hashSlots sha256 d image d.slots
  | none => image

/-- The image with the slots of the first `n` blobs hashed. -/
def hashBlobs (sha256 : Bytes → Bytes) (sigOff : Nat) (image : Bytes) (n : Nat) : Bytes :=
  (List.range n).foldl (hashBlob sha256 sigOff) image

theorem bounded_of_readDirectory {off : Nat} (h : readDirectory image off = .ok d) :
    d.Bounded := by
  have hbig : ∀ k, (big32 image k).getD 0 < 2 ^ 32 := by
    intro k
    rw [big32]
    cases hraw : readRaw image k 4 with
    | none => exact Nat.two_pow_pos 32
    | some raw =>
        obtain ⟨hin, rfl⟩ := readRaw_eq_some.mp hraw
        have hlt : leNat (slice image k 4).reverse < 256 ^ 4 :=
          leNat_lt (by rw [List.length_reverse, length_slice hin])
        norm_num at hlt ⊢
        exact hlt
  rw [readDirectory] at h
  split_ifs at h with hshift htype
  cases h
  exact ⟨hbig _, Nat.pow_le_pow_right (by decide) (by omega)⟩

theorem faults_readDirectory_iff {off : Nat} :
    Faults (readDirectory image off) ↔ 64 ≤ (readNat image (off + 39) 1).getD 0 := by
  rw [readDirectory]
  constructor
  · rintro ⟨f, hf⟩
    by_contra hsmall
    rw [if_neg hsmall] at hf
    split_ifs at hf
    cases hf
  · intro hbig
    exact ⟨.undefinedShift, if_pos hbig⟩

section Blobs

variable (hsha : ∀ text, (sha256 text).length = sha256Size) {sigOff : Nat}
include hsha

theorem faults_signBlob_iff {i : Nat} :
    Faults (signBlob sha256 sigOff st i) ↔ ¬ BlobSafe st.image sigOff i := by
  rw [signBlob, ← blobOffset, BlobSafe]
  by_cases hsum : 2 ^ 32 ≤ sigOff + 12 ∨ 2 ^ 32 ≤ blobOffset st.image sigOff i
  · rw [if_pos hsum]
    exact ⟨fun _ hsafe => by omega, fun _ => ⟨_, rfl⟩⟩
  rw [if_neg hsum]
  rw [not_or, not_le, not_le] at hsum
  simp only [hsum, true_and]
  by_cases hmagic : big32 st.image (blobOffset st.image sigOff i) = some 0xfade0c02
  · rw [if_neg (not_not.mpr hmagic), faults_bind_iff, faults_readDirectory_iff]
    simp only [hmagic, forall_const, not_and_or, not_lt, not_forall, exists_prop]
    refine or_congr_right (exists_congr fun d => and_congr_right fun hread => ?_)
    exact faults_rounds_iff (signSlots_round hsha (bounded_of_readDirectory hread))
  · rw [if_pos hmagic]
    constructor
    · rintro ⟨f, hf⟩
      cases hf
    · exact fun hno => absurd (fun h => absurd h hmagic) hno

theorem signBlob_ok_iff {i : Nat} :
    (∃ st', signBlob sha256 sigOff st i = .ok st') ↔
      BlobSafe st.image sigOff i ∧ BlobSigned st.image sigOff i := by
  constructor
  · rintro ⟨st', hrun⟩
    refine ⟨?_, fun hmagic => ?_⟩
    · by_contra hunsafe
      obtain ⟨f, hf⟩ := (faults_signBlob_iff hsha).mpr hunsafe
      cases hf.symm.trans hrun
    · rw [signBlob, ← blobOffset, if_neg (not_not.mpr hmagic)] at hrun
      split_ifs at hrun
      obtain ⟨d, hread, hslots⟩ := bind_eq_ok_iff.mp hrun
      have hok := (rounds_ok_iff (signSlots_round hsha (bounded_of_readDirectory hread))).mp
        ⟨st', hslots⟩
      exact ⟨d, hread, fun slot hslot => (hok slot hslot).2⟩
  · rintro ⟨⟨hindex, hoff, hsafe⟩, hsigned⟩
    rw [signBlob, ← blobOffset, if_neg (by omega)]
    by_cases hmagic : big32 st.image (blobOffset st.image sigOff i) = some 0xfade0c02
    · obtain ⟨d, hread, hfits⟩ := hsigned hmagic
      have hinside := (hsafe hmagic).2 d hread
      rw [if_neg (not_not.mpr hmagic), hread]
      refine (rounds_ok_iff (signSlots_round hsha (bounded_of_readDirectory hread))).mpr ?_
      exact fun slot hslot =>
        ⟨hinside slot hslot fun s hs => hfits s (hs.trans hslot), hfits slot hslot⟩
    · rw [if_pos hmagic]
      exact ⟨st, rfl⟩

theorem image_signBlob {i : Nat} {st' : Signing} (hrun : signBlob sha256 sigOff st i = .ok st') :
    st'.image = hashBlob sha256 sigOff st.image i := by
  rw [signBlob, ← blobOffset] at hrun
  rw [hashBlob, directoryAt]
  split_ifs at hrun with hsum hmagic
  · cases hrun
    rw [if_neg hmagic]
  · obtain ⟨d, hread, hslots⟩ := bind_eq_ok_iff.mp hrun
    rw [not_not] at hmagic
    rw [if_pos hmagic, hread]
    exact (image_signSlots hsha (bounded_of_readDirectory hread) hslots).1

/-- The loop over the blobs computes `hashBlobs`. -/
theorem image_signBlobs {n : Nat} {st' : Signing}
    (hrun : (List.range n).foldlM (signBlob sha256 sigOff) st = .ok st') :
    st'.image = hashBlobs sha256 sigOff st.image n := by
  induction n generalizing st' with
  | zero =>
      cases hrun
      rfl
  | succ n ih =>
      rw [foldlM_range_succ] at hrun
      obtain ⟨t, ht, hround⟩ := bind_eq_ok_iff.mp hrun
      rw [image_signBlob hsha hround, ih ht, hashBlobs, hashBlobs, List.range_succ,
        List.foldl_append]
      rfl

end Blobs

/-- Where `Resign` finds a signature, the word behind its magic has 32 bits, and every blob
that it comes to is safe once the slots of the blobs in front are hashed. -/
def SigningSafe (sha256 : Bytes → Bytes) (image : Bytes) : Prop :=
  ∀ sigOff, signatureOffset image (((readRaw image 0 headerSize).map (field · 16 4)).getD 0)
      headerSize none = some sigOff →
    big32 image sigOff = some 0xfade0cc0 →
    sigOff + 8 < 2 ^ 32 ∧
      ∀ i < (big32 image (sigOff + 8)).getD 0,
        (∀ j < i, BlobSigned (hashBlobs sha256 sigOff image j) sigOff j) →
        BlobSafe (hashBlobs sha256 sigOff image i) sigOff i

theorem faults_resign_iff (hsha : ∀ text, (sha256 text).length = sha256Size) :
    Faults (resign sha256 image) ↔ ¬ SigningSafe sha256 image := by
  rw [resign, SigningSafe]
  dsimp only
  cases signatureOffset image (((readRaw image 0 headerSize).map (field · 16 4)).getD 0)
      headerSize none with
  | none =>
      refine ⟨fun hfaults => ?_, fun hno => absurd (fun _ h => ?_) hno⟩
      · obtain ⟨f, hf⟩ := hfaults
        cases hf
      · cases h
  | some sigOff =>
      simp only [Option.some.injEq, forall_eq']
      by_cases hmagic : big32 image sigOff = some 0xfade0cc0
      · rw [if_neg (not_not.mpr hmagic)]
        simp only [hmagic, forall_const]
        by_cases hsum : 2 ^ 32 ≤ sigOff + 8
        · rw [if_pos hsum]
          exact ⟨fun _ hsafe => by omega, fun _ => ⟨_, rfl⟩⟩
        · rw [if_neg hsum, and_iff_right (not_le.mp hsum)]
          refine faults_rounds_iff fun i t ht => ?_
          have himage := image_signBlobs hsha ht
          rw [← himage]
          exact ⟨signBlob_ok_iff hsha, faults_signBlob_iff hsha⟩
      · rw [if_pos hmagic]
        refine ⟨fun hfaults => ?_, fun hno => absurd (fun h => absurd h hmagic) hno⟩
        obtain ⟨f, hf⟩ := hfaults
        cases hf

variable {h : Host} {ctx : FixupContext} {path : Bytes}

/-- The image has the header of a 64-bit Mach-O. -/
def IsMachO (image : Bytes) : Prop := headerSize ≤ image.length ∧ field image 0 4 = magic64

/-- `FixMachO` has a new table to write and room for it, so it comes to sign the file. -/
def Rewrites (h : Host) (ctx : FixupContext) (path image : Bytes) : Prop :=
  IsMachO image ∧ (∃ c ∈ (table image).commands, changes h ctx (ctx.final path) c = true) ∧
    (newTable h ctx path image).length ≤ (table image).room

theorem fixTable_finishes_iff (hmach : IsMachO image) :
    (∃ r, fixTable h ctx path image (table image) = .ok r) ↔ (Rewrites h ctx path image →
      SigningSafe h.sha256 (rewritten h ctx path image)) := by
  rw [fixTable]
  dsimp only
  rw [← newTable, ← rewritten]
  split_ifs with hany hroom
  · refine ⟨fun _ hrew => ?_, fun _ => ⟨_, rfl⟩⟩
    obtain ⟨c, hc, hchange⟩ := hrew.2.1
    rw [List.any_eq_false] at hany
    exact absurd hchange (hany c hc)
  · exact ⟨fun _ hrew => absurd hrew.2.2 (not_le.mpr hroom), fun _ => ⟨_, rfl⟩⟩
  · have hrew : Rewrites h ctx path image := by
      refine ⟨hmach, ?_, not_lt.mp hroom⟩
      rw [Bool.not_eq_false, List.any_eq_true] at hany
      exact hany
    have hsafe := @faults_resign_iff h.sha256 (rewritten h ctx path image) h.sha256_length
    simp only [hrew, forall_const]
    rw [← not_iff_not, ← hsafe]
    split
    · next hrun =>
      refine ⟨fun hno => absurd ⟨_, rfl⟩ hno, fun hfaults => ?_⟩
      obtain ⟨f, hf⟩ := hfaults
      cases hrun.symm.trans hf
    · next f hrun =>
      refine ⟨fun _ => ⟨f, hrun⟩, fun _ hok => ?_⟩
      obtain ⟨r, hr⟩ := hok
      cases hr
    · next signed hrun =>
      refine ⟨fun hno => absurd ?_ hno, fun hfaults => ?_⟩
      · split_ifs <;> exact ⟨_, rfl⟩
      · obtain ⟨f, hf⟩ := hfaults
        cases hrun.symm.trans hf

theorem fixMachO_finishes_iff (h : Host) (ctx : FixupContext) (path image : Bytes) :
    (∃ r, fixMachO h ctx path image = .ok r) ↔
      (IsMachO image → ∀ o ∈ (table image).contents, headerSize ≤ o) ∧
        (Rewrites h ctx path image → SigningSafe h.sha256 (rewritten h ctx path image)) := by
  by_cases hmach : IsMachO image
  · rw [fixMachO_eq hmach.1, if_neg (not_not.mpr hmach.2), ← fixTable_finishes_iff hmach]
    simp only [hmach, forall_const]
    split_ifs with hlow
    · obtain ⟨o, ho, hlt⟩ := hlow
      constructor
      · rintro ⟨r, hr⟩
        cases hr
      · exact fun hsafe => absurd (hsafe.1 o ho) (not_le.mpr hlt)
    · have hbehind : ∀ o ∈ (table image).contents, headerSize ≤ o :=
        fun o ho => not_lt.mp fun hlt => hlow ⟨o, ho, hlt⟩
      rw [and_iff_right hbehind]
      simp only [map_eq_ok_iff]
      exact ⟨fun ⟨_, r, hr, _⟩ => ⟨r, hr⟩, fun ⟨r, hr⟩ => ⟨some r, r, hr, rfl⟩⟩
  · refine ⟨fun _ => ⟨fun hyes => absurd hyes hmach, fun hrew => absurd hrew.1 hmach⟩, fun _ => ?_⟩
    by_cases hheader : headerSize ≤ image.length
    · rw [fixMachO_eq hheader, if_pos fun hmagic => hmach ⟨hheader, hmagic⟩]
      exact ⟨none, rfl⟩
    · have hread : readRaw image 0 headerSize = none := by
        rw [readRaw_eq_none, Nat.zero_add]
        exact not_le.mp hheader
      rw [fixMachO, hread]
      exact ⟨none, rfl⟩

/-- `FixMachO` ends without a fault and with the header room in front of what the image
declares as content exactly if no content begins inside the header and, when it comes to
sign the new image, the sums to every blob have 32 bits and every code directory names a
shift below 64 and no page behind what it covers or behind the end of the file. -/
theorem fixMachO_safe_iff (h : Host) (ctx : FixupContext) (path image : Bytes) :
    ((∃ r, fixMachO h ctx path image = .ok r) ∧
        (IsMachO image → ∀ o ∈ (table image).contents, headerSize + (table image).room ≤ o)) ↔
      (IsMachO image → ∀ o ∈ (table image).contents, headerSize ≤ o) ∧
        (Rewrites h ctx path image → SigningSafe h.sha256 (rewritten h ctx path image)) := by
  rw [fixMachO_finishes_iff, and_iff_left_of_imp]
  exact fun hsafe hmach o ho => room_le_content ho (hsafe.1 hmach o ho)

namespace Sample

/-- A library with a segment at 200 that holds the signature. -/
def signedLibrary (shift slots limit : Nat) : Bytes :=
  machO [dylib idDylib (ascii "l" ++ List.replicate 7 0), codeSignatureCommand 200 0,
    segment 200 (64 + 32 * slots)] 48 ++ signature shift slots limit

end Sample

open Sample in
/-- A shift of 64, a second slot in a file of one page, a second slot behind what the
directory covers, a blob 4 GiB behind the signature, and a segment inside the header. -/
theorem hostile_signature_faults :
    fixMachO host package library (signedLibrary 64 1 200) = .error .undefinedShift ∧
      fixMachO host package library (signedLibrary 9 2 512) = .error .outOfRange ∧
      fixMachO host package library (signedLibrary 6 5 200) = .error .overflow ∧
      fixMachO host package library (patch (signedLibrary 12 1 200) 216 (bigBytes 4 (2 ^ 32 - 1))) =
        .error .overflow ∧
      fixMachO host package library
        (machO [dylib idDylib (ascii "l" ++ List.replicate 7 0), segment 8 8] 64) =
          .error .overflow := by
  decide +kernel

end Repkgs.Jig.MachO
