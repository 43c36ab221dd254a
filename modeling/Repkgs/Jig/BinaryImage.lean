import Repkgs.Lib.LittleEndian
import Repkgs.Lib.Patch
import Repkgs.Lib.Text

/-!
# Bounds-checked binary images

`BinaryImage` of `fixup_mode.h`: the bytes of a file with reads and writes that
refuse to leave them. A structure of the image is read as its raw bytes; `field`
takes a number out of them.
-/

namespace Repkgs.Jig

open Lib

/-- `n` bytes from `off` on lie inside the image. -/
def Fits (image : Bytes) (off n : Nat) : Prop := off ≤ image.length ∧ n ≤ image.length - off

instance instDecidableFits (image : Bytes) (off n : Nat) : Decidable (Fits image off n) :=
  inferInstanceAs (Decidable (_ ∧ _))

/-- `Read<T>` for a `T` of `size` bytes. -/
def readRaw (image : Bytes) (off size : Nat) : Option Bytes :=
  if Fits image off size then some (slice image off size) else none

/-- The little-endian number in `width` bytes of a structure. -/
def field (raw : Bytes) (off width : Nat) : Nat := leNat (slice raw off width)

/-- `Read<std::uintN_t>`. -/
def readNat (image : Bytes) (off width : Nat) : Option Nat :=
  (readRaw image off width).map leNat

/-- `Overwrite`, and `Write` with the bytes of a structure; `none` is `false`. -/
def overwrite (image : Bytes) (off : Nat) (bytes : Bytes) : Option Bytes :=
  if Fits image off bytes.length then some (patch image off bytes) else none

/-- A `Write` whose result the caller does not look at. -/
def writeNat (image : Bytes) (off width value : Nat) : Bytes :=
  (overwrite image off (leBytes width value)).getD image

/-- `CString`. -/
def cString (image : Bytes) (off : Nat) : Bytes :=
  if image.length ≤ off then [] else (cut 0 (image.drop off)).1

/-- `WritePadded`. -/
def writePadded (image : Bytes) (off capacity : Nat) (text : Bytes) : Option Bytes :=
  if capacity < text.length + 1 ∨ ¬ Fits image off capacity then none
  else some (patch image off (text ++ List.replicate (capacity - text.length) 0))

/-- What keeps a C++ function from its result: `std::out_of_range` of a `substr` or
`at`, an overflow that traps, a shift by 64 or more, `std::filesystem::filesystem_error`,
or a loop that goes on for more rounds than the image has bytes. -/
inductive Fault
  | outOfRange
  | overflow
  | undefinedShift
  | filesystemError
  | endlessLoop
  deriving DecidableEq

/-- `std::string_view::substr`. -/
def substr (text : Bytes) (pos n : Nat) : Except Fault Bytes :=
  if text.length < pos then .error .outOfRange else .ok (slice text pos n)

/-- `std::string::resize` with NUL bytes. -/
def resize (bytes : Bytes) (n : Nat) : Bytes :=
  bytes.take n ++ List.replicate (n - bytes.length) 0

variable {image image' bytes raw text : Bytes} {off n width capacity : Nat}

theorem fits_iff : Fits image off n ↔ off + n ≤ image.length := by
  unfold Fits
  omega

theorem field_lt (raw : Bytes) (off width : Nat) : field raw off width < 256 ^ width := by
  have hlength : (slice raw off width).length ≤ width := by
    rw [slice, List.length_take]
    exact min_le_left _ _
  exact lt_of_lt_of_le (leNat_lt rfl) (Nat.pow_le_pow_right (by decide) hlength)

theorem readRaw_eq_some : readRaw image off n = some raw ↔
    off + n ≤ image.length ∧ slice image off n = raw := by
  rw [readRaw, ← fits_iff]
  split_ifs with h <;> simp [h]

theorem readRaw_eq_none : readRaw image off n = none ↔ image.length < off + n := by
  rw [readRaw, ← not_le, ← fits_iff]
  split_ifs with h <;> simp [h]

theorem readNat_eq_some {v : Nat} : readNat image off n = some v ↔
    off + n ≤ image.length ∧ field image off n = v := by
  rw [readNat, Option.map_eq_some_iff]
  constructor
  · rintro ⟨raw, hraw, rfl⟩
    obtain ⟨hfits, rfl⟩ := readRaw_eq_some.mp hraw
    exact ⟨hfits, rfl⟩
  · rintro ⟨hfits, rfl⟩
    exact ⟨_, readRaw_eq_some.mpr ⟨hfits, rfl⟩, rfl⟩

theorem readNat_of_fits (h : off + n ≤ image.length) :
    readNat image off n = some (field image off n) :=
  readNat_eq_some.mpr ⟨h, rfl⟩

theorem overwrite_eq_some : overwrite image off bytes = some image' ↔
    off + bytes.length ≤ image.length ∧ patch image off bytes = image' := by
  rw [overwrite, ← fits_iff]
  split_ifs with h <;> simp [h]

theorem overwrite_of_fits (h : off + bytes.length ≤ image.length) :
    overwrite image off bytes = some (patch image off bytes) :=
  overwrite_eq_some.mpr ⟨h, rfl⟩

theorem writeNat_of_fits {value : Nat} (h : off + width ≤ image.length) :
    writeNat image off width value = patch image off (leBytes width value) := by
  rw [writeNat, overwrite_of_fits (by rwa [leBytes_length]), Option.getD_some]

/-- A write touches its own run and nothing else, whether or not it fits. -/
theorem sameOutside_writeNat (image : Bytes) (off width value : Nat) :
    SameOutside (fun i => off ≤ i ∧ i < off + width) image (writeNat image off width value) := by
  by_cases h : off + width ≤ image.length
  · rw [writeNat_of_fits h]
    have hfits : off + (leBytes width value).length ≤ image.length := by rwa [leBytes_length]
    have hframe := SameOutside.patch hfits
    rwa [leBytes_length] at hframe
  · have hrefused : overwrite image off (leBytes width value) = none := by
      rw [overwrite, if_neg]
      rwa [fits_iff, leBytes_length]
    rw [writeNat, hrefused, Option.getD_none]
    exact SameOutside.refl _ _

theorem sameOutside_overwrite (h : overwrite image off bytes = some image') :
    SameOutside (fun i => off ≤ i ∧ i < off + bytes.length) image image' := by
  obtain ⟨hfits, rfl⟩ := overwrite_eq_some.mp h
  exact SameOutside.patch hfits

theorem writePadded_eq_some : writePadded image off capacity text = some image' ↔
    text.length + 1 ≤ capacity ∧ off + capacity ≤ image.length ∧
      patch image off (text ++ List.replicate (capacity - text.length) 0) = image' := by
  rw [writePadded, ← fits_iff]
  split_ifs with h
  · simp only [false_iff]
    rintro ⟨htext, hfits, -⟩
    rcases h with h | h
    · omega
    · exact h hfits
  · simp only [not_or, not_lt, not_not] at h
    simp [h.1, h.2]

theorem sameOutside_writePadded (h : writePadded image off capacity text = some image') :
    SameOutside (fun i => off ≤ i ∧ i < off + capacity) image image' := by
  obtain ⟨htext, hfits, rfl⟩ := writePadded_eq_some.mp h
  have hlength : (text ++ List.replicate (capacity - text.length) (0 : Byte)).length =
      capacity := by
    rw [List.length_append, List.length_replicate]
    omega
  rw [← hlength] at hfits
  have hframe := SameOutside.patch hfits
  rwa [hlength] at hframe

variable {touched : Nat → Prop}

theorem readRaw_sameOutside (h : SameOutside touched image image')
    (hout : ∀ i, off ≤ i → i < off + n → ¬ touched i) :
    readRaw image' off n = readRaw image off n := by
  rw [readRaw, readRaw, h.slice_eq hout]
  simp only [fits_iff, h.length_eq]

theorem field_sameOutside (h : SameOutside touched image image')
    (hout : ∀ i, off ≤ i → i < off + n → ¬ touched i) :
    field image' off n = field image off n := by
  rw [field, field, h.slice_eq hout]

end Repkgs.Jig
