import Repkgs.Jig.Roots

/-!
# The hash of the build's own output

`MaskOut` puts a placeholder for the hash of `$out`, `UnmaskOut` puts the hash of
the build that replays. Both replace one word `<dir>/<32 characters>-` by another.
Such words never overlap, so that a replacement neither destroys nor makes an
occurrence of a third one.
-/

namespace Repkgs.Jig

open Lib

/-- What `SwapOutHash` looks for: a hash or the placeholder between `<dir>/` and `-`. -/
def outWord (dir hash : Bytes) : Bytes := storePrefix dir ++ hash ++ ascii "-"

/-- A hash or the placeholder. -/
structure OutHash (hash : Bytes) : Prop where
  length_eq : hash.length = storeHashLength
  slash : chr '/' ∉ hash

/-- A store directory that is not itself inside something named like a store path. -/
structure PlainStoreDir (dir : Bytes) : Prop where
  absolute : dir.head? = some (chr '/')
  outside : ∀ i, dir[i]? = some (chr '/') →
    ∀ hash, OutHash hash → ¬ hash ++ ascii "-" <+: dir.drop (i + 1)

theorem outHash_of_isStoreHash {hash : Bytes} (h : isStoreHash hash = true) : OutHash hash :=
  ⟨isStoreHash_length h, slash_notMem_hash h⟩

theorem outHash_placeholder : OutHash Store.outPlaceholder := ⟨by decide, by decide⟩

/-- The alphabet of hashes lacks the letter of the placeholder. -/
theorem ne_placeholder {hash : Bytes} (h : isStoreHash hash = true) :
    hash ≠ Store.outPlaceholder := by
  rintro rfl
  exact absurd h (by decide)

/-- A directory shorter than a hash is inside no store path. -/
theorem plainStoreDir_of_short {dir : Bytes} (habs : dir.head? = some (chr '/'))
    (hshort : dir.length ≤ storeHashLength) : PlainStoreDir dir where
  absolute := habs
  outside i _ hash hhash hpre := by
    have hle := hpre.length_le
    rw [List.length_append, hhash.length_eq, List.length_drop] at hle
    have : (ascii "-").length = 1 := rfl
    omega

section Words

variable {dir x y z : Bytes}

theorem length_outWord (dir : Bytes) (hx : OutHash x) :
    (outWord dir x).length = dir.length + (storeHashLength + 2) := by
  rw [outWord, storePrefix, List.length_append, List.length_append, List.length_append,
    hx.length_eq, Nat.add_assoc, Nat.add_assoc]
  rfl

theorem outWord_injective (h : outWord dir x = outWord dir y) : x = y := by
  rw [outWord, outWord, List.append_assoc, List.append_assoc] at h
  exact List.append_cancel_right (List.append_cancel_left h)

/-- Behind `<dir>/` the word has no other slash. -/
private theorem outWord_slash (hx : OutHash x) {i : Nat} (hlo : dir.length < i)
    (h : (outWord dir x)[i]? = some (chr '/')) : False := by
  have hlen : (storePrefix dir).length ≤ i := by
    simpa [storePrefix, ascii, Nat.succ_le_iff] using hlo
  rw [outWord, List.append_assoc, List.getElem?_append_right hlen] at h
  rcases List.mem_append.mp (List.mem_of_getElem? h) with hmem | hmem
  · exact hx.slash hmem
  · exact absurd hmem (by decide)

private theorem outWord_dir_end (dir x : Bytes) :
    (outWord dir x)[dir.length]? = some (chr '/') := by
  simp [outWord, storePrefix, ascii, chr]

private theorem outWord_head (hdir : PlainStoreDir dir) (x : Bytes) :
    (outWord dir x)[0]? = some (chr '/') := by
  obtain ⟨rest, rfl⟩ : ∃ rest, dir = chr '/' :: rest := by
    cases dir with
    | nil => exact absurd hdir.absolute (by decide)
    | cons c rest => exact ⟨rest, by rw [Option.some.inj hdir.absolute]⟩
  rfl

/-- Two words of this form never overlap: the slash behind the directory of the one
would stand inside the hash of the other, or the hash inside the directory. -/
theorem outWord_apart (hdir : PlainStoreDir dir) (hx : OutHash x) (hy : OutHash y) :
    Apart (outWord dir x) (outWord dir y) := by
  intro text k hpos hlt hfirst hsecond
  have hlenx := length_outWord dir hx
  have hleny := length_outWord dir hy
  have hat : ∀ i, k + i < (outWord dir x).length → i < (outWord dir y).length →
      (outWord dir x)[k + i]? = (outWord dir y)[i]? := by
    intro i hi hi'
    have h₁ := getElem?_of_occurs (by simpa using hfirst : outWord dir x <+: text.drop 0) hi
    have h₂ := getElem?_of_occurs hsecond hi'
    rw [Nat.zero_add] at h₁
    exact h₁.symm.trans h₂
  rcases Nat.lt_or_ge k (storeHashLength + 2) with hsmall | hlarge
  · -- the second slash stands in the first hash
    have hslash : (outWord dir x)[k + dir.length]? = some (chr '/') := by
      rw [hat _ (by omega) (by omega), outWord_dir_end]
    exact outWord_slash hx (by omega) hslash
  · rcases Nat.lt_or_ge dir.length k with hbehind | hwithin
    · -- the second word begins in the first hash
      have hslash : (outWord dir x)[k + 0]? = some (chr '/') := by
        rw [hat 0 (by omega) (by omega), outWord_head hdir]
      exact outWord_slash hx (by omega) hslash
    · -- the first hash stands in the second directory
      have hdirat : ∀ i < dir.length, (outWord dir y)[i]? = dir[i]? := by
        intro i hi
        rw [outWord, storePrefix, List.append_assoc, List.append_assoc,
          List.getElem?_append_left hi]
      refine hdir.outside (dir.length - k) ?_ x hx ?_
      · rw [← hdirat _ (by omega), ← hat _ (by omega) (by omega), Nat.add_sub_cancel' hwithin]
        exact outWord_dir_end dir x
      · apply occurs_of_getElem?
        intro i hi
        rw [List.length_append, hx.length_eq] at hi
        have hone : (ascii "-").length = 1 := rfl
        rw [← hdirat _ (by omega), ← hat _ (by omega) (by omega)]
        have hpre : (storePrefix dir).length = dir.length + 1 := by simp [storePrefix, ascii]
        rw [outWord, List.append_assoc, List.getElem?_append_right (by omega)]
        congr 1
        omega

/-- One hash for another. -/
theorem replaced_outWord (hdir : PlainStoreDir dir) (hx : OutHash x) (hy : OutHash y)
    (text : Bytes) : Replaced (outWord dir x) (outWord dir y) text
      (scan (replaceRule (outWord dir x) (outWord dir y)) text) := by
  apply (replaces_replaceRule _ _).replaced
  · exact List.ne_nil_of_length_pos (by rw [length_outWord dir hx]; omega)
  · rw [length_outWord dir hx, length_outWord dir hy]
  · exact outWord_apart hdir hx hx

theorem occurs_outWord_iff (hdir : PlainStoreDir dir) (hx : OutHash x) (hy : OutHash y)
    (hz : OutHash z) {text result : Bytes}
    (h : Replaced (outWord dir x) (outWord dir y) text result) (q : Nat) :
    outWord dir z <+: result.drop q ↔ (outWord dir x <+: text.drop q ∧ z = y) ∨
      (¬ outWord dir x <+: text.drop q ∧ outWord dir z <+: text.drop q) := by
  rw [h.occurs_iff (by rw [length_outWord dir hx, length_outWord dir hz])
    (by rw [length_outWord dir hy, length_outWord dir hz]) (outWord_apart hdir hz hx)
    (outWord_apart hdir hx hz) (outWord_apart hdir hz hy) (outWord_apart hdir hy hz)]
  constructor
  · exact Or.imp_left (And.imp_right outWord_injective)
  · exact Or.imp_left (And.imp_right (congrArg (outWord dir)))

/-- From `x` to `y` and on to `z` is from `x` to `z`, in a text without `y`. -/
theorem replaced_trans (hdir : PlainStoreDir dir) (hx : OutHash x) (hy : OutHash y)
    {text mid last : Bytes} (hnone : ∀ q, ¬ outWord dir y <+: text.drop q)
    (h : Replaced (outWord dir x) (outWord dir y) text mid)
    (h' : Replaced (outWord dir y) (outWord dir z) mid last) :
    Replaced (outWord dir x) (outWord dir z) text last := by
  refine h.trans h' (by rw [length_outWord dir hx, length_outWord dir hy]) fun q hq => ?_
  rcases (occurs_outWord_iff hdir hx hy hy h q).mp hq with ⟨hsrc, -⟩ | ⟨-, hold⟩
  · exact hsrc
  · exact absurd hold (hnone q)

end Words

namespace Store

variable {s : Store}

/-- With a hash `SwapOutHash` replaces one word by the other. -/
theorem swapOutHash_eq (hhash : isStoreHash s.outHash = true) (bytes : Bytes) (back : Bool) :
    s.swapOutHash bytes back =
      if back then scan (replaceRule (outWord s.dir outPlaceholder) (outWord s.dir s.outHash)) bytes
      else scan (replaceRule (outWord s.dir s.outHash) (outWord s.dir outPlaceholder)) bytes := by
  have hne : s.outHash.isEmpty = false := by
    cases h : s.outHash with
    | nil => exact absurd (h ▸ hhash) (by decide)
    | cons c rest => rfl
  simp [swapOutHash, hne, outWord, storePrefix]

theorem replaced_maskOut (hdir : PlainStoreDir s.dir) (hhash : isStoreHash s.outHash = true)
    (bytes : Bytes) : Replaced (outWord s.dir s.outHash) (outWord s.dir outPlaceholder) bytes
      (s.maskOut bytes) := by
  rw [maskOut, swapOutHash_eq hhash]
  exact replaced_outWord hdir (outHash_of_isStoreHash hhash) outHash_placeholder bytes

theorem replaced_unmaskOut (hdir : PlainStoreDir s.dir) (hhash : isStoreHash s.outHash = true)
    (bytes : Bytes) : Replaced (outWord s.dir outPlaceholder) (outWord s.dir s.outHash) bytes
      (s.unmaskOut bytes) := by
  rw [unmaskOut, swapOutHash_eq hhash]
  exact replaced_outWord hdir outHash_placeholder (outHash_of_isStoreHash hhash) bytes

/-- A masked text has no hash of the own output left. -/
theorem not_occurs_maskOut (hdir : PlainStoreDir s.dir) (hhash : isStoreHash s.outHash = true)
    (bytes : Bytes) (q : Nat) : ¬ outWord s.dir s.outHash <+: (s.maskOut bytes).drop q := by
  have hout := outHash_of_isStoreHash hhash
  rw [occurs_outWord_iff hdir hout outHash_placeholder hout (replaced_maskOut hdir hhash bytes) q]
  rintro (⟨-, heq⟩ | ⟨hnot, hocc⟩)
  · exact ne_placeholder hhash heq
  · exact hnot hocc

/-- What one build stores and another one replays: the hash of the one output for
that of the other, and a key that both compute alike. -/
theorem maskOut_across_builds (s₁ s₂ : Store) (hdir : PlainStoreDir s₁.dir)
    (hsame : s₂.dir = s₁.dir) (h₁ : isStoreHash s₁.outHash = true)
    (h₂ : isStoreHash s₂.outHash = true) (bytes : Bytes) :
    s₁.maskOut (s₁.maskOut bytes) = s₁.maskOut bytes ∧
    (¬ outWord s₁.dir outPlaceholder <:+: bytes →
      Replaced (outWord s₁.dir s₁.outHash) (outWord s₁.dir s₂.outHash) bytes
        (s₂.unmaskOut (s₁.maskOut bytes)) ∧
      (¬ outWord s₁.dir s₂.outHash <:+: bytes →
        s₂.maskOut (s₂.unmaskOut (s₁.maskOut bytes)) = s₁.maskOut bytes)) := by
  have hout₁ := outHash_of_isStoreHash h₁
  have hout₂ := outHash_of_isStoreHash h₂
  have hdir₂ : PlainStoreDir s₂.dir := hsame ▸ hdir
  have hmask := replaced_maskOut hdir h₁ bytes
  refine ⟨(replaced_maskOut hdir h₁ _).eq_self (not_occurs_maskOut hdir h₁ bytes), fun hnone => ?_⟩
  simp only [infix_iff_occurs, not_exists] at hnone ⊢
  have hunmask := replaced_unmaskOut hdir₂ h₂ (s₁.maskOut bytes)
  rw [hsame] at hunmask
  have hmoved := replaced_trans hdir hout₁ outHash_placeholder hnone hmask hunmask
  refine ⟨hmoved, fun hnone₂ => ?_⟩
  have hagain := replaced_maskOut hdir₂ h₂ (s₂.unmaskOut (s₁.maskOut bytes))
  rw [hsame] at hagain
  refine (replaced_trans hdir hout₁ hout₂ hnone₂ hmoved hagain).unique ?_ hmask
  rw [length_outWord _ hout₁, length_outWord _ outHash_placeholder]

/-- The store of a build whose output has a hash of one letter. -/
def ofLetter (letter : Char) : Store :=
  .make nixStore true
    (storePrefix nixStore ++ List.replicate storeHashLength (chr letter) ++ ascii "-app") []

/-- An object that embeds its prefix. -/
def configObject : Bytes :=
  ascii "DIR=" ++ outWord nixStore (List.replicate storeHashLength (chr 'a')) ++
    ascii "app/share"

theorem maskOut_across_builds_object :
    Replaced (outWord (ofLetter 'a').dir (ofLetter 'a').outHash)
        (outWord (ofLetter 'a').dir (ofLetter 'b').outHash) configObject
        ((ofLetter 'b').unmaskOut ((ofLetter 'a').maskOut configObject)) ∧
      (ofLetter 'b').maskOut ((ofLetter 'b').unmaskOut ((ofLetter 'a').maskOut configObject)) =
        (ofLetter 'a').maskOut configObject := by
  have hdir : PlainStoreDir (ofLetter 'a').dir :=
    plainStoreDir_of_short (by decide) (by decide)
  obtain ⟨hmoved, hagain⟩ := (maskOut_across_builds (ofLetter 'a') (ofLetter 'b') hdir rfl
    (by decide +kernel) (by decide +kernel) configObject).2 (by decide +kernel)
  exact ⟨hmoved, hagain (by decide +kernel)⟩

end Store

end Repkgs.Jig
