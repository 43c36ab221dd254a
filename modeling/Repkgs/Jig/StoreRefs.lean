import Repkgs.Jig.Roots

/-!
# Store roots in a text

A text is cut into the store roots it names and single bytes. Masking, resolving
and re-rooting spell the roots differently and leave the bytes alone, as long as
no `<dir>/` hides another. Here the roots are found and masked.
-/

namespace Repkgs.Jig

open Lib

/-- The characters of a store path name. -/
def isNameChar (c : Byte) : Bool := isAlnum c || (ascii "+-._?=").contains c

/-- A store root in a text, and whether `ResolveAll` takes it for a whole root. -/
structure StoreRef where
  hash : Bytes
  name : Bytes
  closed : Bool
  deriving DecidableEq

/-- The store root a text begins with. -/
def storeRef? (dir text : Bytes) : Option StoreRef :=
  if (storePrefix dir).isPrefixOf text then
    let base := text.drop (storePrefix dir).length
    if startsWithHash base then
      let tail := base.drop (storeHashLength + 1)
      some ⟨base.take storeHashLength, tail.takeWhile isNameChar,
        closesRoot (tail.dropWhile isNameChar)⟩
    else none
  else none

/-- A directory such as `/nix/store`: absolute, its first name shorter than a hash,
and `<dir>/` overlaps itself in a slash only. -/
structure StoreDir (dir : Bytes) : Prop where
  absolute : dir.head? = some (chr '/')
  star : chr '*' ∉ dir
  first_name : ∃ i < storeHashLength, (storePrefix dir)[i + 1]? = some (chr '/')
  border : ∀ k, 0 < k → k + 1 < (storePrefix dir).length →
    ¬ (storePrefix dir).drop k <+: storePrefix dir

/-- `<dir>/` does not come again right behind `<dir>/`, with or without sharing a slash. -/
def Spread (dir text : Bytes) : Prop :=
  ∀ s, s <:+ text → storePrefix dir <+: s →
    ∀ k, 0 < k → k ≤ (storePrefix dir).length → ¬ storePrefix dir <+: s.drop k

/-- No masked store path stands in the text. -/
def Unmasked (dir text : Bytes) : Prop := ∀ s, s <:+ text → ¬ (dir ++ ascii "/*-") <+: s

variable {dir : Bytes}

variable {text hash name root rest : Bytes} {r : StoreRef}

theorem storeRef?_eq_some {ref : StoreRef} (h : storeRef? dir text = some ref) :
    ∃ rest, text = realRoot dir ref.hash ref.name ++ rest ∧ isStoreHash ref.hash = true ∧
      ref.name.all isNameChar = true ∧ (∀ c, rest.head? = some c → isNameChar c = false) ∧
      ref.closed = closesRoot rest := by
  unfold storeRef? at h
  split at h
  · next hpre =>
      obtain ⟨base, rfl⟩ := List.isPrefixOf_iff_prefix.mp hpre
      rw [List.drop_left] at h
      simp only at h
      split at h
      · next hbase =>
          obtain ⟨hash, tail, hh, rfl⟩ := startsWithHash_iff.mp hbase
          rw [← isStoreHash_length hh, List.take_left, List.drop_length_add_append] at h
          cases h
          refine ⟨tail.dropWhile isNameChar, ?_, hh, ?_, ?_, rfl⟩
          · simp [realRoot]
          · exact List.all_eq_true.mpr fun c hc => List.mem_takeWhile_imp hc
          · intro c hc
            have hhead := List.head?_dropWhile_not isNameChar tail
            rw [hc] at hhead
            exact hhead
      · cases h
  · cases h

theorem storeRef?_eq_none (h : storeRef? dir text = none) (hh : isStoreHash hash = true) :
    ¬ storePrefix dir ++ hash ++ ascii "-" <+: text := by
  rintro ⟨rest, rfl⟩
  have htext : storePrefix dir ++ hash ++ ascii "-" ++ rest =
      storePrefix dir ++ (hash ++ chr '-' :: rest) := by simp [ascii, chr]
  rw [storeRef?, htext, if_pos (List.isPrefixOf_iff_prefix.mpr (List.prefix_append _ _)),
    List.drop_left] at h
  simp [startsWithHash_iff.mpr ⟨hash, rest, hh, rfl⟩] at h

theorem slash_notMem_name (h : name.all isNameChar = true) : chr '/' ∉ name :=
  fun hmem => absurd (List.all_eq_true.mp h _ hmem) (by decide)

/-- A root, masked or not: what stands behind `<dir>/` cannot be part of `<dir>/`. -/
structure RootLike (dir root : Bytes) : Prop where
  spelled : ∃ base, root = storePrefix dir ++ base ∧ chr '/' ∉ base ∧
    (storeHashLength < base.length ∨ base.head? = some (chr '*'))

theorem RootLike.starts (h : RootLike dir root) : storePrefix dir <+: root := by
  obtain ⟨base, rfl, -⟩ := h.spelled
  exact List.prefix_append _ _

theorem rootLike_realRoot (hh : isStoreHash hash = true) (hname : chr '/' ∉ name) :
    RootLike dir (realRoot dir hash name) := by
  refine ⟨hash ++ chr '-' :: name, by simp [realRoot], ?_, Or.inl ?_⟩
  · intro hmem
    rcases List.mem_append.mp hmem with hin | hin
    · exact slash_notMem_hash hh hin
    · exact (List.mem_cons.mp hin).elim (by decide) hname
  · rw [List.length_append, isStoreHash_length hh, List.length_cons]
    omega

theorem rootLike_maskedRoot (hname : chr '/' ∉ name) :
    RootLike dir (maskedRoot dir name) := by
  refine ⟨ascii "*" ++ chr '-' :: name, by simp [maskedRoot], ?_, Or.inr rfl⟩
  intro hmem
  rcases List.mem_append.mp hmem with hin | hin
  · exact absurd hin (by decide)
  · exact (List.mem_cons.mp hin).elim (by decide) hname

theorem StoreDir.head_storePrefix (h : StoreDir dir) :
    (storePrefix dir).head? = some (chr '/') := by
  rw [storePrefix, List.head?_append, h.absolute]
  rfl

theorem StoreDir.star_notMem (h : StoreDir dir) : chr '*' ∉ storePrefix dir := by
  intro hmem
  rcases List.mem_append.mp hmem with hin | hin
  · exact h.star hin
  · exact absurd hin (by decide)

theorem getElem?_of_isPrefix {pre text : Bytes} (h : pre <+: text) {i : Nat} {c : Byte}
    (hc : pre[i]? = some c) : text[i]? = some c := by
  obtain ⟨rest, rfl⟩ := h
  obtain ⟨hlt, -⟩ := List.getElem?_eq_some_iff.mp hc
  rw [List.getElem?_append_left hlt, hc]

/-- No store path begins inside a root. -/
theorem RootLike.not_prefix_drop (h : StoreDir dir) (hroot : RootLike dir root) {k : Nat}
    (hk : 0 < k) (hlt : k < root.length) (rest : Bytes) :
    ¬ storePrefix dir <+: (root ++ rest).drop k := by
  obtain ⟨base, rfl, hslash, hbase⟩ := hroot.spelled
  intro hpre
  rw [List.append_assoc] at hpre
  rcases Nat.lt_or_ge k (storePrefix dir).length with hin | hout
  · rw [List.drop_append_of_le_length hin.le] at hpre
    rcases Nat.lt_or_ge (k + 1) (storePrefix dir).length with hborder | hlast
    · refine h.border k hk hborder
        (List.prefix_of_prefix_length_le (List.prefix_append _ _) hpre ?_)
      rw [List.length_drop]
      exact Nat.sub_le _ _
    · -- the slash behind the directory: the first name of `dir` would stand in the base
      have hdrop : (storePrefix dir).drop k = ascii "/" := by
        have hk : k = dir.length := by
          simp only [storePrefix, List.length_append] at hin hlast
          have hone : (ascii "/").length = 1 := rfl
          omega
        rw [hk, storePrefix, List.drop_left]
      rw [hdrop] at hpre
      obtain ⟨i, hi, hfirst⟩ := h.first_name
      have hslash' : (base ++ rest)[i]? = some (chr '/') := getElem?_of_isPrefix hpre hfirst
      rcases hbase with hlong | hstar
      · rw [List.getElem?_append_left (hi.trans hlong)] at hslash'
        exact hslash (List.mem_of_getElem? hslash')
      · have hsecond : 1 < (storePrefix dir).length :=
          Nat.lt_of_le_of_lt (Nat.le_add_left 1 i) (List.getElem?_eq_some_iff.mp hfirst).1
        have hstar' := getElem?_of_isPrefix hpre (List.getElem?_eq_getElem hsecond)
        change (base ++ rest)[0]? = _ at hstar'
        rw [← List.head?_eq_getElem?, List.head?_append, hstar, Option.some_or,
          Option.some.injEq] at hstar'
        exact h.star_notMem (hstar' ▸ List.getElem_mem hsecond)
  · have hhead : (storePrefix dir)[0]? = some (chr '/') := by
      rw [← List.head?_eq_getElem?, h.head_storePrefix]
    have hc := getElem?_of_isPrefix hpre hhead
    rw [List.length_append] at hlt
    rw [List.getElem?_drop, Nat.add_zero, List.getElem?_append_right hout,
      List.getElem?_append_left (by omega)] at hc
    exact hslash (List.mem_of_getElem? hc)

inductive Tok
  | byte (c : Byte)
  | ref (r : StoreRef)

/-- The text of a token when `root` spells the references. -/
def Tok.spell (root : StoreRef → Bytes) : Tok → Bytes
  | byte c => [c]
  | ref r => root r

/-- The root as it stands in the text. -/
def StoreRef.real (dir : Bytes) (r : StoreRef) : Bytes := realRoot dir r.hash r.name

/-- The root with its hash masked. -/
def StoreRef.masked (dir : Bytes) (r : StoreRef) : Bytes := maskedRoot dir r.name

def refRule (dir text : Bytes) : Option (Nat × Tok) :=
  (storeRef? dir text).map fun r => ((r.real dir).length, .ref r)

def tokens (dir text : Bytes) : List Tok := lex (refRule dir) .byte text

theorem spells_real (dir : Bytes) :
    Spells (refRule dir) Tok.byte (Tok.spell (StoreRef.real dir)) where
  plain _ := rfl
  found := by
    intro text n tok h
    obtain ⟨r, hr, heq⟩ := Option.map_eq_some_iff.mp h
    cases heq
    obtain ⟨rest, rfl, -⟩ := storeRef?_eq_some hr
    refine ⟨(List.take_left).symm, ?_⟩
    simp only [StoreRef.real, realRoot, List.length_append, List.length_cons]
    omega

/-- Every reference is spelled as a root. -/
def SpellsRoots (dir : Bytes) (root : StoreRef → Bytes) (toks : List Tok) : Prop :=
  ∀ r, .ref r ∈ toks → RootLike dir (root r)

theorem SpellsRoots.of_suffix {root : StoreRef → Bytes} {toks toks' : List Tok}
    (h : SpellsRoots dir root toks) (hs : toks' <:+ toks) : SpellsRoots dir root toks' :=
  fun r hr => h r (hs.subset hr)

theorem leading_bytes (toks : List Tok) : ∃ (bytes : Bytes) (toks' : List Tok),
    toks = bytes.map Tok.byte ++ toks' ∧ (toks' = [] ∨ ∃ r after, toks' = .ref r :: after) := by
  induction toks with
  | nil => exact ⟨[], [], rfl, Or.inl rfl⟩
  | cons tok toks ih =>
      cases tok with
      | byte c =>
          obtain ⟨bytes, toks', rfl, htoks⟩ := ih
          exact ⟨c :: bytes, toks', rfl, htoks⟩
      | ref r => exact ⟨[], .ref r :: toks, rfl, Or.inr ⟨r, toks, rfl⟩⟩

/-- A root that begins at a byte of the text consists of bytes of the text, however
the references are spelled. -/
theorem root_at_byte (h : StoreDir dir) {pat : Bytes} (hpat : RootLike dir pat)
    {root root' : StoreRef → Bytes} {c : Byte} {after : List Tok}
    (hroot : SpellsRoots dir root after)
    (hpre : pat <+: c :: after.flatMap (Tok.spell root)) :
    pat <+: c :: after.flatMap (Tok.spell root') := by
  obtain ⟨bytes, toks, rfl, htoks⟩ := leading_bytes after
  have hbytes : ∀ f : StoreRef → Bytes, c :: (bytes.map Tok.byte ++ toks).flatMap (Tok.spell f) =
      (c :: bytes) ++ toks.flatMap (Tok.spell f) := by
    intro f
    rw [List.flatMap_append, List.flatMap_map, List.cons_append]
    congr 2
    exact List.flatMap_singleton' bytes
  rw [hbytes] at hpre ⊢
  rcases Nat.lt_or_ge (c :: bytes).length pat.length with hlt | hle
  · obtain ⟨rest, hrest⟩ := hpre
    have hdrop := congrArg (List.drop (c :: bytes).length) hrest
    rw [List.drop_left] at hdrop
    rcases htoks with rfl | ⟨r, after', rfl⟩
    · have hlen := congrArg List.length hrest
      simp only [List.length_append, List.flatMap_nil, List.length_nil] at hlen
      omega
    · have hpos : 0 < (c :: bytes).length := Nat.succ_pos _
      refine absurd ?_ (hpat.not_prefix_drop h hpos hlt rest)
      rw [hdrop, List.flatMap_cons]
      exact (hroot r (by simp)).starts.trans (List.prefix_append _ _)
  · have hin : pat <+: c :: bytes :=
      List.prefix_of_prefix_length_le hpre (List.prefix_append _ _) hle
    exact hin.trans (List.prefix_append _ _)

/-- Nothing is found inside a root by a rule that looks for `<dir>/`. -/
theorem scan_root (h : StoreDir dir) {rule : Rule Byte}
    (hrule : ∀ text, ¬ storePrefix dir <+: text → rule text = none) (hroot : RootLike dir root)
    (hnone : rule (root ++ rest) = none) :
    scan rule (root ++ rest) = root ++ scan rule rest := by
  rw [scan_skip (k := root.length), List.take_left, List.drop_left]
  intro i hi
  cases i with
  | zero => exact hnone
  | succ i => exact hrule _ (hroot.not_prefix_drop h (Nat.succ_pos i) hi rest)

theorem scan_noSlash (h : StoreDir dir) {rule : Rule Byte}
    (hrule : ∀ text, ¬ storePrefix dir <+: text → rule text = none) {part : Bytes}
    (hpart : chr '/' ∉ part) (rest : Bytes) :
    scan rule (part ++ rest) = part ++ scan rule rest := by
  induction part with
  | nil => rfl
  | cons c part ih =>
      rw [List.mem_cons, not_or] at hpart
      rw [List.cons_append, scan_cons_of_none, ih hpart.2, List.cons_append]
      apply hrule
      intro hpre
      have hhead : (storePrefix dir)[0]? = some (chr '/') := by
        rw [← List.head?_eq_getElem?, h.head_storePrefix]
      exact hpart.1 (Option.some.inj (getElem?_of_isPrefix hpre hhead)).symm

/-- `maskHashRule` without what it only copies. -/
def hitRule (dir : Bytes) : Rule Byte := fun text =>
  if (storePrefix dir).isPrefixOf text && startsWithHash (text.drop (storePrefix dir).length) then
    some ((storePrefix dir).length + storeHashLength, storePrefix dir ++ ascii "*")
  else none

theorem hitRule_eq_none (h : ¬ storePrefix dir <+: text) : hitRule dir text = none := by
  rw [hitRule, if_neg]
  rw [Bool.and_eq_true, List.isPrefixOf_iff_prefix]
  exact fun hboth => h hboth.1

theorem maskHashRule_cases (dir s : Bytes) : maskHashRule dir s = hitRule dir s ∨
    (maskHashRule dir s =
      some ((storePrefix dir).length + 1, s.take ((storePrefix dir).length + 1)) ∧
      hitRule dir s = none ∧ storePrefix dir <+: s) := by
  unfold maskHashRule hitRule
  by_cases hpre : (storePrefix dir).isPrefixOf s
  · by_cases hhash : startsWithHash (s.drop (storePrefix dir).length)
    · exact Or.inl (by simp [hpre, hhash])
    · exact Or.inr ⟨by simp [hpre, hhash], by simp [hhash], List.isPrefixOf_iff_prefix.mp hpre⟩
  · exact Or.inl (by simp [hpre])

theorem maskHashes_eq_scan (h : Spread dir text) :
    maskHashes dir text = scan (hitRule dir) text := by
  apply scan_eq_of_copy
  intro s hs
  refine (maskHashRule_cases dir s).imp_right ?_
  rintro ⟨hcopy, hnone, hpre⟩
  refine ⟨_, hcopy, fun i hi => ?_⟩
  cases i with
  | zero => exact hnone
  | succ i => exact hitRule_eq_none (h s hs hpre (i + 1) (Nat.succ_pos i) hi)

theorem hitRule_realRoot (hh : isStoreHash hash = true) :
    hitRule dir (realRoot dir hash name ++ rest) =
      some ((storePrefix dir).length + storeHashLength, storePrefix dir ++ ascii "*") := by
  have htext : realRoot dir hash name ++ rest =
      storePrefix dir ++ (hash ++ chr '-' :: (name ++ rest)) := by simp [realRoot]
  rw [hitRule, htext, List.drop_left, startsWithHash_iff.mpr ⟨hash, name ++ rest, hh, rfl⟩,
    List.isPrefixOf_iff_prefix.mpr (List.prefix_append _ _)]
  rfl

theorem of_hitRule {found : Nat × Bytes} (h : hitRule dir text = some found) :
    ∃ hash, isStoreHash hash = true ∧ storePrefix dir ++ hash ++ ascii "-" <+: text := by
  unfold hitRule at h
  split at h
  · next hboth =>
      rw [Bool.and_eq_true, List.isPrefixOf_iff_prefix, startsWithHash_iff] at hboth
      obtain ⟨⟨base, rfl⟩, hash, rest, hh, hbase⟩ := hboth
      rw [List.drop_left] at hbase
      exact ⟨hash, hh, rest, by rw [hbase]; simp [ascii, chr]⟩
  · cases h

/-- The facts about a reference in a text. -/
structure RefAt (dir : Bytes) (r : StoreRef) (rest : Bytes) : Prop where
  hash : isStoreHash r.hash = true
  name : r.name.all isNameChar = true
  ends : ∀ c, rest.head? = some c → isNameChar c = false
  closed : r.closed = closesRoot rest

theorem RefAt.of_storeRef? (h : storeRef? dir (r.real dir ++ rest) = some r) :
    RefAt dir r rest := by
  obtain ⟨rest', hrest, hh, hname, hends, hclosed⟩ := storeRef?_eq_some h
  cases List.append_cancel_left hrest
  exact ⟨hh, hname, hends, hclosed⟩

/-- How the tokens of a text were read. -/
structure TokensOf (dir text : Bytes) : Prop where
  spelled : (tokens dir text).flatMap (Tok.spell (StoreRef.real dir)) = text
  byte : ∀ c after, .byte c :: after <:+ tokens dir text →
    c :: after.flatMap (Tok.spell (StoreRef.real dir)) <:+ text ∧
      storeRef? dir (c :: after.flatMap (Tok.spell (StoreRef.real dir))) = none
  ref : ∀ r after, .ref r :: after <:+ tokens dir text →
    r.real dir ++ after.flatMap (Tok.spell (StoreRef.real dir)) <:+ text ∧
      storeRef? dir (r.real dir ++ after.flatMap (Tok.spell (StoreRef.real dir))) = some r

theorem tokensOf (dir text : Bytes) : TokensOf dir text := by
  obtain ⟨htext, hread⟩ := (spells_real dir).mem_lex text
  refine ⟨htext, fun c after hs => ?_, fun r after hs => ?_⟩
  · obtain ⟨hsuffix, ⟨b, -, hnone⟩ | ⟨n, hsome⟩⟩ := hread _ after hs
    · exact ⟨hsuffix, Option.map_eq_none_iff.mp hnone⟩
    · obtain ⟨r, -, heq⟩ := Option.map_eq_some_iff.mp hsome
      cases heq
  · obtain ⟨hsuffix, ⟨b, hb, -⟩ | ⟨n, hsome⟩⟩ := hread _ after hs
    · cases hb
    · obtain ⟨r', hr, heq⟩ := Option.map_eq_some_iff.mp hsome
      cases heq
      exact ⟨hsuffix, hr⟩

theorem TokensOf.refAt (h : TokensOf dir text) {after : List Tok}
    (hs : .ref r :: after <:+ tokens dir text) :
    RefAt dir r (after.flatMap (Tok.spell (StoreRef.real dir))) :=
  RefAt.of_storeRef? (h.ref r after hs).2

theorem mem_tokens (h : .ref r ∈ tokens dir text) :
    ∃ rest, r.real dir ++ rest <:+ text ∧ storeRef? dir (r.real dir ++ rest) = some r := by
  obtain ⟨before, after, hsplit⟩ := List.append_of_mem h
  exact ⟨_, (tokensOf dir text).ref r after ⟨before, hsplit.symm⟩⟩

theorem spellsRoots_real (dir text : Bytes) :
    SpellsRoots dir (StoreRef.real dir) (tokens dir text) := by
  intro r hr
  obtain ⟨rest, -, href⟩ := mem_tokens hr
  have hat := RefAt.of_storeRef? href
  exact rootLike_realRoot hat.hash (slash_notMem_name hat.name)

theorem spellsRoots_masked (dir text : Bytes) :
    SpellsRoots dir (StoreRef.masked dir) (tokens dir text) := by
  intro r hr
  obtain ⟨rest, -, href⟩ := mem_tokens hr
  have hat := RefAt.of_storeRef? href
  exact rootLike_maskedRoot (slash_notMem_name hat.name)

/-- Masking changes the references and nothing else. -/
theorem maskHashes_eq_masked (h : StoreDir dir) (hspread : Spread dir text) :
    maskHashes dir text = (tokens dir text).flatMap (Tok.spell (StoreRef.masked dir)) := by
  have htoks := tokensOf dir text
  rw [maskHashes_eq_scan hspread]
  nth_rewrite 1 [← htoks.spelled]
  apply scan_flatMap
  intro tok after hs
  cases tok with
  | byte c =>
      apply scan_cons_of_none
      by_contra hsome
      obtain ⟨found, hfound⟩ := Option.ne_none_iff_exists'.mp hsome
      obtain ⟨hash, hh, hpre⟩ := of_hitRule hfound
      exact storeRef?_eq_none (htoks.byte c after hs).2 hh hpre
  | ref r =>
      have hat := htoks.refAt hs
      change scan _ (realRoot dir r.hash r.name ++ _) = maskedRoot dir r.name ++ _
      have hdrop : ∀ rest, (realRoot dir r.hash r.name ++ rest).drop
          ((storePrefix dir).length + storeHashLength) = (chr '-' :: r.name) ++ rest := by
        intro rest
        rw [← isStoreHash_length hat.hash, ← List.length_append, realRoot, List.append_assoc,
          List.drop_left]
      refine (scan_of_some (hitRule_realRoot hat.hash) (by simp [realRoot])).trans ?_
      refine (congrArg (fun t => _ ++ scan _ t) (hdrop _)).trans ?_
      rw [scan_noSlash h fun text => hitRule_eq_none]
      · simp [maskedRoot]
      · intro hmem
        exact (List.mem_cons.mp hmem).elim (by decide) (slash_notMem_name hat.name)

theorem maskHashes_of_noHit (h : ∀ s, s <:+ text → hitRule dir s = none) :
    maskHashes dir text = text := by
  have hcopy : maskHashes dir text = scan (fun _ => none) text := by
    apply scan_eq_of_copy
    intro s hs
    rcases maskHashRule_cases dir s with heq | ⟨hcopy, -⟩
    · exact Or.inl (heq.trans (h s hs))
    · exact Or.inr ⟨_, hcopy, fun _ _ => rfl⟩
  rw [hcopy, scan_eq_self fun _ _ => rfl]

theorem hitRule_maskedRoot (name rest : Bytes) :
    hitRule dir (maskedRoot dir name ++ rest) = none := by
  have htext : maskedRoot dir name ++ rest =
      storePrefix dir ++ (chr '*' :: chr '-' :: name ++ rest) := by
    simp [maskedRoot, ascii, chr]
  rw [hitRule, htext, List.drop_left, if_neg]
  rw [Bool.and_eq_true, startsWithHash_iff]
  rintro ⟨-, hash, rest', hh, heq⟩
  exact isStoreHash_ne_star hh heq

/-- A root in a masked text that is not masked itself stood in the text before. -/
theorem not_starts_masked (h : StoreDir dir) {pat : Bytes} (hpat : RootLike dir pat)
    (hmask : ∀ name rest, ¬ pat <+: maskedRoot dir name ++ rest)
    (hbyte : ∀ c after, .byte c :: after <:+ tokens dir text →
      ¬ pat <+: c :: after.flatMap (Tok.spell (StoreRef.real dir))) {s : Bytes}
    (hs : s <:+ (tokens dir text).flatMap (Tok.spell (StoreRef.masked dir))) : ¬ pat <+: s := by
  have hroots := spellsRoots_masked dir text
  by_cases hne : s = []
  · rw [hne]
    intro hpre
    exact absurd (hpat.starts.trans hpre) (by simp [storePrefix, ascii])
  · obtain ⟨tok, after, k, hsuffix, hk, rfl⟩ := suffix_flatMap hs hne
    have hafter := hroots.of_suffix ((List.suffix_cons tok after).trans hsuffix)
    cases tok with
    | byte c =>
        cases Nat.lt_one_iff.mp hk
        exact fun hpre => hbyte c after hsuffix (root_at_byte h hpat hafter hpre)
    | ref r =>
        cases k with
        | zero => exact hmask r.name _
        | succ k =>
            intro hpre
            exact (hroots r (hsuffix.subset (.head _))).not_prefix_drop h (Nat.succ_pos k) hk _
              (hpat.starts.trans hpre)

/-- Masking a masked text changes nothing. -/
theorem maskHashes_masked (h : StoreDir dir) (text : Bytes) :
    maskHashes dir ((tokens dir text).flatMap (Tok.spell (StoreRef.masked dir))) =
      (tokens dir text).flatMap (Tok.spell (StoreRef.masked dir)) := by
  apply maskHashes_of_noHit
  intro s hs
  by_contra hsome
  obtain ⟨found, hfound⟩ := Option.ne_none_iff_exists'.mp hsome
  obtain ⟨hash, hh, hpre⟩ := of_hitRule hfound
  refine not_starts_masked h (rootLike_realRoot hh List.not_mem_nil) ?_ (fun c after hsuffix => ?_)
    hs hpre
  · rintro name rest ⟨tail, htail⟩
    have hnone := @hitRule_maskedRoot dir name rest
    rw [← htail, hitRule_realRoot hh] at hnone
    cases hnone
  · exact storeRef?_eq_none ((tokensOf dir text).byte c after hsuffix).2 hh

end Repkgs.Jig
