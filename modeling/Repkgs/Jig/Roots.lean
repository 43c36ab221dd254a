import Repkgs.Jig.Store

/-!
# Store roots and their masked names

A store root is `<dir>/<hash>-<name>`. `MaskHashes` forgets the hash of a root
and the map of the build that reads a masked path gives a hash back.
-/

namespace Repkgs.Jig

open Lib

variable {dir : Bytes}

/-- The root with this hash and name. -/
def realRoot (dir hash name : Bytes) : Bytes := storePrefix dir ++ hash ++ chr '-' :: name

/-- The masked root with this name. -/
def maskedRoot (dir name : Bytes) : Bytes := storePrefix dir ++ ascii "*" ++ chr '-' :: name

/-- Hash and name of the root a path begins with, and the rest of the path. -/
def splitRoot? (dir path : Bytes) : Option (Bytes × Bytes × Bytes) :=
  if (storePrefix dir).isPrefixOf path then
    let base := path.drop (storePrefix dir).length
    if startsWithHash base then
      let (name, rest) := cut (chr '/') (base.drop (storeHashLength + 1))
      some (base.take storeHashLength, name, rest)
    else none
  else none

theorem isStoreHash_length {h : Bytes} (hh : isStoreHash h = true) :
    h.length = storeHashLength := by
  rw [isStoreHash, Bool.and_eq_true] at hh
  exact beq_iff_eq.mp hh.1

theorem isStoreHash_ne_star {hash x y : Bytes} (hh : isStoreHash hash = true) :
    chr '*' :: x ≠ hash ++ y := by
  have hlen := isStoreHash_length hh
  cases hash with
  | nil => cases hlen
  | cons c hash =>
      intro heq
      rw [isStoreHash, Bool.and_eq_true, List.all_cons, Bool.and_eq_true] at hh
      rw [← (List.cons.inj heq).1] at hh
      exact absurd hh.2.1 (by decide)

variable {hash text path name rest : Bytes}

theorem slash_notMem_hash (hh : isStoreHash hash = true) : chr '/' ∉ hash := by
  rw [isStoreHash, Bool.and_eq_true] at hh
  intro hmem
  exact absurd (List.all_eq_true.mp hh.2 _ hmem) (by decide)

theorem startsWithHash_iff : startsWithHash text = true ↔
    ∃ hash rest, isStoreHash hash = true ∧ text = hash ++ chr '-' :: rest := by
  constructor
  · intro h
    rw [startsWithHash, Bool.and_eq_true, beq_iff_eq] at h
    exact ⟨_, _, h.2, eq_take_append_cons h.1⟩
  · rintro ⟨hash, rest, hh, rfl⟩
    rw [startsWithHash, ← isStoreHash_length hh, List.take_left, hh,
      List.getElem?_append_right (Nat.le_refl _), Nat.sub_self]
    rfl

theorem of_splitRoot? (h : splitRoot? dir path = some (hash, name, rest)) :
    path = realRoot dir hash name ++ rest ∧ isStoreHash hash = true ∧ chr '/' ∉ name ∧
      (rest = [] ∨ ∃ r, rest = chr '/' :: r) := by
  unfold splitRoot? at h
  split at h
  · next hpre =>
      obtain ⟨base, rfl⟩ := List.isPrefixOf_iff_prefix.mp hpre
      rw [List.drop_left] at h
      simp only at h
      split at h
      · next hbase =>
          obtain ⟨hash', tail, hh, rfl⟩ := startsWithHash_iff.mp hbase
          rw [← isStoreHash_length hh, List.take_left, List.drop_length_add_append] at h
          cases h
          refine ⟨?_, hh, notMem_cut_fst _ _, cut_snd _ _⟩
          simp [realRoot, cut_append]
      · cases h
  · cases h

theorem maskHashRule_eq_none (h : ¬ storePrefix dir <+: text) :
    maskHashRule dir text = none := by
  rw [maskHashRule, if_neg fun hpre => h (List.isPrefixOf_iff_prefix.mp hpre)]

theorem maskHashes_eq_self (h : ∀ s, s <:+ text → ¬ storePrefix dir <+: s) :
    maskHashes dir text = text :=
  scan_eq_self fun s hs => maskHashRule_eq_none (h s hs)

theorem slash_mem_storePrefix (dir : Bytes) : chr '/' ∈ storePrefix dir :=
  List.mem_append_right _ (.head _)

theorem maskHashes_of_notMem (h : chr '/' ∉ text) : maskHashes dir text = text := by
  apply maskHashes_eq_self
  intro s hs hpre
  exact h (hs.subset (hpre.subset (slash_mem_storePrefix dir)))

theorem maskHashes_hash (hh : isStoreHash hash = true) (text : Bytes) :
    maskHashes dir (storePrefix dir ++ hash ++ chr '-' :: text) =
      storePrefix dir ++ ascii "*" ++ maskHashes dir (chr '-' :: text) := by
  have hrule : maskHashRule dir (storePrefix dir ++ hash ++ chr '-' :: text) =
      some ((storePrefix dir).length + storeHashLength, storePrefix dir ++ ascii "*") := by
    rw [List.append_assoc]
    unfold maskHashRule
    rw [if_pos (List.isPrefixOf_iff_prefix.mpr (List.prefix_append _ _)), List.drop_left,
      if_pos (startsWithHash_iff.mpr ⟨hash, text, hh, rfl⟩)]
  refine (scan_of_some hrule (by simp)).trans ?_
  have hskip : (storePrefix dir).length + 31 + 1 = (storePrefix dir ++ hash).length := by
    rw [List.length_append, isStoreHash_length hh]
    rfl
  rw [hskip, List.drop_left]
  rfl

theorem maskHashes_realRoot (hh : isStoreHash hash = true) (hname : chr '/' ∉ name) :
    maskHashes dir (realRoot dir hash name) = maskedRoot dir name := by
  rw [realRoot, maskHashes_hash hh, maskHashes_of_notMem, maskedRoot]
  simpa [chr] using hname

theorem rootPart_front (n : Nat) (path : Bytes) : rootPart n path <+: path := by
  refine ⟨(cut (chr '/') (path.drop n)).2, ?_⟩
  rw [rootPart, List.append_assoc, cut_append, List.take_append_drop]

theorem rootPart_storePrefix (base : Bytes) :
    rootPart (dir.length + 1) (storePrefix dir ++ base) =
      storePrefix dir ++ (cut (chr '/') base).1 := by
  have hlen : dir.length + 1 = (storePrefix dir).length := by simp [storePrefix, ascii]
  rw [rootPart, hlen, List.take_left, List.drop_left]

theorem slash_notMem_drop_rootPart (n : Nat) (path : Bytes) :
    chr '/' ∉ (rootPart n path).drop n := by
  intro hmem
  rw [rootPart, List.drop_append, List.drop_of_length_le (List.length_take_le _ _)] at hmem
  exact notMem_cut_fst _ _ (List.mem_of_mem_drop hmem)

theorem rootPart_of_splitRoot? (h : splitRoot? dir path = some (hash, name, rest)) :
    rootPart (dir.length + 1) path = realRoot dir hash name := by
  obtain ⟨rfl, hh, hname, hrest⟩ := of_splitRoot? h
  have hpath : realRoot dir hash name ++ rest =
      storePrefix dir ++ ((hash ++ chr '-' :: name) ++ rest) := by simp [realRoot]
  have hslash : chr '/' ∉ hash ++ chr '-' :: name := by
    intro hmem
    rcases List.mem_append.mp hmem with hin | hin
    · exact slash_notMem_hash hh hin
    · rcases List.mem_cons.mp hin with heq | hin
      · exact absurd heq (by decide)
      · exact hname hin
  have hcut : (cut (chr '/') ((hash ++ chr '-' :: name) ++ rest)).1 = hash ++ chr '-' :: name := by
    rcases hrest with rfl | ⟨r, rfl⟩
    · rw [List.append_nil, cut_of_notMem hslash]
    · rw [cut_append_cons hslash]
  rw [hpath, rootPart_storePrefix, hcut, realRoot, List.append_assoc]

/-- What is no root is not masked. -/
theorem maskHashes_rootPart (h : splitRoot? dir path = none) :
    maskHashes dir (rootPart (dir.length + 1) path) = rootPart (dir.length + 1) path := by
  by_cases hpre : storePrefix dir <+: path
  · obtain ⟨base, rfl⟩ := hpre
    have hslash := notMem_cut_fst (chr '/') base
    have hbase : startsWithHash (cut (chr '/') base).1 = false := by
      rw [← Bool.not_eq_true, startsWithHash_iff]
      rintro ⟨hash, rest, hh, hrest⟩
      have hnot : ¬ startsWithHash base = true := by
        intro hstart
        rw [splitRoot?, if_pos (List.isPrefixOf_iff_prefix.mpr (List.prefix_append _ _)),
          List.drop_left] at h
        simp [hstart] at h
      apply hnot
      refine startsWithHash_iff.mpr ⟨hash, rest ++ (cut (chr '/') base).2, hh, ?_⟩
      rw [← List.cons_append, ← List.append_assoc, ← hrest, cut_append]
    rw [rootPart_storePrefix]
    generalize (cut (chr '/') base).1 = part at hslash hbase
    have hrule : maskHashRule dir (storePrefix dir ++ part) =
        some ((storePrefix dir).length + 1,
          (storePrefix dir ++ part).take ((storePrefix dir).length + 1)) := by
      unfold maskHashRule
      rw [if_pos (List.isPrefixOf_iff_prefix.mpr (List.prefix_append _ _)), List.drop_left]
      simp [hbase]
    refine (scan_of_some hrule (by simp [storePrefix, ascii])).trans ?_
    have hrest : maskHashes dir ((storePrefix dir ++ part).drop ((storePrefix dir).length + 1)) =
        (storePrefix dir ++ part).drop ((storePrefix dir).length + 1) := by
      apply maskHashes_of_notMem
      rw [List.drop_length_add_append]
      exact fun hmem => hslash (List.mem_of_mem_drop hmem)
    rw [maskHashes] at hrest
    rw [hrest, List.take_append_drop]
  · apply maskHashes_eq_self
    rintro s ⟨before, hs⟩ ⟨after, rfl⟩
    cases before with
    | nil =>
        apply hpre
        refine List.IsPrefix.trans ⟨after, ?_⟩ (rootPart_front (dir.length + 1) path)
        exact hs
    | cons c cs =>
        apply slash_notMem_drop_rootPart (dir.length + 1) path
        have hin : (c :: cs) ++ (storePrefix dir ++ after) =
            (c :: cs ++ dir) ++ chr '/' :: after := by
          simp [storePrefix, ascii, chr]
        rw [← hs, hin, List.drop_append_of_le_length (by simp)]
        exact List.mem_append_right _ (.head _)

/-- The root of a list with this name, the first one if there are more. -/
def root? (dir : Bytes) (roots : List Bytes) (name : Bytes) : Option Bytes :=
  roots.findSome? fun root =>
    match splitRoot? dir root with
    | some (hash, n, _) => if n = name then some (realRoot dir hash name) else none
    | none => none

theorem maskedRoot_inj {name name' : Bytes} (h : maskedRoot dir name = maskedRoot dir name') :
    name = name' :=
  (List.cons.inj (List.append_cancel_left h)).2

theorem lookup_addRoot (m : Map Bytes Bytes) (root name : Bytes) :
    (addRoot dir m root).lookup (maskedRoot dir name) =
      (m.lookup (maskedRoot dir name)).or (root? dir [root] name) := by
  unfold addRoot
  cases hroot : splitRoot? dir root with
  | none => simp [maskHashes_rootPart hroot, root?, hroot]
  | some found =>
      obtain ⟨hash, n, rest⟩ := found
      obtain ⟨-, hh, hn, -⟩ := of_splitRoot? hroot
      have hne : maskedRoot dir n ≠ realRoot dir hash n := by
        intro heq
        have hlen := congrArg List.length heq
        simp [maskedRoot, realRoot, ascii, isStoreHash_length hh, storeHashLength] at hlen
        omega
      simp only [rootPart_of_splitRoot? hroot, maskHashes_realRoot hh hn, if_neg hne,
        Map.lookup_emplace, root?, hroot, List.findSome?_cons, List.findSome?_nil]
      by_cases hname : n = name
      · subst hname
        simp
      · have hkey : maskedRoot dir name ≠ maskedRoot dir n :=
          fun heq => hname (maskedRoot_inj heq).symm
        simp [hname, hkey]

theorem lookup_addRoots (m : Map Bytes Bytes) (roots : List Bytes) (name : Bytes) :
    (roots.foldl (addRoot dir) m).lookup (maskedRoot dir name) =
      (m.lookup (maskedRoot dir name)).or (root? dir roots name) := by
  induction roots generalizing m with
  | nil => simp [root?]
  | cons r rs ih =>
      rw [List.foldl_cons, ih, lookup_addRoot, Option.or_assoc]
      congr 1
      simp only [root?, List.findSome?_cons, List.findSome?_nil]
      split <;> simp_all

/-- Where a build with these roots has the file that another build calls `path`:
below its own root of the same name, or at the same path. -/
def locate (dir : Bytes) (roots : List Bytes) (path : Bytes) : Option Bytes :=
  match splitRoot? dir path with
  | some (_, name, rest) => (root? dir roots name).map (· ++ rest)
  | none => some path

theorem isStorePath_of_front (h : storePrefix dir <+: path) :
    isStorePath dir path = true := by
  obtain ⟨rest, rfl⟩ := h
  have hpath : storePrefix dir ++ rest = dir ++ chr '/' :: rest := by simp [storePrefix, ascii, chr]
  rw [isStorePath, hpath, List.getElem?_append_right (Nat.le_refl _), Nat.sub_self,
    List.isPrefixOf_iff_prefix.mpr (List.prefix_append _ _)]
  rfl

theorem of_root? {roots : List Bytes} {name root : Bytes} (h : root? dir roots name = some root) :
    ∃ hash, root = realRoot dir hash name := by
  obtain ⟨r, -, hr⟩ := List.exists_of_findSome?_eq_some h
  split at hr
  · next hash n rest hroot =>
      split at hr
      · exact ⟨hash, (Option.some.inj hr).symm⟩
      · cases hr
  · cases hr

/-- A store path stays one in every build. -/
theorem isStorePath_locate {roots : List Bytes} {path q : Bytes} (h : isStorePath dir path = true)
    (hq : locate dir roots path = some q) : isStorePath dir q = true := by
  unfold locate at hq
  split at hq
  · obtain ⟨root, hroot, rfl⟩ := Option.map_eq_some_iff.mp hq
    obtain ⟨hash, rfl⟩ := of_root? hroot
    apply isStorePath_of_front
    simp [realRoot]
  · cases hq
    exact h

theorem locate_nil (roots : List Bytes) : locate dir roots [] = some [] := by
  have hno : (storePrefix dir).isPrefixOf [] = false := by
    cases dir <;> simp [storePrefix, ascii]
  simp [locate, splitRoot?, hno]

/-- The path with the hash of its root masked and nothing else. -/
def maskRoot (dir path : Bytes) : Bytes :=
  match splitRoot? dir path with
  | some (_, name, rest) => maskedRoot dir name ++ rest
  | none => path

theorem resolve_maskedRoot (s : Store) (hname : chr '/' ∉ name)
    (hrest : rest = [] ∨ ∃ r, rest = chr '/' :: r) :
    s.resolve (maskedRoot s.dir name ++ rest) =
      (s.maskedToReal.lookup (maskedRoot s.dir name)).map (· ++ rest) := by
  have hhead : maskedRoot s.dir name ++ rest = (s.dir ++ ascii "/*-") ++ (name ++ rest) := by
    simp [maskedRoot, storePrefix, ascii, chr]
  have hlen : s.dir.length + 3 = (s.dir ++ ascii "/*-").length := by simp [ascii]
  have hcut : (cut (chr '/') (name ++ rest)).1 = name := by
    rcases hrest with rfl | ⟨r, rfl⟩
    · rw [List.append_nil, cut_of_notMem hname]
    · rw [cut_append_cons hname]
  have hpart : rootPart (s.dir.length + 3) (maskedRoot s.dir name ++ rest) =
      maskedRoot s.dir name := by
    rw [rootPart, hhead, hlen, List.take_left, List.drop_left, hcut]
    simp [maskedRoot, storePrefix, ascii, chr]
  have hpre : (s.dir ++ ascii "/*-").isPrefixOf (maskedRoot s.dir name ++ rest) = true := by
    rw [hhead]
    exact List.isPrefixOf_iff_prefix.mpr (List.prefix_append _ _)
  rw [Store.resolve, hpre]
  simp only [Bool.not_true, Bool.false_eq_true, if_false]
  rw [hpart, List.drop_left]

/-- The roots of a build in the order the constructor of `Store` adds them. -/
def buildRoots (out storeRoots : Bytes) : List Bytes := split storeRoots (chr ' ') ++ [out]

/-- A path of which only the root is masked is found where the build has it. -/
theorem resolve_maskRoot (out storeRoots : Bytes) (hplain : ¬ (dir ++ ascii "/*-") <+: path) :
    (Store.make dir true out storeRoots).resolve (maskRoot dir path) =
      locate dir (buildRoots out storeRoots) path := by
  unfold maskRoot locate
  cases hroot : splitRoot? dir path with
  | none =>
      have hno : (dir ++ ascii "/*-").isPrefixOf path = false := by
        rw [← Bool.not_eq_true, List.isPrefixOf_iff_prefix]
        exact hplain
      simp [Store.resolve, Store.make, hno]
  | some found =>
      obtain ⟨hash, name, rest⟩ := found
      obtain ⟨-, -, hname, hrest⟩ := of_splitRoot? hroot
      have hmap := @lookup_addRoots dir ∅ (split storeRoots (chr ' ') ++ [out]) name
      rw [AList.lookup_empty, Option.none_or] at hmap
      refine (resolve_maskedRoot (Store.make dir true out storeRoots) hname hrest).trans ?_
      exact congrArg (Option.map (· ++ rest)) hmap

def nixStore : Bytes := ascii "/nix/store"

/-- A store root for `zlib` whose hash is made of one letter. -/
def zlib (letter : Char) : Bytes :=
  realRoot nixStore (List.replicate storeHashLength (chr letter)) (ascii "zlib")

end Repkgs.Jig
