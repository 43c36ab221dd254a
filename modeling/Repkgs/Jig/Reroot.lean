import Repkgs.Jig.StoreRefs

/-!
# Store paths of another build

A text that is replayed in another build has its store hashes masked when it is
stored and gets the hashes of the reading build back (`MaskHashes`, `ResolveAll`).
The two scans disagree about where a root ends: masking looks at the hash only,
resolving accepts a root before a slash or one of `kPathEnds`, and a path may be
followed by other characters that no store name contains.
-/

namespace Repkgs.Jig

open Lib

variable {dir : Bytes}

/-- `resolveRule` without what it only copies. -/
def closedRule (masked real : Bytes) : Rule Byte := fun text =>
  if masked.isPrefixOf text && closesRoot (text.drop masked.length) then some (masked.length, real)
  else none

variable {name real text rest hash : Bytes} {done : List (Bytes × Bytes)} {r : StoreRef}
  {roots : List Bytes}

theorem closedRule_eq_none (h : ¬ storePrefix dir <+: text) :
    closedRule (maskedRoot dir name) real text = none := by
  rw [closedRule, if_neg]
  rw [Bool.and_eq_true, List.isPrefixOf_iff_prefix]
  intro hboth
  refine h (List.IsPrefix.trans ?_ hboth.1)
  rw [maskedRoot, List.append_assoc]
  exact List.prefix_append _ _

theorem scan_resolveRule (h : StoreDir dir) (hname : chr '/' ∉ name) (real text : Bytes) :
    scan (resolveRule (maskedRoot dir name) real) text =
      scan (closedRule (maskedRoot dir name) real) text := by
  apply scan_eq_of_copy
  intro s hs
  unfold resolveRule
  by_cases hpre : (maskedRoot dir name).isPrefixOf s = true
  · obtain ⟨rest, rfl⟩ := List.isPrefixOf_iff_prefix.mp hpre
    rw [if_pos hpre, List.drop_left]
    cases hclosed : closesRoot rest with
    | true =>
        refine Or.inl ?_
        rw [closedRule, hpre, List.drop_left, hclosed]
        rfl
    | false =>
        obtain ⟨n, hn⟩ : ∃ n, (maskedRoot dir name).length = n + 1 :=
          Nat.exists_eq_succ_of_ne_zero (by simp [maskedRoot])
        refine Or.inr ⟨n, by rw [← hn, List.take_left]; rfl, fun i hi => ?_⟩
        cases i with
        | zero => rw [List.drop_zero, closedRule, hpre, List.drop_left, hclosed]; rfl
        | succ i =>
            apply closedRule_eq_none
            exact (rootLike_maskedRoot hname).not_prefix_drop h (Nat.succ_pos i) (by omega) rest
  · refine Or.inl ?_
    rw [if_neg hpre, closedRule, if_neg]
    rw [Bool.and_eq_true]
    exact fun hboth => hpre hboth.1

/-- An entry of `masked_to_real_`. -/
def RootEntry (dir : Bytes) (entry : Bytes × Bytes) : Prop :=
  ∃ hash name, isStoreHash hash = true ∧ name.all isNameChar = true ∧
    entry = (maskedRoot dir name, realRoot dir hash name)

/-- The reference after the roots in `done` were resolved. -/
def StoreRef.resolved (dir : Bytes) (done : List (Bytes × Bytes)) (r : StoreRef) : Bytes :=
  if r.closed then (done.lookup (r.masked dir)).getD (r.masked dir) else r.masked dir

theorem StoreRef.resolved_cases (hdone : ∀ e ∈ done, RootEntry dir e) (r : StoreRef) :
    (r.closed = true ∧ ∃ hash, isStoreHash hash = true ∧
      done.lookup (r.masked dir) = some (realRoot dir hash r.name) ∧
      r.resolved dir done = realRoot dir hash r.name) ∨
    ((r.closed = true → done.lookup (r.masked dir) = none) ∧
      r.resolved dir done = r.masked dir) := by
  unfold resolved
  cases hclosed : r.closed with
  | false => exact Or.inr ⟨nofun, rfl⟩
  | true =>
      cases hlook : done.lookup (r.masked dir) with
      | none => exact Or.inr ⟨fun _ => rfl, rfl⟩
      | some real =>
          obtain ⟨l₁, l₂, hl, -⟩ := List.lookup_eq_some_iff.mp hlook
          obtain ⟨hash, name, hh, -, heq⟩ := hdone (r.masked dir, real) (by simp [hl])
          cases maskedRoot_inj (congrArg Prod.fst heq)
          cases congrArg Prod.snd heq
          exact Or.inl ⟨rfl, hash, hh, rfl, rfl⟩

theorem spellsRoots_resolved (hdone : ∀ e ∈ done, RootEntry dir e) (text : Bytes) :
    SpellsRoots dir (StoreRef.resolved dir done) (tokens dir text) := by
  intro r hr
  obtain ⟨rest, -, href⟩ := mem_tokens hr
  have hat := RefAt.of_storeRef? href
  rcases r.resolved_cases hdone with ⟨-, hash, hh, -, heq⟩ | ⟨-, heq⟩
  · rw [heq]
    exact rootLike_realRoot hh (slash_notMem_name hat.name)
  · rw [heq]
    exact rootLike_maskedRoot (slash_notMem_name hat.name)

/-- The first byte of a text does not depend on the spelling of its references. -/
theorem head?_flatMap_spell (h : StoreDir dir) {root : StoreRef → Bytes} {toks : List Tok}
    (hroot : SpellsRoots dir root toks) : (toks.flatMap (Tok.spell root)).head? =
      toks.head?.map fun tok => match tok with | .byte c => c | .ref _ => chr '/' := by
  cases toks with
  | nil => rfl
  | cons tok toks =>
      cases tok with
      | byte c => rfl
      | ref r =>
          obtain ⟨base, hbase, -⟩ := (hroot r (.head _)).spelled
          rw [List.flatMap_cons, List.head?_append, Tok.spell, hbase, List.head?_append,
            h.head_storePrefix]
          rfl

theorem closesRoot_eq_of_head? {x y : Bytes} (h : x.head? = y.head?) :
    closesRoot x = closesRoot y := by
  cases x <;> cases y <;> simp_all [closesRoot]

theorem isNameChar_of_closesRoot {c : Byte} (h : closesRoot (c :: rest) = true) :
    isNameChar c = false := by
  have hends : (chr '/' :: pathEnds).all (fun d => !isNameChar d) = true := by decide
  rw [← Bool.not_eq_true']
  apply List.all_eq_true.mp hends
  simpa [closesRoot, List.contains_iff_mem] using h

/-- A name is cut off at the first character that no name contains. -/
theorem takeWhile_name (hname : name.all isNameChar = true)
    (hrest : ∀ c, rest.head? = some c → isNameChar c = false) :
    (name ++ rest).takeWhile isNameChar = name := by
  rw [List.takeWhile_append_of_pos (List.all_eq_true.mp hname)]
  cases rest with
  | nil => exact List.append_nil _
  | cons c rest => rw [List.takeWhile_cons_of_neg (by simp [hrest c rfl]), List.append_nil]

/-- A whole masked root in front of a reference is that reference. -/
theorem name_eq_of_closedRule (hname : name.all isNameChar = true)
    (hr : r.name.all isNameChar = true) (hends : ∀ c, rest.head? = some c → isNameChar c = false)
    (h : closedRule (maskedRoot dir name) real (r.masked dir ++ rest) ≠ none) :
    name = r.name ∧ closesRoot rest = true := by
  unfold closedRule at h
  split at h
  · next hboth =>
      rw [Bool.and_eq_true, List.isPrefixOf_iff_prefix] at hboth
      obtain ⟨⟨rest', hrest'⟩, hclosed⟩ := hboth
      rw [← hrest', List.drop_left] at hclosed
      have htext : name ++ rest' = r.name ++ rest := by
        simp only [StoreRef.masked, maskedRoot, List.append_assoc, List.cons_append] at hrest'
        exact (List.cons.inj (List.append_cancel_left (List.append_cancel_left hrest'))).2
      have hends' : ∀ c, rest'.head? = some c → isNameChar c = false := by
        intro c hc
        cases rest' with
        | nil => cases hc
        | cons d rest' =>
            cases hc
            exact isNameChar_of_closesRoot hclosed
      have heq : name = r.name := by
        rw [← takeWhile_name hname hends', htext, takeWhile_name hr hends]
      subst heq
      exact ⟨rfl, List.append_cancel_left htext ▸ hclosed⟩
  · exact absurd rfl h

theorem maskedRoot_append_ne {hash name name' x y : Bytes} (hh : isStoreHash hash = true) :
    maskedRoot dir name ++ x ≠ realRoot dir hash name' ++ y := by
  intro heq
  simp only [maskedRoot, realRoot, List.append_assoc] at heq
  exact isStoreHash_ne_star hh (List.append_cancel_left heq)

theorem closedRule_realRoot {hash name name' real rest : Bytes} (hh : isStoreHash hash = true) :
    closedRule (maskedRoot dir name) real (realRoot dir hash name' ++ rest) = none := by
  rw [closedRule, if_neg]
  rw [Bool.and_eq_true, List.isPrefixOf_iff_prefix]
  rintro ⟨⟨tail, htail⟩, -⟩
  exact maskedRoot_append_ne hh htail

theorem closedRule_masked (h : closesRoot rest = true) :
    closedRule (maskedRoot dir name) real (maskedRoot dir name ++ rest) =
      some ((maskedRoot dir name).length, real) := by
  rw [closedRule, List.drop_left, h, List.isPrefixOf_iff_prefix.mpr (List.prefix_append _ _)]
  rfl

/-- One root is resolved: its whole occurrences get the hash of this build. -/
theorem scan_closedRule (h : StoreDir dir) (hplain : Unmasked dir text)
    (hdone : ∀ e ∈ done, RootEntry dir e) (hname : name.all isNameChar = true)
    (hnew : done.lookup (maskedRoot dir name) = none) :
    scan (closedRule (maskedRoot dir name) (realRoot dir hash name))
        ((tokens dir text).flatMap (Tok.spell (StoreRef.resolved dir done))) =
      (tokens dir text).flatMap
        (Tok.spell (StoreRef.resolved dir (done ++
          [(maskedRoot dir name, realRoot dir hash name)]))) := by
  have htoks := tokensOf dir text
  have hroots := spellsRoots_resolved hdone text
  apply scan_flatMap
  intro tok after hs
  have hafter := hroots.of_suffix ((List.suffix_cons tok after).trans hs)
  have hreal := (spellsRoots_real dir text).of_suffix ((List.suffix_cons tok after).trans hs)
  have hhead : (after.flatMap (Tok.spell (StoreRef.resolved dir done))).head? =
      (after.flatMap (Tok.spell (StoreRef.real dir))).head? := by
    rw [head?_flatMap_spell h hafter, head?_flatMap_spell h hreal]
  cases tok with
  | byte c =>
      apply scan_cons_of_none
      by_contra hsome
      have hpre : maskedRoot dir [] <+:
          c :: after.flatMap (Tok.spell (StoreRef.resolved dir done)) := by
        unfold closedRule at hsome
        split at hsome
        · next hboth =>
            rw [Bool.and_eq_true, List.isPrefixOf_iff_prefix] at hboth
            exact List.IsPrefix.trans ⟨name, by simp [maskedRoot]⟩ hboth.1
        · exact absurd rfl hsome
      refine hplain _ (htoks.byte c after hs).1 ?_
      have hin : maskedRoot dir [] <+: c :: after.flatMap (Tok.spell (StoreRef.real dir)) :=
        root_at_byte h (rootLike_maskedRoot List.not_mem_nil) hafter hpre
      simpa [maskedRoot, storePrefix, ascii, chr] using hin
  | ref r =>
      have hat := htoks.refAt hs
      have hrootLike := hroots r (hs.subset (.head _))
      have hends : ∀ c, (after.flatMap (Tok.spell (StoreRef.resolved dir done))).head? = some c →
          isNameChar c = false := by
        rw [hhead]
        exact hat.ends
      change scan _ (r.resolved dir done ++ _) = r.resolved dir (done ++ _) ++ _
      rcases r.resolved_cases hdone with ⟨hclosed, hash', hh', hlook, heq⟩ | ⟨hlook, heq⟩
      · -- resolved earlier
        have hsame : r.resolved dir (done ++ [(maskedRoot dir name, realRoot dir hash name)]) =
            r.resolved dir done := by
          rw [StoreRef.resolved, StoreRef.resolved, List.lookup_append, hlook, Option.some_or]
        rw [hsame]
        refine scan_root h (fun text => closedRule_eq_none) hrootLike ?_
        rw [heq]
        exact closedRule_realRoot hh'
      · by_cases hmatch : name = r.name ∧ r.closed = true
        · obtain ⟨rfl, hclosed⟩ := hmatch
          have hnow : r.resolved dir (done ++ [(maskedRoot dir r.name, realRoot dir hash r.name)]) =
              realRoot dir hash r.name := by
            rw [StoreRef.resolved, if_pos hclosed, List.lookup_append, hlook hclosed,
              Option.none_or]
            simp [StoreRef.masked]
          rw [hnow, heq]
          refine scan_append_of_some (by simp [StoreRef.masked, maskedRoot]) (closedRule_masked ?_)
          rw [closesRoot_eq_of_head? hhead, ← hat.closed, hclosed]
        · have hsame : r.resolved dir (done ++ [(maskedRoot dir name, realRoot dir hash name)]) =
              r.resolved dir done := by
            cases hclosed : r.closed with
            | false => rw [StoreRef.resolved, StoreRef.resolved, hclosed]; rfl
            | true =>
                have hne : (r.masked dir == maskedRoot dir name) = false :=
                  beq_false_of_ne fun hkey => hmatch ⟨(maskedRoot_inj hkey).symm, hclosed⟩
                rw [StoreRef.resolved, StoreRef.resolved, List.lookup_append, List.lookup_cons, hne,
                  List.lookup_nil, Option.or_none]
          rw [hsame]
          refine scan_root h (fun text => closedRule_eq_none) hrootLike ?_
          by_contra hsome
          rw [heq] at hsome
          obtain ⟨hn, hclosed⟩ := name_eq_of_closedRule hname hat.name hends hsome
          rw [closesRoot_eq_of_head? hhead, ← hat.closed] at hclosed
          exact hmatch ⟨hn, hclosed⟩

theorem resolveAll_masked (h : StoreDir dir) (hplain : Unmasked dir text)
    (order done : List (Bytes × Bytes)) (hentry : ∀ e ∈ done ++ order, RootEntry dir e)
    (hnodup : ((done ++ order).map Prod.fst).Nodup) :
    order.foldl (fun t root => scan (resolveRule root.1 root.2) t)
        ((tokens dir text).flatMap (Tok.spell (StoreRef.resolved dir done))) =
      (tokens dir text).flatMap (Tok.spell (StoreRef.resolved dir (done ++ order))) := by
  induction order generalizing done with
  | nil => rw [List.append_nil]; rfl
  | cons e order ih =>
      obtain ⟨hash, name, -, hname, rfl⟩ := hentry e (by simp)
      have hnew : done.lookup (maskedRoot dir name) = none := by
        rw [List.lookup_eq_none_iff]
        intro p hp
        rw [List.map_append, List.nodup_append] at hnodup
        have hne := hnodup.2.2 p.1 (List.mem_map_of_mem hp) (maskedRoot dir name) (by simp)
        simpa using hne.symm
      rw [List.foldl_cons, scan_resolveRule h (slash_notMem_name hname),
        scan_closedRule h hplain (fun e' he' => hentry e' (List.mem_append_left _ he')) hname hnew]
      have hstep := ih (done ++ [(maskedRoot dir name, realRoot dir hash name)])
      rw [List.append_assoc, List.singleton_append] at hstep
      exact hstep hentry hnodup

/-- The list of roots holds this one. -/
def HasRoot (dir : Bytes) (roots : List Bytes) (hash name : Bytes) : Prop :=
  ∃ root ∈ roots, ∃ rest, splitRoot? dir root = some (hash, name, rest)

/-- The names of the roots consist of characters that store names have. -/
def ValidNames (dir : Bytes) (roots : List Bytes) : Prop :=
  ∀ hash name, HasRoot dir roots hash name → name.all isNameChar = true

/-- No two roots have the same masked name. -/
def DistinctNames (dir : Bytes) (roots : List Bytes) : Prop :=
  ∀ hash hash' name, HasRoot dir roots hash name → HasRoot dir roots hash' name → hash = hash'

theorem root?_eq_some {name root : Bytes} (h : root? dir roots name = some root) :
    ∃ hash, HasRoot dir roots hash name ∧ root = realRoot dir hash name := by
  obtain ⟨r, hr, hfound⟩ := List.exists_of_findSome?_eq_some h
  split at hfound
  · next hash n rest hroot =>
      split at hfound
      · next hn =>
          subst hn
          exact ⟨hash, ⟨r, hr, rest, hroot⟩, (Option.some.inj hfound).symm⟩
      · cases hfound
  · cases hfound

theorem root?_isSome (h : HasRoot dir roots hash name) :
    ∃ root, root? dir roots name = some root := by
  obtain ⟨r, hr, rest, hroot⟩ := h
  rw [← Option.isSome_iff_exists, root?, List.findSome?_isSome_iff]
  exact ⟨r, hr, by simp [hroot]⟩

theorem HasRoot.isStoreHash (h : HasRoot dir roots hash name) :
    isStoreHash hash = true := by
  obtain ⟨r, -, rest, hroot⟩ := h
  exact (of_splitRoot? hroot).2.1

/-- The keys of the map are masked roots. -/
theorem lookup_addRoots_key (roots : List Bytes) (m : Map Bytes Bytes) {key real : Bytes}
    (hm : ∀ k r, m.lookup k = some r → ∃ name, k = maskedRoot dir name)
    (h : (roots.foldl (addRoot dir) m).lookup key = some real) :
    ∃ name, key = maskedRoot dir name := by
  induction roots generalizing m with
  | nil => exact hm key real h
  | cons root roots ih =>
      refine ih (addRoot dir m root) (fun k r hk => ?_) h
      unfold addRoot at hk
      cases hroot : splitRoot? dir root with
      | none =>
          simp only [maskHashes_rootPart hroot, if_true] at hk
          exact hm k r hk
      | some found =>
          obtain ⟨hash, n, rest⟩ := found
          obtain ⟨-, hh, hn, -⟩ := of_splitRoot? hroot
          simp only [rootPart_of_splitRoot? hroot, maskHashes_realRoot hh hn] at hk
          split at hk
          · exact hm k r hk
          · by_cases hkey : k = maskedRoot dir n
            · exact ⟨n, hkey⟩
            · rw [Map.lookup_emplace, if_neg hkey, Option.or_none] at hk
              exact hm k r hk

theorem lookup_make (dir out storeRoots name : Bytes) :
    (Store.make dir true out storeRoots).maskedToReal.lookup (maskedRoot dir name) =
      root? dir (buildRoots out storeRoots) name := by
  have hmap := @lookup_addRoots dir ∅ (buildRoots out storeRoots) name
  rw [AList.lookup_empty, Option.none_or] at hmap
  exact hmap

theorem rootEntry_of_iterates {out storeRoots : Bytes} {order : List (Bytes × Bytes)}
    (hvalid : ValidNames dir (buildRoots out storeRoots))
    (horder : (Store.make dir true out storeRoots).Iterates order) {e : Bytes × Bytes}
    (he : e ∈ order) : RootEntry dir e := by
  have hlook := (horder.2 e.1 e.2).mp he
  obtain ⟨name, hname⟩ := lookup_addRoots_key (buildRoots out storeRoots) ∅
    (fun k r hk => absurd hk (by rw [AList.lookup_empty]; nofun)) hlook
  rw [hname, lookup_make] at hlook
  obtain ⟨hash, hroot, hreal⟩ := root?_eq_some hlook
  exact ⟨hash, name, hroot.isStoreHash, hvalid hash name hroot, Prod.ext hname hreal⟩

theorem lookup_of_iterates {s : Store} {order : List (Bytes × Bytes)} (h : s.Iterates order)
    (key : Bytes) : order.lookup key = s.maskedToReal.lookup key := by
  apply Option.ext
  intro real
  rw [← h.2 key real]
  constructor
  · intro hlook
    obtain ⟨l₁, l₂, hl, -⟩ := List.lookup_eq_some_iff.mp hlook
    simp [hl]
  · intro hmem
    obtain ⟨l₁, l₂, rfl⟩ := List.append_of_mem hmem
    refine List.lookup_eq_some_iff.mpr ⟨l₁, l₂, rfl, fun p hp => ?_⟩
    have hnodup := h.1
    rw [List.map_append, List.nodup_append] at hnodup
    have hne := hnodup.2.2 p.1 (List.mem_map_of_mem hp) key (by simp)
    simpa using hne.symm

/-- Replace every store root of the text by the root with its name in another build. -/
def rerootRule (dir : Bytes) (roots : List Bytes) : Rule Byte := fun text =>
  (storeRef? dir text).map fun ref =>
    let root := realRoot dir ref.hash ref.name
    (root.length, (root? dir roots ref.name).getD root)

def reroot (dir : Bytes) (roots : List Bytes) (text : Bytes) : Bytes :=
  scan (rerootRule dir roots) text

/-- The text refers to this store root. -/
def Refers (dir text : Bytes) (r : StoreRef) : Prop := ∃ s, s <:+ text ∧ storeRef? dir s = some r

theorem storeRef?_starts (h : storeRef? dir text = some r) :
    storePrefix dir <+: text := by
  obtain ⟨rest, rfl, -⟩ := storeRef?_eq_some h
  simp [realRoot]

/-- The references behind some place between tokens. -/
theorem refers_iff_mem_of_suffix (h : StoreDir dir) {toks : List Tok}
    (hin : toks <:+ tokens dir text) :
    Refers dir (toks.flatMap (Tok.spell (StoreRef.real dir))) r ↔ .ref r ∈ toks := by
  have htoks := tokensOf dir text
  constructor
  · rintro ⟨s, hs, hr⟩
    have hne : s ≠ [] := by
      rintro rfl
      simp [storeRef?, storePrefix, ascii] at hr
    obtain ⟨tok, after, k, hsuffix, hk, rfl⟩ := suffix_flatMap hs hne
    have hmem : tok ∈ toks := hsuffix.subset (.head _)
    cases tok with
    | byte c =>
        cases Nat.lt_one_iff.mp hk
        cases (htoks.byte c after (hsuffix.trans hin)).2.symm.trans hr
    | ref r' =>
        cases k with
        | zero =>
            cases (htoks.ref r' after (hsuffix.trans hin)).2.symm.trans hr
            exact hmem
        | succ k =>
            exact absurd (storeRef?_starts hr)
              ((spellsRoots_real dir text r' (hin.subset hmem)).not_prefix_drop h (Nat.succ_pos k)
                hk _)
  · intro hmem
    obtain ⟨before, after, rfl⟩ := List.append_of_mem hmem
    have hsuffix := List.suffix_append before (.ref r :: after)
    refine ⟨_, ?_, (htoks.ref r after (hsuffix.trans hin)).2⟩
    rw [List.flatMap_append]
    exact List.suffix_append _ _

theorem refers_iff_mem_tokens (h : StoreDir dir) :
    Refers dir text r ↔ .ref r ∈ tokens dir text := by
  rw [← refers_iff_mem_of_suffix h (List.suffix_refl _), (tokensOf dir text).spelled]

/-- The text with every root replaced. -/
theorem reroot_eq (dir text : Bytes) (roots : List Bytes) : reroot dir roots text =
    (tokens dir text).flatMap (Tok.spell fun r => (root? dir roots r.name).getD (r.real dir)) := by
  have htoks := tokensOf dir text
  unfold reroot
  nth_rewrite 1 [← htoks.spelled]
  apply scan_flatMap
  intro tok after hs
  cases tok with
  | byte c =>
      apply scan_cons_of_none
      exact congrArg (Option.map _) (htoks.byte c after hs).2
  | ref r =>
      refine scan_append_of_some (by simp [Tok.spell, StoreRef.real, realRoot]) ?_
      change rerootRule dir roots (r.real dir ++ _) = _
      rw [rerootRule, (htoks.ref r after hs).2]
      rfl

/-- Masked references get the hashes of the reading build. -/
theorem resolveAll_make (hdir : StoreDir dir) {out storeRoots : Bytes}
    (hvalid : ValidNames dir (buildRoots out storeRoots)) (hplain : Unmasked dir text)
    {order : List (Bytes × Bytes)} (horder : (Store.make dir true out storeRoots).Iterates order) :
    (Store.make dir true out storeRoots).resolveAll order
        ((tokens dir text).flatMap (Tok.spell (StoreRef.masked dir))) =
      (tokens dir text).flatMap (Tok.spell (StoreRef.resolved dir order)) := by
  have hentry : ∀ e ∈ order, RootEntry dir e := fun e he => rootEntry_of_iterates hvalid horder he
  have hfirst : StoreRef.masked dir = StoreRef.resolved dir [] := by
    funext r
    simp [StoreRef.resolved]
  unfold Store.resolveAll
  change order.foldl _ (maskHashes dir _) = _
  rw [maskHashes_masked hdir, hfirst]
  exact resolveAll_masked hdir hplain order [] hentry horder.1

/-- The text of one build, replayed in another with roots of the same names, is
re-rooted exactly if every store root in it is followed by the end, a slash or one
of `kPathEnds`. In the same build re-rooting changes nothing. -/
theorem resolveAll_maskHashes_iff (hdir : StoreDir dir) {out₁ storeRoots₁ out₂ storeRoots₂ : Bytes}
    (hvalid : ValidNames dir (buildRoots out₂ storeRoots₂))
    (hdistinct : DistinctNames dir (buildRoots out₁ storeRoots₁))
    (hnames : ∀ name, (∃ hash, HasRoot dir (buildRoots out₁ storeRoots₁) hash name) ↔
      ∃ hash, HasRoot dir (buildRoots out₂ storeRoots₂) hash name)
    {text : Bytes} (hspread : Spread dir text) (hplain : Unmasked dir text)
    (hrefs : ∀ r, Refers dir text r → HasRoot dir (buildRoots out₁ storeRoots₁) r.hash r.name)
    {order : List (Bytes × Bytes)}
    (horder : (Store.make dir true out₂ storeRoots₂).Iterates order) :
    ((Store.make dir true out₂ storeRoots₂).resolveAll order (maskHashes dir text) =
        reroot dir (buildRoots out₂ storeRoots₂) text ↔
      ∀ r, Refers dir text r → r.closed = true) ∧
    reroot dir (buildRoots out₁ storeRoots₁) text = text := by
  have hresolve : (Store.make dir true out₂ storeRoots₂).resolveAll order (maskHashes dir text) =
      (tokens dir text).flatMap (Tok.spell (StoreRef.resolved dir order)) := by
    rw [maskHashes_eq_masked hdir hspread]
    exact resolveAll_make hdir hvalid hplain horder
  have href : ∀ r, .ref r ∈ tokens dir text →
      HasRoot dir (buildRoots out₁ storeRoots₁) r.hash r.name :=
    fun r hr => hrefs r ((refers_iff_mem_tokens hdir).mpr hr)
  -- the root of the reading build for each reference
  have htarget : ∀ r, .ref r ∈ tokens dir text → ∃ hash, isStoreHash hash = true ∧
      root? dir (buildRoots out₂ storeRoots₂) r.name = some (realRoot dir hash r.name) ∧
      r.resolved dir order = if r.closed then realRoot dir hash r.name else r.masked dir := by
    intro r hr
    obtain ⟨hash₂, hroot₂⟩ := (hnames r.name).mp ⟨r.hash, href r hr⟩
    obtain ⟨root, hroot⟩ := root?_isSome hroot₂
    obtain ⟨hash, hhas, rfl⟩ := root?_eq_some hroot
    refine ⟨hash, hhas.isStoreHash, hroot, ?_⟩
    rw [StoreRef.resolved, lookup_of_iterates horder, StoreRef.masked, lookup_make, hroot,
      Option.getD_some]
  rw [hresolve, reroot_eq, reroot_eq]
  refine ⟨⟨fun heq r hr => ?_, fun hclosed => ?_⟩, ?_⟩
  · have hmem := (refers_iff_mem_tokens hdir).mp hr
    have hsame : r.resolved dir order =
        (root? dir (buildRoots out₂ storeRoots₂) r.name).getD (r.real dir) := by
      refine forall_of_flatMap_eq (P := fun tok : Tok => tok.spell (StoreRef.resolved dir order) =
        tok.spell fun r => (root? dir (buildRoots out₂ storeRoots₂) r.name).getD (r.real dir))
        (fun _ _ h => h) (fun tok htok => ?_) heq _ hmem
      cases tok with
      | byte c => exact Or.inl rfl
      | ref t =>
          obtain ⟨hash, hh, hroot, hres⟩ := htarget t htok
          simp only [Tok.spell, hres, hroot, Option.getD_some]
          cases t.closed with
          | true => exact Or.inl rfl
          | false => exact Or.inr fun x y => maskedRoot_append_ne hh
    obtain ⟨hash, hh, hroot, hres⟩ := htarget r hmem
    rw [hres, hroot] at hsame
    by_contra hopen
    rw [if_neg hopen] at hsame
    exact maskedRoot_append_ne (x := []) (y := []) hh (congrArg (· ++ []) hsame)
  · apply List.flatMap_congr
    intro tok htok
    cases tok with
    | byte c => rfl
    | ref r =>
        obtain ⟨hash, -, hroot, hres⟩ := htarget r htok
        rw [hclosed r ((refers_iff_mem_tokens hdir).mpr htok)] at hres
        rw [Tok.spell, Tok.spell, hres, hroot]
        rfl
  · nth_rewrite 2 [← (tokensOf dir text).spelled]
    apply List.flatMap_congr
    intro tok htok
    cases tok with
    | byte c => rfl
    | ref r =>
        obtain ⟨root, hroot⟩ := root?_isSome (href r htok)
        obtain ⟨hash, hhas, rfl⟩ := root?_eq_some hroot
        rw [Tok.spell, Tok.spell, hroot, hdistinct hash r.hash r.name hhas (href r htok)]
        rfl

instance (dir text : Bytes) : Decidable (Spread dir text) :=
  decidable_of_iff (∀ s ∈ text.tails, storePrefix dir <+: s →
      ∀ k < (storePrefix dir).length, ¬ storePrefix dir <+: s.drop (k + 1)) <| by
    simp only [Spread, List.mem_tails]
    constructor
    · intro h s hs hpre k hk hle
      obtain ⟨k, rfl⟩ := Nat.exists_eq_succ_of_ne_zero hk.ne'
      exact h s hs hpre k hle
    · intro h s hs hpre k hlt
      exact h s hs hpre (k + 1) (Nat.succ_pos k) hlt

instance (dir text : Bytes) : Decidable (Unmasked dir text) :=
  decidable_of_iff (∀ s ∈ text.tails, ¬ (dir ++ ascii "/*-") <+: s) <| by
    simp only [Unmasked, List.mem_tails]

theorem refers_iff_mem :
    Refers dir text r ↔ r ∈ text.tails.filterMap (storeRef? dir) := by
  simp only [Refers, List.mem_filterMap, List.mem_tails]

theorem storeDir_nixStore : StoreDir nixStore where
  absolute := by decide
  star := by decide
  first_name := ⟨3, by decide, by decide⟩
  border := by
    have hall : ∀ k < (storePrefix nixStore).length, 0 < k → k + 1 < (storePrefix nixStore).length →
        ¬ (storePrefix nixStore).drop k <+: storePrefix nixStore := by decide
    intro k hk hlt
    exact hall k (Nat.lt_of_succ_lt hlt) hk hlt

theorem Store.iterates_toPairs (s : Store) : s.Iterates s.maskedToReal.toPairs := by
  refine ⟨?_, fun masked real => Map.mem_toPairs⟩
  rw [Map.toPairs, List.map_map]
  exact s.maskedToReal.nodupKeys

theorem hasRoot_iff_mem : HasRoot dir roots hash name ↔
    (hash, name) ∈ roots.filterMap fun root => (splitRoot? dir root).map fun r => (r.1, r.2.1) := by
  simp only [HasRoot, List.mem_filterMap, Option.map_eq_some_iff, Prod.exists, Prod.mk.injEq]
  constructor
  · rintro ⟨root, hmem, rest, hroot⟩
    exact ⟨root, hmem, hash, name, rest, hroot, rfl, rfl⟩
  · rintro ⟨root, hmem, _, _, rest, hroot, rfl, rfl⟩
    exact ⟨root, hmem, rest, hroot⟩

/-- A build that has just a `zlib`. -/
def zlibRoots (letter : Char) : List Bytes := buildRoots [] (zlib letter)

theorem hasRoot_zlibRoots {letter : Char} (hletter : letter ∈ ['a', 'b']) :
    HasRoot nixStore (zlibRoots letter) hash name ↔
      hash = List.replicate storeHashLength (chr letter) ∧ name = ascii "zlib" := by
  have hroots :
      ((zlibRoots letter).filterMap fun root =>
        (splitRoot? nixStore root).map fun r => (r.1, r.2.1)) =
        [(List.replicate storeHashLength (chr letter), ascii "zlib")] := by
    simp only [List.mem_cons, List.not_mem_nil, or_false] at hletter
    rcases hletter with rfl | rfl <;> decide
  rw [hasRoot_iff_mem, hroots, List.mem_singleton, Prod.mk.injEq]

theorem distinctNames_zlibRoots {letter : Char} (hletter : letter ∈ ['a', 'b']) :
    DistinctNames nixStore (zlibRoots letter) := by
  intro hash hash' name h h'
  rw [hasRoot_zlibRoots hletter] at h h'
  rw [h.1, h'.1]

/-- A configuration file with the prefix in a tag. -/
def tagged : Bytes := ascii "<prefix>" ++ zlib 'a' ++ ascii "</prefix>"

/-- Stored and replayed in the same build, the path keeps its mask. -/
theorem tagged_root_stays_masked :
    let s := Store.make nixStore true [] (zlib 'a')
    s.Iterates s.maskedToReal.toPairs ∧ DistinctNames nixStore (zlibRoots 'a') ∧
      Spread nixStore tagged ∧ Unmasked nixStore tagged ∧
      (∀ r, Refers nixStore tagged r → HasRoot nixStore (zlibRoots 'a') r.hash r.name) ∧
      s.resolveAll s.maskedToReal.toPairs (maskHashes nixStore tagged) =
        ascii "<prefix>/nix/store/*-zlib</prefix>" := by
  refine ⟨Store.iterates_toPairs _, distinctNames_zlibRoots (by decide), by decide, by decide, ?_,
    by decide⟩
  intro r hr
  have hrefs : ∀ r ∈ tagged.tails.filterMap (storeRef? nixStore),
      r.hash = List.replicate storeHashLength (chr 'a') ∧ r.name = ascii "zlib" := by decide
  exact (hasRoot_zlibRoots (by decide)).mpr (hrefs r (refers_iff_mem.mp hr))

/-- A search path that is replayed with the `zlib` of another build. -/
theorem resolveAll_maskHashes_search :
    let s := Store.make nixStore true [] (zlib 'b')
    let text := ascii "-L" ++ zlib 'a' ++ ascii "/lib -lz"
    (s.resolveAll s.maskedToReal.toPairs (maskHashes nixStore text) =
        reroot nixStore (buildRoots [] (zlib 'b')) text ↔
      ∀ r, Refers nixStore text r → r.closed = true) ∧
    reroot nixStore (buildRoots [] (zlib 'a')) text = text := by
  refine resolveAll_maskHashes_iff storeDir_nixStore ?_ (distinctNames_zlibRoots (by decide)) ?_
    (by decide) (by decide) ?_ (Store.iterates_toPairs _)
  · intro hash name h
    rw [((hasRoot_zlibRoots (by decide)).mp h).2]
    decide
  · intro name
    change (∃ hash, HasRoot nixStore (zlibRoots 'a') hash name) ↔
      ∃ hash, HasRoot nixStore (zlibRoots 'b') hash name
    simp only [hasRoot_zlibRoots (show 'a' ∈ ['a', 'b'] by decide),
      hasRoot_zlibRoots (show 'b' ∈ ['a', 'b'] by decide), exists_eq_left]
  · intro r hr
    have hrefs : ∀ r ∈ (ascii "-L" ++ zlib 'a' ++ ascii "/lib -lz").tails.filterMap
        (storeRef? nixStore),
        r.hash = List.replicate storeHashLength (chr 'a') ∧ r.name = ascii "zlib" := by decide
    exact (hasRoot_zlibRoots (by decide)).mpr (hrefs r (refers_iff_mem.mp hr))

end Repkgs.Jig
