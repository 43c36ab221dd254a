import Repkgs.Jig.DirMode

/-!
# All of a directory, or nothing

When `GetDir` leaves exactly the listed files and links behind, or none of them. The
two loops are followed entry by entry: a file touches its own path and that of its
temporary copy, and what the clean-up forgets is a temporary copy that could not be
renamed.
-/

namespace Repkgs.Jig.Dir

open Lib

/-- The entry stands in the directory: a link with its target, a file with what was
stored for it. -/
def InPlace (io : DirRun) (read : List Entry) (tree : Tree) : Listed → Prop
  | .link target rel => tree.lookup rel = some (.link target)
  | .file mode hash rel => ∃ n data, (filesOf read)[n]? = some (Listed.file mode hash rel).entry ∧
      io.blob (filesOf read) n = some data ∧ tree.lookup rel = some (.file (io.restored data))

/-- Where the entry, whole or partial, can stand. -/
def Listed.paths (pid : Nat) : Listed → List Bytes
  | .link _ rel => [rel]
  | .file _ _ rel => [rel, tempOf pid rel]

/-- Nothing of the entry stands in the directory. -/
def Gone (pid : Nat) (tree : Tree) (e : Listed) : Prop := ∀ k ∈ e.paths pid, tree.lookup k = none

/-- `GetDir` restores every entry, or fails and leaves none. -/
def AllOrNothing (io : DirRun) (entries : List Listed) : Prop :=
  ((getDir io).1 = 0 ∧
    ∀ e ∈ entries, InPlace io (parseListing (render entries)) (getDir io).2 e) ∨
  (((getDir io).1 = 1 ∨ (getDir io).1 = 2) ∧ ∀ e ∈ entries, Gone io.pid (getDir io).2 e)

/-- The blob of a file is there and the file is written. -/
def DirRun.Done (io : DirRun) (blob : Nat → Option Bytes) (file : Entry × Nat) : Prop :=
  (blob file.2).isSome ∧ io.write file.2 = .done

/-- The temporary copy of the file is at `k`, since its blob is there. -/
def DirRun.CopiedAt (io : DirRun) (blob : Nat → Option Bytes) (k : Bytes) (file : Entry × Nat) :
    Prop :=
  tempOf io.pid file.1.rel = k ∧ (blob file.2).isSome

/-- The last temporary copy at `k` could not be renamed. -/
def DirRun.Stays (io : DirRun) (blob : Nat → Option Bytes) (k : Bytes)
    (files : List (Entry × Nat)) : Prop :=
  ∃ front file back, files = front ++ file :: back ∧ io.CopiedAt blob k file ∧
    io.write file.2 = .renameFailed ∧ ∀ later ∈ back, ¬ io.CopiedAt blob k later

/-- No temporary copy takes the place of a link, or of a file written before it. -/
structure Undisturbed (pid : Nat) (read : List Entry) : Prop where
  links : ∀ l ∈ linksOf read, ∀ f ∈ filesOf read, tempOf pid f.rel ≠ l.rel
  files : (filesOf read).Pairwise fun f later => tempOf pid later.rel ≠ f.rel

section Files

variable {io : DirRun} {blob : Nat → Option Bytes} {st : Progress} {file : Entry × Nat}
  {files : List (Entry × Nat)} {k : Bytes}

theorem addFile_done (st : Progress) (h : io.Done blob file) :
    ∃ data, blob file.2 = some data ∧ io.addFile blob st file =
      ⟨(st.tree.erase (tempOf io.pid file.1.rel)).insert file.1.rel (.file (io.restored data)),
        st.written ++ [file.1.rel], st.missing⟩ := by
  obtain ⟨hblob, hwrite⟩ := h
  obtain ⟨data, hdata⟩ := Option.isSome_iff_exists.mp hblob
  exact ⟨data, hdata, by simp [DirRun.addFile, hdata, hwrite, writeFile]⟩

theorem addFile_absent (h : blob file.2 = none) :
    io.addFile blob st file = ⟨st.tree, st.written, st.missing + 1⟩ := by
  simp [DirRun.addFile, h]

theorem addFile_failed {data : Bytes} (h : blob file.2 = some data)
    (hwrite : io.write file.2 = .failed) :
    io.addFile blob st file =
      ⟨st.tree.erase (tempOf io.pid file.1.rel), st.written, st.missing + 1⟩ := by
  simp [DirRun.addFile, h, hwrite, writeFile]

theorem addFile_renameFailed {data : Bytes} (h : blob file.2 = some data)
    (hwrite : io.write file.2 = .renameFailed) :
    io.addFile blob st file =
      ⟨st.tree.insert (tempOf io.pid file.1.rel) (.file (io.restored data)), st.written,
        st.missing + 1⟩ := by
  simp [DirRun.addFile, h, hwrite, writeFile]

/-- A file is written, or it only touches its temporary copy and counts as missing. -/
theorem addFile_cases (io : DirRun) (blob : Nat → Option Bytes) (st : Progress)
    (file : Entry × Nat) :
    io.Done blob file ∨
      (¬ io.Done blob file ∧ ∃ tree, io.addFile blob st file = ⟨tree, st.written, st.missing + 1⟩ ∧
        (tree = st.tree ∧ blob file.2 = none ∨
          (blob file.2).isSome ∧ io.write file.2 = .failed ∧
            tree = st.tree.erase (tempOf io.pid file.1.rel) ∨
          (blob file.2).isSome ∧ io.write file.2 = .renameFailed ∧
            ∃ bytes, tree = st.tree.insert (tempOf io.pid file.1.rel) (.file bytes))) := by
  cases hdata : blob file.2 with
  | none => exact .inr ⟨by simp [DirRun.Done, hdata], _, addFile_absent hdata, .inl ⟨rfl, rfl⟩⟩
  | some data =>
      cases hwrite : io.write file.2 with
      | failed =>
          exact .inr ⟨by simp [DirRun.Done, hwrite], _, addFile_failed hdata hwrite,
            .inr (.inl ⟨rfl, rfl, rfl⟩)⟩
      | renameFailed =>
          exact .inr ⟨by simp [DirRun.Done, hwrite], _, addFile_renameFailed hdata hwrite,
            .inr (.inr ⟨rfl, rfl, _, rfl⟩)⟩
      | done => exact .inl ⟨by simp [hdata], hwrite⟩

theorem stays_concat :
    io.Stays blob k (files ++ [file]) ↔
      io.CopiedAt blob k file ∧ io.write file.2 = .renameFailed ∨
        ¬ io.CopiedAt blob k file ∧ io.Stays blob k files := by
  constructor
  · rintro ⟨front, f, back, hsplit, hcopied, hwrite, hback⟩
    obtain rfl | ⟨back, last, rfl⟩ := List.eq_nil_or_concat back
    · obtain ⟨-, hlast⟩ := List.append_inj' hsplit rfl
      cases hlast
      exact .inl ⟨hcopied, hwrite⟩
    · rw [List.concat_eq_append, ← List.cons_append, ← List.append_assoc] at hsplit
      obtain ⟨rfl, hlast⟩ := List.append_inj' hsplit rfl
      cases hlast
      exact .inr ⟨hback _ (by simp), front, f, back, rfl, hcopied, hwrite,
        fun later hlater => hback later (by simp [hlater])⟩
  · rintro (⟨hcopied, hwrite⟩ | ⟨hother, front, f, back, rfl, hcopied, hwrite, hback⟩)
    · exact ⟨files, file, [], rfl, hcopied, hwrite, nofun⟩
    · refine ⟨front, f, back ++ [file], by simp, hcopied, hwrite, fun later hlater => ?_⟩
      obtain hin | hin := List.mem_append.mp hlater
      · exact hback later hin
      · cases List.mem_singleton.mp hin
        exact hother

/-- Away from the path of the file, one file only touches its temporary copy. -/
theorem isSome_lookup_addFile (hk : io.Done blob file → file.1.rel ≠ k) :
    ((io.addFile blob st file).tree.lookup k).isSome ↔
      io.CopiedAt blob k file ∧ io.write file.2 = .renameFailed ∨
        ¬ io.CopiedAt blob k file ∧ (st.tree.lookup k).isSome := by
  unfold DirRun.CopiedAt
  obtain hdone | ⟨-, tree, hstep, hcases⟩ := addFile_cases io blob st file
  · obtain ⟨data, hdata, hstep⟩ := addFile_done st hdone
    have hne : k ≠ file.1.rel := (hk hdone).symm
    by_cases htemp : tempOf io.pid file.1.rel = k
    · simp [hstep, hne, htemp, hdata, hdone.2]
    · simp [hstep, hne, htemp, Ne.symm htemp]
  · rw [hstep]
    by_cases htemp : tempOf io.pid file.1.rel = k
    · obtain ⟨rfl, hdata⟩ | ⟨hdata, hwrite, rfl⟩ | ⟨hdata, hwrite, bytes, rfl⟩ := hcases <;>
        simp [*]
    · obtain ⟨rfl, -⟩ | ⟨-, -, rfl⟩ | ⟨-, -, bytes, rfl⟩ := hcases <;>
        simp [htemp, Ne.symm htemp]

/-- No file becomes a link. -/
theorem lookup_link_of_addFile {target : Bytes}
    (h : (io.addFile blob st file).tree.lookup k = some (.link target)) :
    st.tree.lookup k = some (.link target) := by
  obtain hdone | ⟨-, tree, hstep, hcases⟩ := addFile_cases io blob st file
  · obtain ⟨data, -, hstep⟩ := addFile_done st hdone
    rw [hstep, Map.lookup_insert_eq, Map.lookup_erase_eq] at h
    grind
  · rw [hstep] at h
    obtain ⟨rfl, -⟩ | ⟨-, -, rfl⟩ | ⟨-, -, bytes, rfl⟩ := hcases
    · exact h
    · rw [Map.lookup_erase_eq] at h
      grind
    · rw [Map.lookup_insert_eq] at h
      grind

theorem missing_eq_zero_iff (files : List (Entry × Nat)) (st : Progress) :
    (files.foldl (io.addFile blob) st).missing = 0 ↔
      st.missing = 0 ∧ ∀ file ∈ files, io.Done blob file := by
  induction files generalizing st with
  | nil => simp
  | cons file rest ih =>
      rw [List.foldl_cons, ih, List.forall_mem_cons]
      obtain hdone | ⟨hdone, tree, hstep, -⟩ := addFile_cases io blob st file
      · obtain ⟨data, -, hstep⟩ := addFile_done st hdone
        simp [hstep, hdone]
      · simp [hstep, hdone]

theorem mem_written_iff (files : List (Entry × Nat)) (st : Progress) :
    k ∈ (files.foldl (io.addFile blob) st).written ↔
      k ∈ st.written ∨ ∃ file ∈ files, file.1.rel = k ∧ io.Done blob file := by
  induction files generalizing st with
  | nil => simp
  | cons file rest ih =>
      rw [List.foldl_cons, ih]
      simp only [List.mem_cons, exists_eq_or_imp]
      obtain hdone | ⟨hdone, tree, hstep, -⟩ := addFile_cases io blob st file
      · obtain ⟨data, -, hstep⟩ := addFile_done st hdone
        simp [hstep, hdone, or_assoc, eq_comm]
      · simp [hstep, hdone]

theorem lookup_link_of_foldl {target : Bytes} (files : List (Entry × Nat)) (st : Progress)
    (h : (files.foldl (io.addFile blob) st).tree.lookup k = some (.link target)) :
    st.tree.lookup k = some (.link target) := by
  induction files generalizing st with
  | nil => exact h
  | cons file rest ih => exact lookup_link_of_addFile (ih _ h)

/-- At a path that was not recorded as written stands a temporary copy that could not be
renamed, or nothing. -/
theorem isSome_lookup_foldl (files : List (Entry × Nat)) {st : Progress}
    (hst : st.tree.lookup k = none)
    (hk : ∀ file ∈ files, io.Done blob file → file.1.rel ≠ k) :
    ((files.foldl (io.addFile blob) st).tree.lookup k).isSome ↔ io.Stays blob k files := by
  induction files using List.reverseRecOn with
  | nil => simp [hst, DirRun.Stays]
  | append_singleton rest file ih =>
      have hrest := ih fun f hf => hk f (List.mem_append_left _ hf)
      rw [List.foldl_concat, stays_concat, ← hrest]
      exact isSome_lookup_addFile (hk file (by simp))

theorem lookup_addFile_done (st : Progress) (hdone : io.Done blob file) (k : Bytes) :
    ∃ data, blob file.2 = some data ∧ (io.addFile blob st file).tree.lookup k =
      if k = file.1.rel then some (.file (io.restored data))
      else if k = tempOf io.pid file.1.rel then none else st.tree.lookup k := by
  obtain ⟨data, hdata, hstep⟩ := addFile_done st hdone
  exact ⟨data, hdata, by rw [hstep, Map.lookup_insert_eq, Map.lookup_erase_eq]⟩

/-- Every file stands at its path when no later temporary copy takes it. -/
theorem lookup_of_pairwise (st : Progress) (hdone : ∀ file ∈ files, io.Done blob file)
    (hnodup : (files.map (·.1.rel)).Nodup)
    (hpairwise : files.Pairwise fun f later => tempOf io.pid later.1.rel ≠ f.1.rel)
    (hfile : file ∈ files) :
    ∃ data, blob file.2 = some data ∧ (files.foldl (io.addFile blob) st).tree.lookup file.1.rel =
      some (.file (io.restored data)) := by
  induction files using List.reverseRecOn with
  | nil => cases hfile
  | append_singleton rest last ih =>
      rw [List.foldl_concat]
      rw [List.map_append, List.nodup_append] at hnodup
      obtain ⟨data, hdata, hlookup⟩ := lookup_addFile_done (rest.foldl (io.addFile blob) st)
        (hdone last (by simp)) file.1.rel
      obtain hrest | hlast := List.mem_append.mp hfile
      · have hrel : file.1.rel ≠ last.1.rel :=
          hnodup.2.2 _ (List.mem_map_of_mem hrest) _ (by simp)
        have htemp : tempOf io.pid last.1.rel ≠ file.1.rel :=
          (List.pairwise_append.mp hpairwise).2.2 file hrest last (by simp)
        rw [hlookup, if_neg hrel, if_neg htemp.symm]
        exact ih (fun f hf => hdone f (List.mem_append_left _ hf)) hnodup.1
          (List.pairwise_append.mp hpairwise).1 hrest
      · cases List.mem_singleton.mp hlast
        exact ⟨data, hdata, by rw [hlookup, if_pos rfl]⟩

/-- When every file stands at its path, no later temporary copy has taken it. -/
theorem pairwise_of_lookup (st : Progress) (hdone : ∀ file ∈ files, io.Done blob file)
    (hnodup : (files.map (·.1.rel)).Nodup)
    (hplaced : ∀ file ∈ files,
      ((files.foldl (io.addFile blob) st).tree.lookup file.1.rel).isSome) :
    files.Pairwise fun f later => tempOf io.pid later.1.rel ≠ f.1.rel := by
  induction files using List.reverseRecOn with
  | nil => exact List.Pairwise.nil
  | append_singleton rest last ih =>
      simp only [List.foldl_concat] at hplaced
      rw [List.map_append, List.nodup_append] at hnodup
      have hrest : ∀ file ∈ rest, tempOf io.pid last.1.rel ≠ file.1.rel ∧
          ((rest.foldl (io.addFile blob) st).tree.lookup file.1.rel).isSome := by
        intro file hfile
        have hsome := hplaced file (List.mem_append_left _ hfile)
        obtain ⟨data, -, hlookup⟩ := lookup_addFile_done (rest.foldl (io.addFile blob) st)
          (hdone last (by simp)) file.1.rel
        have hrel : file.1.rel ≠ last.1.rel :=
          hnodup.2.2 _ (List.mem_map_of_mem hfile) _ (by simp)
        rw [hlookup, if_neg hrel] at hsome
        split_ifs at hsome with htemp
        · exact absurd hsome (by simp)
        · exact ⟨Ne.symm htemp, hsome⟩
      refine List.pairwise_append.mpr ⟨ih (fun f hf => hdone f (List.mem_append_left _ hf)) hnodup.1
        fun file hfile => (hrest file hfile).2, by simp, fun file hfile later hlater => ?_⟩
      cases List.mem_singleton.mp hlater
      exact (hrest file hfile).1

/-- What stands elsewhere stays unless a temporary copy takes its place. -/
theorem lookup_elsewhere_iff (st : Progress) {node : Node}
    (hdone : ∀ file ∈ files, io.Done blob file) (hk : ∀ file ∈ files, file.1.rel ≠ k) :
    (files.foldl (io.addFile blob) st).tree.lookup k = some node ↔
      st.tree.lookup k = some node ∧ ∀ file ∈ files, tempOf io.pid file.1.rel ≠ k := by
  induction files using List.reverseRecOn with
  | nil => simp
  | append_singleton rest last ih =>
      obtain ⟨data, -, hlookup⟩ := lookup_addFile_done (rest.foldl (io.addFile blob) st)
        (hdone last (by simp)) k
      have hrest := ih (fun f hf => hdone f (List.mem_append_left _ hf))
        fun f hf => hk f (List.mem_append_left _ hf)
      have hrel : k ≠ last.1.rel := (hk last (by simp)).symm
      rw [List.foldl_concat, hlookup, if_neg hrel]
      by_cases htemp : k = tempOf io.pid last.1.rel
      · rw [if_pos htemp]
        exact iff_of_false (by simp) fun h => h.2 last (by simp) htemp.symm
      · rw [if_neg htemp, hrest, List.forall_mem_append, List.forall_mem_singleton]
        simp [Ne.symm htemp]

end Files

section Links

variable {ok : Nat → Bool} {links : List (Entry × Nat)} {k : Bytes}

theorem lookup_makeLink (ok : Nat → Bool) (tree : Tree) (link : Entry × Nat) (k : Bytes) :
    (makeLink ok tree link).lookup k =
      if k = link.1.rel then (if ok link.2 then some (.link link.1.ref) else none)
      else tree.lookup k := by
  cases hok : ok link.2 with
  | false => simp [makeLink, hok, Map.lookup_erase_eq]
  | true =>
      rw [makeLink, if_pos hok, Map.lookup_insert_eq, Map.lookup_erase_eq, if_pos rfl]
      by_cases hk : k = link.1.rel
      · rw [if_pos hk, if_pos hk]
      · rw [if_neg hk, if_neg hk, if_neg hk]

theorem lookup_links {link : Entry × Nat} (tree : Tree) (hnodup : (links.map (·.1.rel)).Nodup)
    (hlink : link ∈ links) :
    (links.foldl (makeLink ok) tree).lookup link.1.rel =
      if ok link.2 then some (.link link.1.ref) else none := by
  induction links using List.reverseRecOn with
  | nil => cases hlink
  | append_singleton rest last ih =>
      rw [List.map_append, List.nodup_append] at hnodup
      rw [List.foldl_concat, lookup_makeLink]
      obtain hrest | hlast := List.mem_append.mp hlink
      · have hrel : link.1.rel ≠ last.1.rel :=
          hnodup.2.2 _ (List.mem_map_of_mem hrest) _ (by simp)
        rw [if_neg hrel]
        exact ih hnodup.1 hrest
      · cases List.mem_singleton.mp hlast
        rw [if_pos rfl]

/-- What stands in the directory after the links is one of them. -/
theorem exists_link_of_lookup {node : Node}
    (h : (links.foldl (makeLink ok) ∅).lookup k = some node) :
    ∃ link ∈ links, link.1.rel = k ∧ node = .link link.1.ref := by
  induction links using List.reverseRecOn with
  | nil => simp at h
  | append_singleton rest last ih =>
      rw [List.foldl_concat, lookup_makeLink] at h
      split_ifs at h with hk hok
      · exact ⟨last, by simp, hk.symm, (Option.some.inj h).symm⟩
      · obtain ⟨link, hlink, hrel, hnode⟩ := ih h
        exact ⟨link, List.mem_append_left _ hlink, hrel, hnode⟩

end Links

theorem lookup_removeAll (written : List Bytes) (tree : Tree) (k : Bytes) :
    (written.foldl (fun tree rel => tree.erase rel) tree).lookup k =
      if k ∈ written then none else tree.lookup k := by
  induction written generalizing tree with
  | nil => simp
  | cons rel rest ih =>
      rw [List.foldl_cons, ih, Map.lookup_erase_eq]
      by_cases hrest : k ∈ rest
      · simp [hrest]
      · simp [hrest]

section Listing

variable {io : DirRun} {entries : List Listed} {read : List Entry}

theorem getDir_eq {text : Bytes} (hconnects : io.connects = true)
    (hlisting : io.listing = some text) :
    getDir io = if (io.restore (parseListing text)).missing ≠ 0 then
      (1, (io.restore (parseListing text)).written.foldl (fun tree rel => tree.erase rel)
        (io.restore (parseListing text)).tree) else (0, (io.restore (parseListing text)).tree) := by
  rw [getDir, if_neg (by simp [hconnects]), hlisting]

theorem mem_of_mem_linksOf {l : Entry} (h : l ∈ linksOf read) :
    l ∈ read ∧ l.kind = chr 'l' := by
  simpa [linksOf] using h

theorem mem_of_mem_filesOf {f : Entry} (h : f ∈ filesOf read) :
    f ∈ read ∧ f.kind = chr 'f' := by
  simpa [filesOf] using h

theorem mem_linksOf_map {l : Entry} :
    l ∈ linksOf (entries.map Listed.entry) ↔
      ∃ target rel, Listed.link target rel ∈ entries ∧ l = (Listed.link target rel).entry := by
  simp only [linksOf, List.mem_filter, List.mem_map, decide_eq_true_eq]
  constructor
  · rintro ⟨⟨e, he, rfl⟩, hkind⟩
    cases e with
    | file mode hash rel => exact absurd (show chr 'f' = chr 'l' from hkind) (by decide)
    | link target rel => exact ⟨target, rel, he, rfl⟩
  · rintro ⟨target, rel, he, rfl⟩
    exact ⟨⟨_, he, rfl⟩, rfl⟩

theorem mem_filesOf_map {f : Entry} :
    f ∈ filesOf (entries.map Listed.entry) ↔
      ∃ mode hash rel, Listed.file mode hash rel ∈ entries ∧
        f = (Listed.file mode hash rel).entry := by
  simp only [filesOf, List.mem_filter, List.mem_map, decide_eq_true_eq]
  constructor
  · rintro ⟨⟨e, he, rfl⟩, hkind⟩
    cases e with
    | file mode hash rel => exact ⟨mode, hash, rel, he, rfl⟩
    | link target rel => exact absurd (show chr 'l' = chr 'f' from hkind) (by decide)
  · rintro ⟨mode, hash, rel, he, rfl⟩
    exact ⟨⟨_, he, rfl⟩, rfl⟩

/-- The paths that are read back from a listing are different. -/
structure DistinctPaths (read : List Entry) : Prop where
  links : ((linksOf read).zipIdx.map (·.1.rel)).Nodup
  files : ((filesOf read).zipIdx.map (·.1.rel)).Nodup
  apart : ∀ l ∈ linksOf read, ∀ f ∈ filesOf read, f.rel ≠ l.rel

theorem map_zipIdx_rel (l : List Entry) : l.zipIdx.map (·.1.rel) = l.map Entry.rel := by
  calc l.zipIdx.map (·.1.rel) = (l.zipIdx.map Prod.fst).map Entry.rel := by
        rw [List.map_map]
        rfl
    _ = l.map Entry.rel := by rw [List.zipIdx_map_fst]

theorem PutListing.distinctPaths (h : PutListing entries) :
    DistinctPaths (entries.map Listed.entry) := by
  have hrels : (entries.map Listed.entry).map Entry.rel = entries.map Listed.rel := by
    rw [List.map_map]
    apply List.map_congr_left
    intro e _
    cases e <;> rfl
  have hnodup : ((entries.map Listed.entry).map Entry.rel).Nodup := hrels ▸ h.nodup
  refine ⟨?_, ?_, fun l hl f hf hrel => ?_⟩
  · rw [map_zipIdx_rel]
    exact hnodup.sublist (List.filter_sublist.map _)
  · rw [map_zipIdx_rel]
    exact hnodup.sublist (List.filter_sublist.map _)
  · obtain ⟨hlmem, hlkind⟩ := mem_of_mem_linksOf hl
    obtain ⟨hfmem, hfkind⟩ := mem_of_mem_filesOf hf
    have heq : f = l := List.inj_on_of_nodup_map hnodup hfmem hlmem hrel
    rw [heq, hlkind] at hfkind
    exact absurd hfkind (by decide)

theorem done_of_missing_eq_zero (h : (io.restore read).missing = 0) :
    ∀ file ∈ (filesOf read).zipIdx, io.Done (io.blob (filesOf read)) file :=
  ((missing_eq_zero_iff _ _).mp h).2

/-- The link in place was read back as a link. -/
theorem exists_link_of_inPlace {target rel : Bytes}
    (h : (io.restore read).tree.lookup rel = some (.link target)) :
    ∃ l ∈ linksOf read, l.rel = rel ∧ l.ref = target := by
  obtain ⟨link, hlink, hrel, hnode⟩ := exists_link_of_lookup (lookup_link_of_foldl _ _ h)
  exact ⟨link.1, List.fst_mem_of_mem_zipIdx hlink, hrel, (Node.link.inj hnode).symm⟩

/-- An entry in place is spelled. -/
theorem spelled_of_inPlace {text : Bytes} {e : Listed}
    (h : InPlace io (parseListing text) (io.restore (parseListing text)).tree e) : e.Spelled := by
  cases e with
  | file mode hash rel =>
      obtain ⟨n, data, hfile, -, -⟩ := h
      have hmem := (mem_of_mem_filesOf (List.mem_of_getElem? hfile)).1
      exact (of_mem_parseListing hmem).1
  | link target rel =>
      obtain ⟨l, hl, rfl, rfl⟩ := exists_link_of_inPlace h
      obtain ⟨hrel, href⟩ := of_mem_parseListing (mem_of_mem_linksOf hl).1
      exact ⟨hrel, href.blank⟩

/-- A link is in place when it was created and no temporary copy took its place. -/
theorem lookup_link_iff (hdistinct : DistinctPaths read) (hmissing : (io.restore read).missing = 0)
    {l : Entry} {n : Nat} (hl : (linksOf read)[n]? = some l) :
    (io.restore read).tree.lookup l.rel = some (.link l.ref) ↔
      io.linkOk n = true ∧ ∀ f ∈ filesOf read, tempOf io.pid f.rel ≠ l.rel := by
  have hmem : (l, n) ∈ (linksOf read).zipIdx := List.mem_zipIdx_iff_getElem?.mpr hl
  have hfiles : ∀ file ∈ (filesOf read).zipIdx, file.1.rel ≠ l.rel := fun file hfile =>
    hdistinct.apart l (List.mem_of_getElem? hl) _ (List.fst_mem_of_mem_zipIdx hfile)
  have hlink : (io.linkTree (linksOf read)).lookup l.rel = some (.link l.ref) ↔
      io.linkOk n = true := by
    rw [DirRun.linkTree, lookup_links ∅ hdistinct.links hmem]
    simp
  have htemps : (∀ file ∈ (filesOf read).zipIdx, tempOf io.pid file.1.rel ≠ l.rel) ↔
      ∀ f ∈ filesOf read, tempOf io.pid f.rel ≠ l.rel := by
    rw [← List.forall_mem_map (f := Prod.fst) (P := fun f : Entry => tempOf io.pid f.rel ≠ l.rel),
      List.zipIdx_map_fst]
  rw [DirRun.restore, lookup_elsewhere_iff _ (done_of_missing_eq_zero hmissing) hfiles, hlink,
    htemps]

theorem pairwise_zipIdx_iff {R : Entry → Entry → Prop} (l : List Entry) :
    l.zipIdx.Pairwise (fun a b => R a.1 b.1) ↔ l.Pairwise R := by
  rw [← List.pairwise_map (f := Prod.fst), List.zipIdx_map_fst]

theorem undisturbed_of_lookup (hdistinct : DistinctPaths read)
    (hmissing : (io.restore read).missing = 0)
    (h : ∀ f ∈ filesOf read, ((io.restore read).tree.lookup f.rel).isSome) :
    (filesOf read).Pairwise fun f later => tempOf io.pid later.rel ≠ f.rel :=
  (pairwise_zipIdx_iff _).mp
    (pairwise_of_lookup ⟨io.linkTree (linksOf read), (linksOf read).map Entry.rel, 0⟩
      (done_of_missing_eq_zero hmissing) hdistinct.files
      fun file hfile => h file.1 (List.fst_mem_of_mem_zipIdx hfile))

theorem lookup_file (hdistinct : DistinctPaths read) (hmissing : (io.restore read).missing = 0)
    (hpairwise : (filesOf read).Pairwise fun f later => tempOf io.pid later.rel ≠ f.rel)
    {n : Nat} {f : Entry} (hf : (filesOf read)[n]? = some f) :
    ∃ data, io.blob (filesOf read) n = some data ∧
      (io.restore read).tree.lookup f.rel = some (.file (io.restored data)) := by
  have hmem : (f, n) ∈ (filesOf read).zipIdx := List.mem_zipIdx_iff_getElem?.mpr hf
  exact lookup_of_pairwise _ (done_of_missing_eq_zero hmissing) hdistinct.files
    ((pairwise_zipIdx_iff _).mpr hpairwise) hmem

/-- When no file is missing, everything is in place exactly if all entries are spelled,
all links were created and no temporary copy took the place of an entry. -/
theorem inPlace_iff (hput : PutListing entries)
    (hmissing : (io.restore (parseListing (render entries))).missing = 0) :
    (∀ e ∈ entries, InPlace io (parseListing (render entries))
        (io.restore (parseListing (render entries))).tree e) ↔
      (∀ e ∈ entries, e.Spelled) ∧
        (∀ n < (linksOf (parseListing (render entries))).length, io.linkOk n = true) ∧
        Undisturbed io.pid (parseListing (render entries)) := by
  constructor
  · intro h
    have hspelled : ∀ e ∈ entries, e.Spelled := fun e he => spelled_of_inPlace (h e he)
    rw [hput.parseListing_render hspelled] at h hmissing ⊢
    have hdistinct := hput.distinctPaths
    have hlinks : ∀ n l, (linksOf (entries.map Listed.entry))[n]? = some l →
        io.linkOk n = true ∧ ∀ f ∈ filesOf (entries.map Listed.entry),
          tempOf io.pid f.rel ≠ l.rel := by
      intro n l hl
      obtain ⟨target, rel, he, rfl⟩ := mem_linksOf_map.mp (List.mem_of_getElem? hl)
      exact (lookup_link_iff hdistinct hmissing hl).mp (h _ he)
    refine ⟨hspelled, fun n hn => (hlinks n _ (List.getElem?_eq_getElem hn)).1,
      ⟨fun l hl => ?_, undisturbed_of_lookup hdistinct hmissing fun f hf => ?_⟩⟩
    · obtain ⟨n, hn⟩ := List.mem_iff_getElem?.mp hl
      exact (hlinks n l hn).2
    · obtain ⟨mode, hash, rel, he, rfl⟩ := mem_filesOf_map.mp hf
      obtain ⟨n, data, -, -, hlookup⟩ := h _ he
      exact Option.isSome_iff_exists.mpr ⟨_, hlookup⟩
  · rintro ⟨hspelled, hlinks, hundisturbed⟩ e he
    rw [hput.parseListing_render hspelled] at hlinks hundisturbed hmissing ⊢
    have hdistinct := hput.distinctPaths
    cases e with
    | link target rel =>
        obtain ⟨n, hn⟩ := List.mem_iff_getElem?.mp (mem_linksOf_map.mpr ⟨target, rel, he, rfl⟩)
        have hlt : n < (linksOf (entries.map Listed.entry)).length :=
          (List.getElem?_eq_some_iff.mp hn).1
        exact (lookup_link_iff hdistinct hmissing hn).mpr
          ⟨hlinks n hlt, hundisturbed.links _ (List.mem_of_getElem? hn)⟩
    | file mode hash rel =>
        obtain ⟨n, hn⟩ :=
          List.mem_iff_getElem?.mp (mem_filesOf_map.mpr ⟨mode, hash, rel, he, rfl⟩)
        obtain ⟨data, hdata, hlookup⟩ := lookup_file hdistinct hmissing hundisturbed.files hn
        exact ⟨n, data, hn, hdata, hlookup⟩

/-- A link or a file that was written has the path `k`. -/
def DirRun.Recorded (io : DirRun) (read : List Entry) (k : Bytes) : Prop :=
  k ∈ (linksOf read).map Entry.rel ∨
    ∃ file ∈ (filesOf read).zipIdx, file.1.rel = k ∧ io.Done (io.blob (filesOf read)) file

/-- After the clean-up nothing stands but temporary copies that could not be renamed. -/
theorem lookup_cleaned (k : Bytes) :
    ((io.restore read).written.foldl (fun tree rel => tree.erase rel)
        (io.restore read).tree).lookup k = none ↔
      (io.Stays (io.blob (filesOf read)) k (filesOf read).zipIdx → io.Recorded read k) := by
  have hwritten : k ∈ (io.restore read).written ↔ io.Recorded read k := mem_written_iff _ _
  rw [lookup_removeAll]
  by_cases hk : io.Recorded read k
  · simp [hwritten.mpr hk, hk]
  · have hnot := hk
    rw [DirRun.Recorded] at hnot
    push Not at hnot
    obtain ⟨hlinks, hfiles⟩ := hnot
    have hnone : (io.linkTree (linksOf read)).lookup k = none := by
      by_contra hsome
      obtain ⟨node, hnode⟩ := Option.ne_none_iff_exists'.mp hsome
      obtain ⟨link, hlink, hrel, -⟩ := exists_link_of_lookup hnode
      exact hlinks (List.mem_map.mpr ⟨link.1, List.fst_mem_of_mem_zipIdx hlink, hrel⟩)
    have hsome : ((io.restore read).tree.lookup k).isSome ↔
        io.Stays (io.blob (filesOf read)) k (filesOf read).zipIdx :=
      isSome_lookup_foldl _ hnone fun file hfile hdone hrel => hfiles file hfile hrel hdone
    rw [if_neg (mt hwritten.mp hk), ← hsome]
    simp [hk]

end Listing

/-- `GetDir` restores all of a directory or nothing of it, except that a link that cannot
be created is not noticed, that an entry with a newline in its path or with a blank in
its target is not read back, and that the temporary copy of a file that cannot be renamed
stays. Whether all files can be written decides which of the two it has to be. -/
theorem getDir_all_or_nothing_iff (io : DirRun) (entries : List Listed)
    (hput : PutListing entries) :
    (io.connects = false ∨ io.listing = none → AllOrNothing io entries) ∧
    (io.connects = true → io.listing = some (render entries) →
      let read := parseListing (render entries)
      let files := (filesOf read).zipIdx
      let blob := io.blob (filesOf read)
      (AllOrNothing io entries ↔
        ((∀ file ∈ files, io.Done blob file) → (∀ e ∈ entries, e.Spelled) ∧
          (∀ n < (linksOf read).length, io.linkOk n = true) ∧ Undisturbed io.pid read) ∧
        ((∃ file ∈ files, ¬ io.Done blob file) → ∀ e ∈ entries, ∀ k ∈ e.paths io.pid,
          io.Stays blob k files → io.Recorded read k))) := by
  constructor
  · rintro (h | h)
    · exact .inr ⟨.inr (by simp [getDir, h]), fun e _ k _ => by simp [getDir, h]⟩
    · refine .inr ?_
      cases hconnects : io.connects with
      | false =>
          exact ⟨.inr (by simp [getDir, hconnects]), fun e _ k _ => by simp [getDir, hconnects]⟩
      | true =>
          exact ⟨.inl (by simp [getDir, hconnects, h]), fun e _ k _ => by
            simp [getDir, hconnects, h]⟩
  · intro hconnects hlisting read files blob
    by_cases hdone : ∀ file ∈ files, io.Done blob file
    · have hmissing : (io.restore read).missing = 0 := (missing_eq_zero_iff _ _).mpr ⟨rfl, hdone⟩
      have hget : getDir io = (0, (io.restore read).tree) := by
        rw [getDir_eq hconnects hlisting, if_neg (by simpa using hmissing)]
      have hnone : ¬ ∃ file ∈ files, ¬ io.Done blob file := by simpa using hdone
      have hplace := inPlace_iff hput hmissing
      rw [AllOrNothing, hget]
      constructor
      · rintro (⟨-, h⟩ | ⟨h, -⟩)
        · exact ⟨fun _ => hplace.mp h, fun hsome => absurd hsome hnone⟩
        · simp at h
      · rintro ⟨h, -⟩
        exact .inl ⟨rfl, hplace.mpr (h hdone)⟩
    · have hmissing : (io.restore read).missing ≠ 0 := mt done_of_missing_eq_zero hdone
      have hget : getDir io = (1, (io.restore read).written.foldl (fun tree rel => tree.erase rel)
          (io.restore read).tree) := by
        rw [getDir_eq hconnects hlisting, if_pos hmissing]
      have hsome : ∃ file ∈ files, ¬ io.Done blob file := by simpa using hdone
      rw [AllOrNothing, hget]
      constructor
      · rintro (⟨h, -⟩ | ⟨-, h⟩)
        · simp at h
        · exact ⟨fun hall => absurd hall hdone,
            fun _ e he k hk => (lookup_cleaned k).mp (h e he k hk)⟩
      · rintro ⟨-, h⟩
        exact .inr ⟨.inl rfl, fun e he k hk => (lookup_cleaned k).mpr (h hsome e he k hk)⟩

/-- A directory of a program and a link to it. -/
def linkedProgram : List Listed :=
  [.file 0o755 (ascii "0a") (ascii "bin/tool"), .link (ascii "bin/tool") (ascii "tool")]

/-- A daemon that has the directory, and a file system that creates links or does not. -/
def linkedProgramRun (links : Bool) : DirRun where
  connects := true
  listing := some (render linkedProgram)
  getMany _ keys := keys.map fun _ => some (ascii "run")
  store := .make (ascii "/nix/store") false [] []
  order := []
  pid := 7
  linkOk _ := links
  write _ := .done

theorem putListing_linkedProgram : PutListing linkedProgram := by
  refine ⟨by decide, fun mode hash rel h => ?_, fun target rel h => ?_⟩
  · obtain ⟨rfl, rfl, rfl⟩ : mode = 0o755 ∧ hash = ascii "0a" ∧ rel = ascii "bin/tool" := by
      simpa [linkedProgram] using h
    decide
  · obtain ⟨rfl, rfl⟩ : target = ascii "bin/tool" ∧ rel = ascii "tool" := by
      simpa [linkedProgram] using h
    decide

theorem spelled_linkedProgram : ∀ e ∈ linkedProgram, e.Spelled := by
  refine List.forall_mem_cons.mpr ⟨by decide, List.forall_mem_singleton.mpr ⟨by decide, ?_⟩⟩
  exact (word_of_all (List.cons_ne_nil _ _) (by decide) : Word (ascii "bin/tool")).blank

theorem parseListing_linkedProgram :
    parseListing (render linkedProgram) = linkedProgram.map Listed.entry :=
  putListing_linkedProgram.parseListing_render spelled_linkedProgram

theorem getDir_all_or_nothing_iff_linkedProgram :
    AllOrNothing (linkedProgramRun true) linkedProgram := by
  refine ((getDir_all_or_nothing_iff (linkedProgramRun true) linkedProgram
    putListing_linkedProgram).2 rfl rfl).mpr
      ⟨fun _ => ⟨spelled_linkedProgram, fun _ _ => rfl, ?_⟩, ?_⟩
  · rw [parseListing_linkedProgram]
    exact ⟨by decide +kernel, by decide +kernel⟩
  · rintro ⟨file, hfile, hnot⟩
    rw [parseListing_linkedProgram] at hfile hnot
    have hfile : file = ((Listed.file 0o755 (ascii "0a") (ascii "bin/tool")).entry, 0) :=
      List.mem_singleton.mp hfile
    rw [hfile] at hnot
    exact absurd ⟨rfl, rfl⟩ hnot

/-- A link that cannot be created is missing, and `GetDir` succeeds. -/
theorem getDir_without_link : PutListing linkedProgram ∧ (getDir (linkedProgramRun false)).1 = 0 ∧
    (getDir (linkedProgramRun false)).2.lookup (ascii "tool") = none ∧
    ¬ AllOrNothing (linkedProgramRun false) linkedProgram := by
  have hzero : (getDir (linkedProgramRun false)).1 = 0 := by decide +kernel
  have hnone : (getDir (linkedProgramRun false)).2.lookup (ascii "tool") = none := by
    decide +kernel
  refine ⟨putListing_linkedProgram, hzero, hnone, ?_⟩
  rintro (⟨-, hplace⟩ | ⟨hone, -⟩)
  · have hlink : (getDir (linkedProgramRun false)).2.lookup (ascii "tool") = some _ :=
      hplace (.link (ascii "bin/tool") (ascii "tool")) (by simp [linkedProgram])
    rw [hnone] at hlink
    cases hlink
  · rw [hzero] at hone
    exact absurd hone (by decide)

end Repkgs.Jig.Dir
