import Repkgs.Jig.DirRestore

/-!
# Storing a directory and getting it back

`PutDir` uploads the blobs that the daemon lacks batch by batch, and then the listing.
What `GetDir` reports as restored is what was stored, whatever was evicted in between.
-/

namespace Repkgs.Jig.Dir

open Lib

/-- What the iterator meets. A file is read for its hash, and again when its batch goes up. -/
inductive Found
  | link (target rel : Bytes)
  | file (mode : Nat) (read again : Option Bytes) (rel : Bytes)
  | other

/-- `Stored`: texts go without the hashes of the store. -/
def stored (dir data : Bytes) : Bytes := if 0 ∈ data then data else maskHashes dir data

def blobKey (hash : Bytes) : Bytes := ascii "b/" ++ hash

def putMany (cache : Map Bytes Bytes) (puts : List (Bytes × Bytes)) : Map Bytes Bytes :=
  puts.foldl (fun cache put => cache.insert put.1 put.2) cache

/-- `Upload`: the daemon is asked about all of the batch before anything is put. -/
def upload (dir : Bytes) (cache : Map Bytes Bytes) (pending : List (Bytes × Option Bytes)) :
    Map Bytes Bytes :=
  putMany cache (pending.filterMap fun item =>
    if (cache.lookup item.1).isSome then none
    else item.2.map fun data => (item.1, stored dir data))

structure PutState where
  cache : Map Bytes Bytes
  pending : List (Bytes × Option Bytes)
  listing : List Listed

section

-- `HashOf` in hex, and the store of the build
variable (hash : Bytes → Bytes) (dir : Bytes)

/-- One turn of the loop of `PutDir`. -/
def putEntry (st : PutState) : Found → PutState
  | .link target rel => { st with listing := st.listing ++ [.link target rel] }
  | .file mode (some data) again rel =>
      let digest := hash (stored dir data)
      let listing := st.listing ++ [.file (mode % 0o1000) digest rel]
      let pending := st.pending ++ [(blobKey digest, again)]
      if pending.length = batchSize then ⟨upload dir st.cache pending, [], listing⟩
      else ⟨st.cache, pending, listing⟩
  | .file _ none _ _ | .other => st

def putAll (cache : Map Bytes Bytes) (found : List Found) : PutState :=
  found.foldl (putEntry hash dir) ⟨cache, [], []⟩

/-- `PutDir`: what the daemon holds afterwards. -/
def putDir (key : Bytes) (found : List Found) (cache : Map Bytes Bytes) : Map Bytes Bytes :=
  let st := putAll hash dir cache found
  (upload dir st.cache st.pending).insert key (render st.listing)

/-- A run of `GetDir` against a daemon that holds this. -/
def DirRun.servedBy (io : DirRun) (cache : Map Bytes Bytes) (key : Bytes) : DirRun :=
  { io with
    connects := true
    listing := cache.lookup key
    getMany := fun _ => List.map cache.lookup }

def Found.listed : Found → Option Listed
  | .link target rel => some (.link target rel)
  | .file mode (some data) _ rel => some (.file (mode % 0o1000) (hash (stored dir data)) rel)
  | .file _ none _ _ | .other => none

def Found.blob : Found → Option Bytes
  | .file _ (some data) _ _ => some (stored dir data)
  | _ => none

def listingOf (found : List Found) : List Listed := found.filterMap (Found.listed hash dir)

def blobsOf (found : List Found) : List Bytes := found.filterMap (Found.blob dir)

/-- The hashes of these blobs differ, and in the cache they stand for nothing else. -/
structure Right (bs : List Bytes) (cache : Map Bytes Bytes) : Prop where
  apart : ∀ b ∈ bs, ∀ b' ∈ bs, hash b = hash b' → b = b'
  held : ∀ b ∈ bs, ∀ v ∈ cache.lookup (blobKey (hash b)), v = b

/-- A directory that keeps still and whose listing is read back, and a cache in which its
hashes stand for its blobs only. -/
structure Puttable (key : Bytes) (found : List Found) (cache : Map Bytes Bytes) : Prop where
  listing : PutListing (listingOf hash dir found)
  spelled : ∀ e ∈ listingOf hash dir found, e.Spelled
  steady : ∀ mode data again rel, Found.file mode (some data) again rel ∈ found → again = some data
  right : Right hash (blobsOf dir found) cache
  key : ∀ digest, key ≠ blobKey digest

/-- The entry stands in the directory again. -/
def Found.Restored (io : DirRun) (tree : Tree) : Found → Prop
  | .link target rel => tree.lookup rel = some (.link target)
  | .file _ (some data) _ rel => tree.lookup rel = some (.file (io.restored (stored dir data)))
  | .file _ none _ _ | .other => True

/-- A file that waits for its batch. -/
def Waiting (bs : List Bytes) (item : Bytes × Option Bytes) : Prop :=
  ∃ data, stored dir data ∈ bs ∧ item = (blobKey (hash (stored dir data)), some data)

/-- The loop: blobs that were seen are in the cache or wait. -/
structure Uploading (bs seen : List Bytes) (st : PutState) : Prop where
  right : Right hash bs st.cache
  waiting : ∀ item ∈ st.pending, Waiting hash dir bs item
  there : ∀ b ∈ seen, (st.cache.lookup (blobKey (hash b))).isSome ∨
    blobKey (hash b) ∈ st.pending.map Prod.fst

end

section

variable {hash : Bytes → Bytes} {dir key : Bytes} {found : List Found} {cache : Map Bytes Bytes}
  {pending : List (Bytes × Option Bytes)} {puts : List (Bytes × Bytes)} {bs : List Bytes}

theorem isSome_lookup_putMany (k : Bytes) :
    ((putMany cache puts).lookup k).isSome ↔ (cache.lookup k).isSome ∨ k ∈ puts.map Prod.fst := by
  induction puts generalizing cache with
  | nil => simp [putMany]
  | cons put rest ih =>
      rw [putMany, List.foldl_cons, ← putMany, ih, Map.lookup_insert_eq]
      by_cases hk : k = put.1 <;> simp [hk]

theorem Right.putMany (h : Right hash bs cache)
    (hputs : ∀ put ∈ puts, ∃ b ∈ bs, put = (blobKey (hash b), b)) :
    Right hash bs (putMany cache puts) := by
  induction puts generalizing cache with
  | nil => exact h
  | cons put rest ih =>
      obtain ⟨⟨b', hb', rfl⟩, hrest⟩ := List.forall_mem_cons.mp hputs
      refine ih ⟨h.apart, fun b hb v hv => ?_⟩ hrest
      rw [Map.lookup_insert_eq] at hv
      split_ifs at hv with hkey
      · cases hv
        exact (h.apart b hb b' hb' (List.append_cancel_left hkey)).symm
      · exact h.held b hb v hv

theorem Right.upload (h : Right hash bs cache)
    (hpending : ∀ item ∈ pending, Waiting hash dir bs item) :
    Right hash bs (upload dir cache pending) := by
  refine h.putMany fun put hput => ?_
  obtain ⟨item, hitem, hput⟩ := List.mem_filterMap.mp hput
  obtain ⟨data, hdata, rfl⟩ := hpending item hitem
  split_ifs at hput
  cases hput
  exact ⟨_, hdata, rfl⟩

theorem isSome_lookup_upload (hpending : ∀ item ∈ pending, Waiting hash dir bs item) {k : Bytes}
    (hk : (cache.lookup k).isSome ∨ k ∈ pending.map Prod.fst) :
    ((upload dir cache pending).lookup k).isSome := by
  rw [upload, isSome_lookup_putMany]
  by_cases hcache : (cache.lookup k).isSome
  · exact .inl hcache
  · obtain ⟨item, hitem, rfl⟩ := List.mem_map.mp (hk.resolve_left hcache)
    obtain ⟨data, -, rfl⟩ := hpending item hitem
    exact .inr (List.mem_map.mpr ⟨_, List.mem_filterMap.mpr ⟨_, hitem, if_neg hcache⟩, rfl⟩)

section Loop

variable {st : PutState} {seen : List Bytes} (h : Uploading hash dir bs seen st)
include h

theorem Uploading.wait {data : Bytes} (hdata : stored dir data ∈ bs) (listing : List Listed) :
    Uploading hash dir bs (seen ++ [stored dir data])
      ⟨st.cache, st.pending ++ [(blobKey (hash (stored dir data)), some data)], listing⟩ := by
  refine ⟨h.right, List.forall_mem_append.mpr
    ⟨h.waiting, List.forall_mem_singleton.mpr ⟨data, hdata, rfl⟩⟩, ?_⟩
  rw [List.map_append]
  exact List.forall_mem_append.mpr ⟨fun b hb => (h.there b hb).imp_right (List.mem_append_left _),
    List.forall_mem_singleton.mpr (.inr (by simp))⟩

theorem Uploading.flush (listing : List Listed) :
    Uploading hash dir bs seen ⟨upload dir st.cache st.pending, [], listing⟩ :=
  ⟨h.right.upload h.waiting, nofun,
    fun b hb => .inl (isSome_lookup_upload h.waiting (h.there b hb))⟩

end Loop

theorem Puttable.uploading (h : Puttable hash dir key found cache) {seen : List Found}
    (hseen : seen <+: found) : Uploading hash dir (blobsOf dir found) (blobsOf dir seen)
      (putAll hash dir cache seen) := by
  induction seen using List.reverseRecOn with
  | nil => exact ⟨h.right, nofun, nofun⟩
  | append_singleton seen f ih =>
      have hst := ih ((List.prefix_append _ _).trans hseen)
      have hf : f ∈ found := hseen.subset (by simp)
      have hblobs : blobsOf dir (seen ++ [f]) = blobsOf dir seen ++ blobsOf dir [f] :=
        List.filterMap_append
      rw [putAll, List.foldl_concat, hblobs]
      match f with
      | .file mode (some data) again rel =>
          cases h.steady mode data again rel hf
          have hwait := hst.wait (List.mem_filterMap.mpr ⟨_, hf, rfl⟩)
          rw [putEntry]
          split_ifs
          · exact (hwait []).flush _
          · exact hwait _
      | .link _ _ | .file _ none _ _ | .other =>
          exact ⟨hst.right, hst.waiting, fun b hb =>
            hst.there b (by simpa [blobsOf, Found.blob] using hb)⟩

theorem Puttable.lookup_blob (h : Puttable hash dir key found cache) {b : Bytes}
    (hb : b ∈ blobsOf dir found) :
    (putDir hash dir key found cache).lookup (blobKey (hash b)) = some b := by
  have hst := (h.uploading List.prefix_rfl).flush []
  obtain ⟨v, hv⟩ := Option.isSome_iff_exists.mp ((hst.there b hb).resolve_right nofun)
  rw [putDir, Map.lookup_insert_eq, if_neg (h.key _).symm, hv, hst.right.held b hb v hv]

theorem lookup_listing :
    (putDir hash dir key found cache).lookup key = some (render (listingOf hash dir found)) := by
  have hlisting : (putAll hash dir cache found).listing = listingOf hash dir found := by
    induction found using List.reverseRecOn with
    | nil => rfl
    | append_singleton seen f ih =>
        rw [putAll, List.foldl_concat, listingOf, List.filterMap_append, ← listingOf, ← ih]
        match f with
        | .file mode (some data) again rel =>
            rw [putEntry]
            split_ifs <;> rfl
        | .link _ _ => rfl
        | .file _ none _ _ | .other => simp [putAll, putEntry, Found.listed]
  rw [putDir, AList.lookup_insert, hlisting]

theorem exists_blob_of_listed {mode : Nat} {digest rel : Bytes}
    (h : Listed.file mode digest rel ∈ listingOf hash dir found) :
    ∃ b ∈ blobsOf dir found, digest = hash b := by
  obtain ⟨f, hf, hlisted⟩ := List.mem_filterMap.mp h
  match f with
  | .file _ (some data) _ _ =>
      cases hlisted
      exact ⟨_, List.mem_filterMap.mpr ⟨_, hf, rfl⟩, rfl⟩
  | .link _ _ | .file _ none _ _ | .other => cases hlisted

end

theorem blob_servedBy (io : DirRun) (cache : Map Bytes Bytes) (key : Bytes) {files : List Entry}
    {n : Nat} {e : Entry} (h : files[n]? = some e) :
    (io.servedBy cache key).blob files n = cache.lookup (blobKey e.ref) := by
  have hlt : n % batchSize < batchSize := Nat.mod_lt _ (by decide)
  simp [DirRun.blob, DirRun.servedBy, blobKey, hlt, Nat.div_add_mod', h]

/-- `GetDir` after `PutDir` by another build: what it restores is what was stored, also when
the daemon has dropped some of it, and it restores the directory when nothing was dropped. -/
theorem getDir_putDir (io : DirRun) {hash : Bytes → Bytes} {dir key : Bytes} {found : List Found}
    {cache later : Map Bytes Bytes} (h : Puttable hash dir key found cache)
    (hlater : ∀ k v, (putDir hash dir key found cache).lookup k = some v →
      later.lookup k = some v ∨ later.lookup k = none)
    (hlinks : ∀ n, io.linkOk n = true)
    (hundisturbed : Undisturbed io.pid
      ((listingOf hash dir found).map Listed.entry)) :
    ((getDir (io.servedBy later key)).1 = 0 →
      ∀ f ∈ found, f.Restored dir io (getDir (io.servedBy later key)).2) ∧
    ((∀ k v, (putDir hash dir key found cache).lookup k = some v → later.lookup k = some v) →
      (∀ n, io.write n = .done) → (getDir (io.servedBy later key)).1 = 0) := by
  have hread := h.listing.parseListing_render h.spelled
  constructor
  · intro hzero f hf
    obtain hlisting | hnone := hlater key _ lookup_listing
    · rw [getDir_eq rfl hlisting] at hzero ⊢
      split_ifs at hzero ⊢ with hmissing
      have hplace := (inPlace_iff h.listing (not_not.mp hmissing)).mpr
        ⟨h.spelled, fun n _ => hlinks n, hread.symm ▸ hundisturbed⟩
      match f with
      | .link target rel => exact hplace _ (List.mem_filterMap.mpr ⟨_, hf, rfl⟩)
      | .file mode (some data) again rel =>
          obtain ⟨n, v, hfile, hblob, hlookup⟩ := hplace _ (List.mem_filterMap.mpr ⟨_, hf, rfl⟩)
          rw [blob_servedBy io later key hfile] at hblob
          -- a blob that is still there is the one that was stored
          have hlook := h.lookup_blob (List.mem_filterMap.mpr ⟨_, hf, rfl⟩)
          obtain hsame | hgone := hlater _ _ hlook
          · cases hsame.symm.trans hblob
            exact hlookup
          · cases hgone.symm.trans hblob
      | .file _ none _ _ | .other => trivial
    · simp [getDir, DirRun.servedBy, hnone] at hzero
  · intro hkept hwrite
    rw [getDir_eq rfl (hkept key _ lookup_listing), hread, if_neg]
    rw [not_not, DirRun.restore, missing_eq_zero_iff]
    refine ⟨rfl, fun file hfile => ⟨?_, hwrite _⟩⟩
    have hget := List.mem_zipIdx_iff_getElem?.mp hfile
    obtain ⟨mode, digest, rel, hlisted, hentry⟩ :=
      mem_filesOf_map.mp (List.mem_of_getElem? hget)
    obtain ⟨b, hb, rfl⟩ := exists_blob_of_listed hlisted
    rw [blob_servedBy io later key hget, hentry]
    exact Option.isSome_iff_exists.mpr ⟨b, hkept _ _ (h.lookup_blob hb)⟩

/-- The directory of a program and a link to it, as it is found. -/
def foundProgram : List Found :=
  [.file 0o100755 (some (ascii "run")) (some (ascii "run")) (ascii "bin/tool"),
    .link (ascii "bin/tool") (ascii "tool")]

/-- A hash that tells the program from other blobs. -/
def programHash (blob : Bytes) : Bytes := ascii (if blob = ascii "run" then "0a" else "0b")

theorem getDir_putDir_foundProgram :
    let held := putDir programHash [] (ascii "k") foundProgram ∅
    let got := getDir ((linkedProgramRun true).servedBy held (ascii "k"))
    got.1 = 0 ∧ ∀ f ∈ foundProgram, f.Restored [] (linkedProgramRun true) got.2 := by
  intro held got
  have hput : Puttable programHash [] (ascii "k") foundProgram ∅ :=
    ⟨putListing_linkedProgram, spelled_linkedProgram, by simp +contextual [foundProgram],
      ⟨by simp [foundProgram, blobsOf, Found.blob], by simp⟩, by simp [blobKey, ascii]⟩
  obtain ⟨hrestored, hzero⟩ := getDir_putDir (linkedProgramRun true) hput (fun _ _ => .inl)
    (fun _ => rfl) ⟨by decide +kernel, by decide +kernel⟩
  have hgot := hzero (fun _ _ => id) fun _ => rfl
  exact ⟨hgot, hrestored hgot⟩

end Repkgs.Jig.Dir
