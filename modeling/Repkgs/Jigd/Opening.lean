import Repkgs.Jigd.Loading

/-!
# Opening the store

What `OpenStore` has built after some of the files, as a function of the
directories it found: each pack is loaded from the first tier that has it, later
copies are removed, and the newest pack wins every key.
-/

namespace Repkgs.Jigd

open Lib

/-- Every pack file stands in one of the tiers, under a name that is read back. -/
structure Readable (d : Disk) (tiers : Nat) : Prop where
  tier_lt : ∀ {t id bs}, d.bytes? t id = some bs → t < tiers
  id_lt : ∀ {t id bs}, d.bytes? t id = some bs → id < 10 ^ 6

/-- No system call of `load` fails. -/
def OpenIO.Faultless (io : OpenIO) : Prop := ∀ t id, ∃ order, io.load t id = .faultless order

/-- The pack ids that `OpenStore` reads from the names of a directory. -/
def packIds (d : Disk) (t : Nat) : List Nat := (d.packNames t).filterMap scanPackName

/-- `openPack` for a name that was read. -/
def openId (now : Int) (io : OpenIO) (t : Nat) (o : Opening) (id : Nat) : Opening :=
  if id ∈ o.core.packs then o.emit [.removePack t id, .removeHint t id]
  else
    let r := o.core.load o.disk t id now (io.load t id)
    { o.emit r.ops with
      core := r.state
      last := if r.ok then max o.last id else o.last }

theorem openTier_eq (now : Int) (io : OpenIO) (o : Opening) (t : Nat) :
    openTier now io o t = (packIds o.disk t).foldl (openId now io t) o := by
  have hnames : ∀ (names : List Bytes) (o : Opening), names.foldl (openPack now io t) o =
      (names.filterMap scanPackName).foldl (openId now io t) o := by
    intro names
    induction names with
    | nil => exact fun o => rfl
    | cons name names ih =>
        intro o
        rw [List.foldl_cons, ih]
        cases hscan : scanPackName name with
        | none => simp [openPack, hscan]
        | some id => simp [openPack, openId, hscan]
  exact hnames _ _

theorem bytes?_isSome_iff (d : Disk) (t id : Nat) :
    (d.bytes? t id).isSome ↔ (t, id) ∈ d.packs.keys := by
  rw [Disk.bytes?, Option.isSome_map, Disk.pack?, AList.lookup_isSome, AList.mem_keys]

theorem hint?_isSome_iff (d : Disk) (t id : Nat) :
    (d.hint? t id).isSome ↔ (t, id) ∈ d.hints.keys := by
  rw [Disk.hint?, AList.lookup_isSome, AList.mem_keys]

/-- The ids in a directory whose names are read back, each once. -/
theorem packIds_perm (d : Disk) (t : Nat) :
    (packIds d t).Perm
      ((d.packs.keys.filter fun k => k.1 = t ∧ k.2 < 10 ^ 6).map Prod.snd) := by
  have hscan : ((d.packs.keys.filter fun k => k.1 = t).map fun k => packName k.2).filterMap
      scanPackName = (d.packs.keys.filter fun k => k.1 = t ∧ k.2 < 10 ^ 6).map Prod.snd := by
    induction d.packs.keys with
    | nil => rfl
    | cons k ks ih =>
        by_cases ht : k.1 = t
        · rw [List.filter_cons_of_pos (by simpa using ht), List.map_cons]
          by_cases hid : k.2 < 10 ^ 6
          · rw [List.filterMap_cons_some (scanPackName_packName hid), ih,
              List.filter_cons_of_pos (by simpa using ⟨ht, hid⟩), List.map_cons]
          · rw [List.filterMap_cons_none (scanPackName_packName_large (Nat.le_of_not_lt hid)), ih,
              List.filter_cons_of_neg (by simpa [ht] using hid)]
        · rw [List.filter_cons_of_neg (by simpa using ht), ih,
            List.filter_cons_of_neg (by simp [ht])]
  rw [← hscan, packIds, Disk.packNames]
  exact (List.perm_insertionSort _ _).filterMap _

theorem mem_packIds_iff (d : Disk) (t id : Nat) :
    id ∈ packIds d t ↔ id < 10 ^ 6 ∧ (d.bytes? t id).isSome := by
  rw [(packIds_perm d t).mem_iff, bytes?_isSome_iff, List.mem_map]
  constructor
  · rintro ⟨⟨t', id'⟩, hk, rfl⟩
    obtain ⟨hmem, hprop⟩ := List.mem_filter.mp hk
    obtain ⟨ht, hlt⟩ : t' = t ∧ id' < 10 ^ 6 := of_decide_eq_true hprop
    exact ⟨hlt, ht ▸ hmem⟩
  · rintro ⟨hlt, hmem⟩
    exact ⟨(t, id), List.mem_filter.mpr ⟨hmem, by simpa using hlt⟩, rfl⟩

variable {d : Disk} {n t id : Nat} {done : List (Nat × Nat)} {bs : Bytes} {o : Opening} {l : Loc}
  {io : OpenIO}

theorem mem_packIds (hd : Readable d n) (t id : Nat) :
    id ∈ packIds d t ↔ (d.bytes? t id).isSome := by
  rw [mem_packIds_iff, and_iff_right_iff_imp]
  intro hsome
  obtain ⟨bs, hbs⟩ := Option.isSome_iff_exists.mp hsome
  exact hd.id_lt hbs

theorem packIds_nodup (d : Disk) (t : Nat) : (packIds d t).Nodup := by
  rw [(packIds_perm d t).nodup_iff]
  apply List.Nodup.map_on
  · intro x hx y hy heq
    have hx1 : x.1 = t := (of_decide_eq_true (List.mem_filter.mp hx).2).1
    have hy1 : y.1 = t := (of_decide_eq_true (List.mem_filter.mp hy).2).1
    exact Prod.ext (hx1.trans hy1.symm) heq
  · exact d.packs.keys_nodup.filter _

/-- The tier a pack was loaded from: the first that was found to have it. -/
def owner (done : List (Nat × Nat)) (id : Nat) : Option Nat :=
  (done.find? fun k => k.2 = id).map Prod.fst

theorem owner_append (done : List (Nat × Nat)) (t i id : Nat) :
    owner (done ++ [(t, i)]) id = (owner done id).or (if i = id then some t else none) := by
  rw [owner, List.find?_append, Option.map_or, owner]
  congr 1
  by_cases h : i = id <;> simp [h]

theorem mem_of_owner (h : owner done id = some t) :
    (t, id) ∈ done := by
  obtain ⟨k, hk, rfl⟩ := Option.map_eq_some_iff.mp h
  have hid : k.2 = id := by simpa using List.find?_some hk
  rw [← hid]
  exact List.mem_of_find?_eq_some hk

theorem owner_isSome (h : (t, id) ∈ done) :
    (owner done id).isSome := by
  rw [owner, Option.isSome_map, List.find?_isSome]
  exact ⟨(t, id), h, by simp⟩

theorem locsAt_pack {e : Bytes × Loc} (h : e ∈ locsAt d t id) :
    e.2.pack = id := by
  have hscan : ∀ (rs : List Record) (off : Nat), e ∈ scanLocs id off rs → e.2.pack = id := by
    intro rs
    induction rs with
    | nil => exact nofun
    | cons r rs ih =>
        intro off hmem
        rcases List.mem_cons.mp hmem with rfl | hmem
        · rfl
        · exact ih _ hmem
  unfold locsAt at h
  split at h
  · cases h
  · split at h
    · obtain ⟨e', -, he⟩ := List.mem_filterMap.mp h
      unfold hintLoc at he
      split at he
      · cases he
      · cases he
        rfl
    · exact hscan _ _ h

/-- A hint file that belongs to the files found: the one that was there, or one
written from an index `idx` that held all live entries of the pack. -/
def HintFor (d : Disk) (index : Map Bytes Loc) (t id : Nat) (hint : Bytes) : Prop :=
  d.hint? t id = some hint ∨ (d.hint? t id = none ∧ ∃ idx order, hint = hintOf idx id order ∧
    (∀ {key l}, idx.lookup key = some l → l.pack = id →
      lastLoc (locsAt d t id) key = some l) ∧
    ∀ {key l}, index.lookup key = some l → l.pack = id → idx.lookup key = some l)

/-- What `OpenStore` has built from the directories `d` once it has seen the
files `done`. -/
structure Opened (d : Disk) (n : Nat) (done : List (Nat × Nat)) (o : Opening) : Prop where
  files : ∀ {t id}, (t, id) ∈ done → ∃ bs, d.bytes? t id = some bs
  place : ∀ id, o.core.place? id = (owner done id).bind fun t =>
    (bytesAfter d t id).map fun bs => ⟨id, t, bs.length⟩
  bytes : ∀ t id, o.disk.bytes? t id = if (t, id) ∈ done then
    (if owner done id = some t then bytesAfter d t id else none) else d.bytes? t id
  hint_rest : ∀ {t id}, (t, id) ∉ done → o.disk.hint? t id = d.hint? t id
  hint_dup : ∀ {t id}, (t, id) ∈ done → owner done id ≠ some t → o.disk.hint? t id = none
  hint_own : ∀ {t id}, owner done id = some t → ∃ hint, o.disk.hint? t id = some hint ∧
    HintFor d o.core.index t id hint
  index_own : ∀ {key l}, o.core.index.lookup key = some l → ∃ t, owner done l.pack = some t ∧
    lastLoc (locsAt d t l.pack) key = some l
  index_all : ∀ {id t key l}, owner done id = some t → lastLoc (locsAt d t id) key = some l →
    ∃ l', o.core.index.lookup key = some l' ∧ id ≤ l'.pack
  last_le : ∀ {id t}, owner done id = some t → id ≤ o.last
  last_mem : o.last = 0 ∨ ∃ t, owner done o.last = some t
  emitted : o.disk = d.applyAll o.ops
  tiers : o.core.tiers.length = n

theorem bytesAfter_isSome (h : d.bytes? t id = some bs) :
    ∃ bs', bytesAfter d t id = some bs' := by
  rw [bytesAfter, h]
  exact ⟨_, rfl⟩

theorem Opened.mem_packs_iff (h : Opened d n done o) (id : Nat) :
    id ∈ o.core.packs ↔ (owner done id).isSome := by
  rw [← AList.lookup_isSome, ← Option.isSome_map (f := Pack.place),
    show Option.map Pack.place _ = _ from h.place id]
  cases hown : owner done id with
  | none => simp
  | some t =>
      obtain ⟨bs, hbs⟩ := h.files (mem_of_owner hown)
      obtain ⟨bs', hbs'⟩ := bytesAfter_isSome hbs
      simp [hbs']

/-- A pack found again in a slower tier loses this copy. -/
theorem Opened.duplicate (h : Opened d n done o) (hnew : (t, id) ∉ done)
    (hbs : d.bytes? t id = some bs) (hown : (owner done id).isSome) :
    Opened d n (done ++ [(t, id)]) (o.emit [.removePack t id, .removeHint t id]) := by
  obtain ⟨t₀, ht₀⟩ := Option.isSome_iff_exists.mp hown
  have hsame : ∀ i, owner (done ++ [(t, id)]) i = owner done i := by
    intro i
    rw [owner_append]
    split
    · next heq =>
        rw [← heq, ht₀]
        rfl
    · cases owner done i <;> rfl
  have hother : owner done id ≠ some t := by
    intro heq
    exact hnew (mem_of_owner heq)
  have hdisk : ∀ t' i, (o.emit [.removePack t id, .removeHint t id]).disk.hint? t' i =
      if (t', i) = (t, id) then none else o.disk.hint? t' i := by
    intro t' i
    simp [Opening.emit]
  refine ⟨?_, ?_, ?_, ?_, ?_, ?_, ?_, ?_, ?_, ?_, ?_, ?_⟩
  · intro t' i hmem
    rcases List.mem_append.mp hmem with hmem | hmem
    · exact h.files hmem
    · cases List.mem_singleton.mp hmem
      exact ⟨bs, hbs⟩
  · intro i
    rw [hsame]
    exact h.place i
  · intro t' i
    simp only [Opening.emit, Disk.applyAll_cons, Disk.applyAll_nil, bytes?_removeHint,
      bytes?_removePack, hsame, List.mem_append, List.mem_singleton]
    by_cases heq : (t', i) = (t, id)
    · cases heq
      simp [hother]
    · simp only [heq, or_false, if_false]
      exact h.bytes t' i
  · intro t' i hmem
    rw [List.mem_append, List.mem_singleton, not_or] at hmem
    rw [hdisk, if_neg hmem.2]
    exact h.hint_rest hmem.1
  · intro t' i hmem hne
    rw [hsame] at hne
    rw [hdisk]
    split
    · rfl
    · next heq =>
        rw [List.mem_append, List.mem_singleton] at hmem
        exact h.hint_dup (hmem.resolve_right heq) hne
  · intro t' i hown'
    rw [hsame] at hown'
    have heq : (t', i) ≠ (t, id) := by
      rintro ⟨⟩
      exact hother hown'
    rw [hdisk, if_neg heq]
    exact h.hint_own hown'
  · intro key l hl
    rw [hsame]
    exact h.index_own hl
  · intro i t' key l hown' hl
    rw [hsame] at hown'
    exact h.index_all hown' hl
  · intro i t' hown'
    rw [hsame] at hown'
    exact h.last_le hown'
  · rcases h.last_mem with hzero | ⟨t', ht'⟩
    · exact Or.inl hzero
    · exact Or.inr ⟨t', by rw [hsame]; exact ht'⟩
  · simp only [Opening.emit]
    rw [Disk.applyAll_append, ← h.emitted]
  · exact h.tiers

theorem newer_eq_some {old new : Option Loc} (h : newer old new = some l) :
    old = some l ∨ new = some l := by
  cases old with
  | none => exact Or.inr h
  | some l₁ =>
      cases new with
      | none => exact Or.inl h
      | some l₂ =>
          simp only [newer] at h
          split at h
          · exact Or.inl h
          · exact Or.inr h

theorem newer_left {old : Option Loc} (h : old = some l) (new : Option Loc) :
    ∃ l', newer old new = some l' ∧ l.pack ≤ l'.pack := by
  subst h
  cases new with
  | none => exact ⟨l, rfl, Nat.le_refl _⟩
  | some l₂ =>
      by_cases hlt : l₂.pack < l.pack
      · exact ⟨l, by simp [newer, hlt], Nat.le_refl _⟩
      · exact ⟨l₂, by simp [newer, hlt], Nat.le_of_not_lt hlt⟩

theorem newer_right (old : Option Loc) {new : Option Loc} (h : new = some l) :
    ∃ l', newer old new = some l' ∧ l.pack ≤ l'.pack := by
  subst h
  cases old with
  | none => exact ⟨l, rfl, Nat.le_refl _⟩
  | some l₁ =>
      by_cases hlt : l.pack < l₁.pack
      · exact ⟨l₁, by simp [newer, hlt], Nat.le_of_lt hlt⟩
      · exact ⟨l, by simp [newer, hlt], Nat.le_refl _⟩

/-- A pack seen for the first time is loaded. -/
theorem Opened.load (h : Opened d n done o) (hbs : d.bytes? t id = some bs)
    (hown : owner done id = none) {now : Int} (hio : io.Faultless) (hnot : id ∉ o.core.packs) :
    Opened d n (done ++ [(t, id)]) (openId now io t o id) := by
  have hnew : ∀ t', (t', id) ∉ done := by
    intro t' hmem
    rw [Option.isSome_iff_exists.mp (owner_isSome hmem) |>.choose_spec] at hown
    cases hown
  obtain ⟨order, horder⟩ := hio t id
  have hbytes : o.disk.bytes? t id = d.bytes? t id := by rw [h.bytes, if_neg (hnew t)]
  have hhint : o.disk.hint? t id = d.hint? t id := h.hint_rest (hnew t)
  have hlocs : locsAt o.disk t id = locsAt d t id := by simp only [locsAt, hbytes, hhint]
  have hafter : bytesAfter o.disk t id = bytesAfter d t id := by
    simp only [bytesAfter, hbytes, hhint]
  obtain ⟨hok, hload⟩ := load_spec (c := o.core) (hbytes.trans hbs) now order
  have hopen : openId now io t o id =
      { core := (o.core.load o.disk t id now (.faultless order)).state
        disk := o.disk.applyAll (o.core.load o.disk t id now (.faultless order)).ops
        ops := o.ops ++ (o.core.load o.disk t id now (.faultless order)).ops
        last := max o.last id } := by
    simp only [openId, if_neg hnot, horder, Opening.emit, hok, if_true]
  have howner : ∀ i, owner (done ++ [(t, id)]) i = if i = id then some t else owner done i := by
    intro i
    rw [owner_append]
    by_cases heq : i = id
    · subst heq
      simp [hown]
    · rw [if_neg heq, if_neg fun h => heq h.symm, Option.or_none]
  have hindex : ∀ key, (openId now io t o id).core.index.lookup key =
      newer (o.core.index.lookup key) (lastLoc (locsAt d t id) key) := by
    intro key
    rw [hopen]
    simp only
    rw [hload.index, hlocs, lookup_foldl_addIndex fun e he => locsAt_pack he]
  have hold : ∀ {key l}, o.core.index.lookup key = some l → l.pack ≠ id := by
    intro key l hl heq
    obtain ⟨t', ht', -⟩ := h.index_own hl
    rw [heq, hown] at ht'
    cases ht'
  have hlast : ∀ {key l}, lastLoc (locsAt d t id) key = some l → l.pack = id :=
    fun hl => locsAt_pack (mem_of_lastLoc hl)
  refine ⟨?_, ?_, ?_, ?_, ?_, ?_, ?_, ?_, ?_, ?_, ?_, ?_⟩
  · intro t' i hmem
    rcases List.mem_append.mp hmem with hmem | hmem
    · exact h.files hmem
    · cases List.mem_singleton.mp hmem
      exact ⟨bs, hbs⟩
  · intro i
    rw [hopen, howner]
    simp only [hload.place, hafter]
    split
    · next heq =>
        subst heq
        rfl
    · exact h.place i
  · intro t' i
    rw [hopen, howner]
    simp only [hload.bytes, hafter, List.mem_append, List.mem_singleton]
    by_cases heq : (t', i) = (t, id)
    · cases heq
      simp
    · simp only [heq, or_false, if_false]
      rw [h.bytes]
      by_cases hi : i = id
      · subst hi
        rw [if_neg (hnew t'), if_neg (hnew t')]
      · rw [if_neg hi]
  · intro t' i hmem
    rw [List.mem_append, List.mem_singleton, not_or] at hmem
    rw [hopen]
    simp only [hload.hint, if_neg hmem.2]
    exact h.hint_rest hmem.1
  · intro t' i hmem hne
    rw [howner] at hne
    have hi : i ≠ id ∧ (t', i) ∈ done := by
      rcases List.mem_append.mp hmem with hin | hin
      · refine ⟨?_, hin⟩
        rintro rfl
        exact hnew t' hin
      · cases List.mem_singleton.mp hin
        simp at hne
    rw [if_neg hi.1] at hne
    rw [hopen]
    simp only [hload.hint, if_neg fun heq : (t', i) = (t, id) => hi.1 (Prod.mk.inj heq).2]
    exact h.hint_dup hi.2 hne
  · intro t' i hown'
    rw [howner] at hown'
    split at hown'
    · next heq =>
        subst heq
        cases hown'
        refine ⟨_, by rw [hopen]; simp only [hload.hint, if_true]; rfl, ?_⟩
        rw [hhint]
        cases hd : d.hint? t i with
        | some hint => exact Or.inl hd
        | none =>
            refine Or.inr ⟨hd, _, order, rfl, ?_, ?_⟩
            · intro key l hl hpack
              rw [hload.index, hlocs, lookup_foldl_addIndex fun e he => locsAt_pack he] at hl
              rcases newer_eq_some hl with hl | hl
              · exact absurd hpack (hold hl)
              · exact hl
            · intro key l hl _
              rw [hopen] at hl
              exact hl
    · next heq =>
        obtain ⟨hint, hhint', hfor⟩ := h.hint_own hown'
        refine ⟨hint, ?_, ?_⟩
        · rw [hopen]
          simp only [hload.hint, if_neg fun hpair : (t', i) = (t, id) => heq (Prod.mk.inj hpair).2]
          exact hhint'
        · rcases hfor with hfor | ⟨hnone, idx, order', rfl, hidx, hall⟩
          · exact Or.inl hfor
          · refine Or.inr ⟨hnone, idx, order', rfl, hidx, ?_⟩
            intro key l hl hpack
            rw [hindex] at hl
            rcases newer_eq_some hl with hl | hl
            · exact hall hl hpack
            · exact absurd (hpack.symm.trans (hlast hl)) heq
  · intro key l hl
    rw [hindex] at hl
    rcases newer_eq_some hl with hl | hl
    · obtain ⟨t', ht', hlast'⟩ := h.index_own hl
      exact ⟨t', by rw [howner, if_neg (hold hl)]; exact ht', hlast'⟩
    · have hpack := hlast hl
      exact ⟨t, by rw [howner, if_pos hpack], hpack ▸ hl⟩
  · intro i t' key l hown' hl
    rw [hindex]
    rw [howner] at hown'
    split at hown'
    · next heq =>
        subst heq
        cases hown'
        obtain ⟨l', hl', hle⟩ := newer_right (o.core.index.lookup key) hl
        exact ⟨l', hl', hlast hl ▸ hle⟩
    · obtain ⟨l₁, hl₁, hle₁⟩ := h.index_all hown' hl
      obtain ⟨l', hl', hle⟩ := newer_left hl₁ (lastLoc (locsAt d t id) key)
      exact ⟨l', hl', hle₁.trans hle⟩
  · intro i t' hown'
    rw [hopen]
    rw [howner] at hown'
    split at hown'
    · next heq => exact heq ▸ Nat.le_max_right _ _
    · exact (h.last_le hown').trans (Nat.le_max_left _ _)
  · rw [hopen]
    simp only [howner]
    rcases Nat.le_total o.last id with hle | hle
    · exact Or.inr ⟨t, by rw [Nat.max_eq_right hle, if_pos rfl]⟩
    · rw [Nat.max_eq_left hle]
      rcases h.last_mem with hzero | ⟨t', ht'⟩
      · exact Or.inl hzero
      · refine Or.inr ⟨t', ?_⟩
        rw [if_neg]
        · exact ht'
        · intro heq
          rw [heq, hown] at ht'
          cases ht'
  · rw [hopen]
    simp only
    rw [Disk.applyAll_append, ← h.emitted]
  · rw [hopen]
    exact hload.tiers.trans h.tiers

theorem Opened.openId (h : Opened d n done o) (hnew : (t, id) ∉ done)
    (hbs : d.bytes? t id = some bs) (hio : io.Faultless) (now : Int) :
    Opened d n (done ++ [(t, id)]) (openId now io t o id) := by
  cases hown : owner done id with
  | none =>
      refine h.load hbs hown hio ?_
      rw [h.mem_packs_iff, hown]
      exact Bool.false_ne_true
  | some t₀ =>
      have hdup := h.duplicate hnew hbs (hown ▸ rfl)
      rwa [← show Jigd.openId now io t o id = _ from
        if_pos ((h.mem_packs_iff id).mpr (hown ▸ rfl))] at hdup

/-- Directories that `OpenStore` can leave when it is stopped: files are whole
or cut as loading cuts them, a copy of every pack is left, and new hint files
list what is in the pack. -/
structure Between (d x : Disk) : Prop where
  bytes : ∀ {t id bs}, x.bytes? t id = some bs →
    d.bytes? t id = some bs ∨ bytesAfter d t id = some bs
  kept : ∀ {t id bs}, d.bytes? t id = some bs → ∃ t' bs', x.bytes? t' id = some bs'
  hint : ∀ {t id hint}, x.hint? t id = some hint → d.hint? t id = some hint ∨
    ∃ idx order, hint = hintOf idx id order ∧ ∀ {key l}, idx.lookup key = some l →
      l.pack = id → lastLoc (locsAt d t id) key = some l

theorem Between.refl (d : Disk) : Between d d :=
  ⟨Or.inl, fun hbs => ⟨_, _, hbs⟩, Or.inl⟩

theorem Opened.between (h : Opened d n done o) : Between d o.disk := by
  constructor
  · intro t id bs hbs
    rw [h.bytes] at hbs
    split at hbs
    · split at hbs
      · exact Or.inr hbs
      · cases hbs
    · exact Or.inl hbs
  · intro t id bs hbs
    by_cases hmem : (t, id) ∈ done
    · obtain ⟨t₀, ht₀⟩ := Option.isSome_iff_exists.mp (owner_isSome hmem)
      obtain ⟨bs₀, hbs₀⟩ := h.files (mem_of_owner ht₀)
      obtain ⟨bs', hbs'⟩ := bytesAfter_isSome hbs₀
      exact ⟨t₀, bs', by rw [h.bytes, if_pos (mem_of_owner ht₀), if_pos ht₀, hbs']⟩
    · exact ⟨t, bs, by rw [h.bytes, if_neg hmem, hbs]⟩
  · intro t id hint hh
    by_cases hmem : (t, id) ∈ done
    · by_cases hown : owner done id = some t
      · obtain ⟨hint', hh', hfor⟩ := h.hint_own hown
        cases hh.symm.trans hh'
        rcases hfor with hold | ⟨-, idx, order, heq, hidx, -⟩
        · exact Or.inl hold
        · exact Or.inr ⟨idx, order, heq, hidx⟩
      · rw [h.hint_dup hmem hown] at hh
        cases hh
    · rw [h.hint_rest hmem] at hh
      exact Or.inl hh

/-- Deleting one copy of a pack that has another. -/
theorem Between.removePack {d x : Disk} (h : Between d x) {t t₀ id : Nat} (hne : t₀ ≠ t)
    (hcopy : (x.bytes? t₀ id).isSome) : Between d (FileOp.apply x (.removePack t id)) := by
  constructor
  · intro t' i bs hbs
    rw [bytes?_removePack] at hbs
    split at hbs
    · cases hbs
    · exact h.bytes hbs
  · intro t' i bs hbs
    by_cases hi : i = id
    · subst hi
      obtain ⟨bs₀, hbs₀⟩ := Option.isSome_iff_exists.mp hcopy
      exact ⟨t₀, bs₀, by rw [bytes?_removePack, if_neg (by simp [hne]), hbs₀]⟩
    · obtain ⟨t₁, bs₁, hbs₁⟩ := h.kept hbs
      exact ⟨t₁, bs₁, by rw [bytes?_removePack, if_neg (by simp [hi]), hbs₁]⟩
  · intro t' i hint hh
    rw [hint?_removePack] at hh
    exact h.hint hh

/-- `Opened`, at the end and after every system call on the way. -/
structure Recovering (d : Disk) (n : Nat) (done : List (Nat × Nat)) (o : Opening) : Prop
    extends Opened d n done o where
  trace : ∀ k, Between d (d.applyAll (o.ops.take k))

/-- More system calls, each of which leaves such directories. -/
theorem Recovering.extend {done done' : List (Nat × Nat)} {o o' : Opening}
    (h : Recovering d n done o) (h' : Opened d n done' o') {ops : List FileOp}
    (hops : o'.ops = o.ops ++ ops)
    (hpart : ∀ k < ops.length, Between d (o.disk.applyAll (ops.take k))) :
    Recovering d n done' o' := by
  refine ⟨h', ?_⟩
  intro k
  rw [hops]
  rcases Nat.lt_or_ge k (o.ops ++ ops).length with hlt | hge
  · rcases Nat.le_total k o.ops.length with hle | hle
    · rw [List.take_append_of_le_length hle]
      exact h.trace k
    · rw [List.take_append, List.take_of_length_le hle, Disk.applyAll_append, ← h.emitted]
      rw [List.length_append] at hlt
      exact hpart _ (by omega)
  · rw [List.take_of_length_le hge, ← hops, ← h'.emitted]
    exact h'.between

theorem Recovering.openId (h : Recovering d n done o) (hnew : (t, id) ∉ done)
    (hbs : d.bytes? t id = some bs) (hio : io.Faultless) (now : Int) :
    Recovering d n (done ++ [(t, id)]) (Jigd.openId now io t o id) := by
  have hopened := h.toOpened.openId hnew hbs hio now
  cases hown : owner done id with
  | some t₀ =>
      have hmem : id ∈ o.core.packs := (h.mem_packs_iff id).mpr (hown ▸ rfl)
      have hops : (Jigd.openId now io t o id).ops =
          o.ops ++ [.removePack t id, .removeHint t id] := by
        simp [Jigd.openId, hmem, Opening.emit]
      refine h.extend hopened hops ?_
      intro k hk
      have hk' : k < 2 := hk
      have hne : t₀ ≠ t := by
        rintro rfl
        exact hnew (mem_of_owner hown)
      have hcopy : (o.disk.bytes? t₀ id).isSome := by
        obtain ⟨bs₀, hbs₀⟩ := h.files (mem_of_owner hown)
        obtain ⟨bs', hbs'⟩ := bytesAfter_isSome hbs₀
        rw [h.bytes, if_pos (mem_of_owner hown), if_pos hown, hbs']
        rfl
      rcases Nat.lt_succ_iff_lt_or_eq.mp hk' with hlt | rfl
      · rw [Nat.lt_one_iff.mp hlt]
        exact h.between
      · exact h.between.removePack hne hcopy
  | none =>
      have hnot : id ∉ o.core.packs := by
        rw [h.mem_packs_iff, hown]
        exact Bool.false_ne_true
      have hnew' : ∀ t', (t', id) ∉ done := by
        intro t' hmem
        obtain ⟨t₁, ht₁⟩ := Option.isSome_iff_exists.mp (owner_isSome hmem)
        rw [hown] at ht₁
        cases ht₁
      obtain ⟨order, horder⟩ := hio t id
      have hbytes : o.disk.bytes? t id = d.bytes? t id := by rw [h.bytes, if_neg (hnew' t)]
      have hhint : o.disk.hint? t id = d.hint? t id := h.hint_rest (hnew' t)
      have hops : (Jigd.openId now io t o id).ops =
          o.ops ++ (o.core.load o.disk t id now (.faultless order)).ops := by
        simp only [Jigd.openId, if_neg hnot, horder, Opening.emit]
      refine h.extend hopened hops ?_
      intro k hk
      obtain ⟨hhints, hfiles⟩ := load_part (hbytes.trans hbs) now order hk
      have hmid := h.between
      constructor
      · intro t' i bs' hbs'
        rcases hfiles t' i with hsame | ⟨heq, hcut⟩
        · exact hmid.bytes (hsame ▸ hbs')
        · obtain ⟨rfl, rfl⟩ := Prod.mk.inj heq
          refine Or.inr ?_
          rw [← hbs', hcut]
          simp only [bytesAfter, hbytes, hhint]
      · intro t' i bs' hbs'
        obtain ⟨t₁, bs₁, hbs₁⟩ := hmid.kept hbs'
        rcases hfiles t₁ i with hsame | ⟨heq, hcut⟩
        · exact ⟨t₁, bs₁, hsame.trans hbs₁⟩
        · obtain ⟨rfl, rfl⟩ := Prod.mk.inj heq
          obtain ⟨bs₂, hbs₂⟩ := bytesAfter_isSome hbs₁
          exact ⟨t₁, bs₂, hcut.trans hbs₂⟩
      · intro t' i hint hh
        exact hmid.hint ((hhints t' i).symm.trans hh)

/-- All files of the tiers below `t` have been seen, tier by tier. -/
structure Seen (d : Disk) (t : Nat) (done : List (Nat × Nat)) : Prop where
  mem_iff : ∀ t' id, (t', id) ∈ done ↔ t' < t ∧ (d.bytes? t' id).isSome
  sorted : done.Pairwise fun a b => a.1 ≤ b.1

theorem Recovering.openIds (hio : io.Faultless) (now : Int) (t : Nat) (ids : List Nat)
    (hnodup : ids.Nodup) (hfile : ∀ id ∈ ids, (d.bytes? t id).isSome) (h : Recovering d n done o)
    (hnew : ∀ id ∈ ids, (t, id) ∉ done) :
    Recovering d n (done ++ ids.map fun id => (t, id)) (ids.foldl (Jigd.openId now io t) o) := by
  induction ids generalizing done o with
  | nil =>
      rw [List.map_nil, List.append_nil]
      exact h
  | cons id ids ih =>
      obtain ⟨hid, hids⟩ := List.nodup_cons.mp hnodup
      obtain ⟨bs, hbs⟩ := Option.isSome_iff_exists.mp (hfile id (.head _))
      have hstep := h.openId (hnew id (.head _)) hbs hio now
      have hrest := ih hids (fun i hi => hfile i (.tail _ hi)) hstep (by
        intro i hi hmem
        rcases List.mem_append.mp hmem with hmem | hmem
        · exact hnew i (.tail _ hi) hmem
        · cases List.mem_singleton.mp hmem
          exact hid hi)
      rw [List.map_cons, List.append_cons]
      exact hrest

theorem Recovering.openTier (h : Recovering d n done o) (hd : Readable d n) (hseen : Seen d t done)
    (hio : io.Faultless) (now : Int) :
    ∃ done', Recovering d n done' (openTier now io o t) ∧ Seen d (t + 1) done' := by
  have hsub : ∀ {t' id bs}, o.disk.bytes? t' id = some bs → ∃ bs', d.bytes? t' id = some bs' := by
    intro t' id bs hbs
    rw [h.bytes] at hbs
    split at hbs
    · next hmem => exact h.files hmem
    · exact ⟨bs, hbs⟩
  have hread : Readable o.disk n := by
    refine ⟨?_, ?_⟩
    · intro t' id bs hbs
      obtain ⟨bs', hbs'⟩ := hsub hbs
      exact hd.tier_lt hbs'
    · intro t' id bs hbs
      obtain ⟨bs', hbs'⟩ := hsub hbs
      exact hd.id_lt hbs'
  have hnew : ∀ id, (t, id) ∉ done := fun id hmem =>
    absurd ((hseen.mem_iff t id).mp hmem).1 (Nat.lt_irrefl _)
  have hids : ∀ id, id ∈ packIds o.disk t ↔ (d.bytes? t id).isSome := by
    intro id
    rw [mem_packIds hread, h.bytes, if_neg (hnew id)]
  refine ⟨done ++ (packIds o.disk t).map fun id => (t, id), ?_, ?_, ?_⟩
  · rw [openTier_eq]
    exact Recovering.openIds hio now t _ (packIds_nodup _ t) (fun id hid => (hids id).mp hid) h
      fun id _ => hnew id
  · intro t' id
    rw [List.mem_append, hseen.mem_iff, List.mem_map]
    constructor
    · rintro (⟨hlt, hsome⟩ | ⟨i, hi, heq⟩)
      · exact ⟨Nat.lt_succ_of_lt hlt, hsome⟩
      · cases heq
        exact ⟨Nat.lt_succ_self _, (hids id).mp hi⟩
    · rintro ⟨hlt, hsome⟩
      rcases Nat.lt_succ_iff_lt_or_eq.mp hlt with hlt | rfl
      · exact Or.inl ⟨hlt, hsome⟩
      · exact Or.inr ⟨id, (hids id).mpr hsome, rfl⟩
  · rw [List.pairwise_append]
    refine ⟨hseen.sorted, ?_, ?_⟩
    · rw [List.pairwise_map]
      exact List.pairwise_of_forall fun _ _ => Nat.le_refl _
    · intro a ha b hb
      obtain ⟨i, -, rfl⟩ := List.mem_map.mp hb
      exact Nat.le_of_lt ((hseen.mem_iff a.1 a.2).mp ha).1

theorem openTiers_spec {budgets : List Int} (hd : Readable d budgets.length) (hio : io.Faultless)
    (now : Int) :
    ∃ done, Recovering d budgets.length done (openTiers budgets d now io) ∧
      Seen d budgets.length done := by
  have hfold : ∀ k, ∃ done, Recovering d budgets.length done
      ((List.range k).foldl (openTier now io)
        ⟨⟨budgets.map fun b => ⟨b, 0⟩, ∅, ∅⟩, d, [], 0⟩) ∧ Seen d k done := by
    intro k
    induction k with
    | zero =>
        refine ⟨[], ⟨⟨nofun, ?_, ?_, ?_, nofun, nofun, ?_, nofun, nofun, Or.inl rfl, rfl, ?_⟩,
          ?_⟩, ?_, List.Pairwise.nil⟩
        · intro id
          rfl
        · intro t id
          rfl
        · intro t id _
          rfl
        · intro key l hl
          cases hl
        · simp
        · intro k
          change Between d (d.applyAll (([] : List FileOp).take k))
          rw [List.take_nil]
          exact Between.refl d
        · intro t id
          simp
    | succ k ih =>
        obtain ⟨done, hopened, hseen⟩ := ih
        rw [List.range_succ, List.foldl_append]
        exact hopened.openTier hd hseen hio now
  exact hfold budgets.length

/-- A pack is loaded from the fastest tier that has it. -/
theorem Seen.owner_le (h : Seen d n done) {t t' id : Nat} (hown : owner done id = some t)
    (ht' : t' < n) (hbs : d.bytes? t' id = some bs) : t ≤ t' := by
  have hmem : (t', id) ∈ done := (h.mem_iff t' id).mpr ⟨ht', hbs ▸ rfl⟩
  obtain ⟨k, hk, rfl⟩ := Option.map_eq_some_iff.mp hown
  obtain ⟨hid, before, after, rfl, hbefore⟩ := List.find?_eq_some_iff_append.mp hk
  rcases List.mem_append.mp hmem with hin | hin
  · have := hbefore _ hin
    simp at this
  · rcases List.mem_cons.mp hin with heq | hin
    · rw [← heq]
    · exact (List.pairwise_cons.mp (List.pairwise_append.mp h.sorted).2.1).1 _ hin

end Repkgs.Jigd
