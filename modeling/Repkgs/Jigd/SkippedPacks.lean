import Repkgs.Jigd.Accounting

/-!
# Packs that fail to load

`OpenStore` reports a pack that fails to load and goes on with the next one. The
loop is run here with a list of the packs it reports, and compared with a run on
directories that never held them.
-/

namespace Repkgs.Jigd

open Lib

/-- A load that fails before it has touched the tables. -/
def LoadIO.early (io : LoadIO) : Bool := io.openFails || io.statFails

/-- `load` is called for the pack and returns an error. -/
def loadFails (now : Int) (io : OpenIO) (t : Nat) (o : Opening) (id : Nat) : Bool :=
  id ∉ o.core.packs && !(o.core.load o.disk t id now (io.load t id)).ok

/-- The loop of `OpenStore` with the packs it has reported as skipped. -/
structure LoadLog where
  opening : Opening
  skipped : List (Nat × Nat)

def logPack (now : Int) (io : OpenIO) (t : Nat) (s : LoadLog) (name : Bytes) : LoadLog where
  opening := openPack now io t s.opening name
  skipped := s.skipped ++
    ((scanPackName name).toList.filter (loadFails now io t s.opening)).map fun id => (t, id)

def logTier (now : Int) (io : OpenIO) (s : LoadLog) (t : Nat) : LoadLog :=
  (s.opening.disk.packNames t).foldl (logPack now io t) s

def logTiers (budgets : List Int) (d : Disk) (now : Int) (io : OpenIO) : LoadLog :=
  (List.range budgets.length).foldl (logTier now io)
    ⟨⟨⟨budgets.map fun b => ⟨b, 0⟩, ∅, ∅⟩, d, [], 0⟩, []⟩

/-- The packs whose load returned an error, by tier and id. -/
def skippedPacks (budgets : List Int) (d : Disk) (now : Int) (io : OpenIO) :
    List (Nat × Nat) :=
  (logTiers budgets d now io).skipped

/-- The directories without some of the pack files. -/
def Disk.without (d : Disk) (ks : List (Nat × Nat)) : Disk :=
  { d with packs := Map.filter d.packs fun k _ => decide (k ∉ ks) }

theorem logTier_opening (now : Int) (io : OpenIO) (s : LoadLog) (t : Nat) :
    (logTier now io s t).opening = openTier now io s.opening t := by
  unfold logTier openTier
  generalize s.opening.disk.packNames t = names
  induction names generalizing s with
  | nil => rfl
  | cons name names ih => exact ih (logPack now io t s name)

/-- The list of reports changes nothing about the run. -/
theorem logTiers_opening (budgets : List Int) (d : Disk) (now : Int) (io : OpenIO) :
    (logTiers budgets d now io).opening = openTiers budgets d now io := by
  have hfold : ∀ (ts : List Nat) (s : LoadLog),
      (ts.foldl (logTier now io) s).opening = ts.foldl (openTier now io) s.opening := by
    intro ts
    induction ts with
    | nil => exact fun s => rfl
    | cons t ts ih =>
        intro s
        rw [List.foldl_cons, ih, logTier_opening, List.foldl_cons]
  exact hfold _ _

theorem pack?_without (d : Disk) (ks : List (Nat × Nat)) (t id : Nat) :
    (d.without ks).pack? t id = if (t, id) ∈ ks then none else d.pack? t id := by
  rw [Disk.pack?, Disk.without, Map.lookup_filter, Disk.pack?]
  split
  · next hmem => cases d.packs.lookup (t, id) <;> simp [Option.filter, hmem]
  · next hmem => cases d.packs.lookup (t, id) <;> simp [Option.filter, hmem]

/-- Changes of the files of one pack that opening makes. -/
inductive FileOp.Local (t id : Nat) : FileOp → Prop
  | truncate (size : Nat) (now : Int) : Local t id (.truncate t id size now)
  | putHint (data : Bytes) : Local t id (.putHint t id data)
  | removePack : Local t id (.removePack t id)
  | removeHint : Local t id (.removeHint t id)

theorem FileOp.Local.other {t id : Nat} {op : FileOp} (h : op.Local t id) (d : Disk)
    {k : Nat × Nat} (hne : k ≠ (t, id)) :
    (op.apply d).pack? k.1 k.2 = d.pack? k.1 k.2 ∧
      (op.apply d).hint? k.1 k.2 = d.hint? k.1 k.2 := by
  cases h with
  | truncate size now =>
      exact ⟨(Map.lookup_adjust _ _ _ _).trans (if_neg hne), rfl⟩
  | putHint data => exact ⟨rfl, (Map.lookup_insert_eq _ _ _ _).trans (if_neg hne)⟩
  | removePack => exact ⟨(Map.lookup_erase_eq _ _ _).trans (if_neg hne), rfl⟩
  | removeHint => exact ⟨rfl, (Map.lookup_erase_eq _ _ _).trans (if_neg hne)⟩

theorem FileOp.Local.same {t id : Nat} {op : FileOp} (h : op.Local t id) {d d' : Disk}
    (hpack : d'.pack? t id = d.pack? t id) (hhint : d'.hint? t id = d.hint? t id) :
    (op.apply d').pack? t id = (op.apply d).pack? t id ∧
      (op.apply d').hint? t id = (op.apply d).hint? t id := by
  unfold Disk.pack? at hpack
  cases h with
  | truncate size now =>
      refine ⟨?_, hhint⟩
      simp only [FileOp.apply, Disk.pack?, Map.lookup_adjust, if_true, hpack]
  | putHint data =>
      refine ⟨hpack, ?_⟩
      simp only [hint?_putHint, if_true]
  | removePack =>
      refine ⟨?_, hhint⟩
      simp only [FileOp.apply, Disk.pack?, Map.lookup_erase_eq, if_true]
  | removeHint =>
      refine ⟨hpack, ?_⟩
      simp only [hint?_removeHint, if_true]

/-- A second copy of a pack loses both its files. -/
theorem duplicate_local (t id : Nat) :
    ∀ op ∈ [FileOp.removePack t id, .removeHint t id], op.Local t id := by
  intro op hop
  rcases List.mem_cons.mp hop with rfl | hop
  · exact .removePack
  · cases List.mem_singleton.mp hop
    exact .removeHint

theorem applyAll_local_other {ops : List FileOp} {t id : Nat} (h : ∀ op ∈ ops, op.Local t id)
    (d : Disk) {k : Nat × Nat} (hne : k ≠ (t, id)) :
    (d.applyAll ops).pack? k.1 k.2 = d.pack? k.1 k.2 ∧
      (d.applyAll ops).hint? k.1 k.2 = d.hint? k.1 k.2 := by
  induction ops generalizing d with
  | nil => exact ⟨rfl, rfl⟩
  | cons op ops ih =>
      obtain ⟨hpack, hhint⟩ := (h op (.head _)).other d hne
      obtain ⟨hpack', hhint'⟩ := ih (fun o ho => h o (.tail _ ho)) (op.apply d)
      exact ⟨hpack'.trans hpack, hhint'.trans hhint⟩

theorem applyAll_local_same {ops : List FileOp} {t id : Nat} (h : ∀ op ∈ ops, op.Local t id)
    {d d' : Disk} (hpack : d'.pack? t id = d.pack? t id) (hhint : d'.hint? t id = d.hint? t id) :
    (d'.applyAll ops).pack? t id = (d.applyAll ops).pack? t id ∧
      (d'.applyAll ops).hint? t id = (d.applyAll ops).hint? t id := by
  induction ops generalizing d d' with
  | nil => exact ⟨hpack, hhint⟩
  | cons op ops ih =>
      obtain ⟨hpack', hhint'⟩ := (h op (.head _)).same hpack hhint
      exact ih (fun o ho => h o (.tail _ ho)) hpack' hhint'

theorem load_local (c : Core) (d : Disk) (t id : Nat) (now : Int) (io : LoadIO) :
    ∀ op ∈ (c.load d t id now io).ops, op.Local t id := by
  have hscan : ∀ (c : Core) (p : Pack) (bs : Bytes),
      ∀ op ∈ (c.loadScan p bs now io).ops, op.Local p.tier p.id := by
    intro c p bs op hop
    unfold Core.loadScan at hop
    simp only at hop
    split at hop
    · cases hop
    · have hcut : ∀ {off op}, op ∈ (if off ≠ p.size then
          [FileOp.truncate p.tier p.id off now] else []) → op.Local p.tier p.id := by
        intro off op hmem
        split at hmem
        · cases List.mem_singleton.mp hmem
          exact .truncate _ _
        · cases hmem
      split at hop
      · exact hcut hop
      · rcases List.mem_append.mp hop with hop | hop
        · exact hcut hop
        · cases List.mem_singleton.mp hop
          exact .putHint _
  unfold Core.load
  split
  · exact nofun
  · split
    · exact nofun
    · simp only
      split
      · exact nofun
      · exact hscan _ _ _

theorem load_early {io : LoadIO} (h : io.early = true) (c : Core) (d : Disk) (t id : Nat)
    (now : Int) : c.load d t id now io = ⟨c, [], false⟩ := by
  unfold Core.load
  cases d.pack? t id with
  | none => rfl
  | some f => exact if_pos h

/-- The tier a pack is registered in. -/
def Core.tierOf? (c : Core) (id : Nat) : Option Nat := (c.packs.lookup id).map Pack.tier

theorem tierOf?_eq (c : Core) (id : Nat) : c.tierOf? id = (c.place? id).map Place.tier := by
  rw [Core.tierOf?, Core.place?, Option.map_map]
  rfl

theorem mem_packs_iff_tierOf? (c : Core) (id : Nat) : id ∈ c.packs ↔ (c.tierOf? id).isSome := by
  rw [Core.tierOf?, Option.isSome_map, AList.lookup_isSome]

/-- What a load leaves in the tables, whether or not it fails later on. -/
structure Registers (c c' : Core) (t id : Nat) : Prop where
  tierOf : ∀ i, c'.tierOf? i = if i = id then some t else c.tierOf? i
  index : ∀ {key l}, c'.index.lookup key = some l → c.index.lookup key = some l ∨ l.pack = id

theorem foldl_add_registers {c : Core} {p : Pack} {es : List (Bytes × Loc)}
    (hes : ∀ e ∈ es, e.2.pack = p.id) :
    Registers c (es.foldl Core.add { c with packs := c.packs.insert p.id p }) p.tier p.id := by
  obtain ⟨hindex, hplace, -⟩ := foldl_add es { c with packs := c.packs.insert p.id p }
  refine ⟨?_, ?_⟩
  · intro i
    rw [tierOf?_eq, hplace, place?_insert, tierOf?_eq]
    split <;> rfl
  · intro key l hl
    rw [hindex, lookup_foldl_addIndex hes] at hl
    refine (newer_eq_some hl).imp_right ?_
    intro hlast
    exact hes _ (mem_of_lastLoc hlast)

theorem Registers.resize {c c' : Core} {p : Pack} (h : Registers c c' p.tier p.id) (size : Nat) :
    Registers c (c'.resize p size) p.tier p.id := by
  refine ⟨?_, h.index⟩
  intro i
  rw [← h.tierOf, Core.tierOf?, Core.resize, Map.lookup_adjust]
  split
  · rw [Option.map_map]
    rfl
  · rfl

/-- Behind `open` and `stat` every load registers its pack, failed or not. -/
theorem load_registers {c : Core} {d : Disk} {t id : Nat} {f : PackFile}
    (hf : d.pack? t id = some f) {io : LoadIO} (hio : io.early = false) (now : Int) :
    Registers c (c.load d t id now io).state t id := by
  unfold Core.load
  rw [hf]
  simp only
  rw [if_neg (by rw [← LoadIO.early, hio]; exact Bool.false_ne_true)]
  split
  · next hint _ =>
      have hlocs : ∀ e ∈ hintLocs id f.bytes.length hint, e.2.pack = id :=
        fun e he => mem_hintLocs_pack he
      have hadd := foldl_add_registers (c := c)
        (p := ⟨id, t, f.bytes.length, 0, f.mtime, f.mtime⟩) hlocs
      exact ⟨hadd.tierOf, hadd.index⟩
  · have hlocs : ∀ e ∈ scanLocs id 0 (recordFormat.readAll f.bytes).1, e.2.pack = id :=
      fun e he => mem_scanLocs_pack he
    have hadd := foldl_add_registers (c := c)
      (p := ⟨id, t, f.bytes.length, 0, f.mtime, f.mtime⟩) hlocs
    unfold Core.loadScan
    simp only
    split
    · exact hadd
    · split
      · exact hadd.resize _
      · exact hadd.resize _

/-- What the loop has done with the files `done` of the directories `x`. -/
structure Scanned (x : Disk) (io : OpenIO) (n : Nat) (done : List (Nat × Nat)) (s : LoadLog) :
    Prop where
  untouched : ∀ {t id}, (t, id) ∉ done → s.opening.disk.pack? t id = x.pack? t id
  seen : ∀ {t id}, (t, id) ∈ done → id ∈ s.opening.core.packs ∨ (t, id) ∈ s.skipped
  placed : ∀ {id t}, s.opening.core.tierOf? id = some t →
    t < n ∧ (x.pack? t id).isSome ∧ (io.load t id).early = false
  indexed : ∀ {key l}, s.opening.core.index.lookup key = some l → l.pack ∈ s.opening.core.packs
  reported : ∀ {t id}, (t, id) ∈ s.skipped → t < n ∧ id < 10 ^ 6 ∧ (x.pack? t id).isSome ∧
    ((io.load t id).early = true ∨ s.opening.core.tierOf? id = some t)
  last_lt : s.opening.last < 10 ^ 6
  last_mem : s.opening.last = 0 ∨ s.opening.last ∈ s.opening.core.packs
  le_last : (∀ k ∈ s.skipped, (io.load k.1 k.2).early = true) →
    ∀ {id}, id ∈ s.opening.core.packs → id ≤ s.opening.last

theorem logPack_unread {now : Int} {io : OpenIO} {t : Nat} {s : LoadLog} {name : Bytes}
    (h : scanPackName name = none) : logPack now io t s name = s := by
  simp [logPack, openPack, h]

variable {x : Disk} {io : OpenIO} {n : Nat} {done : List (Nat × Nat)} {s : LoadLog}

/-- A pack that is in the tables already loses this copy. -/
theorem Scanned.duplicate (h : Scanned x io n done s) {t id : Nat}
    (hdup : id ∈ s.opening.core.packs) :
    Scanned x io n (done ++ [(t, id)])
      ⟨s.opening.emit [.removePack t id, .removeHint t id], s.skipped⟩ := by
  have hops := duplicate_local t id
  refine ⟨?_, ?_, h.placed, h.indexed, h.reported, h.last_lt, h.last_mem, h.le_last⟩
  · intro t' i hnew
    rw [List.mem_append, List.mem_singleton, not_or] at hnew
    exact ((applyAll_local_other hops s.opening.disk hnew.2).1).trans (h.untouched hnew.1)
  · intro t' i hmem
    rcases List.mem_append.mp hmem with hmem | hmem
    · exact h.seen hmem
    · cases List.mem_singleton.mp hmem
      exact Or.inl hdup

/-- A pack that cannot be opened is only reported. -/
theorem Scanned.unopened (h : Scanned x io n done s) {t id : Nat} (ht : t < n)
    (hid : id < 10 ^ 6) (hfile : (x.pack? t id).isSome) (hearly : (io.load t id).early = true) :
    Scanned x io n (done ++ [(t, id)]) ⟨s.opening, s.skipped ++ [(t, id)]⟩ := by
  refine ⟨?_, ?_, h.placed, h.indexed, ?_, h.last_lt, h.last_mem, ?_⟩
  · intro t' i hnew
    exact h.untouched fun hmem => hnew (List.mem_append_left _ hmem)
  · intro t' i hmem
    rcases List.mem_append.mp hmem with hmem | hmem
    · exact (h.seen hmem).imp_right (List.mem_append_left _)
    · exact Or.inr (List.mem_append_right _ hmem)
  · intro t' i hmem
    rcases List.mem_append.mp hmem with hmem | hmem
    · exact h.reported hmem
    · cases List.mem_singleton.mp hmem
      exact ⟨ht, hid, hfile, Or.inl hearly⟩
  · intro hall
    exact h.le_last fun k hk => hall k (List.mem_append_left _ hk)

/-- A pack that was opened: `skipped` and `last` say whether the load came through. -/
theorem Scanned.loaded (h : Scanned x io n done s) {t id : Nat} (ht : t < n)
    (hid : id < 10 ^ 6) (hfile : (x.pack? t id).isSome) (hlate : (io.load t id).early = false)
    (hnew : id ∉ s.opening.core.packs) {c : Core} (hc : Registers s.opening.core c t id)
    {ops : List FileOp} (hops : ∀ op ∈ ops, op.Local t id) (ok : Bool) :
    Scanned x io n (done ++ [(t, id)])
      ⟨{ s.opening.emit ops with
          core := c
          last := if ok then max s.opening.last id else s.opening.last },
        if ok then s.skipped else s.skipped ++ [(t, id)]⟩ := by
  have hmem : ∀ {i}, i ∈ c.packs ↔ i = id ∨ i ∈ s.opening.core.packs := by
    intro i
    rw [mem_packs_iff_tierOf?, hc.tierOf, mem_packs_iff_tierOf?]
    split
    · next heq => simp [heq]
    · next hne => simp [hne]
  have hskip : ∀ {k}, k ∈ (if ok then s.skipped else s.skipped ++ [(t, id)]) →
      k ∈ s.skipped ∨ (k = (t, id) ∧ ok = false) := by
    intro k hk
    cases ok with
    | true => exact Or.inl hk
    | false => exact (List.mem_append.mp hk).imp_right fun h => ⟨List.mem_singleton.mp h, rfl⟩
  have hkeep : ∀ {k}, k ∈ s.skipped →
      k ∈ (if ok then s.skipped else s.skipped ++ [(t, id)]) := by
    intro k hk
    cases ok with
    | true => exact hk
    | false => exact List.mem_append_left _ hk
  refine ⟨?_, ?_, ?_, ?_, ?_, ?_, ?_, ?_⟩
  · intro t' i hdone
    rw [List.mem_append, List.mem_singleton, not_or] at hdone
    exact ((applyAll_local_other hops s.opening.disk hdone.2).1).trans (h.untouched hdone.1)
  · intro t' i hdone
    rcases List.mem_append.mp hdone with hdone | hdone
    · exact (h.seen hdone).imp (fun hi => hmem.mpr (Or.inr hi)) hkeep
    · cases List.mem_singleton.mp hdone
      exact Or.inl (hmem.mpr (Or.inl rfl))
  · intro i t' hi
    rw [hc.tierOf] at hi
    split at hi
    · next heq =>
        cases hi
        exact ⟨ht, heq ▸ hfile, heq ▸ hlate⟩
    · exact h.placed hi
  · intro key l hl
    rcases hc.index hl with hl | hl
    · exact hmem.mpr (Or.inr (h.indexed hl))
    · exact hmem.mpr (Or.inl hl)
  · intro t' i hk
    rw [hc.tierOf]
    rcases hskip hk with hk | ⟨heq, -⟩
    · obtain ⟨ht', hi, hf, hor⟩ := h.reported hk
      refine ⟨ht', hi, hf, hor.imp_right ?_⟩
      intro htier
      rw [if_neg]
      · exact htier
      · rintro rfl
        exact hnew ((mem_packs_iff_tierOf? _ _).mpr (htier ▸ rfl))
    · cases heq
      exact ⟨ht, hid, hfile, Or.inr (if_pos rfl)⟩
  · simp only
    split
    · exact Nat.max_lt.mpr ⟨h.last_lt, hid⟩
    · exact h.last_lt
  · have hold := h.last_mem.imp_right fun hi => hmem.mpr (Or.inr hi)
    simp only
    split
    · rcases max_choice s.opening.last id with heq | heq
      · rwa [heq]
      · exact Or.inr (hmem.mpr (Or.inl heq))
    · exact hold
  · intro hall i hi
    cases ok with
    | false =>
        have hearly := hall (t, id) (List.mem_append_right _ (.head _))
        rw [hlate] at hearly
        cases hearly
    | true =>
        show i ≤ max s.opening.last id
        rcases hmem.mp hi with rfl | hi
        · exact Nat.le_max_right _ _
        · exact (h.le_last hall hi).trans (Nat.le_max_left _ _)

theorem Scanned.logPack (h : Scanned x io n done s) {t id : Nat} {name : Bytes}
    (hname : scanPackName name = some id) (hnew : (t, id) ∉ done) (ht : t < n)
    (hfile : (x.pack? t id).isSome) (now : Int) :
    Scanned x io n (done ++ [(t, id)]) (logPack now io t s name) := by
  have hid := scanPackName_lt hname
  obtain ⟨f, hf⟩ := Option.isSome_iff_exists.mp hfile
  simp only [Jigd.logPack, openPack, hname, Option.toList_some]
  by_cases hdup : id ∈ s.opening.core.packs
  · have hquiet : loadFails now io t s.opening id = false := by simp [loadFails, hdup]
    rw [if_pos hdup, List.filter_cons_of_neg (by rw [hquiet]; exact Bool.false_ne_true),
      List.filter_nil, List.map_nil, List.append_nil]
    exact h.duplicate hdup
  · rw [if_neg hdup]
    cases hearly : (io.load t id).early with
    | true =>
        have hload := load_early hearly s.opening.core s.opening.disk t id now
        have hfails : loadFails now io t s.opening id = true := by simp [loadFails, hdup, hload]
        rw [List.filter_cons_of_pos hfails]
        simp only [hload, Opening.emit, Disk.applyAll_nil, List.append_nil, List.filter_nil,
          List.map_cons, List.map_nil, Bool.false_eq_true, if_false]
        exact h.unopened ht hid hfile hearly
    | false =>
        have hstill : s.opening.disk.pack? t id = some f := (h.untouched hnew).trans hf
        have hdone := h.loaded ht hid hfile hearly hdup (load_registers hstill hearly now)
          (load_local s.opening.core s.opening.disk t id now (io.load t id))
          (s.opening.core.load s.opening.disk t id now (io.load t id)).ok
        convert hdone using 2
        cases hok : (s.opening.core.load s.opening.disk t id now (io.load t id)).ok with
        | true => simp [loadFails, hok]
        | false => simp [loadFails, hok, hdup]

theorem bytes?_isSome_eq (d : Disk) (t id : Nat) :
    (d.bytes? t id).isSome = (d.pack? t id).isSome := by
  rw [Disk.bytes?, Option.isSome_map]

/-- The files of one directory, none of them seen before. -/
theorem Scanned.logNames {now : Int} {t : Nat} (ht : t < n) (names : List Bytes)
    (hnodup : (names.filterMap scanPackName).Nodup)
    (hfile : ∀ id ∈ names.filterMap scanPackName, (t, id) ∉ done ∧ (x.pack? t id).isSome)
    (h : Scanned x io n done s) :
    Scanned x io n (done ++ (names.filterMap scanPackName).map fun id => (t, id))
      (names.foldl (Jigd.logPack now io t) s) := by
  induction names generalizing done s with
  | nil =>
      rw [List.filterMap_nil, List.map_nil, List.append_nil]
      exact h
  | cons name names ih =>
      cases hname : scanPackName name with
      | none =>
          rw [List.filterMap_cons_none hname] at hnodup hfile ⊢
          rw [List.foldl_cons, logPack_unread hname]
          exact ih hnodup hfile h
      | some id =>
          rw [List.filterMap_cons_some hname] at hnodup hfile ⊢
          obtain ⟨hnot, hnodup⟩ := List.nodup_cons.mp hnodup
          obtain ⟨hnew, hsome⟩ := hfile id (.head _)
          rw [List.map_cons, ← List.singleton_append, ← List.append_assoc, List.foldl_cons]
          refine ih hnodup ?_ (h.logPack hname hnew ht hsome now)
          intro i hi
          obtain ⟨hdone, hsome'⟩ := hfile i (.tail _ hi)
          refine ⟨?_, hsome'⟩
          rw [List.mem_append, List.mem_singleton, not_or]
          refine ⟨hdone, ?_⟩
          rintro ⟨⟩
          exact hnot hi

/-- All files of the first `m` tiers whose names are read have been seen. -/
structure ScannedTiers (x : Disk) (io : OpenIO) (n m : Nat) (s : LoadLog) : Prop where
  run : ∃ done, Scanned x io n done s ∧ ∀ {t id},
    (t, id) ∈ done ↔ t < m ∧ id < 10 ^ 6 ∧ (x.pack? t id).isSome

theorem ScannedTiers.logTier {m : Nat} (h : ScannedTiers x io n m s) (hm : m < n) (now : Int) :
    ScannedTiers x io n (m + 1) (logTier now io s m) := by
  obtain ⟨done, hrun, hdone⟩ := h.run
  have hnot : ∀ id, (m, id) ∉ done := by
    intro id hmem
    exact Nat.lt_irrefl m (hdone.mp hmem).1
  have hids : ∀ id, id ∈ (s.opening.disk.packNames m).filterMap scanPackName ↔
      id < 10 ^ 6 ∧ (x.pack? m id).isSome := by
    intro id
    rw [← hrun.untouched (hnot id), ← bytes?_isSome_eq]
    exact mem_packIds_iff s.opening.disk m id
  have hstep := @Scanned.logNames _ _ _ _ _ now m hm _ (packIds_nodup s.opening.disk m)
    (fun id hid => ⟨hnot id, ((hids id).mp hid).2⟩) hrun
  refine ⟨_, hstep, ?_⟩
  intro t id
  rw [List.mem_append, hdone, List.mem_map]
  constructor
  · rintro (⟨ht, hrest⟩ | ⟨i, hi, heq⟩)
    · exact ⟨Nat.lt_succ_of_lt ht, hrest⟩
    · cases heq
      exact ⟨Nat.lt_succ_self _, (hids _).mp hi⟩
  · rintro ⟨ht, hrest⟩
    rcases Nat.lt_succ_iff_lt_or_eq.mp ht with hlt | rfl
    · exact Or.inl ⟨hlt, hrest⟩
    · exact Or.inr ⟨id, (hids id).mpr hrest, rfl⟩

theorem logTiers_scanned (budgets : List Int) (x : Disk) (now : Int) (io : OpenIO) :
    ScannedTiers x io budgets.length budgets.length (logTiers budgets x now io) := by
  have hinit : Scanned x io budgets.length []
      ⟨⟨⟨budgets.map fun b => ⟨b, 0⟩, ∅, ∅⟩, x, [], 0⟩, []⟩ :=
    ⟨fun _ => rfl, nofun, nofun, nofun, nofun, Nat.pow_pos (by decide), Or.inl rfl,
      fun _ _ hid => nomatch hid⟩
  have hfold : ∀ m ≤ budgets.length, ScannedTiers x io budgets.length m
      ((List.range m).foldl (logTier now io)
        ⟨⟨⟨budgets.map fun b => ⟨b, 0⟩, ∅, ∅⟩, x, [], 0⟩, []⟩) := by
    intro m
    induction m with
    | zero =>
        intro _
        exact ⟨[], hinit, by simp⟩
    | succ m ih =>
        intro hm
        rw [List.range_succ, List.foldl_append]
        exact (ih (Nat.le_of_succ_le hm)).logTier hm now
  exact hfold _ (Nat.le_refl _)

/-- Two runs that differ by the files of `ks` only. -/
structure SameBut (ks : List (Nat × Nat)) (o o' : Opening) : Prop where
  core : o'.core = o.core
  last : o'.last = o.last
  pack : ∀ t id, o'.disk.pack? t id = if (t, id) ∈ ks then none else o.disk.pack? t id
  hint : ∀ {t id}, (t, id) ∉ ks → o'.disk.hint? t id = o.disk.hint? t id

/-- The name of a file that both runs see. -/
def keptName (ks : List (Nat × Nat)) (t : Nat) (name : Bytes) : Bool :=
  (scanPackName name).all fun id => (t, id) ∉ ks

variable {ks : List (Nat × Nat)} {o o' : Opening} {now : Int} {t : Nat} {name : Bytes}

/-- A file of `ks` leaves the tables as they are, whether it is a copy or fails. -/
theorem SameBut.absent (h : SameBut ks o o') (hks : ∀ k ∈ ks, (io.load k.1 k.2).early = true)
    (hname : keptName ks t name = false) : SameBut ks (openPack now io t o name) o' := by
  cases hscan : scanPackName name with
  | none => simp [keptName, hscan] at hname
  | some id =>
      have hid : (t, id) ∈ ks := by simpa [keptName, hscan] using hname
      have hne : ∀ {t' i}, (t', i) ∉ ks → (t', i) ≠ (t, id) := by
        rintro t' i hnot ⟨⟩
        exact hnot hid
      simp only [openPack, hscan]
      split
      · have hops := duplicate_local t id
        refine ⟨h.core, h.last, ?_, ?_⟩
        · intro t' i
          rw [h.pack]
          split
          · rfl
          · next hnot => exact (applyAll_local_other hops o.disk (hne hnot)).1.symm
        · intro t' i hnot
          rw [h.hint hnot]
          exact (applyAll_local_other hops o.disk (hne hnot)).2.symm
      · rw [load_early (hks _ hid)]
        exact ⟨h.core, h.last, h.pack, h.hint⟩

/-- The same system calls on the files of a pack outside `ks`. -/
theorem SameBut.emit (h : SameBut ks o o') {id : Nat} (hid : (t, id) ∉ ks) {ops : List FileOp}
    (hops : ∀ op ∈ ops, op.Local t id) (c : Core) (last : Nat) :
    SameBut ks { o.emit ops with core := c, last := last }
      { o'.emit ops with core := c, last := last } := by
  have hpack : o'.disk.pack? t id = o.disk.pack? t id := by rw [h.pack, if_neg hid]
  obtain ⟨hpack', hhint'⟩ := applyAll_local_same hops hpack (h.hint hid)
  refine ⟨rfl, rfl, ?_, ?_⟩
  · intro t' i
    by_cases heq : (t', i) = (t, id)
    · cases heq
      rw [if_neg hid]
      exact hpack'
    · have hleft := (applyAll_local_other hops o'.disk heq).1
      have hright := (applyAll_local_other hops o.disk heq).1
      exact hleft.trans ((h.pack t' i).trans (by rw [← hright]; rfl))
  · intro t' i hnot
    by_cases heq : (t', i) = (t, id)
    · cases heq
      exact hhint'
    · have hleft := (applyAll_local_other hops o'.disk heq).2
      have hright := (applyAll_local_other hops o.disk heq).2
      exact hleft.trans ((h.hint hnot).trans hright.symm)

theorem load_congr {d d' : Disk} {id : Nat} (hpack : d'.pack? t id = d.pack? t id)
    (hhint : d'.hint? t id = d.hint? t id) (c : Core) (now : Int) (io : LoadIO) :
    c.load d' t id now io = c.load d t id now io := by
  simp only [Core.load, hpack, hhint]

/-- A file outside `ks` is treated alike. -/
theorem SameBut.openPack (h : SameBut ks o o') (hname : keptName ks t name = true) :
    SameBut ks (openPack now io t o name) (openPack now io t o' name) := by
  cases hscan : scanPackName name with
  | none =>
      simp only [Jigd.openPack, hscan]
      exact h
  | some id =>
      have hid : (t, id) ∉ ks := by simpa [keptName, hscan] using hname
      have hpack : o'.disk.pack? t id = o.disk.pack? t id := by rw [h.pack, if_neg hid]
      have hload := load_congr hpack (h.hint hid) o.core now (io.load t id)
      simp only [Jigd.openPack, hscan, h.core, h.last, hload]
      split
      · have hops := duplicate_local t id
        have hsame := h.emit hid hops o.core o.last
        exact ⟨h.core, h.last, hsame.pack, hsame.hint⟩
      · exact h.emit hid (load_local o.core o.disk t id now (io.load t id)) _ _

theorem SameBut.openNames (hks : ∀ k ∈ ks, (io.load k.1 k.2).early = true)
    (names : List Bytes) (h : SameBut ks o o') :
    SameBut ks (names.foldl (Jigd.openPack now io t) o)
      ((names.filter (keptName ks t)).foldl (Jigd.openPack now io t) o') := by
  induction names generalizing o o' with
  | nil => exact h
  | cons name names ih =>
      cases hname : keptName ks t name with
      | true =>
          rw [List.filter_cons_of_pos hname, List.foldl_cons, List.foldl_cons]
          exact ih (h.openPack hname)
      | false =>
          rw [List.filter_cons_of_neg (by rw [hname]; exact Bool.false_ne_true), List.foldl_cons]
          exact ih (h.absent hks hname)

theorem packName_injective {i j : Nat} (h : packName i = packName j) : i = j := by
  have hdigits : paddedDigits i = paddedDigits j := List.append_cancel_right h
  rw [← parseDecimal_paddedDigits i, hdigits, parseDecimal_paddedDigits]

/-- The names of a directory, each once. -/
theorem mem_packNames (d : Disk) (t : Nat) (name : Bytes) :
    name ∈ d.packNames t ↔ ∃ id, (d.pack? t id).isSome ∧ packName id = name := by
  rw [Disk.packNames, List.mem_insertionSort, List.mem_map]
  constructor
  · rintro ⟨⟨t', id⟩, hk, rfl⟩
    obtain ⟨hmem, ht⟩ := List.mem_filter.mp hk
    have ht' : t' = t := of_decide_eq_true ht
    refine ⟨id, ?_, rfl⟩
    rw [← bytes?_isSome_eq, bytes?_isSome_iff, ← ht']
    exact hmem
  · rintro ⟨id, hsome, rfl⟩
    rw [← bytes?_isSome_eq, bytes?_isSome_iff] at hsome
    exact ⟨(t, id), List.mem_filter.mpr ⟨hsome, by simp⟩, rfl⟩

theorem packNames_nodup (d : Disk) (t : Nat) : (d.packNames t).Nodup := by
  rw [Disk.packNames, (List.perm_insertionSort _ _).nodup_iff]
  apply List.Nodup.map_on
  · intro a ha b hb heq
    have ha1 : a.1 = t := of_decide_eq_true (List.mem_filter.mp ha).2
    have hb1 : b.1 = t := of_decide_eq_true (List.mem_filter.mp hb).2
    exact Prod.ext (ha1.trans hb1.symm) (packName_injective heq)
  · exact d.packs.keys_nodup.filter _

/-- The second run sees the same names in the same order, less those of `ks`. -/
theorem SameBut.packNames (h : SameBut ks o o') (hlt : ∀ k ∈ ks, k.2 < 10 ^ 6) :
    o'.disk.packNames t = (o.disk.packNames t).filter (keptName ks t) := by
  have hkept : ∀ id, keptName ks t (packName id) = true ↔ (t, id) ∉ ks := by
    intro id
    by_cases hid : id < 10 ^ 6
    · simp [keptName, scanPackName_packName hid]
    · have hnot : (t, id) ∉ ks := fun hmem => hid (hlt _ hmem)
      simp [keptName, scanPackName_packName_large (Nat.le_of_not_lt hid), hnot]
  refine List.Perm.eq_of_pairwise' (List.pairwise_insertionSort (· ≤ ·) _)
    ((List.pairwise_insertionSort (· ≤ ·) _).filter _) ?_
  · rw [List.perm_ext_iff_of_nodup (packNames_nodup _ _) ((packNames_nodup _ _).filter _)]
    intro name
    rw [List.mem_filter, mem_packNames, mem_packNames]
    constructor
    · rintro ⟨id, hsome, rfl⟩
      rw [h.pack] at hsome
      split at hsome
      · cases hsome
      · next hnot => exact ⟨⟨id, hsome, rfl⟩, (hkept id).mpr hnot⟩
    · rintro ⟨⟨id, hsome, rfl⟩, hname⟩
      refine ⟨id, ?_, rfl⟩
      rw [h.pack, if_neg ((hkept id).mp hname)]
      exact hsome

theorem SameBut.openTier (hks : ∀ k ∈ ks, (io.load k.1 k.2).early = true)
    (hlt : ∀ k ∈ ks, k.2 < 10 ^ 6) (h : SameBut ks o o') :
    SameBut ks (openTier now io o t) (openTier now io o' t) := by
  rw [Jigd.openTier, Jigd.openTier, h.packNames hlt]
  exact h.openNames hks _

/-- Packs that cannot be opened are as good as absent. -/
theorem openTiers_sameBut (budgets : List Int) (d : Disk) (now : Int) {io : OpenIO}
    (hks : ∀ k ∈ ks, (io.load k.1 k.2).early = true) (hlt : ∀ k ∈ ks, k.2 < 10 ^ 6) :
    SameBut ks (openTiers budgets d now io) (openTiers budgets (d.without ks) now io) := by
  have hfold : ∀ (ts : List Nat) {o o' : Opening}, SameBut ks o o' →
      SameBut ks (ts.foldl (Jigd.openTier now io) o) (ts.foldl (Jigd.openTier now io) o') := by
    intro ts
    induction ts with
    | nil => exact id
    | cons t ts ih => exact fun h => ih (h.openTier hks hlt)
  exact hfold _ ⟨rfl, rfl, pack?_without d ks, fun _ => rfl⟩

theorem openStore_eq_some {budgets : List Int} {d : Disk} {now : Int} {io : OpenIO} {s : Store}
    (h : (openStore budgets d now io).state = some s) :
    let o := openTiers budgets d now io
    s.active = u32 (o.last + 1) ∧ s.index = o.core.index ∧ s.tiers = o.core.tiers ∧
      s.packs = o.core.packs.insert s.active ⟨s.active, 0, 0, 0, now, now⟩ := by
  simp only [openStore, Core.startPack] at h ⊢
  by_cases hfail : (io.createFails || budgets.isEmpty ||
      ((openTiers budgets d now io).disk.pack? 0
        (u32 ((openTiers budgets d now io).last + 1))).isSome) = true
  · rw [if_pos hfail] at h
    cases h
  · rw [if_neg hfail] at h
    cases h
    exact ⟨rfl, rfl, rfl, rfl⟩

/-- A bad pack is skipped as if it were absent: the tables are those of the
directories without the reported packs, the new pack takes an id that no file
has, and no entry of the index belongs to a reported pack or to the new one. -/
structure SkipsCleanly (budgets : List Int) (d : Disk) (now : Int) (io : OpenIO) (s : Store) :
    Prop where
  absent : ∃ s', (openStore budgets (d.without (skippedPacks budgets d now io)) now io).state =
    some s' ∧ (∀ key, s'.index.lookup key = s.index.lookup key) ∧
      (∀ id, s'.packs.lookup id = s.packs.lookup id) ∧ s'.tiers = s.tiers
  fresh : ∀ t < budgets.length, ∀ id, (d.pack? t id).isSome → id ≠ s.active
  indexed : ∀ key l, s.index.lookup key = some l → l.pack ≠ s.active ∧
    ∃ p, s.packs.lookup l.pack = some p ∧ (d.pack? p.tier l.pack).isSome ∧
      (p.tier, l.pack) ∉ skippedPacks budgets d now io

theorem active_eq_last {budgets : List Int} {d : Disk} {s : Store}
    (h : (openStore budgets d now io).state = some s) :
    s.active = (openTiers budgets d now io).last + 1 := by
  obtain ⟨_, hrun, -⟩ := (logTiers_scanned budgets d now io).run
  have hlt := hrun.last_lt
  rw [logTiers_opening] at hlt
  rw [(openStore_eq_some h).1, u32, Nat.mod_eq_of_lt (by omega)]

/-- A pack of the returned store other than the new one was loaded from a file. -/
theorem placed_of_ne_active {budgets : List Int} {d : Disk} {s : Store}
    (h : (openStore budgets d now io).state = some s) {id : Nat} {p : Pack}
    (hp : s.packs.lookup id = some p) (hne : id ≠ s.active) :
    p.tier < budgets.length ∧ (d.pack? p.tier id).isSome ∧
      (io.load p.tier id).early = false := by
  obtain ⟨_, hrun, -⟩ := (logTiers_scanned budgets d now io).run
  obtain ⟨-, -, -, hpacks⟩ := openStore_eq_some h
  rw [hpacks, Map.lookup_insert_eq, if_neg hne, ← logTiers_opening] at hp
  exact hrun.placed (by rw [Core.tierOf?, hp]; rfl)

/-- Every load that failed could not open its file, so the failed packs left no trace. -/
theorem openStore_without {budgets : List Int} {d : Disk} {s : Store}
    (h : (openStore budgets d now io).state = some s)
    (hks : ∀ k ∈ ks, (io.load k.1 k.2).early = true) (hlt : ∀ k ∈ ks, k.2 < 10 ^ 6) :
    (openStore budgets (d.without ks) now io).state = some s := by
  have hsame := openTiers_sameBut budgets d now hks hlt
  simp only [openStore, Core.startPack, hsame.core, hsame.last, hsame.pack] at h ⊢
  split at h
  · cases h
  · next hstart =>
      split at hstart
      · cases hstart
      · next hfail =>
          cases hstart
          rw [Bool.or_eq_true, not_or] at hfail
          rw [if_neg]
          · exact h
          · rw [Bool.or_eq_true, not_or]
            refine ⟨hfail.1, ?_⟩
            split
            · exact Bool.false_ne_true
            · exact hfail.2

/-- No pack file has the id of the new pack if no skipped file has it. -/
theorem ne_active_of_early {budgets : List Int} {d : Disk} {s : Store}
    (h : (openStore budgets d now io).state = some s)
    (hks : ∀ k ∈ skippedPacks budgets d now io, (io.load k.1 k.2).early = true)
    {t id : Nat} (ht : t < budgets.length) (hfile : (d.pack? t id).isSome) (hid : id < 10 ^ 6)
    (hnot : (t, id) ∉ skippedPacks budgets d now io) : id ≠ s.active := by
  obtain ⟨done, hrun, hdone⟩ := (logTiers_scanned budgets d now io).run
  have hmem := (hrun.seen (hdone.mpr ⟨ht, hid, hfile⟩)).resolve_right hnot
  have hle := hrun.le_last hks hmem
  rw [logTiers_opening] at hle
  rw [active_eq_last h]
  omega

/-- A pack that failed after it was opened stays in the pack table. -/
theorem SkipsCleanly.early {budgets : List Int} {d : Disk} {s : Store}
    (h : (openStore budgets d now io).state = some s) (hs : SkipsCleanly budgets d now io s)
    {k : Nat × Nat} (hk : k ∈ skippedPacks budgets d now io) :
    (io.load k.1 k.2).early = true := by
  obtain ⟨_, hrun, -⟩ := (logTiers_scanned budgets d now io).run
  obtain ⟨ht, hid, hfile, hor⟩ := hrun.reported hk
  refine hor.resolve_right ?_
  intro htier
  obtain ⟨s', hs', -, hpacks, -⟩ := hs.absent
  have hne : k.2 ≠ s.active := hs.fresh k.1 ht k.2 hfile
  obtain ⟨p, hp, hpt⟩ := Option.map_eq_some_iff.mp htier
  have hkept : s'.packs.lookup k.2 = some p := by
    rw [hpacks, (openStore_eq_some h).2.2.2, Map.lookup_insert_eq, if_neg hne, ← logTiers_opening]
    exact hp
  -- the second run starts the same new pack: no file of the directories has its id
  have hactive : s.active = s'.active := by
    by_contra hdiff
    have hnew : s'.packs.lookup s.active = some ⟨s.active, 0, 0, 0, now, now⟩ := by
      rw [hpacks, (openStore_eq_some h).2.2.2, Map.lookup_insert_eq, if_pos rfl]
    obtain ⟨ht', hfile', -⟩ := placed_of_ne_active hs' hnew hdiff
    rw [pack?_without] at hfile'
    split at hfile'
    · cases hfile'
    · exact hs.fresh _ ht' _ hfile' rfl
  obtain ⟨-, hgone, -⟩ := placed_of_ne_active hs' hkept (hactive ▸ hne)
  rw [hpt, pack?_without, if_pos hk] at hgone
  cases hgone

/-- A pack file whose name is read and whose load came through. -/
def LoadedFile (budgets : List Int) (d : Disk) (now : Int) (io : OpenIO) (t id : Nat) : Prop :=
  t < budgets.length ∧ id < 10 ^ 6 ∧ (d.pack? t id).isSome ∧
    (t, id) ∉ skippedPacks budgets d now io

/-- The id comes right behind the newest pack that was loaded, 1 if none was. -/
def NextId (budgets : List Int) (d : Disk) (now : Int) (io : OpenIO) (id : Nat) : Prop :=
  (∀ t i, LoadedFile budgets d now io t i → i < id) ∧
    (id = 1 ∨ ∃ t i, LoadedFile budgets d now io t i ∧ id = i + 1)

/-- If every failed load failed to open its file, `last` is the newest pack that was loaded. -/
theorem nextId_iff {budgets : List Int} {d : Disk}
    (hks : ∀ k ∈ skippedPacks budgets d now io, (io.load k.1 k.2).early = true) (id : Nat) :
    NextId budgets d now io id ↔ id = (openTiers budgets d now io).last + 1 := by
  obtain ⟨done, hrun, hdone⟩ := (logTiers_scanned budgets d now io).run
  rw [← logTiers_opening]
  have hle : ∀ t i, LoadedFile budgets d now io t i →
      i ≤ (logTiers budgets d now io).opening.last := by
    rintro t i ⟨ht, hid, hfile, hnot⟩
    exact hrun.le_last hks ((hrun.seen (hdone.mpr ⟨ht, hid, hfile⟩)).resolve_right hnot)
  have hlast : (logTiers budgets d now io).opening.last = 0 ∨
      ∃ t, LoadedFile budgets d now io t (logTiers budgets d now io).opening.last := by
    refine hrun.last_mem.imp_right fun hmem => ?_
    obtain ⟨t, htier⟩ := Option.isSome_iff_exists.mp ((mem_packs_iff_tierOf? _ _).mp hmem)
    obtain ⟨ht, hfile, hlate⟩ := hrun.placed htier
    refine ⟨t, ht, hrun.last_lt, hfile, fun hskip => ?_⟩
    cases hlate.symm.trans (hks _ hskip)
  constructor
  · rintro ⟨hall, hnext⟩
    have hbelow : (logTiers budgets d now io).opening.last = 0 ∨
        (logTiers budgets d now io).opening.last < id := hlast.imp_right fun ⟨t, ht⟩ => hall t _ ht
    rcases hnext with rfl | ⟨t, i, hi, rfl⟩
    · omega
    · have := hle t i hi
      omega
  · rintro rfl
    refine ⟨fun t i hi => Nat.lt_succ_of_le (hle t i hi), hlast.imp (fun h0 => by rw [h0]) ?_⟩
    exact fun ⟨t, ht⟩ => ⟨t, _, ht, rfl⟩

/-- Bad packs are skipped cleanly exactly when every one of them failed to open,
and neither one of them nor a file whose number has seven digits or more comes
right behind the newest pack that was loaded. -/
theorem openStore_skips_cleanly_iff (budgets : List Int) (d : Disk) (now : Int) (io : OpenIO)
    (s : Store) (h : (openStore budgets d now io).state = some s) :
    SkipsCleanly budgets d now io s ↔
      (∀ k ∈ skippedPacks budgets d now io, (io.load k.1 k.2).early = true) ∧
        ∀ t < budgets.length, ∀ id, (d.pack? t id).isSome →
          (t, id) ∈ skippedPacks budgets d now io ∨ 10 ^ 6 ≤ id → ¬ NextId budgets d now io id := by
  constructor
  · intro hs
    have hks := fun k hk => hs.early h (k := k) hk
    refine ⟨hks, ?_⟩
    intro t ht id hfile _
    rw [nextId_iff hks, ← active_eq_last h]
    exact hs.fresh t ht id hfile
  · rintro ⟨hks, hnext⟩
    obtain ⟨_, hrun, -⟩ := (logTiers_scanned budgets d now io).run
    have hwithout := openStore_without h hks fun k hk => (hrun.reported hk).2.1
    have hfresh : ∀ t < budgets.length, ∀ id, (d.pack? t id).isSome → id ≠ s.active := by
      intro t ht id hfile
      by_cases hcase : (t, id) ∈ skippedPacks budgets d now io ∨ 10 ^ 6 ≤ id
      · rw [ne_eq, active_eq_last h, ← nextId_iff hks]
        exact hnext t ht id hfile hcase
      · rw [not_or] at hcase
        exact ne_active_of_early h hks ht hfile (Nat.lt_of_not_le hcase.2) hcase.1
    refine ⟨⟨s, hwithout, fun _ => rfl, fun _ => rfl, rfl⟩, hfresh, ?_⟩
    intro key l hl
    rw [(openStore_eq_some h).2.1, ← logTiers_opening] at hl
    have hmem := hrun.indexed hl
    obtain ⟨p, hp⟩ := Option.isSome_iff_exists.mp (AList.lookup_isSome.mpr hmem)
    obtain ⟨ht, hfile, -⟩ := hrun.placed (by rw [Core.tierOf?, hp]; rfl)
    have hne : l.pack ≠ s.active := hfresh _ ht _ hfile
    have hp' : s.packs.lookup l.pack = some p := by
      rw [(openStore_eq_some h).2.2.2, Map.lookup_insert_eq, if_neg hne, ← logTiers_opening]
      exact hp
    refine ⟨hne, p, hp', hfile, ?_⟩
    intro hskip
    obtain ⟨-, hthere, -⟩ := placed_of_ne_active hwithout hp' hne
    rw [pack?_without, if_pos hskip] at hthere
    cases hthere

/-- A pack with one record in the second tier, still without a hint file. -/
def coldPack : Disk :=
  ⟨(∅ : Map (Nat × Nat) PackFile).insert (1, 1) ⟨Record.write ⟨[107], [118]⟩, 0⟩, ∅⟩

/-- The first pack cannot be opened, the second one loads. -/
theorem openStore_skips_cleanly_iff_unopened :
    ∃ s, (openStore [0, 0] (FileOp.apply coldPack (.create 0 2 0)) 0
        ⟨fun _ id => ⟨id == 1, false, false, false, false, Shuffle.none⟩, false⟩).state = some s ∧
      SkipsCleanly [0, 0] (FileOp.apply coldPack (.create 0 2 0)) 0
        ⟨fun _ id => ⟨id == 1, false, false, false, false, Shuffle.none⟩, false⟩ s := by
  have hsome : (openStore [0, 0] (FileOp.apply coldPack (.create 0 2 0)) 0
      ⟨fun _ id => ⟨id == 1, false, false, false, false, Shuffle.none⟩, false⟩).state.isSome := by
    decide +kernel
  obtain ⟨s, hs⟩ := Option.isSome_iff_exists.mp hsome
  refine ⟨s, hs, (openStore_skips_cleanly_iff _ _ _ _ s hs).mpr ⟨by decide +kernel, ?_⟩⟩
  have hkeys : ∀ k ∈ (FileOp.apply coldPack (.create 0 2 0)).packs.keys, ¬ 2 < k.2 := by
    decide +kernel
  intro t _ id hfile _ hnext
  rw [← bytes?_isSome_eq, bytes?_isSome_iff] at hfile
  exact hkeys _ hfile (hnext.1 0 2 ⟨by decide, by decide, by decide +kernel, by decide +kernel⟩)

/-- No load can write its hint file. -/
def unwritableHints : OpenIO :=
  ⟨fun _ _ => ⟨false, false, false, false, true, Shuffle.none⟩, false⟩

/-- The only pack is reported as skipped, and its entry stays in the index under
the id of the new empty pack. -/
theorem unsealed_pack_leaves_entry :
    ∃ s, (openStore [0, 0] coldPack 0 unwritableHints).state = some s ∧
      skippedPacks [0, 0] coldPack 0 unwritableHints = [(1, 1)] ∧
      s.active = 1 ∧ s.index.lookup [107] = some ⟨1, 9, 1⟩ ∧ s.get [107] = some ⟨0, 1, 9, 1⟩ ∧
      ¬ SkipsCleanly [0, 0] coldPack 0 unwritableHints s := by
  have hstore : (openStore [0, 0] coldPack 0 unwritableHints).state.map
      (fun s => (s.active, s.index.lookup [107], s.get [107])) =
        some (1, some ⟨1, 9, 1⟩, some ⟨0, 1, 9, 1⟩) := by
    decide +kernel
  obtain ⟨s, hs, heq⟩ := Option.map_eq_some_iff.mp hstore
  obtain ⟨hactive, hrest⟩ := Prod.mk.inj heq
  obtain ⟨hindex, hget⟩ := Prod.mk.inj hrest
  refine ⟨s, hs, by decide +kernel, hactive, hindex, hget, ?_⟩
  intro hclean
  exact hclean.fresh 1 (by decide) 1 (by decide +kernel) hactive.symm

end Repkgs.Jigd
