import Repkgs.Jigd.StepChain

/-!
# Loading one pack

`load` adds the entries of a pack to the index, newest pack first; what a pack
contributes is a function of its two files alone.
-/

namespace Repkgs.Jigd

open Lib

/-- What `add` does to the index. -/
def addIndex (index : Map Bytes Loc) (e : Bytes × Loc) : Map Bytes Loc :=
  match index.lookup e.1 with
  | none => index.insert e.1 e.2
  | some old => if e.2.pack < old.pack then index else index.insert e.1 e.2

/-- The last entry for a key. -/
def lastLoc (es : List (Bytes × Loc)) (key : Bytes) : Option Loc :=
  es.foldl (fun last e => if e.1 = key then some e.2 else last) none

/-- The newer of two entries for a key; the second one wins a tie. -/
def newer (old new : Option Loc) : Option Loc :=
  match old, new with
  | some l, some l' => if l'.pack < l.pack then some l else some l'
  | some l, none => some l
  | none, l' => l'

theorem lookup_addIndex (index : Map Bytes Loc) (e : Bytes × Loc) (key : Bytes) :
    (addIndex index e).lookup key =
      newer (index.lookup key) (if e.1 = key then some e.2 else none) := by
  unfold addIndex
  by_cases hkey : e.1 = key
  · subst hkey
    cases hold : index.lookup e.1 with
    | none => simp [newer]
    | some old =>
        by_cases hlt : e.2.pack < old.pack <;> simp [newer, hlt, hold]
  · have hne : key ≠ e.1 := fun h => hkey h.symm
    have hother : ∀ l, (index.insert e.1 l).lookup key = index.lookup key := fun l =>
      AList.lookup_insert_ne hne
    have hnewer : newer (index.lookup key) none = index.lookup key := by
      cases index.lookup key <;> rfl
    rw [if_neg hkey, hnewer]
    cases index.lookup e.1 with
    | none => exact hother _
    | some old =>
        simp only
        split
        · rfl
        · exact hother _

theorem lastLoc_cons (e : Bytes × Loc) (es : List (Bytes × Loc)) (key : Bytes) :
    lastLoc (e :: es) key = (lastLoc es key).or (if e.1 = key then some e.2 else none) := by
  have hacc : ∀ (es : List (Bytes × Loc)) (acc : Option Loc),
      es.foldl (fun last e => if e.1 = key then some e.2 else last) acc =
        (lastLoc es key).or acc := by
    intro es
    induction es with
    | nil => exact fun acc => rfl
    | cons e es ih =>
        intro acc
        simp only [lastLoc, List.foldl_cons]
        rw [ih, ih]
        split
        · cases lastLoc es key <;> rfl
        · simp
  exact hacc es _

variable {es : List (Bytes × Loc)} {c : Core} {d : Disk} {p : Pack} {bs : Bytes}

theorem mem_of_lastLoc {key : Bytes} {l : Loc} (h : lastLoc es key = some l) : (key, l) ∈ es := by
  induction es with
  | nil => cases h
  | cons e es ih =>
      rw [lastLoc_cons] at h
      cases hlast : lastLoc es key with
      | some l' =>
          rw [hlast] at h
          cases h
          exact List.mem_cons_of_mem _ (ih hlast)
      | none =>
          rw [hlast, Option.none_or] at h
          split at h
          · next hkey =>
              cases h
              subst hkey
              exact .head _
          · cases h

theorem lastLoc_isSome {key : Bytes} {l : Loc} (h : (key, l) ∈ es) :
    ∃ l', lastLoc es key = some l' := by
  induction es with
  | nil => cases h
  | cons e es ih =>
      rw [lastLoc_cons]
      rcases List.mem_cons.mp h with rfl | hmem
      · cases lastLoc es key with
        | some l' => exact ⟨l', rfl⟩
        | none => exact ⟨l, by simp⟩
      · obtain ⟨l', hl'⟩ := ih hmem
        exact ⟨l', by rw [hl']; rfl⟩

/-- Loading the entries of one pack: a key's last entry is taken over unless a
newer pack has the key. -/
theorem lookup_foldl_addIndex {id : Nat} (hid : ∀ e ∈ es, e.2.pack = id) (index : Map Bytes Loc)
    (key : Bytes) :
    (es.foldl addIndex index).lookup key = newer (index.lookup key) (lastLoc es key) := by
  induction es generalizing index with
  | nil =>
      show index.lookup key = newer (index.lookup key) none
      cases index.lookup key <;> rfl
  | cons e es ih =>
      have he : e.2.pack = id := hid e (.head _)
      have hes : ∀ e ∈ es, e.2.pack = id := fun e' h => hid e' (.tail _ h)
      rw [List.foldl_cons, ih hes, lookup_addIndex, lastLoc_cons]
      cases hlast : lastLoc es key with
      | none =>
          rw [Option.none_or]
          cases index.lookup key with
          | none => split <;> rfl
          | some old =>
              split
              · by_cases hlt : e.2.pack < old.pack <;> simp [newer, hlt]
              · rfl
      | some l =>
          have hl : l.pack = id := hes _ (mem_of_lastLoc hlast)
          rw [Option.some_or]
          split
          · cases index.lookup key with
            | none => simp [newer, he, hl]
            | some old =>
                by_cases hlt : id < old.pack <;> simp [newer, he, hl, hlt]
          · cases index.lookup key <;> rfl

theorem add_index (c : Core) (e : Bytes × Loc) : (c.add e).index = addIndex c.index e := by
  unfold Core.add addIndex
  cases c.index.lookup e.1 with
  | none => rfl
  | some old => simp only; split <;> rfl

theorem add_place? (c : Core) (e : Bytes × Loc) (id : Nat) : (c.add e).place? id = c.place? id := by
  unfold Core.add
  cases c.index.lookup e.1 with
  | none => exact lookup_adjust_same _ _ _ fun _ => rfl
  | some old =>
      simp only
      split
      · rfl
      · refine (lookup_adjust_same _ _ _ ?_).trans (lookup_adjust_same _ _ _ ?_)
        · exact fun _ => rfl
        · exact fun _ => rfl

theorem add_tiers (c : Core) (e : Bytes × Loc) : (c.add e).tiers = c.tiers := by
  unfold Core.add
  cases c.index.lookup e.1 with
  | none => rfl
  | some old => simp only; split <;> rfl

theorem foldl_add (es : List (Bytes × Loc)) (c : Core) :
    (es.foldl Core.add c).index = es.foldl addIndex c.index ∧
      (∀ id, (es.foldl Core.add c).place? id = c.place? id) ∧
      (es.foldl Core.add c).tiers = c.tiers := by
  induction es generalizing c with
  | nil => exact ⟨rfl, fun _ => rfl, rfl⟩
  | cons e es ih =>
      obtain ⟨hindex, hplace, htiers⟩ := ih (c.add e)
      refine ⟨?_, ?_, ?_⟩
      · rw [List.foldl_cons, List.foldl_cons, hindex, add_index]
      · intro id
        rw [List.foldl_cons, hplace, add_place?]
      · rw [List.foldl_cons, htiers, add_tiers]

/-- The whole records of a file, as written. -/
def wholeRecords (bs : Bytes) : Bytes := recordFormat.writeAll (recordFormat.readAll bs).1

/-- The entries `load` takes from the files of a pack. -/
def locsAt (d : Disk) (t id : Nat) : List (Bytes × Loc) :=
  match d.bytes? t id with
  | none => []
  | some bs =>
      match d.hint? t id with
      | some hint => hintLocs id bs.length hint
      | none => scanLocs id 0 (recordFormat.readAll bs).1

/-- The pack file once it is loaded: an unsealed one ends with its last record. -/
def bytesAfter (d : Disk) (t id : Nat) : Option Bytes :=
  (d.bytes? t id).map fun bs => if (d.hint? t id).isSome then bs else wholeRecords bs

/-- What a faultless `load` of a pack does. -/
structure Loaded (c c' : Core) (d d' : Disk) (t id : Nat) (order : Shuffle) : Prop where
  index : c'.index = (locsAt d t id).foldl addIndex c.index
  place : ∀ i, c'.place? i = if i = id then
    (bytesAfter d t id).map fun bs => ⟨id, t, bs.length⟩ else c.place? i
  tiers : c'.tiers.length = c.tiers.length
  bytes : ∀ t' i, d'.bytes? t' i =
    if (t', i) = (t, id) then bytesAfter d t id else d.bytes? t' i
  hint : ∀ t' i, d'.hint? t' i = if (t', i) = (t, id) then
    some ((d.hint? t id).getD (hintOf c'.index id order)) else d.hint? t' i

theorem wholeRecords_front (bs : Bytes) : wholeRecords bs <+: bs :=
  ⟨(recordFormat.readAll bs).2, (recordFormat.readAll_spec bs).2.1.symm⟩

theorem addTotal_length (tiers : List Tier) (t : Nat) (n : Int) :
    (addTotal tiers t n).length = tiers.length := by
  simp [addTotal]

theorem loadHint_spec {bs hint : Bytes} (hbs : d.bytes? p.tier p.id = some bs)
    (hsize : p.size = bs.length) (hhint : d.hint? p.tier p.id = some hint) (order : Shuffle) :
    Loaded c (Core.loadHint { c with packs := c.packs.insert p.id p } p hint).state d d
      p.tier p.id order := by
  have hafter : bytesAfter d p.tier p.id = some bs := by
    simp [bytesAfter, hbs, hhint]
  obtain ⟨hindex, hplace, htiers⟩ := foldl_add (hintLocs p.id p.size hint)
    { c with packs := c.packs.insert p.id p }
  refine ⟨?_, ?_, ?_, ?_, ?_⟩
  · simp only [locsAt, hbs, hhint, ← hsize]
    exact hindex
  · intro i
    rw [hafter]
    refine (hplace i).trans ((place?_insert c p p.id i).trans ?_)
    simp only [Option.map_some, Pack.place, hsize]
  · exact (addTotal_length _ _ _).trans (congrArg List.length htiers)
  · intro t' i
    rw [hafter]
    split
    · next heq =>
        cases heq
        exact hbs
    · rfl
  · intro t' i
    split
    · next heq =>
        cases heq
        rw [hhint]
        rfl
    · rfl

/-- Cutting behind the last whole record. -/
theorem applyAll_cut
    (hbs : d.bytes? p.tier p.id = some bs) (hsize : p.size = bs.length) (now : Int) :
    let d' := d.applyAll (if (wholeRecords bs).length ≠ p.size then
      [FileOp.truncate p.tier p.id (wholeRecords bs).length now] else [])
    (∀ t i, d'.bytes? t i =
      if (t, i) = (p.tier, p.id) then some (wholeRecords bs) else d.bytes? t i) ∧
      ∀ t i, d'.hint? t i = d.hint? t i := by
  have hpre := wholeRecords_front bs
  have hcut := List.prefix_iff_eq_take.mp hpre
  simp only
  split
  · refine ⟨?_, fun _ _ => rfl⟩
    intro t i
    rw [Disk.applyAll_cons, Disk.applyAll_nil, bytes?_truncate]
    split
    · next heq =>
        cases heq
        rw [hbs, Option.map_some, truncateTo_of_le hpre.length_le, ← hcut]
    · rfl
  · next hlen =>
      refine ⟨?_, fun _ _ => rfl⟩
      intro t i
      have hsame : wholeRecords bs = bs :=
        hpre.eq_of_length ((Classical.not_not.mp hlen).trans hsize)
      split
      · next heq =>
          cases heq
          rw [hsame]
          exact hbs
      · rfl

theorem loadScan_spec (hbs : d.bytes? p.tier p.id = some bs) (hsize : p.size = bs.length)
    (hhint : d.hint? p.tier p.id = none) (now : Int) (order : Shuffle) :
    let o := Core.loadScan { c with packs := c.packs.insert p.id p } p bs now (.faultless order)
    o.ok = true ∧ Loaded c o.state d (d.applyAll o.ops) p.tier p.id order := by
  have hafter : bytesAfter d p.tier p.id = some (wholeRecords bs) := by
    simp [bytesAfter, hbs, hhint]
  obtain ⟨hindex, hplace, htiers⟩ := foldl_add (scanLocs p.id 0 (recordFormat.readAll bs).1)
    { c with packs := c.packs.insert p.id p }
  obtain ⟨hcut, hkeep⟩ := applyAll_cut hbs hsize now
  simp only [Core.loadScan, LoadIO.faultless, Bool.and_false, Bool.false_eq_true, if_false]
  refine ⟨trivial, ⟨?_, ?_, ?_, ?_, ?_⟩⟩
  · simp only [locsAt, hbs, hhint]
    exact hindex
  · intro i
    rw [hafter]
    refine (lookup_adjust_place _ _ _ (g := fun q => { q with size := (wholeRecords bs).length })
      fun _ => rfl).trans ?_
    rw [show Option.map Pack.place _ = _ from
      (hplace i).trans (place?_insert c p p.id i)]
    split <;> rfl
  · exact (addTotal_length _ _ _).trans (congrArg List.length htiers)
  · intro t i
    rw [hafter, Disk.applyAll_append]
    exact hcut t i
  · intro t i
    rw [Disk.applyAll_append, Disk.applyAll_cons, Disk.applyAll_nil, Core.seal, hint?_putHint,
      hhint]
    split
    · rfl
    · exact hkeep t i

theorem load_spec {t id : Nat} (hbs : d.bytes? t id = some bs) (now : Int) (order : Shuffle) :
    let o := c.load d t id now (.faultless order)
    o.ok = true ∧ Loaded c o.state d (d.applyAll o.ops) t id order := by
  obtain ⟨f, hf, rfl⟩ := Option.map_eq_some_iff.mp hbs
  simp only [Core.load, hf, LoadIO.faultless, Bool.or_self, Bool.false_eq_true, if_false]
  cases hhint : d.hint? t id with
  | some hint =>
      exact ⟨rfl, loadHint_spec (p := ⟨id, t, f.bytes.length, 0, f.mtime, f.mtime⟩) hbs rfl
        hhint order⟩
  | none =>
      exact loadScan_spec (p := ⟨id, t, f.bytes.length, 0, f.mtime, f.mtime⟩) hbs rfl hhint
        now order

/-- A load that is stopped before its last system call has at most cut the file. -/
theorem load_part {t id : Nat} (hbs : d.bytes? t id = some bs) (now : Int) (order : Shuffle)
    {k : Nat} (hk : k < (c.load d t id now (.faultless order)).ops.length) :
    let d' := d.applyAll ((c.load d t id now (.faultless order)).ops.take k)
    (∀ t' i, d'.hint? t' i = d.hint? t' i) ∧ ∀ t' i, d'.bytes? t' i = d.bytes? t' i ∨
      ((t', i) = (t, id) ∧ d'.bytes? t' i = bytesAfter d t id) := by
  obtain ⟨f, hf, rfl⟩ := Option.map_eq_some_iff.mp hbs
  simp only [Core.load, hf, LoadIO.faultless, Bool.or_self, Bool.false_eq_true, if_false] at hk ⊢
  cases hhint : d.hint? t id with
  | some hint =>
      rw [hhint] at hk
      exact absurd hk (Nat.not_lt_zero k)
  | none =>
      rw [hhint] at hk
      have hafter : bytesAfter d t id = some (wholeRecords f.bytes) := by
        rw [bytesAfter, hbs, hhint]
        rfl
      obtain ⟨hcut, hkeep⟩ := applyAll_cut (p := ⟨id, t, f.bytes.length, 0, f.mtime, f.mtime⟩)
        hbs rfl now
      simp only [Core.loadScan, Bool.and_false, Bool.false_eq_true, if_false,
        List.length_append, List.length_singleton, Nat.lt_succ_iff] at hk ⊢
      rw [List.take_append_of_le_length hk]
      rcases Nat.eq_or_lt_of_le hk with rfl | hlt
      · rw [List.take_length]
        refine ⟨hkeep, ?_⟩
        intro t' i
        by_cases heq : (t', i) = (t, id)
        · exact Or.inr ⟨heq, by rw [hafter]; exact (hcut t' i).trans (if_pos heq)⟩
        · exact Or.inl ((hcut t' i).trans (if_neg heq))
      · have hzero : k = 0 := by
          split at hlt
          · exact Nat.lt_one_iff.mp hlt
          · exact absurd hlt (Nat.not_lt_zero k)
        subst hzero
        exact ⟨fun _ _ => rfl, fun _ _ => Or.inl rfl⟩

end Repkgs.Jigd
