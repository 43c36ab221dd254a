import Repkgs.Jigd.OpenWorld

/-!
# Hint files

A hint file written by `seal` gives the index entries of its pack back, and
during a lifetime the hint files of sealed packs keep step with the index: they
list every entry of their pack, and no key that an older pack holds.
-/

namespace Repkgs.Jigd

open Lib

/-- The entry of a record that lies in a file of `size` bytes and ends below 4 GiB. -/
structure Inside (size : Nat) (key : Bytes) (l : Loc) : Prop where
  header_le : recHeader + key.length ≤ l.off
  end_le : l.off + l.len ≤ size
  end_lt : l.off + l.len < 2 ^ 32

theorem Inside.mono {size size' : Nat} {key : Bytes} {l : Loc} (h : Inside size key l)
    (hle : size ≤ size') : Inside size' key l :=
  ⟨h.header_le, Nat.le_trans h.end_le hle, h.end_lt⟩

variable {size id : Nat} {e : Bytes × Loc} {w w' : World}

theorem hintEntry_off (h : Inside size e.1 e.2) :
    (hintEntry e).off = e.2.off - recHeader - e.1.length := by
  obtain ⟨hhead, hend, hlt⟩ := h
  simp only [hintEntry, sub32, u32, recHeader] at *
  omega

theorem hintEntry_fits (h : Inside size e.1 e.2) :
    (hintEntry e).Fits := by
  have hoff := hintEntry_off h
  obtain ⟨hhead, hend, hlt⟩ := h
  refine ⟨?_, ?_, ?_⟩
  · show e.1.length < 256 ^ 4
    omega
  · show e.2.len < 256 ^ 4
    omega
  · omega

/-- `load` takes the entry back from the hint file. -/
theorem hintLoc_hintEntry (h : Inside size e.1 e.2) :
    hintLoc e.2.pack size (hintEntry e) = some e := by
  have hoff := hintEntry_off h
  have hkey : (hintEntry e).key = e.1 := rfl
  have hlen : (hintEntry e).vlen = e.2.len := rfl
  obtain ⟨hhead, hend, hlt⟩ := h
  have hsum : ((hintEntry e).off : Int) + recHeader + (hintEntry e).key.length +
      (hintEntry e).vlen = ((e.2.off + e.2.len : Nat) : Int) := by
    rw [hoff, hkey, hlen]
    omega
  have hbmod : Int.bmod ((e.2.off + e.2.len : Nat) : Int) (2 ^ 64) =
      ((e.2.off + e.2.len : Nat) : Int) := by
    apply Int.bmod_eq_of_le <;> omega
  have hback : u32 (u32 (hintEntry e).off + recHeader + (hintEntry e).key.length) = e.2.off := by
    rw [hoff, hkey]
    simp only [u32]
    omega
  have hnot : ¬ (size : Int) < ((e.2.off + e.2.len : Nat) : Int) := by omega
  unfold hintLoc
  rw [hsum, hbmod, if_neg hnot, hback, hkey, hlen]

/-- The entries read from a hint file are those written to it. -/
theorem hintLocs_hintOf {index : Map Bytes Loc} (order : Shuffle)
    (h : ∀ {key l}, index.lookup key = some l → l.pack = id → Inside size key l) :
    hintLocs id size (hintOf index id order) =
      (order.run (Map.toPairs index)).filter fun e => e.2.pack = id := by
  rw [hintLocs, hintOf]
  have hinside : ∀ e ∈ (order.run (Map.toPairs index)).filter fun e => e.2.pack = id,
      e.2.pack = id ∧ Inside size e.1 e.2 := by
    intro e he
    obtain ⟨hmem, hid⟩ := List.mem_filter.mp he
    have hid' : e.2.pack = id := of_decide_eq_true hid
    exact ⟨hid', h (Map.mem_toPairs.mp ((order.perm _).mem_iff.mp hmem)) hid'⟩
  generalize (order.run (Map.toPairs index)).filter (fun e => e.2.pack = id) = es at hinside
  have hfits : ∀ a ∈ es.map hintEntry, hintFormat.Fits a := by
    intro a ha
    obtain ⟨e, he, rfl⟩ := List.mem_map.mp ha
    exact hintEntry_fits (hinside e he).2
  rw [Format.readAll_writeAll hfits, List.filterMap_map]
  calc es.filterMap _ = es.filterMap some := by
        apply List.filterMap_congr
        intro e he
        obtain ⟨rfl, hin⟩ := hinside e he
        rw [Function.comp_apply, hintLoc_hintEntry hin]
    _ = es := List.filterMap_some

/-- For one key a hint file says what the index said when it was written. -/
theorem lastLoc_hintOf {index : Map Bytes Loc} (order : Shuffle)
    (h : ∀ {key l}, index.lookup key = some l → l.pack = id → Inside size key l) (key : Bytes)
    (l : Loc) : lastLoc (hintLocs id size (hintOf index id order)) key = some l ↔
      index.lookup key = some l ∧ l.pack = id := by
  rw [hintLocs_hintOf order h]
  have hmem : ∀ l, (key, l) ∈ (order.run (Map.toPairs index)).filter (fun e => e.2.pack = id) ↔
      index.lookup key = some l ∧ l.pack = id := by
    intro l
    rw [List.mem_filter, (order.perm _).mem_iff, Map.mem_toPairs, decide_eq_true_iff]
  constructor
  · intro hlast
    exact (hmem l).mp (mem_of_lastLoc hlast)
  · intro hl
    obtain ⟨l', hl'⟩ := lastLoc_isSome ((hmem l).mpr hl)
    have heq := ((hmem l').mp (mem_of_lastLoc hl')).1
    rw [hl.1] at heq
    rw [hl', Option.some.inj heq]

theorem locsAt_congr {d d' : Disk} {t id : Nat} (hbytes : d'.bytes? t id = d.bytes? t id)
    (hhint : d'.hint? t id = d.hint? t id) : locsAt d' t id = locsAt d t id := by
  rw [locsAt, hbytes, hhint, locsAt]

theorem locsAt_of_hint {d : Disk} {t id : Nat} {bs hint : Bytes}
    (hbs : d.bytes? t id = some bs) (hhint : d.hint? t id = some hint) :
    locsAt d t id = hintLocs id bs.length hint := by
  rw [locsAt, hbs, hhint]

/-- Every sealed pack has its hint file, equal in all tiers; what the files list
for a key is the index entry or an older one. -/
structure Hinted (w : World) : Prop where
  le_active : ∀ {t id hint}, w.disk.hint? t id = some hint → id ≤ w.store.active
  active_tier : ∀ {t hint}, w.disk.hint? t w.store.active = some hint → t = 0
  own : ∀ {id p}, w.store.place? id = some p → id ≠ w.store.active →
    ∃ hint, w.disk.hint? p.tier id = some hint
  same : ∀ {id p t hint}, w.store.place? id = some p → id ≠ w.store.active →
    w.disk.hint? t id = some hint → w.disk.hint? p.tier id = some hint
  indexed : ∀ {key l}, w.store.index.lookup key = some l → ∃ p, w.store.place? l.pack = some p
  inside : ∀ {key l a}, w.store.index.lookup key = some l → l.pack = w.store.active →
    w.store.place? w.store.active = some a → Inside a.size key l
  newest : ∀ {key l p}, w.store.index.lookup key = some l → l.pack ≠ w.store.active →
    w.store.place? l.pack = some p → lastLoc (locsAt w.disk p.tier l.pack) key = some l
  older : ∀ {id p key l l'}, w.store.place? id = some p → id ≠ w.store.active →
    lastLoc (locsAt w.disk p.tier id) key = some l → w.store.index.lookup key = some l' →
      id ≤ l'.pack

/-- The tables stay, and so do the files of sealed packs where they are read;
a new hint file belongs to the active pack or is a copy. -/
theorem Hinted.frame (h : Hinted w) (hw : Placed w)
    (ht : SameTables w.store w'.store)
    (hfiles : ∀ {id p}, w.store.place? id = some p → id ≠ w.store.active →
      w'.disk.bytes? p.tier id = w.disk.bytes? p.tier id ∧
        w'.disk.hint? p.tier id = w.disk.hint? p.tier id)
    (hhint : ∀ {t id hint}, w'.disk.hint? t id = some hint → w.disk.hint? t id = some hint ∨
      (id = w.store.active ∧ t = 0) ∨ (id ≠ w.store.active ∧ ∃ p, w.store.place? id = some p ∧
        w.disk.hint? p.tier id = some hint)) : Hinted w' := by
  have hlocs : ∀ {id p}, w.store.place? id = some p → id ≠ w.store.active →
      locsAt w'.disk p.tier id = locsAt w.disk p.tier id :=
    fun hp hne => locsAt_congr (hfiles hp hne).1 (hfiles hp hne).2
  constructor
  · intro t id hint hh
    rw [ht.active]
    rcases hhint hh with hold | ⟨rfl, -⟩ | ⟨-, p, hp, -⟩
    · exact h.le_active hold
    · exact Nat.le_refl _
    · exact hw.le_active hp
  · intro t hint hh
    rw [ht.active] at hh
    rcases hhint hh with hold | ⟨-, rfl⟩ | ⟨hne, -⟩
    · exact h.active_tier hold
    · rfl
    · exact absurd rfl hne
  · intro id p hp hne
    rw [ht.place] at hp
    rw [ht.active] at hne
    rw [(hfiles hp hne).2]
    exact h.own hp hne
  · intro id p t hint hp hne hh
    rw [ht.place] at hp
    rw [ht.active] at hne
    rw [(hfiles hp hne).2]
    rcases hhint hh with hold | ⟨heq, -⟩ | ⟨-, q, hq, hcopy⟩
    · exact h.same hp hne hold
    · exact absurd heq hne
    · cases hp.symm.trans hq
      exact hcopy
  · intro key l hl
    rw [ht.index] at hl
    simpa only [ht.place] using h.indexed hl
  · intro key l a hl hid ha
    rw [ht.index] at hl
    rw [ht.active] at hid ha
    rw [ht.place] at ha
    exact h.inside hl hid ha
  · intro key l p hl hne hp
    rw [ht.index] at hl
    rw [ht.active] at hne
    rw [ht.place] at hp
    rw [hlocs hp hne]
    exact h.newest hl hne hp
  · intro id p key l l' hp hne hlast hl'
    rw [ht.index] at hl'
    rw [ht.active] at hne
    rw [ht.place] at hp
    rw [hlocs hp hne] at hlast
    exact h.older hp hne hlast hl'

theorem Admitted.inside {a : Place} {r : Record} (h : Admitted a r) (id : Nat) :
    Inside (a.size + r.write.length) r.key
      ⟨id, a.size + recHeader + r.key.length, r.value.length⟩ := by
  have hkey := h.key_le
  have hvalue := h.value_le
  have hfit := h.fits
  have hlen := r.write_length
  simp only [packLimit, recHeader] at hfit hlen
  constructor <;> simp only [recHeader] <;> omega

/-- A record in the active pack: its entry is the newest for its key. -/
theorem Hinted.append {w w' : World} {a : Place} {r : Record} (h : Hinted w) (hw : Placed w)
    (ha : w.store.place? w.store.active = some a) (hr : Admitted a r)
    (hindex : w'.store.index = w.store.index.insert r.key
      ⟨a.id, a.size + recHeader + r.key.length, r.value.length⟩)
    (hactive : w'.store.active = w.store.active)
    (hplace : ∀ id, w'.store.place? id = if id = w.store.active then
      some { a with size := a.size + r.write.length } else w.store.place? id)
    (hbytes : ∀ t id, id ≠ w.store.active → w'.disk.bytes? t id = w.disk.bytes? t id)
    (hhint : ∀ t id, w'.disk.hint? t id = w.disk.hint? t id) : Hinted w' := by
  have hid : a.id = w.store.active := hw.id_eq ha
  have hlookup : ∀ {key l}, w'.store.index.lookup key = some l →
      (key = r.key ∧ l = ⟨w.store.active, a.size + recHeader + r.key.length, r.value.length⟩) ∨
        w.store.index.lookup key = some l := by
    intro key l hl
    rw [hindex, Map.lookup_insert_eq] at hl
    split at hl
    · next heq => exact Or.inl ⟨heq, hid ▸ (Option.some.inj hl).symm⟩
    · exact Or.inr hl
  have hlocs : ∀ t id, id ≠ w.store.active → locsAt w'.disk t id = locsAt w.disk t id :=
    fun t id hne => locsAt_congr (hbytes t id hne) (hhint t id)
  constructor
  · intro t id hint hh
    rw [hactive]
    exact h.le_active (hhint t id ▸ hh)
  · intro t hint hh
    rw [hhint, hactive] at hh
    exact h.active_tier hh
  · intro id p hp hne
    rw [hactive] at hne
    rw [hplace, if_neg hne] at hp
    simpa only [hhint] using h.own hp hne
  · intro id p t hint hp hne hh
    rw [hactive] at hne
    rw [hplace, if_neg hne] at hp
    rw [hhint] at hh ⊢
    exact h.same hp hne hh
  · intro key l hl
    rw [hplace]
    split
    · exact ⟨_, rfl⟩
    · next hne =>
        rcases hlookup hl with ⟨-, rfl⟩ | hold
        · exact absurd rfl hne
        · exact h.indexed hold
  · intro key l a' hl heq ha'
    rw [hactive, hplace, if_pos rfl] at ha'
    cases ha'
    rcases hlookup hl with ⟨rfl, rfl⟩ | hold
    · exact hr.inside w.store.active
    · exact (h.inside hold (heq.trans hactive) ha).mono (Nat.le_add_right _ _)
  · intro key l p hl hne hp
    rw [hactive] at hne
    rw [hplace, if_neg hne] at hp
    rw [hlocs _ _ hne]
    rcases hlookup hl with ⟨-, rfl⟩ | hold
    · exact absurd rfl hne
    · exact h.newest hold hne hp
  · intro id p key l l' hp hne hlast hl'
    rw [hactive] at hne
    rw [hplace, if_neg hne] at hp
    rw [hlocs _ _ hne] at hlast
    rcases hlookup hl' with ⟨-, rfl⟩ | hold
    · exact hw.le_active hp
    · exact h.older hp hne hlast hold

/-- Sealing the active pack: its hint file is up to date when the next one starts. -/
theorem Hinted.start {w w' : World} (h : Hinted w) (hw : Placed w) {order : Shuffle}
    (hhint : w.disk.hint? 0 w.store.active =
      some (hintOf w.store.index w.store.active order))
    (hindex : w'.store.index = w.store.index)
    (hactive : w'.store.active = w.store.active + 1)
    (hplace : ∀ id, w'.store.place? id =
      if id = w.store.active + 1 then some ⟨w.store.active + 1, 0, 0⟩ else w.store.place? id)
    (hbytes : ∀ t id, id ≠ w.store.active + 1 → w'.disk.bytes? t id = w.disk.bytes? t id)
    (hsame : ∀ t id, w'.disk.hint? t id = w.disk.hint? t id) : Hinted w' := by
  obtain ⟨a, bs, ha, htier, hbs, hle⟩ := hw.active
  have hsealed : ∀ key l, lastLoc (locsAt w.disk 0 w.store.active) key = some l ↔
      w.store.index.lookup key = some l ∧ l.pack = w.store.active := by
    intro key l
    rw [locsAt_of_hint hbs hhint]
    exact lastLoc_hintOf order (fun hl hid => (h.inside hl hid ha).mono hle) key l
  have hlocs : ∀ t id, id ≠ w.store.active + 1 → locsAt w'.disk t id = locsAt w.disk t id :=
    fun t id hne => locsAt_congr (hbytes t id hne) (hsame t id)
  constructor
  · intro t id hint hh
    rw [hactive]
    exact Nat.le_succ_of_le (h.le_active (hsame t id ▸ hh))
  · intro t hint hh
    rw [hsame, hactive] at hh
    exact absurd (h.le_active hh) (Nat.not_succ_le_self _)
  · intro id p hp hne
    rw [hactive] at hne
    rw [hplace, if_neg hne] at hp
    rw [hsame]
    by_cases hid : id = w.store.active
    · subst hid
      cases ha.symm.trans hp
      exact ⟨_, htier ▸ hhint⟩
    · exact h.own hp hid
  · intro id p t hint hp hne hh
    rw [hactive] at hne
    rw [hplace, if_neg hne] at hp
    rw [hsame] at hh ⊢
    by_cases hid : id = w.store.active
    · subst hid
      cases ha.symm.trans hp
      rw [htier, ← h.active_tier hh]
      exact hh
    · exact h.same hp hid hh
  · intro key l hl
    rw [hindex] at hl
    rw [hplace]
    split
    · exact ⟨_, rfl⟩
    · exact h.indexed hl
  · intro key l a' hl heq ha'
    rw [hindex] at hl
    obtain ⟨p, hp⟩ := h.indexed hl
    have := hw.le_active hp
    omega
  · intro key l p hl hne hp
    rw [hindex] at hl
    rw [hactive] at hne
    rw [hplace, if_neg hne] at hp
    rw [hlocs _ _ hne]
    by_cases hid : l.pack = w.store.active
    · rw [hid] at hp ⊢
      cases ha.symm.trans hp
      rw [htier]
      exact (hsealed key l).mpr ⟨hl, hid⟩
    · exact h.newest hl hid hp
  · intro id p key l l' hp hne hlast hl'
    rw [hindex] at hl'
    rw [hactive] at hne
    rw [hplace, if_neg hne] at hp
    rw [hlocs _ _ hne] at hlast
    by_cases hid : id = w.store.active
    · subst hid
      cases ha.symm.trans hp
      rw [htier] at hlast
      obtain ⟨hl, hpack⟩ := (hsealed key l).mp hlast
      cases hl.symm.trans hl'
      exact Nat.le_of_eq hpack.symm
    · exact h.older hp hid hlast hl'

/-- A sealed pack is read from the next tier, where equal copies stand. -/
theorem Hinted.switch {w w' : World} {id : Nat} {p : Place} (h : Hinted w) (hw : Placed w)
    (hp : w.store.place? id = some p) (hne : id ≠ w.store.active)
    (hcopy : (w.disk.bytes? (p.tier + 1) id).isSome)
    (hhint : (w.disk.hint? (p.tier + 1) id).isSome)
    (hindex : w'.store.index = w.store.index) (hactive : w'.store.active = w.store.active)
    (hplace : ∀ i, w'.store.place? i =
      if i = id then some { p with tier := p.tier + 1 } else w.store.place? i)
    (hbytes : ∀ t i, (t, i) ≠ (p.tier, id) → w'.disk.bytes? t i = w.disk.bytes? t i)
    (hsame : ∀ t i, w'.disk.hint? t i = w.disk.hint? t i) : Hinted w' := by
  obtain ⟨hint, hlow⟩ := Option.isSome_iff_exists.mp hhint
  obtain ⟨bs, hbs⟩ := Option.isSome_iff_exists.mp hcopy
  have hhigh : w.disk.hint? p.tier id = some hint := h.same hp hne hlow
  have hbs' : w.disk.bytes? p.tier id = some bs := by
    obtain ⟨q, hq, hor⟩ := hw.file_owner hbs
    cases hp.symm.trans hq
    rcases hor with heq | ⟨-, -, hcopy⟩
    · exact absurd heq (Nat.succ_ne_self _)
    · exact hcopy
  -- where a pack is read now, it reads as it did before
  have hread : ∀ {i q}, w'.store.place? i = some q → ∃ q₀, w.store.place? i = some q₀ ∧
      locsAt w'.disk q.tier i = locsAt w.disk q₀.tier i ∧
        w.disk.hint? q.tier i = w.disk.hint? q₀.tier i := by
    intro i q hq
    rw [hplace] at hq
    split at hq
    · next heq =>
        subst heq
        cases hq
        refine ⟨p, hp, ?_, hlow.trans hhigh.symm⟩
        have hbs₁ : w'.disk.bytes? (p.tier + 1) i = some bs := by
          rw [hbytes _ _ fun heq => Nat.succ_ne_self _ (Prod.mk.inj heq).1]
          exact hbs
        rw [locsAt_of_hint hbs₁ ((hsame _ _).trans hlow), locsAt_of_hint hbs' hhigh]
    · next hi =>
        exact ⟨q, hq, locsAt_congr (hbytes _ _ fun heq => hi (Prod.mk.inj heq).2) (hsame _ _),
          rfl⟩
  constructor
  · intro t i hint hh
    rw [hactive]
    exact h.le_active (hsame t i ▸ hh)
  · intro t hint hh
    rw [hsame, hactive] at hh
    exact h.active_tier hh
  · intro i q hq hi
    obtain ⟨q₀, hq₀, -, heq⟩ := hread hq
    rw [hsame, heq]
    exact h.own hq₀ (hactive ▸ hi)
  · intro i q t hint hq hi hh
    obtain ⟨q₀, hq₀, -, heq⟩ := hread hq
    rw [hsame] at hh ⊢
    rw [heq]
    exact h.same hq₀ (hactive ▸ hi) hh
  · intro key l hl
    rw [hplace]
    split
    · exact ⟨_, rfl⟩
    · exact h.indexed (hindex ▸ hl)
  · intro key l a hl hid ha
    rw [hactive, hplace, if_neg hne.symm] at ha
    exact h.inside (hindex ▸ hl) (hid.trans hactive) ha
  · intro key l q hl hi hq
    obtain ⟨q₀, hq₀, heq, -⟩ := hread hq
    rw [heq]
    exact h.newest (hindex ▸ hl) (hactive ▸ hi) hq₀
  · intro i q key l l' hq hi hlast hl'
    obtain ⟨q₀, hq₀, heq, -⟩ := hread hq
    rw [heq] at hlast
    exact h.older hq₀ (hactive ▸ hi) hlast (hindex ▸ hl')

/-- A deleted pack takes its entries along; what other packs list is older still. -/
theorem Hinted.evict {w w' : World} {id : Nat} (h : Hinted w)
    (hne : id ≠ w.store.active)
    (hindex : ∀ key, w'.store.index.lookup key =
      (w.store.index.lookup key).filter fun l => l.pack != id)
    (hactive : w'.store.active = w.store.active)
    (hplace : ∀ i, w'.store.place? i = if i = id then none else w.store.place? i)
    (hbytes : ∀ t i, i ≠ id → w'.disk.bytes? t i = w.disk.bytes? t i)
    (hsame : ∀ t i, w'.disk.hint? t i = w.disk.hint? t i) : Hinted w' := by
  have hold : ∀ {key l}, w'.store.index.lookup key = some l →
      w.store.index.lookup key = some l ∧ l.pack ≠ id := by
    intro key l hl
    rw [hindex, Option.filter_eq_some_iff] at hl
    exact ⟨hl.1, by simpa using hl.2⟩
  have hother : ∀ {i q}, w'.store.place? i = some q → i ≠ id ∧ w.store.place? i = some q := by
    intro i q hq
    rw [hplace] at hq
    split at hq
    · cases hq
    · next hi => exact ⟨hi, hq⟩
  have hlocs : ∀ t i, i ≠ id → locsAt w'.disk t i = locsAt w.disk t i :=
    fun t i hi => locsAt_congr (hbytes t i hi) (hsame t i)
  constructor
  · intro t i hint hh
    rw [hactive]
    exact h.le_active (hsame t i ▸ hh)
  · intro t hint hh
    rw [hsame, hactive] at hh
    exact h.active_tier hh
  · intro i q hq hi
    rw [hsame]
    exact h.own (hother hq).2 (hactive ▸ hi)
  · intro i q t hint hq hi hh
    rw [hsame] at hh ⊢
    exact h.same (hother hq).2 (hactive ▸ hi) hh
  · intro key l hl
    obtain ⟨hl, hpack⟩ := hold hl
    rw [hplace, if_neg hpack]
    exact h.indexed hl
  · intro key l a hl hid ha
    rw [hactive, hplace, if_neg hne.symm] at ha
    exact h.inside (hold hl).1 (hid.trans hactive) ha
  · intro key l q hl hi hq
    rw [hlocs _ _ (hother hq).1]
    exact h.newest (hold hl).1 (hactive ▸ hi) (hother hq).2
  · intro i q key l l' hq hi hlast hl'
    rw [hlocs _ _ (hother hq).1] at hlast
    exact h.older (hother hq).2 (hactive ▸ hi) hlast (hold hl').1

/-- Writing to the file of the active pack touches no sealed pack. -/
theorem Hinted.scribble {w w' : World} {a : Place} {f : Bytes → Bytes} (h : Hinted w)
    (hw : Placed w) (ha : w.store.place? w.store.active = some a) (hstore : w'.store = w.store)
    (hbytes : ∀ t id, w'.disk.bytes? t id = if (t, id) = (a.tier, a.id) then
      (w.disk.bytes? t id).map f else w.disk.bytes? t id)
    (hhint : ∀ t id, w'.disk.hint? t id = w.disk.hint? t id) : Hinted w' := by
  refine h.frame hw (hstore ▸ SameTables.refl _) ?_ ?_
  · intro id p _ hne
    refine ⟨?_, hhint _ _⟩
    rw [hbytes, if_neg fun heq => hne ((Prod.mk.inj heq).2.trans (hw.id_eq ha))]
  · intro t id hint hh
    exact Or.inl (hhint t id ▸ hh)

variable {bound : Nat} {clean : Prop}

theorem Hinted.effect {es : List Event} (h : Hinted w) (hw : Placed w)
    (he : Effect bound clean w es w') : Hinted w' := by
  cases he with
  | idle ht hf =>
      refine h.frame hw ht ?_ ?_
      · intro id p _ _
        exact ⟨hf.bytes _ _, hf.hint _ _⟩
      · intro t id hint hh
        exact Or.inl (hf.hint t id ▸ hh)
  | @writeHint s d a ha order =>
      have hid : a.id = s.active := hw.id_eq ha
      refine h.frame hw (SameTables.refl _) ?_ ?_
      · intro id p _ hne
        refine ⟨bytes?_putHint _ _ _ _ _ _, ?_⟩
        rw [hint?_putHint, if_neg fun heq => hne ((Prod.mk.inj heq).2.trans hid)]
      · intro t id hint hh
        rw [hint?_putHint] at hh
        split at hh
        · next heq =>
            obtain ⟨a', -, ha', htier, -⟩ := hw.active
            cases ha.symm.trans ha'
            obtain ⟨rfl, rfl⟩ := Prod.mk.inj heq
            exact Or.inr (Or.inl ⟨hid, htier⟩)
        · exact Or.inl hh
  | @start s s' d now hbound hfree hhint hindex hactive htiers hplace =>
      obtain ⟨order, horder⟩ := hhint
      refine h.start hw horder hindex hactive hplace ?_ (fun _ _ => hint?_create _ _ _ _ _ _)
      intro t id hne
      rw [bytes?_create, if_neg fun heq => hne (Prod.mk.inj heq).2]
  | scribble now ha hr hpre hne hclean =>
      exact h.scribble hw ha rfl (fun _ _ => bytes?_write _ _ _ _ _ _ _ _)
        fun _ _ => hint?_write _ _ _ _ _ _ _ _
  | truncate now ha =>
      exact h.scribble hw ha rfl (fun _ _ => bytes?_truncate _ _ _ _ _ _ _)
        fun _ _ => hint?_truncate _ _ _ _ _ _ _
  | append now ha hr hclean hindex hactive htiers hplace =>
      refine h.append hw ha hr hindex hactive hplace ?_ (fun _ _ => hint?_write _ _ _ _ _ _ _ _)
      intro t id hne
      rw [bytes?_write, if_neg fun heq => hne ((Prod.mk.inj heq).2.trans (hw.id_eq ha))]
  | @linkPack s d id p hp hne hlow =>
      refine h.frame hw (SameTables.refl _) ?_ fun hh => Or.inl (hint?_linkPack _ _ _ _ _ ▸ hh)
      intro i q hq _
      refine ⟨?_, hint?_linkPack _ _ _ _ _⟩
      rw [bytes?_linkPack, if_neg]
      intro heq
      obtain ⟨htier, rfl⟩ := Prod.mk.inj heq
      rw [hw.id_eq hp] at hq
      cases hp.symm.trans hq
      exact Nat.succ_ne_self _ htier.symm
  | @linkHint s d id p hp hne hcopy =>
      have hid : p.id = id := hw.id_eq hp
      refine h.frame hw (SameTables.refl _) ?_ ?_
      · intro i q hq _
        refine ⟨bytes?_linkHint _ _ _ _ _, ?_⟩
        rw [hint?_linkHint, if_neg]
        intro heq
        obtain ⟨htier, rfl⟩ := Prod.mk.inj heq
        rw [hid] at hq
        cases hp.symm.trans hq
        exact Nat.succ_ne_self _ htier.symm
      · intro t i hint hh
        rw [hint?_linkHint] at hh
        split at hh
        · next heq =>
            obtain ⟨rfl, rfl⟩ := Prod.mk.inj heq
            rw [hid] at hh ⊢
            rcases Option.or_eq_some_iff.mp hh with hold | ⟨-, hcopied⟩
            · exact Or.inl hold
            · exact Or.inr (Or.inr ⟨hne, p, hp, hcopied⟩)
        · exact Or.inl hh
  | switch hp hne hcopy hhint hindex hactive htiers hplace =>
      have hid := hw.id_eq hp
      refine h.switch hw hp hne (hid ▸ hcopy) (hid ▸ hhint) hindex hactive hplace ?_
        fun _ _ => hint?_removePack _ _ _ _ _
      intro t i hi
      rw [bytes?_removePack, if_neg (hid ▸ hi)]
  | evict hp hne hlast hindex hactive htiers hplace =>
      have hid := hw.id_eq hp
      refine h.evict hne hindex hactive hplace ?_ fun _ _ => hint?_removePack _ _ _ _ _
      intro t i hi
      rw [bytes?_removePack, if_neg fun heq => hi ((Prod.mk.inj heq).2.trans hid)]
  | @removeHint s d t id hgone hfile =>
      refine h.frame hw (SameTables.refl _) ?_ ?_
      · intro i p hp _
        refine ⟨bytes?_removeHint _ _ _ _ _, ?_⟩
        rw [hint?_removeHint, if_neg]
        intro heq
        obtain ⟨htier, rfl⟩ := Prod.mk.inj heq
        exact absurd htier (Nat.ne_of_gt (hgone p hp))
      · intro t' i hint hh
        rw [hint?_removeHint] at hh
        split at hh
        · cases hh
        · exact Or.inl hh

theorem Hinted.chain {es : List Event} (h : Hinted w) (hw : Placed w)
    (hc : Chain bound clean w es w') : Hinted w' := by
  induction hc with
  | nil w => exact h
  | cons he _ ih => exact ih (h.effect hw he) (hw.effect he)

end Repkgs.Jigd
