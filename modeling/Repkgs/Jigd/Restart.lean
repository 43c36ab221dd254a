import Repkgs.Jigd.HintFiles
import Repkgs.Jigd.LastPut

/-!
# Restart after `Close`

A store opened again on the directories of a closed one answers as that one did,
up to keys whose newest value was deleted with its pack while the hint file of
an older pack still lists them.
-/

namespace Repkgs.Jigd

open Lib

/-- Directories as a clean shutdown leaves them: readable pack names, no hint
file without its pack, no unsealed pack of 4 GiB. -/
structure Tidy (d : Disk) (tiers : Nat) : Prop where
  readable : Readable d tiers
  paired : ∀ {t id hint}, d.hint? t id = some hint → ∃ bs, d.bytes? t id = some bs
  small : ∀ {t id bs}, d.bytes? t id = some bs → d.hint? t id = none → bs.length < 2 ^ 32

theorem scanLocs_inside {id size : Nat} (hsize : size < 2 ^ 32) {rs : List Record} {off : Nat}
    (h : off + (recordFormat.writeAll rs).length ≤ size) {key : Bytes} {l : Loc}
    (hmem : (key, l) ∈ scanLocs id off rs) : Inside size key l := by
  induction rs generalizing off with
  | nil => cases hmem
  | cons r rs ih =>
      rw [Format.writeAll_cons, List.length_append] at h
      have hlen : (recordFormat.write r).length = recHeader + r.key.length + r.value.length :=
        r.write_length
      rcases List.mem_cons.mp hmem with heq | hmem
      · obtain ⟨rfl, rfl⟩ := Prod.mk.inj heq
        have hoff : u32 (u32 off + recHeader + r.key.length) = off + recHeader + r.key.length := by
          rw [u32_of_lt (n := off) (by omega), u32_of_lt (by omega)]
        constructor <;> simp only [hoff] <;> omega
      · exact ih (by omega) hmem

section Opened

variable {d : Disk} {n : Nat} {done : List (Nat × Nat)} {w : World}

/-- The hint file of a loaded pack lists what the pack listed before, and all of
it that is in the index. -/
theorem OpenedOn.locs (h : OpenedOn d n done w) (hd : Tidy d n) {t id : Nat}
    (hown : owner done id = some t) :
    (∀ {key l}, lastLoc (locsAt w.disk t id) key = some l →
      lastLoc (locsAt d t id) key = some l) ∧
    ∀ {key l}, w.store.index.lookup key = some l → l.pack = id →
      lastLoc (locsAt d t id) key = some l → lastLoc (locsAt w.disk t id) key = some l := by
  have hne : id ≠ w.store.active := Nat.ne_of_lt (h.lt_active hown)
  have hbytes : w.disk.bytes? t id = bytesAfter d t id := by
    rw [h.bytes, if_neg fun heq => hne (Prod.mk.inj heq).2, if_pos hown]
  obtain ⟨bs, hbs⟩ := Option.isSome_iff_exists.mp
    ((h.seen.mem_iff t id).mp (mem_of_owner hown)).2
  obtain ⟨hint, hhint, hfor⟩ := h.hint_own hown
  rcases hfor with hold | ⟨hnone, idx, order, rfl, hidx, hcur⟩
  · have hkept : locsAt w.disk t id = locsAt d t id := by
      refine locsAt_congr (hbytes.trans ?_) (hhint.trans hold.symm)
      rw [bytesAfter, hbs, hold]
      rfl
    rw [hkept]
    exact ⟨fun hlast => hlast, fun _ _ hlast => hlast⟩
  · have hcut : w.disk.bytes? t id = some (wholeRecords bs) := by
      rw [hbytes, bytesAfter, hbs, hnone]
      rfl
    have hsmall : (wholeRecords bs).length < 2 ^ 32 :=
      Nat.lt_of_le_of_lt (wholeRecords_front bs).length_le (hd.small hbs hnone)
    have hinside : ∀ {key l}, idx.lookup key = some l → l.pack = id →
        Inside (wholeRecords bs).length key l := by
      intro key l hl hid
      have hmem := mem_of_lastLoc (hidx hl hid)
      rw [locsAt, hbs, hnone] at hmem
      exact scanLocs_inside hsmall (Nat.le_of_eq (Nat.zero_add _)) hmem
    have hiff := fun key l => lastLoc_hintOf order hinside key l
    rw [locsAt_of_hint hcut hhint]
    constructor
    · intro key l hlast
      obtain ⟨hl, hid⟩ := (hiff key l).mp hlast
      exact hidx hl hid
    · intro key l hl hid _
      exact (hiff key l).mpr ⟨hcur hl hid, hid⟩

theorem OpenedOn.owner_of_place (h : OpenedOn d n done w) {id : Nat} {p : Place}
    (hp : w.store.place? id = some p) (hne : id ≠ w.store.active) :
    owner done id = some p.tier := by
  rw [h.place, if_neg hne] at hp
  obtain ⟨t, ht, hp⟩ := Option.bind_eq_some_iff.mp hp
  obtain ⟨bs, -, rfl⟩ := Option.map_eq_some_iff.mp hp
  exact ht

/-- Only loaded packs have a hint file. -/
theorem OpenedOn.owner_of_hint (h : OpenedOn d n done w) (hd : Tidy d n) {t id : Nat}
    {hint : Bytes} (hh : w.disk.hint? t id = some hint) : owner done id = some t := by
  by_contra hown
  cases hbs : d.bytes? t id with
  | some bs =>
      rw [h.hint_dup hbs hown] at hh
      cases hh
  | none =>
      rw [h.hint_rest hbs] at hh
      obtain ⟨bs, hbs'⟩ := hd.paired hh
      rw [hbs] at hbs'
      cases hbs'

theorem OpenedOn.hinted (h : OpenedOn d n done w) (hd : Tidy d n) : Hinted w := by
  constructor
  · intro t id hint hh
    exact Nat.le_of_lt (h.lt_active (h.owner_of_hint hd hh))
  · intro t hint hh
    exact absurd (h.lt_active (h.owner_of_hint hd hh)) (Nat.lt_irrefl _)
  · intro id p hp hne
    obtain ⟨hint, hh, -⟩ := h.hint_own (h.owner_of_place hp hne)
    exact ⟨hint, hh⟩
  · intro id p t hint hp hne hh
    have heq := (h.owner_of_place hp hne).symm.trans (h.owner_of_hint hd hh)
    rw [Option.some.inj heq]
    exact hh
  · intro key l hl
    obtain ⟨t, ht, -⟩ := h.index_own hl
    obtain ⟨bs, hbs⟩ := Option.isSome_iff_exists.mp
      ((h.seen.mem_iff t l.pack).mp (mem_of_owner ht)).2
    obtain ⟨bs', hbs'⟩ := bytesAfter_isSome hbs
    refine ⟨⟨l.pack, t, bs'.length⟩, ?_⟩
    rw [h.place, if_neg (Nat.ne_of_lt (h.lt_active ht)), ht, Option.bind_some, hbs']
    rfl
  · intro key l a hl hid _
    obtain ⟨t, ht, -⟩ := h.index_own hl
    exact absurd (hid ▸ h.lt_active ht) (Nat.lt_irrefl _)
  · intro key l p hl hne hp
    obtain ⟨t, ht, hlast⟩ := h.index_own hl
    cases ht.symm.trans (h.owner_of_place hp hne)
    exact (h.locs hd ht).2 hl rfl hlast
  · intro id p key l l' hp hne hlast hl'
    have hown := h.owner_of_place hp hne
    obtain ⟨l₁, hl₁, hle⟩ := h.index_all hown ((h.locs hd hown).1 hlast)
    cases hl'.symm.trans hl₁
    exact hle

end Opened

/-- The next pack id still fits the six digits of a pack name. -/
def SixDigits (w : World) (_ : Op) : Prop := w.store.active + 1 < 10 ^ 6

instance (w : World) (op : Op) : Decidable (SixDigits w op) :=
  inferInstanceAs (Decidable (w.store.active + 1 < 10 ^ 6))

/-- What holds in every state of a lifetime whose pack ids stay readable. -/
structure Sealable (n : Nat) (w : World) : Prop where
  placed : Placed w
  hinted : Hinted w
  active_lt : w.store.active < 10 ^ 6
  tiers : w.store.tiers.length = n

theorem Sealable.step {n : Nat} (w : World) (op : Op) (w' : World) (h : Sealable n w)
    (hsix : SixDigits w op) (hstep : w.step op = some w') : Sealable n w' := by
  obtain ⟨o, ho, rfl⟩ := Option.map_eq_some_iff.mp hstep
  have hexec : Executes (10 ^ 6) False w o (w.events op) :=
    step_executes h.placed False.elim hsix (by decide) ho
  obtain ⟨hlt, htiers⟩ := hexec.full.active_tiers h.active_lt
  exact ⟨h.placed.chain hexec.full, h.hinted.chain h.placed hexec.full, hlt,
    htiers.trans h.tiers⟩

/-- No sealed pack lists a key for which the store has no value. -/
def NothingStale (w : World) : Prop :=
  ∀ id p key l, w.store.place? id = some p → id ≠ w.store.active →
    lastLoc (locsAt w.disk p.tier id) key = some l → ∃ l', w.store.index.lookup key = some l'

/-- The directories once the active pack is sealed. -/
def World.shutdown (w : World) (order : Shuffle) : Disk :=
  FileOp.apply w.disk (.putHint 0 w.store.active (hintOf w.store.index w.store.active order))

theorem close_world {w : World} (hw : Placed w) {fails : Bool} {order : Shuffle}
    (hok : (w.store.close fails order).ok = true) :
    ((w.store.close fails order).world w.disk).disk = w.shutdown order := by
  obtain ⟨a, -, ha, htier, -⟩ := hw.active
  obtain ⟨q, hq, rfl⟩ := of_place?_eq_some ha
  have hid : q.id = w.store.active := hw.id_eq ha
  have htier' : q.tier = 0 := htier
  simp only [Store.close, hq] at hok ⊢
  cases fails with
  | true => cases hok
  | false => simp [Outcome.world, Core.seal, hid, htier', World.shutdown]

section Shutdown

variable {n : Nat} {w : World} {order : Shuffle}

@[simp] theorem World.bytes?_shutdown (t id : Nat) :
    (w.shutdown order).bytes? t id = w.disk.bytes? t id := bytes?_putHint _ _ _ _ _ _

theorem World.hint?_shutdown (t id : Nat) : (w.shutdown order).hint? t id =
    if (t, id) = (0, w.store.active) then some (hintOf w.store.index w.store.active order)
    else w.disk.hint? t id := hint?_putHint _ _ _ _ _ _

theorem Sealable.readable_shutdown (h : Sealable n w) : Readable (w.shutdown order) n := by
  have hread : Readable w.disk n := h.tiers ▸ h.placed.readable h.active_lt
  constructor
  · intro t id bs hbs
    exact hread.tier_lt ((World.bytes?_shutdown t id).symm.trans hbs)
  · intro t id bs hbs
    exact hread.id_lt ((World.bytes?_shutdown t id).symm.trans hbs)

/-- What the hint file of the active pack lists after `Close`. -/
theorem Sealable.lastLoc_active (h : Sealable n w) (key : Bytes) (l : Loc) :
    lastLoc (locsAt (w.shutdown order) 0 w.store.active) key = some l ↔
      w.store.index.lookup key = some l ∧ l.pack = w.store.active := by
  obtain ⟨a, bs, ha, -, hbs, hle⟩ := h.placed.active
  have hhint : (w.shutdown order).hint? 0 w.store.active =
      some (hintOf w.store.index w.store.active order) := by
    rw [World.hint?_shutdown, if_pos rfl]
  rw [locsAt_of_hint ((World.bytes?_shutdown _ _).trans hbs) hhint]
  exact lastLoc_hintOf order (fun hl hid => (h.hinted.inside hl hid ha).mono hle) key l

theorem locsAt_shutdown {t id : Nat} (hne : id ≠ w.store.active) :
    locsAt (w.shutdown order) t id = locsAt w.disk t id := by
  refine locsAt_congr (World.bytes?_shutdown _ _) ?_
  rw [World.hint?_shutdown, if_neg fun heq => hne (Prod.mk.inj heq).2]

variable {id : Nat} {key : Bytes} {l : Loc} {p : Place}

/-- After `Close` every entry of the index is in the hint file of its pack. -/
theorem Sealable.listed (h : Sealable n w) (hl : w.store.index.lookup key = some l)
    (hp : w.store.place? l.pack = some p) :
    lastLoc (locsAt (w.shutdown order) p.tier l.pack) key = some l := by
  by_cases hid : l.pack = w.store.active
  · obtain ⟨a, -, ha, htier, -⟩ := h.placed.active
    rw [hid] at hp ⊢
    cases ha.symm.trans hp
    rw [htier]
    exact (h.lastLoc_active key l).mpr ⟨hl, hid⟩
  · rw [locsAt_shutdown hid]
    exact h.hinted.newest hl hid hp

/-- Whatever a hint file lists after `Close` is not newer than the index. -/
theorem Sealable.listed_le (h : Sealable n w) {l l' : Loc} (hp : w.store.place? id = some p)
    (hlast : lastLoc (locsAt (w.shutdown order) p.tier id) key = some l)
    (hl' : w.store.index.lookup key = some l') : id ≤ l'.pack := by
  by_cases hid : id = w.store.active
  · subst hid
    obtain ⟨a, -, ha, htier, -⟩ := h.placed.active
    cases ha.symm.trans hp
    rw [htier] at hlast
    obtain ⟨hl, hpack⟩ := (h.lastLoc_active key l).mp hlast
    cases hl.symm.trans hl'
    exact Nat.le_of_eq hpack.symm
  · rw [locsAt_shutdown hid] at hlast
    exact h.hinted.older hp hid hlast hl'

variable {done : List (Nat × Nat)} {w' : World}

/-- The new store loads every pack from the tier the old one had it in. -/
theorem Sealable.owner_iff (h : Sealable n w) (ho : OpenedOn (w.shutdown order) n done w')
    (id t : Nat) : owner done id = some t ↔ ∃ p, w.store.place? id = some p ∧ p.tier = t := by
  have hsound : ∀ {t}, owner done id = some t → ∃ p, w.store.place? id = some p ∧ p.tier = t := by
    intro t hown
    obtain ⟨bs, hbs⟩ := Option.isSome_iff_exists.mp
      ((ho.seen.mem_iff t id).mp (mem_of_owner hown)).2
    rw [World.bytes?_shutdown] at hbs
    obtain ⟨p, hp, hor⟩ := h.placed.file_owner hbs
    refine ⟨p, hp, ?_⟩
    rcases hor with heq | ⟨rfl, -, hcopy⟩
    · exact heq.symm
    · have hle := ho.seen.owner_le hown (h.tiers ▸ h.placed.tier_lt hcopy)
        ((World.bytes?_shutdown _ _).trans hcopy)
      exact absurd hle (Nat.not_succ_le_self _)
  constructor
  · exact hsound
  · rintro ⟨p, hp, rfl⟩
    obtain ⟨bs, hbs⟩ := h.placed.has_file hp
    have hmem : (p.tier, id) ∈ done := (ho.seen.mem_iff _ _).mpr
      ⟨h.tiers ▸ h.placed.tier_lt hbs, by rw [World.bytes?_shutdown, hbs]; rfl⟩
    obtain ⟨t, ht⟩ := Option.isSome_iff_exists.mp (owner_isSome hmem)
    obtain ⟨q, hq, rfl⟩ := hsound ht
    cases hp.symm.trans hq
    exact ht

/-- A key that the old store has is found again. -/
theorem Sealable.reopened_lookup (h : Sealable n w) (ho : OpenedOn (w.shutdown order) n done w')
    (hl : w.store.index.lookup key = some l) : w'.store.index.lookup key = some l := by
  obtain ⟨p, hp⟩ := h.hinted.indexed hl
  have hown := (h.owner_iff ho l.pack p.tier).mpr ⟨p, hp, rfl⟩
  obtain ⟨l', hl', hle⟩ := ho.index_all hown (h.listed hl hp)
  obtain ⟨t, ht, hlast⟩ := ho.index_own hl'
  obtain ⟨q, hq, rfl⟩ := (h.owner_iff ho l'.pack t).mp ht
  have hpack : l'.pack = l.pack := Nat.le_antisymm (h.listed_le hq hlast hl) hle
  rw [hpack] at hq hlast
  cases hp.symm.trans hq
  rw [hl', ← hlast, h.listed hl hp]

theorem Sealable.reopened_place (h : Sealable n w) (ho : OpenedOn (w.shutdown order) n done w')
    (hp : w.store.place? id = some p) :
    ∃ p', w'.store.place? id = some p' ∧ p'.tier = p.tier ∧
      w'.disk.bytes? p.tier id = w.disk.bytes? p.tier id := by
  have hown := (h.owner_iff ho id p.tier).mpr ⟨p, hp, rfl⟩
  have hne : id ≠ w'.store.active := Nat.ne_of_lt (ho.lt_active hown)
  obtain ⟨bs, hbs⟩ := h.placed.has_file hp
  have hhint : ((w.shutdown order).hint? p.tier id).isSome = true := by
    rw [World.hint?_shutdown]
    split
    · rfl
    · next hpair =>
        have hsealed : id ≠ w.store.active := by
          rintro rfl
          exact hpair (by rw [h.placed.active_tier hbs])
        obtain ⟨hint, hh⟩ := h.hinted.own hp hsealed
        rw [hh]
        rfl
  have hkept : bytesAfter (w.shutdown order) p.tier id = some bs := by
    simp only [bytesAfter, World.bytes?_shutdown, hbs, hhint, if_true, Option.map_some]
  refine ⟨⟨id, p.tier, bs.length⟩, ?_, rfl, ?_⟩
  · rw [ho.place, if_neg hne, hown, Option.bind_some, hkept]
    rfl
  · rw [ho.bytes, if_neg fun heq => hne (Prod.mk.inj heq).2, if_pos hown, hkept, hbs]

/-- The answers agree exactly when no hint file lists a key the old store lacked. -/
theorem Sealable.reopened_answer_iff (h : Sealable n w)
    (ho : OpenedOn (w.shutdown order) n done w') :
    (∀ key, w'.answer key = w.answer key) ↔ NothingStale w := by
  constructor
  · intro hsame id p key l hp hne hlast
    cases hl : w.store.index.lookup key with
    | some l' => exact ⟨l', rfl⟩
    | none =>
        rw [← locsAt_shutdown hne] at hlast
        have hown := (h.owner_iff ho id p.tier).mpr ⟨p, hp, rfl⟩
        obtain ⟨l', hl', -⟩ := ho.index_all hown hlast
        obtain ⟨t, ht, -⟩ := ho.index_own hl'
        obtain ⟨q, hq, -⟩ := (h.owner_iff ho l'.pack t).mp ht
        obtain ⟨q', hq', -⟩ := h.reopened_place ho hq
        have hanswer := hsame key
        rw [World.answer_eq ho.placed hl' hq', World.answer_eq_none hl] at hanswer
        cases hanswer
  · intro hstale key
    cases hl : w.store.index.lookup key with
    | some l =>
        obtain ⟨p, hp⟩ := h.hinted.indexed hl
        obtain ⟨p', hp', htier, hbytes⟩ := h.reopened_place ho hp
        rw [World.answer_eq h.placed hl hp,
          World.answer_eq ho.placed (h.reopened_lookup ho hl) hp', htier, hbytes]
    | none =>
        rw [World.answer_eq_none hl]
        apply World.answer_eq_none
        by_contra hsome
        obtain ⟨l', hl'⟩ := Option.ne_none_iff_exists'.mp hsome
        obtain ⟨t, ht, hlast⟩ := ho.index_own hl'
        obtain ⟨q, hq, rfl⟩ := (h.owner_iff ho l'.pack t).mp ht
        by_cases hid : l'.pack = w.store.active
        · obtain ⟨a, -, ha, htier, -⟩ := h.placed.active
          rw [hid] at hq hlast
          cases ha.symm.trans hq
          rw [htier] at hlast
          rw [((h.lastLoc_active key l').mp hlast).1] at hl
          cases hl
        · rw [locsAt_shutdown hid] at hlast
          obtain ⟨l, hl₁⟩ := hstale _ q key l' hq hid hlast
          rw [hl] at hl₁
          cases hl₁

end Shutdown

/-- A store that was opened on tidy directories, ran any operations while its
pack ids kept to six digits and was closed: opening it again succeeds, and the
new store answers like the old one exactly if nothing stale was listed. -/
theorem reopen_answers_same_iff {budgets budgets' : List Int} {d : Disk} {now now' : Int}
    {io io' : OpenIO} {w₀ w : World} {ops : List Op} {fails : Bool} {order : Shuffle}
    (hd : Tidy d budgets.length) (hio : io.Faultless)
    (hopen : openWorld budgets d now io = some w₀) (hfirst : w₀.store.active < 10 ^ 6)
    (hids : Along SixDigits World.step w₀ ops) (hrun : run World.step w₀ ops = some w)
    (hclose : (w.store.close fails order).ok = true)
    (htiers : budgets'.length = budgets.length) (hio' : io'.Faultless)
    (hcreate : io'.createFails = false) :
    ∃ w', openWorld budgets' ((w.store.close fails order).world w.disk).disk now' io' = some w' ∧
      ((∀ key, w'.answer key = w.answer key) ↔ NothingStale w) := by
  obtain ⟨done₀, ho₀⟩ := openWorld_spec hd.readable hio hopen
  have hstart : Sealable budgets.length w₀ := ⟨ho₀.placed, ho₀.hinted hd, hfirst, ho₀.tiers⟩
  have hw : Sealable budgets.length w := run_invariant_along Sealable.step hstart hids hrun
  rw [close_world hw.placed hclose]
  have hread : Readable (w.shutdown order) budgets'.length := htiers ▸ hw.readable_shutdown
  have hne : budgets' ≠ [] := List.length_pos_iff.mp (htiers ▸ ho₀.tiers_pos)
  obtain ⟨w', hw'⟩ := openWorld_isSome hread hio' hcreate hne now'
  obtain ⟨done, ho⟩ := openWorld_spec hread hio' hw'
  exact ⟨w', hw', hw.reopened_answer_iff (htiers ▸ ho)⟩

/-- One value, put before the restart. -/
theorem reopen_answers_same_iff_smallPut : ∃ w₀ w w',
    openWorld [1] Disk.empty 0 OpenIO.good = some w₀ ∧ run World.step w₀ [smallPut] = some w ∧
    openWorld [1] ((w.store.close false Shuffle.none).world w.disk).disk 7 OpenIO.good = some w' ∧
    NothingStale w ∧ ∀ key, w'.answer key = w.answer key := by
  obtain ⟨w₀, w, hopen, hfirst, hids, hrun, hclose, honly⟩ : ∃ w₀ w,
      openWorld [1] Disk.empty 0 OpenIO.good = some w₀ ∧ w₀.store.active < 10 ^ 6 ∧
      Along SixDigits World.step w₀ [smallPut] ∧ run World.step w₀ [smallPut] = some w ∧
      (w.store.close false Shuffle.none).ok = true ∧ w.store.packs.keys = [w.store.active] :=
    ⟨_, _, rfl, by decide, by decide, rfl, by decide, by decide⟩
  have hempty : Tidy Disk.empty 1 := ⟨readable_empty 1, nofun, nofun⟩
  obtain ⟨w', hopen', hiff⟩ := reopen_answers_same_iff hempty (fun _ _ => ⟨_, rfl⟩) hopen hfirst
    hids hrun hclose rfl (fun _ _ => ⟨_, rfl⟩) (rfl : OpenIO.good.createFails = false)
  have hstale : NothingStale w := by
    intro id p key l hp hne
    obtain ⟨pack, hpack, -⟩ := Option.map_eq_some_iff.mp hp
    have hid : id ∈ w.store.packs.keys := AList.lookup_isSome.mp (hpack ▸ rfl)
    exact absurd (List.mem_singleton.mp (honly ▸ hid)) hne
  exact ⟨w₀, w, w', hopen, hrun, hopen', hstale, hiff.mpr hstale⟩

/-- Directories whose packs are all sealed and have short names are tidy. -/
theorem tidy_of_keys {d : Disk} {n : Nat} {ks : List (Nat × Nat)} (hpacks : d.packs.keys = ks)
    (hhints : ∀ k, k ∈ d.hints.keys ↔ k ∈ ks) (hks : ∀ k ∈ ks, k.1 < n ∧ k.2 < 10 ^ 6) :
    Tidy d n := by
  have hfile : ∀ {t id bs}, d.bytes? t id = some bs → (t, id) ∈ ks := by
    intro t id bs hbs
    rw [← hpacks]
    exact (bytes?_isSome_iff d t id).mp (hbs ▸ rfl)
  refine ⟨⟨fun hbs => (hks _ (hfile hbs)).1, fun hbs => (hks _ (hfile hbs)).2⟩, ?_, ?_⟩
  · intro t id hint hh
    have hmem : (t, id) ∈ d.hints.keys := (hint?_isSome_iff d t id).mp (hh ▸ rfl)
    rw [hhints, ← hpacks] at hmem
    exact Option.isSome_iff_exists.mp ((bytes?_isSome_iff d t id).mpr hmem)
  · intro t id bs hbs hnone
    have hsome := (hint?_isSome_iff d t id).mpr ((hhints _).mpr (hfile hbs))
    rw [hnone] at hsome
    cases hsome

/-- The directories after a lifetime in which nothing fails. -/
def afterLifetime (budgets : List Int) (d : Disk) (ops : List Op) : Option Disk := do
  let w₀ ← openWorld budgets d 0 OpenIO.good
  let w ← run World.step w₀ ops
  some ((w.store.close false Shuffle.none).world w.disk).disk

/-- A key is put in one lifetime, beside a larger value, and again in the next. -/
def overwritten : Option Disk :=
  (afterLifetime [50] Disk.empty [.put [122] 20 (List.replicate 20 0) 0 PutIO.good,
    .put [107] 1 [1] 0 PutIO.good]).bind fun d =>
      afterLifetime [50] d [.put [107] 1 [2] 0 PutIO.good]

/-- A third lifetime goes over the budget, and the pack with the newer value,
the one with the smaller part of live bytes, is deleted. -/
def deleteNewer : List Op := [.put [120] 1 [3] 0 PutIO.good, .move 2 ⟨false, false, false⟩]

example : (overwritten.bind fun d => (openWorld [50] d 0 OpenIO.good).bind fun w₀ =>
    (run World.step w₀ (deleteNewer.take 1)).bind fun w => w.store.victim.map Pack.id) =
      some 2 := by
  decide

/-- The value that was put first is back after the restart, although the closed
store had no value for the key. -/
theorem superseded_value_comes_back :
    ¬ ∀ (budgets : List Int) (d : Disk) (now : Int) (io : OpenIO) (w₀ w w' : World)
      (ops : List Op) (order : Shuffle), Tidy d budgets.length → io.Faultless →
      openWorld budgets d now io = some w₀ → run World.step w₀ ops = some w →
      (w.store.close false order).ok = true →
      openWorld budgets ((w.store.close false order).world w.disk).disk now io = some w' →
      ∀ key, w'.answer key = w.answer key := by
  intro h
  obtain ⟨d, w₀, w, w', hpacks, hhints, hopen, hrun, hclose, hopen', hold, hnew⟩ :
      ∃ d w₀ w w', d.packs.keys = [(0, 2), (0, 1)] ∧ d.hints.keys = [(0, 2), (0, 1)] ∧
        openWorld [50] d 0 OpenIO.good = some w₀ ∧ run World.step w₀ deleteNewer = some w ∧
        (w.store.close false Shuffle.none).ok = true ∧
        openWorld [50] ((w.store.close false Shuffle.none).world w.disk).disk 0 OpenIO.good =
          some w' ∧ w.answer [107] = none ∧ w'.answer [107] = some (some [1]) :=
    ⟨overwritten.get rfl, _, _, _, by decide, by decide, rfl, rfl, by decide, rfl, by decide,
      by decide⟩
  have htidy : Tidy d 1 := tidy_of_keys hpacks (fun k => by rw [hhints]) (by decide)
  have hbad := h [50] d 0 OpenIO.good w₀ w w' deleteNewer Shuffle.none htidy
    (fun _ _ => ⟨_, rfl⟩) hopen hrun hclose hopen' [107]
  rw [hold, hnew] at hbad
  cases hbad

end Repkgs.Jigd
