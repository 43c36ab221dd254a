import Repkgs.Jigd.Opening
import Repkgs.Jigd.Lifetime

/-!
# The store that `OpenStore` returns

The opened store in terms of the directories it was opened on, and the start of
the invariants of a lifetime.
-/

namespace Repkgs.Jigd

open Lib

/-- The store and the directories after `OpenStore`, if it succeeds. -/
def openWorld (budgets : List Int) (d : Disk) (now : Int) (io : OpenIO) : Option World :=
  let o := openStore budgets d now io
  o.state.map fun s => ⟨s, d.applyAll o.ops⟩

/-- A store opened on `n` directories `d`, whose packs were loaded as `done` says. -/
structure OpenedOn (d : Disk) (n : Nat) (done : List (Nat × Nat)) (w : World) : Prop where
  seen : Seen d n done
  tiers_pos : 0 < n
  tiers : w.store.tiers.length = n
  active_lt : w.store.active ≤ 10 ^ 6
  active_next : w.store.active = 1 ∨ ∃ t id bs, d.bytes? t id = some bs ∧ w.store.active = id + 1
  lt_active : ∀ {id t}, owner done id = some t → id < w.store.active
  place : ∀ id, w.store.place? id = if id = w.store.active then some ⟨w.store.active, 0, 0⟩
    else (owner done id).bind fun t => (bytesAfter d t id).map fun bs => ⟨id, t, bs.length⟩
  bytes : ∀ t id, w.disk.bytes? t id = if (t, id) = (0, w.store.active) then some []
    else if owner done id = some t then bytesAfter d t id else none
  hint_rest : ∀ {t id}, d.bytes? t id = none → w.disk.hint? t id = d.hint? t id
  hint_dup : ∀ {t id bs}, d.bytes? t id = some bs → owner done id ≠ some t →
    w.disk.hint? t id = none
  hint_own : ∀ {t id}, owner done id = some t → ∃ hint, w.disk.hint? t id = some hint ∧
    HintFor d w.store.index t id hint
  index_own : ∀ {key l}, w.store.index.lookup key = some l → ∃ t, owner done l.pack = some t ∧
    lastLoc (locsAt d t l.pack) key = some l
  index_all : ∀ {id t key l}, owner done id = some t → lastLoc (locsAt d t id) key = some l →
    ∃ l', w.store.index.lookup key = some l' ∧ id ≤ l'.pack
  is_open : w.store.closed = false

variable {d : Disk} {w : World}

theorem openWorld_spec {budgets : List Int} (hd : Readable d budgets.length) {io : OpenIO}
    (hio : io.Faultless) {now : Int} (h : openWorld budgets d now io = some w) :
    ∃ done, OpenedOn d budgets.length done w := by
  obtain ⟨done, hopened, hseen⟩ := openTiers_spec hd hio now
  have hfile : ∀ {t id}, owner done id = some t → ∃ bs, d.bytes? t id = some bs :=
    fun hown => hopened.files (mem_of_owner hown)
  have hlast : (openTiers budgets d now io).last < 10 ^ 6 := by
    rcases hopened.last_mem with hzero | ⟨t, ht⟩
    · rw [hzero]
      exact Nat.pow_pos (Nat.succ_pos _)
    · obtain ⟨bs, hbs⟩ := hfile ht
      exact hd.id_lt hbs
  have hid : u32 ((openTiers budgets d now io).last + 1) =
      (openTiers budgets d now io).last + 1 := by
    apply u32_of_lt
    have : (10 : Nat) ^ 6 < 2 ^ 32 := by decide
    omega
  simp only [openWorld, openStore, hid] at h
  cases hstart : (openTiers budgets d now io).core.startPack (openTiers budgets d now io).disk
      ((openTiers budgets d now io).last + 1) now (io.createFails || budgets.isEmpty) with
  | none => simp [hstart] at h
  | some c =>
      have hpos : 0 < budgets.length := by
        cases budgets with
        | nil => simp [Core.startPack] at hstart
        | cons b bs => exact Nat.succ_pos _
      obtain ⟨hfree, rfl⟩ := of_startPack hstart
      simp only [hstart, Option.map_some, Option.some.injEq] at h
      subst h
      generalize openTiers budgets d now io = o at *
      have hdisk : d.applyAll (o.ops ++ [.create 0 (o.last + 1) now]) =
          FileOp.apply o.disk (.create 0 (o.last + 1) now) := by
        rw [Disk.applyAll_append, ← hopened.emitted]
        rfl
      have hrest : ∀ {t id}, d.bytes? t id = none ↔ (t, id) ∉ done := by
        intro t id
        rw [hseen.mem_iff]
        cases hb : d.bytes? t id with
        | none => simp
        | some bs => simp [hd.tier_lt hb]
      refine ⟨done, ⟨hseen, hpos, hopened.tiers, hlast, ?_, ?_, ?_, ?_, ?_, ?_, ?_, ?_, ?_, rfl⟩⟩
      · rcases hopened.last_mem with hzero | ⟨t, ht⟩
        · exact Or.inl (by rw [hzero])
        · obtain ⟨bs, hbs⟩ := hfile ht
          exact Or.inr ⟨t, o.last, bs, hbs, rfl⟩
      · intro id t hown
        exact Nat.lt_succ_of_le (hopened.last_le hown)
      · intro id
        refine (place?_insert _ _ _ _).trans ?_
        split
        · rfl
        · exact hopened.place id
      · intro t id
        rw [hdisk, bytes?_create]
        split
        · rfl
        · rw [hopened.bytes]
          split
          · rfl
          · next hmem =>
              rw [if_neg fun hown => hmem (mem_of_owner hown)]
              exact hrest.mpr hmem
      · intro t id hnone
        rw [hdisk, hint?_create]
        exact hopened.hint_rest (hrest.mp hnone)
      · intro t id bs hbs hne
        rw [hdisk, hint?_create]
        refine hopened.hint_dup ?_ hne
        exact (hseen.mem_iff t id).mpr ⟨hd.tier_lt hbs, hbs ▸ rfl⟩
      · intro t id hown
        rw [hdisk, hint?_create]
        exact hopened.hint_own hown
      · exact hopened.index_own
      · exact hopened.index_all

/-- `OpenStore` gets a fresh pack id when it could load what it found. -/
theorem openWorld_isSome {budgets : List Int} (hd : Readable d budgets.length) {io : OpenIO}
    (hio : io.Faultless) (hcreate : io.createFails = false) (hbudgets : budgets ≠ []) (now : Int) :
    ∃ w, openWorld budgets d now io = some w := by
  obtain ⟨done, hopened, hseen⟩ := openTiers_spec hd hio now
  have hlast : (openTiers budgets d now io).last + 1 < 2 ^ 32 := by
    rcases hopened.last_mem with hzero | ⟨t, ht⟩
    · omega
    · obtain ⟨bs, hbs⟩ := hopened.files (mem_of_owner ht)
      have := hd.id_lt hbs
      omega
  have hfree : (openTiers budgets d now io).disk.pack? 0
      ((openTiers budgets d now io).last + 1) = none := by
    rw [← Option.map_eq_none_iff]
    refine (hopened.bytes 0 _).trans ?_
    have hnew : (0, (openTiers budgets d now io).last + 1) ∉ done := by
      intro hmem
      obtain ⟨t, ht⟩ := Option.isSome_iff_exists.mp (owner_isSome hmem)
      exact absurd (hopened.last_le ht) (Nat.not_succ_le_self _)
    rw [if_neg hnew, ← Option.not_isSome_iff_eq_none]
    intro hsome
    exact hnew ((hseen.mem_iff _ _).mpr ⟨List.length_pos_iff.mpr hbudgets, hsome⟩)
  have hempty : budgets.isEmpty = false := by simpa using hbudgets
  simp [openWorld, openStore, u32_of_lt hlast, Core.startPack, hcreate, hempty, hfree]

theorem OpenedOn.placed {n : Nat} {done : List (Nat × Nat)} (h : OpenedOn d n done w) :
    Placed w := by
  have hloaded : ∀ {id p}, id ≠ w.store.active → w.store.place? id = some p →
      ∃ t bs, owner done id = some t ∧ bytesAfter d t id = some bs ∧ p = ⟨id, t, bs.length⟩ := by
    intro id p hne hp
    rw [h.place, if_neg hne] at hp
    obtain ⟨t, ht, hp⟩ := Option.bind_eq_some_iff.mp hp
    obtain ⟨bs, hbs, rfl⟩ := Option.map_eq_some_iff.mp hp
    exact ⟨t, bs, ht, hbs, rfl⟩
  have hactive : w.store.place? w.store.active = some ⟨w.store.active, 0, 0⟩ := by
    rw [h.place, if_pos rfl]
  refine ⟨⟨_, [], hactive, rfl, ?_, Nat.le_refl _⟩, ?_, ?_, ?_, ?_, ?_⟩
  · rw [h.bytes, if_pos rfl]
  · intro id p hp
    by_cases hid : id = w.store.active
    · subst hid
      cases hactive.symm.trans hp
      rfl
    · obtain ⟨t, bs, -, -, rfl⟩ := hloaded hid hp
      rfl
  · intro id p hp
    by_cases hid : id = w.store.active
    · exact hid.le
    · obtain ⟨t, bs, ht, -, -⟩ := hloaded hid hp
      exact Nat.le_of_lt (h.lt_active ht)
  · intro id p hp
    by_cases hid : id = w.store.active
    · subst hid
      cases hactive.symm.trans hp
      exact ⟨[], by rw [h.bytes, if_pos rfl]⟩
    · obtain ⟨t, bs, ht, hbs, rfl⟩ := hloaded hid hp
      refine ⟨bs, ?_⟩
      rw [h.bytes, if_neg fun heq => hid (Prod.mk.inj heq).2, if_pos ht]
      exact hbs
  · intro t id bs hb
    rw [h.bytes] at hb
    split at hb
    · next heq =>
        obtain ⟨rfl, rfl⟩ := Prod.mk.inj heq
        exact ⟨_, hactive, Or.inl rfl⟩
    · split at hb
      · next hown =>
          refine ⟨⟨id, t, bs.length⟩, ?_, Or.inl rfl⟩
          rw [h.place, if_neg (Nat.ne_of_lt (h.lt_active hown)), hown, Option.bind_some, hb]
          rfl
      · cases hb
  · intro t id bs hb
    rw [h.tiers]
    rw [h.bytes] at hb
    split at hb
    · next heq =>
        rw [(Prod.mk.inj heq).1]
        exact h.tiers_pos
    · split at hb
      · next hown => exact ((h.seen.mem_iff t id).mp (mem_of_owner hown)).1
      · cases hb

/-- The directories of a store whose ids have six digits can be opened again. -/
theorem Placed.readable (h : Placed w) (hlt : w.store.active < 10 ^ 6) :
    Readable w.disk w.store.tiers.length := by
  refine ⟨h.tier_lt, ?_⟩
  intro t id bs hbs
  obtain ⟨p, hp, -⟩ := h.file_owner hbs
  exact Nat.lt_of_le_of_lt (h.le_active hp) hlt

theorem World.answer_eq (hw : Placed w) {key : Bytes} {l : Loc} {p : Place}
    (hl : w.store.index.lookup key = some l) (hp : w.store.place? l.pack = some p) :
    w.answer key =
      some ((w.disk.bytes? p.tier l.pack).map fun bs => sectionBytes bs l.off l.len) := by
  obtain ⟨q, hq, rfl⟩ := of_place?_eq_some hp
  have hid : q.id = l.pack := hw.id_eq hp
  simp [World.answer, Store.get, hl, hq, Reader.bytes, hid, Pack.place]

theorem World.answer_eq_none {key : Bytes} (hl : w.store.index.lookup key = none) :
    w.answer key = none := by
  simp [World.answer, Store.get, hl]

/-- What is in the store, as events: every key with its value and pack. -/
def World.contents (w : World) : List Event :=
  (Map.toPairs w.store.index).map fun e =>
    .stored e.1 ((w.answer e.1).join.getD []) e.2.pack

theorem lastLoc_toPairs (index : Map Bytes Loc) (key : Bytes) :
    lastLoc (Map.toPairs index) key = index.lookup key := by
  cases hlast : lastLoc (Map.toPairs index) key with
  | some l => exact (Map.mem_toPairs.mp (mem_of_lastLoc hlast)).symm
  | none =>
      cases hl : index.lookup key with
      | none => rfl
      | some l =>
          obtain ⟨l', hl'⟩ := lastLoc_isSome (Map.mem_toPairs.mpr hl)
          rw [hlast] at hl'
          cases hl'

theorem ledger_contents (w : World) (key : Bytes) :
    ledger w.contents key = (w.store.index.lookup key).map fun l =>
      (l.pack, (w.answer key).join.getD []) := by
  have hlast : ∀ ps : List (Bytes × Loc), lastStored (ps.map fun e =>
      .stored e.1 ((w.answer e.1).join.getD []) e.2.pack) key =
        (lastLoc ps key).map fun l => (l.pack, (w.answer key).join.getD []) := by
    intro ps
    induction ps using List.reverseRecOn with
    | nil => rfl
    | append_singleton ps e ih =>
        rw [List.map_append, List.map_singleton, lastStored_append_stored, ih]
        simp only [lastLoc, List.foldl_append, List.foldl_cons, List.foldl_nil]
        split
        · next heq => rw [heq]; rfl
        · rfl
  have hnone : ∀ id, Event.evicted id ∉ w.contents := by
    intro id hmem
    obtain ⟨e, -, he⟩ := List.mem_map.mp hmem
    cases he
  rw [ledger, World.contents, hlast, lastLoc_toPairs]
  cases w.store.index.lookup key with
  | none => rfl
  | some l => simp [Option.filter, ← World.contents.eq_def, hnone]

theorem OpenedOn.tracks {n : Nat} {done : List (Nat × Nat)} (h : OpenedOn d n done w) :
    Tracks w.contents w := by
  have hw := h.placed
  refine ⟨?_, ?_, ?_⟩
  · intro key l hl
    obtain ⟨t, ht, hlast⟩ := h.index_own hl
    have hne : l.pack ≠ w.store.active := Nat.ne_of_lt (h.lt_active ht)
    have hbs : ∃ bs, bytesAfter d t l.pack = some bs := by
      obtain ⟨bs, hbs⟩ := Option.isSome_iff_exists.mp
        ((h.seen.mem_iff t l.pack).mp (mem_of_owner ht)).2
      exact bytesAfter_isSome hbs
    obtain ⟨bs, hbs⟩ := hbs
    have hplace : w.store.place? l.pack = some ⟨l.pack, t, bs.length⟩ := by
      rw [h.place, if_neg hne, ht, Option.bind_some, hbs]
      rfl
    have hfile : w.disk.bytes? t l.pack = some bs := by
      rw [h.bytes, if_neg fun heq => hne (Prod.mk.inj heq).2, if_pos ht]
      exact hbs
    refine ⟨_, bs, hplace, hfile, ?_, fun heq => absurd heq hne⟩
    obtain ⟨q, hq, hqp⟩ := of_place?_eq_some hplace
    have hanswer : w.answer key = some (some (sectionBytes bs l.off l.len)) := by
      have htier : q.tier = t := congrArg Place.tier hqp
      have hid : q.id = l.pack := congrArg Place.id hqp
      simp [World.answer, Store.get, hl, hq, Reader.bytes, htier, hid, hfile]
    rw [ledger_contents, hl, hanswer]
    rfl
  · intro key hl
    rw [ledger_contents, hl]
    rfl
  · intro id hmem
    obtain ⟨e, -, he⟩ := List.mem_map.mp hmem
    cases he

end Repkgs.Jigd
