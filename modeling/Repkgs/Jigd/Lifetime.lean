import Repkgs.Jigd.StepChain

/-!
# One lifetime of the store

A ledger of what was stored and which packs were deleted says what `Get` has to
answer. The invariant ties the index to the ledger through the bytes of the pack
files, for every order of writes, rotations, moves and failures.
-/

namespace Repkgs.Jigd

open Lib

/-- The pack and value of the last successful `Put` of a key. -/
def lastStored (evs : List Event) (key : Bytes) : Option (Nat × Bytes) :=
  evs.foldl (fun last e =>
    match e with
    | .stored k body pack => if k = key then some (pack, body) else last
    | .evicted _ => last) none

/-- The last stored value, unless its pack was deleted. -/
def ledger (evs : List Event) (key : Bytes) : Option (Nat × Bytes) :=
  (lastStored evs key).filter fun v => .evicted v.1 ∉ evs

/-- What `Get` has to answer after the events. -/
def expected (evs : List Event) (key : Bytes) : Option Bytes := (ledger evs key).map Prod.snd

/-- The index answers as the ledger says, from the bytes on disk. -/
structure Tracks (evs : List Event) (w : World) : Prop where
  index : ∀ {key l}, w.store.index.lookup key = some l → ∃ p bs,
    w.store.place? l.pack = some p ∧ w.disk.bytes? p.tier l.pack = some bs ∧
      ledger evs key = some (l.pack, sectionBytes bs l.off l.len) ∧
      (l.pack = w.store.active → l.off + l.len ≤ p.size)
  absent : ∀ {key}, w.store.index.lookup key = none → ledger evs key = none
  evicted : ∀ {id}, .evicted id ∈ evs → id < w.store.active

theorem lastStored_append_stored (evs : List Event) (k body : Bytes) (pack : Nat) (key : Bytes) :
    lastStored (evs ++ [.stored k body pack]) key =
      if k = key then some (pack, body) else lastStored evs key := by
  simp [lastStored, List.foldl_append]

theorem lastStored_append_evicted (evs : List Event) (id : Nat) (key : Bytes) :
    lastStored (evs ++ [.evicted id]) key = lastStored evs key := by
  simp [lastStored, List.foldl_append]

variable {evs : List Event} {bs : Bytes} {n : Nat} {w w' : World}

theorem ledger_append_stored {pack : Nat} (hfresh : .evicted pack ∉ evs) (k body key : Bytes) :
    ledger (evs ++ [.stored k body pack]) key =
      if k = key then some (pack, body) else ledger evs key := by
  have hmem : ∀ i, Event.evicted i ∈ evs ++ [.stored k body pack] ↔ .evicted i ∈ evs := by
    simp
  simp only [ledger, lastStored_append_stored, hmem]
  split
  · simp [Option.filter, hfresh]
  · rfl

theorem ledger_append_evicted (evs : List Event) (id : Nat) (key : Bytes) :
    ledger (evs ++ [.evicted id]) key = (ledger evs key).filter fun v => v.1 != id := by
  simp only [ledger, lastStored_append_evicted, Option.filter_filter]
  congr 1
  funext v
  by_cases h : v.1 = id <;> simp [h]

/-- A section that ends before the changed part of a file reads the same. -/
theorem sectionBytes_congr {bs bs' : Bytes} {n off len : Nat} (htake : bs'.take n = bs.take n)
    (hle : off + len ≤ n) : sectionBytes bs' off len = sectionBytes bs off len := by
  have hcut : ∀ b : Bytes, sectionBytes b off len = ((b.take n).drop off).take len := by
    intro b
    rw [sectionBytes, List.drop_take, List.take_take, Nat.min_eq_left (by omega)]
  rw [hcut, hcut, htake]

/-- The value of a record, found behind its header and key. -/
theorem sectionBytes_writeAt (hle : n ≤ bs.length) (r : Record) :
    sectionBytes (writeAt bs n r.write) (n + recHeader + r.key.length) r.value.length =
      r.value := by
  obtain ⟨front, back, rfl, rfl⟩ := exists_append_of_le hle
  have hskip : front.length + recHeader + r.key.length =
      (front ++ Record.header r.key r.value.length).length := by
    rw [List.length_append, Record.header_length, Nat.add_assoc]
  rw [writeAt_append, sectionBytes, hskip, Record.write, ← List.append_assoc,
    ← List.append_assoc, List.append_assoc (front ++ _), List.drop_left, List.take_left]

theorem take_writeAt (hle : n ≤ bs.length) (data : Bytes) :
    (writeAt bs n data).take n = bs.take n := by
  obtain ⟨front, back, rfl, rfl⟩ := exists_append_of_le hle
  rw [writeAt_append, List.take_left, List.take_left]

/-- Only the index, the places, the active id and the contents of files matter. -/
theorem Tracks.congr (h : Tracks evs w) (hindex : w'.store.index = w.store.index)
    (hactive : w'.store.active = w.store.active)
    (hplace : ∀ id, w'.store.place? id = w.store.place? id)
    (hbytes : ∀ t id, w'.disk.bytes? t id = w.disk.bytes? t id) : Tracks evs w' where
  index hl := by
    rw [hindex] at hl
    simpa only [hactive, hplace, hbytes] using h.index hl
  absent hl := h.absent (hindex ▸ hl)
  evicted he := hactive ▸ h.evicted he

/-- The bytes behind the last record of the active pack do not matter. -/
theorem Tracks.rewrite {a : Place} {f : Bytes → Bytes}
    (h : Tracks evs w) (hw : Placed w) (ha : w.store.place? w.store.active = some a)
    (hstore : w'.store = w.store)
    (hbytes : ∀ t id, w'.disk.bytes? t id = if (t, id) = (a.tier, a.id) then
      (w.disk.bytes? t id).map f else w.disk.bytes? t id)
    (hf : ∀ bs, a.size ≤ bs.length → (f bs).take a.size = bs.take a.size) : Tracks evs w' := by
  obtain ⟨a', bs₀, ha', htier, hbs₀, hsize⟩ := hw.active
  rw [ha] at ha'
  cases ha'
  have hid := hw.id_eq ha
  refine ⟨?_, hstore ▸ h.absent, hstore ▸ h.evicted⟩
  intro key l hl
  rw [hstore] at hl ⊢
  obtain ⟨p, bs, hp, hbs, hled, hin⟩ := h.index hl
  by_cases hpack : l.pack = w.store.active
  · rw [hpack, ha] at hp
    cases hp
    rw [hpack, htier, hbs₀] at hbs
    cases hbs
    refine ⟨a, f bs₀, hpack ▸ ha, ?_, ?_, fun _ => hin hpack⟩
    · rw [hbytes, if_pos (by rw [hpack, hid]), hpack, htier, hbs₀]
      rfl
    · rw [hled, sectionBytes_congr (hf bs₀ hsize) (hin hpack)]
  · refine ⟨p, bs, hp, ?_, hled, fun heq => absurd heq hpack⟩
    rw [hbytes, if_neg]
    · exact hbs
    · intro heq
      exact hpack ((Prod.mk.inj heq).2.trans hid)

theorem Tracks.append {evs : List Event} {s s' : Store} {d : Disk} {a : Place} {r : Record}
    (h : Tracks evs ⟨s, d⟩) (hw : Placed ⟨s, d⟩) (now : Int)
    (ha : s.place? s.active = some a)
    (hindex : s'.index = s.index.insert r.key
      ⟨a.id, a.size + recHeader + r.key.length, r.value.length⟩)
    (hactive : s'.active = s.active)
    (hplace : ∀ id, s'.place? id = if id = s.active then
      some { a with size := a.size + r.write.length } else s.place? id) :
    Tracks (evs ++ [.stored r.key r.value s.active])
      ⟨s', FileOp.apply d (.write a.tier a.id a.size r.write now)⟩ := by
  obtain ⟨a', bs₀, ha', htier, hbs₀, hsize⟩ := hw.active
  cases ha.symm.trans ha'
  have hid : a.id = s.active := hw.id_eq ha
  have hfresh : Event.evicted s.active ∉ evs := fun hmem =>
    absurd (h.evicted hmem) (Nat.lt_irrefl _)
  have hnew : (FileOp.apply d (.write a.tier a.id a.size r.write now)).bytes? a.tier s.active =
      some (writeAt bs₀ a.size r.write) := by
    rw [bytes?_write, if_pos (by rw [hid]), htier, show d.bytes? 0 s.active = _ from hbs₀]
    rfl
  have hhere : s'.place? s.active = some { a with size := a.size + r.write.length } := by
    rw [hplace, if_pos rfl]
  refine ⟨?_, ?_, ?_⟩
  · intro key l hl
    rw [ledger_append_stored hfresh]
    simp only [hindex, Map.lookup_insert_eq] at hl
    split at hl
    · next hkey =>
        cases hl
        refine ⟨_, _, (congrArg s'.place? hid).trans hhere,
          (congrArg (Disk.bytes? _ a.tier) hid).trans hnew, ?_, ?_⟩
        · rw [if_pos hkey.symm, sectionBytes_writeAt hsize, hid]
        · intro _
          simp only [Record.write_length]
          omega
    · next hkey =>
        rw [if_neg fun heq => hkey heq.symm]
        obtain ⟨p, bs, hp, hbs, hled, hin⟩ := h.index hl
        by_cases hpack : l.pack = s.active
        · rw [hpack] at hp hbs hled hin ⊢
          cases ha.symm.trans hp
          rw [htier] at hbs
          cases hbs₀.symm.trans hbs
          refine ⟨_, _, hhere, hnew, ?_, ?_⟩
          · rw [hled, sectionBytes_congr (take_writeAt hsize _) (hin rfl)]
          · intro _
            exact (hin rfl).trans (Nat.le_add_right _ _)
        · refine ⟨p, bs, ?_, ?_, hled, fun heq => absurd (heq.trans hactive) hpack⟩
          · rw [hplace, if_neg hpack]
            exact hp
          · rw [bytes?_write, if_neg]
            · exact hbs
            · intro heq
              exact hpack ((Prod.mk.inj heq).2.trans hid)
  · intro key hl
    rw [ledger_append_stored hfresh]
    simp only [hindex, Map.lookup_insert_eq] at hl
    split at hl
    · cases hl
    · next hkey =>
        rw [if_neg fun heq => hkey heq.symm]
        exact h.absent hl
  · intro id hmem
    rw [hactive]
    apply h.evicted
    simpa using hmem

theorem Tracks.start {evs : List Event} {w w' : World} (h : Tracks evs w) (hw : Placed w)
    (hindex : w'.store.index = w.store.index)
    (hactive : w'.store.active = w.store.active + 1)
    (hplace : ∀ id, w'.store.place? id =
      if id = w.store.active + 1 then some ⟨w.store.active + 1, 0, 0⟩ else w.store.place? id)
    (hbytes : ∀ t id, w'.disk.bytes? t id =
      if (t, id) = (0, w.store.active + 1) then some [] else w.disk.bytes? t id) :
    Tracks evs w' := by
  refine ⟨?_, ?_, ?_⟩
  · intro key l hl
    rw [hindex] at hl
    obtain ⟨p, bs, hp, hbs, hled, -⟩ := h.index hl
    have hne : l.pack ≠ w.store.active + 1 := by
      have := hw.le_active hp
      omega
    refine ⟨p, bs, ?_, ?_, hled, fun heq => absurd (heq.trans hactive) hne⟩
    · rw [hplace, if_neg hne]
      exact hp
    · rw [hbytes, if_neg fun heq => hne (Prod.mk.inj heq).2]
      exact hbs
  · intro key hl
    exact h.absent (hindex ▸ hl)
  · intro id hmem
    have := h.evicted hmem
    omega

/-- A pack that leaves its tier is found in its copy, or its keys are forgotten. -/
theorem Tracks.leave {evs evs' : List Event} {id : Nat} {p : Place}
    {q : Option Place} (h : Tracks evs w) (hw : Placed w)
    (hp : w.store.place? id = some p) (hne : id ≠ w.store.active)
    (hindex : ∀ {key l}, w'.store.index.lookup key = some l → w.store.index.lookup key = some l ∧
      ledger evs' key = ledger evs key ∧ (l.pack = id → q = some { p with tier := p.tier + 1 }))
    (habsent : ∀ {key}, w'.store.index.lookup key = none → ledger evs' key = none)
    (hevicted : ∀ {i}, .evicted i ∈ evs' → .evicted i ∈ evs ∨ i = id)
    (hactive : w'.store.active = w.store.active)
    (hplace : ∀ i, w'.store.place? i = if i = id then q else w.store.place? i)
    (hbytes : ∀ t i, w'.disk.bytes? t i =
      if (t, i) = (p.tier, p.id) then none else w.disk.bytes? t i)
    (hcopy : q ≠ none → (w.disk.bytes? (p.tier + 1) id).isSome) : Tracks evs' w' := by
  have hid := hw.id_eq hp
  refine ⟨?_, habsent, ?_⟩
  · intro key l hl
    obtain ⟨hold, hsame, hmoved⟩ := hindex hl
    obtain ⟨r, bs, hr, hbs, hled, hin⟩ := h.index hold
    rw [hsame, hactive]
    by_cases hpack : l.pack = id
    · have hq := hmoved hpack
      obtain ⟨bs', hbs'⟩ := Option.isSome_iff_exists.mp (hcopy (by rw [hq]; exact nofun))
      -- the copy in the next tier has the same bytes
      have heq : bs' = bs := by
        rw [hpack] at hr hbs
        cases hp.symm.trans hr
        obtain ⟨r', hr', hor⟩ := hw.file_owner hbs'
        cases hp.symm.trans hr'
        rcases hor with habs | ⟨-, -, hb⟩
        · exact absurd habs (Nat.succ_ne_self _)
        · exact Option.some.inj (hb.symm.trans hbs)
      refine ⟨{ p with tier := p.tier + 1 }, bs, ?_, ?_, hled, ?_⟩
      · rw [hplace, if_pos hpack, hq]
      · rw [hbytes, if_neg, hpack, hbs', heq]
        intro hpair
        exact absurd (Prod.mk.inj hpair).1 (Nat.succ_ne_self _)
      · intro hact
        exact absurd (hpack.symm.trans hact) hne
    · refine ⟨r, bs, ?_, ?_, hled, hin⟩
      · rw [hplace, if_neg hpack]
        exact hr
      · rw [hbytes, if_neg fun hpair => hpack ((Prod.mk.inj hpair).2.trans hid)]
        exact hbs
  · intro i hmem
    rw [hactive]
    rcases hevicted hmem with hold | rfl
    · exact h.evicted hold
    · exact lt_of_le_of_ne (hw.le_active hp) hne

variable {bound : Nat} {clean : Prop}

theorem Tracks.effect {evs es : List Event} (h : Tracks evs w) (hw : Placed w)
    (he : Effect bound clean w es w') : Tracks (evs ++ es) w' := by
  cases he with
  | idle ht hf =>
      rw [List.append_nil]
      exact h.congr ht.index ht.active ht.place hf.bytes
  | writeHint ha order =>
      rw [List.append_nil]
      exact h.congr rfl rfl (fun _ => rfl) fun _ _ => bytes?_putHint _ _ _ _ _ _
  | start now hbound hfree hhint hindex hactive htiers hplace =>
      rw [List.append_nil]
      exact h.start hw hindex hactive hplace fun _ _ => bytes?_create _ _ _ _ _ _
  | scribble now ha hr hpre hne hclean =>
      rw [List.append_nil]
      exact h.rewrite hw ha rfl (fun _ _ => bytes?_write _ _ _ _ _ _ _ _)
        fun _ hle => take_writeAt hle _
  | truncate now ha =>
      rw [List.append_nil]
      refine h.rewrite hw ha rfl (fun _ _ => bytes?_truncate _ _ _ _ _ _ _) fun bs hle => ?_
      rw [truncateTo_of_le hle, List.take_take, Nat.min_self]
  | append now ha hr hclean hindex hactive htiers hplace =>
      exact h.append hw now ha hindex hactive hplace
  | @linkPack s d id p hp hne hlow =>
      rw [List.append_nil]
      refine ⟨?_, h.absent, h.evicted⟩
      intro key l hl
      obtain ⟨q, bs, hq, hbs, hled, hin⟩ := h.index hl
      refine ⟨q, bs, hq, ?_, hled, hin⟩
      rw [bytes?_linkPack, show d.bytes? q.tier l.pack = some bs from hbs]
      split <;> rfl
  | linkHint hp hne hcopy =>
      rw [List.append_nil]
      exact h.congr rfl rfl (fun _ => rfl) fun _ _ => bytes?_linkHint _ _ _ _ _
  | @switch s s' d id p hp hne hcopy hhint hindex hactive htiers hplace =>
      rw [List.append_nil]
      have hid := hw.id_eq hp
      refine h.leave hw hp hne ?_ ?_ Or.inl hactive hplace
        (fun _ _ => bytes?_removePack _ _ _ _ _) (fun _ => hid ▸ hcopy)
      · intro key l hl
        exact ⟨hindex ▸ hl, rfl, fun _ => rfl⟩
      · intro key hl
        exact h.absent (hindex ▸ hl)
  | @evict s s' d id p hp hne hlast hindex hactive htiers hplace =>
      refine h.leave hw hp hne ?_ ?_ ?_ hactive hplace
        (fun _ _ => bytes?_removePack _ _ _ _ _) (fun hq => absurd rfl hq)
      · intro key l hl
        rw [show s'.index.lookup key = _ from hindex key, Option.filter_eq_some_iff] at hl
        obtain ⟨q, bs, hq, hbs, hled, -⟩ := h.index hl.1
        have hpack : l.pack ≠ id := by simpa using hl.2
        refine ⟨hl.1, ?_, fun heq => absurd heq hpack⟩
        rw [ledger_append_evicted, hled]
        simp [Option.filter, hpack]
      · intro key hl
        rw [ledger_append_evicted]
        rw [show s'.index.lookup key = _ from hindex key] at hl
        cases hold : s.index.lookup key with
        | none => rw [h.absent hold]; rfl
        | some l =>
            obtain ⟨q, bs, hq, hbs, hled, -⟩ := h.index hold
            rw [hold] at hl
            have hpack : l.pack = id := by
              by_contra hne'
              simp [Option.filter, hne'] at hl
            rw [hled]
            simp [Option.filter, hpack]
      · intro i hmem
        simpa using hmem
  | removeHint hgone hfile =>
      rw [List.append_nil]
      exact h.congr rfl rfl (fun _ => rfl) fun _ _ => bytes?_removeHint _ _ _ _ _

theorem Tracks.chain {evs es : List Event} (h : Tracks evs w) (hw : Placed w)
    (hc : Chain bound clean w es w') : Tracks (evs ++ es) w' := by
  induction hc generalizing evs with
  | nil w => rwa [List.append_nil]
  | cons he _ ih =>
      rw [← List.append_assoc]
      exact ih (h.effect hw he) (hw.effect he)

theorem Tracks.answer (h : Tracks evs w) (hw : Placed w) (key : Bytes) :
    w.answer key = (expected evs key).map some := by
  unfold World.answer Store.get expected
  cases hl : w.store.index.lookup key with
  | none => simp [h.absent hl]
  | some l =>
      obtain ⟨p, bs, hp, hbs, hled, -⟩ := h.index hl
      have hid := hw.id_eq hp
      obtain ⟨q, hq, rfl⟩ := of_place?_eq_some hp
      have hfile : w.disk.bytes? q.tier q.id = some bs :=
        (congrArg (Disk.bytes? _ _) hid).trans hbs
      simp [hq, hled, Reader.bytes, hfile]

end Repkgs.Jigd
