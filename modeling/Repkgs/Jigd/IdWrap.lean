import Repkgs.Jigd.LastPut

/-!
# Pack ids that wrap around

A record longer than a pack may grow starts a pack of its own, so `2 ^ 32` such
records use up the ids. The next pack then takes over the table entry of an old
pack that was moved to a lower tier, and the index entries of the old pack read
the new file.
-/

namespace Repkgs.Jigd

open Lib

/-- A `Put` of a record that is longer than a pack may grow. -/
def hugePut (body : Bytes) : Op := .put [98] (2 ^ 28) body 0 PutIO.good

/-- What a huge `Put` does to a store whose active pack is not empty. -/
structure HugeStep (body : Bytes) (id : Nat) (w w' : World) : Prop where
  step : w.step (hugePut body) = some w'
  events : w.events (hugePut body) = [.stored [98] body id]
  active : w'.store.active = id
  is_open : w'.store.closed = false
  tiers : w'.store.tiers.length = w.store.tiers.length
  place : ∀ i, w'.store.place? i =
    if i = id then some ⟨id, 0, recHeader + 1 + body.length⟩ else w.store.place? i
  index : ∀ key, key ≠ [98] → w'.store.index.lookup key = w.store.index.lookup key
  bytes : ∀ t i, w'.disk.bytes? t i = if (t, i) = (0, id) then
    some (⟨[98], body⟩ : Record).write else w.disk.bytes? t i
  hint : (w'.disk.hint? 0 w.store.active).isSome

section Huge

variable {w : World} {size : Nat} {body : Bytes} (hbody : body.length = 2 ^ 28)
  (hplace : w.store.place? w.store.active = some ⟨w.store.active, 0, size⟩)
  (hfree : w.disk.bytes? 0 (u32 (w.store.active + 1)) = none)

/-- The store with a fresh active pack. -/
def Store.rotated (s : Store) (id : Nat) : Store :=
  { s with packs := s.packs.insert id ⟨id, 0, 0, 0, 0, 0⟩, active := id }

include hplace hfree in
theorem rotate_good : ∃ a : Pack, a.place = ⟨w.store.active, 0, size⟩ ∧
    w.store.packs.lookup w.store.active = some a ∧
    w.store.rotate w.disk 0 PutIO.good =
      ⟨w.store.rotated (u32 (w.store.active + 1)),
        [w.store.seal a Shuffle.none, .create 0 (u32 (w.store.active + 1)) 0], true⟩ := by
  obtain ⟨a, ha, hpa⟩ := of_place?_eq_some hplace
  have hfile : w.disk.pack? 0 (u32 (w.store.active + 1)) = none :=
    Option.map_eq_none_iff.mp hfree
  refine ⟨a, hpa, ha, ?_⟩
  simp [Store.rotate, ha, Core.startPack, hfile, PutIO.good, Store.rotated]

include hbody in
theorem append_rotated (s : Store) (id : Nat) :
    (s.rotated id).append [98] body 0 PutIO.good =
      ⟨(s.rotated id).record ⟨id, 0, 0, 0, 0, 0⟩ [98] body,
        [.write 0 id 0 (Record.header [98] body.length) 0, .write 0 id 9 body 0], true⟩ := by
  have hlookup : (s.rotated id).packs.lookup (s.rotated id).active =
      some ⟨id, 0, 0, 0, 0, 0⟩ := by
    simp [Store.rotated]
  have hhdr : (Record.header [98] body.length).length = 9 := Record.header_length _ _
  simp only [Store.append, hlookup, hhdr, PutIO.good, Bool.false_eq_true, if_false]
  have hne : ¬ body.isEmpty = true := by
    rw [List.isEmpty_iff_length_eq_zero, hbody]
    decide
  rw [if_neg (by decide), if_neg (by rw [hbody]; decide), if_neg hne]

include hbody hplace hfree in
theorem put_huge (hsize : 0 < size) (hopen : w.store.closed = false) : ∃ a : Pack,
    a.place = ⟨w.store.active, 0, size⟩ ∧
    w.store.put w.disk [98] (2 ^ 28) body 0 PutIO.good =
      ⟨(w.store.rotated (u32 (w.store.active + 1))).record
          ⟨u32 (w.store.active + 1), 0, 0, 0, 0, 0⟩ [98] body,
        [w.store.seal a Shuffle.none, .create 0 (u32 (w.store.active + 1)) 0,
          .write 0 (u32 (w.store.active + 1)) 0 (Record.header [98] body.length) 0,
          .write 0 (u32 (w.store.active + 1)) 9 body 0], true⟩ := by
  obtain ⟨a, hpa, ha, hrot⟩ := rotate_good hplace hfree
  have hasize : a.size = size := congrArg Place.size hpa
  have hgood : badPut [98] (2 ^ 28) = false := by decide
  have htake : body.take (2 ^ 28 : Int).toNat = body := by
    apply List.take_of_length_le
    rw [hbody]
    decide
  have henough : decide (body.length < (2 ^ 28 : Int).toNat) = false := by
    rw [hbody]
    decide
  have hspool : PutIO.good.spoolFails = false := rfl
  have hfull : (decide (packLimit < a.size + (recHeader + [98].length + body.length)) &&
      decide (0 < a.size)) = true := by
    rw [Bool.and_eq_true, decide_eq_true_iff, decide_eq_true_iff, hbody, packLimit]
    omega
  refine ⟨a, hpa, ?_⟩
  simp only [Store.put, hgood, hopen, htake, henough, hspool, Bool.and_false, Bool.or_self,
    Bool.false_eq_true, if_false, Store.putLocked, ha, hrot, Option.any_some, if_true,
    append_rotated hbody, List.cons_append, List.nil_append]
  exact if_pos hfull

include hbody hplace hfree in
theorem hugeStep_of (hsize : 0 < size) (hopen : w.store.closed = false) :
    ∃ w', HugeStep body (u32 (w.store.active + 1)) w w' := by
  obtain ⟨a, hpa, hput⟩ := put_huge hbody hplace hfree hsize hopen
  generalize u32 (w.store.active + 1) = id at hput
  have haid : a.id = w.store.active := congrArg Place.id hpa
  have hatier : a.tier = 0 := congrArg Place.tier hpa
  have htake : body.take (2 ^ 28 : Int).toNat = body := by
    apply List.take_of_length_le
    rw [hbody]
    decide
  have hhdr : (Record.header [98] body.length).length = 9 := Record.header_length _ _
  refine ⟨Outcome.world _ w.disk, congrArg (fun o => some (Outcome.world o w.disk)) hput, ?_,
    rfl, hopen, ?_, ?_, ?_, ?_, ?_⟩
  · simp only [World.events, hugePut, hput, if_true, htake]
    rfl
  · simp [Outcome.world, Store.record, Store.rotated, addTotal]
  · intro i
    have hlookup : (w.store.rotated id).packs.lookup (w.store.rotated id).active =
        some ⟨id, 0, 0, 0, 0, 0⟩ := by
      simp [Store.rotated]
    have hrec := record_place? hlookup rfl [98] body i
    by_cases hi : i = id
    · rw [if_pos hi]
      refine hrec.trans ((if_pos hi).trans ?_)
      simp
    · rw [if_neg hi]
      refine hrec.trans ((if_neg hi).trans ?_)
      rw [Store.rotated, place?_insert, if_neg hi]
  · intro key hne
    simp [Outcome.world, Store.record, Store.rotated, AList.lookup_insert_ne hne]
  · intro t i
    simp only [Outcome.world, Disk.applyAll_cons, Disk.applyAll_nil, Core.seal, bytes?_write,
      bytes?_create, bytes?_putHint]
    split
    · have hall := writeAt_writeAt (Nat.zero_le ([] : Bytes).length)
        (Record.header [98] body.length) body
      rw [hhdr] at hall
      simp only [Option.map_some]
      rw [hall]
      simp [writeAt, Record.write]
    · rfl
  · simp [Outcome.world, Core.seal, haid, hatier]

end Huge

/-- A demotion from the first of two tiers in which nothing fails. -/
theorem move_good {w : World} {id size : Nat} (hp : w.store.place? id = some ⟨id, 0, size⟩)
    (hne : id ≠ w.store.active) (htiers : w.store.tiers.length = 2)
    (hfile : (w.disk.bytes? 0 id).isSome) (hhint : (w.disk.hint? 0 id).isSome) :
    ∃ w', w.step (.move id ⟨false, false, false⟩) = some w' ∧
      w.events (.move id ⟨false, false, false⟩) = [] ∧ w'.store.active = w.store.active ∧
      w'.store.closed = w.store.closed ∧ w'.store.index = w.store.index ∧
      (∀ i, i ≠ id → w'.store.place? i = w.store.place? i) ∧
      ∀ i, w'.disk.bytes? 0 i = if i = id then none else w.disk.bytes? 0 i := by
  obtain ⟨p, hlookup, hpp⟩ := of_place?_eq_some hp
  have hid : p.id = id := congrArg Place.id hpp
  have htier : p.tier = 0 := congrArg Place.tier hpp
  have hpack : (w.disk.pack? 0 id).isNone = false := by
    simpa [Disk.bytes?] using hfile
  have hhint' : (w.disk.hint? 0 id).isNone = false := by
    simpa using hhint
  have hdown : w.store.moveDown w.disk p ⟨false, false, false⟩ =
      ⟨{ w.store with
          packs := Map.adjust w.store.packs id fun p => { p with tier := p.tier + 1 }
          tiers := addTotal (addTotal w.store.tiers 0 (-p.size)) 1 p.size },
        [.linkPack 0 id, .linkHint 0 id, .chtimes 1 id p.used, .removePack 0 id,
          .removeHint 0 id], true⟩ := by
    simp [Store.moveDown, Store.demote, htiers, htier, hid, hpack, hhint']
  have hstep : w.step (.move id ⟨false, false, false⟩) =
      some ((w.store.moveDown w.disk p ⟨false, false, false⟩).world w.disk) := by
    simp only [World.step, World.outcome, if_neg hne, hlookup, Option.map_some]
  rw [hdown] at hstep
  refine ⟨_, hstep, ?_, rfl, rfl, rfl, ?_, ?_⟩
  · simp [World.events, hlookup, htier, htiers]
  · intro i hi
    exact congrArg (Option.map Pack.place) ((Map.lookup_adjust _ _ _ _).trans (if_neg hi))
  · intro i
    simp only [Outcome.world, Disk.applyAll_cons, Disk.applyAll_nil, bytes?_removeHint,
      bytes?_removePack, bytes?_chtimes, bytes?_linkHint, bytes?_linkPack]
    simp

/-- The store after `n` more huge records, counted from the second pack on. -/
structure Rolled (body : Bytes) (n : Nat) (w : World) : Prop where
  active : w.store.active = u32 (2 + n)
  is_open : w.store.closed = false
  place : w.store.place? w.store.active =
    some ⟨w.store.active, 0, recHeader + 1 + body.length⟩
  bytes : w.disk.bytes? 0 w.store.active = some (⟨[98], body⟩ : Record).write
  index : w.store.index.lookup [97] = some ⟨1, 9, 1⟩
  files : ∀ i, (w.disk.bytes? 0 i).isSome → ∃ k ≤ n, i = u32 (2 + k)

theorem Rolled.succ {body : Bytes} (hbody : body.length = 2 ^ 28) {n : Nat} {w : World}
    (h : Rolled body n w) (hn : n + 1 < 2 ^ 32) :
    ∃ w', HugeStep body (u32 (w.store.active + 1)) w w' ∧ Rolled body (n + 1) w' := by
  have hnext : u32 (w.store.active + 1) = u32 (2 + (n + 1)) := by
    rw [h.active]
    simp only [u32]
    omega
  have hfree : w.disk.bytes? 0 (u32 (w.store.active + 1)) = none := by
    rw [← Option.not_isSome_iff_eq_none]
    intro hsome
    obtain ⟨k, hk, heq⟩ := h.files _ hsome
    rw [hnext] at heq
    simp only [u32] at heq
    omega
  obtain ⟨w', hstep⟩ := hugeStep_of hbody h.place hfree (by omega) h.is_open
  refine ⟨w', hstep, hstep.active.trans hnext, hstep.is_open, ?_, ?_, ?_, ?_⟩
  · rw [hstep.active, hstep.place, if_pos rfl]
  · rw [hstep.active, hstep.bytes, if_pos rfl]
  · rw [hstep.index _ (by decide)]
    exact h.index
  · intro i hi
    rw [hstep.bytes] at hi
    by_cases heq : i = u32 (w.store.active + 1)
    · exact ⟨n + 1, Nat.le_refl _, heq.trans hnext⟩
    · rw [if_neg (fun hpair => heq (Prod.mk.inj hpair).2)] at hi
      obtain ⟨k, hk, hik⟩ := h.files i hi
      exact ⟨k, by omega, hik⟩

theorem Rolled.run {body : Bytes} (hbody : body.length = 2 ^ 28) {n : Nat} {w : World}
    (h : Rolled body n w) (m : Nat) (hm : n + m < 2 ^ 32) :
    ∃ w', Lib.run World.step w (List.replicate m (hugePut body)) = some w' ∧
      Rolled body (n + m) w' ∧
      ∀ e ∈ w.history (List.replicate m (hugePut body)), ∃ id, e = .stored [98] body id := by
  induction m generalizing n w with
  | zero => exact ⟨w, rfl, h, by simp [World.history]⟩
  | succ m ih =>
      obtain ⟨u, hstep, hu⟩ := h.succ hbody (by omega)
      obtain ⟨w', hrun, hw', hhist⟩ := ih hu (by omega)
      refine ⟨w', ?_, ?_, ?_⟩
      · rw [List.replicate_succ, run_cons, hstep.step]
        exact hrun
      · rw [show n + (m + 1) = n + 1 + m by omega]
        exact hw'
      · intro e he
        simp only [List.replicate_succ, World.history, hstep.step, hstep.events] at he
        rcases List.mem_append.mp he with hhead | htail
        · exact ⟨_, List.mem_singleton.mp hhead⟩
        · exact hhist e htail

/-- Values stored under other keys leave the last value of a key alone. -/
theorem expected_append_others {evs others : List Event} {key : Bytes}
    (h : ∀ e ∈ others, ∃ k body id, k ≠ key ∧ e = .stored k body id) :
    expected (evs ++ others) key = expected evs key := by
  have hlast : lastStored (evs ++ others) key = lastStored evs key := by
    rw [lastStored, List.foldl_append]
    change others.foldl _ (lastStored evs key) = _
    induction others with
    | nil => rfl
    | cons e others ih =>
        obtain ⟨k, body, id, hk, rfl⟩ := h e (.head _)
        simp only [List.foldl_cons, if_neg hk]
        exact ih fun e he => h e (.tail _ he)
  have hevict : ∀ id, Event.evicted id ∈ evs ++ others ↔ .evicted id ∈ evs := by
    intro id
    rw [List.mem_append, or_iff_left]
    intro hmem
    obtain ⟨_, _, _, _, heq⟩ := h _ hmem
    cases heq
  simp only [expected, ledger, hlast, hevict]

/-- One small and one huge record on empty directories, the first over its budget
of one byte; then the pack of the small record goes to the second. -/
theorem rolled_start {body : Bytes} (hbody : body.length = 2 ^ 28) : ∃ w₀ w,
    openWorld [1, 0] Disk.empty 0 OpenIO.good = some w₀ ∧
    run World.step w₀ [smallPut, hugePut body, .move 1 ⟨false, false, false⟩] = some w ∧
    w₀.contents ++ w₀.history [smallPut, hugePut body, .move 1 ⟨false, false, false⟩] =
      [.stored [97] [1] 1, .stored [98] body 2] ∧ Rolled body 0 w := by
  obtain ⟨w₀, w₁, hopen, hput, hevents, hcontents, hactive, hclosed, htiers, hplace, hindex,
      hfiles⟩ : ∃ w₀ w₁, openWorld [1, 0] Disk.empty 0 OpenIO.good = some w₀ ∧
      w₀.step smallPut = some w₁ ∧ w₀.events smallPut = [.stored [97] [1] 1] ∧
      w₀.contents = [] ∧ w₁.store.active = 1 ∧ w₁.store.closed = false ∧
      w₁.store.tiers.length = 2 ∧ w₁.store.place? 1 = some ⟨1, 0, 10⟩ ∧
      w₁.store.index.lookup [97] = some ⟨1, 9, 1⟩ ∧ w₁.disk.packs.keys = [(0, 1)] :=
    ⟨_, _, rfl, rfl, by decide, by decide, by decide, by decide, by decide, by decide,
      by decide, by decide⟩
  have hfile : ∀ i, (w₁.disk.bytes? 0 i).isSome ↔ i = 1 := by
    intro i
    rw [Disk.bytes?, Option.isSome_map, Disk.pack?, AList.lookup_isSome]
    change (0, i) ∈ w₁.disk.packs.keys ↔ i = 1
    rw [hfiles]
    simp
  have hfree : w₁.disk.bytes? 0 (u32 (w₁.store.active + 1)) = none := by
    rw [← Option.not_isSome_iff_eq_none, hfile, hactive]
    decide
  rw [← hactive] at hplace
  obtain ⟨w₂, h₂⟩ := hugeStep_of hbody hplace hfree (by decide) hclosed
  have htwo : u32 (w₁.store.active + 1) = 2 := by
    rw [hactive]
    rfl
  rw [htwo] at h₂
  rw [hactive] at hplace
  have hplace₂ : w₂.store.place? 1 = some ⟨1, 0, 10⟩ := by
    rw [h₂.place, if_neg (by decide)]
    exact hplace
  have hfile₂ : (w₂.disk.bytes? 0 1).isSome := by
    rw [h₂.bytes, if_neg (by decide)]
    exact (hfile 1).mpr rfl
  have hhint₂ : (w₂.disk.hint? 0 1).isSome := by
    have := h₂.hint
    rwa [hactive] at this
  obtain ⟨w₃, hmove, hnone, hactive₃, hclosed₃, hindex₃, hplace₃, hbytes₃⟩ :=
    move_good hplace₂ (by rw [h₂.active]; decide) (h₂.tiers.trans htiers) hfile₂ hhint₂
  refine ⟨w₀, w₃, hopen, ?_, ?_, ?_⟩
  · simp [run_cons, hput, h₂.step, hmove]
  · simp [hcontents, World.history, hput, hevents, h₂.step, h₂.events, hmove, hnone]
  · have hactive₃' : w₃.store.active = 2 := hactive₃.trans h₂.active
    refine ⟨hactive₃', hclosed₃.trans h₂.is_open, ?_, ?_, ?_, ?_⟩
    · rw [hactive₃', hplace₃ _ (by decide), h₂.place, if_pos rfl]
    · rw [hactive₃', hbytes₃, if_neg (by decide), h₂.bytes, if_pos rfl]
    · rw [hindex₃, h₂.index _ (by decide)]
      exact hindex
    · intro i hi
      rw [hbytes₃] at hi
      split at hi
      · cases hi
      · next hne =>
          refine ⟨0, Nat.le_refl _, ?_⟩
          rw [h₂.bytes] at hi
          by_cases heq : i = 2
          · exact heq
          · rw [if_neg (fun hpair => heq (Prod.mk.inj hpair).2), hfile] at hi
            exact absurd hi hne

/-- Once the ids have wrapped around, `Get` answers for the small record with
bytes of the huge one that took its pack id. -/
theorem wrapped_id_answers_other_bytes :
    ¬ ∀ (budgets : List Int) (d : Disk) (now : Int) (io : OpenIO) (w₀ w : World)
      (ops : List Op), Readable d budgets.length → io.Faultless →
      openWorld budgets d now io = some w₀ → run World.step w₀ ops = some w →
      ∀ key, w.answer key = (expected (w₀.contents ++ w₀.history ops) key).map some := by
  intro h
  have hbody : (List.replicate (2 ^ 28) (0 : UInt8)).length = 2 ^ 28 := List.length_replicate
  generalize hzeros : List.replicate (2 ^ 28) (0 : UInt8) = body at hbody
  obtain ⟨w₀, w₁, hopen, hrun₁, hhist₁, hrolled⟩ := rolled_start hbody
  obtain ⟨n, hn⟩ : ∃ n, n = 2 ^ 32 - 1 := ⟨_, rfl⟩
  obtain ⟨w, hrun, hw, hhist⟩ := hrolled.run hbody n (by omega)
  have hactive : w.store.active = 1 := by
    rw [hw.active, hn]
    rfl
  have hread : w.answer [97] = some (some [0]) := by
    obtain ⟨p, hp, hplace⟩ := of_place?_eq_some hw.place
    have hbytes := hw.bytes
    rw [hactive] at hp hplace hbytes
    have hid : p.id = 1 := congrArg Place.id hplace
    have htier : p.tier = 0 := congrArg Place.tier hplace
    have hskip : (Record.header [98] body.length).length = 9 := Record.header_length _ _
    have hbyte : sectionBytes (⟨[98], body⟩ : Record).write 9 1 = [0] := by
      rw [sectionBytes, Record.write, ← hskip, List.drop_left, ← hzeros, List.take_replicate]
      rfl
    simp [World.answer, Store.get, hw.index, hp, Reader.bytes, hid, htier, hbytes, hbyte]
  have hexpected : expected [.stored [97] [1] 1, .stored [98] body 2] [97] = some [1] := by
    change expected ([.stored [97] [1] 1] ++ [.stored [98] body 2]) [97] = some [1]
    exact expected_append_others (by simp)
  have hbad := h [1, 0] Disk.empty 0 OpenIO.good w₀ w _ (readable_empty _)
    (fun _ _ => ⟨_, rfl⟩) hopen ((run_append_of_eq_some hrun₁ _).trans hrun) [97]
  rw [hread, World.history_append hrun₁, ← List.append_assoc, hhist₁,
    expected_append_others ?_, hexpected] at hbad
  · exact absurd hbad (by decide)
  · intro e he
    obtain ⟨id, rfl⟩ := hhist e he
    exact ⟨_, _, _, by decide, rfl⟩

end Repkgs.Jigd
