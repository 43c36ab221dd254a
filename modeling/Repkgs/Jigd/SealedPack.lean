import Repkgs.Jigd.Accounting
import Repkgs.Jigd.CleanTail
import Repkgs.Jigd.Recorded

/-!
# The two ways to load a sealed pack

From its start to its seal a pack is filled by `Put` alone. The records in its
file and the entries of the index that point at it are kept together through all
operations in between, so that the hint file `seal` writes and a scan of the
records tell `load` the same.
-/

namespace Repkgs.Jigd

open Lib

theorem scanLocs_append (id off : Nat) (rs rs' : List Record) :
    scanLocs id off (rs ++ rs') =
      scanLocs id off rs ++ scanLocs id (off + (recordFormat.writeAll rs).length) rs' := by
  induction rs generalizing off with
  | nil => rfl
  | cons r rs ih =>
      have hlen : (recordFormat.write r).length = recHeader + r.key.length + r.value.length :=
        r.write_length
      rw [List.cons_append, scanLocs, ih, scanLocs, List.cons_append, Format.writeAll_cons,
        List.length_append, hlen]
      congr 3
      omega

theorem lastLoc_append (es es' : List (Bytes × Loc)) (key : Bytes) :
    lastLoc (es ++ es') key = (lastLoc es' key).or (lastLoc es key) := by
  induction es with
  | nil =>
      show lastLoc es' key = (lastLoc es' key).or none
      rw [Option.or_none]
  | cons e es ih => rw [List.cons_append, lastLoc_cons, ih, lastLoc_cons, Option.or_assoc]

/-- The active pack and the records `rs` it was filled with. -/
structure Filled (w : World) (rs : List Record) : Prop where
  id_eq : ∀ {id p}, w.store.place? id = some p → p.id = id
  active : ∃ a, w.store.place? w.store.active = some a ∧
    a.size = (recordFormat.writeAll rs).length ∧
    w.disk.bytes? a.tier w.store.active = some (recordFormat.writeAll rs)
  index : ∀ key l, w.store.index.lookup key = some l ∧ l.pack = w.store.active ↔
    lastLoc (scanLocs w.store.active 0 rs) key = some l
  admitted : ∀ r ∈ rs, r.key.length ≤ 4096 ∧ r.value.length ≤ 2 * 2 ^ 30
  size_le : (recordFormat.writeAll rs).length ≤ packLimit ∨ rs.length ≤ 1

/-- A pack that was just started: an empty file that no entry points at. -/
structure Fresh (w : World) : Prop where
  id_eq : ∀ {id p}, w.store.place? id = some p → p.id = id
  active : ∃ a, w.store.place? w.store.active = some a ∧ a.size = 0 ∧
    w.disk.bytes? a.tier w.store.active = some []
  index : ∀ {key l}, w.store.index.lookup key = some l → l.pack ≠ w.store.active

theorem Fresh.filled {w : World} (h : Fresh w) : Filled w [] where
  id_eq := h.id_eq
  active := h.active
  index _ _ := ⟨fun hl => absurd hl.2 (h.index hl.1), nofun⟩
  admitted := nofun
  size_le := Or.inr (Nat.zero_le 1)

variable {w w' : World} {rs : List Record}

/-- A pack stays below 4 GiB: only its first record can exceed the limit. -/
theorem Filled.small (h : Filled w rs) : (recordFormat.writeAll rs).length < 2 ^ 32 := by
  rcases h.size_le with hle | hone
  · exact Nat.lt_of_le_of_lt hle (by decide)
  · match rs, hone with
    | [], _ => exact Nat.pow_pos (by decide)
    | [r], _ =>
        have hlen : (recordFormat.write r).length = recHeader + r.key.length + r.value.length :=
          r.write_length
        obtain ⟨hkey, hvalue⟩ := h.admitted r (.head _)
        rw [Format.writeAll_cons, Format.writeAll_nil, List.append_nil, hlen, recHeader]
        omega

theorem Filled.fits (h : Filled w rs) : ∀ r ∈ rs, recordFormat.Fits r := by
  intro r hr
  obtain ⟨hkey, hvalue⟩ := h.admitted r hr
  exact ⟨by omega, by omega⟩

/-- Only the active pack, its file and its entries matter. -/
theorem Filled.congr (h : Filled w rs) (hactive : w'.store.active = w.store.active)
    (hid : ∀ {id p}, w'.store.place? id = some p → p.id = id)
    (hplace : w'.store.place? w.store.active = w.store.place? w.store.active)
    (hindex : ∀ key l, w'.store.index.lookup key = some l ∧ l.pack = w.store.active ↔
      w.store.index.lookup key = some l ∧ l.pack = w.store.active)
    (hbytes : ∀ t, w'.disk.bytes? t w.store.active = w.disk.bytes? t w.store.active) :
    Filled w' rs := by
  obtain ⟨a, ha, hsize, hbs⟩ := h.active
  refine ⟨hid, ⟨a, ?_, hsize, ?_⟩, ?_, h.admitted, h.size_le⟩
  · rw [hactive, hplace, ha]
  · rw [hactive, hbytes, hbs]
  · intro key l
    rw [hactive, hindex]
    exact h.index key l

theorem writeAt_end (bs data : Bytes) : writeAt bs bs.length data = bs ++ data := by
  have happend := writeAt_append bs [] data
  rwa [List.append_nil, List.drop_nil, List.append_nil] at happend

theorem truncateTo_end (bs data : Bytes) : truncateTo (bs ++ data) bs.length = bs := by
  rw [truncateTo_of_le (by simp), List.take_left]

variable {p : Pack} {key : Bytes} {d : Disk} {id : Nat}

/-- The record of a successful `Put`. -/
theorem Filled.record (h : Filled w rs)
    (hp : w.store.packs.lookup w.store.active = some p) {key body : Bytes}
    (hkey : key.length ≤ 4096) (hbody : body.length ≤ 2 * 2 ^ 30)
    (hfit : p.size + (recHeader + key.length + body.length) ≤ packLimit ∨ p.size = 0)
    (hbytes : d.bytes? p.tier w.store.active =
      some (recordFormat.writeAll rs ++ Record.write ⟨key, body⟩)) :
    Filled ⟨w.store.record p key body, d⟩ (rs ++ [⟨key, body⟩]) := by
  have hid : p.id = w.store.active := h.id_eq (place?_eq_some hp)
  obtain ⟨a, ha, hsize, -⟩ := h.active
  cases (place?_eq_some hp).symm.trans ha
  have hpsize : p.size = (recordFormat.writeAll rs).length := hsize
  have hlen : (Record.write ⟨key, body⟩).length = recHeader + key.length + body.length :=
    Record.write_length _
  have hall : recordFormat.writeAll (rs ++ [⟨key, body⟩]) =
      recordFormat.writeAll rs ++ Record.write ⟨key, body⟩ := by
    rw [Format.writeAll_append, Format.writeAll_cons, Format.writeAll_nil, List.append_nil]
    rfl
  have hscan : scanLocs w.store.active 0 (rs ++ [⟨key, body⟩]) =
      scanLocs w.store.active 0 rs ++
        [(key, ⟨p.id, u32 (u32 p.size + recHeader + u32 key.length), u32 body.length⟩)] := by
    rw [scanLocs_append, Nat.zero_add, ← hpsize, scanLocs, scanLocs, hid,
      u32_of_lt (n := key.length) (by omega), u32_of_lt (n := body.length) (by omega)]
  have hindex : (w.store.record p key body).index = w.store.index.insert key
      ⟨p.id, u32 (u32 p.size + recHeader + u32 key.length), u32 body.length⟩ := rfl
  refine ⟨?_, ⟨⟨p.id, p.tier, p.size + (recHeader + key.length + body.length)⟩, ?_, ?_, ?_⟩,
    ?_, ?_, ?_⟩
  · intro i q hq
    rw [record_place? hp hid] at hq
    split at hq
    · next heq =>
        cases hq
        exact hid.trans heq.symm
    · exact h.id_eq hq
  · exact (record_place? hp hid key body _).trans (if_pos rfl)
  · rw [hall, List.length_append, hlen, ← hpsize]
  · rw [hall]
    exact hbytes
  · intro k l
    rw [show (w.store.record p key body).active = w.store.active from rfl, hscan,
      lastLoc_append, hindex, Map.lookup_insert_eq, lastLoc_cons]
    by_cases hk : k = key
    · subst hk
      rw [if_pos rfl, if_pos rfl]
      constructor
      · rintro ⟨hl, -⟩
        exact hl
      · intro hl
        cases hl
        exact ⟨rfl, hid⟩
    · rw [if_neg hk, if_neg fun heq => hk heq.symm]
      exact h.index k l
  · intro r hr
    rcases List.mem_append.mp hr with hr | hr
    · exact h.admitted r hr
    · cases List.mem_singleton.mp hr
      exact ⟨hkey, hbody⟩
  · rcases hfit with hle | hzero
    · refine Or.inl ?_
      rw [hall, List.length_append, hlen, ← hpsize]
      exact hle
    · refine Or.inr ?_
      have hnil : rs = [] := by
        cases rs with
        | nil => rfl
        | cons r rs =>
            have hpos := List.length_pos_iff.mpr (recordFormat.write_ne_nil r)
            rw [hpsize, Format.writeAll_cons, List.length_append] at hzero
            omega
      rw [hnil]
      exact Nat.le_refl 1

/-- A write that stops short is rolled back. -/
def PutIO.RollsBack (io : PutIO) (key body : Bytes) : Prop :=
  io.seekFails = false →
    io.hdrWritten < (Record.header key body.length).length ∨ io.bodyWritten < body.length →
      io.truncateFails = false

/-- `append`, with a write that may stop short and is rolled back. -/
theorem Filled.append (h : Filled w rs) {p : Pack}
    (hp : w.store.packs.lookup w.store.active = some p) {key body : Bytes}
    (hkey : key.length ≤ 4096) (hbody : body.length ≤ 2 * 2 ^ 30)
    (hfit : p.size + (recHeader + key.length + body.length) ≤ packLimit ∨ p.size = 0)
    (now : Int) {io : PutIO} (hio : io.RollsBack key body) :
    ∃ rs', Filled ((w.store.append key body now io).world w.disk) rs' := by
  have hid : p.id = w.store.active := h.id_eq (place?_eq_some hp)
  obtain ⟨a, ha, hsize, hbs⟩ := h.active
  cases (place?_eq_some hp).symm.trans ha
  have hpsize : p.size = (recordFormat.writeAll rs).length := hsize
  have hfile : w.disk.bytes? p.tier w.store.active = some (recordFormat.writeAll rs) := hbs
  -- the tables stay and the file has its old contents again
  have hundone : ∀ {d : Disk} (data : Bytes),
      (∀ t, d.bytes? t w.store.active = if t = p.tier then
        some (recordFormat.writeAll rs ++ data) else w.disk.bytes? t w.store.active) →
      Filled ⟨w.store, FileOp.apply d (.truncate p.tier p.id p.size now)⟩ rs := by
    intro d data hd
    refine h.congr rfl h.id_eq rfl (fun _ _ => Iff.rfl) ?_
    intro t
    simp only [bytes?_truncate, hid, hd]
    by_cases ht : t = p.tier
    · rw [if_pos (by rw [ht]), if_pos ht, Option.map_some, hpsize, truncateTo_end, ht, hfile]
    · rw [if_neg fun heq => ht (Prod.mk.inj heq).1, if_neg ht]
  have hwrite : ∀ (data : Bytes) (t : Nat),
      (FileOp.apply w.disk (.write p.tier p.id p.size data now)).bytes? t w.store.active =
        if t = p.tier then some (recordFormat.writeAll rs ++ data)
        else w.disk.bytes? t w.store.active := by
    intro data t
    rw [bytes?_write, hid]
    by_cases ht : t = p.tier
    · rw [if_pos (by rw [ht]), if_pos ht, ht, hfile, Option.map_some, hpsize, writeAt_end]
    · rw [if_neg fun heq => ht (Prod.mk.inj heq).1, if_neg ht]
  have hboth : ∀ (x y : Bytes) (t : Nat),
      (FileOp.apply (FileOp.apply w.disk (.write p.tier p.id p.size x now))
        (.write p.tier p.id (p.size + x.length) y now)).bytes? t w.store.active =
        if t = p.tier then some (recordFormat.writeAll rs ++ (x ++ y))
        else w.disk.bytes? t w.store.active := by
    intro x y t
    rw [bytes?_write, hwrite, hid]
    by_cases ht : t = p.tier
    · rw [if_pos (by rw [ht]), if_pos ht, if_pos ht, Option.map_some, hpsize,
        ← List.length_append, writeAt_end, List.append_assoc]
    · rw [if_neg fun heq => ht (Prod.mk.inj heq).1, if_neg ht, if_neg ht]
  simp only [Store.append, hp]
  split
  · exact ⟨rs, h⟩
  next hseek =>
  rw [Bool.not_eq_true] at hseek
  split
  · next hshort =>
      rw [hio hseek (.inl hshort), if_neg Bool.false_ne_true]
      exact ⟨rs, hundone _ (hwrite _)⟩
  split
  · next hshort =>
      rw [hio hseek (.inr hshort), if_neg Bool.false_ne_true]
      exact ⟨rs, hundone _ (hboth _ _)⟩
  · refine ⟨rs ++ [⟨key, body⟩], ?_⟩
    rw [Outcome.world]
    refine h.record hp hkey hbody hfit ?_
    rw [Disk.applyAll_cons]
    by_cases hempty : body = []
    · subst hempty
      rw [List.isEmpty_nil, if_pos rfl, Disk.applyAll_nil, hwrite, if_pos rfl, Record.write,
        List.append_nil]
    · rw [if_neg (by simpa using hempty), Disk.applyAll_cons, Disk.applyAll_nil, hboth,
        if_pos rfl]
      rfl

/-- `Put`, as long as it does not go on to the next pack. -/
theorem Filled.put (h : Filled w rs) {size : Int} {r : Bytes} {now : Int} {io : PutIO}
    (hio : io.RollsBack key (r.take size.toNat))
    (hstay : (w.store.put w.disk key size r now io).state.active = w.store.active) :
    ∃ rs', Filled ((w.store.put w.disk key size r now io).world w.disk) rs' := by
  obtain ⟨a, ha, -⟩ := h.active
  obtain ⟨p, hp, rfl⟩ := of_place?_eq_some ha
  unfold Store.put at hstay ⊢
  split
  · exact ⟨rs, h⟩
  · next hgood =>
      rw [if_neg hgood] at hstay
      simp only [badPut, Bool.or_eq_true, not_or, decide_eq_true_eq, Nat.not_lt] at hgood
      have hkey : key.length ≤ 4096 := hgood.1.1.1.1.1.1.2
      have hbody : (r.take size.toNat).length ≤ 2 * 2 ^ 30 := by
        have hsize : ¬ size > 2 * 2 ^ 30 := hgood.1.1.1.2
        rw [List.length_take]
        omega
      simp only [Store.putLocked, hp, Option.any_some] at hstay ⊢
      split
      · next hfull =>
          rw [if_pos hfull] at hstay
          cases hok : (w.store.rotate w.disk now io).ok with
          | true =>
              obtain ⟨_, id, hid, -, -, hrot⟩ := rotate_of_ok hok
              rw [if_pos hok, append_active, hrot] at hstay
              rw [show id = w.store.active from hstay, u32] at hid
              omega
          | false =>
              rw [if_neg Bool.false_ne_true]
              obtain ⟨hstate, hbytes⟩ := rotate_of_not_ok (by rw [hok]; exact Bool.false_ne_true)
              rw [Outcome.world, hstate]
              exact ⟨rs, h.congr rfl h.id_eq rfl (fun _ _ => Iff.rfl) fun t => hbytes w.disk t _⟩
      · next hfull =>
          refine h.append hp hkey hbody ?_ now hio
          rw [Bool.and_eq_true, decide_eq_true_iff, decide_eq_true_iff] at hfull
          omega

theorem touch_keeps (s : Store) (key : Bytes) (now : Int) :
    (s.touch key now).state.active = s.active ∧ (s.touch key now).state.index = s.index ∧
      (∀ i, (s.touch key now).state.place? i = s.place? i) ∧
      ∀ (d : Disk) (t id : Nat), (d.applyAll (s.touch key now).ops).bytes? t id =
        d.bytes? t id := by
  unfold Store.touch
  split
  · exact ⟨rfl, rfl, fun _ => rfl, fun _ _ _ => rfl⟩
  · refine ⟨rfl, rfl, fun i => lookup_adjust_same _ _ _ fun _ => rfl, ?_⟩
    intro d t id
    simp only
    split
    · exact bytes?_chtimes _ _ _ _ _ _
    · rfl

theorem Filled.get (h : Filled w rs) (key : Bytes) (now : Int) :
    Filled ((w.store.touch key now).world w.disk) rs := by
  obtain ⟨hactive, hindex, hplace, hbytes⟩ := touch_keeps w.store key now
  refine h.congr hactive (fun hq => h.id_eq ((hplace _).symm.trans hq)) (hplace _) ?_
    fun t => hbytes w.disk t _
  intro k l
  rw [Outcome.world, hindex]

theorem moveDown_index {s : Store} (hid : p.id = id) (hne : id ≠ s.active) (d : Disk) (io : MoveIO)
    (key : Bytes) (l : Loc) :
    (s.moveDown d p io).state.index.lookup key = some l ∧ l.pack = s.active ↔
      s.index.lookup key = some l ∧ l.pack = s.active := by
  unfold Store.moveDown Store.evict Store.demote
  split
  · rw [Map.lookup_filter, Option.filter_eq_some_iff, and_right_comm, and_iff_left_iff_imp]
    rintro ⟨-, hl⟩
    simp [hl, hid, Ne.symm hne]
  · split
    · exact Iff.rfl
    split
    · exact Iff.rfl
    split <;> exact Iff.rfl

theorem moveDown_id_eq {s : Store} (hp : s.packs.lookup id = some p) (hid : p.id = id)
    (hs : ∀ {i q}, s.place? i = some q → q.id = i) (d : Disk) (io : MoveIO) {i : Nat} {q : Place}
    (hq : (s.moveDown d p io).state.place? i = some q) : q.id = i := by
  unfold Store.moveDown Store.evict Store.demote at hq
  split at hq
  · rw [Core.place?, lookup_erase_place] at hq
    split at hq
    · cases hq
    · exact hs hq
  · split at hq
    · exact hs hq
    split at hq
    · exact hs hq
    split at hq
    · exact hs hq
    · rw [Core.place?, lookup_demoted_place (hid ▸ hp)] at hq
      split at hq
      · next heq =>
          cases hq
          exact heq.symm
      · exact hs hq

theorem Filled.move (h : Filled w rs) (hp : w.store.packs.lookup id = some p)
    (hne : id ≠ w.store.active) (io : MoveIO) :
    Filled ((w.store.moveDown w.disk p io).world w.disk) rs := by
  have hid : p.id = id := h.id_eq (place?_eq_some hp)
  obtain ⟨hactive, hplace, htarget⟩ := moveDown_keeps hp hid hne w.disk io
  exact h.congr hactive (fun hq => moveDown_id_eq hp hid h.id_eq w.disk io hq) hplace
    (moveDown_index hid hne w.disk io)
    fun t => (applyAll_other htarget w.disk t).1

/-- The operation does not start the next pack. -/
def StaysInPack (w : World) (op : Op) : Prop :=
  ∀ w' ∈ w.step op, w'.store.active = w.store.active

instance (w : World) (op : Op) : Decidable (StaysInPack w op) :=
  inferInstanceAs (Decidable (∀ w' ∈ w.step op, w'.store.active = w.store.active))

/-- What a `Put` wrote is rolled back if it is not the whole record. -/
def Op.RollsBack : Op → Prop
  | .put key size r _ io => io.RollsBack key (r.take size.toNat)
  | _ => True

theorem Filled.step {op : Op} (h : Filled w rs) (hundo : op.RollsBack) (hstay : StaysInPack w op)
    (hstep : w.step op = some w') : ∃ rs', Filled w' rs' := by
  have hactive := hstay w' hstep
  obtain ⟨o, ho, rfl⟩ := Option.map_eq_some_iff.mp hstep
  cases op with
  | put key size r now io =>
      cases ho
      exact h.put hundo hactive
  | get key now =>
      cases ho
      exact ⟨rs, h.get key now⟩
  | move id io =>
      obtain ⟨hne, p, hp, rfl⟩ := World.outcome_move ho
      exact ⟨rs, h.move hp hne io⟩

/-- From its start on, the active pack holds the records its entries point at. -/
theorem filled_run {w₀ : World} {ops : List Op} (h : Fresh w₀)
    (hundo : ∀ op ∈ ops, op.RollsBack) (hstay : Along StaysInPack World.step w₀ ops)
    (hrun : run World.step w₀ ops = some w) : ∃ rs, Filled w rs :=
  run_invariant_along (I := fun w => ∃ rs, Filled w rs)
    (fun _ _ _ ⟨_, hf⟩ hop hs => hf.step hop.1 hop.2 hs) ⟨[], h.filled⟩ (hstay.and hundo) hrun

/-- `OpenStore` starts a fresh pack. -/
theorem OpenedOn.fresh {n : Nat} {done : List (Nat × Nat)} (h : OpenedOn d n done w) :
    Fresh w := by
  refine ⟨h.placed.id_eq, ⟨⟨w.store.active, 0, 0⟩, ?_, rfl, ?_⟩, ?_⟩
  · rw [h.place, if_pos rfl]
  · rw [h.bytes, if_pos rfl]
  · intro key l hl
    obtain ⟨t, ht, -⟩ := h.index_own hl
    exact Nat.ne_of_lt (h.lt_active ht)

/-- Live counts follow the index. -/
theorem lookup_add (c : Core) (e : Bytes × Loc) (i : Nat) :
    (c.add e).packs.lookup i = (c.packs.lookup i).map fun p =>
      { p with live := p.live + (liveBytes (c.add e).index i - liveBytes c.index i) } := by
  rcases add_cases c e with heq | heq
  · rw [heq]
    simp
  · have hsum : liveBytes (c.index.insert e.1 e.2) i + c.dead e.1 i =
        liveBytes c.index i + if e.2.pack = i then (e.2.len : Int) else 0 :=
      Map.sum_insert c.index e.1 e.2 _
    rw [heq]
    simp only [lookup_rebind]
    congr 1
    funext p
    by_cases hi : i = e.2.pack
    · rw [if_pos hi.symm] at hsum
      rw [if_pos hi]
      congr 1
      omega
    · rw [if_neg (Ne.symm hi)] at hsum
      rw [if_neg hi]
      congr 1
      omega

theorem lookup_foldl_add (es : List (Bytes × Loc)) (c : Core) (i : Nat) :
    (es.foldl Core.add c).packs.lookup i = (c.packs.lookup i).map fun p =>
      { p with
        live := p.live + (liveBytes (es.foldl Core.add c).index i - liveBytes c.index i) } := by
  induction es generalizing c with
  | nil => simp
  | cons e es ih =>
      rw [List.foldl_cons, ih, lookup_add, Option.map_map]
      congr 1
      funext p
      simp only [Function.comp_apply]
      congr 1
      omega

/-- The same tables, whatever order their bindings are held in. -/
structure SameCore (c c' : Core) : Prop where
  index : ∀ key, c'.index.lookup key = c.index.lookup key
  packs : ∀ id, c'.packs.lookup id = c.packs.lookup id
  tiers : c'.tiers = c.tiers

/-- Only the last entry of each key counts, for the index and for the live bytes. -/
theorem foldl_add_sameCore {es es' : List (Bytes × Loc)} (hes : ∀ e ∈ es, e.2.pack = id)
    (hes' : ∀ e ∈ es', e.2.pack = id) (hlast : ∀ key, lastLoc es' key = lastLoc es key) (c : Core) :
    SameCore (es.foldl Core.add c) (es'.foldl Core.add c) := by
  have hindex : ∀ key, (es'.foldl Core.add c).index.lookup key =
      (es.foldl Core.add c).index.lookup key := by
    intro key
    rw [(foldl_add es' c).1, (foldl_add es c).1, lookup_foldl_addIndex hes',
      lookup_foldl_addIndex hes, hlast]
  have hlive : ∀ i, liveBytes (es'.foldl Core.add c).index i =
      liveBytes (es.foldl Core.add c).index i := fun i =>
    Map.sum_eq_of_lookup (fun l : Loc => l) (fun key => congrArg _ (hindex key))
      fun _ l => if l.pack = i then (l.len : Int) else 0
  refine ⟨hindex, ?_, ?_⟩
  · intro i
    rw [lookup_foldl_add, lookup_foldl_add, hlive]
  · rw [(foldl_add es' c).2.2, (foldl_add es c).2.2]

/-- A pack of whole records: its hint file and its records are loaded alike, if
they give every key the same entry. -/
theorem load_hint_sameCore {t id : Nat} {f : PackFile} {hint : Bytes}
    {rs : List Record} (hf : d.pack? t id = some f) (hbytes : f.bytes = recordFormat.writeAll rs)
    (hfits : ∀ r ∈ rs, recordFormat.Fits r) (hhint : d.hint? t id = some hint)
    (hlast : ∀ key, lastLoc (hintLocs id f.bytes.length hint) key =
      lastLoc (scanLocs id 0 rs) key) (c : Core) (now : Int) (order : Shuffle) :
    let hinted := c.load d t id now (.faultless order)
    let scanned := c.load (FileOp.apply d (.removeHint t id)) t id now (.faultless order)
    hinted.ok = true ∧ scanned.ok = true ∧ SameCore scanned.state hinted.state ∧
      ∀ key, hinted.state.index.lookup key =
        newer (c.index.lookup key) (lastLoc (scanLocs id 0 rs) key) := by
  have hread : recordFormat.readAll f.bytes = (rs, []) := by
    rw [hbytes, Format.readAll_writeAll hfits]
  have hgone : (FileOp.apply d (.removeHint t id)).hint? t id = none := by
    rw [hint?_removeHint, if_pos rfl]
  have hstill : (FileOp.apply d (.removeHint t id)).pack? t id = some f := hf
  have hscan : ∀ e ∈ scanLocs id 0 rs, e.2.pack = id := fun e he => mem_scanLocs_pack he
  have hhints : ∀ e ∈ hintLocs id f.bytes.length hint, e.2.pack = id :=
    fun e he => mem_hintLocs_pack he
  have hsame := foldl_add_sameCore hscan hhints hlast
    { c with packs := c.packs.insert id ⟨id, t, f.bytes.length, 0, f.mtime, f.mtime⟩ }
  simp only [Core.load, hf, hstill, hhint, hgone, LoadIO.faultless, Bool.or_self,
    Bool.false_eq_true, if_false, Core.loadHint, Core.loadScan, hread, ← hbytes, ne_eq,
    not_true_eq_false, decide_false, Bool.false_and, Core.resize]
  refine ⟨trivial, trivial, ⟨hsame.index, ?_, ?_⟩, ?_⟩
  · intro i
    rw [hsame.packs, Map.lookup_adjust, lookup_foldl_add]
    split
    · next heq =>
        rw [heq, Map.lookup_insert_eq, if_pos rfl]
        rfl
    · rfl
  · rw [hsame.tiers]
  · intro key
    rw [(foldl_add _ _).1, lookup_foldl_addIndex fun e he => mem_hintLocs_pack he, hlast]

/-- The directories once `rotate` or `Close` has sealed the active pack. -/
inductive SealedBy (w : World) : Shuffle → Disk → Prop
  | rotate (now : Int) (io : PutIO) (hok : (w.store.rotate w.disk now io).ok = true) :
      SealedBy w io.order (w.disk.applyAll (w.store.rotate w.disk now io).ops)
  | close (order : Shuffle) (hok : (w.store.close false order).ok = true) :
      SealedBy w order (w.disk.applyAll (w.store.close false order).ops)

/-- Sealing adds the hint file and leaves the pack file as it is. -/
theorem SealedBy.files {order : Shuffle} (hs : SealedBy w order d) {a : Place}
    (ha : w.store.place? w.store.active = some a) (hid : a.id = w.store.active) :
    d.pack? a.tier w.store.active = w.disk.pack? a.tier w.store.active ∧
      d.hint? a.tier w.store.active = some (hintOf w.store.index w.store.active order) := by
  obtain ⟨p, hp, rfl⟩ := of_place?_eq_some ha
  have hid' : p.id = w.store.active := hid
  cases hs with
  | rotate now io hok =>
      obtain ⟨q, id, hnext, hq, -, hrot⟩ := rotate_of_ok hok
      cases hp.symm.trans hq
      have hne : (p.tier, w.store.active) ≠ (0, id) := by
        intro heq
        rw [← (Prod.mk.inj heq).2, u32] at hnext
        omega
      rw [hrot]
      refine ⟨(Map.lookup_insert_eq _ _ _ _).trans (if_neg hne), ?_⟩
      simp [Core.seal, hid', Pack.place]
  | close _ hok =>
      simp only [Store.close, hp, Bool.false_eq_true, if_false]
      refine ⟨rfl, ?_⟩
      simp [Core.seal, hid', Pack.place]

theorem Filled.inside (h : Filled w rs) {l : Loc} (hl : w.store.index.lookup key = some l)
    (hpack : l.pack = w.store.active) :
    ∃ front value back, recordFormat.writeAll rs = front ++ Record.write ⟨key, value⟩ ++ back ∧
      l = ⟨w.store.active, front.length + recHeader + key.length, value.length⟩ ∧
      Inside (recordFormat.writeAll rs).length key l := by
  have hlast := (h.index key l).mp ⟨hl, hpack⟩
  have hsmall := h.small
  obtain ⟨pos, ⟨pre, r, post, rfl, rfl, rfl, hlen⟩, hloc⟩ :=
    mem_scanLocs (by omega) (mem_of_lastLoc hlast)
  have hend := Describes.end_le
    ⟨pre, r, post, rfl, rfl, rfl, hlen⟩
  rw [Nat.zero_add] at hloc
  refine ⟨recordFormat.writeAll pre, r.value, recordFormat.writeAll post, ?_, ?_, ?_⟩
  · rw [Format.writeAll_append, Format.writeAll_cons, List.append_assoc]
    rfl
  · rw [hloc, hlen]
  · rw [hloc]
    constructor <;> simp only <;> omega

/-- A pack filled by any operations from its start on, none of which leaves a part of a
record behind, and sealed by `rotate` or `Close` is loaded from its hint file as it is
loaded by scanning its records: from every index the two give the same entries, live
counts, sizes and totals.
The entries and the hint file hold the true offsets and lengths, so that neither
the conversions to 32 bits nor the subtraction in `seal` loses anything. -/
theorem hint_load_agrees_with_scan {w₀ w : World} {ops : List Op} {order : Shuffle} {d : Disk}
    (hfresh : Fresh w₀) (hstay : Along StaysInPack World.step w₀ ops)
    (hundo : ∀ op ∈ ops, op.RollsBack)
    (hrun : run World.step w₀ ops = some w) (hseal : SealedBy w order d) :
    ∃ a, w.store.place? w.store.active = some a ∧
      (∀ (c : Core) (now : Int) (order' : Shuffle),
        let hinted := c.load d a.tier w.store.active now (.faultless order')
        let scanned := c.load (FileOp.apply d (.removeHint a.tier w.store.active)) a.tier
          w.store.active now (.faultless order')
        hinted.ok = true ∧ scanned.ok = true ∧ SameCore scanned.state hinted.state ∧
          ∀ key, hinted.state.index.lookup key = newer (c.index.lookup key)
            ((w.store.index.lookup key).filter fun l => l.pack = w.store.active)) ∧
      ∀ key l, w.store.index.lookup key = some l → l.pack = w.store.active →
        ∃ front value back, d.bytes? a.tier w.store.active =
            some (front ++ Record.write ⟨key, value⟩ ++ back) ∧
          l = ⟨w.store.active, front.length + recHeader + key.length, value.length⟩ ∧
          hintEntry (key, l) = ⟨key, value.length, front.length⟩ := by
  obtain ⟨rs, h⟩ := filled_run hfresh hundo hstay hrun
  obtain ⟨a, ha, -, hbs⟩ := h.active
  obtain ⟨hpack, hhint⟩ := hseal.files ha (h.id_eq ha)
  obtain ⟨f, hf, hbytes⟩ := Option.map_eq_some_iff.mp hbs
  have hinside : ∀ {key l}, w.store.index.lookup key = some l → l.pack = w.store.active →
      Inside f.bytes.length key l := by
    intro key l hl hid
    obtain ⟨_, _, _, -, -, hin⟩ := h.inside hl hid
    rwa [hbytes]
  have hlast : ∀ key, lastLoc (hintLocs w.store.active f.bytes.length
      (hintOf w.store.index w.store.active order)) key =
        lastLoc (scanLocs w.store.active 0 rs) key := by
    intro key
    apply Option.ext
    intro l
    rw [lastLoc_hintOf order hinside, h.index]
  have hfilter : ∀ key, lastLoc (scanLocs w.store.active 0 rs) key =
      (w.store.index.lookup key).filter fun l => l.pack = w.store.active := by
    intro key
    apply Option.ext
    intro l
    rw [← h.index, Option.filter_eq_some_iff, decide_eq_true_iff]
  refine ⟨a, ha, ?_, ?_⟩
  · intro c now order'
    simp only [← hfilter]
    exact load_hint_sameCore (hpack.trans hf) hbytes h.fits hhint hlast c now order'
  · intro key l hl hid
    obtain ⟨front, value, back, hall, hloc, hin⟩ := h.inside hl hid
    refine ⟨front, value, back, ?_, hloc, ?_⟩
    · rw [Disk.bytes?, hpack, hf, Option.map_some, hbytes, hall]
    · have hoff := hintEntry_off (e := (key, l)) hin
      have hback : l.off - recHeader - key.length = front.length := by
        rw [hloc]
        simp only
        omega
      calc hintEntry (key, l) = ⟨key, l.len, (hintEntry (key, l)).off⟩ := rfl
        _ = ⟨key, value.length, front.length⟩ := by rw [hoff, hback, hloc]

/-- One key put twice, then `Close`. -/
theorem hint_load_agrees_with_scan_twice : ∃ w₀ w,
    openWorld [1] Disk.empty 0 OpenIO.good = some w₀ ∧
    run World.step w₀ [.put [97] 1 [1] 0 PutIO.good, .put [97] 2 [2, 3] 0 PutIO.good] = some w ∧
    ∀ (c : Core) (now : Int),
      SameCore
        (c.load (FileOp.apply (w.disk.applyAll (w.store.close false Shuffle.none).ops)
          (.removeHint 0 1)) 0 1 now (.faultless Shuffle.none)).state
        (c.load (w.disk.applyAll (w.store.close false Shuffle.none).ops) 0 1 now
          (.faultless Shuffle.none)).state := by
  obtain ⟨w₀, w, hopen, hstay, hrun, hclose, hactive, hplace⟩ : ∃ w₀ w,
      openWorld [1] Disk.empty 0 OpenIO.good = some w₀ ∧
      Along StaysInPack World.step w₀
        [.put [97] 1 [1] 0 PutIO.good, .put [97] 2 [2, 3] 0 PutIO.good] ∧
      run World.step w₀ [.put [97] 1 [1] 0 PutIO.good, .put [97] 2 [2, 3] 0 PutIO.good] = some w ∧
      (w.store.close false Shuffle.none).ok = true ∧ w.store.active = 1 ∧
      (w.store.place? 1).map Place.tier = some 0 :=
    ⟨_, _, rfl, by decide +kernel, rfl, by decide +kernel, by decide +kernel, by decide +kernel⟩
  obtain ⟨done, hopened⟩ := openWorld_spec (readable_empty 1) (fun _ _ => ⟨_, rfl⟩) hopen
  have hundo : ∀ op ∈ [Op.put [97] 1 [1] 0 PutIO.good, .put [97] 2 [2, 3] 0 PutIO.good],
      op.RollsBack := by
    intro op hop
    simp only [List.mem_cons, List.not_mem_nil, or_false] at hop
    rcases hop with rfl | rfl <;> exact fun _ _ => rfl
  obtain ⟨a, ha, hload, -⟩ := hint_load_agrees_with_scan hopened.fresh hstay hundo hrun
    (.close Shuffle.none hclose)
  rw [hactive] at ha hload
  rw [ha] at hplace
  rw [Option.some.inj hplace] at hload
  exact ⟨w₀, w, hopen, hrun, fun c now => (hload c now Shuffle.none).2.2.1⟩

/-- Behind the record of the second `Put` stands what was not rolled back, which a scan
takes for a record and the hint file does not know. -/
theorem scan_finds_forged_record : ∃ w₀ w,
    openWorld [0] Disk.empty 0 OpenIO.good = some w₀ ∧ Fresh w₀ ∧
    Along StaysInPack World.step w₀ [forgingPut, .put [98] 0 [] 0 PutIO.good] ∧
    run World.step w₀ [forgingPut, .put [98] 0 [] 0 PutIO.good] = some w ∧
    ∃ d, SealedBy w Shuffle.none d ∧
      (Core.load ⟨[], ∅, ∅⟩ d 0 1 0 (.faultless Shuffle.none)).state.index.lookup [99] = none ∧
      (Core.load ⟨[], ∅, ∅⟩ (FileOp.apply d (.removeHint 0 1)) 0 1 0
        (.faultless Shuffle.none)).state.index.lookup [99] = some ⟨1, 18, 1⟩ := by
  obtain ⟨w₀, w, hopen, hstay, hrun, hclose, hhinted, hscanned⟩ : ∃ w₀ w,
      openWorld [0] Disk.empty 0 OpenIO.good = some w₀ ∧
      Along StaysInPack World.step w₀ [forgingPut, .put [98] 0 [] 0 PutIO.good] ∧
      run World.step w₀ [forgingPut, .put [98] 0 [] 0 PutIO.good] = some w ∧
      (w.store.close false Shuffle.none).ok = true ∧
      (Core.load ⟨[], ∅, ∅⟩ (w.disk.applyAll (w.store.close false Shuffle.none).ops) 0 1 0
        (.faultless Shuffle.none)).state.index.lookup [99] = none ∧
      (Core.load ⟨[], ∅, ∅⟩ (FileOp.apply (w.disk.applyAll
        (w.store.close false Shuffle.none).ops) (.removeHint 0 1)) 0 1 0
        (.faultless Shuffle.none)).state.index.lookup [99] = some ⟨1, 18, 1⟩ :=
    ⟨_, _, rfl, by decide +kernel, rfl, by decide +kernel, by decide +kernel, by decide +kernel⟩
  obtain ⟨done, hopened⟩ := openWorld_spec (readable_empty 1) (fun _ _ => ⟨_, rfl⟩) hopen
  exact ⟨w₀, w, hopen, hopened.fresh, hstay, hrun, _, .close Shuffle.none hclose, hhinted, hscanned⟩

end Repkgs.Jigd
