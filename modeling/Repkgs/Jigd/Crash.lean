import Repkgs.Jigd.Recorded
import Repkgs.Jigd.CleanTail
import Repkgs.Jigd.LastPut

/-!
# Crashes

A machine boots the store, runs it, loses it at any system call and loses parts
of files that were never synced, any number of times. Whatever `OpenStore` finds
afterwards, `Get` answers only with values that were stored under the key.
-/

namespace Repkgs.Jigd

open Lib

/-- Files after a power cut: of every pack and hint file a first part is left,
and hint files may be gone. -/
def Disk.damage (d : Disk) (packLen : Nat → Nat → Nat) (hintLen : Nat → Nat → Option Nat) :
    Disk where
  packs := Map.filterMap d.packs fun k f =>
    some { f with bytes := f.bytes.take (packLen k.1 k.2) }
  hints := Map.filterMap d.hints fun k hint => (hintLen k.1 k.2).map fun len => hint.take len

/-- The machine, off or running the store, and what was stored so far. -/
inductive Machine
  | down (d : Disk) (log : List Event)
  | up (w : World) (log : List Event)

/-- What can happen to the machine. A process can be killed before any system
call of an operation or of `OpenStore`. -/
inductive Happening
  | boot (budgets : List Int) (now : Int) (io : OpenIO)
  | bootKilled (budgets : List Int) (now : Int) (io : OpenIO) (calls : Nat)
  | op (op : Op)
  | killed (op : Op) (calls : Nat)
  | close (sealFails : Bool) (order : Shuffle)
  | damage (packLen : Nat → Nat → Nat) (hintLen : Nat → Nat → Option Nat)

/-- A killed `Put` counts as stored once all its system calls were made. -/
def Machine.step : Machine → Happening → Option Machine
  | .down d log, .boot budgets now io => (openWorld budgets d now io).map fun w => .up w log
  | .down d log, .bootKilled budgets now io calls =>
      some (.down (d.applyAll ((openStore budgets d now io).ops.take calls)) log)
  | .down d log, .damage packLen hintLen => some (.down (d.damage packLen hintLen) log)
  | .up w log, .op op =>
      (w.outcome op).map fun o => .up (o.world w.disk) (log ++ w.events op)
  | .up w log, .killed op calls => (w.outcome op).map fun o =>
      .down (w.disk.applyAll (o.ops.take calls))
        (if o.ops.length ≤ calls then log ++ w.events op else log)
  | .up w log, .close sealFails order =>
      some (.down ((w.store.close sealFails order).world w.disk).disk log)
  | _, _ => none

@[simp] theorem bytes?_damage (d : Disk) (packLen : Nat → Nat → Nat)
    (hintLen : Nat → Nat → Option Nat) (t id : Nat) :
    (d.damage packLen hintLen).bytes? t id =
      (d.bytes? t id).map fun bs => bs.take (packLen t id) := by
  simp only [Disk.bytes?, Disk.pack?, Disk.damage, Map.lookup_filterMap]
  cases d.packs.lookup (t, id) <;> rfl

@[simp] theorem hint?_damage (d : Disk) (packLen : Nat → Nat → Nat)
    (hintLen : Nat → Nat → Option Nat) (t id : Nat) :
    (d.damage packLen hintLen).hint? t id =
      (d.hint? t id).bind fun hint => (hintLen t id).map fun len => hint.take len :=
  Map.lookup_filterMap _ _ _

variable {hist : History} {d : Disk} {n : Nat}

theorem Sound.damage (h : Sound hist d) (packLen : Nat → Nat → Nat)
    (hintLen : Nat → Nat → Option Nat) : Sound hist (d.damage packLen hintLen) := by
  apply h.sub
  · intro t id bs hbs
    rw [bytes?_damage] at hbs
    obtain ⟨bs', hbs', rfl⟩ := Option.map_eq_some_iff.mp hbs
    exact ⟨t, bs', hbs', List.take_prefix _ _⟩
  · intro t id hint hh
    rw [hint?_damage] at hh
    obtain ⟨hint', hh', hcut⟩ := Option.bind_eq_some_iff.mp hh
    obtain ⟨len, -, rfl⟩ := Option.map_eq_some_iff.mp hcut
    exact ⟨t, hint', hh', List.take_prefix _ _⟩
  · intro t id bs hbs
    exact ⟨t, id, _, Nat.le_refl _, by rw [bytes?_damage, hbs]; rfl⟩

theorem bytesAfter_prefix {t id : Nat} {bs : Bytes} (h : bytesAfter d t id = some bs) :
    ∃ bs', d.bytes? t id = some bs' ∧ bs <+: bs' := by
  obtain ⟨bs', hbs', rfl⟩ := Option.map_eq_some_iff.mp h
  refine ⟨bs', hbs', ?_⟩
  split
  · exact List.prefix_rfl
  · exact wholeRecords_front bs'

/-- A stopped `OpenStore` leaves sound directories. -/
theorem Sound.between {d x : Disk} (h : Sound hist d) (hx : Between d x) :
    Sound hist x where
  bytes hbs := by
    rcases hx.bytes hbs with hold | hcut
    · exact h.bytes hold
    · obtain ⟨bs', hbs', hpre⟩ := bytesAfter_prefix hcut
      obtain ⟨tail, htorn, hpre'⟩ := h.bytes hbs'
      exact ⟨tail, htorn, hpre.trans hpre'⟩
  hint hh := by
    rcases hx.hint hh with hold | ⟨idx, order, rfl, hidx⟩
    · exact h.hint hold
    · exact fun e => hintOf_describes (h.small _)
        (fun hl hid => (h.locates (mem_of_lastLoc (hidx hl hid))).1) order
  used hne := by
    obtain ⟨t, id', bs, hle, hbs⟩ := h.used hne
    obtain ⟨t', bs', hbs'⟩ := hx.kept hbs
    exact ⟨t', id', bs', hle, hbs'⟩
  fits := h.fits
  small := h.small

theorem Sound.create (h : Sound hist d) (id : Nat) (now : Int) :
    Sound hist (FileOp.apply d (.create 0 id now)) := by
  refine ⟨?_, ?_, ?_, h.fits, h.small⟩
  · intro t i bs hbs
    rw [bytes?_create] at hbs
    split at hbs
    · cases hbs
      exact ⟨[], torn_nil_record, List.nil_prefix⟩
    · exact h.bytes hbs
  · intro t i hint hh
    rw [hint?_create] at hh
    exact h.hint hh
  · intro i hne
    obtain ⟨t, id', bs, hle, hbs⟩ := h.used hne
    by_cases heq : (t, id') = (0, id)
    · exact ⟨t, id', _, hle, by rw [bytes?_create, if_pos heq]⟩
    · exact ⟨t, id', bs, hle, by rw [bytes?_create, if_neg heq, hbs]⟩

/-- The directories of an `OpenStore` stopped at any system call. -/
theorem openStore_stopped {budgets : List Int} (hd : Readable d budgets.length)
    (hnext : ∀ {t id bs}, d.bytes? t id = some bs → id + 1 < 10 ^ 6) {io : OpenIO}
    (hio : io.Faultless) (now : Int) (calls : Nat) : ∃ x, Between d x ∧
      (d.applyAll ((openStore budgets d now io).ops.take calls) = x ∨
        ∃ id < 10 ^ 6, 0 < budgets.length ∧
          d.applyAll ((openStore budgets d now io).ops.take calls) =
            FileOp.apply x (.create 0 id now)) := by
  obtain ⟨done, hrec, -⟩ := openTiers_spec hd hio now
  have hlast : (openTiers budgets d now io).last + 1 < 10 ^ 6 := by
    rcases hrec.last_mem with hzero | ⟨t, ht⟩
    · omega
    · obtain ⟨bs, hbs⟩ := hrec.files (mem_of_owner ht)
      exact hnext hbs
  have hid : u32 ((openTiers budgets d now io).last + 1) =
      (openTiers budgets d now io).last + 1 := u32_of_lt (by omega)
  simp only [openStore, hid]
  cases hstart : (openTiers budgets d now io).core.startPack (openTiers budgets d now io).disk
      ((openTiers budgets d now io).last + 1) now (io.createFails || budgets.isEmpty) with
  | none => exact ⟨_, hrec.trace calls, Or.inl rfl⟩
  | some c =>
      simp only
      rcases Nat.le_total calls (openTiers budgets d now io).ops.length with hle | hge
      · rw [List.take_append_of_le_length hle]
        exact ⟨_, hrec.trace calls, Or.inl rfl⟩
      · rw [List.take_append, List.take_of_length_le hge, Disk.applyAll_append, ← hrec.emitted]
        refine ⟨_, hrec.between, ?_⟩
        cases hrest : calls - (openTiers budgets d now io).ops.length with
        | zero => exact Or.inl rfl
        | succ k =>
            refine Or.inr ⟨_, hlast, ?_, by rw [List.take_succ_cons, List.take_nil]; rfl⟩
            cases budgets with
            | nil => simp [Core.startPack] at hstart
            | cons b bs => exact Nat.succ_pos _

/-- Every pack is loaded from one of its tiers. -/
theorem OpenedOn.loaded {done : List (Nat × Nat)} {w : World} (h : OpenedOn d n done w)
    (hd : Readable d n) {t id : Nat} {bs : Bytes} (hbs : d.bytes? t id = some bs) :
    ∃ t' bs', owner done id = some t' ∧
      bytesAfter d t' id = some bs' ∧ id ≠ w.store.active ∧ w.disk.bytes? t' id = some bs' := by
  have hmem := (h.seen.mem_iff t id).mpr ⟨hd.tier_lt hbs, hbs ▸ rfl⟩
  obtain ⟨t', ht'⟩ := Option.isSome_iff_exists.mp (owner_isSome hmem)
  obtain ⟨bs₀, hbs₀⟩ := Option.isSome_iff_exists.mp
    ((h.seen.mem_iff t' id).mp (mem_of_owner ht')).2
  obtain ⟨bs', hbs'⟩ := bytesAfter_isSome hbs₀
  have hne : id ≠ w.store.active := Nat.ne_of_lt (h.lt_active ht')
  refine ⟨t', bs', ht', hbs', hne, ?_⟩
  rw [h.bytes, if_neg fun heq => hne (Prod.mk.inj heq).2, if_pos ht', hbs']

theorem OpenedOn.live {done : List (Nat × Nat)} {w : World} (h : OpenedOn d n done w)
    (hd : Readable d n) (hs : Sound hist d) : Live hist w := by
  have hfile : ∀ {t id bs}, w.disk.bytes? t id = some bs →
      ((t, id) = (0, w.store.active) ∧ bs = []) ∨ bytesAfter d t id = some bs := by
    intro t id bs hbs
    rw [h.bytes] at hbs
    split at hbs
    · next heq => exact Or.inl ⟨heq, (Option.some.inj hbs).symm⟩
    · split at hbs
      · exact Or.inr hbs
      · cases hbs
  have hfresh : hist w.store.active = [] := by
    by_contra hne
    obtain ⟨t, id', bs, hle, hbs⟩ := hs.used hne
    obtain ⟨t', -, ht', -⟩ := h.loaded hd hbs
    exact absurd (h.lt_active ht') (Nat.not_lt.mpr hle)
  refine ⟨⟨?_, ?_, ?_, hs.fits, hs.small⟩, ?_, ?_⟩
  · intro t id bs hbs
    rcases hfile hbs with ⟨-, rfl⟩ | hcut
    · exact ⟨[], torn_nil_record, List.nil_prefix⟩
    · obtain ⟨bs', hbs', hpre⟩ := bytesAfter_prefix hcut
      obtain ⟨tail, htorn, hpre'⟩ := hs.bytes hbs'
      exact ⟨tail, htorn, hpre.trans hpre'⟩
  · intro t id hint hh
    cases hbs : d.bytes? t id with
    | none =>
        rw [h.hint_rest hbs] at hh
        exact hs.hint hh
    | some bs =>
        by_cases hown : owner done id = some t
        · obtain ⟨hint', hh', hfor⟩ := h.hint_own hown
          cases hh.symm.trans hh'
          rcases hfor with hold | ⟨-, idx, order, rfl, hidx, -⟩
          · exact hs.hint hold
          · exact fun e => hintOf_describes (hs.small _)
              (fun hl hid => (hs.locates (mem_of_lastLoc (hidx hl hid))).1) order
        · rw [h.hint_dup hbs hown] at hh
          cases hh
  · intro id hne
    obtain ⟨t, id', bs, hle, hbs⟩ := hs.used hne
    obtain ⟨t', bs', -, -, -, hbs'⟩ := h.loaded hd hbs
    exact ⟨t', id', bs', hle, hbs'⟩
  · intro key l hl
    obtain ⟨t, ht, hlast⟩ := h.index_own hl
    obtain ⟨hloc, bs, hbs, hle⟩ := hs.locates (mem_of_lastLoc hlast)
    have hne : l.pack ≠ w.store.active := Nat.ne_of_lt (h.lt_active ht)
    refine ⟨hloc, ⟨l.pack, t, bs.length⟩, bs, ?_, ?_, hle⟩
    · rw [h.place, if_neg hne, ht, Option.bind_some, hbs]
      rfl
    · rw [h.bytes, if_neg fun heq => hne (Prod.mk.inj heq).2, if_pos ht, hbs]
  · intro a ha
    rw [h.place, if_pos rfl] at ha
    cases ha
    rw [hfresh]
    exact ⟨rfl, [], torn_nil_record, by rw [h.bytes, if_pos rfl]; rfl⟩

/-- All records of the history were stored by some `Put`. -/
def Logged (hist : History) (log : List Event) : Prop :=
  ∀ id r, r ∈ hist id → .stored r.key r.value id ∈ log

theorem Quiet.after {es : List Event} (h : Quiet es) (hist : History) : hist.after es = hist := by
  induction es generalizing hist with
  | nil => rfl
  | cons e es ih =>
      cases e with
      | stored key body id => exact absurd (.head _) (h key body id)
      | evicted id => exact ih (fun k v i hmem => h k v i (.tail _ hmem)) hist

theorem Logged.after {log : List Event} (h : Logged hist log) (es : List Event) :
    Logged (hist.after es) (log ++ es) := by
  induction es generalizing hist log with
  | nil =>
      rw [List.append_nil]
      exact h
  | cons e es ih =>
      rw [List.append_cons]
      cases e with
      | evicted id => exact ih fun i r hr => List.mem_append_left _ (h i r hr)
      | stored key body id =>
          apply ih
          intro i r hr
          rw [Function.update_apply] at hr
          split at hr
          · next heq =>
              rcases List.mem_append.mp hr with hold | hnew
              · exact List.mem_append_left _ (heq ▸ h id r hold)
              · rw [List.mem_singleton.mp hnew, heq]
                exact List.mem_append_right _ (.head _)
          · exact List.mem_append_left _ (h i r hr)

/-- A running store between two operations. -/
structure Running (n : Nat) (hist : History) (w : World) : Prop where
  live : Live hist w
  placed : Placed w
  clean : Clean w
  active_lt : w.store.active < 10 ^ 6
  tiers : w.store.tiers.length = n

/-- The invariant of the machine. -/
inductive Recoverable (n : Nat) : Machine → Prop
  | down {hist : History} {d : Disk} {log : List Event} (hs : Sound hist d)
      (hr : Readable d n) (hl : Logged hist log) : Recoverable n (.down d log)
  | up {hist : History} {w : World} {log : List Event} (h : Running n hist w)
      (hl : Logged hist log) : Recoverable n (.up w log)

/-- The same tiers at every start, all packs load, and the next id has six digits. -/
def Bootable (n : Nat) (d : Disk) (budgets : List Int) (io : OpenIO) : Prop :=
  budgets.length = n ∧ io.Faultless ∧ ∀ t id bs, d.bytes? t id = some bs → id + 1 < 10 ^ 6

/-- What recovery relies on: starts are `Bootable`, the next pack id has six
digits before every operation, and the roll-back of a failed `Put` works. -/
def Survivable (n : Nat) : Machine → Happening → Prop
  | .down d _, .boot budgets _ io => Bootable n d budgets io
  | .down d _, .bootKilled budgets _ io _ => Bootable n d budgets io
  | .up w _, .op op => w.store.active + 1 < 10 ^ 6 ∧ op.UndoWorks
  | .up w _, .killed op _ => w.store.active + 1 < 10 ^ 6 ∧ op.UndoWorks
  | _, _ => True

theorem Sound.congr {d d' : Disk} (h : Sound hist d) (hf : SameFiles d d') :
    Sound hist d' := by
  apply h.sub
  · intro t id bs hbs
    exact ⟨t, bs, hf.bytes t id ▸ hbs, List.prefix_rfl⟩
  · intro t id hint hh
    exact ⟨t, hint, hf.hint t id ▸ hh, List.prefix_rfl⟩
  · intro t id bs hbs
    exact ⟨t, id, bs, Nat.le_refl _, (hf.bytes t id).trans hbs⟩

section Steps

variable {n : Nat} {hist : History} {log : List Event}

theorem Running.boot {budgets : List Int} {d : Disk} {now : Int} {io : OpenIO} {w : World}
    (hs : Sound hist d) (hr : Readable d n) (hb : Bootable n d budgets io)
    (h : openWorld budgets d now io = some w) : Running n hist w := by
  obtain ⟨rfl, hio, hids⟩ := hb
  obtain ⟨done, ho⟩ := openWorld_spec hr hio h
  have hactive : w.store.place? w.store.active = some ⟨w.store.active, 0, 0⟩ := by
    rw [ho.place, if_pos rfl]
  refine ⟨ho.live hr hs, ho.placed, ?_, ?_, ho.tiers⟩
  · intro a bs ha hbs
    cases hactive.symm.trans ha
    rw [ho.bytes, if_pos rfl] at hbs
    cases hbs
    exact Nat.zero_le _
  · rcases ho.active_next with hone | ⟨t, id, bs, hbs, hnext⟩
    · rw [hone]
      decide
    · rw [hnext]
      exact hids t id bs hbs

theorem Running.executes {w : World} (h : Running n hist w) {op : Op} {o : Outcome Store}
    (hlt : w.store.active + 1 < 10 ^ 6) (ho : w.outcome op = some o) :
    Executes (10 ^ 6) True w o (w.events op) :=
  step_executes h.placed (fun _ => h.clean) hlt (by decide) ho

theorem Running.op {w : World} (h : Running n hist w) {op : Op} {o : Outcome Store}
    (hlt : w.store.active + 1 < 10 ^ 6) (hop : op.UndoWorks) (ho : w.outcome op = some o) :
    Running n (hist.after (w.events op)) (o.world w.disk) := by
  have hexec := h.executes hlt ho
  obtain ⟨hlt', htiers⟩ := hexec.full.active_tiers h.active_lt
  exact ⟨h.live.chain h.placed hexec.full, h.placed.chain hexec.full,
    step_clean h.placed h.clean (by omega) hop ho, hlt', htiers.trans h.tiers⟩

/-- Directories of a store that was killed after a chain of effects. -/
theorem Running.killed {w w' : World} (h : Running n hist w) {es : List Event}
    (hc : Chain (10 ^ 6) True w es w') {d : Disk} (hf : SameFiles w'.disk d) :
    Sound (hist.after es) d ∧ Readable d n := by
  have hw' := h.placed.chain hc
  obtain ⟨hlt, htiers⟩ := hc.active_tiers h.active_lt
  refine ⟨(h.live.chain h.placed hc).sound.congr hf, ?_, ?_⟩
  · intro t id bs hbs
    rw [hf.bytes] at hbs
    exact h.tiers ▸ htiers ▸ (hw'.readable hlt).tier_lt hbs
  · intro t id bs hbs
    rw [hf.bytes] at hbs
    exact (hw'.readable hlt).id_lt hbs

/-- Directories of an `OpenStore` that was killed. -/
theorem stopped_boot {budgets : List Int} {d : Disk} (now : Int) {io : OpenIO}
    (hs : Sound hist d) (hr : Readable d n) (hb : Bootable n d budgets io) (calls : Nat) :
    Sound hist (d.applyAll ((openStore budgets d now io).ops.take calls)) ∧
      Readable (d.applyAll ((openStore budgets d now io).ops.take calls)) n := by
  obtain ⟨rfl, hio, hids⟩ := hb
  obtain ⟨x, hx, hor⟩ := openStore_stopped hr (fun hbs => hids _ _ _ hbs) hio now calls
  have hold : ∀ {t id bs}, x.bytes? t id = some bs → ∃ bs', d.bytes? t id = some bs' := by
    intro t id bs hbs
    rcases hx.bytes hbs with hsame | hcut
    · exact ⟨bs, hsame⟩
    · obtain ⟨bs', hbs', -⟩ := bytesAfter_prefix hcut
      exact ⟨bs', hbs'⟩
  have hread : Readable x budgets.length := by
    constructor
    · intro t id bs hbs
      obtain ⟨bs', hbs'⟩ := hold hbs
      exact hr.tier_lt hbs'
    · intro t id bs hbs
      obtain ⟨bs', hbs'⟩ := hold hbs
      exact hr.id_lt hbs'
  rcases hor with heq | ⟨id, hid, hpos, heq⟩
  · rw [heq]
    exact ⟨hs.between hx, hread⟩
  · rw [heq]
    refine ⟨(hs.between hx).create id now, ?_, ?_⟩
    · intro t i bs hbs
      rw [bytes?_create] at hbs
      split at hbs
      · next hpair =>
          rw [(Prod.mk.inj hpair).1]
          exact hpos
      · exact hread.tier_lt hbs
    · intro t i bs hbs
      rw [bytes?_create] at hbs
      split at hbs
      · next hpair =>
          rw [(Prod.mk.inj hpair).2]
          exact hid
      · exact hread.id_lt hbs

theorem Running.close {w : World} (h : Running n hist w) (fails : Bool) (order : Shuffle) :
    Sound hist ((w.store.close fails order).world w.disk).disk ∧
      Readable ((w.store.close fails order).world w.disk).disk n := by
  obtain ⟨a, -, ha, -⟩ := h.placed.active
  obtain ⟨p, hp, rfl⟩ := of_place?_eq_some ha
  simp only [Store.close, hp]
  cases fails with
  | true => exact h.killed (Chain.nil w) (SameFiles.refl _)
  | false => exact h.killed (Chain.single (Effect.writeHint ha order)) (SameFiles.refl _)

end Steps

/-- The step lemma: nothing that can happen makes the directories unsound. -/
theorem Recoverable.step (m : Machine) (l : Happening) (m' : Machine) (h : Recoverable n m)
    (hok : Survivable n m l) (hstep : m.step l = some m') :
    Recoverable n m' := by
  cases h with
  | @down hist d log hs hr hl =>
      cases l with
      | boot budgets now io =>
          obtain ⟨w, hw, rfl⟩ := Option.map_eq_some_iff.mp hstep
          exact .up (Running.boot hs hr hok hw) hl
      | bootKilled budgets now io calls =>
          cases hstep
          obtain ⟨hs', hr'⟩ := stopped_boot now hs hr hok calls
          exact .down hs' hr' hl
      | damage packLen hintLen =>
          cases hstep
          refine .down (hs.damage packLen hintLen) ⟨?_, ?_⟩ hl
          · intro t id bs hbs
            rw [bytes?_damage] at hbs
            obtain ⟨bs', hbs', -⟩ := Option.map_eq_some_iff.mp hbs
            exact hr.tier_lt hbs'
          · intro t id bs hbs
            rw [bytes?_damage] at hbs
            obtain ⟨bs', hbs', -⟩ := Option.map_eq_some_iff.mp hbs
            exact hr.id_lt hbs'
      | op | killed | close => cases hstep
  | @up hist w log h hl =>
      cases l with
      | op op =>
          obtain ⟨o, ho, rfl⟩ := Option.map_eq_some_iff.mp hstep
          exact .up (h.op hok.1 hok.2 ho) (hl.after _)
      | killed op calls =>
          obtain ⟨o, ho, rfl⟩ := Option.map_eq_some_iff.mp hstep
          have hexec := h.executes hok.1 ho
          split
          · next hall =>
              rw [List.take_of_length_le hall]
              obtain ⟨hs, hr⟩ := h.killed hexec.full (SameFiles.refl _)
              exact .down hs hr (hl.after _)
          · next hpart =>
              obtain ⟨es, w', hquiet, hc, hf⟩ := hexec.part calls (Nat.lt_of_not_le hpart)
              obtain ⟨hs, hr⟩ := h.killed hc hf
              rw [hquiet.after] at hs
              exact .down hs hr hl
      | close fails order =>
          cases hstep
          obtain ⟨hs, hr⟩ := h.close fails order
          exact .down hs hr hl
      | boot | bootKilled | damage => cases hstep

theorem recoverable_empty (n : Nat) : Recoverable n (.down Disk.empty []) := by
  have hs : Sound (fun _ => []) Disk.empty := by
    refine ⟨nofun, nofun, ?_, nofun, ?_⟩
    · intro id hne
      exact absurd rfl hne
    · intro id
      decide
  exact .down hs (readable_empty n) nofun

/-- The store `w` recovered from the directories `d` of a machine with the log. -/
structure Recovered (d : Disk) (log : List Event) (w : World) : Prop where
  /-- `Get` answers nothing or a whole value that was stored under this key. -/
  answers : ∀ key, w.answer key = none ∨
    ∃ value id, w.answer key = some (some value) ∧ .stored key value id ∈ log
  /-- Index entries lie inside their pack file. -/
  inside : ∀ key l, w.store.index.lookup key = some l → ∃ p bs,
    w.store.place? l.pack = some p ∧ w.disk.bytes? p.tier l.pack = some bs ∧
      l.off + l.len ≤ bs.length
  /-- Every pack is loaded from one of its copies. -/
  loaded : ∀ t id bs, d.bytes? t id = some bs → ∃ p bs', w.store.place? id = some p ∧
    id ≠ w.store.active ∧ d.bytes? p.tier id = some bs'
  /-- A pack without a hint file ends with its last whole record. -/
  truncated : ∀ id p bs, w.store.place? id = some p → id ≠ w.store.active →
    d.bytes? p.tier id = some bs → d.hint? p.tier id = none →
      w.disk.bytes? p.tier id = some (wholeRecords bs) ∧ p.size = (wholeRecords bs).length
  /-- Its records are indexed, the last one of a key, unless a newer pack has the key. -/
  indexed : ∀ id p bs, w.store.place? id = some p → id ≠ w.store.active →
    d.bytes? p.tier id = some bs → d.hint? p.tier id = none →
      ∀ r ∈ (recordFormat.readAll bs).1, ∃ l, w.store.index.lookup r.key = some l ∧
        (id < l.pack ∨ lastLoc (scanLocs id 0 (recordFormat.readAll bs).1) r.key = some l)

theorem lastLoc_scanLocs (id off : Nat) {rs : List Record} {r : Record} (h : r ∈ rs) :
    ∃ l, lastLoc (scanLocs id off rs) r.key = some l := by
  induction rs generalizing off with
  | nil => cases h
  | cons r' rs ih =>
      rw [scanLocs, lastLoc_cons]
      rcases List.mem_cons.mp h with rfl | hmem
      · cases lastLoc (scanLocs id _ rs) r.key with
        | some l => exact ⟨l, rfl⟩
        | none => exact ⟨_, if_pos rfl⟩
      · obtain ⟨l, hl⟩ := ih _ hmem
        exact ⟨l, by rw [hl, Option.some_or]⟩

section Recovery

variable {hist : History} {d : Disk} {n : Nat} {done : List (Nat × Nat)} {w : World}

theorem Live.answers {log : List Event} (h : Live hist w) (hw : Placed w)
    (hl : Logged hist log) (key : Bytes) : w.answer key = none ∨
      ∃ value id, w.answer key = some (some value) ∧ .stored key value id ∈ log := by
  cases hkey : w.store.index.lookup key with
  | none => exact Or.inl (World.answer_eq_none hkey)
  | some l =>
      obtain ⟨⟨off, hdesc, hoff⟩, p, bs, hp, hbs, hle⟩ := h.index hkey
      obtain ⟨tail, -, hpre⟩ := h.sound.bytes hbs
      rw [hoff] at hle
      refine Or.inr ⟨_, l.pack, ?_, hl l.pack _ (hdesc.section_eq hpre hle)⟩
      rw [World.answer_eq hw hkey hp, hbs, hoff, Option.map_some]

/-- A pack other than the fresh one was loaded from the tier its place says. -/
theorem OpenedOn.of_place (h : OpenedOn d n done w) {id : Nat} {p : Place}
    (hp : w.store.place? id = some p) (hne : id ≠ w.store.active) : ∃ bs,
      owner done id = some p.tier ∧ bytesAfter d p.tier id = some bs ∧ p.size = bs.length := by
  rw [h.place, if_neg hne] at hp
  obtain ⟨t, ht, hp⟩ := Option.bind_eq_some_iff.mp hp
  obtain ⟨bs, hbs, rfl⟩ := Option.map_eq_some_iff.mp hp
  exact ⟨bs, ht, hbs, rfl⟩

theorem OpenedOn.recovered {log : List Event} (h : OpenedOn d n done w) (hd : Readable d n)
    (hs : Sound hist d) (hl : Logged hist log) : Recovered d log w := by
  have hlive := h.live hd hs
  refine ⟨hlive.answers h.placed hl, fun key l hkey => (hlive.index hkey).2, ?_, ?_, ?_⟩
  · intro t id bs hbs
    obtain ⟨t', bs', ht', hbs', hne, -⟩ := h.loaded hd hbs
    obtain ⟨bs₀, hbs₀, -⟩ := bytesAfter_prefix hbs'
    refine ⟨⟨id, t', bs'.length⟩, bs₀, ?_, hne, hbs₀⟩
    rw [h.place, if_neg hne, ht', Option.bind_some, hbs']
    rfl
  · intro id p bs hp hne hbs hhint
    obtain ⟨bs', hown, hbs', hsize⟩ := h.of_place hp hne
    have hcut : bytesAfter d p.tier id = some (wholeRecords bs) := by
      simp [bytesAfter, hbs, hhint]
    cases hcut.symm.trans hbs'
    refine ⟨?_, hsize⟩
    rw [h.bytes, if_neg fun heq => hne (Prod.mk.inj heq).2, if_pos hown, hcut]
  · intro id p bs hp hne hbs hhint r hr
    obtain ⟨-, hown, -⟩ := h.of_place hp hne
    have hlocs : locsAt d p.tier id = scanLocs id 0 (recordFormat.readAll bs).1 := by
      simp [locsAt, hbs, hhint]
    obtain ⟨l, hlast⟩ := lastLoc_scanLocs id 0 hr
    rw [← hlocs] at hlast ⊢
    obtain ⟨l', hl', hle⟩ := h.index_all hown hlast
    refine ⟨l', hl', hle.lt_or_eq.imp_right fun heq => ?_⟩
    obtain ⟨t, ht, hlast'⟩ := h.index_own hl'
    rw [← heq, hown] at ht
    rw [← Option.some.inj ht, ← heq] at hlast'
    exact hlast'

end Recovery

/-- Whatever happened to the machine since its directories were empty, a store
that opens has recovered: no torn value, no value of another key, no index entry
outside its pack, and of a pack that was being written all whole records. -/
theorem openStore_recovers {n : Nat} {history : List Happening} {d : Disk} {log : List Event}
    (hrun : run Machine.step (.down Disk.empty []) history = some (.down d log))
    (hok : Along (Survivable n) Machine.step (.down Disk.empty []) history)
    {budgets : List Int} {now : Int} {io : OpenIO} {w : World} (htiers : budgets.length = n)
    (hio : io.Faultless) (hw : openWorld budgets d now io = some w) : Recovered d log w := by
  cases run_invariant_along Recoverable.step (recoverable_empty n) hok hrun with
  | down hs hr hl =>
      subst htiers
      obtain ⟨done, ho⟩ := openWorld_spec hr hio hw
      exact ho.recovered hr hs hl

/-- The process dies after the header of a second `Put`, and the machine loses
the last three bytes of the file. -/
def cutHeader : List Happening :=
  [.boot [1] 0 OpenIO.good, .op smallPut, .killed (.put [97] 2 [2, 3] 0 PutIO.good) 1,
    .damage (fun _ _ => 16) (fun _ _ => none)]

theorem openStore_recovers_cutHeader : ∃ d log w,
    run Machine.step (.down Disk.empty []) cutHeader = some (.down d log) ∧
    openWorld [1] d 7 OpenIO.good = some w ∧ w.answer [97] = some (some [1]) ∧
      Recovered d log w := by
  obtain ⟨d, log, w, hrun, hw, hanswer⟩ : ∃ d log w,
      run Machine.step (.down Disk.empty []) cutHeader = some (.down d log) ∧
      openWorld [1] d 7 OpenIO.good = some w ∧ w.answer [97] = some (some [1]) :=
    ⟨_, _, _, rfl, rfl, by decide⟩
  have hok : Along (Survivable 1) Machine.step (.down Disk.empty []) cutHeader := by
    refine ⟨⟨rfl, fun _ _ => ⟨_, rfl⟩, nofun⟩, ?_⟩
    intro m hm
    cases hm
    refine ⟨⟨by decide, rfl⟩, ?_⟩
    intro m hm
    cases hm
    refine ⟨⟨by decide, rfl⟩, ?_⟩
    intro m hm
    cases hm
    exact ⟨trivial, fun _ _ => trivial⟩
  exact ⟨d, log, w, hrun, hw, hanswer, openStore_recovers hrun hok rfl (fun _ _ => ⟨_, rfl⟩) hw⟩

/-- Of an 11 byte body that looks like a record behind its own header, 10 bytes
are written and the roll-back fails too. A short record then overwrites the
header only, and the process is killed. -/
def failedRollBack : List Happening :=
  [.boot [0] 0 OpenIO.good,
    .op forgingPut,
    .op (.put [98] 0 [] 0 PutIO.good),
    .killed (.get [98] 0) 0]

/-- After the restart, a part of the value that was not stored answers for a key
that was never put. -/
theorem failed_rollBack_forges_record :
    ¬ ∀ (budgets : List Int) (history : List Happening) (d : Disk) (log : List Event) (now : Int)
      (io : OpenIO) (w : World),
      run Machine.step (.down Disk.empty []) history = some (.down d log) → io.Faultless →
      openWorld budgets d now io = some w → Recovered d log w := by
  intro h
  obtain ⟨d, log, w, hrun, hw, hanswer, hlog⟩ : ∃ d log w,
      run Machine.step (.down Disk.empty []) failedRollBack = some (.down d log) ∧
      openWorld [0] d 7 OpenIO.good = some w ∧ w.answer [99] = some (some [5]) ∧
      log = [.stored [98] [] 1] :=
    ⟨_, _, _, rfl, rfl, by decide, by decide⟩
  have hrec := h [0] failedRollBack d log 7 OpenIO.good w hrun (fun _ _ => ⟨_, rfl⟩) hw
  rcases hrec.answers [99] with hnone | ⟨value, id, -, hmem⟩
  · rw [hanswer] at hnone
    cases hnone
  · rw [hlog, List.mem_singleton] at hmem
    cases hmem

end Repkgs.Jigd
