import Repkgs.Jigd.DemotionLoop

/-!
# Waking the demoter

The demoter sleeps on a channel with one place. `Put` sends with the lock held and
drops the token if the place is taken; the demoter takes the lock for `victim` and
for the end of `moveDown` only. A critical section is one step here, so a run is any
interleaving of `Put`s, of the demoter and of one `Close`.
-/

namespace Repkgs.Jigd

open Lib

/-- Where the goroutine of the demoter stands. -/
inductive Phase
  | waiting
  | checking
  | moving (id : Nat)
  | exited
  deriving DecidableEq

/-- A store with its demoter. `store.kicked` says that the channel holds a token,
`failed` that a `moveDown` has failed, `panicked` that a `Put` has sent on the closed
channel. -/
structure DemoterWorld where
  store : Store
  disk : Disk
  phase : Phase
  channelClosed : Bool
  failed : Bool
  panicked : Bool

/-- What `OpenStore` returns: the demoter is started, and nothing was sent to it. -/
def DemoterWorld.init (s : Store) (d : Disk) : DemoterWorld := ⟨s, d, .waiting, false, false, false⟩

inductive DemoterMove
  | put (key : Bytes) (size : Int) (r : Bytes) (now : Int) (io : PutIO)
  | receive
  | check
  | finish (io : MoveIO)
  | markClosed
  | closeChannel
  | sealActive (order : Shuffle)

/-- `Put`, from a store whose channel is looked at apart. -/
def DemoterWorld.putOutcome (w : DemoterWorld) (key : Bytes) (size : Int) (r : Bytes) (now : Int)
    (io : PutIO) : Outcome Store :=
  Store.put { w.store with kicked := false } w.disk key size r now io

/-- One critical section, or one operation on the channel. -/
def DemoterWorld.step (w : DemoterWorld) : DemoterMove → Option DemoterWorld
  | .put key size r now io =>
      let o := w.putOutcome key size r now io
      some { w with
        store := { o.state with kicked := w.store.kicked || o.state.kicked }
        disk := w.disk.applyAll o.ops
        panicked := w.panicked || (o.state.kicked && w.channelClosed) }
  | .receive =>
      if w.phase = .waiting then
        if w.store.kicked then
          some { w with store := { w.store with kicked := false }, phase := .checking }
        else if w.channelClosed then some { w with phase := .exited }
        else none
      else none
  | .check =>
      if w.phase = .checking then
        match w.store.victim with
        | none => some { w with phase := .waiting }
        | some p => some { w with phase := .moving p.id }
      else none
  | .finish io =>
      match w.phase with
      | .moving id =>
          (w.store.packs.lookup id).map fun p =>
            let o := w.store.moveDown w.disk p io
            { w with
              store := o.state
              disk := w.disk.applyAll o.ops
              phase := if o.ok then .checking else .waiting
              failed := w.failed || !o.ok }
      | _ => none
  | .markClosed =>
      if w.store.closed then none
      else some { w with store := { w.store with closed := true } }
  | .closeChannel =>
      if w.store.closed && !w.channelClosed then some { w with channelClosed := true } else none
  | .sealActive order =>
      if w.phase = .exited then
        (w.store.packs.lookup w.store.active).map fun a =>
          { w with disk := FileOp.apply w.disk (w.store.seal a order) }
      else none

/-- The demoter is blocked on the empty channel. -/
def DemoterWorld.Asleep (w : DemoterWorld) : Prop :=
  w.phase = .waiting ∧ w.store.kicked = false ∧ w.channelClosed = false

/-- A sleeping demoter has nothing to do, unless a `moveDown` has failed. -/
def DemoterWorld.Quiet (w : DemoterWorld) : Prop :=
  w.Asleep → w.failed = false → w.store.victim = none

/-- A `Put` that seals the active pack of a tier over its budget and then fails. -/
def DemoterWorld.SealsUnnoticed (w : DemoterWorld) : DemoterMove → Prop
  | .put key size r now io => w.Asleep ∧ w.failed = false ∧ w.store.OverBudget 0 ∧
      (w.putOutcome key size r now io).ok = false ∧
      (w.putOutcome key size r now io).state.active ≠ w.store.active
  | _ => False

/-- A new pack does not take the id of the pack that is being moved. -/
def DemoterWorld.KeepsIds (w : DemoterWorld) : DemoterMove → Prop
  | .put key size r now io => ∀ id, w.phase = .moving id →
      (w.putOutcome key size r now io).state.active ≠ id
  | _ => True

/-- The store after `rotate` has started a pack. -/
def Store.started (s : Store) (now : Int) : Store :=
  { s with
    packs := s.packs.insert (u32 (s.active + 1)) ⟨u32 (s.active + 1), 0, 0, 0, now, now⟩
    active := u32 (s.active + 1) }

theorem rotate_cases (s : Store) (d : Disk) (now : Int) (io : PutIO) :
    ((s.rotate d now io).ok = false ∧ (s.rotate d now io).state = s) ∨
      ((s.rotate d now io).ok = true ∧ (s.rotate d now io).state = s.started now) := by
  unfold Store.rotate
  split
  · exact Or.inl ⟨rfl, rfl⟩
  · split
    · exact Or.inl ⟨rfl, rfl⟩
    · simp only
      split
      · exact Or.inl ⟨rfl, rfl⟩
      · next c hc =>
          obtain ⟨-, rfl⟩ := of_startPack hc
          exact Or.inr ⟨rfl, rfl⟩

theorem append_cases (s : Store) (key body : Bytes) (now : Int) (io : PutIO) :
    ((s.append key body now io).ok = false ∧ (s.append key body now io).state = s) ∨
      ((s.append key body now io).ok = true ∧ ∃ a, s.packs.lookup s.active = some a ∧
        (s.append key body now io).state = s.record a key body) := by
  unfold Store.append
  split
  · exact Or.inl ⟨rfl, rfl⟩
  · next a ha =>
      simp only
      split
      · exact Or.inl ⟨rfl, rfl⟩
      · split
        · exact Or.inl ⟨rfl, rfl⟩
        · split
          · exact Or.inl ⟨rfl, rfl⟩
          · exact Or.inr ⟨rfl, a, ha, rfl⟩

/-- `Put` leaves the store as it is, or it starts a pack or not and then fails or
writes a record to the active pack. -/
theorem put_cases (s : Store) (d : Disk) (key : Bytes) (size : Int) (r : Bytes) (now : Int)
    (io : PutIO) :
    ((s.put d key size r now io).ok = false ∧ (s.put d key size r now io).state = s) ∨
      (s.closed = false ∧ ∃ s', (s' = s ∨ s' = s.started now) ∧
        (((s.put d key size r now io).ok = false ∧ (s.put d key size r now io).state = s') ∨
          ((s.put d key size r now io).ok = true ∧ ∃ a, s'.packs.lookup s'.active = some a ∧
            (s.put d key size r now io).state = s'.record a key (r.take size.toNat)))) := by
  unfold Store.put
  split
  · exact Or.inl ⟨rfl, rfl⟩
  · next hgood =>
      have hopen : s.closed = false := by
        simp only [Bool.or_eq_true, not_or, Bool.not_eq_true] at hgood
        exact hgood.2
      right
      refine ⟨hopen, ?_⟩
      unfold Store.putLocked
      simp only
      split
      · rcases rotate_cases s d now io with ⟨hok, hstate⟩ | ⟨hok, hstate⟩
        · rw [hok]
          exact ⟨s, Or.inl rfl, Or.inl ⟨hok, hstate⟩⟩
        · rw [hok, hstate]
          exact ⟨s.started now, Or.inr rfl, append_cases _ key _ now io⟩
      · exact ⟨s, Or.inl rfl, append_cases s key _ now io⟩

theorem u32_succ_ne (n : Nat) : u32 (n + 1) ≠ n := by
  simp only [u32]
  omega

/-- Every pack stands under its own id, and the active one in the first tier. -/
structure Store.Homed (s : Store) : Prop where
  keyed : s.Keyed
  home : ∃ a, s.packs.lookup s.active = some a ∧ a.tier = 0

variable {s : Store} {w : DemoterWorld} {move : DemoterMove}

theorem keyed_iff {c : Core} : c.Keyed ↔ ∀ {id q}, c.place? id = some q → q.id = id := by
  constructor
  · intro h id q hq
    obtain ⟨p, hp, rfl⟩ := of_place?_eq_some hq
    exact h hp
  · intro h id p hp
    exact h (place?_eq_some hp)

theorem overfull_iff {t : Nat} : s.Overfull t ↔
    s.OverBudget t ∧ ∃ id q, s.place? id = some q ∧ q.tier = t ∧ q.id ≠ s.active := by
  refine and_congr_right fun _ => ⟨?_, ?_⟩
  · rintro ⟨id, p, hp, hat, hne⟩
    exact ⟨id, p.place, place?_eq_some hp, hat, hne⟩
  · rintro ⟨id, q, hq, hat, hne⟩
    obtain ⟨p, hp, rfl⟩ := of_place?_eq_some hq
    exact ⟨id, p, hp, hat, hne⟩

/-- From `s` to `s'` nothing comes to a tier below the first one. -/
structure Upper (s s' : Store) : Prop where
  tiers : ∀ t, t ≠ 0 → s'.tiers[t]? = s.tiers[t]?
  place : ∀ {id q}, s'.place? id = some q → q.tier ≠ 0 → s.place? id = some q

theorem Upper.refl (s : Store) : Upper s s := ⟨fun _ _ => rfl, fun h _ => h⟩

theorem Upper.trans {s s' s'' : Store} (h : Upper s s') (h' : Upper s' s'') : Upper s s'' :=
  ⟨fun t ht => (h'.tiers t ht).trans (h.tiers t ht), fun hq ht => h.place (h'.place hq ht) ht⟩

/-- A tier below the first one is overfull only if it was before. -/
theorem Store.Homed.overfull_of_upper {s s' : Store} (h : s.Homed) (hup : Upper s s') {t : Nat}
    (ht : t ≠ 0) (hover : s'.Overfull t) : s.Overfull t := by
  rw [overfull_iff] at hover ⊢
  obtain ⟨⟨tier, htier, hpos, hlt⟩, id, q, hq, rfl, -⟩ := hover
  have hold := hup.place hq ht
  refine ⟨⟨tier, (hup.tiers _ ht).symm.trans htier, hpos, hlt⟩, id, q, hold, rfl, fun heq => ht ?_⟩
  -- the active pack is in the first tier
  obtain ⟨a, ha, hatier⟩ := h.home
  rw [keyed_iff.mp h.keyed hold] at heq
  rw [heq, place?_eq_some ha] at hold
  rw [← Option.some.inj hold]
  exact hatier

theorem started_place? (s : Store) (now : Int) (id : Nat) : (s.started now).place? id =
    if id = u32 (s.active + 1) then some ⟨u32 (s.active + 1), 0, 0⟩ else s.place? id :=
  place?_insert _ _ _ _

theorem Store.Homed.started (h : s.Homed) (now : Int) : (s.started now).Homed := by
  refine ⟨keyed_iff.mpr fun hq => ?_, _, AList.lookup_insert _, rfl⟩
  rw [started_place?] at hq
  split at hq
  · next heq => rw [← Option.some.inj hq, heq]
  · exact keyed_iff.mp h.keyed hq

theorem upper_started (s : Store) (now : Int) : Upper s (s.started now) := by
  refine ⟨fun _ _ => rfl, fun hq ht => ?_⟩
  rw [started_place?] at hq
  split at hq
  · rw [← Option.some.inj hq] at ht
    exact absurd rfl ht
  · exact hq

theorem Store.Homed.record (h : s.Homed) {a : Pack} (ha : s.packs.lookup s.active = some a)
    (key body : Bytes) :
    (s.record a key body).Homed ∧ Upper s (s.record a key body) := by
  have hid : a.id = s.active := h.keyed ha
  have hplace := record_place? ha hid key body
  obtain ⟨a', ha', htier⟩ := h.home
  obtain rfl : a = a' := Option.some.inj (ha.symm.trans ha')
  refine ⟨⟨keyed_iff.mpr fun hq => ?_, ?_⟩, fun t ht => ?_, fun hq ht => ?_⟩
  · rw [hplace] at hq
    split at hq
    · next heq => rw [← Option.some.inj hq, heq, hid]
    · exact keyed_iff.mp h.keyed hq
  · have hactive := hplace s.active
    rw [if_pos rfl] at hactive
    obtain ⟨p, hp, hpplace⟩ := of_place?_eq_some hactive
    exact ⟨p, hp, (congrArg Place.tier hpplace).trans htier⟩
  · simp only [Store.record, getElem?_addTotal, if_neg ht, add_zero]
    exact Option.map_id'
  · rw [hplace] at hq
    split at hq
    · rw [← Option.some.inj hq] at ht
      exact absurd htier ht
    · exact hq

/-- A record that brings the first tier over its budget wakes the demoter. -/
theorem record_kicked {a : Pack} {key body : Bytes} (h : (s.record a key body).kicked = false) :
    ¬ (s.record a key body).OverBudget 0 := by
  rintro ⟨tier, htier, hpos, hover⟩
  simp only [Store.record, Bool.or_eq_false_iff] at h htier
  rw [List.head?_eq_getElem?, htier, Option.any_some, Bool.and_eq_false_iff] at h
  simp [hpos, hover] at h

theorem Store.Homed.put (h : s.Homed) (d : Disk) (key : Bytes) (size : Int) (r : Bytes) (now : Int)
    (io : PutIO) : (s.put d key size r now io).state.Homed := by
  rcases put_cases s d key size r now io with ⟨-, hstate⟩ | ⟨-, s', hs', hcase⟩
  · rwa [hstate]
  · have hhomed : s'.Homed := by
      rcases hs' with rfl | rfl
      · exact h
      · exact h.started now
    rcases hcase with ⟨-, hstate⟩ | ⟨-, a, ha, hstate⟩
    · rwa [hstate]
    · rw [hstate]
      exact (hhomed.record ha key _).1

/-- `Put` from a store without overfull tiers: it leaves none, or it wakes the
demoter, or it fails after sealing a pack of the first tier over its budget. -/
theorem Store.Homed.put_overfull (h : s.Homed) (hnone : ∀ t, ¬ s.Overfull t) (d : Disk)
    (key : Bytes) (size : Int) (r : Bytes) (now : Int) (io : PutIO)
    (hkick : (s.put d key size r now io).state.kicked = false)
    (hfail : (s.put d key size r now io).ok = false →
      (s.put d key size r now io).state.active ≠ s.active → ¬ s.OverBudget 0) (t : Nat) :
    ¬ (s.put d key size r now io).state.Overfull t := by
  rcases put_cases s d key size r now io with ⟨-, hstate⟩ | ⟨-, s', hs', hcase⟩
  · rw [hstate]
    exact hnone t
  have hup : Upper s s' ∧ s'.Homed := by
    rcases hs' with rfl | rfl
    · exact ⟨Upper.refl _, h⟩
    · exact ⟨upper_started s now, h.started now⟩
  rcases hcase with ⟨hok, hstate⟩ | ⟨-, a, ha, hstate⟩
  · rw [hstate] at hfail ⊢
    rcases hs' with rfl | rfl
    · exact hnone t
    · rcases eq_or_ne t 0 with rfl | ht
      · exact fun hover => hfail hok (u32_succ_ne s.active) hover.1
      · exact fun hover => hnone t (h.overfull_of_upper hup.1 ht hover)
  · rw [hstate] at hkick ⊢
    rcases eq_or_ne t 0 with rfl | ht
    · exact fun hover => record_kicked hkick hover.1
    · exact fun hover => hnone t
        (h.overfull_of_upper (hup.1.trans (hup.2.record ha key _).2) ht hover)

/-- A `Put` that fails after sealing a pack of the first tier over its budget leaves
the pack to be moved, and wakes nobody. -/
theorem Store.Homed.put_unnoticed (h : s.Homed) {d : Disk} {key : Bytes} {size : Int} {r : Bytes}
    {now : Int} {io : PutIO} (hover : s.OverBudget 0) (hok : (s.put d key size r now io).ok = false)
    (hactive : (s.put d key size r now io).state.active ≠ s.active) :
    (s.put d key size r now io).state.kicked = s.kicked ∧
      (s.put d key size r now io).state.Overfull 0 := by
  rcases put_cases s d key size r now io with ⟨-, hstate⟩ | ⟨-, s', hs', hcase⟩
  · exact absurd (congrArg Store.active hstate) hactive
  rcases hcase with ⟨-, hstate⟩ | ⟨hok', -⟩
  · rw [hstate] at hactive ⊢
    rcases hs' with rfl | rfl
    · exact absurd rfl hactive
    · obtain ⟨a, ha, htier⟩ := h.home
      refine ⟨rfl, overfull_iff.mpr ⟨hover, s.active, a.place, ?_, htier, ?_⟩⟩
      · rw [started_place?, if_neg (u32_succ_ne s.active).symm, place?_eq_some ha]
      · exact (h.keyed ha).trans_ne (u32_succ_ne s.active).symm
  · rw [hok] at hok'
    cases hok'

/-- What holds between two steps whatever happens: the pack that is being moved is
not the active one, and the channel is closed only after the store is. -/
structure DemoterWorld.Sound (w : DemoterWorld) : Prop where
  homed : w.store.Homed
  moving : ∀ id, w.phase = .moving id → id ≠ w.store.active
  closing : w.channelClosed = true → w.store.closed = true
  calm : w.panicked = false

theorem Store.Homed.moveDown (h : s.Homed) (d : Disk) {id : Nat} {p : Pack}
    (hp : s.packs.lookup id = some p) (hne : id ≠ s.active) (io : MoveIO) :
    (s.moveDown d p io).state.Homed ∧ (s.moveDown d p io).state.active = s.active ∧
      (s.moveDown d p io).state.closed = s.closed := by
  have hsame : (s.moveDown d p io).state.active = s.active ∧
      (s.moveDown d p io).state.closed = s.closed := by
    unfold Store.moveDown
    split
    · exact ⟨rfl, rfl⟩
    · unfold Store.demote
      split_ifs <;> exact ⟨rfl, rfl⟩
  obtain ⟨a, ha, htier⟩ := h.home
  have hid : s.active ≠ p.id := fun heq => hne ((h.keyed hp).symm.trans heq.symm)
  refine ⟨⟨h.keyed.moveDown d p io, a, ?_, htier⟩, hsame⟩
  rw [hsame.1]
  unfold Store.moveDown
  split
  · exact (Map.lookup_erase_eq _ _ _).trans (by rw [if_neg hid, ha])
  · unfold Store.demote
    split_ifs
    · exact ha
    · exact ha
    · exact ha
    · exact (Map.lookup_adjust _ _ _ _).trans (by rw [if_neg hid, ha])

theorem put_closed (s : Store) (d : Disk) (key : Bytes) (size : Int) (r : Bytes) (now : Int)
    (io : PutIO) : (s.put d key size r now io).state.closed = s.closed ∧
      (s.closed = true → (s.put d key size r now io).state = s) := by
  rcases put_cases s d key size r now io with ⟨-, hstate⟩ | ⟨hopen, s', hs', hcase⟩
  · rw [hstate]
    exact ⟨rfl, fun _ => rfl⟩
  · have hclosed : s'.closed = s.closed := by
      rcases hs' with rfl | rfl <;> rfl
    refine ⟨?_, fun h => absurd (h.symm.trans hopen) (by decide)⟩
    rcases hcase with ⟨-, hstate⟩ | ⟨-, a, -, hstate⟩
    · rw [hstate, hclosed]
    · rw [hstate]
      exact hclosed

theorem DemoterWorld.Sound.step {w w' : DemoterWorld} (h : w.Sound) (hkeeps : w.KeepsIds move)
    (hstep : w.step move = some w') : w'.Sound := by
  cases move with
  | put key size r now io =>
      obtain ⟨hclosed, hsame⟩ :=
        put_closed { w.store with kicked := false } w.disk key size r now io
      have hhomed : Store.Homed { w.store with kicked := false } := ⟨h.homed.keyed, h.homed.home⟩
      have hput := hhomed.put w.disk key size r now io
      rw [← Option.some.inj hstep]
      refine ⟨⟨hput.keyed, hput.home⟩, fun id hid => (hkeeps id hid).symm,
        fun hchan => hclosed.trans (h.closing hchan), ?_⟩
      simp only [h.calm, Bool.false_or, Bool.and_eq_false_iff]
      by_cases hchan : w.channelClosed = true
      · left
        rw [DemoterWorld.putOutcome, hsame (h.closing hchan)]
      · exact Or.inr (Bool.not_eq_true _ ▸ hchan)
  | receive =>
      simp only [DemoterWorld.step] at hstep
      split_ifs at hstep with hphase hkick hchan
      · rw [← Option.some.inj hstep]
        exact ⟨⟨h.homed.keyed, h.homed.home⟩, fun _ hid => absurd hid (by simp), h.closing, h.calm⟩
      · rw [← Option.some.inj hstep]
        exact ⟨h.homed, fun _ hid => absurd hid (by simp), h.closing, h.calm⟩
  | check =>
      simp only [DemoterWorld.step] at hstep
      split_ifs at hstep with hphase
      cases hvictim : w.store.victim with
      | none =>
          rw [hvictim] at hstep
          rw [← Option.some.inj hstep]
          exact ⟨h.homed, fun _ hid => absurd hid (by simp), h.closing, h.calm⟩
      | some p =>
          rw [hvictim] at hstep
          rw [← Option.some.inj hstep]
          refine ⟨h.homed, fun id hid => ?_, h.closing, h.calm⟩
          rw [← Phase.moving.inj hid]
          exact (victim_chosen h.homed.keyed hvictim).sealed
  | finish io =>
      simp only [DemoterWorld.step] at hstep
      split at hstep
      · next id hphase =>
          obtain ⟨p, hp, hw'⟩ := Option.map_eq_some_iff.mp hstep
          obtain ⟨hhomed, hactive, hclosed⟩ :=
            h.homed.moveDown w.disk hp (h.moving id hphase) io
          rw [← hw']
          refine ⟨hhomed, fun i hi => ?_, fun hchan => hclosed.trans (h.closing hchan), h.calm⟩
          simp only at hi
          split_ifs at hi
      · cases hstep
  | markClosed =>
      simp only [DemoterWorld.step] at hstep
      split_ifs at hstep
      rw [← Option.some.inj hstep]
      exact ⟨⟨h.homed.keyed, h.homed.home⟩, h.moving, fun _ => rfl, h.calm⟩
  | closeChannel =>
      simp only [DemoterWorld.step] at hstep
      split_ifs at hstep with hclosed
      rw [← Option.some.inj hstep]
      exact ⟨h.homed, h.moving, fun _ => (Bool.and_eq_true_iff.mp hclosed).1, h.calm⟩
  | sealActive order =>
      simp only [DemoterWorld.step] at hstep
      split_ifs at hstep
      obtain ⟨a, -, hw'⟩ := Option.map_eq_some_iff.mp hstep
      rw [← hw']
      exact ⟨h.homed, h.moving, h.closing, h.calm⟩

/-- A quiet system stays quiet, unless a pack is sealed unnoticed. -/
theorem DemoterWorld.Sound.quiet_step {w w' : DemoterWorld} (h : w.Sound) (hquiet : w.Quiet)
    (hnoticed : ¬ w.SealsUnnoticed move) (hstep : w.step move = some w') : w'.Quiet := by
  rintro ⟨hphase, hkick, hchan⟩ hfailed
  cases move with
  | put key size r now io =>
      rw [← Option.some.inj hstep] at hphase hkick hchan hfailed ⊢
      obtain ⟨hkick, hsend⟩ := Bool.or_eq_false_iff.mp hkick
      have hasleep : w.Asleep := ⟨hphase, hkick, hchan⟩
      have hhomed : Store.Homed { w.store with kicked := false } := ⟨h.homed.keyed, h.homed.home⟩
      have hnone := victim_eq_none_iff.mp (hquiet hasleep hfailed)
      refine victim_eq_none_iff.mpr (hhomed.put_overfull hnone w.disk key size r now io hsend ?_)
      exact fun hok hactive hover => hnoticed ⟨hasleep, hfailed, hover, hok, hactive⟩
  | receive =>
      simp only [DemoterWorld.step] at hstep
      split_ifs at hstep with hwaiting hkicked hclosed
      · rw [← Option.some.inj hstep] at hphase
        cases hphase
      · rw [← Option.some.inj hstep] at hphase
        cases hphase
  | check =>
      simp only [DemoterWorld.step] at hstep
      split_ifs at hstep with hchecking
      cases hvictim : w.store.victim with
      | none =>
          rw [hvictim] at hstep
          rw [← Option.some.inj hstep]
          exact hvictim
      | some p =>
          rw [hvictim] at hstep
          rw [← Option.some.inj hstep] at hphase
          cases hphase
  | finish io =>
      simp only [DemoterWorld.step] at hstep
      split at hstep
      · obtain ⟨p, hp, hw'⟩ := Option.map_eq_some_iff.mp hstep
        rw [← hw'] at hphase hfailed
        obtain ⟨-, hok⟩ := Bool.or_eq_false_iff.mp hfailed
        simp only [Bool.not_eq_false'] at hok
        simp only [hok, if_true] at hphase
        cases hphase
      · cases hstep
  | markClosed =>
      simp only [DemoterWorld.step] at hstep
      split_ifs at hstep
      rw [← Option.some.inj hstep] at hphase hkick hchan hfailed ⊢
      exact hquiet ⟨hphase, hkick, hchan⟩ hfailed
  | closeChannel =>
      simp only [DemoterWorld.step] at hstep
      split_ifs at hstep
      rw [← Option.some.inj hstep] at hchan
      cases hchan
  | sealActive order =>
      simp only [DemoterWorld.step] at hstep
      split_ifs at hstep with hexited
      obtain ⟨a, -, hw'⟩ := Option.map_eq_some_iff.mp hstep
      rw [← hw'] at hphase
      cases hexited.symm.trans hphase

/-- Sealing a pack unnoticed leaves the demoter asleep with something to do. -/
theorem DemoterWorld.Sound.not_quiet (h : w.Sound) (hseals : w.SealsUnnoticed move) :
    ∃ w', w.step move = some w' ∧ ¬ w'.Quiet := by
  cases move with
  | put key size r now io =>
      obtain ⟨⟨hphase, hkick, hchan⟩, hfailed, hover, hok, hactive⟩ := hseals
      have hhomed : Store.Homed { w.store with kicked := false } := ⟨h.homed.keyed, h.homed.home⟩
      obtain ⟨hsend, hfull⟩ := hhomed.put_unnoticed hover hok hactive
      refine ⟨_, rfl, fun hquiet => ?_⟩
      refine victim_eq_none_iff.mp (hquiet ⟨hphase, ?_, hchan⟩ hfailed) 0 hfull
      exact Bool.or_eq_false_iff.mpr ⟨hkick, hsend⟩
  | receive => exact hseals.elim
  | check => exact hseals.elim
  | finish io => exact hseals.elim
  | markClosed => exact hseals.elim
  | closeChannel => exact hseals.elim
  | sealActive order => exact hseals.elim

/-- A run is quiet throughout exactly when it begins so and seals no pack unnoticed. -/
theorem DemoterWorld.Sound.always_quiet_iff (h : w.Sound) {moves : List DemoterMove}
    (hkeeps : Along DemoterWorld.KeepsIds DemoterWorld.step w moves) :
    Always DemoterWorld.Quiet DemoterWorld.step w moves ↔
      w.Quiet ∧ Along (fun w move => ¬ w.SealsUnnoticed move) DemoterWorld.step w moves := by
  induction moves generalizing w with
  | nil => exact always_nil.trans (and_iff_left trivial).symm
  | cons move moves ih =>
      rw [always_cons]
      refine and_congr_right fun hquiet => ⟨fun hall => ⟨fun hseals => ?_, fun t ht => ?_⟩, ?_⟩
      · obtain ⟨t, ht, hnot⟩ := h.not_quiet hseals
        exact hnot ((ih (h.step hkeeps.1 ht) (hkeeps.2 t ht)).mp (hall t ht)).1
      · exact ((ih (h.step hkeeps.1 ht) (hkeeps.2 t ht)).mp (hall t ht)).2
      · rintro ⟨hnoticed, hrest⟩ t ht
        exact (ih (h.step hkeeps.1 ht) (hkeeps.2 t ht)).mpr
          ⟨h.quiet_step hquiet hnoticed ht, hrest t ht⟩

theorem DemoterWorld.Sound.always_calm (h : w.Sound) {moves : List DemoterMove}
    (hkeeps : Along DemoterWorld.KeepsIds DemoterWorld.step w moves) :
    Always (fun w => w.panicked = false) DemoterWorld.step w moves := by
  induction moves generalizing w with
  | nil => exact always_nil.mpr h.calm
  | cons move moves ih =>
      exact always_cons.mpr ⟨h.calm, fun t ht => ih (h.step hkeeps.1 ht) (hkeeps.2 t ht)⟩

namespace Core.Keyed

variable {c : Core}

theorem enter (h : c.Keyed) (p : Pack) :
    Core.Keyed { c with packs := c.packs.insert p.id p } := by
  intro i q hq
  by_cases hi : i = p.id
  · rw [hi, AList.lookup_insert] at hq
    rw [hi, ← Option.some.inj hq]
  · rw [AList.lookup_insert_ne hi] at hq
    exact h hq

theorem foldl_add (h : c.Keyed) (es : List (Bytes × Loc)) : (es.foldl Core.add c).Keyed := by
  apply keyed_iff.mpr
  intro i q hq
  rw [(Jigd.foldl_add es c).2.1 i] at hq
  exact keyed_iff.mp h hq

theorem resize (h : c.Keyed) (p : Pack) (n : Nat) : (c.resize p n).Keyed := by
  intro i q hq
  rw [Core.resize, Map.lookup_adjust] at hq
  split at hq
  · obtain ⟨p', hp', rfl⟩ := Option.map_eq_some_iff.mp hq
    have hid : p'.id = i := h hp'
    exact hid
  · exact h hq

theorem loadScan (h : c.Keyed) (p : Pack) (bytes : Bytes) (now : Int) (io : LoadIO) :
    (c.loadScan p bytes now io).state.Keyed := by
  have hscan := h.foldl_add (scanLocs p.id 0 (recordFormat.readAll bytes).1)
  unfold Core.loadScan
  simp only
  split
  · exact hscan
  · split
    · exact hscan.resize p _
    · exact hscan.resize p _

/-- `load` enters a pack under its id, whether it succeeds or not. -/
theorem load (h : c.Keyed) (d : Disk) (t id : Nat) (now : Int) (io : LoadIO) :
    (c.load d t id now io).state.Keyed := by
  unfold Core.load
  split
  · exact h
  · next f hf =>
      have henter := h.enter ⟨id, t, f.bytes.length, 0, f.mtime, f.mtime⟩
      split
      · exact h
      · simp only
        split
        · exact henter.foldl_add _
        · exact henter.loadScan _ _ _ _

end Core.Keyed

theorem openPack_keyed {o : Opening} (h : o.core.Keyed) (now : Int) (io : OpenIO) (t : Nat)
    (name : Bytes) : (openPack now io t o name).core.Keyed := by
  unfold openPack
  split
  · exact h
  · split
    · exact h
    · exact h.load _ _ _ _ _

theorem openTiers_keyed (budgets : List Int) (d : Disk) (now : Int) (io : OpenIO) :
    (openTiers budgets d now io).core.Keyed := by
  have hnames : ∀ (t : Nat) (names : List Bytes) (o : Opening), o.core.Keyed →
      (names.foldl (openPack now io t) o).core.Keyed := by
    intro t names
    induction names with
    | nil => exact fun o h => h
    | cons name names ih => exact fun o h => ih _ (openPack_keyed h now io t name)
  have htiers : ∀ (ts : List Nat) (o : Opening), o.core.Keyed →
      (ts.foldl (openTier now io) o).core.Keyed := by
    intro ts
    induction ts with
    | nil => exact fun o h => h
    | cons t ts ih => exact fun o h => ih _ (hnames t _ o h)
  exact htiers _ _ fun id q hq => by simp at hq

theorem openStore_homed {budgets : List Int} {d : Disk} {now : Int} {io : OpenIO}
    (h : (openStore budgets d now io).state = some s) : s.Homed ∧ s.kicked = false := by
  unfold openStore at h
  simp only at h
  split at h
  · cases h
  · next c hc =>
      obtain ⟨-, rfl⟩ := of_startPack hc
      rw [← Option.some.inj h]
      refine ⟨⟨?_, _, AList.lookup_insert _, rfl⟩, rfl⟩
      exact (openTiers_keyed budgets d now io).enter ⟨_, 0, 0, 0, now, now⟩

/-- The demoter of a store that was just opened, with the directories as they are now. -/
def DemoterWorld.opened (budgets : List Int) (d : Disk) (now : Int) (io : OpenIO) (s : Store) :
    DemoterWorld :=
  .init s (d.applyAll (openStore budgets d now io).ops)

/-- No `Put` sends on the closed channel. The demoter never sleeps over a victim
exactly when `OpenStore` left none and no `Put`, while the demoter sleeps, seals a
pack of the first tier over its budget and fails. -/
theorem demoter_woken_iff (budgets : List Int) (d : Disk) (now : Int) (io : OpenIO) (s : Store)
    (hopen : (openStore budgets d now io).state = some s) (moves : List DemoterMove)
    (hkeeps : Along DemoterWorld.KeepsIds DemoterWorld.step (.opened budgets d now io s) moves) :
    Always (fun w => w.panicked = false) DemoterWorld.step (.opened budgets d now io s) moves ∧
    (Always DemoterWorld.Quiet DemoterWorld.step (.opened budgets d now io s) moves ↔
      s.victim = none ∧ Along (fun w move => ¬ w.SealsUnnoticed move) DemoterWorld.step
        (.opened budgets d now io s) moves) := by
  obtain ⟨hhomed, hkicked⟩ := openStore_homed hopen
  have hsound : (DemoterWorld.opened budgets d now io s).Sound :=
    ⟨hhomed, fun _ hid => absurd hid (by simp [DemoterWorld.opened, DemoterWorld.init]),
      fun hchan => absurd hchan (by simp [DemoterWorld.opened, DemoterWorld.init]), rfl⟩
  refine ⟨hsound.always_calm hkeeps, (hsound.always_quiet_iff hkeeps).trans ?_⟩
  refine and_congr_left fun _ => ⟨fun hquiet => ?_, fun hnone _ _ => hnone⟩
  exact hquiet ⟨rfl, hkicked, rfl⟩ rfl

/-- A directory with one pack, of a record with a key and a value of one byte. -/
def smallPack : Disk :=
  Disk.empty.applyAll [.create 0 1 0, .write 0 1 0 (Record.write ⟨[107], [1]⟩) 0]

/-- Within its budget the store is opened without a victim, and stays quiet when a
record brings it over the budget. -/
theorem demoter_woken_iff_smallPack : ∃ s, (openStore [15] smallPack 0 OpenIO.good).state = some s ∧
    Always DemoterWorld.Quiet DemoterWorld.step (.opened [15] smallPack 0 OpenIO.good s)
      [.put [108] 1 [2] 0 PutIO.good, .receive, .check] := by
  obtain ⟨s, hs⟩ : ∃ s, (openStore [15] smallPack 0 OpenIO.good).state = some s :=
    Option.isSome_iff_exists.mp (by decide +kernel)
  have hvictim : ((openStore [15] smallPack 0 OpenIO.good).state.map fun s => s.victim.isNone) =
      some true := by decide +kernel
  have hput : ((openStore [15] smallPack 0 OpenIO.good).state.map fun s =>
      ((DemoterWorld.opened [15] smallPack 0 OpenIO.good s).putOutcome [108] 1 [2] 0
        PutIO.good).ok) = some true := by decide +kernel
  rw [hs, Option.map_some] at hvictim hput
  refine ⟨s, hs, (demoter_woken_iff [15] smallPack 0 OpenIO.good s hs _ ?_).2.mpr ⟨?_, ?_⟩⟩
  · exact ⟨fun id hid => absurd hid (by simp [DemoterWorld.opened, DemoterWorld.init]),
      fun _ _ => ⟨trivial, fun _ _ => ⟨trivial, fun _ _ => trivial⟩⟩⟩
  · exact Option.isNone_iff_eq_none.mp (Option.some.inj hvictim)
  · refine ⟨fun hseals => ?_, fun _ _ => ⟨id, fun _ _ => ⟨id, fun _ _ => trivial⟩⟩⟩
    exact absurd (hseals.2.2.2.1.symm.trans (Option.some.inj hput)) (by decide)

/-- A store that is over its budget when it is opened stays so: the demoter sleeps
from the start. -/
theorem opened_over_budget_sleeps :
    ¬ ∀ (budgets : List Int) (d : Disk) (now : Int) (io : OpenIO) (s : Store)
      (moves : List DemoterMove),
      (openStore budgets d now io).state = some s →
      Along DemoterWorld.KeepsIds DemoterWorld.step (.opened budgets d now io s) moves →
      Always DemoterWorld.Quiet DemoterWorld.step (.opened budgets d now io s) moves := by
  intro h
  obtain ⟨s, hs⟩ : ∃ s, (openStore [5] smallPack 0 OpenIO.good).state = some s :=
    Option.isSome_iff_exists.mp (by decide +kernel)
  have hquiet := always_nil.mp (h [5] smallPack 0 OpenIO.good s [] hs trivial)
  have hnone := hquiet ⟨rfl, (openStore_homed hs).2, rfl⟩ rfl
  have hvictim : (((openStore [5] smallPack 0 OpenIO.good).state.bind Store.victim).map Pack.id) =
      some 1 := by decide +kernel
  rw [hs, Option.bind_some] at hvictim
  rw [show s.victim = none from hnone] at hvictim
  cases hvictim

end Repkgs.Jigd
