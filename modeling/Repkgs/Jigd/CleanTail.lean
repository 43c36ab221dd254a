import Repkgs.Jigd.StepChain

/-!
# Nothing behind the last record

`Put` rolls a failed write back, so that between two operations the active pack
ends with its last record, as long as the roll-back itself works.
-/

namespace Repkgs.Jigd

open Lib

/-- The roll-back of a failed `Put` is not itself a failure. -/
def Op.UndoWorks : Op → Prop
  | .put _ _ _ _ io => io.truncateFails = false
  | _ => True

instance : (op : Op) → Decidable op.UndoWorks
  | .put _ _ _ _ io => inferInstanceAs (Decidable (io.truncateFails = false))
  | .get _ _ => isTrue trivial
  | .move _ _ => isTrue trivial

theorem truncateTo_length (bs : Bytes) (n : Nat) : (truncateTo bs n).length = n := by
  rw [truncateTo, List.length_append, List.length_take, List.length_replicate]
  omega

theorem writeAt_length {bs : Bytes} {n : Nat} (h : bs.length = n) (data : Bytes) :
    (writeAt bs n data).length = n + data.length := by
  have happend := writeAt_append bs [] data
  rw [List.append_nil, List.drop_nil, List.append_nil, h] at happend
  rw [happend, List.length_append, h]

variable {s : Store} {p : Pack} {w : World} {io : PutIO}

theorem clean_truncate (hp : s.packs.lookup s.active = some p) (d : Disk) (now : Int) :
    Clean ⟨s, FileOp.apply d (.truncate p.tier p.id p.size now)⟩ := by
  intro b bs hb hbs
  cases (place?_eq_some hp).symm.trans hb
  rw [show p.place.tier = p.tier from rfl, show p.place.id = p.id from rfl, bytes?_truncate,
    if_pos rfl] at hbs
  obtain ⟨bs', -, rfl⟩ := Option.map_eq_some_iff.mp hbs
  exact Nat.le_of_eq (truncateTo_length _ _)

/-- `append` leaves nothing behind, given that the roll-back works. -/
theorem append_clean (hw : Placed w) (hclean : Clean w) (key body : Bytes) (now : Int)
    (hio : io.truncateFails = false) :
    Clean ((w.store.append key body now io).world w.disk) := by
  obtain ⟨a, bs, ha, htier, hbs, hle⟩ := hw.active
  obtain ⟨p, hp, rfl⟩ := of_place?_eq_some ha
  have hid : p.id = w.store.active := hw.id_eq ha
  have hfile : w.disk.bytes? p.tier p.id = some bs := by
    rw [show p.tier = 0 from htier, hid]
    exact hbs
  have hlen : bs.length = p.size := Nat.le_antisymm (hclean p.place bs ha hfile) hle
  simp only [Store.append, hp, hio, Bool.false_eq_true, if_false]
  split
  · exact hclean
  split
  · exact clean_truncate hp _ now
  split
  · exact clean_truncate hp _ now
  · intro b bs' hb hbs'
    rw [Outcome.world] at hb
    have hactive : (w.store.record p key body).active = w.store.active := rfl
    rw [hactive, record_place? hp hid, if_pos rfl] at hb
    cases hb
    have hhdr := writeAt_length hlen (Record.header key body.length)
    simp only [Outcome.world, Disk.applyAll_cons] at hbs'
    by_cases hbody : body = []
    · subst hbody
      simp only [List.isEmpty_nil, if_true, Disk.applyAll_nil, bytes?_write, hfile,
        Option.map_some] at hbs'
      cases hbs'
      rw [hhdr, Record.header_length]
      simp
    · rw [if_neg (by simpa using hbody), Disk.applyAll_cons, Disk.applyAll_nil] at hbs'
      simp only [bytes?_write, if_true, hfile, Option.map_some] at hbs'
      cases hbs'
      rw [writeAt_length hhdr, Record.header_length]
      simp only
      omega

/-- A rotation that fails has at most written the hint file. -/
theorem rotate_of_not_ok {d : Disk} {now : Int} (h : ¬ (s.rotate d now io).ok = true) :
    (s.rotate d now io).state = s ∧
      ∀ x t id, (Disk.applyAll x (s.rotate d now io).ops).bytes? t id = x.bytes? t id := by
  unfold Store.rotate at h ⊢
  split at h
  · exact ⟨rfl, fun _ _ _ => rfl⟩
  · simp only at h ⊢
    split at h
    · next hseal =>
        rw [if_pos hseal]
        exact ⟨rfl, fun _ _ _ => rfl⟩
    · next hseal =>
        rw [if_neg hseal]
        split at h
        · exact ⟨rfl, fun _ _ _ => bytes?_putHint _ _ _ _ _ _⟩
        · exact absurd rfl h

theorem Clean.congr {w w' : World} (h : Clean w)
    (hactive : w'.store.active = w.store.active)
    (hplace : w'.store.place? w.store.active = w.store.place? w.store.active)
    (hbytes : ∀ t, w'.disk.bytes? t w.store.active = w.disk.bytes? t w.store.active)
    (hw : Placed w) : Clean w' := by
  intro a bs ha hbs
  rw [hactive, hplace] at ha
  have hid : a.id = w.store.active := hw.id_eq ha
  rw [hid, hbytes, ← hid] at hbs
  exact h a bs ha hbs

theorem put_clean (hw : Placed w) (hclean : Clean w) (hbound : w.store.active + 1 < 2 ^ 32)
    (key : Bytes) (size : Int) (r : Bytes) (now : Int) (hio : io.truncateFails = false) :
    Clean ((w.store.put w.disk key size r now io).world w.disk) := by
  unfold Store.put
  split
  · exact hclean
  · obtain ⟨a, -, ha, -⟩ := hw.active
    obtain ⟨p, hp, rfl⟩ := of_place?_eq_some ha
    have hrot : Executes (2 ^ 32) False w _ [] := rotate_executes hw hbound (Nat.le_refl _) now io
    simp only [Store.putLocked, hp, Option.any_some]
    split
    · split
      · next hok =>
          have happend := append_clean (hw.chain hrot.full) (rotate_clean hok) key
            (r.take size.toNat) now hio
          simp only [Outcome.world, Disk.applyAll_append] at happend ⊢
          exact happend
      · next hok =>
          obtain ⟨hstate, hbytes⟩ := rotate_of_not_ok hok
          rw [Outcome.world, hstate]
          exact hclean.congr rfl rfl (fun t => hbytes w.disk t _) hw
    · exact append_clean hw hclean key _ now hio

/-- Moving a sealed pack does not touch the active one. -/
theorem moveDown_keeps {id : Nat} (hp : s.packs.lookup id = some p) (hid : p.id = id)
    (hne : id ≠ s.active) (d : Disk) (io : MoveIO) :
    (s.moveDown d p io).state.active = s.active ∧
      (s.moveDown d p io).state.place? s.active = s.place? s.active ∧
      ∀ op ∈ (s.moveDown d p io).ops, op.target ≠ s.active := by
  have hother : s.active ≠ p.id := fun heq => hne (hid.symm.trans heq.symm)
  have htarget : ∀ {ops : List FileOp}, (∀ op ∈ ops, op.target = p.id) →
      ∀ op ∈ ops, op.target ≠ s.active :=
    fun hops op hop heq => hother (heq.symm.trans (hops op hop))
  unfold Store.moveDown Store.evict Store.demote
  split
  · exact ⟨rfl, (lookup_erase_place _ _ _).trans (if_neg hother), htarget (by simp [FileOp.target])⟩
  · split
    · exact ⟨rfl, rfl, htarget (by simp)⟩
    split
    · exact ⟨rfl, rfl, htarget (by simp [FileOp.target])⟩
    split
    · exact ⟨rfl, rfl, htarget (by simp [FileOp.target])⟩
    · exact ⟨rfl, (lookup_demoted_place (hid ▸ hp) _).trans (if_neg hother),
        htarget (by simp [FileOp.target])⟩

theorem moveDown_clean (hw : Placed w) (hclean : Clean w) {id : Nat}
    (hp : w.store.packs.lookup id = some p) (hne : id ≠ w.store.active) (io : MoveIO) :
    Clean ((w.store.moveDown w.disk p io).world w.disk) := by
  obtain ⟨hactive, hplace, htarget⟩ :=
    moveDown_keeps hp (hw.id_eq (place?_eq_some hp)) hne w.disk io
  exact hclean.congr hactive hplace (fun t => (applyAll_other htarget w.disk t).1) hw

theorem step_clean (hw : Placed w) (hclean : Clean w) (hbound : w.store.active + 1 < 2 ^ 32)
    {op : Op} (hop : op.UndoWorks) {o : Outcome Store} (h : w.outcome op = some o) :
    Clean (o.world w.disk) := by
  cases op with
  | put key size r now io =>
      cases h
      exact put_clean hw hclean hbound key size r now hop
  | get key now =>
      cases h
      unfold Store.touch
      split
      · exact hclean
      · refine hclean.congr rfl (lookup_adjust_same _ _ _ fun _ => rfl) ?_ hw
        intro t
        simp only [Outcome.world]
        split
        · exact bytes?_chtimes _ _ _ _ _ _
        · rfl
  | move id io =>
      obtain ⟨hne, p, hp, rfl⟩ := World.outcome_move h
      exact moveDown_clean hw hclean hp hne io

end Repkgs.Jigd
