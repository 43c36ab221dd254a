import Repkgs.Jigd.OpenWorld

/-!
# `Get` answers with the last `Put`

For every run of one process lifetime. Pack ids are `uint32` and the next id is
computed without a check, so the statement is about runs that stay below the
last of them.
-/

namespace Repkgs.Jigd

open Lib

/-- The next pack id does not wrap around. -/
def NoWrap (w : World) (_ : Op) : Prop := w.store.active + 1 < 2 ^ 32

instance (w : World) (op : Op) : Decidable (NoWrap w op) :=
  inferInstanceAs (Decidable (w.store.active + 1 < 2 ^ 32))

theorem tracks_step {evs : List Event} {w w' : World} {op : Op} (hw : Placed w)
    (h : Tracks evs w) (hids : NoWrap w op) (hstep : w.step op = some w') :
    Placed w' ∧ Tracks (evs ++ w.events op) w' := by
  obtain ⟨o, ho, rfl⟩ := Option.map_eq_some_iff.mp hstep
  have hexec : Executes (2 ^ 32) False w o (w.events op) :=
    step_executes hw False.elim hids (Nat.le_refl _) ho
  exact ⟨hw.chain hexec.full, h.chain hw hexec.full⟩

theorem tracks_run {evs : List Event} {w w' : World} {ops : List Op} (hw : Placed w)
    (h : Tracks evs w) (hids : Along NoWrap World.step w ops)
    (hrun : run World.step w ops = some w') :
    Placed w' ∧ Tracks (evs ++ w.history ops) w' := by
  induction ops generalizing evs w with
  | nil =>
      cases hrun
      rw [World.history, List.append_nil]
      exact ⟨hw, h⟩
  | cons op ops ih =>
      obtain ⟨u, hu, hrest⟩ := run_cons_eq_some.mp hrun
      obtain ⟨hwu, hu'⟩ := tracks_step hw h hids.1 hu
      have hdone := ih hwu hu' (hids.2 u hu) hrest
      rw [List.append_assoc] at hdone
      rw [World.history, hu]
      exact hdone

/-- In every run of a lifetime, `Get` answers with the last value stored under
the key, from this lifetime or found by `OpenStore`, and with nothing exactly
when there is none or its pack was deleted; a failed `Put` changes no answer. -/
theorem get_answers_lastStored {budgets : List Int} {d : Disk} {now : Int} {io : OpenIO}
    {w₀ w : World} {ops : List Op} (hd : Readable d budgets.length) (hio : io.Faultless)
    (hopen : openWorld budgets d now io = some w₀)
    (hids : Along NoWrap World.step w₀ ops) (hrun : run World.step w₀ ops = some w) :
    (∀ key, w.answer key = (expected (w₀.contents ++ w₀.history ops) key).map some) ∧
      ∀ key size r now io, (w.store.put w.disk key size r now io).ok = false →
        w.store.active + 1 < 2 ^ 32 → ∀ k,
          ((w.store.put w.disk key size r now io).world w.disk).answer k = w.answer k := by
  obtain ⟨done, hopened⟩ := openWorld_spec hd hio hopen
  obtain ⟨hw, htracks⟩ := tracks_run hopened.placed hopened.tracks hids hrun
  refine ⟨htracks.answer hw, ?_⟩
  intro key size r now io hfail hid k
  have hstep := tracks_step hw htracks hid (rfl : w.step (.put key size r now io) = _)
  rw [World.events, hfail, if_neg Bool.false_ne_true, List.append_nil] at hstep
  rw [htracks.answer hw, hstep.2.answer hstep.1]

/-- All system calls of a `Put` succeed. -/
def PutIO.good : PutIO := ⟨false, false, false, false, 2 ^ 32, 2 ^ 32, false, Shuffle.none⟩

theorem readable_empty (tiers : Nat) : Readable Disk.empty tiers :=
  ⟨by simp [Disk.bytes?, Disk.pack?, Disk.empty], by simp [Disk.bytes?, Disk.pack?, Disk.empty]⟩

/-- `OpenStore` without a failing system call. -/
def OpenIO.good : OpenIO := ⟨fun _ _ => LoadIO.faultless Shuffle.none, false⟩

def smallPut : Op := .put [97] 1 [1] 0 PutIO.good

/-- Of an 11 byte body that looks like a record, 10 bytes are written, and the roll-back
fails too. -/
def forgingPut : Op :=
  .put [97] 11 [1, 0, 0, 0, 1, 0, 0, 0, 99, 5, 0] 0
    { PutIO.good with bodyWritten := 10, truncateFails := true }

/-- A second `Put` of the key stops after five bytes of its header. -/
def tornPut : List Op :=
  [smallPut, .put [97] 2 [2, 3] 0 { PutIO.good with hdrWritten := 5 }]

theorem get_answers_lastStored_tornPut : ∃ w₀ w,
    openWorld [1, 0] Disk.empty 0 OpenIO.good = some w₀ ∧
    run World.step w₀ tornPut = some w ∧ w.answer [97] = some (some [1]) := by
  obtain ⟨w₀, w, hopen, hids, hrun, hexpected⟩ : ∃ w₀ w,
      openWorld [1, 0] Disk.empty 0 OpenIO.good = some w₀ ∧
      Along NoWrap World.step w₀ tornPut ∧ run World.step w₀ tornPut = some w ∧
      expected (w₀.contents ++ w₀.history tornPut) [97] = some [1] :=
    ⟨_, _, rfl, by decide, rfl, by decide⟩
  have hanswer := (get_answers_lastStored (readable_empty 2) (fun _ _ => ⟨_, rfl⟩) hopen hids
    hrun).1 [97]
  rw [hexpected] at hanswer
  exact ⟨w₀, w, hopen, hrun, hanswer⟩

end Repkgs.Jigd
