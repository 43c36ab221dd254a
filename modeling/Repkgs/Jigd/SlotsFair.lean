import Mathlib.Algebra.Ring.Int.Defs
import Repkgs.Lib.Runs
import Repkgs.Jigd.Slots

/-!
# Who gets a freed slot

Histories of `Acquire` and `Release`. The `Acquire` calls are numbered, and a
waiter bears the number of its call, so that a smaller number has waited longer.
While somebody waits every token is out: a `Release` then frees one token and
`grant` hands it to one waiter, the oldest of those whose builds hold the fewest.
-/

namespace Repkgs.Jigd

open Lib

/-- A call of a method of `Slots`. -/
inductive SlotCall
  | acquire (build : Bytes)
  | release (build : Bytes)
  deriving DecidableEq

def SlotCall.isRelease : SlotCall → Bool
  | .acquire _ => false
  | .release _ => true

/-- The slots, the number of `Acquire` calls so far, and the waiters that were
handed a token, in order. -/
structure Desk where
  slots : Slots
  calls : Nat
  handed : List Waiter
  deriving DecidableEq

def Desk.init (limit : Nat) : Desk := ⟨Slots.new limit, 0, []⟩

/-- One call. Only a token that was granted is released. -/
def Desk.step (d : Desk) : SlotCall → Option Desk
  | .acquire build => some ⟨(d.slots.acquire d.calls build).1, d.calls + 1, d.handed⟩
  | .release build =>
      if build ∈ d.slots.held then
        let r := d.slots.release build
        some ⟨r.1, d.calls, d.handed ++ r.2⟩
      else none

/-- A scan that changes its mind only for something strictly better finds the
first of the best. -/
theorem foldl_first_least {α : Type*} (f : α → Nat) (l : List α) (b : α) :
    (l.foldl (fun b p => if f p < f b then p else b) b = b ∧ ∀ p ∈ l, f b ≤ f p) ∨
      ∃ r front back, l.foldl (fun b p => if f p < f b then p else b) b = r ∧
        l = front ++ r :: back ∧ f r < f b ∧ (∀ p ∈ front, f r < f p) ∧ ∀ p ∈ back, f r ≤ f p := by
  induction l generalizing b with
  | nil => exact Or.inl ⟨rfl, fun p hp => absurd hp List.not_mem_nil⟩
  | cons p l ih =>
      rw [List.foldl_cons]
      by_cases hp : f p < f b
      · rw [if_pos hp]
        right
        rcases ih p with ⟨heq, hrest⟩ | ⟨r, front, back, heq, hl, hlt, hfront, hback⟩
        · exact ⟨p, [], l, heq, rfl, hp, fun q hq => absurd hq List.not_mem_nil, hrest⟩
        · refine ⟨r, p :: front, back, heq, by rw [hl]; rfl, hlt.trans hp, ?_, hback⟩
          intro q hq
          rcases List.mem_cons.mp hq with rfl | hq
          · exact hlt
          · exact hfront q hq
      · rw [if_neg hp]
        rcases ih b with ⟨heq, hrest⟩ | ⟨r, front, back, heq, hl, hlt, hfront, hback⟩
        · refine Or.inl ⟨heq, fun q hq => ?_⟩
          rcases List.mem_cons.mp hq with rfl | hq
          · exact not_lt.mp hp
          · exact hrest q hq
        · refine Or.inr ⟨r, p :: front, back, heq, by rw [hl]; rfl, hlt, ?_, hback⟩
          intro q hq
          rcases List.mem_cons.mp hq with rfl | hq
          · exact hlt.trans_le (not_lt.mp hp)
          · exact hfront q hq

/-- `grant` takes the first waiter of those with the fewest tokens out of the queue. -/
theorem best_first_least (held : Multiset Bytes) (w : Waiter) (ws : List Waiter) :
    ∃ x front back, best held w ws = (x, front.length) ∧ w :: ws = front ++ x :: back ∧
      (∀ v ∈ front, held.count x.build < held.count v.build) ∧
      ∀ v ∈ back, held.count x.build ≤ held.count v.build := by
  have hqueue : (w :: ws).zipIdx.map Prod.fst = w :: ws := List.zipIdx_map_fst 0 _
  rcases foldl_first_least (fun p : Waiter × Nat => held.count p.1.build) (w :: ws).zipIdx (w, 0)
    with ⟨heq, hall⟩ | ⟨r, front, back, heq, hl, -, hfront, hback⟩
  · refine ⟨w, [], ws, heq, rfl, fun v hv => absurd hv List.not_mem_nil, fun v hv => ?_⟩
    obtain ⟨p, hp, rfl⟩ := List.mem_map.mp (hqueue ▸ List.mem_cons_of_mem w hv)
    exact hall p hp
  · have hindex : r.2 = front.length := by
      have hat : (w :: ws).zipIdx[front.length]? = some r := by
        rw [hl, List.getElem?_append_right le_rfl, Nat.sub_self]
        rfl
      rw [List.getElem?_zipIdx] at hat
      obtain ⟨v, -, hv⟩ := Option.map_eq_some_iff.mp hat
      rw [← hv, Nat.zero_add]
    refine ⟨r.1, front.map Prod.fst, back.map Prod.fst, ?_, ?_, ?_, ?_⟩
    · rw [List.length_map, ← hindex]
      exact heq
    · rw [← hqueue, hl, List.map_append, List.map_cons]
    · intro v hv
      obtain ⟨p, hp, rfl⟩ := List.mem_map.mp hv
      exact hfront p hp
    · intro v hv
      obtain ⟨p, hp, rfl⟩ := List.mem_map.mp hv
      exact hback p hp

theorem grantLoop_of_full {s : Slots} (h : (s.limit : Int) ≤ s.out) (n : Nat) :
    s.grantLoop n = (s, []) := by
  cases n with
  | zero => rfl
  | succ n =>
      unfold Slots.grantLoop
      split
      · rfl
      · rw [if_neg (not_lt.mpr h)]

/-- The tokens that are out are the ones builds hold, the limit is kept, nobody
waits while a token is free, and the queue is in the order of the calls. -/
structure Desk.Orderly (d : Desk) : Prop where
  out_eq : d.slots.out = d.slots.held.card
  out_le : d.slots.out ≤ d.slots.limit
  full : d.slots.waiting ≠ [] → d.slots.out = d.slots.limit
  sorted : d.slots.waiting.Pairwise fun v w => v.conn < w.conn
  known : ∀ w ∈ d.slots.waiting, w.conn < d.calls

theorem Desk.orderly_init (limit : Nat) : (Desk.init limit).Orderly where
  out_eq := rfl
  out_le := Int.natCast_nonneg limit
  full h := absurd rfl h
  sorted := List.Pairwise.nil
  known _ hw := absurd hw List.not_mem_nil

/-- The `w` that is handed the token is the oldest of those whose builds hold the fewest. -/
def FewestThenOldest (held : Multiset Bytes) (waiting : List Waiter) (w : Waiter) : Prop :=
  ∀ v ∈ waiting, held.count w.build < held.count v.build ∨
    (held.count w.build = held.count v.build ∧ w.conn ≤ v.conn)

variable {d d' : Desk} {calls : List SlotCall}

/-- What `Release` does while nobody waits, and while somebody does. -/
theorem Desk.Orderly.release (h : d.Orderly) {build : Bytes}
    (hstep : d.step (.release build) = some d') : build ∈ d.slots.held ∧
    ((d.slots.waiting = [] ∧ d' = { d with slots :=
        { d.slots with out := d.slots.out - 1, held := d.slots.held.erase build } }) ∨
      ∃ w front back, d.slots.waiting = front ++ w :: back ∧
        FewestThenOldest (d.slots.held.erase build) d.slots.waiting w ∧
        d' = ⟨{ d.slots with
            held := w.build ::ₘ d.slots.held.erase build
            waiting := front ++ back }, d.calls, d.handed ++ [w]⟩) := by
  unfold Desk.step at hstep
  simp only at hstep
  split at hstep
  swap
  · cases hstep
  next hmem =>
  refine ⟨hmem, ?_⟩
  rw [← Option.some.inj hstep]
  cases hwaiting : d.slots.waiting with
  | nil =>
      left
      simp [Slots.release, Slots.grant, hwaiting, Slots.grantLoop]
  | cons w ws =>
      right
      have hfull : d.slots.out = d.slots.limit :=
        h.full (hwaiting ▸ List.cons_ne_nil w ws)
      obtain ⟨x, front, back, hbest, hqueue, hfront, hback⟩ :=
        best_first_least (d.slots.held.erase build) w ws
      refine ⟨x, front, back, hqueue, ?_, ?_⟩
      · intro v hv
        rw [hqueue] at hv
        have hsorted := h.sorted
        rw [hwaiting, hqueue, List.pairwise_append, List.pairwise_cons] at hsorted
        rcases List.mem_append.mp hv with hv | hv
        · exact Or.inl (hfront v hv)
        · rcases List.mem_cons.mp hv with rfl | hv
          · exact Or.inr ⟨rfl, le_rfl⟩
          · exact (hback v hv).lt_or_eq.imp_right fun heq => ⟨heq, (hsorted.2.1.1 v hv).le⟩
      · have hrelease : d.slots.release build = (⟨d.slots.limit, d.slots.out,
            x.build ::ₘ d.slots.held.erase build, front ++ back⟩, [x]) := by
          have hlt : d.slots.out - 1 < d.slots.limit := by omega
          have herase : (front ++ x :: back).eraseIdx front.length = front ++ back := by
            rw [List.eraseIdx_append_of_length_le le_rfl, Nat.sub_self]
            rfl
          simp only [Slots.release, Slots.grant, hwaiting, List.length_cons, Slots.grantLoop,
            if_pos hlt, hbest]
          rw [grantLoop_of_full (by simp only; omega), hqueue, herase, sub_add_cancel]
        simp only [hrelease]

theorem Desk.Orderly.step {call : SlotCall} (h : d.Orderly) (hstep : d.step call = some d') :
    d'.Orderly := by
  cases call with
  | acquire build =>
      rw [← Option.some.inj hstep]
      unfold Slots.acquire
      split
      · next hfree =>
          have hnone := List.length_eq_zero_iff.mp hfree.2
          refine ⟨?_, ?_, fun hne => absurd hnone hne, h.sorted, fun w hw => ?_⟩
          · simp [h.out_eq]
          · simp only
            omega
          · exact (h.known w hw).trans (Nat.lt_succ_self _)
      · next hbusy =>
          refine ⟨h.out_eq, h.out_le, fun _ => ?_, ?_, ?_⟩
          · rw [List.length_eq_zero_iff] at hbusy
            by_cases hnone : d.slots.waiting = []
            · have hle := h.out_le
              simp only [hnone, and_true] at hbusy
              simp only
              omega
            · exact h.full hnone
          · simp only [List.pairwise_append, List.pairwise_cons, List.mem_singleton]
            refine ⟨h.sorted, ⟨fun v hv => absurd hv List.not_mem_nil, List.Pairwise.nil⟩, ?_⟩
            rintro v hv w rfl
            exact h.known v hv
          · intro w hw
            rcases List.mem_append.mp hw with hw | hw
            · exact (h.known w hw).trans (Nat.lt_succ_self _)
            · rw [List.mem_singleton.mp hw]
              exact Nat.lt_succ_self _
  | release build =>
      obtain ⟨hmem, ⟨hnone, rfl⟩ | ⟨w, front, back, hqueue, -, rfl⟩⟩ := h.release hstep
      · have hcard := Multiset.card_erase_of_mem hmem
        have hpos := Multiset.card_pos_iff_exists_mem.mpr ⟨build, hmem⟩
        have hout := h.out_eq
        have hle := h.out_le
        refine ⟨?_, ?_, fun hne => absurd hnone hne, h.sorted, h.known⟩
        · simp only [hcard, Nat.pred_eq_sub_one]
          omega
        · simp only
          omega
      · have hsub : (front ++ back).Sublist d.slots.waiting := by
          rw [hqueue]
          exact (List.Sublist.refl front).append (List.sublist_cons_self w back)
        have hne : d.slots.waiting ≠ [] := by simp [hqueue]
        refine ⟨?_, h.out_le, fun _ => h.full hne, h.sorted.sublist hsub, ?_⟩
        · rw [Multiset.card_cons, Multiset.card_erase_add_one hmem]
          exact h.out_eq
        · exact fun v hv => h.known v (hsub.subset hv)

theorem Desk.orderly_of_run {limit : Nat} (h : run Desk.step (Desk.init limit) calls = some d) :
    d.Orderly :=
  run_invariant (fun _ _ _ => Desk.Orderly.step) (Desk.orderly_init limit) h

/-- The waiters that queued before `w`. -/
def Desk.ahead (d : Desk) (w : Waiter) : List Waiter :=
  d.slots.waiting.filter fun v => v.conn < w.conn

/-- As long as `w` waits, its build holds no token. -/
def Desk.HoldsNothing (w : Waiter) (d : Desk) (_ : SlotCall) : Prop :=
  w ∈ d.slots.waiting → d.slots.held.count w.build = 0

instance (w : Waiter) (d : Desk) (call : SlotCall) : Decidable (d.HoldsNothing w call) :=
  inferInstanceAs (Decidable (w ∈ d.slots.waiting → d.slots.held.count w.build = 0))

/-- One call while `w` waits: a request goes behind it, and a freed token goes to
it or to somebody ahead of it. -/
theorem Desk.Orderly.step_waiting {call : SlotCall} {w : Waiter} (h : d.Orderly)
    (hw : w ∈ d.slots.waiting) (hnothing : d.slots.held.count w.build = 0)
    (hstep : d.step call = some d') :
    (call.isRelease = false ∧ d'.handed = d.handed ∧ w ∈ d'.slots.waiting ∧
        d'.ahead w = d.ahead w) ∨
      (call.isRelease = true ∧ d'.handed = d.handed ++ [w]) ∨
      (call.isRelease = true ∧ ∃ v, v.conn < w.conn ∧ d'.handed = d.handed ++ [v] ∧
        w ∈ d'.slots.waiting ∧ (d'.ahead w).length + 1 = (d.ahead w).length) := by
  cases call with
  | acquire build =>
      left
      rw [← Option.some.inj hstep]
      have hbusy : ¬ (d.slots.out < d.slots.limit ∧ d.slots.waiting.length = 0) := fun hfree =>
        List.ne_nil_of_mem hw (List.length_eq_zero_iff.mp hfree.2)
      have hlast : ¬ d.calls < w.conn := (h.known w hw).le.not_gt
      simp only [Slots.acquire, if_neg hbusy, Desk.ahead, SlotCall.isRelease, true_and]
      refine ⟨List.mem_append_left _ hw, ?_⟩
      simp [List.filter_append, hlast]
  | release build =>
      right
      obtain ⟨-, ⟨hnone, -⟩ | ⟨v, front, back, hqueue, hchosen, rfl⟩⟩ := h.release hstep
      · exact absurd hnone (List.ne_nil_of_mem hw)
      by_cases hvw : v = w
      · exact Or.inl ⟨rfl, by rw [hvw]⟩
      · right
        -- nobody holds fewer than `w`, so the chosen one is not younger
        have hzero : (d.slots.held.erase build).count w.build = 0 :=
          Nat.le_zero.mp (hnothing ▸ Multiset.count_le_of_le _ (Multiset.erase_le _ _))
        have hsorted := h.sorted
        rw [hqueue, List.pairwise_append, List.pairwise_cons] at hsorted
        have hback : w ∈ back := by
          rw [hqueue] at hw
          rcases List.mem_append.mp hw with hw | hw
          · have hlt := hsorted.2.2 w hw v (.head _)
            have := hchosen w (by rw [hqueue]; exact List.mem_append_left _ hw)
            omega
          · exact (List.mem_cons.mp hw).resolve_left (Ne.symm hvw)
        have hlt : v.conn < w.conn := hsorted.2.1.1 w hback
        refine ⟨rfl, v, hlt, rfl, List.mem_append_right _ hback, ?_⟩
        have hkept : (v :: back).filter (fun u => decide (u.conn < w.conn)) =
            v :: back.filter fun u => decide (u.conn < w.conn) :=
          List.filter_cons_of_pos (decide_eq_true hlt)
        simp only [Desk.ahead, hqueue, List.filter_append, List.length_append, hkept,
          List.length_cons]
        omega

theorem Desk.handed_of_run (h : run Desk.step d calls = some d') : d.handed <+: d'.handed := by
  refine run_invariant (I := fun t => d.handed <+: t.handed)
    (fun s call t hs hstep => hs.trans ?_) (List.prefix_refl d.handed) h
  cases call with
  | acquire build =>
      cases Option.some.inj hstep
      exact List.prefix_refl s.handed
  | release build =>
      simp only [Desk.step] at hstep
      split_ifs at hstep
      rw [← Option.some.inj hstep]
      exact List.prefix_append _ _

/-- The whole time that `w` waits: nobody who came later is served, and it is
served when more tokens were freed than waiters were ahead of it. -/
theorem Desk.Orderly.run_waiting {w : Waiter} (h : d.Orderly) (hw : w ∈ d.slots.waiting)
    (hnothing : Along (Desk.HoldsNothing w) Desk.step d calls)
    (hrun : run Desk.step d calls = some d') :
    ∃ served, d'.handed = d.handed ++ served ∧
      (∀ front v, front ++ [v] <+: served → w ∉ front → v = w ∨ v.conn < w.conn) ∧
      ((d.ahead w).length < calls.countP SlotCall.isRelease → w ∈ served) := by
  induction calls generalizing d with
  | nil =>
      cases hrun
      refine ⟨[], (List.append_nil _).symm, fun front v hpre => ?_, fun hlt => absurd hlt (by simp)⟩
      simp at hpre
  | cons call calls ih =>
      obtain ⟨mid, hmid, hrest⟩ := run_cons_eq_some.mp hrun
      have hnext := hnothing.2 mid hmid
      rcases h.step_waiting hw (hnothing.1 hw) hmid with
        ⟨hcall, hhanded, hw', hahead⟩ | ⟨hcall, hhanded⟩ | ⟨hcall, v, hv, hhanded, hw', hahead⟩
      · obtain ⟨served, heq, hserved, hfreed⟩ := ih (h.step hmid) hw' hnext hrest
        refine ⟨served, by rw [heq, hhanded], hserved, fun hlt => hfreed ?_⟩
        rw [List.countP_cons, hcall] at hlt
        simpa [hahead] using hlt
      · obtain ⟨served, heq⟩ := Desk.handed_of_run hrest
        refine ⟨w :: served, by rw [← heq, hhanded, List.append_assoc]; rfl,
          fun front v hpre hnot => ?_, fun _ => (.head _)⟩
        cases front with
        | nil => exact Or.inl (List.cons_prefix_cons.mp hpre).1
        | cons x front =>
            rw [(List.cons_prefix_cons.mp hpre).1] at hnot
            exact absurd (.head _) hnot
      · obtain ⟨served, heq, hserved, hfreed⟩ := ih (h.step hmid) hw' hnext hrest
        refine ⟨v :: served, by rw [heq, hhanded, List.append_assoc]; rfl,
          fun front u hpre hnot => ?_, fun hlt => List.mem_cons_of_mem _ (hfreed ?_)⟩
        · cases front with
          | nil =>
              rw [(List.cons_prefix_cons.mp hpre).1]
              exact Or.inr hv
          | cons x front =>
              exact hserved front u (List.cons_prefix_cons.mp hpre).2
                fun hmem => hnot (.tail _ hmem)
        · rw [List.countP_cons, hcall, if_pos rfl] at hlt
          omega

/-- Every freed token goes to the oldest waiter of the builds that hold the fewest.
A waiter whose build holds none is overtaken by nobody who came later, and of the
tokens freed from now on it gets one of the first `k + 1`, with `k` waiters ahead. -/
theorem slots_fair (limit : Nat) (before : List SlotCall) (d : Desk)
    (hbefore : run Desk.step (Desk.init limit) before = some d) :
    (∀ build d', d.step (.release build) = some d' →
      (d.slots.waiting = [] ∧ d'.handed = d.handed) ∨
        ∃ w ∈ d.slots.waiting, d'.handed = d.handed ++ [w] ∧
          FewestThenOldest (d.slots.held.erase build) d.slots.waiting w) ∧
    (∀ w ∈ d.slots.waiting, ∀ after d', Along (Desk.HoldsNothing w) Desk.step d after →
      run Desk.step d after = some d' →
      ∃ served, d'.handed = d.handed ++ served ∧
        (∀ front v, front ++ [v] <+: served → w ∉ front → v = w ∨ v.conn < w.conn) ∧
        ((d.ahead w).length < after.countP SlotCall.isRelease → w ∈ served)) := by
  have h := Desk.orderly_of_run hbefore
  refine ⟨fun build d' hstep => ?_, fun w hw after d' hnothing hafter =>
    h.run_waiting hw hnothing hafter⟩
  obtain ⟨-, ⟨hnone, rfl⟩ | ⟨w, front, back, hqueue, hchosen, rfl⟩⟩ := h.release hstep
  · exact Or.inl ⟨hnone, rfl⟩
  · refine Or.inr ⟨w, ?_, rfl, hchosen⟩
    rw [hqueue]
    exact List.mem_append_right _ (.head _)

/-- One slot: build `a` holds it and waits for another, build `b` waits behind. -/
def probeQueued : Desk :=
  ⟨⟨1, 1, [ascii "a"], [⟨1, ascii "a"⟩, ⟨2, ascii "b"⟩]⟩, 3, []⟩

theorem slots_fair_probe : ∃ d' served,
    run Desk.step probeQueued [.release (ascii "a"), .acquire (ascii "a"), .release (ascii "a")] =
      some d' ∧ d'.handed = served ∧ ⟨2, ascii "b"⟩ ∈ served := by
  have hfair := slots_fair 1 [.acquire (ascii "a"), .acquire (ascii "a"), .acquire (ascii "b")]
    probeQueued (by decide +kernel)
  obtain ⟨d', hd'⟩ : ∃ d', run Desk.step probeQueued
      [.release (ascii "a"), .acquire (ascii "a"), .release (ascii "a")] = some d' :=
    Option.isSome_iff_exists.mp (by decide +kernel)
  obtain ⟨served, heq, -, hserved⟩ := hfair.2 ⟨2, ascii "b"⟩ (by decide +kernel) _ d'
    (by decide +kernel) hd'
  exact ⟨d', served, hd', heq, hserved (by decide +kernel)⟩

end Repkgs.Jigd
