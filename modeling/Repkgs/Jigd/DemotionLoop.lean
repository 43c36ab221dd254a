import Mathlib.Data.Prod.Lex
import Repkgs.Jigd.Accounting

/-!
# The demotion loop

`demoter` asks `victim` for a pack and moves it down a tier, until nobody has a
pack to give. Moving a pack can push the next tier over its budget, so no single
tier bounds the loop. What falls is the distance of all packs to the end of the
last tier, where they are deleted.
-/

namespace Repkgs.Jigd

open Lib

/-- Mostly superseded packs first, then the least recently used, then the lowest id. -/
def Pack.rank (p : Pack) : Bool ×ₗ Int ×ₗ Nat := toLex (!p.stale, toLex (p.used, p.id))

theorem Pack.before_iff (p q : Pack) : p.before q = true ↔ p.rank < q.rank := by
  rw [Pack.rank, Pack.rank, Prod.Lex.toLex_lt_toLex, Prod.Lex.toLex_lt_toLex, Pack.before]
  cases p.stale <;> cases q.stale <;> simp

/-- Every pack stands under its own id. -/
def Core.Keyed (c : Core) : Prop := ∀ ⦃id p⦄, c.packs.lookup id = some p → p.id = id

/-- A tier that has a budget and exceeds it. -/
def Store.OverBudget (s : Store) (t : Nat) : Prop :=
  ∃ tier, s.tiers[t]? = some tier ∧ 0 < tier.budget ∧ tier.budget < tier.total

/-- A tier over its budget that has a pack other than the active one. -/
def Store.Overfull (s : Store) (t : Nat) : Prop :=
  s.OverBudget t ∧ ∃ id p, s.packs.lookup id = some p ∧ p.tier = t ∧ p.id ≠ s.active

/-- `p` leaves the first overfull tier, and none of the sealed packs there comes before it. -/
structure Store.Chosen (s : Store) (p : Pack) : Prop where
  lookup : s.packs.lookup p.id = some p
  sealed : p.id ≠ s.active
  overfull : s.Overfull p.tier
  first : ∀ t < p.tier, ¬ s.Overfull t
  least : ∀ {id q}, s.packs.lookup id = some q → q.tier = p.tier → q.id ≠ s.active → q ≠ p →
    p.rank < q.rank

variable {s : Store} {t : Nat} {p : Pack}

theorem mem_candidates :
    p ∈ s.candidates t ↔ (∃ id, s.packs.lookup id = some p) ∧ p.tier = t ∧ p.id ≠ s.active := by
  simp only [Store.candidates, List.mem_filter, List.mem_map, Prod.exists, exists_eq_right,
    Map.mem_toPairs, Bool.and_eq_true, beq_iff_eq, bne_iff_ne]

/-- The head of a sorted list of packs has the least rank. -/
theorem head?_insertionSort {packs : List Pack}
    (h : (packs.insertionSort fun p q => q.before p = false).head? = some p) :
    p ∈ packs ∧ ∀ q ∈ packs, p.rank ≤ q.rank := by
  have hle : ∀ p q : Pack, q.before p = false ↔ p.rank ≤ q.rank := fun p q => by
    rw [← not_lt, ← Pack.before_iff, Bool.not_eq_true]
  have : IsTrans Pack fun p q => q.before p = false :=
    ⟨fun a b c hab hbc => (hle a c).mpr (((hle a b).mp hab).trans ((hle b c).mp hbc))⟩
  have : Std.Total fun p q : Pack => q.before p = false :=
    ⟨fun a b => (le_total a.rank b.rank).imp (hle a b).mpr (hle b a).mpr⟩
  have hsorted := List.pairwise_insertionSort (fun p q : Pack => q.before p = false) packs
  have hmem : ∀ q, q ∈ packs.insertionSort (fun p q => q.before p = false) ↔ q ∈ packs :=
    fun q => List.mem_insertionSort _
  cases hlist : packs.insertionSort (fun p q => q.before p = false) with
  | nil =>
      rw [hlist] at h
      cases h
  | cons a rest =>
      rw [hlist] at h hsorted hmem
      obtain rfl : a = p := Option.some.inj h
      refine ⟨(hmem a).mp (.head _), fun q hq => ?_⟩
      rcases List.mem_cons.mp ((hmem q).mpr hq) with rfl | hq
      · exact le_rfl
      · exact (hle a q).mp ((List.pairwise_cons.mp hsorted).1 q hq)

/-- In front of a number of the range stand the smaller ones. -/
theorem mem_front_of_range {n t t' : Nat} {front back : List Nat}
    (h : List.range n = front ++ t :: back) (hlt : t' < t) : t' ∈ front := by
  have hn : t < n := List.mem_range.mp (h ▸ List.mem_append_right _ (.head _))
  have hlen : front.length < n := by
    have := congrArg List.length h
    rw [List.length_range, List.length_append, List.length_cons] at this
    omega
  have ht : front.length = t := by
    have hat := congrArg (fun l : List Nat => l[front.length]?) h
    simpa [List.getElem?_append_right, hlen] using hat
  have hat := congrArg (fun l : List Nat => l[t']?) h
  simp only [List.getElem?_range (hlt.trans hn), List.getElem?_append_left (ht ▸ hlt)] at hat
  exact List.mem_of_getElem? hat.symm

/-- What `victim` finds in one tier. -/
def Store.victimIn (s : Store) (t : Nat) : Option Pack :=
  s.tiers[t]?.bind fun tier =>
    if tier.budget ≤ 0 ∨ tier.total ≤ tier.budget then none
    else ((s.candidates t).insertionSort fun p q => q.before p = false).head?

theorem victim_eq (s : Store) : s.victim = (List.range s.tiers.length).findSome? s.victimIn := rfl

theorem victimIn_eq_some (h : s.victimIn t = some p) :
    s.OverBudget t ∧ p ∈ s.candidates t ∧ ∀ q ∈ s.candidates t, p.rank ≤ q.rank := by
  obtain ⟨tier, htier, hhead⟩ := Option.bind_eq_some_iff.mp h
  split_ifs at hhead with hin
  rw [not_or, not_le, not_le] at hin
  exact ⟨⟨tier, htier, hin⟩, head?_insertionSort hhead⟩

theorem victimIn_eq_none_iff : s.victimIn t = none ↔ ¬ s.Overfull t := by
  constructor
  · rintro hnone ⟨⟨tier, htier, hpos, hover⟩, id, p, hp, hat, hne⟩
    have hmem : p ∈ s.candidates t := mem_candidates.mpr ⟨⟨id, hp⟩, hat, hne⟩
    rw [Store.victimIn, htier, Option.bind_some, if_neg (by omega), List.head?_eq_none_iff] at hnone
    have hempty := (List.mem_insertionSort fun p q : Pack => q.before p = false).mpr hmem
    rw [hnone] at hempty
    exact List.not_mem_nil hempty
  · intro hnot
    by_contra hsome
    obtain ⟨p, hp⟩ := Option.ne_none_iff_exists'.mp hsome
    obtain ⟨hover, hmem, -⟩ := victimIn_eq_some hp
    obtain ⟨⟨id, hid⟩, hat, hne⟩ := mem_candidates.mp hmem
    exact hnot ⟨hover, id, p, hid, hat, hne⟩

theorem Store.Overfull.lt_length (h : s.Overfull t) : t < s.tiers.length := by
  obtain ⟨⟨tier, htier, -⟩, -⟩ := h
  exact (List.getElem?_eq_some_iff.mp htier).1

/-- There is no victim exactly when every tier is within its budget or has no
pack to give. -/
theorem victim_eq_none_iff : s.victim = none ↔ ∀ t, ¬ s.Overfull t := by
  rw [victim_eq, List.findSome?_eq_none_iff]
  constructor
  · intro h t hover
    exact victimIn_eq_none_iff.mp (h t (List.mem_range.mpr hover.lt_length)) hover
  · exact fun h t _ => victimIn_eq_none_iff.mpr (h t)

theorem victim_chosen (hkeyed : s.Keyed) (h : s.victim = some p) :
    s.Chosen p := by
  rw [victim_eq, List.findSome?_eq_some_iff] at h
  obtain ⟨front, t, back, hrange, hp, hfront⟩ := h
  obtain ⟨hover, hmem, hleast⟩ := victimIn_eq_some hp
  obtain ⟨⟨id, hid⟩, rfl, hne⟩ := mem_candidates.mp hmem
  refine ⟨(hkeyed hid).symm ▸ hid, hne, ⟨hover, id, p, hid, rfl, hne⟩, fun t ht => ?_, ?_⟩
  · exact victimIn_eq_none_iff.mp (hfront t (mem_front_of_range hrange ht))
  · intro i q hq hat hsealed hqp
    refine lt_of_le_of_ne (hleast q (mem_candidates.mpr ⟨⟨i, hq⟩, hat, hsealed⟩)) fun heq => hqp ?_
    have hsame : p.id = q.id := by
      have := congrArg (fun r => (ofLex (ofLex r).2).2) heq
      exact this
    rw [hkeyed hid, hkeyed hq] at hsame
    rw [hsame, hq] at hid
    exact Option.some.inj hid

/-- How the inner loop of `demoter` ended: the store and the directories, the
store and the pack of every round, and whether the last `moveDown` succeeded. -/
structure LoopEnd where
  store : Store
  disk : Disk
  rounds : List (Store × Pack)
  ok : Bool
  deriving DecidableEq

/-- The inner loop of `demoter`; `none` if it is still going after `fuel` rounds.
Which system calls fail in a round is an input. -/
def demoteLoop : Nat → (Nat → MoveIO) → Store → Disk → Option LoopEnd
  | 0, _, _, _ => none
  | fuel + 1, io, s, d =>
      match s.victim with
      | none => some ⟨s, d, [], true⟩
      | some p =>
          let r := s.moveDown d p (io 0)
          let d := d.applyAll r.ops
          if r.ok then
            (demoteLoop fuel (fun n => io (n + 1)) r.state d).map fun e =>
              { e with rounds := (s, p) :: e.rounds }
          else some ⟨r.state, d, [(s, p)], false⟩

/-- The moves until every pack is deleted. -/
def Store.work (s : Store) : Nat := Map.sum s.packs fun _ p => s.tiers.length - p.tier

theorem Core.Keyed.evict {s : Store} (h : s.Keyed) (p : Pack) : (s.evict p).state.Keyed := by
  intro id q hq
  simp only [Store.evict, Map.lookup_erase_eq] at hq
  split_ifs at hq
  exact h hq

theorem Core.Keyed.demote (h : s.Keyed) (d : Disk) (p : Pack) (io : MoveIO) :
    (s.demote d p io).state.Keyed := by
  intro id q hq
  unfold Store.demote at hq
  split_ifs at hq
  · exact h hq
  · exact h hq
  · exact h hq
  · simp only [Map.lookup_adjust] at hq
    split_ifs at hq with hid
    · obtain ⟨q', hq', rfl⟩ := Option.map_eq_some_iff.mp hq
      have hid : q'.id = id := h hq'
      exact hid
    · exact h hq

theorem Core.Keyed.moveDown (h : s.Keyed) (d : Disk) (p : Pack) (io : MoveIO) :
    (s.moveDown d p io).state.Keyed := by
  unfold Store.moveDown
  split
  · exact h.evict p
  · exact h.demote d p io

/-- Every successful move brings one pack one tier closer to its end. -/
theorem Store.Chosen.work_moveDown (h : s.Chosen p) (d : Disk) (io : MoveIO)
    (hok : (s.moveDown d p io).ok = true) : (s.moveDown d p io).state.work + 1 = s.work := by
  have hlt := h.overfull.lt_length
  unfold Store.moveDown at hok ⊢
  split_ifs at hok ⊢ with hlast
  · have hsum := Map.sum_erase s.packs p.id fun _ q => s.tiers.length - q.tier
    rw [Map.part_of_some h.lookup] at hsum
    simp only [Store.work, Store.evict, addTotal_length]
    omega
  · unfold Store.demote at hok ⊢
    split_ifs at hok ⊢
    have hsum := Map.sum_adjust s.packs p.id (fun q => { q with tier := q.tier + 1 })
      fun _ q => s.tiers.length - q.tier
    rw [Map.part_of_some h.lookup, Map.part_of_some h.lookup] at hsum
    simp only [Store.work, addTotal_length] at hsum ⊢
    omega

/-- The loop ends after at most `work` moves, every one of a chosen pack, and if no
move failed there is no victim left. -/
theorem demoteLoop_spec (fuel : Nat) (io : Nat → MoveIO) (hkeyed : s.Keyed) (d : Disk)
    (hfuel : s.work < fuel) : ∃ e, demoteLoop fuel io s d = some e ∧
      (∀ round ∈ e.rounds, round.1.Chosen round.2) ∧ (e.ok = true → e.store.victim = none) := by
  induction fuel generalizing io s d with
  | zero => omega
  | succ fuel ih =>
      rw [demoteLoop]
      cases hvictim : s.victim with
      | none =>
          exact ⟨_, rfl, fun _ hround => absurd hround List.not_mem_nil, fun _ => hvictim⟩
      | some p =>
          have hchosen := victim_chosen hkeyed hvictim
          simp only
          split_ifs with hok
          · have hwork := hchosen.work_moveDown d (io 0) hok
            obtain ⟨e, he, hrounds, hend⟩ := ih (fun n => io (n + 1))
              (hkeyed.moveDown d p (io 0)) (d.applyAll (s.moveDown d p (io 0)).ops) (by omega)
            refine ⟨{ e with rounds := (s, p) :: e.rounds }, by rw [he]; rfl,
              fun round hround => ?_, hend⟩
            rcases List.mem_cons.mp hround with rfl | hround
            · exact hchosen
            · exact hrounds round hround
          · refine ⟨_, rfl, fun round hround => ?_, fun h => absurd h (by simp)⟩
            rw [List.mem_singleton.mp hround]
            exact hchosen

/-- The loop ends. If no `moveDown` failed, every tier with a budget is within it or
holds nothing but the active pack. The pack of a round is sealed, is in the first
tier that is over its budget and has one to give, and comes first there. -/
theorem demoter_loop_ends (s : Store) (hkeyed : s.Keyed) (d : Disk) (io : Nat → MoveIO) :
    ∃ e, demoteLoop (s.work + 1) io s d = some e ∧
      (∀ round ∈ e.rounds, round.1.Chosen round.2) ∧
      (e.ok = true → ∀ t tier, e.store.tiers[t]? = some tier → 0 < tier.budget →
        tier.total ≤ tier.budget ∨
          ∀ id p, e.store.packs.lookup id = some p → p.tier = t → p.id = e.store.active) := by
  obtain ⟨e, he, hrounds, hend⟩ := demoteLoop_spec (s.work + 1) io hkeyed d (Nat.lt_succ_self _)
  refine ⟨e, he, hrounds, fun hok t tier htier hpos => ?_⟩
  by_contra hnot
  rw [not_or, not_le] at hnot
  obtain ⟨hover, hpack⟩ := hnot
  simp only [not_forall] at hpack
  obtain ⟨id, p, hp, hat, hne⟩ := hpack
  exact victim_eq_none_iff.mp (hend hok) t ⟨⟨tier, htier, hpos, hover⟩, id, p, hp, hat, hne⟩

/-- Two tiers; a sealed pack of 15 bytes has brought the first one over its budget,
and will do so with the second one. -/
def twoTiers : Store where
  tiers := [⟨10, 20⟩, ⟨10, 0⟩]
  index := ∅
  packs := AList.insert 1 ⟨1, 0, 15, 15, 0, 0⟩ (AList.insert 2 ⟨2, 0, 5, 5, 0, 0⟩ ∅)
  active := 2
  closed := false
  kicked := true

def twoTiersDisk : Disk := Disk.empty.applyAll [.create 0 1 0, .putHint 0 1 [], .create 0 2 0]

theorem demoter_loop_ends_twoTiers : ∃ e,
    demoteLoop (twoTiers.work + 1) (fun _ => ⟨false, false, false⟩) twoTiers twoTiersDisk = some e ∧
      e.rounds.length = 2 ∧
      ∀ t tier, e.store.tiers[t]? = some tier → 0 < tier.budget → tier.total ≤ tier.budget ∨
        ∀ id p, e.store.packs.lookup id = some p → p.tier = t → p.id = e.store.active := by
  have hkeyed : twoTiers.Keyed := by
    intro id p hp
    have hall : (Map.toPairs twoTiers.packs).all fun e => e.2.id = e.1 := by decide +kernel
    exact of_decide_eq_true (List.all_eq_true.mp hall _ (Map.mem_toPairs.mpr hp))
  obtain ⟨e, he, -, hend⟩ := demoter_loop_ends twoTiers hkeyed twoTiersDisk
    fun _ => ⟨false, false, false⟩
  have hresult : ((demoteLoop (twoTiers.work + 1) (fun _ => ⟨false, false, false⟩) twoTiers
      twoTiersDisk).map fun e => (e.rounds.length, e.ok)) = some (2, true) := by decide +kernel
  rw [he, Option.map_some, Option.some.injEq, Prod.mk.injEq] at hresult
  exact ⟨e, he, hresult.1, hend hresult.2⟩

end Repkgs.Jigd
