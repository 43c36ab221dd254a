import Mathlib.Algebra.BigOperators.Group.Finset.Basic
import Mathlib.Algebra.Order.BigOperators.Group.Multiset
import Repkgs.Jigd.Serve

/-!
# Slot accounting over every interleaving

The tokens of a build are counted by `Slots.held` and once more by the
connections that hold them. Both accounts move together in every step: an
immediate grant, a hand-over to a waiter, `DONE` and the deferred loop.
-/

namespace Repkgs.Jigd

open Lib

/-- The two accounts agree, the limit is kept, and the queue names blocked goroutines. -/
structure Accounted (limit : Nat) (d : Daemon) : Prop where
  limit_eq : d.slots.limit = limit
  out_eq : d.slots.out = d.slots.held.card
  held_eq : d.slots.held = (d.conns.map Conn.tokens).sum
  out_le : d.slots.out ≤ limit
  full : d.slots.waiting ≠ [] → d.slots.out = limit
  nodup : (d.slots.waiting.map Waiter.conn).Nodup
  queued : ∀ w ∈ d.slots.waiting, ∃ held, d.conns[w.conn]? = some (.blocked w.build held)

def Conn.IsBlocked : Conn → Prop
  | .blocked _ _ => True
  | _ => False

theorem accounted_init (limit : Nat) : Accounted limit (Daemon.init limit) := by
  refine ⟨rfl, rfl, rfl, ?_, ?_, ?_, ?_⟩ <;> simp [Daemon.init, Slots.new]

variable {conns : List Conn} {i : Nat} {held : Multiset Bytes}

theorem wakeOne_getElem_ne {w : Waiter} (h : i ≠ w.conn) :
    (wakeOne conns w)[i]? = conns[i]? := by
  unfold wakeOne
  split
  · exact List.getElem?_set_ne h.symm
  · rfl

theorem wake_getElem_of_notMem {ws : List Waiter} (h : i ∉ ws.map Waiter.conn) :
    (wake conns ws)[i]? = conns[i]? := by
  induction ws generalizing conns with
  | nil => rfl
  | cons w ws ih =>
      simp only [List.map_cons, List.mem_cons, not_or] at h
      change (wake (wakeOne conns w) ws)[i]? = _
      rw [ih h.2, wakeOne_getElem_ne h.1]

/-- Waking blocked goroutines adds exactly the woken builds to what connections hold. -/
theorem wake_tokens {ws : List Waiter} (hnodup : (ws.map Waiter.conn).Nodup)
    (hblocked : ∀ w ∈ ws, ∃ held, conns[w.conn]? = some (.blocked w.build held)) :
    ((wake conns ws).map Conn.tokens).sum =
      (ws.map Waiter.build : Multiset Bytes) + (conns.map Conn.tokens).sum := by
  induction ws generalizing conns with
  | nil => simp [wake]
  | cons w ws ih =>
      obtain ⟨hnew, hrest⟩ := List.nodup_cons.mp hnodup
      obtain ⟨held, hheld⟩ := hblocked w (.head _)
      have hone : wakeOne conns w = conns.set w.conn (.granted w.build held) := by
        simp only [wakeOne, hheld]
      have hsum := sum_map_set Conn.tokens hheld (.granted w.build held)
      simp only [Conn.tokens] at hsum
      have hset : ((conns.set w.conn (.granted w.build held)).map Conn.tokens).sum =
          w.build ::ₘ (conns.map Conn.tokens).sum := by
        apply add_right_cancel (b := held)
        rw [hsum, Multiset.add_cons, Multiset.cons_add]
      change ((wake (wakeOne conns w) ws).map Conn.tokens).sum = _
      rw [hone, ih hrest, hset]
      · simp only [List.map_cons, ← Multiset.cons_coe, Multiset.cons_add, Multiset.add_cons]
      · intro v hv
        obtain ⟨held', hheld'⟩ := hblocked v (.tail _ hv)
        have hne : w.conn ≠ v.conn := by
          intro heq
          exact hnew (List.mem_map.mpr ⟨v, hv, heq.symm⟩)
        exact ⟨held', by rw [List.getElem?_set_ne hne, hheld']⟩

variable {limit : Nat} {d : Daemon} {c : Nat} {x y : Conn}

theorem Accounted.queued_set (h : Accounted limit d) (hc : d.conns[c]? = some x)
    (hx : ¬ x.IsBlocked) {w : Waiter} (hw : w ∈ d.slots.waiting) :
    ∃ held, (d.conns.set c y)[w.conn]? = some (.blocked w.build held) := by
  obtain ⟨held, hheld⟩ := h.queued w hw
  have hne : c ≠ w.conn := by
    intro heq
    rw [heq, hheld] at hc
    cases hc
    exact hx trivial
  exact ⟨held, by rw [List.getElem?_set_ne hne, hheld]⟩

/-- A connection that is not queued moves on without touching its tokens. -/
theorem Accounted.set (h : Accounted limit d) (hc : d.conns[c]? = some x)
    (hx : ¬ x.IsBlocked) (ht : y.tokens = x.tokens) :
    Accounted limit { d with conns := d.conns.set c y } := by
  refine ⟨h.limit_eq, h.out_eq, ?_, h.out_le, h.full, h.nodup, ?_⟩
  · have hsum := sum_map_set Conn.tokens hc y
    rw [ht] at hsum
    rw [h.held_eq]
    exact (add_right_cancel hsum).symm
  · intro w hw
    exact h.queued_set hc hx hw

theorem Accounted.acquire (h : Accounted limit d) (hc : d.conns[c]? = some (.reading held))
    (build : Bytes) :
    Accounted limit ⟨(d.slots.acquire c build).1, d.conns.set c
      (if (d.slots.acquire c build).2 then .granted build held else .blocked build held)⟩ := by
  unfold Slots.acquire
  split
  · next hfree =>
      have hsum := sum_map_set Conn.tokens hc (.granted build held)
      simp only [Conn.tokens] at hsum
      have hempty : d.slots.waiting = [] := List.length_eq_zero_iff.mp hfree.2
      refine ⟨h.limit_eq, ?_, ?_, ?_, ?_, h.nodup, ?_⟩
      · simp [h.out_eq]
      · apply add_right_cancel (b := held)
        simp only [↓reduceIte]
        rw [hsum, ← h.held_eq, Multiset.add_cons, Multiset.cons_add]
      · have hlimit := h.limit_eq
        simp only
        omega
      · simp [hempty]
      · simp [hempty]
  · next hbusy =>
      have hsum := sum_map_set Conn.tokens hc (.blocked build held)
      simp only [Conn.tokens] at hsum
      have hnew : c ∉ d.slots.waiting.map Waiter.conn := by
        intro hmem
        obtain ⟨w, hw, hwc⟩ := List.mem_map.mp hmem
        obtain ⟨held', hheld'⟩ := h.queued w hw
        rw [hwc, hc] at hheld'
        cases hheld'
      refine ⟨h.limit_eq, h.out_eq, ?_, h.out_le, ?_, ?_, ?_⟩
      · simp only [Bool.false_eq_true, ↓reduceIte]
        rw [h.held_eq]
        exact (add_right_cancel hsum).symm
      · intro _
        have hlimit := h.limit_eq
        have hle := h.out_le
        by_cases hw : d.slots.waiting = []
        · simp only [hw, List.length_nil, and_true] at hbusy
          simp only
          omega
        · exact h.full hw
      · simp only [List.map_append, List.map_cons, List.map_nil]
        exact List.nodup_append.mpr ⟨h.nodup, by simp, by
          intro a ha b hb heq
          simp only [List.mem_singleton] at hb
          exact hnew (hb ▸ heq ▸ ha)⟩
      · intro w hw
        rcases List.mem_append.mp hw with hold | hnewest
        · exact h.queued_set hc id hold
        · have hweq : w = ⟨c, build⟩ := by simpa using hnewest
          have hlt : c < d.conns.length := (List.getElem?_eq_some_iff.mp hc).1
          subst hweq
          exact ⟨held, by simp [hlt]⟩

/-- A connection returns one of its own tokens and the freed token is handed on. -/
theorem Accounted.releaseAs (h : Accounted limit d) (hc : d.conns[c]? = some x)
    (hx : ¬ x.IsBlocked) {build : Bytes} (ht : x.tokens = build ::ₘ y.tokens) :
    Accounted limit (d.releaseAs c build y) := by
  let freed : Slots := { d.slots with out := d.slots.out - 1, held := d.slots.held.erase build }
  have hgrant : Granted freed freed.grant.1 freed.grant.2 := grant_granted freed
  have hsum := sum_map_set Conn.tokens hc y
  have hheld : d.slots.held = build ::ₘ ((d.conns.set c y).map Conn.tokens).sum := by
    apply add_right_cancel (b := y.tokens)
    rw [h.held_eq, ← hsum, ht, Multiset.add_cons, Multiset.cons_add]
  have hfreed : freed.held = ((d.conns.set c y).map Conn.tokens).sum := by
    simp only [freed, hheld, Multiset.erase_cons_head]
  have hperm : d.slots.waiting.Perm (freed.grant.2 ++ freed.grant.1.waiting) := hgrant.perm
  have hnodup := (hperm.map Waiter.conn).nodup_iff.mp h.nodup
  rw [List.map_append] at hnodup
  obtain ⟨hnwoken, hnleft, hdisjoint⟩ := List.nodup_append.mp hnodup
  have hblocked : ∀ w ∈ freed.grant.2,
      ∃ held, (d.conns.set c y)[w.conn]? = some (.blocked w.build held) := by
    intro w hw
    exact h.queued_set hc hx (hperm.mem_iff.mpr (List.mem_append_left _ hw))
  have hcard : (d.slots.held.card : Int) = freed.held.card + 1 := by
    rw [hheld, hfreed]
    simp
  have hle : freed.grant.1.out ≤ limit := by
    have hlimit := h.limit_eq
    have hout := h.out_le
    have := hgrant.out_le (by simp only [freed]; omega)
    rw [hgrant.limit_eq] at this
    simpa [freed, hlimit] using this
  refine ⟨hgrant.limit_eq.trans h.limit_eq, ?_, ?_, hle, ?_, hnleft, ?_⟩
  · change freed.grant.1.out = freed.grant.1.held.card
    have hout : freed.out = d.slots.out - 1 := rfl
    have hkept := h.out_eq
    rw [hgrant.out_eq, hgrant.held_eq]
    simp only [Multiset.card_add, Multiset.coe_card, List.length_map]
    omega
  · change freed.grant.1.held = ((wake (d.conns.set c y) freed.grant.2).map Conn.tokens).sum
    rw [wake_tokens hnwoken hblocked, hgrant.held_eq, hfreed]
  · intro hwaiting
    rcases grant_full freed with hnone | hmax
    · exact absurd hnone hwaiting
    · have hlimit : freed.grant.1.limit = limit := hgrant.limit_eq.trans h.limit_eq
      rw [hlimit] at hmax
      exact le_antisymm hle hmax
  · intro w hw
    have hnot : w.conn ∉ freed.grant.2.map Waiter.conn := by
      intro hmem
      exact hdisjoint _ hmem _ (List.mem_map.mpr ⟨w, hw, rfl⟩) rfl
    obtain ⟨held, hheld'⟩ := h.queued_set (y := y) hc hx
      (hperm.mem_iff.mpr (List.mem_append_right _ hw))
    exact ⟨held, (wake_getElem_of_notMem hnot).trans hheld'⟩

theorem Accounted.request (h : Accounted limit d) (hc : d.conns[c]? = some (.reading held))
    (line : Bytes) (ok : Bool) :
    Accounted limit (d.request c held line ok) := by
  unfold Daemon.request
  split
  · next build _ => exact h.acquire hc build
  · next build _ =>
      split
      · next hmem => exact h.set hc id (Multiset.cons_erase hmem)
      · exact h.set hc id rfl
  · exact h.set hc id rfl
  · exact h.set hc id (by cases ok <;> rfl)

theorem Accounted.connect (h : Accounted limit d) (allowed : Bool) :
    Accounted limit
      { d with conns := d.conns ++ [if allowed then .reading 0 else .ended] } := by
  refine ⟨h.limit_eq, h.out_eq, ?_, h.out_le, h.full, h.nodup, ?_⟩
  · have hnew : (if allowed then Conn.reading 0 else Conn.ended).tokens = 0 := by
      cases allowed <;> rfl
    simp [h.held_eq, hnew]
  · intro w hw
    obtain ⟨held, hheld⟩ := h.queued w hw
    exact ⟨held, List.getElem?_append_left (List.getElem?_eq_some_iff.mp hheld).1 ▸ hheld⟩

/-- The connection whose goroutine takes the step. -/
def ServeLabel.conn : ServeLabel → Option Nat
  | .connect _ => none
  | .request c _ _ | .hangUp c | .resume c | .release c | .reply c _ | .unwind c _
  | .finish c => some c

/-- What a step does: a client connects, a request is read, a connection that is not queued
goes on with its tokens, or it returns one of them. -/
theorem serveStep_cases {l : ServeLabel} {e : Daemon} (hstep : serveStep d l = some e) :
    (∃ allowed : Bool,
      e = { d with conns := d.conns ++ [if allowed then .reading 0 else .ended] }) ∨
    ∃ c x, l.conn = some c ∧ d.conns[c]? = some x ∧ ¬ x.IsBlocked ∧
      ((∃ held line ok, x = .reading held ∧ e = d.request c held line ok) ∨
        (∃ y, e = { d with conns := d.conns.set c y } ∧ y.tokens = x.tokens) ∨
        ∃ build y, e = d.releaseAs c build y ∧ x.tokens = build ::ₘ y.tokens) := by
  cases l with
  | connect allowed =>
      cases hstep
      exact Or.inl ⟨allowed, rfl⟩
  | request c line ok =>
      simp only [serveStep] at hstep
      split at hstep <;> cases hstep
      next held hc => exact Or.inr ⟨c, _, rfl, hc, id, Or.inl ⟨held, line, ok, rfl, rfl⟩⟩
  | hangUp c | resume c =>
      simp only [serveStep] at hstep
      split at hstep <;> cases hstep
      next hc => exact Or.inr ⟨c, _, rfl, hc, id, Or.inr (Or.inl ⟨_, rfl, rfl⟩)⟩
  | reply c ok =>
      simp only [serveStep] at hstep
      split at hstep <;> cases hstep
      next hc =>
        exact Or.inr ⟨c, _, rfl, hc, id, Or.inr (Or.inl ⟨_, rfl, by cases ok <;> rfl⟩)⟩
  | release c =>
      simp only [serveStep] at hstep
      split at hstep <;> cases hstep
      next hc => exact Or.inr ⟨c, _, rfl, hc, id, Or.inr (Or.inr ⟨_, _, rfl, rfl⟩)⟩
  | unwind c build =>
      simp only [serveStep] at hstep
      split at hstep
      · next hc =>
          obtain ⟨hmem, ⟨⟩⟩ := Option.ite_none_right_eq_some.mp hstep
          exact Or.inr ⟨c, _, rfl, hc, id,
            Or.inr (Or.inr ⟨build, _, rfl, (Multiset.cons_erase hmem).symm⟩)⟩
      · cases hstep
  | finish c =>
      simp only [serveStep] at hstep
      split at hstep
      · next hc =>
          obtain ⟨hzero, ⟨⟩⟩ := Option.ite_none_right_eq_some.mp hstep
          exact Or.inr ⟨c, _, rfl, hc, id, Or.inr (Or.inl ⟨_, rfl, hzero.symm⟩)⟩
      · cases hstep

theorem accounted_step (d : Daemon) (l : ServeLabel) (e : Daemon) (h : Accounted limit d)
    (hstep : serveStep d l = some e) : Accounted limit e := by
  obtain ⟨allowed, rfl⟩ | ⟨c, x, -, hc, hx, hnext⟩ := serveStep_cases hstep
  · exact h.connect allowed
  · rcases hnext with ⟨held, line, ok, rfl, rfl⟩ | ⟨y, rfl, hy⟩ | ⟨build, y, rfl, hy⟩
    · exact h.request hc line ok
    · exact h.set hc hx hy
    · exact h.releaseAs hc hx hy

theorem accounted_reachable (h : Reachable serveStep (Daemon.init limit) d) :
    Accounted limit d :=
  h.invariant (accounted_init limit) accounted_step

/-- Tokens granted to connection `c` and not yet returned. -/
def Daemon.tokensOf (d : Daemon) (c : Nat) : Multiset Bytes :=
  (d.conns[c]?.map Conn.tokens).getD 0

theorem wake_tokensOf_le (conns : List Conn) (ws : List Waiter) (i : Nat) :
    (conns[i]?.map Conn.tokens).getD 0 ≤ ((wake conns ws)[i]?.map Conn.tokens).getD 0 := by
  induction ws generalizing conns with
  | nil => exact le_rfl
  | cons w ws ih =>
      refine le_trans ?_ (ih (wakeOne conns w))
      unfold wakeOne
      split
      · next build held hw =>
          by_cases hi : w.conn = i
          · have hlt : i < conns.length := hi ▸ (List.getElem?_eq_some_iff.mp hw).1
            simp only [hi] at hw ⊢
            simp only [hw, List.getElem?_set_self hlt, Option.map_some, Option.getD_some,
              Conn.tokens]
            exact Multiset.le_cons_self held build
          · rw [List.getElem?_set_ne hi]
      · exact le_rfl

theorem releaseAs_tokensOf_le (hi : c ≠ i) (build : Bytes) :
    d.tokensOf i ≤ (d.releaseAs c build y).tokensOf i := by
  refine le_trans (le_of_eq ?_) (wake_tokensOf_le (d.conns.set c y) _ i)
  rw [List.getElem?_set_ne hi]
  rfl

theorem request_tokensOf (hi : c ≠ i) (held : Multiset Bytes) (line : Bytes) (ok : Bool) :
    (d.request c held line ok).tokensOf i = d.tokensOf i := by
  unfold Daemon.request
  split
  · simp only [Daemon.tokensOf, List.getElem?_set_ne hi]
  · split <;> simp only [Daemon.tokensOf, List.getElem?_set_ne hi]
  · simp only [Daemon.tokensOf, List.getElem?_set_ne hi]
  · simp only [Daemon.tokensOf, List.getElem?_set_ne hi]

/-- No step of one goroutine takes a token away from another connection. -/
theorem serveStep_tokensOf_le {l : ServeLabel} {e : Daemon} (hstep : serveStep d l = some e)
    (hi : l.conn ≠ some i) : d.tokensOf i ≤ e.tokensOf i := by
  obtain ⟨allowed, rfl⟩ | ⟨c, x, hl, -, -, hnext⟩ := serveStep_cases hstep
  · simp only [Daemon.tokensOf]
    by_cases hlt : i < d.conns.length
    · rw [List.getElem?_append_left hlt]
    · rw [List.getElem?_eq_none (Nat.le_of_not_lt hlt)]
      exact Multiset.zero_le _
  · have hne : c ≠ i := fun heq => hi (heq ▸ hl)
    rcases hnext with ⟨held, line, ok, -, rfl⟩ | ⟨y, rfl, -⟩ | ⟨build, y, rfl, -⟩
    · exact (request_tokensOf hne held line ok).ge
    · simp only [Daemon.tokensOf, List.getElem?_set_ne hne, le_refl]
    · exact releaseAs_tokensOf_le hne build

/-- The releasing connection itself is not among the waiters it wakes. -/
theorem Accounted.releaseAs_conn (h : Accounted limit d) (hc : d.conns[c]? = some x)
    (hx : ¬ x.IsBlocked) (build : Bytes) :
    (d.releaseAs c build y).conns[c]? = some y := by
  let freed : Slots := { d.slots with out := d.slots.out - 1, held := d.slots.held.erase build }
  have hnot : c ∉ freed.grant.2.map Waiter.conn := by
    intro hmem
    obtain ⟨w, hw, hwc⟩ := List.mem_map.mp hmem
    have hwaiting : w ∈ d.slots.waiting :=
      (grant_granted freed).perm.mem_iff.mpr (List.mem_append_left _ hw)
    obtain ⟨held, hheld⟩ := h.queued w hwaiting
    rw [hwc, hc] at hheld
    cases hheld
    exact hx trivial
  have hlt : c < d.conns.length := (List.getElem?_eq_some_iff.mp hc).1
  exact (wake_getElem_of_notMem hnot).trans (List.getElem?_set_self hlt)

/-- `DONE` itself moves no token, and for a build not held it only replies. -/
theorem request_done {line build : Bytes} (hc : d.conns[c]? = some (.reading held))
    (hline : parseRequest line = .done build) (ok : Bool) :
    (d.request c held line ok).slots = d.slots ∧
      (build ∉ held → (d.request c held line ok).conns[c]? = some (.replying held)) := by
  have hlt : c < d.conns.length := (List.getElem?_eq_some_iff.mp hc).1
  simp only [Daemon.request, hline]
  split
  · next hmem => exact ⟨rfl, fun hnot => absurd hmem hnot⟩
  · exact ⟨rfl, fun _ => List.getElem?_set_self hlt⟩

/-- The release that follows `DONE` returns a token of the connection itself. -/
theorem Accounted.release_own (h : Accounted limit d) {e : Daemon}
    (hstep : serveStep d (.release c) = some e) :
    ∃ build, d.tokensOf c = build ::ₘ e.tokensOf c := by
  simp only [serveStep] at hstep
  split at hstep
  · next build held hc =>
      cases hstep
      refine ⟨build, ?_⟩
      simp only [Daemon.tokensOf, hc, h.releaseAs_conn hc id build, Option.map_some,
        Option.getD_some, Conn.tokens]
  · cases hstep

theorem sum_tokens_card (conns : List Conn) :
    (conns.map Conn.tokens).sum.card = (conns.map fun x => x.tokens.card).sum := by
  induction conns with
  | nil => rfl
  | cons x xs ih => simp [ih]

theorem sum_tokens_count (conns : List Conn) (build : Bytes) :
    (conns.map Conn.tokens).sum.count build =
      (conns.map fun x => x.tokens.count build).sum := by
  induction conns with
  | nil => rfl
  | cons x xs ih => simp [Multiset.count_add, ih]

theorem Accounted.all_ended (h : Accounted limit d) (hended : ∀ x ∈ d.conns, x = .ended) :
    d.slots.out = 0 ∧ d.slots.held = 0 ∧ d.slots.waiting = [] := by
  have hheld : d.slots.held = 0 := by
    rw [h.held_eq]
    apply List.sum_eq_zero
    intro t ht
    obtain ⟨x, hx, rfl⟩ := List.mem_map.mp ht
    rw [hended x hx]
    rfl
  refine ⟨by rw [h.out_eq, hheld]; rfl, hheld, ?_⟩
  apply List.eq_nil_iff_forall_not_mem.mpr
  intro w hw
  obtain ⟨held, hblocked⟩ := h.queued w hw
  cases hended _ (List.mem_of_getElem? hblocked)

/-- For any interleaving of requests, replies and hang-ups: the tokens out are
the sum over builds and the sum over connections, build by build, and stay
within the limit; somebody waits only when all tokens are out; `DONE` returns
at most a token of its own connection; and nothing is left once all have ended. -/
theorem slots_accounting (limit : Nat) {d : Daemon}
    (h : Reachable serveStep (Daemon.init limit) d) :
    (d.slots.out = (∑ b ∈ d.slots.held.toFinset, d.slots.held.count b : Nat) ∧
      d.slots.out = ((d.conns.map fun x => x.tokens.card).sum : Nat) ∧
      (∀ b, d.slots.held.count b = (d.conns.map fun x => x.tokens.count b).sum)) ∧
    (0 ≤ d.slots.out ∧ d.slots.out ≤ limit) ∧
    (d.slots.waiting ≠ [] → d.slots.out = limit) ∧
    ((∀ c held line build, d.conns[c]? = some (.reading held) →
        parseRequest line = .done build → ∀ ok, (d.request c held line ok).slots = d.slots ∧
          (build ∉ held → (d.request c held line ok).conns[c]? = some (.replying held))) ∧
      (∀ c e, serveStep d (.release c) = some e → ∃ b, d.tokensOf c = b ::ₘ e.tokensOf c) ∧
      (∀ l e, serveStep d l = some e → ∀ i, l.conn ≠ some i → d.tokensOf i ≤ e.tokensOf i)) ∧
    ((∀ x ∈ d.conns, x = .ended) →
      d.slots.out = 0 ∧ d.slots.held = 0 ∧ d.slots.waiting = []) := by
  have hacc := accounted_reachable h
  refine ⟨⟨?_, ?_, ?_⟩, ⟨?_, hacc.out_le⟩, hacc.full, ⟨?_, ?_, ?_⟩, hacc.all_ended⟩
  · rw [Multiset.toFinset_sum_count_eq]
    exact hacc.out_eq
  · rw [← sum_tokens_card, ← hacc.held_eq]
    exact hacc.out_eq
  · intro b
    rw [← sum_tokens_count, ← hacc.held_eq]
  · rw [hacc.out_eq]
    exact Int.natCast_nonneg _
  · intro c held line build hc hline ok
    exact request_done hc hline ok
  · intro c e hstep
    exact hacc.release_own hstep
  · intro l e hstep i hi
    exact serveStep_tokensOf_le hstep hi

/-- Two clients share one slot: the second waits, is granted the token when the
first sends `DONE`, and hangs up before its reply is flushed. -/
def handOver : List ServeLabel :=
  [.connect true, .connect true, .request 0 (ascii "SLOT b1") true, .resume 0, .reply 0 true,
    .request 1 (ascii "SLOT b2") true, .request 0 (ascii "DONE b1") true, .release 0,
    .resume 1, .reply 1 false]

theorem slots_accounting_handOver :
    ∃ d, run serveStep (Daemon.init 1) handOver = some d ∧ d.slots.out = 1 ∧
      d.slots.out = ((d.conns.map fun x => x.tokens.card).sum : Nat) := by
  refine ⟨⟨⟨1, 1, {ascii "b2"}, []⟩, [.replying 0, .unwinding {ascii "b2"}]⟩, by decide, rfl, ?_⟩
  exact (slots_accounting 1 ⟨handOver, by decide⟩).1.2.1

end Repkgs.Jigd
