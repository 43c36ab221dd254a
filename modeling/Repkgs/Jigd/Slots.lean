import Mathlib.Data.Multiset.Basic
import Mathlib.Algebra.Order.Group.Multiset
import Repkgs.Lib.Bytes

/-!
# Build slots

`Slots` hands out at most `limit` tokens. The Go map `held` from builds to
positive counts is the multiset of builds, one element per token, so `held[b]`
is a multiplicity and the sum over builds is the cardinality. A waiter is
named by the connection whose goroutine blocks on its channel.
-/

namespace Repkgs.Jigd

open Lib

structure Waiter where
  conn : Nat
  build : Bytes
  deriving DecidableEq, Repr

structure Slots where
  limit : Nat
  out : Int
  held : Multiset Bytes
  waiting : List Waiter
  deriving DecidableEq

/-- `NewSlots`. -/
def Slots.new (limit : Nat) : Slots := ⟨limit, 0, 0, []⟩

/-- `Acquire` up to the point where it blocks: `true` when the token is granted at once. -/
def Slots.acquire (s : Slots) (conn : Nat) (build : Bytes) : Slots × Bool :=
  if s.out < s.limit ∧ s.waiting.length = 0 then
    ({ s with out := s.out + 1, held := build ::ₘ s.held }, true)
  else ({ s with waiting := s.waiting ++ [⟨conn, build⟩] }, false)

/-- The scan of `grant`: the first waiter whose build holds the fewest tokens, and its index. -/
def best (held : Multiset Bytes) (w : Waiter) (ws : List Waiter) : Waiter × Nat :=
  ((w :: ws).zipIdx).foldl
    (fun b p => if held.count p.1.build < held.count b.1.build then p else b) (w, 0)

/-- The loop of `grant`, with the waiters it wakes in order. Every iteration
removes a waiter, so `waiting.length` iterations suffice. -/
def Slots.grantLoop : Nat → Slots → Slots × List Waiter
  | 0, s => (s, [])
  | n + 1, s =>
      match s.waiting with
      | [] => (s, [])
      | w :: ws =>
          if s.out < s.limit then
            let b := best s.held w ws
            let r := grantLoop n { s with
              out := s.out + 1
              held := b.1.build ::ₘ s.held
              waiting := s.waiting.eraseIdx b.2 }
            (r.1, b.1 :: r.2)
          else (s, [])

def Slots.grant (s : Slots) : Slots × List Waiter := s.grantLoop s.waiting.length

/-- `Release`, with the waiters it wakes. -/
def Slots.release (s : Slots) (build : Bytes) : Slots × List Waiter :=
  Slots.grant { s with out := s.out - 1, held := s.held.erase build }

theorem zipIdx_foldl_mem {α : Type*} (better : α × Nat → α × Nat → Prop)
    [DecidableRel better] (l : List (α × Nat)) (b : α × Nat) :
    l.foldl (fun b p => if better p b then p else b) b = b ∨
      l.foldl (fun b p => if better p b then p else b) b ∈ l := by
  induction l generalizing b with
  | nil => exact Or.inl rfl
  | cons p l ih =>
      simp only [List.foldl_cons]
      rcases ih (if better p b then p else b) with h | h
      · rw [h]
        split
        · exact Or.inr (.head _)
        · exact Or.inl rfl
      · exact Or.inr (.tail _ h)

/-- The chosen waiter is the one at the chosen index. -/
theorem best_getElem (held : Multiset Bytes) (w : Waiter) (ws : List Waiter) :
    (w :: ws)[(best held w ws).2]? = some (best held w ws).1 := by
  rcases zipIdx_foldl_mem
      (fun p b : Waiter × Nat => held.count p.1.build < held.count b.1.build)
      (w :: ws).zipIdx (w, 0) with h | h
  · change best held w ws = (w, 0) at h
    rw [h]
    rfl
  · change best held w ws ∈ (w :: ws).zipIdx at h
    exact List.mem_zipIdx_iff_getElem?.mp h

/-- What one call of the loop does: it wakes a part of the queue, charges one
token to each woken waiter's build, stays within the limit and leaves waiters
only when every token is out. -/
structure Granted (s t : Slots) (woken : List Waiter) : Prop where
  limit_eq : t.limit = s.limit
  out_eq : t.out = s.out + woken.length
  held_eq : t.held = (woken.map Waiter.build : Multiset Bytes) + s.held
  perm : s.waiting.Perm (woken ++ t.waiting)
  out_le : s.out ≤ s.limit → t.out ≤ t.limit

theorem grantLoop_granted (n : Nat) (s : Slots) :
    Granted s (s.grantLoop n).1 (s.grantLoop n).2 := by
  induction n generalizing s with
  | zero =>
      refine ⟨rfl, ?_, ?_, ?_, id⟩ <;> simp [Slots.grantLoop]
  | succ n ih =>
      unfold Slots.grantLoop
      split
      · exact ⟨rfl, by simp, by simp, by simp, id⟩
      · next w ws hw =>
          split
          · next hlt =>
              have hbest := best_getElem s.held w ws
              rw [← hw] at hbest
              obtain ⟨hl, ho, hh, hp, hle⟩ := ih { s with
                out := s.out + 1
                held := (best s.held w ws).1.build ::ₘ s.held
                waiting := s.waiting.eraseIdx (best s.held w ws).2 }
              refine ⟨hl, ?_, ?_, ?_, ?_⟩
              · rw [ho]
                simp only [List.length_cons]
                omega
              · rw [hh]
                simp only [List.map_cons, ← Multiset.cons_coe, Multiset.cons_add,
                  Multiset.add_cons]
              · obtain ⟨hi, hget⟩ := List.getElem?_eq_some_iff.mp hbest
                have hsplit := List.getElem_cons_eraseIdx_perm hi
                rw [hget] at hsplit
                exact hsplit.symm.trans (List.Perm.cons _ hp)
              · intro _
                exact hle (by simp only; omega)
          · exact ⟨rfl, by simp, by simp, by simp, id⟩

/-- With enough iterations the loop stops only for want of waiters or of free tokens. -/
theorem grantLoop_full (n : Nat) (s : Slots) (hn : s.waiting.length ≤ n) :
    (s.grantLoop n).1.waiting = [] ∨
      ((s.grantLoop n).1.limit : Int) ≤ (s.grantLoop n).1.out := by
  induction n generalizing s with
  | zero =>
      left
      simpa [Slots.grantLoop] using hn
  | succ n ih =>
      unfold Slots.grantLoop
      split
      · next hw => exact Or.inl hw
      · next w ws hw =>
          split
          · apply ih
            have hbest := best_getElem s.held w ws
            rw [← hw] at hbest
            obtain ⟨hi, _⟩ := List.getElem?_eq_some_iff.mp hbest
            simp only [List.length_eraseIdx_of_lt hi]
            omega
          · next hlt =>
              right
              simp only
              omega

theorem grant_granted (s : Slots) : Granted s s.grant.1 s.grant.2 :=
  grantLoop_granted _ s

theorem grant_full (s : Slots) :
    s.grant.1.waiting = [] ∨ (s.grant.1.limit : Int) ≤ s.grant.1.out :=
  grantLoop_full _ s le_rfl

end Repkgs.Jigd
