import Mathlib.Algebra.GroupWithZero.Nat
import Repkgs.Lib.Runs
import Repkgs.Lib.ListUpdate

/-!
# The jsem broker and the named semaphore

`Broker::Tick` drains the semaphore, gives surplus slots back, orders one slot
when no spare is left and posts at most one token. Every `sem_trywait`, every
destroyed slot, the call of the token source and the final `sem_post` is its
own step here, and ghc processes move between any two of them.
-/

namespace Repkgs.Jsem

open Lib

/-- Where the broker stands inside `Tick`. `idle` and `inUse` are its local variables. -/
inductive Phase
  | asleep
  | draining (idle : Nat)
  | shrinking (idle inUse : Nat)
  | ordering (idle inUse : Nat)
  | posting (idle inUse : Nat)
  deriving DecidableEq, Repr

/-- The semaphore, the tokens each ghc process took from it, and the broker. -/
structure Sys where
  sem : Nat
  ghc : List Nat
  held : Nat
  phase : Phase
  deriving DecidableEq, Repr

/-- The semaphore is created with `tokens` tokens; the broker starts without slots. -/
def Sys.init (tokens : Nat) : Sys := ⟨tokens, [], 0, .asleep⟩

/-- What a ghc process can do between two broker steps. -/
inductive GhcAct
  | spawn
  | take (proc : Nat)
  | give (proc : Nat)
  | die (proc : Nat)
  deriving DecidableEq, Repr

/-- The broker's atomic actions. `order want grants` is the call
`source_(want)` and whether it answers with a token. -/
inductive TickAct
  | enter
  | tryWait
  | resize
  | order (want grants : Bool)
  | post
  deriving DecidableEq, Repr

inductive Label
  | ghc (act : GhcAct)
  | tick (act : TickAct)
  deriving DecidableEq, Repr

/-- A ghc process starts, takes a token, gives one back or dies with what it holds. -/
def ghcStep (s : Sys) : GhcAct → Option Sys
  | .spawn => some { s with ghc := s.ghc ++ [0] }
  | .take i => s.ghc[i]?.bind fun n =>
      if 0 < s.sem then some { s with sem := s.sem - 1, ghc := s.ghc.set i (n + 1) } else none
  | .give i => s.ghc[i]?.bind fun n =>
      if 0 < n then some { s with sem := s.sem + 1, ghc := s.ghc.set i (n - 1) } else none
  | .die i => s.ghc[i]?.bind fun _ => some { s with ghc := s.ghc.set i 0 }

/-- `Broker::Tick`, one statement at a time. `held_.resize` destroys one slot
per step until `in_use + 1` are left. -/
def tickStep (s : Sys) : TickAct → Option Sys
  | .enter => if s.phase = .asleep then some { s with phase := .draining 0 } else none
  | .tryWait =>
      match s.phase with
      | .draining idle =>
          if 0 < s.sem then some { s with sem := s.sem - 1, phase := .draining (idle + 1) }
          else some { s with phase := .shrinking idle (s.held - min s.held idle) }
      | _ => none
  | .resize =>
      match s.phase with
      | .shrinking idle inUse =>
          if inUse + 1 < s.held then some { s with held := s.held - 1 }
          else some { s with phase := .ordering idle inUse }
      | _ => none
  | .order want grants =>
      match s.phase with
      | .ordering idle inUse =>
          if want = !decide (s.held = inUse + 1) then
            some { s with held := s.held + grants.toNat, phase := .posting idle inUse }
          else none
      | _ => none
  | .post =>
      match s.phase with
      | .posting _ inUse =>
          some { s with sem := s.sem + (decide (inUse < s.held)).toNat, phase := .asleep }
      | _ => none

/-- A step of a ghc process or of the broker. -/
def step (s : Sys) : Label → Option Sys
  | .ghc act => ghcStep s act
  | .tick act => tickStep s act

/-- Tokens the broker took out of the semaphore in this `Tick` and has not posted. -/
def Sys.drained (s : Sys) : Nat :=
  match s.phase with
  | .asleep => 0
  | .draining idle | .shrinking idle _ | .ordering idle _ | .posting idle _ => idle

/-- Of the drained tokens, those `Tick` can still post: all of them while it
drains, afterwards the one token it posts when a slot backs it. -/
def Sys.toPost (s : Sys) : Nat :=
  match s.phase with
  | .asleep => 0
  | .draining idle => idle
  | .shrinking _ inUse | .ordering _ inUse | .posting _ inUse =>
      (decide (inUse < s.held)).toNat

/-- Tokens outside the broker: on offer in the semaphore or taken by a ghc process. -/
def Sys.outside (s : Sys) : Nat := s.sem + s.ghc.sum

/-- The inductive invariant: once the drain loop has ended, what is outside is
bounded through `in_use`, which the later statements no longer change. -/
def Backed (tokens : Nat) (s : Sys) : Prop :=
  match s.phase with
  | .asleep => s.outside ≤ tokens + s.held
  | .draining idle => s.outside + idle ≤ tokens + s.held
  | .shrinking _ inUse | .ordering _ inUse | .posting _ inUse =>
      s.outside ≤ tokens + inUse ∧ inUse ≤ s.held

theorem backed_init (tokens : Nat) : Backed tokens (Sys.init tokens) := by
  simp [Backed, Sys.init, Sys.outside]

variable {s t : Sys} {tokens : Nat}

/-- Neither the broker nor its slots move in a ghc step, and no token appears. -/
theorem ghcStep_outside {act : GhcAct} (h : ghcStep s act = some t) :
    t.outside ≤ s.outside ∧ t.held = s.held ∧ t.phase = s.phase := by
  cases act with
  | spawn =>
      cases h
      simp [Sys.outside]
  | take i =>
      obtain ⟨n, hn, h⟩ := Option.bind_eq_some_iff.mp h
      split at h
      · cases h
        have hsum := sum_set hn (n + 1)
        simp only [Sys.outside, and_self, and_true]
        omega
      · cases h
  | give i =>
      obtain ⟨n, hn, h⟩ := Option.bind_eq_some_iff.mp h
      split at h
      · cases h
        have hsum := sum_set hn (n - 1)
        simp only [Sys.outside, and_self, and_true]
        omega
      · cases h
  | die i =>
      obtain ⟨n, hn, h⟩ := Option.bind_eq_some_iff.mp h
      cases h
      have hsum := sum_set hn 0
      simp only [Sys.outside, and_self, and_true]
      omega

theorem backed_ghcStep {act : GhcAct} (hs : Backed tokens s) (h : ghcStep s act = some t) :
    Backed tokens t := by
  obtain ⟨hout, hheld, hphase⟩ := ghcStep_outside h
  unfold Backed at hs ⊢
  rw [hphase, hheld]
  cases hp : s.phase with
  | asleep =>
      simp only [hp] at hs ⊢
      omega
  | draining idle =>
      simp only [hp] at hs ⊢
      omega
  | _ =>
      simp only [hp] at hs ⊢
      omega

theorem backed_tickStep {act : TickAct} (hs : Backed tokens s) (h : tickStep s act = some t) :
    Backed tokens t := by
  cases act with
  | enter =>
      simp only [tickStep] at h
      split at h
      · next hp =>
          cases h
          simpa [Backed, hp, Sys.outside] using hs
      · cases h
  | tryWait =>
      cases hp : s.phase with
      | draining idle =>
          simp only [Backed, hp, Sys.outside] at hs
          simp only [tickStep, hp] at h
          split at h
          · cases h
            simp only [Backed, Sys.outside]
            omega
          · cases h
            simp only [Backed, Sys.outside]
            omega
      | _ => simp [tickStep, hp] at h
  | resize =>
      cases hp : s.phase with
      | shrinking idle inUse =>
          simp only [Backed, hp, Sys.outside] at hs
          simp only [tickStep, hp] at h
          split at h
          · cases h
            simp only [Backed, Sys.outside]
            omega
          · cases h
            simp only [Backed, Sys.outside]
            omega
      | _ => simp [tickStep, hp] at h
  | order want grants =>
      cases hp : s.phase with
      | ordering idle inUse =>
          simp only [Backed, hp, Sys.outside] at hs
          simp only [tickStep, hp] at h
          split at h
          · cases h
            simp only [Backed, Sys.outside]
            omega
          · cases h
      | _ => simp [tickStep, hp] at h
  | post =>
      cases hp : s.phase with
      | posting idle inUse =>
          simp only [Backed, hp, Sys.outside] at hs
          simp only [tickStep, hp] at h
          cases h
          by_cases hlt : inUse < s.held <;> simp only [Backed, Sys.outside, hlt] <;> simp <;> omega
      | _ => simp [tickStep, hp] at h

theorem backed_step (s : Sys) (l : Label) (t : Sys) (hs : Backed tokens s) (h : step s l = some t) :
    Backed tokens t := by
  cases l with
  | ghc act => exact backed_ghcStep hs h
  | tick act => exact backed_tickStep hs h

theorem Backed.toPost_le (h : Backed tokens s) :
    s.outside + s.toPost ≤ tokens + s.held := by
  unfold Backed at h
  unfold Sys.toPost
  cases hp : s.phase with
  | asleep => simpa [hp] using h
  | draining idle => simpa [hp] using h
  | shrinking idle inUse | ordering idle inUse | posting idle inUse =>
      simp only [hp] at h ⊢
      by_cases hlt : inUse < s.held <;> simp [hlt] <;> omega

/-- In every reachable state, what ghc processes hold, what is on offer and
what the broker can still post is backed by the semaphore's own tokens and the
slots held, and while the broker drains every drained token counts. -/
theorem broker_never_overAdmits (tokens : Nat) {s : Sys}
    (h : Reachable step (Sys.init tokens) s) :
    s.sem + s.ghc.sum + s.toPost ≤ tokens + s.held := by
  exact (h.invariant (backed_init tokens) backed_step).toPost_le

/-- A broker without slots is granted two, ghc takes and returns a token, and
the next `Tick` has drained two tokens when it gives the first slot back. -/
def surplusTrace : List Label :=
  [.ghc .spawn,
    .tick .enter, .tick .tryWait, .tick .resize, .tick (.order true true), .tick .post,
    .ghc (.take 0),
    .tick .enter, .tick .tryWait, .tick .resize, .tick (.order true true), .tick .post,
    .ghc (.give 0),
    .tick .enter, .tick .tryWait, .tick .tryWait, .tick .tryWait, .tick .resize]

theorem broker_never_overAdmits_surplus :
    Reachable step (Sys.init 0) ⟨0, [0], 1, .shrinking 2 0⟩ ∧
      0 + [0].sum + (⟨0, [0], 1, .shrinking 2 0⟩ : Sys).toPost ≤ 0 + 1 := by
  have hreach : Reachable step (Sys.init 0) ⟨0, [0], 1, .shrinking 2 0⟩ :=
    ⟨surplusTrace, by decide⟩
  exact ⟨hreach, broker_never_overAdmits 0 hreach⟩

/-- Counting every drained token until it is posted does not survive
`held_.resize`: the surplus tokens are given up only after their slots. -/
theorem drained_exceeds_slots :
    ¬ ∀ (tokens : Nat) (s : Sys), Reachable step (Sys.init tokens) s →
      s.sem + s.ghc.sum + s.drained ≤ tokens + s.held := by
  intro h
  have hreach : Reachable step (Sys.init 0) ⟨0, [0], 1, .shrinking 2 0⟩ :=
    ⟨surplusTrace, by decide⟩
  have hbad := h 0 _ hreach
  simp [Sys.drained] at hbad

end Repkgs.Jsem
