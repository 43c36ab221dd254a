import Mathlib.Order.Nat
import Repkgs.Lib.Bytes

/-!
# Programs that read from a stream

A peer sends a finite stream of bytes and closes the connection. A program asks
for so many bytes at a time and is told when there are not enough. Each request
is filled by a loop of `read` calls, each of which returns as many bytes as it
likes. The number of calls is at most the number of bytes and of requests that
came back empty, and no better bound holds for all ways to cut the stream.
-/

namespace Repkgs.Lib

/-- A program that asks for bytes, `none` being the answer when they do not come. -/
inductive Reads (α : Type) where
  | done (a : α)
  | ask (n : Nat) (next : Option Bytes → Reads α)

namespace Reads

variable {α β : Type}

protected def bind : Reads α → (α → Reads β) → Reads β
  | done a, f => f a
  | ask n next, f => ask n fun got => (next got).bind f

instance : Monad Reads where
  pure := done
  bind := Reads.bind

@[simp] theorem pure_eq (a : α) : (pure a : Reads α) = done a := rfl

@[simp] theorem done_bind (a : α) (f : α → Reads β) : (done a >>= f) = f a := rfl

theorem ask_bind (n : Nat) (next : Option Bytes → Reads α) (f : α → Reads β) :
    (ask n next >>= f) = ask n fun got => next got >>= f := rfl

/-- The result, what is left of the stream, and how many requests failed. -/
structure Outcome (α : Type) where
  value : α
  rest : Bytes
  failed : Nat
  deriving DecidableEq

/-- A failed request takes all there is. -/
def run : Reads α → Bytes → Outcome α
  | done a, s => ⟨a, s, 0⟩
  | ask n next, s =>
      if n ≤ s.length then (next (some (s.take n))).run (s.drop n)
      else
        let out := (next none).run []
        ⟨out.value, out.rest, out.failed + 1⟩

/-- The outcome of a program that goes on after another one. -/
def Outcome.after {α β : Type} (o : Outcome α) (o' : Outcome β) : Outcome β :=
  { o' with failed := o.failed + o'.failed }

@[simp] theorem run_done (a : α) (s : Bytes) : (done a).run s = ⟨a, s, 0⟩ := rfl

variable {n : Nat} {s : Bytes}

theorem run_ask_of_le (h : n ≤ s.length) (next : Option Bytes → Reads α) :
    (ask n next).run s = (next (some (s.take n))).run (s.drop n) :=
  if_pos h

theorem run_ask_of_lt (h : s.length < n) (next : Option Bytes → Reads α) :
    (ask n next).run s =
      ⟨((next none).run []).value, ((next none).run []).rest, ((next none).run []).failed + 1⟩ :=
  if_neg (Nat.not_le.mpr h)

theorem run_bind (p : Reads α) (f : α → Reads β) (s : Bytes) :
    (p >>= f).run s = (p.run s).after ((f (p.run s).value).run (p.run s).rest) := by
  induction p generalizing s with
  | done a => simp [Outcome.after]
  | ask n next ih =>
      rw [ask_bind]
      by_cases h : n ≤ s.length
      · rw [run_ask_of_le h, run_ask_of_le h, ih]
      · rw [run_ask_of_lt (Nat.not_le.mp h), run_ask_of_lt (Nat.not_le.mp h), ih]
        simp only [Outcome.after, Outcome.mk.injEq, true_and]
        omega

/-- A program that asked in vain has used up the stream. -/
theorem rest_eq_nil {p : Reads α} (h : (p.run s).failed ≠ 0 ∨ s = []) :
    (p.run s).rest = [] := by
  induction p generalizing s with
  | done a => simpa using h
  | ask n next ih =>
      by_cases hle : n ≤ s.length
      · rw [run_ask_of_le hle] at h ⊢
        refine ih _ (h.imp_right fun hs => ?_)
        rw [hs, List.drop_nil]
      · rw [run_ask_of_lt (Nat.not_le.mp hle)]
        exact ih _ (Or.inr rfl)

theorem rest_suffix (p : Reads α) (s : Bytes) : (p.run s).rest <:+ s := by
  induction p generalizing s with
  | done a => exact List.suffix_refl s
  | ask n next ih =>
      by_cases hle : n ≤ s.length
      · rw [run_ask_of_le hle]
        exact (ih _ _).trans (List.drop_suffix n s)
      · rw [run_ask_of_lt (Nat.not_le.mp hle)]
        exact (ih _ _).trans (List.nil_suffix)

/-- How many bytes one call returns: at least one, as long as there are any. -/
def callSize (grain want available : Nat) : Nat := min (max 1 grain) (min want available)

/-- The loop that fills a request of `n` bytes: the bytes, what is left of the stream, and
the number of calls. `grain i` is how much the `i`th call is willing to return. -/
def fill (grain : Nat → Nat) (n : Nat) (s : Bytes) (calls : Nat) : Option Bytes × Bytes × Nat :=
  if hn : n = 0 then (some [], s, calls)
  else
    let got := callSize (grain calls) n s.length
    if h : got = 0 then (none, s, calls + 1)
    else
      have : n - got < n := Nat.sub_lt (Nat.pos_of_ne_zero hn) (Nat.pos_of_ne_zero h)
      let more := fill grain (n - got) (s.drop got) (calls + 1)
      (more.1.map (s.take got ++ ·), more.2)
termination_by n

theorem fill_zero (grain : Nat → Nat) (s : Bytes) (calls : Nat) :
    fill grain 0 s calls = (some [], s, calls) := by
  rw [fill, dif_pos rfl]

theorem fill_step (grain : Nat → Nat) (hn : n ≠ 0) (hs : s ≠ []) (calls : Nat) :
    ∃ got, 1 ≤ got ∧ got ≤ n ∧ got ≤ s.length ∧
      (grain calls = 1 → got = 1) ∧ fill grain n s calls =
        ((fill grain (n - got) (s.drop got) (calls + 1)).1.map (s.take got ++ ·),
          (fill grain (n - got) (s.drop got) (calls + 1)).2) := by
  have hlen := List.length_pos_of_ne_nil hs
  refine ⟨callSize (grain calls) n s.length, ?_, ?_, ?_, ?_, ?_⟩
  · simp only [callSize]
    omega
  · simp only [callSize]
    omega
  · simp only [callSize]
    omega
  · intro hgrain
    simp only [callSize, hgrain]
    omega
  · have hpos : callSize (grain calls) n s.length ≠ 0 := by
      simp only [callSize]
      omega
    rw [fill, dif_neg hn]
    exact dif_neg hpos

/-- A request that can be filled takes at most one call for a byte. -/
theorem fill_of_le (grain : Nat → Nat) (h : n ≤ s.length) (calls : Nat) :
    ∃ total, fill grain n s calls = (some (s.take n), s.drop n, total) ∧ total ≤ calls + n ∧
      ((∀ i, grain i = 1) → total = calls + n) := by
  induction n using Nat.strongRecOn generalizing s calls with
  | _ n ih =>
      by_cases hn : n = 0
      · subst hn
        exact ⟨calls, by rw [fill_zero, List.take_zero, List.drop_zero], le_rfl, fun _ => rfl⟩
      · have hs : s ≠ [] := by
          rintro rfl
          exact hn (Nat.le_zero.mp h)
        obtain ⟨got, hpos, hgotn, hgots, hone, hstep⟩ := fill_step grain hn hs calls
        have hrest : n - got ≤ (s.drop got).length := by
          rw [List.length_drop]
          omega
        obtain ⟨total, htotal, hle, heq⟩ := ih (n - got) (by omega) hrest (calls + 1)
        refine ⟨total, ?_, by omega, fun hgrain => ?_⟩
        · rw [hstep, htotal, Option.map_some, List.drop_drop, Nat.add_sub_cancel' hgotn]
          have htake : s.take got ++ (s.drop got).take (n - got) = s.take n := by
            rw [← List.take_add, Nat.add_sub_cancel' hgotn]
          rw [htake]
        · have := heq hgrain
          have := hone (hgrain calls)
          omega

/-- A request that cannot be filled takes one call more, which returns nothing. -/
theorem fill_of_lt (grain : Nat → Nat) (h : s.length < n) (calls : Nat) :
    ∃ total, fill grain n s calls = (none, [], total) ∧ total ≤ calls + s.length + 1 ∧
      ((∀ i, grain i = 1) → total = calls + s.length + 1) := by
  induction n using Nat.strongRecOn generalizing s calls with
  | _ n ih =>
      have hn : n ≠ 0 := by omega
      by_cases hs : s = []
      · subst hs
        refine ⟨calls + 1, ?_, le_rfl, fun _ => rfl⟩
        rw [fill, dif_neg hn]
        exact dif_pos (by simp [callSize])
      · obtain ⟨got, hpos, hgotn, hgots, hone, hstep⟩ := fill_step grain hn hs calls
        have hrest : (s.drop got).length < n - got := by
          rw [List.length_drop]
          omega
        obtain ⟨total, htotal, hle, heq⟩ := ih (n - got) (by omega) hrest (calls + 1)
        rw [List.length_drop] at hle heq
        refine ⟨total, by rw [hstep, htotal]; rfl, by omega, fun hgrain => ?_⟩
        have := heq hgrain
        have := hone (hgrain calls)
        omega

/-- The program with its `read` calls: the result and the number of calls. -/
def exec (grain : Nat → Nat) : Reads α → Bytes → Nat → α × Nat
  | done a, _, calls => (a, calls)
  | ask n next, s, calls =>
      let filled := fill grain n s calls
      (next filled.1).exec grain filled.2.1 filled.2.2

theorem exec_ask {grain : Nat → Nat} {s rest : Bytes} {calls total : Nat} {got : Option Bytes}
    (h : fill grain n s calls = (got, rest, total)) (next : Option Bytes → Reads α) :
    (ask n next).exec grain s calls = (next got).exec grain rest total := by
  rw [exec, h]

/-- How the stream is cut has no influence on the result. -/
theorem exec_value (grain : Nat → Nat) (p : Reads α) (s : Bytes) (calls : Nat) :
    (p.exec grain s calls).1 = (p.run s).value := by
  induction p generalizing s calls with
  | done a => rfl
  | ask n next ih =>
      by_cases hle : n ≤ s.length
      · obtain ⟨total, hfill, -⟩ := fill_of_le grain hle calls
        rw [exec_ask hfill, run_ask_of_le hle]
        exact ih _ _ _
      · obtain ⟨total, hfill, -⟩ := fill_of_lt grain (Nat.not_le.mp hle) calls
        rw [exec_ask hfill, run_ask_of_lt (Nat.not_le.mp hle)]
        exact ih _ _ _

theorem calls_le (grain : Nat → Nat) (p : Reads α) (s : Bytes) (calls : Nat) :
    (p.exec grain s calls).2 + (p.run s).rest.length ≤ calls + s.length + (p.run s).failed := by
  induction p generalizing s calls with
  | done a => exact le_rfl
  | ask n next ih =>
      by_cases hle : n ≤ s.length
      · obtain ⟨total, hfill, htotal, -⟩ := fill_of_le grain hle calls
        have hnext := ih (some (s.take n)) (s.drop n) total
        rw [List.length_drop] at hnext
        rw [exec_ask hfill, run_ask_of_le hle]
        omega
      · obtain ⟨total, hfill, htotal, -⟩ := fill_of_lt grain (Nat.not_le.mp hle) calls
        have hnext := ih none [] total
        rw [List.length_nil] at hnext
        rw [exec_ask hfill, run_ask_of_lt (Nat.not_le.mp hle)]
        dsimp only
        omega

theorem calls_eq_of_bytewise {grain : Nat → Nat} (hgrain : ∀ i, grain i = 1) (p : Reads α)
    (s : Bytes) (calls : Nat) :
    (p.exec grain s calls).2 + (p.run s).rest.length = calls + s.length + (p.run s).failed := by
  induction p generalizing s calls with
  | done a => rfl
  | ask n next ih =>
      by_cases hle : n ≤ s.length
      · obtain ⟨total, hfill, -, htotal⟩ := fill_of_le grain hle calls
        have hnext := ih (some (s.take n)) (s.drop n) total
        rw [List.length_drop, htotal hgrain] at hnext
        rw [exec_ask hfill, run_ask_of_le hle, htotal hgrain]
        omega
      · obtain ⟨total, hfill, -, htotal⟩ := fill_of_lt grain (Nat.not_le.mp hle) calls
        have hnext := ih none [] total
        rw [List.length_nil, htotal hgrain] at hnext
        rw [exec_ask hfill, run_ask_of_lt (Nat.not_le.mp hle), htotal hgrain]
        dsimp only
        omega

/-- A constant on top of the length of the stream bounds the calls if and only if it bounds
the failed requests. -/
theorem calls_le_iff (p : Reads α) (s : Bytes) (k : Nat) :
    (∀ grain, (p.exec grain s 0).2 ≤ k + s.length) ↔ (p.run s).failed ≤ k := by
  constructor
  · intro h
    have hbytes := @calls_eq_of_bytewise α (fun _ => 1) (fun _ => rfl) p s 0
    have hcalls := h fun _ => 1
    by_cases hfailed : (p.run s).failed = 0
    · omega
    · rw [rest_eq_nil (Or.inl hfailed), List.length_nil] at hbytes
      omega
  · intro h grain
    have hcalls := calls_le grain p s 0
    omega

end Reads

end Repkgs.Lib
