import Mathlib.Data.List.Basic

/-!
# Texts that can be read in one way only

A rendering is unambiguous if what it renders can be told from the front of a
text, whatever follows. The rules below build unambiguous renderings from parts:
texts with escaped characters, parts one after the other, and lists in brackets.
-/

namespace Repkgs.Lib

variable {α β γ : Type*}

/-- Equal texts begin with the same value and go on in the same way. -/
def Unambiguous (render : α → List γ) : Prop :=
  ∀ ⦃a b : α⦄ ⦃x y : List γ⦄, render a ++ x = render b ++ y → a = b ∧ x = y

namespace Unambiguous

theorem injective {render : α → List γ} (h : Unambiguous render) {a b : α}
    (heq : render a = render b) : a = b :=
  (h (congrArg (· ++ []) heq)).1

/-- Fixed text around a value. -/
theorem wrap {render : α → List γ} (h : Unambiguous render) (front back : List γ) :
    Unambiguous fun a => front ++ render a ++ back := by
  intro a b x y heq
  simp only [List.append_assoc, List.append_cancel_left_eq] at heq
  obtain ⟨hab, hxy⟩ := h heq
  exact ⟨hab, List.append_cancel_left hxy⟩

/-- One value after another. -/
theorem pair {f : α → List γ} {g : β → List γ} (hf : Unambiguous f) (hg : Unambiguous g)
    (sep : List γ) : Unambiguous fun p : α × β => f p.1 ++ sep ++ g p.2 := by
  rintro ⟨a, b⟩ ⟨a', b'⟩ x y heq
  simp only [List.append_assoc] at heq
  obtain ⟨ha, hrest⟩ := hf heq
  obtain ⟨hb, hxy⟩ := hg (List.append_cancel_left hrest)
  exact ⟨Prod.ext ha hb, hxy⟩

/-- A string of escaped characters, up to a character that no escape begins with. -/
theorem escaped {escape : α → List γ} (h : Unambiguous escape) {stop : γ}
    (hstop : ∀ a, ∃ c rest, escape a = c :: rest ∧ c ≠ stop) :
    Unambiguous fun text : List α => text.flatMap escape ++ [stop] := by
  intro s
  induction s with
  | nil =>
      intro t x y heq
      cases t with
      | nil => exact ⟨rfl, by simpa using heq⟩
      | cons b t =>
          obtain ⟨c, rest, hb, hne⟩ := hstop b
          simp only [List.flatMap_nil, List.nil_append, List.flatMap_cons, hb, List.cons_append,
            List.cons.injEq] at heq
          exact absurd heq.1.symm hne
  | cons a s ih =>
      intro t x y heq
      cases t with
      | nil =>
          obtain ⟨c, rest, ha, hne⟩ := hstop a
          simp only [List.flatMap_nil, List.nil_append, List.flatMap_cons, ha, List.cons_append,
            List.cons.injEq] at heq
          exact absurd heq.1 hne
      | cons b t =>
          simp only [List.flatMap_cons, List.append_assoc] at heq
          obtain ⟨hab, hrest⟩ := h heq
          obtain ⟨hst, hxy⟩ := ih (by simpa only [List.append_assoc] using hrest)
          exact ⟨by rw [hab, hst], hxy⟩

/-- Values one after the other, none of them rendered as nothing. -/
theorem flatMap {render : α → List γ} (h : Unambiguous render) (hne : ∀ a, render a ≠ [])
    {as bs : List α} (heq : as.flatMap render = bs.flatMap render) : as = bs := by
  induction as generalizing bs with
  | nil =>
      cases bs with
      | nil => rfl
      | cons b bs => exact absurd (List.append_eq_nil_iff.mp heq.symm).1 (hne b)
  | cons a as ih =>
      cases bs with
      | nil => exact absurd (List.append_eq_nil_iff.mp heq).1 (hne a)
      | cons b bs =>
          obtain ⟨hab, hrest⟩ := h heq
          rw [hab, ih hrest]

end Unambiguous

/-- A list between brackets, its items separated. -/
def bracketed (opening closing sep : γ) (render : α → List γ) (items : List α) : List γ :=
  opening :: ([sep].intercalate (items.map render) ++ [closing])

/-- The list behind its first item. -/
def bracketedTail (closing sep : γ) (render : α → List γ) : List α → List γ
  | [] => [closing]
  | a :: as => sep :: (render a ++ bracketedTail closing sep render as)

theorem bracketed_cons (opening closing sep : γ) (render : α → List γ) (a : α) (as : List α) :
    bracketed opening closing sep render (a :: as) =
      opening :: (render a ++ bracketedTail closing sep render as) := by
  induction as generalizing a with
  | nil => simp [bracketed, bracketedTail]
  | cons b bs ih =>
      have hstep := ih b
      simp only [bracketed, List.cons.injEq, true_and] at hstep
      simp only [bracketed, bracketedTail, List.map_cons, List.intercalate_cons_cons,
        List.append_assoc, List.cons_append, List.nil_append]
      rw [← hstep, List.map_cons]

namespace Unambiguous

variable {render : α → List γ} {opening closing sep : γ}

theorem bracketedTail (h : Unambiguous render) (hsep : sep ≠ closing) :
    Unambiguous (bracketedTail closing sep render) := by
  intro as
  induction as with
  | nil =>
      intro bs x y heq
      cases bs with
      | nil => exact ⟨rfl, by simpa [Lib.bracketedTail] using heq⟩
      | cons b bs =>
          simp only [Lib.bracketedTail, List.cons_append, List.cons.injEq] at heq
          exact absurd heq.1.symm hsep
  | cons a as ih =>
      intro bs x y heq
      cases bs with
      | nil =>
          simp only [Lib.bracketedTail, List.cons_append, List.cons.injEq] at heq
          exact absurd heq.1 hsep
      | cons b bs =>
          simp only [Lib.bracketedTail, List.cons_append, List.append_assoc, List.cons.injEq,
            true_and] at heq
          obtain ⟨hab, hrest⟩ := h heq
          obtain ⟨hs, hxy⟩ := ih hrest
          exact ⟨by rw [hab, hs], hxy⟩

/-- A list whose items begin with no closing bracket. -/
theorem bracketed (h : Unambiguous render) (hsep : sep ≠ closing)
    (hitem : ∀ a, ∃ c rest, render a = c :: rest ∧ c ≠ closing) :
    Unambiguous (bracketed opening closing sep render) := by
  have hempty : ∀ (a : α) (as : List α) (x y : List γ),
      Lib.bracketed opening closing sep render [] ++ x ≠
        Lib.bracketed opening closing sep render (a :: as) ++ y := by
    intro a as x y heq
    obtain ⟨c, rest, ha, hne⟩ := hitem a
    rw [bracketed_cons, ha] at heq
    simp only [Lib.bracketed, List.map_nil, List.intercalate_nil, List.nil_append,
      List.cons_append, List.cons.injEq, true_and] at heq
    exact hne heq.1.symm
  intro as bs x y heq
  cases as with
  | nil =>
      cases bs with
      | nil => exact ⟨rfl, List.append_cancel_left heq⟩
      | cons b bs => exact absurd heq (hempty b bs x y)
  | cons a as =>
      cases bs with
      | nil => exact absurd heq.symm (hempty a as y x)
      | cons b bs =>
          rw [bracketed_cons, bracketed_cons] at heq
          simp only [List.cons_append, List.append_assoc, List.cons.injEq, true_and] at heq
          obtain ⟨hab, hrest⟩ := h heq
          obtain ⟨hs, hxy⟩ := h.bracketedTail hsep hrest
          exact ⟨by rw [hab, hs], hxy⟩

end Unambiguous

end Repkgs.Lib
