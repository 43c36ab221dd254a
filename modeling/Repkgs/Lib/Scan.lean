import Mathlib.Data.List.Basic

/-!
# Rewriting a text from left to right

The loops of the source that search a text for a pattern and replace what they
find never look back. At every position a rule says whether it consumes a part
of the rest and what stands there instead.
-/

namespace Repkgs.Lib

variable {α : Type*}

/-- What a rule does at the beginning of a text: consume so many elements and
write others, or nothing. -/
abbrev Rule (α : Type*) := List α → Option (Nat × List α)

/-- `scan` after the next `k` elements, which an earlier match consumed. -/
def scanFrom (f : Rule α) : Nat → List α → List α
  | _, [] => []
  | 0, c :: cs =>
      match f (c :: cs) with
      | some (n, out) => out ++ scanFrom f (n - 1) cs
      | none => c :: scanFrom f 0 cs
  | k + 1, _ :: cs => scanFrom f k cs

/-- Rewrite a text with a rule. -/
def scan (f : Rule α) (text : List α) : List α := scanFrom f 0 text

theorem scanFrom_eq_scan (f : Rule α) (k : Nat) (text : List α) :
    scanFrom f k text = scan f (text.drop k) := by
  induction text generalizing k with
  | nil => cases k <;> rfl
  | cons c cs ih =>
      cases k with
      | zero => rfl
      | succ k => exact ih k

@[simp] theorem scan_nil (f : Rule α) : scan f [] = [] := rfl

variable {f : Rule α} {text : List α}

theorem scan_cons_of_none {c : α} {cs : List α} (h : f (c :: cs) = none) :
    scan f (c :: cs) = c :: scan f cs := by
  simp [scan, scanFrom, h]

theorem scan_cons_of_some {c : α} {cs out : List α} {n : Nat} (h : f (c :: cs) = some (n, out)) :
    scan f (c :: cs) = out ++ scan f ((c :: cs).drop (n - 1 + 1)) := by
  rw [List.drop_succ_cons, ← scanFrom_eq_scan]
  simp [scan, scanFrom, h]

theorem scan_of_some {text out : List α} {n : Nat} (h : f text = some (n + 1, out))
    (hne : text ≠ []) : scan f text = out ++ scan f (text.drop (n + 1)) := by
  cases text with
  | nil => exact absurd rfl hne
  | cons c cs => exact scan_cons_of_some h

theorem scan_append_of_some {pre rest out : List α} (hne : pre ≠ [])
    (h : f (pre ++ rest) = some (pre.length, out)) :
    scan f (pre ++ rest) = out ++ scan f rest := by
  obtain ⟨n, hn⟩ := Nat.exists_eq_succ_of_ne_zero (mt List.length_eq_zero_iff.mp hne)
  rw [scan_of_some (hn ▸ h) (by simp [hne]), ← Nat.succ_eq_add_one, ← hn, List.drop_left]

/-- A text in which the rule finds nothing stays as it is. -/
theorem scan_eq_self (h : ∀ s, s <:+ text → f s = none) :
    scan f text = text := by
  induction text with
  | nil => rfl
  | cons c cs ih =>
      rw [scan_cons_of_none (h _ (List.suffix_refl _))]
      rw [ih fun s hs => h s (hs.trans (List.suffix_cons c cs))]

/-- Positions at which the rule finds nothing are passed over. -/
theorem scan_skip {k : Nat} (h : ∀ i < k, f (text.drop i) = none) :
    scan f text = text.take k ++ scan f (text.drop k) := by
  induction k generalizing text with
  | zero => rfl
  | succ k ih =>
      cases text with
      | nil => rfl
      | cons c cs =>
          rw [scan_cons_of_none (h 0 (Nat.succ_pos k)), ih, List.take_succ_cons,
            List.drop_succ_cons]
          · rfl
          · exact fun i hi => h (i + 1) (Nat.succ_lt_succ hi)

/-- Rules that differ only where one of them copies what it consumes, and the
other finds nothing in the part that was consumed. -/
theorem scan_eq_of_copy {f g : Rule α}
    (h : ∀ s, s <:+ text → f s = g s ∨
      ∃ n, f s = some (n + 1, s.take (n + 1)) ∧ ∀ i ≤ n, g (s.drop i) = none) :
    scan f text = scan g text := by
  induction hn : text.length using Nat.strongRecOn generalizing text with
  | _ n ih =>
      cases text with
      | nil => rfl
      | cons c cs =>
          have hnext : ∀ k, scan f ((c :: cs).drop (k + 1)) = scan g ((c :: cs).drop (k + 1)) := by
            intro k
            refine ih _ ?_ (fun s hs => h s (hs.trans (List.drop_suffix _ _))) rfl
            rw [← hn, List.drop_succ_cons, List.length_drop, List.length_cons]
            omega
          rcases h _ (List.suffix_refl _) with heq | ⟨k, hcopy, hnone⟩
          · cases hg : g (c :: cs) with
            | none =>
                rw [scan_cons_of_none (heq.trans hg), scan_cons_of_none hg]
                exact congrArg (List.cons c) (hnext 0)
            | some found =>
                rw [scan_cons_of_some (heq.trans hg), scan_cons_of_some hg, hnext]
          · rw [scan_of_some hcopy (List.cons_ne_nil c cs), hnext,
              scan_skip fun i hi => hnone i (Nat.le_of_lt_succ hi)]

section Tokens

variable {τ : Type*}

/-- `lex` after the next `k` elements, which belong to an earlier token. -/
def lexFrom (f : List α → Option (Nat × τ)) (plain : α → τ) : Nat → List α → List τ
  | _, [] => []
  | 0, c :: cs =>
      match f (c :: cs) with
      | some (n, tok) => tok :: lexFrom f plain (n - 1) cs
      | none => plain c :: lexFrom f plain 0 cs
  | k + 1, _ :: cs => lexFrom f plain k cs

/-- Cut a text into tokens: what the rule finds, and single elements between. -/
def lex (f : List α → Option (Nat × τ)) (plain : α → τ) (text : List α) : List τ :=
  lexFrom f plain 0 text

variable {f : List α → Option (Nat × τ)} {plain : α → τ}

theorem lexFrom_eq_lex (k : Nat) (text : List α) :
    lexFrom f plain k text = lex f plain (text.drop k) := by
  induction text generalizing k with
  | nil => cases k <;> rfl
  | cons c cs ih =>
      cases k with
      | zero => rfl
      | succ k => exact ih k

/-- The tokens of a text stand for the text. -/
structure Spells (f : List α → Option (Nat × τ)) (plain : α → τ) (spell : τ → List α) : Prop where
  plain : ∀ c, spell (plain c) = [c]
  found : ∀ {text n tok}, f text = some (n, tok) → spell tok = text.take n ∧ 0 < n

/-- Where a token was read: behind it stand the tokens that follow it. -/
theorem Spells.mem_lex {spell : τ → List α} (h : Spells f plain spell) (text : List α) :
    (lex f plain text).flatMap spell = text ∧
      ∀ tok after, tok :: after <:+ lex f plain text →
        spell tok ++ after.flatMap spell <:+ text ∧
          ((∃ b, tok = plain b ∧ f (spell tok ++ after.flatMap spell) = none) ∨
            ∃ n, f (spell tok ++ after.flatMap spell) = some (n, tok)) := by
  induction hn : text.length using Nat.strongRecOn generalizing text with
  | _ n ih =>
      cases text with
      | nil =>
          refine ⟨rfl, fun tok after hsuffix => ?_⟩
          cases List.suffix_nil.mp hsuffix
      | cons c cs =>
          -- the first token, and the text behind it
          obtain ⟨tok, k, hlex, hspell, hread⟩ : ∃ tok k,
              lex f plain (c :: cs) = tok :: lex f plain (cs.drop k) ∧
              spell tok ++ cs.drop k = c :: cs ∧
              ((∃ b, tok = plain b ∧ f (c :: cs) = none) ∨ ∃ n, f (c :: cs) = some (n, tok)) := by
            cases hf : f (c :: cs) with
            | none =>
                refine ⟨plain c, 0, by simp [lex, lexFrom, hf], by rw [h.plain]; rfl,
                  Or.inl ⟨c, rfl, rfl⟩⟩
            | some found =>
                obtain ⟨m, tok⟩ := found
                obtain ⟨hspell, hpos⟩ := h.found hf
                obtain ⟨k, rfl⟩ := Nat.exists_eq_succ_of_ne_zero (Nat.pos_iff_ne_zero.mp hpos)
                refine ⟨tok, k, ?_, ?_, Or.inr ⟨_, rfl⟩⟩
                · rw [← lexFrom_eq_lex]
                  simp [lex, lexFrom, hf]
                · rw [hspell]
                  exact List.take_append_drop (k + 1) (c :: cs)
          have hlt : (cs.drop k).length < n := by
            rw [← hn, List.length_drop, List.length_cons]
            omega
          obtain ⟨htext, hafter⟩ := ih _ hlt (cs.drop k) rfl
          rw [hlex]
          refine ⟨by rw [List.flatMap_cons, htext, hspell], fun tok' after hsuffix => ?_⟩
          rcases List.suffix_cons_iff.mp hsuffix with heq | hsuffix
          · cases heq
            rw [htext, hspell]
            exact ⟨List.suffix_refl _, hread⟩
          · obtain ⟨hs, hread'⟩ := hafter tok' after hsuffix
            exact ⟨hs.trans (List.drop_suffix (k + 1) (c :: cs)), hread'⟩

/-- A position in a text of tokens is a position in one of them. -/
theorem suffix_flatMap {spell : τ → List α} {toks : List τ} {s : List α}
    (h : s <:+ toks.flatMap spell) (hne : s ≠ []) : ∃ tok after k, tok :: after <:+ toks ∧
      k < (spell tok).length ∧ s = (spell tok ++ after.flatMap spell).drop k := by
  induction toks with
  | nil => exact absurd (List.suffix_nil.mp h) hne
  | cons tok toks ih =>
      rw [List.flatMap_cons] at h
      rcases Nat.lt_or_ge (toks.flatMap spell).length s.length with hlong | hshort
      · obtain ⟨before, hbefore⟩ := h
        have hlen := congrArg List.length hbefore
        rw [List.length_append, List.length_append] at hlen
        refine ⟨tok, toks, before.length, List.suffix_refl _, by omega, ?_⟩
        rw [← hbefore, List.drop_left]
      · obtain ⟨t, after, k, hs, hk, heq⟩ := ih
          (List.suffix_of_suffix_length_le h (List.suffix_append _ _) hshort)
        exact ⟨t, after, k, hs.trans (List.suffix_cons tok toks), hk, heq⟩

/-- A scan that treats every token as a whole. -/
theorem scan_flatMap {rule : Rule α} {toks : List τ} {spell spell' : τ → List α}
    (h : ∀ tok after, tok :: after <:+ toks →
      scan rule (spell tok ++ after.flatMap spell) =
        spell' tok ++ scan rule (after.flatMap spell)) :
    scan rule (toks.flatMap spell) = toks.flatMap spell' := by
  induction toks with
  | nil => rfl
  | cons tok toks ih =>
      rw [List.flatMap_cons, List.flatMap_cons, h tok toks (List.suffix_refl _),
        ih fun t after hs => h t after (hs.trans (List.suffix_cons tok toks))]

/-- Two spellings of a text agree only if no token tells them apart. -/
theorem forall_of_flatMap_eq {toks : List τ} {spell spell' : τ → List α} {P : τ → Prop}
    (hsame : ∀ tok ∈ toks, P tok → spell tok = spell' tok)
    (hother : ∀ tok ∈ toks, P tok ∨ ∀ x y, spell tok ++ x ≠ spell' tok ++ y)
    (h : toks.flatMap spell = toks.flatMap spell') : ∀ tok ∈ toks, P tok := by
  induction toks with
  | nil => nofun
  | cons tok toks ih =>
      rw [List.flatMap_cons, List.flatMap_cons] at h
      have htok : P tok := (hother tok (.head _)).resolve_right fun hne => hne _ _ h
      rw [hsame tok (.head _) htok] at h
      have hrest := ih (fun t ht => hsame t (.tail _ ht)) (fun t ht => hother t (.tail _ ht))
        (List.append_cancel_left h)
      exact List.forall_mem_cons.mpr ⟨htok, hrest⟩

end Tokens

end Repkgs.Lib
