import Mathlib.Data.List.Infix
import Repkgs.Lib.Scan

/-!
# Replacing a word by another

A left-to-right replacement takes a text apart into occurrences of the word and
single elements; what is true of the result is proved along that division.

When the two words are equally long every position stays where it is. If moreover no
occurrence of the word overlaps another, the result is determined position by
position: the new word where the old one stood, and the old text everywhere else.
-/

namespace Repkgs.Lib

variable {α : Type*}

/-- A rule that writes `dst` where it finds `src`. -/
structure Replaces (f : Rule α) (src dst : List α) : Prop where
  found : ∀ {text}, src <+: text → f text = some (src.length, dst)
  other : ∀ {text}, ¬ src <+: text → f text = none

section Division

variable {f : Rule α} {src dst : List α}

/-- The division of a text that a replacement follows. -/
theorem word_induction {P : List α → Prop} (hne : src ≠ []) (nil : P [])
    (found : ∀ rest, P rest → P (src ++ rest))
    (other : ∀ c cs, ¬ src <+: c :: cs → P cs → P (c :: cs)) (text : List α) : P text := by
  induction hn : text.length using Nat.strongRecOn generalizing text with
  | _ n ih =>
      by_cases hsrc : src <+: text
      · obtain ⟨rest, rfl⟩ := hsrc
        have hpos := List.length_pos_of_ne_nil hne
        rw [List.length_append] at hn
        exact found rest (ih _ (by omega) rest rfl)
      · cases text with
        | nil => exact nil
        | cons c cs => exact other c cs hsrc (ih _ (by rw [← hn]; exact Nat.lt_succ_self _) cs rfl)

theorem Replaces.scan_found (hf : Replaces f src dst) (hne : src ≠ []) (rest : List α) :
    scan f (src ++ rest) = dst ++ scan f rest :=
  scan_append_of_some hne (hf.found (List.prefix_append _ _))

theorem Replaces.scan_other (hf : Replaces f src dst) {c : α} {cs : List α}
    (h : ¬ src <+: c :: cs) : scan f (c :: cs) = c :: scan f cs :=
  scan_cons_of_none (hf.other h)

/-- What begins differently from the word is passed over. -/
theorem Replaces.scan_front (hf : Replaces f src dst) {a : α} (ha : src.head? = some a)
    {front : List α} (hfront : a ∉ front) (text : List α) :
    scan f (front ++ text) = front ++ scan f text := by
  induction front with
  | nil => rfl
  | cons c cs ih =>
      rw [List.cons_append, hf.scan_other ?_, ih fun h => hfront (.tail _ h)]
      · rfl
      · intro hpre
        cases src with
        | nil => cases ha
        | cons b src =>
            obtain rfl : b = a := Option.some.inj ha
            obtain ⟨rfl, -⟩ := List.cons_prefix_cons.mp hpre
            exact hfront (.head _)

theorem Replaces.mem_scan (hf : Replaces f src dst) (hne : src ≠ []) {a : α} (text : List α)
    (ha : a ∈ scan f text) : a ∈ text ∨ a ∈ dst := by
  revert ha
  refine word_induction (P := fun text => a ∈ scan f text → a ∈ text ∨ a ∈ dst) hne ?_ ?_ ?_ text
  · exact Or.inl
  · intro rest ih ha
    rw [hf.scan_found hne] at ha
    rcases List.mem_append.mp ha with ha | ha
    · exact Or.inr ha
    · exact (ih ha).imp_left fun h => List.mem_append_right _ h
  · intro c cs hnone ih ha
    rw [hf.scan_other hnone] at ha
    rcases List.mem_cons.mp ha with rfl | ha
    · exact Or.inl (.head _)
    · exact (ih ha).imp_left fun h => List.mem_cons_of_mem c h

/-- Where an element stands that is not in the word, the two sides are replaced apart. -/
theorem Replaces.scan_append_cons (hf : Replaces f src dst) (hne : src ≠ []) {sep : α}
    (hsep : sep ∉ src) (before after : List α) :
    scan f (before ++ sep :: after) = scan f before ++ sep :: scan f after := by
  have hpre : ∀ {front : List α}, src <+: front ++ sep :: after → src <+: front := by
    intro front h
    have hmark : front ++ [sep] <+: front ++ sep :: after := ⟨after, by simp⟩
    by_cases hle : src.length ≤ front.length
    · exact List.prefix_of_prefix_length_le h (List.prefix_append _ _) hle
    · have hlen : (front ++ [sep]).length ≤ src.length := by
        rw [List.length_append, List.length_singleton]
        omega
      have hmem := (List.prefix_of_prefix_length_le hmark h hlen).subset
      exact absurd (hmem (List.mem_append_right _ (.head _))) hsep
  refine word_induction (P := fun before =>
    scan f (before ++ sep :: after) = scan f before ++ sep :: scan f after) hne ?_ ?_ ?_ before
  · exact hf.scan_other fun h => hne (List.prefix_nil.mp (@hpre [] h))
  · intro rest ih
    rw [List.append_assoc, hf.scan_found hne, hf.scan_found hne, ih, List.append_assoc]
  · intro c cs hnone ih
    have hlonger : ¬ src <+: c :: (cs ++ sep :: after) := fun h => hnone (@hpre (c :: cs) h)
    rw [List.cons_append, hf.scan_other hlonger, hf.scan_other hnone, ih, List.cons_append]

/-- A replacement through a mark that the text does not contain. -/
theorem scan_through_mark {g h : Rule α} {mark : α} (hf : Replaces f src [mark])
    (hg : Replaces g [mark] dst) (hh : Replaces h src dst) (hne : src ≠ []) (text : List α)
    (hmark : mark ∉ text) : scan g (scan f text) = scan h text := by
  revert hmark
  refine word_induction (P := fun text => mark ∉ text → scan g (scan f text) = scan h text)
    hne ?_ ?_ ?_ text
  · exact fun _ => rfl
  · intro rest ih hmark
    rw [hf.scan_found hne, hh.scan_found hne, hg.scan_found (List.cons_ne_nil _ _),
      ih fun hmem => hmark (List.mem_append_right _ hmem)]
  · intro c cs hnone ih hmark
    have hc : ¬ [mark] <+: c :: scan f cs := by
      intro hpre
      rw [(List.cons_prefix_cons.mp hpre).1] at hmark
      exact hmark (.head _)
    rw [hf.scan_other hnone, hh.scan_other hnone, hg.scan_other hc,
      ih fun hmem => hmark (.tail _ hmem)]

theorem Replaces.length_le_scan (hf : Replaces f src dst) (hne : src ≠ [])
    (hlen : src.length ≤ dst.length) (text : List α) : text.length ≤ (scan f text).length := by
  refine word_induction (P := fun text => text.length ≤ (scan f text).length) hne le_rfl ?_ ?_ text
  · intro rest ih
    rw [hf.scan_found hne, List.length_append, List.length_append]
    exact Nat.add_le_add hlen ih
  · intro c cs hnone ih
    rw [hf.scan_other hnone]
    exact Nat.succ_le_succ ih

theorem Replaces.length_scan_le (hf : Replaces f src dst) (hne : src ≠ [])
    (hlen : dst.length ≤ src.length) (text : List α) : (scan f text).length ≤ text.length := by
  refine word_induction (P := fun text => (scan f text).length ≤ text.length) hne le_rfl ?_ ?_ text
  · intro rest ih
    rw [hf.scan_found hne, List.length_append, List.length_append]
    exact Nat.add_le_add hlen ih
  · intro c cs hnone ih
    rw [hf.scan_other hnone]
    exact Nat.succ_le_succ ih

/-- A replacement changes every text that contains the word, unless it replaces the
word by itself. -/
theorem Replaces.scan_eq_self_iff (hf : Replaces f src dst) (hne : src ≠ []) (text : List α) :
    scan f text = text ↔ src = dst ∨ ¬ src <:+: text := by
  refine word_induction (P := fun text => scan f text = text ↔ src = dst ∨ ¬ src <:+: text)
    hne ?_ ?_ ?_ text
  · simp [hne]
  · intro rest ih
    rw [hf.scan_found hne]
    have hocc : src <:+: src ++ rest := (List.prefix_append _ _).isInfix
    simp only [hocc, not_true_eq_false, or_false]
    constructor
    · intro heq
      have hlen := congrArg List.length heq
      rw [List.length_append, List.length_append] at hlen
      have hsame : dst.length = src.length := by
        rcases Nat.le_total src.length dst.length with hle | hle
        · have := hf.length_le_scan hne hle rest
          omega
        · have := hf.length_scan_le hne hle rest
          omega
      exact (List.append_inj_left heq hsame).symm
    · intro heq
      rw [ih.mpr (Or.inl heq), heq]
  · intro c cs hnone ih
    rw [hf.scan_other hnone, List.cons.injEq, eq_self, true_and, ih, List.infix_cons_iff]
    simp only [hnone, false_or]

end Division

/-- An occurrence of `v` never begins inside an occurrence of `u`. -/
def Apart (u v : List α) : Prop :=
  ∀ text k, 0 < k → k < u.length → u <+: text → ¬ v <+: text.drop k

/-- Position `i` lies in an occurrence of `word`. -/
def CoveredBy (word text : List α) (i : Nat) : Prop :=
  ∃ q, q ≤ i ∧ i < q + word.length ∧ word <+: text.drop q

theorem getElem?_of_occurs {word text : List α} {q i : Nat} (h : word <+: text.drop q)
    (hi : i < word.length) : text[q + i]? = word[i]? := by
  rw [← List.getElem?_drop, List.getElem?_eq_getElem hi]
  exact List.prefix_iff_getElem?.mp h i hi

theorem occurs_of_getElem? {word text : List α} {q : Nat}
    (h : ∀ i < word.length, text[q + i]? = word[i]?) : word <+: text.drop q := by
  rw [List.prefix_iff_getElem?]
  intro i hi
  rw [List.getElem?_drop, h i hi, List.getElem?_eq_getElem hi]

/-- A text contains a word at some position. -/
theorem infix_iff_occurs {word text : List α} : word <:+: text ↔ ∃ q, word <+: text.drop q := by
  constructor
  · rintro ⟨front, back, rfl⟩
    refine ⟨front.length, ?_⟩
    rw [List.append_assoc, List.drop_left]
    exact List.prefix_append _ _
  · rintro ⟨q, hq⟩
    exact hq.isInfix.trans (List.drop_suffix q text).isInfix

variable {f : Rule α} {src dst word text : List α}

/-- What a replacement by an equally long word does to a text. -/
structure Replaced (src dst text result : List α) : Prop where
  length_eq : result.length = text.length
  inside : ∀ q, src <+: text.drop q → dst <+: result.drop q
  outside : ∀ i, ¬ CoveredBy src text i → result[i]? = text[i]?

private theorem Replaced.cons {c : α} {result : List α} (h : Replaced src dst text result)
    (hnone : ¬ src <+: c :: text) : Replaced src dst (c :: text) (c :: result) where
  length_eq := congrArg (· + 1) h.length_eq
  inside q hq := by
    cases q with
    | zero => exact absurd hq hnone
    | succ q => exact h.inside q hq
  outside i hi := by
    cases i with
    | zero => rfl
    | succ i =>
        refine h.outside i fun hcover => hi ?_
        obtain ⟨q, hle, hlt, hq⟩ := hcover
        exact ⟨q + 1, Nat.succ_le_succ hle, by omega, hq⟩

private theorem Replaced.append {result : List α} (hlen : dst.length = src.length)
    (hself : Apart src src) (h : Replaced src dst text result) :
    Replaced src dst (src ++ text) (dst ++ result) where
  length_eq := by rw [List.length_append, List.length_append, hlen, h.length_eq]
  inside q hq := by
    rcases Nat.lt_or_ge q src.length with hlt | hge
    · rcases Nat.eq_zero_or_pos q with rfl | hpos
      · exact List.prefix_append _ _
      · exact absurd hq (hself _ q hpos hlt (List.prefix_append _ _))
    · obtain ⟨k, rfl⟩ := Nat.exists_eq_add_of_le hge
      rw [List.drop_length_add_append] at hq
      rw [← hlen, List.drop_length_add_append]
      exact h.inside k hq
  outside i hi := by
    rcases Nat.lt_or_ge i src.length with hlt | hge
    · exact absurd ⟨0, Nat.zero_le i, by omega, List.prefix_append _ _⟩ hi
    · obtain ⟨k, rfl⟩ := Nat.exists_eq_add_of_le hge
      rw [List.getElem?_append_right (by omega), List.getElem?_append_right hge,
        hlen, Nat.add_sub_cancel_left]
      refine h.outside k fun hcover => hi ?_
      obtain ⟨q, hle, hlt, hq⟩ := hcover
      refine ⟨src.length + q, by omega, by omega, ?_⟩
      rw [List.drop_length_add_append]
      exact hq

theorem Replaces.replaced (hf : Replaces f src dst) (hne : src ≠ [])
    (hlen : dst.length = src.length) (hself : Apart src src) (text : List α) :
    Replaced src dst text (scan f text) := by
  refine word_induction (P := fun text => Replaced src dst text (scan f text)) hne ?_ ?_ ?_ text
  · exact ⟨rfl, fun q hq => absurd (by simpa using hq) hne, fun _ _ => rfl⟩
  · intro rest ih
    rw [hf.scan_found hne]
    exact ih.append hlen hself
  · intro c cs hnone ih
    rw [hf.scan_other hnone]
    exact ih.cons hnone

namespace Replaced

variable {result : List α}

/-- The result of a replacement is determined. -/
theorem unique {result' : List α} (hlen : dst.length = src.length)
    (h : Replaced src dst text result) (h' : Replaced src dst text result') : result = result' := by
  apply List.ext_getElem?
  intro i
  by_cases hcover : CoveredBy src text i
  · obtain ⟨q, hle, hlt, hq⟩ := hcover
    obtain ⟨k, rfl⟩ := Nat.exists_eq_add_of_le hle
    have hk : k < dst.length := by omega
    rw [getElem?_of_occurs (h.inside q hq) hk, getElem?_of_occurs (h'.inside q hq) hk]
  · rw [h.outside i hcover, h'.outside i hcover]

/-- A text without the word stays as it is. -/
theorem eq_self (h : Replaced src dst text result) (hnone : ∀ q, ¬ src <+: text.drop q) :
    result = text := by
  apply List.ext_getElem?
  intro i
  exact h.outside i fun ⟨q, _, _, hq⟩ => hnone q hq

/-- Which words of this length stand in the result. Those that stood there before
do, except for the replaced one. -/
theorem occurs_iff (h : Replaced src dst text result) (hsrc : src.length = word.length)
    (hdst : dst.length = word.length) (hws : Apart word src) (hsw : Apart src word)
    (hwd : Apart word dst) (hdw : Apart dst word) (q : Nat) :
    word <+: result.drop q ↔ (src <+: text.drop q ∧ word = dst) ∨
      (¬ src <+: text.drop q ∧ word <+: text.drop q) := by
  -- an occurrence of the old word elsewhere that touches this place
  have hover : ∀ {t u : List α}, u.length = word.length → Apart word u → Apart u word →
      word <+: t.drop q → ∀ p, p ≠ q → p < q + word.length → q < p + word.length →
      ¬ u <+: t.drop p := by
    intro t u hu hwu huw hw p hne hlo hhi hocc
    rcases Nat.lt_or_gt_of_ne hne with hlt | hgt
    · refine huw (t.drop p) (q - p) (by omega) (by omega) hocc ?_
      rwa [List.drop_drop, Nat.add_sub_cancel' hlt.le]
    · refine hwu (t.drop q) (p - q) (by omega) (by omega) hw ?_
      rwa [List.drop_drop, Nat.add_sub_cancel' hgt.le]
  by_cases hold : src <+: text.drop q
  · simp only [hold, true_and, not_true_eq_false, false_and, or_false]
    have hnew := h.inside q hold
    constructor
    · intro hw
      exact (List.prefix_of_prefix_length_le hw hnew hdst.ge).eq_of_length hdst.symm
    · rintro rfl
      exact hnew
  · simp only [hold, false_and, not_false_eq_true, true_and, false_or]
    have hsame : (∀ p, p ≠ q → p < q + word.length → q < p + word.length →
        ¬ src <+: text.drop p) → ∀ i < word.length, result[q + i]? = text[q + i]? := by
      intro hfree i hi
      refine h.outside _ fun ⟨p, hle, hlt, hp⟩ => ?_
      by_cases hpq : p = q
      · exact hold (hpq ▸ hp)
      · exact hfree p hpq (by omega) (by omega) hp
    constructor
    · intro hw
      apply occurs_of_getElem?
      intro i hi
      rw [← getElem?_of_occurs hw hi]
      refine (hsame (fun p hne hlo hhi hp => ?_) i hi).symm
      exact hover hdst hwd hdw hw p hne hlo hhi (h.inside p hp)
    · intro hw
      apply occurs_of_getElem?
      intro i hi
      rw [← getElem?_of_occurs hw hi]
      exact hsame (hover hsrc hws hsw hw) i hi

/-- Two replacements in a row are one, if the word between was not there before. -/
theorem trans {mid : List α} {last : List α} (h : Replaced src mid text result)
    (h' : Replaced mid dst result last) (hlen : mid.length = src.length)
    (hocc : ∀ q, mid <+: result.drop q → src <+: text.drop q) : Replaced src dst text last where
  length_eq := h'.length_eq.trans h.length_eq
  inside q hq := h'.inside q (h.inside q hq)
  outside i hi := by
    rw [h'.outside i, h.outside i hi]
    rintro ⟨q, hle, hlt, hq⟩
    exact hi ⟨q, hle, hlen ▸ hlt, hocc q hq⟩

end Replaced

end Repkgs.Lib
