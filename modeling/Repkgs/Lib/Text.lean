import Mathlib.Data.List.TakeWhile
import Mathlib.Data.List.Induction
import Repkgs.Lib.Bytes

/-!
# Lines and fields

Splitting a text at a byte, without the empty pieces, and cutting it at the
first such byte.
-/

namespace Repkgs.Lib

/-- The byte of an ASCII character. -/
def chr (c : Char) : Byte := UInt8.ofNat c.toNat

def isDigit (b : Byte) : Bool := 48 ≤ b && b ≤ 57

/-- The number a string of decimal digits denotes. -/
def parseDecimal (ds : Bytes) : Nat := ds.foldl (fun n b => 10 * n + (b.toNat - 48)) 0

/-- The non-empty pieces of a text between separators. -/
def split (text : Bytes) (sep : Byte) : List Bytes :=
  (text.splitOn sep).filter fun piece => !piece.isEmpty

/-- `needle` occurs in the text. -/
def containsText (text needle : Bytes) : Bool := text.tails.any needle.isPrefixOf

/-- The part of a text before the first `stop`, and the part from there on. -/
def cut (stop : Byte) (text : Bytes) : Bytes × Bytes :=
  (text.takeWhile (· ≠ stop), text.dropWhile (· ≠ stop))

theorem cut_append (stop : Byte) (text : Bytes) : (cut stop text).1 ++ (cut stop text).2 = text :=
  List.takeWhile_append_dropWhile

variable {text piece : Bytes} {α : Type*} {sep : Byte}

theorem cut_of_notMem {stop : Byte} (h : stop ∉ text) : cut stop text = (text, []) := by
  have hall : ∀ c ∈ text, (decide (c ≠ stop)) = true := by
    intro c hc
    exact decide_eq_true fun heq => h (heq ▸ hc)
  exact Prod.ext (List.takeWhile_eq_self_iff.mpr hall) (List.dropWhile_eq_nil_iff.mpr hall)

theorem cut_append_cons {stop : Byte} (h : stop ∉ text) (rest : Bytes) :
    cut stop (text ++ stop :: rest) = (text, stop :: rest) := by
  have hall : ∀ c ∈ text, (decide (c ≠ stop)) = true := by
    intro c hc
    exact decide_eq_true fun heq => h (heq ▸ hc)
  apply Prod.ext
  · refine (List.takeWhile_append_of_pos hall).trans ?_
    rw [List.takeWhile_cons_of_neg (by simp), List.append_nil]
  · refine (List.dropWhile_append_of_pos hall).trans ?_
    exact List.dropWhile_cons_of_neg (by simp)

theorem notMem_cut_fst (stop : Byte) (text : Bytes) : stop ∉ (cut stop text).1 := by
  intro h
  have hne := List.mem_takeWhile_imp h
  simp at hne

theorem cut_snd (stop : Byte) (text : Bytes) :
    (cut stop text).2 = [] ∨ ∃ rest, (cut stop text).2 = stop :: rest := by
  induction text with
  | nil => exact Or.inl rfl
  | cons c cs ih =>
      by_cases hc : c = stop
      · subst hc
        exact Or.inr ⟨cs, by simp [cut]⟩
      · have hdrop : (cut stop (c :: cs)).2 = (cut stop cs).2 := by simp [cut, hc]
        rw [hdrop]
        exact ih

theorem cut_of_mem {stop : Byte} (h : stop ∈ text) :
    text = (cut stop text).1 ++ stop :: (cut stop text).2.drop 1 := by
  have happend := cut_append stop text
  rcases cut_snd stop text with hnil | ⟨rest, hrest⟩
  · rw [hnil, List.append_nil] at happend
    exact absurd (by rw [happend]; exact h) (notMem_cut_fst stop text)
  · rw [hrest] at happend ⊢
    exact happend.symm

theorem eq_take_append_cons {l : List α} {n : Nat} {c : α} (h : l[n]? = some c) :
    l = l.take n ++ c :: l.drop (n + 1) := by
  obtain ⟨hlt, rfl⟩ := List.getElem?_eq_some_iff.mp h
  rw [← List.drop_eq_getElem_cons hlt, List.take_append_drop]

/-- Two lists are cut at the first occurrence of a marker. -/
theorem append_cons_inj {a : α} {x₁ x₂ z₁ z₂ : List α} (h₁ : a ∉ x₁) (h₂ : a ∉ x₂)
    (h : x₁ ++ a :: z₁ = x₂ ++ a :: z₂) : x₁ = x₂ ∧ z₁ = z₂ := by
  induction x₁ generalizing x₂ with
  | nil =>
      cases x₂ with
      | nil => exact ⟨rfl, (List.cons.inj h).2⟩
      | cons c cs =>
          rw [(List.cons.inj h).1] at h₂
          exact absurd (.head _) h₂
  | cons b x₁ ih =>
      cases x₂ with
      | nil =>
          rw [(List.cons.inj h).1] at h₁
          exact absurd (.head _) h₁
      | cons c cs =>
          obtain ⟨hhead, htail⟩ := List.cons.inj h
          obtain ⟨hx, hz⟩ := ih (fun hmem => h₁ (.tail _ hmem))
            (fun hmem => h₂ (.tail _ hmem)) htail
          exact ⟨by rw [hhead, hx], hz⟩

/-- Two lists are cut at the last occurrence of a marker. -/
theorem append_cons_inj_last {a : α} {x₁ x₂ z₁ z₂ : List α} (h₁ : a ∉ z₁) (h₂ : a ∉ z₂)
    (h : x₁ ++ a :: z₁ = x₂ ++ a :: z₂) : x₁ = x₂ ∧ z₁ = z₂ := by
  have hreverse : z₁.reverse ++ a :: x₁.reverse = z₂.reverse ++ a :: x₂.reverse := by
    simpa using congrArg List.reverse h
  obtain ⟨hz, hx⟩ := append_cons_inj (by simpa using h₁) (by simpa using h₂) hreverse
  exact ⟨List.reverse_injective hx, List.reverse_injective hz⟩

/-- Texts that end in equally many lines agree in these lines and in front of them. -/
theorem append_lines_inj {a : α} {x₁ x₂ : List α} {l₁ l₂ : List (List α)}
    (h₁ : ∀ line ∈ l₁, a ∉ line) (h₂ : ∀ line ∈ l₂, a ∉ line) (hlen : l₁.length = l₂.length)
    (h : x₁ ++ l₁.flatMap (a :: ·) = x₂ ++ l₂.flatMap (a :: ·)) : x₁ = x₂ ∧ l₁ = l₂ := by
  induction l₁ using List.reverseRecOn generalizing l₂ with
  | nil =>
      rw [List.length_eq_zero_iff.mp hlen.symm] at h ⊢
      exact ⟨by simpa using h, rfl⟩
  | append_singleton l₁ line₁ ih =>
      rcases List.eq_nil_or_concat l₂ with rfl | ⟨l₂, line₂, rfl⟩
      · simp at hlen
      · have htail : (x₁ ++ l₁.flatMap (a :: ·)) ++ a :: line₁ =
            (x₂ ++ l₂.flatMap (a :: ·)) ++ a :: line₂ := by simpa using h
        obtain ⟨hfront, hline⟩ :=
          append_cons_inj_last (h₁ line₁ (by simp)) (h₂ line₂ (by simp)) htail
        obtain ⟨hx, hl⟩ := ih (fun l hl => h₁ l (by simp [hl])) (fun l hl => h₂ l (by simp [hl]))
          (by simpa using hlen) hfront
        exact ⟨hx, by rw [hl, hline, List.concat_eq_append]⟩

/-- A piece that stands between two separators, whatever is around it. -/
theorem mem_split {piece before after : Bytes} (hsep : sep ∉ piece) (hne : piece ≠ [])
    (hbefore : before = [] ∨ ∃ b, before = b ++ [sep]) :
    piece ∈ split (before ++ piece ++ sep :: after) sep := by
  have hall : ∀ c ∈ piece, (c == sep) = false := by
    intro c hc
    exact beq_false_of_ne fun heq => hsep (heq ▸ hc)
  have hpiece : piece ∈ (piece ++ sep :: after).splitOn sep := by
    rw [List.splitOn, List.splitOnP_append_cons_of_forall_mem hall sep (beq_self_eq_true sep)]
    exact .head _
  refine List.mem_filter.mpr ⟨?_, by simpa using hne⟩
  rcases hbefore with rfl | ⟨b, rfl⟩
  · exact hpiece
  · have hsplit : b ++ [sep] ++ piece ++ sep :: after = b ++ sep :: (piece ++ sep :: after) := by
      simp
    rw [hsplit, List.splitOn, List.splitOnP_append_cons b _ (p := (· == sep))
      (beq_self_eq_true sep)]
    exact List.mem_append_right _ hpiece

/-- A separator parts the pieces in front of it from those behind it. -/
theorem split_append_cons (sep : Byte) (before after : Bytes) :
    split (before ++ sep :: after) sep = split before sep ++ split after sep := by
  rw [split, List.splitOn, List.splitOnP_append_cons before _ (p := (· == sep))
    (beq_self_eq_true sep), List.filter_append]
  rfl

theorem split_eq_singleton (h : sep ∉ text) (hne : text ≠ []) :
    split text sep = [text] := by
  rw [split, List.splitOn_eq_singleton h]
  simp [hne]

/-- Lines without a separator in them are the pieces of their text. -/
theorem split_flatMap {lines : List Bytes} (h : ∀ line ∈ lines, sep ∉ line) :
    split (lines.flatMap (· ++ [sep])) sep = lines.filter fun line => !line.isEmpty := by
  induction lines with
  | nil => rfl
  | cons line lines ih =>
      have hline : ∀ c ∈ line, (c == sep) = false := by
        intro c hc
        exact beq_false_of_ne fun heq => h line (.head _) (heq ▸ hc)
      have hrest := ih fun l hl => h l (.tail _ hl)
      have htext : (line :: lines).flatMap (· ++ [sep]) =
          line ++ sep :: lines.flatMap (· ++ [sep]) := by simp
      rw [split, List.splitOn] at hrest ⊢
      rw [htext, List.splitOnP_append_cons_of_forall_mem hline sep (beq_self_eq_true sep),
        List.filter_cons, List.filter_cons, hrest]

theorem splitOn_eq_cons (sep : Byte) (text : Bytes) : text.splitOn sep =
    (cut sep text).1 ::
      if sep ∈ text then ((cut sep text).2.drop 1).splitOn sep else [] := by
  have htext := cut_append sep text
  have hfirst := notMem_cut_fst sep text
  rcases cut_snd sep text with hnil | ⟨rest, hcons⟩
  · rw [hnil, List.append_nil] at htext
    rw [htext] at hfirst ⊢
    rw [if_neg hfirst, List.splitOn_eq_singleton hfirst]
  · rw [hcons] at htext ⊢
    have hmem : sep ∈ text := htext ▸ List.mem_append_right _ (.head _)
    have hall : ∀ c ∈ (cut sep text).1, (c == sep) = false := by
      intro c hc
      exact beq_false_of_ne fun heq => hfirst (heq ▸ hc)
    rw [if_pos hmem, List.drop_one, List.tail_cons]
    nth_rewrite 1 [← htext]
    rw [List.splitOn, List.splitOnP_append_cons_of_forall_mem hall sep (beq_self_eq_true sep)]
    rfl

/-- What stands in front of the first separator belongs to the first piece. -/
theorem head_splitOn_of_notMem {front : Bytes} (h : sep ∉ front) (rest : Bytes) :
    ∃ piece pieces, (front ++ rest).splitOn sep = piece :: pieces ∧ front <+: piece := by
  refine ⟨_, _, splitOn_eq_cons sep (front ++ rest), ?_⟩
  have hall : ∀ c ∈ front, decide (c ≠ sep) = true := by
    intro c hc
    exact decide_eq_true fun heq => h (heq ▸ hc)
  refine ⟨rest.takeWhile fun c => decide (c ≠ sep), ?_⟩
  rw [cut]
  exact (List.takeWhile_append_of_pos hall).symm

theorem splitOn_append_cons {front : Bytes} (h : sep ∉ front) (rest : Bytes) :
    (front ++ sep :: rest).splitOn sep = front :: rest.splitOn sep := by
  rw [splitOn_eq_cons, cut_append_cons h, if_pos (List.mem_append_right _ (.head _))]
  rfl

/-- A piece holds none of the separators. -/
theorem of_mem_splitOnP {p : Byte → Bool} (h : piece ∈ text.splitOnP p) :
    ∀ c ∈ piece, p c = false := by
  induction text generalizing piece with
  | nil =>
      rw [List.splitOnP_nil, List.mem_singleton] at h
      exact fun c hc => absurd (h ▸ hc) List.not_mem_nil
  | cons b text ih =>
      rw [List.splitOnP_cons_eq_if_modifyHead] at h
      cases hb : p b with
      | true =>
          rw [hb, if_pos rfl] at h
          rcases List.mem_cons.mp h with rfl | h
          · exact fun c hc => absurd hc List.not_mem_nil
          · exact ih h
      | false =>
          rw [hb, if_neg (by decide)] at h
          cases hpieces : text.splitOnP p with
          | nil =>
              rw [hpieces] at h
              exact absurd h List.not_mem_nil
          | cons first rest =>
              rw [hpieces, List.modifyHead_cons] at h
              rw [hpieces] at ih
              rcases List.mem_cons.mp h with rfl | h
              · intro c hc
                rcases List.mem_cons.mp hc with rfl | hc
                · exact hb
                · exact ih (.head _) c hc
              · exact ih (.tail _ h)

theorem of_mem_split (h : piece ∈ split text sep) :
    sep ∉ piece ∧ piece ≠ [] := by
  obtain ⟨hmem, hne⟩ := List.mem_filter.mp h
  refine ⟨fun hsep => absurd (of_mem_splitOnP hmem sep hsep) (by simp), ?_⟩
  simpa using hne

end Repkgs.Lib
