import Repkgs.Lib.Failing
import Repkgs.Lib.SortedPairs
import Repkgs.Lib.Text

/-!
# Tables of inline tables in TOML

The part of TOML that holds records of strings: a document is a list of tables,
each with one line `key = { name = "text", ... }` for an entry. Keys are bare or
quoted, strings have no escapes. As in all of TOML nothing is defined twice.
-/

namespace Repkgs.Lib

namespace Map

variable {κ ν : Type*} [DecidableEq κ]

/-- Bind a key that is not bound yet. -/
def bindNew (m : Map κ ν) (e : κ × ν) : Option (Map κ ν) :=
  if (m.lookup e.1).isSome then none else some (m.insert e.1 e.2)

/-- The map of bindings with different keys. -/
def ofDistinct (bindings : List (κ × ν)) : Option (Map κ ν) := bindings.foldlM bindNew ∅

/-- Bindings are added to a map unless a key is repeated or already bound. -/
theorem foldlM_bindNew (bindings : List (κ × ν)) (m : Map κ ν) :
    (∃ m', bindings.foldlM bindNew m = some m' ∧
      (∀ k v, m'.lookup k = some v ↔ m.lookup k = some v ∨ (k, v) ∈ bindings) ∧
      (bindings.map Prod.fst).Nodup ∧ ∀ e ∈ bindings, m.lookup e.1 = none) ∨
    bindings.foldlM bindNew m = none ∧
      ¬ ((bindings.map Prod.fst).Nodup ∧ ∀ e ∈ bindings, m.lookup e.1 = none) := by
  induction bindings generalizing m with
  | nil => exact Or.inl ⟨m, rfl, by simp, List.nodup_nil, nofun⟩
  | cons e bindings ih =>
      rw [List.foldlM_cons, bindNew]
      cases hm : m.lookup e.1 with
      | some v =>
          refine Or.inr ⟨rfl, fun h => ?_⟩
          rw [h.2 e (.head _)] at hm
          cases hm
      | none =>
          -- what is behind `e` meets a map in which `e` is bound
          have hfree : (∀ e' ∈ bindings, (m.insert e.1 e.2).lookup e'.1 = none) ↔
              e.1 ∉ bindings.map Prod.fst ∧ ∀ e' ∈ bindings, m.lookup e'.1 = none := by
            simp only [lookup_insert_eq, List.mem_map, not_exists, not_and]
            constructor
            · intro h
              refine ⟨fun e' he' heq => ?_, fun e' he' => ?_⟩
              · simpa [heq] using h e' he'
              · have := h e' he'
                split at this
                · cases this
                · exact this
            · intro h e' he'
              rw [if_neg (h.1 e' he'), h.2 e' he']
          rcases ih (m.insert e.1 e.2) with ⟨m', hrun, hlookup, hnodup, hnew⟩ | ⟨hrun, hnot⟩
          · obtain ⟨hnotMem, hnew⟩ := hfree.mp hnew
            refine Or.inl ⟨m', hrun, fun k v => ?_, List.nodup_cons.mpr ⟨hnotMem, hnodup⟩,
              List.forall_mem_cons.mpr ⟨hm, hnew⟩⟩
            rw [hlookup, lookup_insert_eq, List.mem_cons, ← or_assoc]
            refine or_congr_left ?_
            by_cases hk : k = e.1
            · subst hk
              rw [if_pos rfl, hm, Option.some.injEq, Prod.mk.injEq]
              simp [eq_comm]
            · rw [if_neg hk]
              simp [Prod.ext_iff, hk]
          · refine Or.inr ⟨hrun, fun h => hnot ?_⟩
            rw [List.map_cons, List.nodup_cons, List.forall_mem_cons] at h
            exact ⟨h.1.2, hfree.mpr ⟨h.1.1, h.2.2⟩⟩

theorem ofDistinct_of_nodup {bindings : List (κ × ν)} (h : (bindings.map Prod.fst).Nodup) :
    ∃ m, ofDistinct bindings = some m ∧ ∀ k v, m.lookup k = some v ↔ (k, v) ∈ bindings := by
  rcases foldlM_bindNew bindings (∅ : Map κ ν) with ⟨m, hrun, hlookup, -⟩ | ⟨-, hnot⟩
  · exact ⟨m, hrun, fun k v => by simp [hlookup]⟩
  · exact absurd ⟨h, fun _ _ => AList.lookup_empty _⟩ hnot

theorem ofDistinct_eq_none {bindings : List (κ × ν)} (h : ¬ (bindings.map Prod.fst).Nodup) :
    ofDistinct bindings = none := by
  rcases foldlM_bindNew bindings (∅ : Map κ ν) with ⟨-, -, -, hnodup, -⟩ | ⟨hrun, -⟩
  · exact absurd hnodup h
  · exact hrun

end Map

namespace Toml

def isBlank (b : Byte) : Bool := b == chr ' ' || b == chr '\t'

/-- The letters of a bare key. -/
def isBare (b : Byte) : Bool :=
  (chr 'a' ≤ b && b ≤ chr 'z') || (chr 'A' ≤ b && b ≤ chr 'Z') || isDigit b || b == chr '_' ||
    b == chr '-'

/-- What stands for itself in a string: no quote, no backslash and no control character. -/
def isPlain (b : Byte) : Bool := b != chr '"' && b != chr '\\' && 32 ≤ b && b != 127

def skipBlanks (s : Bytes) : Bytes := s.dropWhile isBlank

/-- The text behind a given byte. -/
def expect (b : Byte) : Bytes → Option Bytes
  | [] => none
  | c :: rest => if c = b then some rest else none

def basicString (s : Bytes) : Option (Bytes × Bytes) :=
  expect (chr '"') s >>= fun s =>
    expect (chr '"') (s.dropWhile isPlain) >>= fun rest => some (s.takeWhile isPlain, rest)

def bareKey (s : Bytes) : Option (Bytes × Bytes) :=
  if s.takeWhile isBare = [] then none else some (s.takeWhile isBare, s.dropWhile isBare)

def key (s : Bytes) : Option (Bytes × Bytes) := (basicString s).or (bareKey s)

/-- A key and the sign behind it. -/
def assigned (s : Bytes) : Option (Bytes × Bytes) :=
  key s >>= fun k =>
    expect (chr '=') (skipBlanks k.2) >>= fun rest => some (k.1, skipBlanks rest)

def pair (s : Bytes) : Option ((Bytes × Bytes) × Bytes) :=
  assigned s >>= fun k =>
    basicString k.2 >>= fun v => some ((k.1, v.1), skipBlanks v.2)

/-- The members of an inline table and its closing brace, for at most so many members. -/
def pairsFrom : Nat → Bytes → Option (List (Bytes × Bytes) × Bytes)
  | 0, _ => none
  | fuel + 1, s =>
      pair s >>= fun p =>
        match expect (chr '\x7d') p.2 with
        | some rest => some ([p.1], rest)
        | none =>
            expect (chr ',') p.2 >>= fun rest =>
              pairsFrom fuel (skipBlanks rest) >>= fun ps => some (p.1 :: ps.1, ps.2)

def inlineTable (s : Bytes) : Option (List (Bytes × Bytes) × Bytes) :=
  expect (chr '\x7b') s >>= fun s =>
    match expect (chr '\x7d') (skipBlanks s) with
    | some rest => some ([], rest)
    | none => pairsFrom s.length (skipBlanks s)

/-- What a line holds. -/
inductive Line
  | blank
  | header (name : Bytes)
  | entry (name : Bytes) (members : List (Bytes × Bytes))
  deriving DecidableEq

/-- The end of a line, where a comment may stand. -/
def isEnd (s : Bytes) : Bool := (skipBlanks s).isEmpty || (skipBlanks s).head? == some (chr '#')

def readLine (s : Bytes) : Option Line :=
  if isEnd s then some .blank
  else
    match expect (chr '[') (skipBlanks s) with
    | some s =>
        key (skipBlanks s) >>= fun k =>
          expect (chr ']') (skipBlanks k.2) >>= fun rest =>
            if isEnd rest then some (.header k.1) else none
    | none =>
        assigned (skipBlanks s) >>= fun k =>
          inlineTable k.2 >>= fun t => if isEnd t.2 then some (.entry k.1 t.1) else none

/-- The entries before the first header, and those behind each header. -/
def sections : List Line →
    List (Bytes × List (Bytes × Bytes)) × List (Bytes × List (Bytes × List (Bytes × Bytes)))
  | [] => ([], [])
  | .blank :: lines => sections lines
  | .entry name members :: lines => ((name, members) :: (sections lines).1, (sections lines).2)
  | .header name :: lines => ([], (name, (sections lines).1) :: (sections lines).2)

/-- A table whose entries have string members. -/
abbrev Table := Map Bytes (Map Bytes Bytes)

def table (entries : List (Bytes × List (Bytes × Bytes))) : Option Table :=
  entries.mapM (fun e => (Map.ofDistinct e.2).map fun m => (e.1, m)) >>= Map.ofDistinct

/-- A document of such tables; entries before the first header are not of this kind. -/
def document (text : Bytes) : Option (Map Bytes Table) :=
  (text.splitOn (chr '\n')).mapM readLine >>= fun lines =>
    if (sections lines).1 ≠ [] then none
    else (sections lines).2.mapM (fun s => (table s.2).map fun t => (s.1, t)) >>= Map.ofDistinct

def Bare (name : Bytes) : Prop := name ≠ [] ∧ ∀ b ∈ name, isBare b

def Plain (text : Bytes) : Prop := ∀ b ∈ text, isPlain b

instance (text : Bytes) : Decidable (Plain text) := List.decidableBAll _ text

instance (name : Bytes) : Decidable (Bare name) :=
  have := List.decidableBAll (fun b => isBare b = true) name
  inferInstanceAs (Decidable (name ≠ [] ∧ ∀ b ∈ name, isBare b))

def quoted (text : Bytes) : Bytes := chr '"' :: (text ++ [chr '"'])

def member (m : Bytes × Bytes) : Bytes := m.1 ++ (ascii " = " ++ quoted m.2)

def members (ms : List (Bytes × Bytes)) : Bytes := (ascii ", ").intercalate (ms.map member)

def entry (name : Bytes) (ms : List (Bytes × Bytes)) : Bytes :=
  quoted name ++ (ascii " = \x7b " ++ (members ms ++ ascii " \x7d"))

def header (name : Bytes) : Bytes := chr '[' :: (name ++ [chr ']'])

@[simp] theorem expect_self (b : Byte) (rest : Bytes) : expect b (b :: rest) = some rest :=
  if_pos rfl

theorem expect_of_ne {b c : Byte} (h : c ≠ b) (rest : Bytes) : expect b (c :: rest) = none :=
  if_neg h

variable {text name : Bytes} {ms : List (Bytes × Bytes)}

theorem takeWhile_append_stop {p : Byte → Bool} (h : ∀ b ∈ text, p b) {stop : Byte}
    (hstop : p stop = false) (rest : Bytes) :
    (text ++ stop :: rest).takeWhile p = text ∧
      (text ++ stop :: rest).dropWhile p = stop :: rest := by
  constructor
  · rw [List.takeWhile_append_of_pos h, List.takeWhile_cons_of_neg (by simp [hstop]),
      List.append_nil]
  · rw [List.dropWhile_append_of_pos h, List.dropWhile_cons_of_neg (by simp [hstop])]

theorem skipBlanks_of_not {b : Byte} (h : isBlank b = false) (rest : Bytes) :
    skipBlanks (b :: rest) = b :: rest :=
  List.dropWhile_cons_of_neg (by simp [h])

theorem skipBlanks_blank (rest : Bytes) : skipBlanks (chr ' ' :: rest) = skipBlanks rest :=
  List.dropWhile_cons_of_pos (by decide)

theorem basicString_quoted (h : Plain text) (rest : Bytes) :
    basicString (quoted text ++ rest) = some (text, rest) := by
  obtain ⟨htake, hdrop⟩ := takeWhile_append_stop h (show isPlain (chr '"') = false by decide) rest
  have hquoted : quoted text ++ rest = chr '"' :: (text ++ chr '"' :: rest) := by
    simp [quoted]
  rw [basicString, hquoted, expect_self, Option.bind_eq_bind, Option.bind_some, htake, hdrop,
    expect_self]
  rfl

theorem key_quoted (h : Plain text) (rest : Bytes) :
    key (quoted text ++ rest) = some (text, rest) := by
  rw [key, basicString_quoted h]
  rfl

theorem isBare_ne {b c : Byte} (h : isBare b) (hc : isBare c = false) : b ≠ c := by
  rintro rfl
  rw [h] at hc
  cases hc

theorem key_bare (h : Bare name) {stop : Byte} (hstop : isBare stop = false) (rest : Bytes) :
    key (name ++ stop :: rest) = some (name, stop :: rest) := by
  obtain ⟨htake, hdrop⟩ := takeWhile_append_stop h.2 hstop rest
  have hstring : basicString (name ++ stop :: rest) = none := by
    obtain ⟨b, tail, rfl⟩ := List.exists_cons_of_ne_nil h.1
    have hne : b ≠ chr '"' := isBare_ne (h.2 b (.head _)) (by decide)
    rw [basicString, List.cons_append, expect_of_ne hne]
    rfl
  rw [key, hstring, Option.none_or, bareKey, htake, hdrop, if_neg h.1]

theorem pair_member (hname : Bare name) (htext : Plain text) (rest : Bytes) :
    pair (member (name, text) ++ rest) = some ((name, text), skipBlanks rest) := by
  have hmember : member (name, text) ++ rest =
      name ++ chr ' ' :: chr '=' :: chr ' ' :: (quoted text ++ rest) := by
    simp [member, show ascii " = " = [chr ' ', chr '=', chr ' '] by decide]
  have hquote : skipBlanks (quoted text ++ rest) = quoted text ++ rest :=
    skipBlanks_of_not (by decide) _
  have hassigned : assigned (member (name, text) ++ rest) = some (name, quoted text ++ rest) := by
    rw [hmember, assigned, key_bare hname (by decide), Option.bind_eq_bind, Option.bind_some,
      skipBlanks_blank, skipBlanks_of_not (by decide), expect_self, Option.bind_eq_bind,
      Option.bind_some, skipBlanks_blank, hquote]
  rw [pair, hassigned, Option.bind_eq_bind, Option.bind_some, basicString_quoted htext]
  rfl

theorem skipBlanks_member {m : Bytes × Bytes} (h : Bare m.1) (rest : Bytes) :
    skipBlanks (member m ++ rest) = member m ++ rest ∧
      expect (chr '\x7d') (member m ++ rest) = none := by
  obtain ⟨name, text⟩ := m
  obtain ⟨b, tail, rfl⟩ := List.exists_cons_of_ne_nil h.1
  have hb := h.2 b (.head _)
  have hblank : isBlank b = false := by
    simp only [isBlank, Bool.or_eq_false_iff, beq_eq_false_iff_ne]
    exact ⟨isBare_ne hb (by decide), isBare_ne hb (by decide)⟩
  exact ⟨skipBlanks_of_not hblank _, expect_of_ne (isBare_ne hb (by decide)) _⟩

theorem members_cons (m m' : Bytes × Bytes) (ms : List (Bytes × Bytes)) :
    members (m :: m' :: ms) = member m ++ (ascii ", " ++ members (m' :: ms)) := by
  simp [members, List.intercalate]

theorem skipBlanks_members (hne : ms ≠ []) (h : ∀ m ∈ ms, Bare m.1) (rest : Bytes) :
    skipBlanks (members ms ++ rest) = members ms ++ rest ∧
      expect (chr '\x7d') (members ms ++ rest) = none := by
  obtain ⟨m, ms, rfl⟩ := List.exists_cons_of_ne_nil hne
  have hbare := h m (.head _)
  cases ms with
  | nil => simpa [members] using skipBlanks_member hbare rest
  | cons m' ms =>
      rw [members_cons, List.append_assoc]
      exact skipBlanks_member hbare _

theorem pairsFrom_members (hne : ms ≠ []) (h : ∀ m ∈ ms, Bare m.1 ∧ Plain m.2) {fuel : Nat}
    (hfuel : ms.length ≤ fuel) (rest : Bytes) :
    pairsFrom fuel (members ms ++ (ascii " \x7d" ++ rest)) = some (ms, rest) := by
  induction ms generalizing fuel with
  | nil => exact absurd rfl hne
  | cons m ms ih =>
      obtain ⟨fuel, rfl⟩ : ∃ n, fuel = n + 1 := ⟨fuel - 1, by rw [List.length_cons] at hfuel; omega⟩
      obtain ⟨hname, htext⟩ := h m (.head _)
      cases ms with
      | nil =>
          have hclose : skipBlanks (ascii " \x7d" ++ rest) = chr '\x7d' :: rest :=
            (skipBlanks_blank _).trans (skipBlanks_of_not (by decide) _)
          rw [pairsFrom, show members [m] = member m by simp [members], pair_member hname htext,
            hclose]
          simp
      | cons m' ms =>
          have hcomma (tail : Bytes) :
              skipBlanks (ascii ", " ++ tail) = chr ',' :: chr ' ' :: tail :=
            skipBlanks_of_not (by decide) _
          have hnext : skipBlanks (chr ' ' :: (members (m' :: ms) ++ (ascii " \x7d" ++ rest))) =
              members (m' :: ms) ++ (ascii " \x7d" ++ rest) := by
            rw [skipBlanks_blank]
            exact (skipBlanks_members (List.cons_ne_nil m' ms)
              (fun m hm => (h m (.tail _ hm)).1) _).1
          rw [pairsFrom, members_cons, List.append_assoc, List.append_assoc,
            pair_member hname htext, Option.bind_eq_bind, Option.bind_some, hcomma,
            expect_of_ne (by decide), expect_self]
          have hrec : pairsFrom fuel (members (m' :: ms) ++ (ascii " \x7d" ++ rest)) =
              some (m' :: ms, rest) :=
            ih (List.cons_ne_nil m' ms) (fun m hm => h m (.tail _ hm))
              (Nat.le_of_succ_le_succ hfuel)
          simp [hnext, hrec]

theorem length_le_members (ms : List (Bytes × Bytes)) : ms.length ≤ (members ms).length := by
  induction ms with
  | nil => exact Nat.le_refl _
  | cons m ms ih =>
      have hm : 1 ≤ (member m).length := by
        simp only [member, quoted, List.length_append, List.length_cons]
        omega
      cases ms with
      | nil => simpa [members] using hm
      | cons m' ms =>
          rw [members_cons]
          simp only [List.length_append, List.length_cons] at ih ⊢
          omega

theorem inlineTable_members (h : ∀ m ∈ ms, Bare m.1 ∧ Plain m.2) (rest : Bytes) :
    inlineTable (chr '\x7b' :: chr ' ' :: (members ms ++ (ascii " \x7d" ++ rest))) =
      some (ms, rest) := by
  rw [inlineTable, expect_self, Option.bind_eq_bind, Option.bind_some, skipBlanks_blank]
  cases ms with
  | nil =>
      have hclose : skipBlanks (members [] ++ (ascii " \x7d" ++ rest)) = chr '\x7d' :: rest :=
        (skipBlanks_blank _).trans (skipBlanks_of_not (by decide) _)
      rw [hclose, expect_self]
  | cons m ms =>
      obtain ⟨hskip, hclose⟩ := skipBlanks_members (List.cons_ne_nil m ms) (fun m hm => (h m hm).1)
        (ascii " \x7d" ++ rest)
      rw [hskip, hclose]
      refine pairsFrom_members (List.cons_ne_nil m ms) h ?_ rest
      have hlen := length_le_members (m :: ms)
      rw [List.length_cons (a := chr ' '), List.length_append]
      omega

theorem isEnd_nil : isEnd [] = true := rfl

theorem readLine_entry (hname : Plain name) (h : ∀ m ∈ ms, Bare m.1 ∧ Plain m.2) :
    readLine (entry name ms) = some (.entry name ms) := by
  have hentry : entry name ms = quoted name ++ chr ' ' :: chr '=' :: chr ' ' :: chr '\x7b' ::
      chr ' ' :: (members ms ++ (ascii " \x7d" ++ [])) := by
    simp [entry, show ascii " = \x7b " = [chr ' ', chr '=', chr ' ', chr '\x7b', chr ' '] by decide]
  have hskip (rest : Bytes) : skipBlanks (quoted name ++ rest) = quoted name ++ rest :=
    skipBlanks_of_not (by decide) _
  have hend (rest : Bytes) : isEnd (quoted name ++ rest) = false := by
    rw [isEnd, hskip]
    rfl
  have hassigned : assigned (entry name ms) =
      some (name, chr '\x7b' :: chr ' ' :: (members ms ++ (ascii " \x7d" ++ []))) := by
    rw [hentry, assigned, key_quoted hname, Option.bind_eq_bind, Option.bind_some,
      skipBlanks_blank, skipBlanks_of_not (by decide), expect_self, Option.bind_eq_bind,
      Option.bind_some, skipBlanks_blank, skipBlanks_of_not (by decide)]
  have hopen (rest : Bytes) : expect (chr '[') (quoted name ++ rest) = none :=
    expect_of_ne (by decide) _
  have hplain : skipBlanks (entry name ms) = entry name ms ∧ isEnd (entry name ms) = false ∧
      expect (chr '[') (entry name ms) = none := ⟨hskip _, hend _, hopen _⟩
  rw [readLine, hplain.2.1, hplain.1, hplain.2.2]
  simp only [Bool.false_eq_true, if_false, hassigned, Option.bind_eq_bind, Option.bind_some,
    inlineTable_members h, isEnd_nil, if_true]

theorem readLine_header (h : Bare name) :
    readLine (header name) = some (.header name) := by
  obtain ⟨b, tail, rfl⟩ := List.exists_cons_of_ne_nil h.1
  have hb := h.2 b (.head _)
  have hblank : isBlank b = false := by
    simp only [isBlank, Bool.or_eq_false_iff, beq_eq_false_iff_ne]
    exact ⟨isBare_ne hb (by decide), isBare_ne hb (by decide)⟩
  have hskip : skipBlanks (header (b :: tail)) = header (b :: tail) :=
    skipBlanks_of_not (by decide) _
  have hend : isEnd (header (b :: tail)) = false := by
    rw [isEnd, hskip]
    rfl
  have hname : skipBlanks ((b :: tail) ++ [chr ']']) = (b :: tail) ++ [chr ']'] :=
    skipBlanks_of_not hblank _
  rw [readLine, hend, hskip, header, expect_self]
  have hkey : key ((b :: tail) ++ [chr ']']) = some (b :: tail, [chr ']']) :=
    key_bare h (by decide) []
  have hclose : skipBlanks [chr ']'] = [chr ']'] := skipBlanks_of_not (by decide) []
  simp only [Bool.false_eq_true, if_false, hname, hkey, Option.bind_eq_bind, Option.bind_some,
    hclose, expect_self, isEnd_nil, if_true]

/-- The lines of one table, and empty ones behind it. -/
theorem sections_table (name : Bytes) (es : List (Bytes × List (Bytes × Bytes))) (n : Nat) :
    sections (.header name :: (es.map (fun e => .entry e.1 e.2) ++ List.replicate n .blank)) =
      ([], [(name, es)]) := by
  have hblank : sections (List.replicate n .blank) = ([], []) := by
    induction n with
    | zero => rfl
    | succ n ih => exact ih
  have hentries : sections (es.map (fun e => .entry e.1 e.2) ++ List.replicate n .blank) =
      (es, []) := by
    induction es with
    | nil => exact hblank
    | cons e es ih => rw [List.map_cons, List.cons_append, sections, ih]
  rw [sections, hentries]

/-- A text of one table is read as the entries say. -/
theorem document_table (hname : Bare name)
    {es : List (Bytes × List (Bytes × Bytes))}
    (hes : ∀ e ∈ es, Plain e.1 ∧ ∀ m ∈ e.2, Bare m.1 ∧ Plain m.2) (n : Nat)
    (hsplit : text.splitOn (chr '\n') =
      header name :: (es.map (fun e => entry e.1 e.2) ++ List.replicate n [])) :
    document text = (table es).map fun t => AList.insert name t ∅ := by
  have hread : (text.splitOn (chr '\n')).mapM readLine =
      some (.header name :: (es.map (fun e => .entry e.1 e.2) ++ List.replicate n .blank)) := by
    rw [hsplit, mapM_eq_some_iff]
    refine .cons (readLine_header hname) (List.rel_append ?_ ?_)
    · rw [List.forall₂_map_left_iff, List.forall₂_map_right_iff, List.forall₂_same]
      exact fun e he => readLine_entry (hes e he).1 (hes e he).2
    · clear hsplit
      induction n with
      | zero => exact .nil
      | succ n ih => exact .cons rfl ih
  rw [document, hread, Option.bind_eq_bind, Option.bind_some, sections_table]
  cases htable : table es with
  | none => simp [htable]
  | some t =>
      simp only [ne_eq, not_true_eq_false, if_false, List.mapM_cons, List.mapM_nil, htable]
      rfl

end Toml

end Repkgs.Lib
