import Repkgs.Lib.Text

/-!
# Response files

A build tool may hand its whole command line over in a file, named as `@file`.
`tokenizeGnu` reads the words of such a file and `expandResponseFiles` puts them
where the name stood. The text of a file is any rendering of its words: a word
is written in pieces, bare or quoted, and every character either as itself or
behind a backslash.
-/

namespace Repkgs.Jig

open Repkgs.Lib

/-- `std::isspace` in the C locale. -/
def isSpace (c : Byte) : Bool := c == chr ' ' || (9 ≤ c && c ≤ 13)

def isQuote (c : Byte) : Bool := c == chr '\'' || c == chr '"'

/-- The words read so far, the one being read and the quote it stands in. -/
structure Tokens where
  out : List Bytes
  word : Bytes
  inWord : Bool
  quote : Option Byte
deriving DecidableEq

namespace Tokens

def put (t : Tokens) (c : Byte) : Tokens := { t with word := t.word ++ [c], inWord := true }

/-- The end of a word, if one was begun. -/
def endWord (t : Tokens) : Tokens :=
  if t.inWord then { t with out := t.out ++ [t.word], word := [], inWord := false } else t

/-- A character that no backslash stands in front of. -/
def read (t : Tokens) (c : Byte) : Tokens :=
  match t.quote with
  | some q => if c = q then { t with quote := none } else t.put c
  | none =>
      if isQuote c then { t with quote := some c, inWord := true }
      else if isSpace c then t.endWord
      else t.put c

end Tokens

/-- The loop of `tokenizeGnu`. A backslash at the very end stands for itself. -/
def tokenizeFrom (t : Tokens) : Bytes → Tokens
  | [] => t
  | c :: rest =>
      if c = chr '\\' then
        match rest with
        | [] => t.read c
        | d :: rest => tokenizeFrom (t.put d) rest
      else tokenizeFrom (t.read c) rest

def tokenizeGnu (text : Bytes) : List Bytes := (tokenizeFrom ⟨[], [], false, none⟩ text).endWord.out

/-- The arguments with every readable `@file` replaced by its words. -/
def expandResponseFiles (readFile : Bytes → Option Bytes) (args : List Bytes) : List Bytes :=
  args.flatMap fun arg =>
    match arg with
    | [] => [arg]
    | c :: path =>
        match if c = chr '@' then readFile path else none with
        | some body => tokenizeGnu body
        | none => [arg]

/-- One character of a word as a text writes it. -/
inductive Glyph where
  | plain (c : Byte)
  | escaped (c : Byte)

namespace Glyph

def char : Glyph → Byte
  | plain c => c
  | escaped c => c

def text : Glyph → Bytes
  | plain c => [c]
  | escaped c => [chr '\\', c]

/-- A special character has a backslash in front of it. -/
def Marked (special : Byte → Bool) : Glyph → Prop
  | plain c => special c = false
  | escaped _ => True

end Glyph

/-- What a character outside of quotes must not be when it stands for itself. -/
def bareSpecial (c : Byte) : Bool := c == chr '\\' || isQuote c || isSpace c

/-- What a character between two marks `q` must not be when it stands for itself. -/
def quotedSpecial (q c : Byte) : Bool := c == chr '\\' || c == q

/-- A part of a word, bare or between two quotes. -/
inductive Piece where
  | bare (glyphs : List Glyph) (written : glyphs ≠ [] ∧ ∀ g ∈ glyphs, g.Marked bareSpecial)
  | quoted (q : Byte) (glyphs : List Glyph)
      (written : isQuote q = true ∧ ∀ g ∈ glyphs, g.Marked (quotedSpecial q))

namespace Piece

def word : Piece → Bytes
  | bare glyphs _ => glyphs.map Glyph.char
  | quoted _ glyphs _ => glyphs.map Glyph.char

def text : Piece → Bytes
  | bare glyphs _ => glyphs.flatMap Glyph.text
  | quoted q glyphs _ => q :: glyphs.flatMap Glyph.text ++ [q]

end Piece

/-- A word written in pieces. -/
structure WordText where
  pieces : List Piece
  nonempty : pieces ≠ []

namespace WordText

def word (w : WordText) : Bytes := w.pieces.flatMap Piece.word

def text (w : WordText) : Bytes := w.pieces.flatMap Piece.text

end WordText

/-- The texts that spell a list of words, with white space between any two of them. -/
inductive Renders : List Bytes → Bytes → Prop
  | nil : Renders [] []
  | last (w : WordText) : Renders [w.word] w.text
  | space {c : Byte} {words : List Bytes} {text : Bytes} (hc : isSpace c = true)
      (rest : Renders words text) : Renders words (c :: text)
  | word (w : WordText) {c : Byte} {words : List Bytes} {text : Bytes} (hc : isSpace c = true)
      (rest : Renders words text) : Renders (w.word :: words) (w.text ++ c :: text)

/-- The state after a stretch of a word. -/
def Tokens.append (t : Tokens) (w : Bytes) : Tokens :=
  { t with word := t.word ++ w, inWord := true }

@[simp] theorem Tokens.append_append (t : Tokens) (v w : Bytes) :
    (t.append v).append w = t.append (v ++ w) := by
  simp [Tokens.append]

theorem Tokens.put_append (t : Tokens) (c : Byte) (w : Bytes) :
    (t.put c).append w = t.append (c :: w) := by
  simp [Tokens.put, Tokens.append]

/-- The characters that end or change the state they stand in. -/
def Tokens.special (t : Tokens) : Byte → Bool :=
  match t.quote with
  | none => bareSpecial
  | some q => quotedSpecial q

variable {t : Tokens} {c : Byte} {words : List Bytes}

theorem Tokens.read_of_not_special (h : t.special c = false) :
    c ≠ chr '\\' ∧ t.read c = t.put c := by
  unfold Tokens.special at h
  unfold Tokens.read
  cases hq : t.quote with
  | none =>
      simp only [hq, bareSpecial, Bool.or_eq_false_iff, beq_eq_false_iff_ne] at h
      simp [h.1.1, h.1.2, h.2]
  | some q =>
      simp only [hq, quotedSpecial, Bool.or_eq_false_iff, beq_eq_false_iff_ne] at h
      simp [h.1, h.2]

theorem tokenizeFrom_backslash (t : Tokens) (d : Byte) (rest : Bytes) :
    tokenizeFrom t (chr '\\' :: d :: rest) = tokenizeFrom (t.put d) rest := by
  simp [tokenizeFrom]

theorem tokenizeFrom_of_ne (t : Tokens) (h : c ≠ chr '\\') (rest : Bytes) :
    tokenizeFrom t (c :: rest) = tokenizeFrom (t.read c) rest := by
  cases rest <;> simp [tokenizeFrom, h]

theorem tokenizeFrom_glyph {g : Glyph} (h : g.Marked t.special) (rest : Bytes) :
    tokenizeFrom t (g.text ++ rest) = tokenizeFrom (t.put g.char) rest := by
  cases g with
  | plain c =>
      obtain ⟨hne, hread⟩ := Tokens.read_of_not_special h
      exact (tokenizeFrom_of_ne t hne rest).trans (by rw [hread]; rfl)
  | escaped c => exact tokenizeFrom_backslash t c rest

theorem tokenizeFrom_glyphs {g : Glyph} {gs : List Glyph} (h : ∀ g' ∈ g :: gs, g'.Marked t.special)
    (rest : Bytes) :
    tokenizeFrom t ((g :: gs).flatMap Glyph.text ++ rest) =
      tokenizeFrom (t.append ((g :: gs).map Glyph.char)) rest := by
  induction gs generalizing t g with
  | nil => simpa [Tokens.put, Tokens.append] using tokenizeFrom_glyph (h g (.head _)) rest
  | cons g' gs ih =>
      have hrest : ∀ g'' ∈ g' :: gs, g''.Marked (t.put g.char).special := by
        intro g'' hmem
        exact h g'' (.tail _ hmem)
      rw [List.flatMap_cons, List.append_assoc, tokenizeFrom_glyph (h g (.head _)),
        ih hrest, Tokens.put_append]
      rfl

theorem isQuote_ne_backslash {q : Byte} (h : isQuote q = true) : q ≠ chr '\\' := by
  rintro rfl
  exact absurd h (by decide)

theorem isSpace_ne_backslash (h : isSpace c = true) : c ≠ chr '\\' := by
  rintro rfl
  exact absurd h (by decide)

theorem isQuote_eq_false_of_isSpace (h : isSpace c = true) : isQuote c = false := by
  by_contra hq
  simp only [isQuote, Bool.not_eq_false, Bool.or_eq_true, beq_iff_eq] at hq
  rcases hq with rfl | rfl <;> exact absurd h (by decide)

/-- A quote opens, what stands between the marks is taken up, the same mark closes. -/
theorem tokenizeFrom_quoted (ht : t.quote = none) {q : Byte} (hq : isQuote q = true)
    {gs : List Glyph} (h : ∀ g ∈ gs, g.Marked (quotedSpecial q)) (rest : Bytes) :
    tokenizeFrom t (q :: gs.flatMap Glyph.text ++ q :: rest) =
      tokenizeFrom (t.append (gs.map Glyph.char)) rest := by
  have hne := isQuote_ne_backslash hq
  have hopen : t.read q = { t with quote := some q, inWord := true } := by
    simp [Tokens.read, ht, hq]
  have hclose : ∀ w, ({ t with quote := some q, inWord := true } : Tokens).append w =
      { t.append w with quote := some q } := fun w => rfl
  have hback : ∀ w, ({ t.append w with quote := some q } : Tokens).read q = t.append w := by
    intro w
    simp [Tokens.read, Tokens.append, ht]
  rw [List.cons_append, tokenizeFrom_of_ne t hne, hopen]
  cases gs with
  | nil =>
      have hempty : ({ t with quote := some q, inWord := true } : Tokens) =
          { t.append [] with quote := some q } := by
        simp [Tokens.append]
      rw [List.flatMap_nil, List.nil_append, tokenizeFrom_of_ne _ hne, hempty, hback]
      rfl
  | cons g gs => rw [tokenizeFrom_glyphs h, hclose, tokenizeFrom_of_ne _ hne, hback]

theorem tokenizeFrom_piece (ht : t.quote = none) (p : Piece) (rest : Bytes) :
    tokenizeFrom t (p.text ++ rest) = tokenizeFrom (t.append p.word) rest := by
  cases p with
  | bare glyphs written =>
      obtain ⟨hne, hmarked⟩ := written
      obtain ⟨g, gs, rfl⟩ := List.exists_cons_of_ne_nil hne
      have hspecial : t.special = bareSpecial := by simp [Tokens.special, ht]
      exact tokenizeFrom_glyphs (hspecial ▸ hmarked) rest
  | quoted q glyphs written =>
      have hquoted := tokenizeFrom_quoted ht written.1 written.2 rest
      simpa [Piece.text, Piece.word] using hquoted

theorem tokenizeFrom_word (ht : t.quote = none) (w : WordText) (rest : Bytes) :
    tokenizeFrom t (w.text ++ rest) = tokenizeFrom (t.append w.word) rest := by
  have hpieces : ∀ (ps : List Piece) (p : Piece) {t : Tokens}, t.quote = none →
      tokenizeFrom t ((p :: ps).flatMap Piece.text ++ rest) =
        tokenizeFrom (t.append ((p :: ps).flatMap Piece.word)) rest := by
    intro ps
    induction ps with
    | nil =>
        intro p t ht
        simpa using tokenizeFrom_piece ht p rest
    | cons p' ps ih =>
        intro p t ht
        rw [List.flatMap_cons, List.append_assoc, tokenizeFrom_piece ht,
          ih p' (show (t.append p.word).quote = none from ht), Tokens.append_append]
        rfl
  obtain ⟨p, ps, hps⟩ := List.exists_cons_of_ne_nil w.nonempty
  rw [WordText.text, WordText.word, hps]
  exact hpieces ps p ht

theorem tokenizeFrom_space (ht : t.quote = none) (hc : isSpace c = true) (rest : Bytes) :
    tokenizeFrom t (c :: rest) = tokenizeFrom t.endWord rest := by
  have hread : t.read c = t.endWord := by
    simp [Tokens.read, ht, hc, isQuote_eq_false_of_isSpace hc]
  rw [tokenizeFrom_of_ne t (isSpace_ne_backslash hc), hread]

/-- Between two words the tokenizer holds the words before, and reads the others behind them. -/
theorem Renders.tokenizeFrom {text : Bytes} (h : Renders words text) (out : List Bytes) :
    (Jig.tokenizeFrom ⟨out, [], false, none⟩ text).endWord.out = out ++ words := by
  induction h generalizing out with
  | nil => simp [Jig.tokenizeFrom, Tokens.endWord]
  | last w =>
      have hword :=
        tokenizeFrom_word (show (Tokens.mk out [] false none).quote = none from rfl) w []
      rw [List.append_nil] at hword
      rw [hword]
      simp [Jig.tokenizeFrom, Tokens.endWord, Tokens.append]
  | space hc rest ih =>
      rw [tokenizeFrom_space rfl hc]
      exact ih out
  | @word w c words text hc rest ih =>
      rw [tokenizeFrom_word rfl, tokenizeFrom_space rfl hc]
      have hend : ((Tokens.mk out [] false none).append w.word).endWord =
          ⟨out ++ [w.word], [], false, none⟩ := by
        simp [Tokens.append, Tokens.endWord]
      rw [hend, ih, List.append_assoc, List.singleton_append]

theorem Renders.tokenizeGnu {text : Bytes} (h : Renders words text) :
    Jig.tokenizeGnu text = words :=
  h.tokenizeFrom []

/-- What one argument stands for: itself, or the words of the file it names. -/
inductive Stands (readFile : Bytes → Option Bytes) : Bytes → List Bytes → Prop
  | plain {arg : Bytes} (h : arg.head? ≠ some (chr '@')) : Stands readFile arg [arg]
  | unreadable {path : Bytes} (h : readFile path = none) :
      Stands readFile (chr '@' :: path) [chr '@' :: path]
  | file {path text : Bytes} {words : List Bytes} (h : readFile path = some text)
      (rendered : Renders words text) : Stands readFile (chr '@' :: path) words

theorem Stands.expandResponseFiles {readFile : Bytes → Option Bytes} {arg : Bytes}
    (h : Stands readFile arg words) :
    Jig.expandResponseFiles readFile [arg] = words := by
  cases h with
  | plain hhead =>
      cases arg with
      | nil => rfl
      | cons c path =>
          have hne : c ≠ chr '@' := by
            rintro rfl
            exact hhead rfl
          simp [Jig.expandResponseFiles, hne]
  | unreadable hnone => simp [Jig.expandResponseFiles, hnone]
  | file hsome hrendered => simp [Jig.expandResponseFiles, hsome, hrendered.tokenizeGnu]

/-- Response files are read as their writer meant them: the words of every
rendering come back, each file's where its name stood among the arguments. -/
theorem expandResponseFiles_rendered (readFile : Bytes → Option Bytes)
    (args : List (Bytes × List Bytes)) (h : ∀ a ∈ args, Stands readFile a.1 a.2) :
    expandResponseFiles readFile (args.map Prod.fst) = args.flatMap Prod.snd := by
  induction args with
  | nil => rfl
  | cons a args ih =>
      have hargs := ih fun a' hmem => h a' (.tail _ hmem)
      have hone := (h a (.head _)).expandResponseFiles
      calc expandResponseFiles readFile ((a :: args).map Prod.fst)
          = expandResponseFiles readFile [a.1] ++
              expandResponseFiles readFile (args.map Prod.fst) := by
            simp [expandResponseFiles]
        _ = (a :: args).flatMap Prod.snd := by rw [hone, hargs, List.flatMap_cons]

/-- A word between single quotes, with a backslash in front of every character. -/
def WordText.escaped (w : Bytes) : WordText :=
  ⟨[.quoted (chr '\'') (w.map .escaped) ⟨by decide, by simp [Glyph.Marked]⟩], by simp⟩

@[simp] theorem WordText.word_escaped (w : Bytes) : (WordText.escaped w).word = w := by
  simp [WordText.escaped, WordText.word, Piece.word, Function.comp_def, Glyph.char]

theorem exists_renders (words : List Bytes) : ∃ text, Renders words text := by
  induction words with
  | nil => exact ⟨[], .nil⟩
  | cons w words ih =>
      obtain ⟨text, htext⟩ := ih
      have hblank : isSpace (chr '\n') = true := by decide
      exact ⟨_, by simpa using Renders.word (WordText.escaped w) hblank htext⟩

/-- A word that needs neither quotes nor backslashes. -/
def WordText.bare (w : Bytes) (hne : w ≠ []) (h : w.all (fun c => !bareSpecial c) = true) :
    WordText :=
  ⟨[.bare (w.map .plain) ⟨by simpa using hne, by simpa [Glyph.Marked] using h⟩], by simp⟩

/-- `y\ z`, with the blank escaped. -/
def blankWord : WordText where
  pieces := [.bare [.plain (chr 'y'), .escaped (chr ' '), .plain (chr 'z')]
    ⟨by simp, by simp [Glyph.Marked]; decide⟩]
  nonempty := by simp

/-- `"q\""''`: a quote between quotes, and an empty piece. -/
def quoteWord : WordText where
  pieces := [.quoted (chr '"') [.plain (chr 'q'), .escaped (chr '"')]
      ⟨by decide, by simp [Glyph.Marked]; decide⟩,
    .quoted (chr '\'') [] ⟨by decide, by simp⟩]
  nonempty := by simp

theorem linkerFile_renders :
    Renders [ascii "-shared", ascii "y z", [], ascii "q\""]
      (ascii "-shared y\\ z\n '' \"q\\\"\"''\n") :=
  .word (.bare (ascii "-shared") (by decide) (by decide)) (by decide) <|
    .word blankWord (by decide) <| .space (by decide) <|
      .word (.escaped []) (by decide) <| .word quoteWord (by decide) .nil

theorem expandResponseFiles_rendered_linker :
    expandResponseFiles
        (fun path => if path = ascii "a.rsp" then
          some (ascii "-shared y\\ z\n '' \"q\\\"\"''\n") else none)
        [ascii "-O", ascii "@a.rsp", ascii "@missing", ascii "@a.rsp"] =
      [ascii "-O", ascii "-shared", ascii "y z", [], ascii "q\"", ascii "@missing",
        ascii "-shared", ascii "y z", [], ascii "q\""] := by
  have hfile := linkerFile_renders
  refine expandResponseFiles_rendered _
    [(ascii "-O", [ascii "-O"]),
      (ascii "@a.rsp", [ascii "-shared", ascii "y z", [], ascii "q\""]),
      (ascii "@missing", [ascii "@missing"]),
      (ascii "@a.rsp", [ascii "-shared", ascii "y z", [], ascii "q\""])] ?_
  simp only [List.forall_mem_cons, List.not_mem_nil, false_imp_iff, implies_true, and_true]
  exact ⟨.plain (by decide), .file (by rfl) hfile, .unreadable (by rfl), .file (by rfl) hfile⟩

end Repkgs.Jig
