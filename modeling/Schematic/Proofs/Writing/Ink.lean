import Schematic.Proofs.Token.Names

/-!
# Ink

A text that is written rather than found is put together from a few kinds of ink: words, quoted
strings, marks and spaces. Each of them is one token or none, whatever stands behind it, as long as
a word or a connector does not run into the next one. So the tokens of a written text are known
without scanning it: `scan_inked` says that they are `Ink.tokens`, and that nothing is reported.
-/

namespace Schematic

open Token (IsWord Breaks isNameChar quotation shape lexemes)

/-- A piece of a written text. A mark is given by the kind of its token. -/
inductive Ink where
  | word (w : String)
  | quoted (s : String)
  | mark (kind : Token.Kind)
  | space
deriving Repr, DecidableEq

namespace Ink

/-- A character between double quotes. The quote and the backslash need a backslash in front. -/
def escaped (c : Char) : List Char := if c = '\\' ∨ c = '"' then ['\\', c] else [c]

/-- How the marks in use are written; the kinds that are not in use have no text. -/
@[simp] def markText : Token.Kind → List Char
  | .openBrace => ['{']
  | .closeBrace => ['}']
  | .openBracket => ['[']
  | .closeBracket => [']']
  | .colon => [':']
  | .comma => [',']
  | .arrow => ['-', '>']
  | .dash => ['-', '-']
  | .bidirectional => ['<', '-', '>']
  | .newline => ['\n']
  | _ => []

/-- The characters of a piece. -/
def chars : Ink → List Char
  | .word w => w.toList
  | .quoted s => '"' :: (s.toList.flatMap escaped ++ ['"'])
  | .mark kind => markText kind
  | .space => [' ']

/-- The characters of a text. -/
def text (xs : List Ink) : List Char := xs.flatMap chars

/-- What the token of a piece says, if it makes one. -/
def spelling? : Ink → Option (Token.Kind × String)
  | .word w => some (Token.nameKind w.toList, w)
  | .quoted s => some (.string, s)
  | .mark kind => some (kind, String.ofList (markText kind))
  | .space => none

/-- The tokens of a text that begins at `p`, by its pieces and without scanning it. Spaces only move
the place. -/
def tokens (p : Place) : List Ink → List Token
  | [] => []
  | x :: xs =>
    match x.spelling? with
    | some s => ⟨s.1, s.2, p⟩ :: tokens (p.after x.chars) xs
    | none => tokens (p.after x.chars) xs

/-- The piece is what it claims to be. -/
@[simp] def Valid : Ink → Prop
  | .word w => IsWord w
  | .mark kind => markText kind ≠ []
  | _ => True

/-- The piece may run into a piece of the same sort behind it. -/
@[simp] def isSolid : Ink → Bool
  | .word _ => true
  | .mark kind => kind.isConnector
  | _ => false

/-- The text does not begin with a solid piece. Such a text can stand behind a word. -/
def Loose (xs : List Ink) : Prop := ∀ y ∈ xs.head?, y.isSolid = false

/-- Valid pieces, no two of which run into each other: a solid piece has a loose text behind it. -/
@[simp] def Apart : List Ink → Prop
  | [] => True
  | x :: xs => x.Valid ∧ (x.isSolid = true → Loose xs) ∧ Apart xs

/-! ## What follows a piece -/

theorem text_cons (x : Ink) (xs : List Ink) : text (x :: xs) = x.chars ++ text xs := rfl

theorem tokens_append (p : Place) (xs ys : List Ink) :
    tokens p (xs ++ ys) = tokens p xs ++ tokens (p.after (text xs)) ys := by
  induction xs generalizing p with
  | nil => rfl
  | cons x xs ih =>
      have hafter : p.after (text (x :: xs)) = (p.after x.chars).after (text xs) := by
        rw [text_cons, Place.after, List.foldl_append]
        rfl
      rw [List.cons_append, tokens, tokens, hafter]
      cases x.spelling? with
      | none => exact ih _
      | some s => rw [ih, List.cons_append]

@[simp] theorem loose_nil : Loose [] := by simp [Loose]

@[simp] theorem loose_cons {x : Ink} {xs : List Ink} : Loose (x :: xs) ↔ x.isSolid = false := by
  simp [Loose]

theorem loose_append {xs ys : List Ink} (hx : Loose xs) (hy : Loose ys) : Loose (xs ++ ys) := by
  cases xs with
  | nil => exact hy
  | cons x xs => exact hx

/-- What is loose can stand behind any text. The induction is on the text in front. -/
theorem apart_append {xs ys : List Ink} (hx : Apart xs) (hy : Apart ys) (h : Loose ys) :
    Apart (xs ++ ys) := by
  induction xs with
  | nil => exact hy
  | cons x xs ih =>
      obtain ⟨hvalid, hsolid, htail⟩ := hx
      exact ⟨hvalid, fun hs => loose_append (hsolid hs) h, ih htail⟩

/-- What comes behind the last piece does not run into it. If that is not solid, anything may come.
-/
def Ends (xs : List Ink) (rest : List Char) : Prop :=
  ∀ x ∈ xs.getLast?, x.isSolid = true → Breaks rest

theorem ends_nil (xs : List Ink) : Ends xs [] := fun _ _ _ c hc => by cases hc

theorem Ends.tail {x : Ink} {xs : List Ink} {rest : List Char} (h : Ends (x :: xs) rest) :
    Ends xs rest := by
  cases xs with
  | nil => intro y hy; cases hy
  | cons y ys => exact fun z hz => h z (by rw [List.getLast?_cons_cons]; exact hz)

/-- A piece that is not solid ends the word before it, as the first character of the text behind. -/
theorem breaks_text {xs : List Ink} {rest : List Char} (hx : Apart xs) (h : Loose xs)
    (hrest : xs = [] → Breaks rest) : Breaks (text xs ++ rest) := by
  cases xs with
  | nil => exact hrest rfl
  | cons x xs =>
      have hsolid : x.isSolid = false := h x rfl
      have hvalid : x.Valid := hx.1
      intro c hc
      cases x with
      | word w => cases hsolid
      | quoted s =>
          cases hc
          decide
      | space =>
          cases hc
          decide
      | mark kind =>
          cases kind <;> first
            | exact absurd rfl hvalid
            | exact absurd hsolid (by decide)
            | (cases hc; decide)

/-! ## One piece is one lexeme -/

theorem quotation_escaped (cs rest : List Char) :
    quotation '"' (cs.flatMap escaped ++ '"' :: rest)
      = ⟨cs, (cs.flatMap escaped).length + 1, true⟩ := by
  induction cs with
  | nil => simp [quotation]
  | cons c cs ih =>
      rw [List.flatMap_cons, List.append_assoc]
      by_cases hc : c = '\\' ∨ c = '"'
      · have he : escaped c = ['\\', c] := if_pos hc
        simp only [he, List.cons_append, List.nil_append, quotation, ih, List.length_cons]
      · have he : escaped c = [c] := if_neg hc
        obtain ⟨hb, hq⟩ := not_or.mp hc
        have hq' : (c == '"') = false := by simpa using hq
        rw [he, List.singleton_append, quotation]
        · simp [hq', ih]
        · exact fun he _ => hb he
        · intro d ds he
          exact absurd he hb

/-- The first lexeme of a text of which the rule takes `c :: cs`. What is behind is scanned as the
rest. -/
theorem lexemes_cons_append {c : Char} {cs rest : List Char} (p : Place)
    (h : (shape c (cs ++ rest)).extra = cs.length) :
    lexemes p (c :: (cs ++ rest)) =
      ⟨p, c :: cs, shape c (cs ++ rest)⟩ :: lexemes (p.after (c :: cs)) rest := by
  rw [lexemes, h, List.take_left, List.drop_left]

/-- The shape of a piece, whatever breaks it off: the rule takes its characters, makes its token,
and reports nothing. -/
structure Cut (x : Ink) (rest : List Char) (c : Char) (cs : List Char) : Prop where
  chars : x.chars = c :: cs
  extra : (shape c (cs ++ rest)).extra = cs.length
  kind : (shape c (cs ++ rest)).kind? = x.spelling?.map Prod.fst
  text : ∀ s ∈ x.spelling?, String.ofList (shape c (cs ++ rest)).text = s.2
  problem : (shape c (cs ++ rest)).problem? = none

theorem cut_quoted (s : String) (rest : List Char) :
    Cut (.quoted s) rest '"' (s.toList.flatMap escaped ++ ['"']) := by
  have hs : shape '"' ((s.toList.flatMap escaped ++ ['"']) ++ rest)
      = ⟨some .string, s.toList, (s.toList.flatMap escaped).length + 1, none⟩ := by
    rw [List.append_assoc, List.singleton_append]
    show Token.stringShape '"' _ = _
    simp [Token.stringShape, quotation_escaped]
  refine ⟨rfl, ?_, ?_, ?_, ?_⟩
  · rw [hs, List.length_append, List.length_singleton]
  · rw [hs]; rfl
  · rintro _ ⟨⟩
    rw [hs]
    exact String.ofList_toList
  · rw [hs]

theorem cut_word {w : String} (h : IsWord w) {rest : List Char} (hr : Breaks rest) :
    ∃ c cs, Cut (.word w) rest c cs := by
  obtain ⟨c, cs, hw⟩ := h.spelled
  have hs := hw.shape_append hr
  refine ⟨c, cs, hw.toList, ?_, ?_, ?_, ?_⟩
  · rw [hs]; simp [Token.Shape.verbatim]
  · rw [hs, ← hw.toList]; rfl
  · rintro _ ⟨⟩
    rw [hs, ← hw.toList]
    exact String.ofList_toList
  · rw [hs]; rfl

/-- Two dashes are a connector only if no name follows. In front of a name they would be its
beginning. -/
theorem shape_dashes {rest : List Char} (h : Breaks rest) :
    shape '-' ('-' :: rest) = .verbatim .dash ['-', '-'] := by
  have hafter : Token.afterDashes ('-' :: rest) = rest := by
    rw [Token.afterDashes_cons, if_pos rfl, Token.afterDashes_of_breaks h]
  show Token.dashShape ('-' :: rest) = _
  unfold Token.dashShape
  rw [hafter]
  cases rest with
  | nil => rfl
  | cons c cs =>
      obtain ⟨hname, hgt⟩ := h c rfl
      have hgt' : (c == '>') = false := by simpa using hgt
      have hdash : (c == '-') = false := by
        have hne : c ≠ '-' := fun he => by
          rw [he] at hname
          exact absurd hname (by decide)
        simpa using hne
      simp [hname, hgt', Token.dashes, hdash]

theorem cut_mark {kind : Token.Kind} (h : markText kind ≠ []) {rest : List Char}
    (hr : kind.isConnector = true → Breaks rest) : ∃ c cs, Cut (.mark kind) rest c cs := by
  cases kind with
  | dash =>
      have hs := shape_dashes (hr rfl)
      exact ⟨'-', ['-'], rfl, congrArg _ hs, congrArg _ hs,
        fun s hm => by cases hm; exact congrArg (String.ofList ∘ Token.Shape.text) hs,
        congrArg _ hs⟩
  | arrow => exact ⟨'-', ['>'], rfl, rfl, rfl, fun s hm => by cases hm; rfl, rfl⟩
  | bidirectional => exact ⟨'<', ['-', '>'], rfl, rfl, rfl, fun s hm => by cases hm; rfl, rfl⟩
  | openBrace => exact ⟨'{', [], rfl, rfl, rfl, fun s hm => by cases hm; rfl, rfl⟩
  | closeBrace => exact ⟨'}', [], rfl, rfl, rfl, fun s hm => by cases hm; rfl, rfl⟩
  | openBracket => exact ⟨'[', [], rfl, rfl, rfl, fun s hm => by cases hm; rfl, rfl⟩
  | closeBracket => exact ⟨']', [], rfl, rfl, rfl, fun s hm => by cases hm; rfl, rfl⟩
  | colon => exact ⟨':', [], rfl, rfl, rfl, fun s hm => by cases hm; rfl, rfl⟩
  | comma => exact ⟨',', [], rfl, rfl, rfl, fun s hm => by cases hm; rfl, rfl⟩
  | newline => exact ⟨'\n', [], rfl, rfl, rfl, fun s hm => by cases hm; rfl, rfl⟩
  | _ => exact absurd rfl h

theorem exists_cut {x : Ink} (hx : x.Valid) {rest : List Char}
    (hr : x.isSolid = true → Breaks rest) : ∃ c cs, Cut x rest c cs := by
  cases x with
  | word w => exact cut_word hx (hr rfl)
  | quoted s => exact ⟨_, _, cut_quoted s rest⟩
  | mark kind => exact cut_mark hx hr
  | space =>
      refine ⟨' ', [], rfl, rfl, rfl, ?_, rfl⟩
      intro s hm
      cases hm

/-! ## Scanning -/

/-- A written text in front of another one is cut by itself. The induction is on the pieces, each of
which is cut off in front of all the rest. -/
theorem lexemes_text_append {xs : List Ink} (h : Apart xs) {rest : List Char} (hrest : Ends xs rest)
    (p : Place) :
    (lexemes p (text xs ++ rest)).filterMap Token.Lexeme.token? =
        tokens p xs ++ (lexemes (p.after (text xs)) rest).filterMap Token.Lexeme.token? ∧
      (lexemes p (text xs ++ rest)).filterMap Token.Lexeme.diagnostic? =
        (lexemes (p.after (text xs)) rest).filterMap Token.Lexeme.diagnostic? := by
  induction xs generalizing p with
  | nil => exact ⟨rfl, rfl⟩
  | cons x xs ih =>
      obtain ⟨hvalid, hsolid, htail⟩ := h
      have hbreaks (hs : x.isSolid = true) : Breaks (text xs ++ rest) :=
        breaks_text htail (hsolid hs) fun hnil => hrest x (by rw [hnil]; rfl) hs
      obtain ⟨c, cs, hcut⟩ := exists_cut hvalid hbreaks
      obtain ⟨hts, hds⟩ := ih htail hrest.tail (p.after x.chars)
      have hafter : p.after (text (x :: xs)) = (p.after x.chars).after (text xs) := by
        rw [text_cons, Place.after, List.foldl_append]
        rfl
      have hprob := hcut.problem
      have hkind := hcut.kind
      have htext := hcut.text
      rw [hafter, text_cons, List.append_assoc, hcut.chars, List.cons_append,
        lexemes_cons_append p hcut.extra, ← hcut.chars, List.filterMap_cons, List.filterMap_cons,
        hts, hds, tokens]
      constructor
      · cases hs : x.spelling? with
        | none =>
            rw [hs] at hkind
            simp [Token.Lexeme.token?, hkind]
        | some s =>
            rw [hs] at hkind htext
            simp [Token.Lexeme.token?, hkind, htext s rfl]
      · simp [Token.Lexeme.diagnostic?, hprob]

theorem lexemes_text {xs : List Ink} (h : Apart xs) (p : Place) :
    (lexemes p (text xs)).filterMap Token.Lexeme.token? = tokens p xs ∧
      (lexemes p (text xs)).filterMap Token.Lexeme.diagnostic? = [] := by
  simpa [lexemes] using lexemes_text_append h (ends_nil xs) p

/-- The tokens of a written text are those of its pieces, and nothing is wrong with them. It is the
case in which nothing stands behind. -/
theorem scan_inked {xs : List Ink} (h : Apart xs) :
    Token.scan (String.ofList (text xs)) =
      ⟨tokens .start xs ++ [Token.endAt (Place.start.after (text xs))], []⟩ := by
  obtain ⟨hts, hds⟩ := lexemes_text h .start
  simp only [Token.scan, String.toList_ofList, hts, hds]

end Ink

end Schematic
