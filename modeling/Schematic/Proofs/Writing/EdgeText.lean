import Schematic.Proofs.Token.Printing
import Schematic.Proofs.Token.Tiling

/-!
# The text of an edge line

An edge line is put together from words, quoted strings, connectors of one token, commas, a colon
and blanks. A word and a connector are over where something comes that is no part of a name and no
`>`; the other pieces are over by themselves. So the tokens of the line are known without scanning
it, whatever blanks stand in it: `map_spelling_text` says that they spell the pieces, and
`reports_text` that nothing is reported.
-/

namespace Schematic

open Text (isBlank)

namespace Token

/-! ## Connectors of one token -/

/-- How a connector of one token is written. `n` counts its dashes beyond the first one, and for
`<->`, which needs none, all of them. -/
inductive Arrow where
  | greater
  | forward (n : Nat)
  | plain (n : Nat)
  | both (n : Nat)
  | backward (n : Nat)
deriving Repr, DecidableEq

namespace Arrow

def chars : Arrow → List Char
  | greater => ['>']
  | forward n => '-' :: (List.replicate n '-' ++ ['>'])
  | plain n => '-' :: List.replicate n '-'
  | both n => '<' :: (List.replicate n '-' ++ ['>'])
  | backward n => '<' :: '-' :: List.replicate n '-'

def kind : Arrow → Kind
  | greater => .greater
  | forward _ => .arrow
  | plain _ => .dash
  | both _ => .bidirectional
  | backward _ => .reverseArrow

end Arrow

/-- A run of dashes ends where something else comes, and that is what stands behind it. -/
theorem dashes_replicate (n : Nat) {rest : List Char} (h : ∀ c ∈ rest.head?, c ≠ '-') :
    dashes (List.replicate n '-' ++ rest) = List.replicate n '-' ∧
      afterDashes (List.replicate n '-' ++ rest) = rest := by
  induction n with
  | zero =>
      cases rest with
      | nil => exact ⟨rfl, rfl⟩
      | cons c cs =>
          have hc : (c == '-') = false := by simpa using h c rfl
          simp [dashes, afterDashes, hc]
  | succ n ih =>
      obtain ⟨hd, ha⟩ := ih
      rw [List.replicate_succ, List.cons_append]
      exact ⟨congrArg ('-' :: ·) hd, ha⟩

theorem Breaks.ne_dash {rest : List Char} (h : Breaks rest) : ∀ c ∈ rest.head?, c ≠ '-' := by
  rintro c hc rfl
  exact absurd (h _ hc).1 (by decide)

/-- The text does not continue the connector. Behind the head of an arrow anything may stand; bare
dashes are over only where no name goes on with them. -/
def Arrow.Over : Arrow → List Char → Prop
  | plain _, rest => Breaks rest
  | backward _, rest => ∀ c ∈ rest.head?, c ≠ '-' ∧ c ≠ '>'
  | _, _ => True

theorem Breaks.over {rest : List Char} (h : Breaks rest) (a : Arrow) : a.Over rest := by
  cases a with
  | plain n => exact h
  | backward n => exact fun c hc => ⟨h.ne_dash c hc, (h c hc).2⟩
  | _ => trivial

/-- A connector is one lexeme in front of anything that does not continue it. The cases are the
shapes of connectors, each with its own rule. -/
theorem shape_arrow (a : Arrow) {rest : List Char} (hr : a.Over rest) :
    ∃ c cs, a.chars = c :: cs ∧ shape c (cs ++ rest) = .verbatim a.kind a.chars := by
  have hgreater (n : Nat) : dashes (List.replicate n '-' ++ '>' :: rest) = List.replicate n '-' ∧
      afterDashes (List.replicate n '-' ++ '>' :: rest) = '>' :: rest :=
    dashes_replicate n (by
      rintro c ⟨⟩
      decide)
  cases a with
  | greater => exact ⟨'>', [], rfl, rfl⟩
  | forward n =>
      refine ⟨'-', List.replicate n '-' ++ ['>'], rfl, ?_⟩
      obtain ⟨hd, ha⟩ := hgreater n
      rw [List.append_assoc, List.singleton_append]
      show dashShape _ = _
      simp [dashShape, hd, ha, Arrow.chars, Arrow.kind]
  | plain n =>
      refine ⟨'-', List.replicate n '-', rfl, ?_⟩
      obtain ⟨hd, ha⟩ := dashes_replicate n (Breaks.ne_dash hr)
      show dashShape _ = _
      rw [dashShape, hd, ha]
      cases rest with
      | nil => rfl
      | cons c cs =>
          obtain ⟨hname, hgt⟩ := hr c rfl
          have hgt' : (c == '>') = false := by simpa using hgt
          simp [hname, hgt', Arrow.chars, Arrow.kind]
  | both n =>
      refine ⟨'<', List.replicate n '-' ++ ['>'], rfl, ?_⟩
      obtain ⟨hd, ha⟩ := hgreater n
      rw [List.append_assoc, List.singleton_append]
      show angleShape _ = _
      simp [angleShape, hd, ha, Arrow.chars, Arrow.kind]
  | backward n =>
      refine ⟨'<', '-' :: List.replicate n '-', rfl, ?_⟩
      obtain ⟨hd, ha⟩ := dashes_replicate (n + 1) fun c hc => (hr c hc).1
      have hgt : (rest.head? == some '>') = false := by
        cases rest with
        | nil => rfl
        | cons c cs => simpa using (hr c rfl).2
      rw [← List.replicate_succ]
      show angleShape _ = _
      rw [angleShape, hd, ha, hgt]
      simp [Arrow.chars, Arrow.kind, List.replicate_succ]

/-! ## Quoted strings -/

/-- A body without a bare quote is all of a string that the next quote closes. With that quote the
body is a closed quotation, and what stands behind has no part in it. -/
theorem quotation_of_bare {quote : Char} (hq : quote ≠ '\\') {body : List Char}
    (hbody : hasBare quote body = false) (hclose : hasBare quote (body ++ [quote]) = true)
    (rest : List Char) : quotation quote (body ++ quote :: rest) =
      ⟨unescape body, body.length + 1, true⟩ := by
  have hclosed : (quotation quote (body ++ [quote])).closed = true := by
    by_contra hopen
    have hnone := (quotation_open (by simpa using hopen)).2
    rw [hclose] at hnone
    cases hnone
  obtain ⟨body', rest', hcut, heq, -, hclose'⟩ := quotation_closed hq hclosed
  -- the first bare quote is the last character, or it would be a bare quote of the body
  rcases List.eq_nil_or_concat rest' with rfl | ⟨init, last, rfl⟩
  · obtain rfl : body = body' := (List.append_inj_left' hcut rfl)
    rw [← heq, ← quotation_append hclosed rest, List.append_assoc, List.singleton_append]
  · have hcut' : body ++ [quote] = (body' ++ [quote]) ++ init ++ [last] := by simpa using hcut
    have hinit : body = (body' ++ [quote]) ++ init := List.append_inj_left' hcut' rfl
    rw [hinit, hasBare_append hclose'] at hbody
    cases hbody

/-- A quoted string is one lexeme, whatever stands behind it, since its closing quote ends it. -/
theorem shape_quotedSource {source : List Char} {s : String} (h : IsQuoted source s.toList False)
    (rest : List Char) : ∃ c cs, source = c :: cs ∧
      shape c (cs ++ rest) = ⟨some .string, s.toList, cs.length, none⟩ := by
  obtain ⟨quote, body, hquote, htext, hbody, ⟨rfl, hclose⟩ | ⟨-, hend⟩⟩ := h
  · have hq : quote ≠ '\\' := by rintro rfl; simp at hquote
    refine ⟨quote, body ++ [quote], rfl, ?_⟩
    rw [List.append_assoc, List.singleton_append, shape_quote hquote, stringShape,
      quotation_of_bare hq hbody hclose, htext, List.length_append]
    rfl
  · exact hend.elim

end Token

/-! ## Pieces -/

/-- A piece of an edge line. A quoted string stands with its quotes and escapes and with what it
says. -/
inductive Piece where
  | word (w : String)
  | quoted (source : List Char) (s : String)
  | arrow (a : Token.Arrow)
  | comma
  | colon
  | blank (b : Char)
deriving Repr, DecidableEq

namespace Piece

open Token (IsWord Breaks shapes)

def chars : Piece → List Char
  | word w => w.toList
  | quoted source _ => source
  | arrow a => a.chars
  | comma => [',']
  | colon => [':']
  | blank b => [b]

def text (xs : List Piece) : List Char := xs.flatMap chars

/-- What the token of a piece says, if it makes one. Only blanks make none. -/
def spelling? : Piece → Option (Token.Kind × String)
  | word w => some (Token.nameKind w.toList, w)
  | quoted _ s => some (.string, s)
  | arrow a => some (a.kind, String.ofList a.chars)
  | comma => some (.comma, ",")
  | colon => some (.colon, ":")
  | blank _ => none

/-- The piece is what it claims to be. Connectors and marks need no condition. -/
def Valid : Piece → Prop
  | word w => IsWord w
  | quoted source s => Token.IsQuoted source s.toList False
  | blank b => isBlank b = true ∧ b ≠ '\n'
  | _ => True

/-- The piece may run into a piece of the same sort behind it. Between two such pieces something
else has to stand. -/
def isSolid : Piece → Bool
  | word _ | arrow _ => true
  | _ => false

/-- Valid pieces, no two of which run into each other: words and connectors are set off by something
else. -/
def Apart : List Piece → Prop
  | [] => True
  | x :: xs => x.Valid ∧ (x.isSolid = true → ∀ y ∈ xs.head?, y.isSolid = false) ∧ Apart xs

/-! ## Scanning -/

theorem shapes_cut {c : Char} {cs rest : List Char} {s : Token.Shape}
    (h : Token.shape c (cs ++ rest) = s) (hextra : s.extra = cs.length) :
    shapes (c :: cs ++ rest) = s :: shapes rest := by
  rw [shapes, List.cons_append, Ink.lexemes_cons_append _ (by rw [h, hextra]), h, List.map_cons,
    Token.shapes_eq _ .start]
  rfl

/-- A piece is cut off as one lexeme, if what follows a solid one breaks it off. The cases are the
sorts of pieces. -/
theorem shapes_piece {x : Piece} (hx : x.Valid) {rest : List Char}
    (hr : x.isSolid = true → Breaks rest) : ∃ s : Token.Shape,
      shapes (x.chars ++ rest) = s :: shapes rest ∧ s.spelling? = x.spelling? ∧
        s.problem? = none := by
  cases x with
  | word w =>
      obtain ⟨c, cs, hw⟩ := hx.spelled
      have hs := hw.shape_append (hr rfl)
      refine ⟨.verbatim (Token.nameKind w.toList) w.toList, ?_, ?_, rfl⟩
      · rw [chars, hw.toList]
        exact shapes_cut hs rfl
      · simp [Token.Shape.spelling?, Token.Shape.verbatim, spelling?]
  | quoted source s =>
      obtain ⟨c, cs, rfl, hs⟩ := Token.shape_quotedSource hx rest
      refine ⟨⟨some .string, s.toList, cs.length, none⟩, shapes_cut hs rfl, ?_, rfl⟩
      simp [Token.Shape.spelling?, spelling?]
  | arrow a =>
      obtain ⟨c, cs, ha, hs⟩ := Token.shape_arrow a ((hr rfl).over a)
      refine ⟨.verbatim a.kind a.chars, ?_, rfl, rfl⟩
      rw [ha] at hs
      rw [chars, ha]
      exact shapes_cut hs rfl
  | comma => exact ⟨.verbatim .comma [','], shapes_cut rfl rfl, rfl, rfl⟩
  | colon => exact ⟨.verbatim .colon [':'], shapes_cut rfl rfl, rfl, rfl⟩
  | blank b =>
      obtain ⟨hb, hline⟩ := hx
      have hs : Token.shape b ([] ++ rest) = ⟨none, [], 0, none⟩ := by
        simp [Token.shape, hb, hline]
      exact ⟨⟨none, [], 0, none⟩, shapes_cut hs rfl, rfl, rfl⟩

/-- What is not solid ends the word before it: it begins with no name character and with no `>`. -/
theorem breaks_text {xs : List Piece} (hx : Apart xs) (h : ∀ y ∈ xs.head?, y.isSolid = false) :
    Breaks (text xs) := by
  cases xs with
  | nil => exact fun c hc => by cases hc
  | cons x xs =>
      have hsolid : x.isSolid = false := h x rfl
      have hvalid := hx.1
      intro c hc
      cases x with
      | word w => cases hsolid
      | arrow a => cases hsolid
      | quoted source s =>
          obtain ⟨quote, body, hquote, -, -, ⟨rfl, -⟩ | ⟨-, hend⟩⟩ := hvalid
          · cases hc
            rcases hquote with rfl | rfl <;> decide
          · exact hend.elim
      | comma =>
          cases hc
          decide
      | colon =>
          cases hc
          decide
      | blank b => exact Token.breaks_of_separates (Token.separates_of_isBlank hvalid.1) c hc

theorem spelling_text {xs : List Piece} (h : Apart xs) :
    (shapes (text xs)).filterMap Token.Shape.spelling? = xs.filterMap spelling? ∧
      (shapes (text xs)).filterMap Token.Shape.problem? = [] := by
  induction xs with
  | nil => exact ⟨by rw [text, List.flatMap_nil, Token.shapes_nil]; rfl, by
      rw [text, List.flatMap_nil, Token.shapes_nil]; rfl⟩
  | cons x xs ih =>
      obtain ⟨hvalid, hsolid, htail⟩ := h
      obtain ⟨hspell, hproblem⟩ := ih htail
      obtain ⟨s, hcut, hs, hp⟩ := shapes_piece hvalid fun hx => breaks_text htail (hsolid hx)
      have htext : text (x :: xs) = x.chars ++ text xs := rfl
      rw [htext, hcut, List.filterMap_cons, List.filterMap_cons, List.filterMap_cons, hs, hp,
        hspell, hproblem]
      exact ⟨rfl, rfl⟩

/-- The tokens of a line spell its pieces. The induction is on the pieces, each of which is one
lexeme in front of the others. -/
theorem map_spelling_text {xs : List Piece} (h : Apart xs) (p : Place) :
    (Token.tokens p (text xs)).map Token.spelling = xs.filterMap spelling? := by
  rw [Token.map_spelling_tokens, (spelling_text h).1]

theorem reports_text {xs : List Piece} (h : Apart xs) (p : Place) :
    Token.reports p (text xs) = [] := by
  have hproblems := Token.map_problem_reports p (text xs)
  rw [(spelling_text h).2] at hproblems
  exact List.map_eq_nil_iff.mp hproblems

end Piece

end Schematic
