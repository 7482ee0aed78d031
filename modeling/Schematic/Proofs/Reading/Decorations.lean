import Schematic.Proofs.Reading.Fieldless
import Schematic.Proofs.Reading.FieldRows
import Schematic.Proofs.Reading.GroupText

/-!
# Decorations of a declaration

In PlantUML a declaration is a keyword and a name, and what stands between the name and the body is
passed. But a line with a connector is an edge line before it is anything else. So a decoration
leaves the declaration as it is exactly if no connector stands in it
(`Reading.ofText_decorated`). A stereotype always ends with one, the second angle that closes it:
the line draws edges, if any, the entity is lost, and the rows of its body are read as statements.
-/

namespace Schematic

open Token (IsWord unplaced)

/-! ## The tokens of a stereotype -/

namespace Token

/-- A character of a stereotype: one that may be in a name, or an angle. -/
def IsAngled (c : Char) : Prop := isNameChar c = true ∨ c = '<' ∨ c = '>'

/-- The kinds of token in a stereotype. A single opening angle is no connector; with dashes behind
it, or a closing angle, it is a part of one. -/
def Kind.isAngled (k : Kind) : Bool := k.isWord || k.isConnector || k == .less

/-- What a lexeme of a stereotype is; a closing angle is part of a connector. -/
def Shape.IsAngled (s : Shape) : Prop :=
  ∃ kind text, s = .verbatim kind text ∧ kind.isAngled = true ∧
    ('>' ∈ text → kind.isConnector = true)

theorem isAngled_nameKind (text : List Char) : (nameKind text).isAngled = true := by
  unfold nameKind
  split
  · rfl
  · split <;> rfl

theorem isAngled_nameShape {c : Char} (hc : isNameChar c = true) (cs : List Char) :
    (nameShape c cs).IsAngled := by
  refine ⟨nameKind (c :: nameTail cs), _, rfl, isAngled_nameKind _, fun hmem => ?_⟩
  rcases List.mem_cons.mp hmem with rfl | hmem
  · exact absurd hc (by decide)
  · exact absurd (isNameChar_of_mem_nameTail hmem) (by decide)

theorem isAngled_of_isConnector {kind : Kind} (hk : kind.isConnector = true) (text : List Char) :
    (Shape.verbatim kind text).IsAngled :=
  ⟨kind, text, rfl, by simp [Kind.isAngled, hk], fun _ => hk⟩

theorem isAngled_dashShape (cs : List Char) : (dashShape cs).IsAngled := by
  unfold dashShape
  split
  · exact isAngled_of_isConnector rfl _
  · split
    · exact isAngled_of_isConnector rfl _
    · split
      · exact isAngled_nameShape (by decide) cs
      · exact isAngled_of_isConnector rfl _

theorem isAngled_angleShape (cs : List Char) : (angleShape cs).IsAngled := by
  unfold angleShape
  split
  · exact isAngled_of_isConnector rfl _
  · split
    · exact ⟨.less, _, rfl, rfl, by decide⟩
    · exact isAngled_of_isConnector rfl _

theorem isAngled_shape {c : Char} (hc : IsAngled c) (cs : List Char) : (shape c cs).IsAngled := by
  rcases hc with hc | rfl | rfl
  · by_cases hd : c = '-'
    · subst hd
      exact isAngled_dashShape cs
    · have hopens : OpensName c cs := ⟨hc, fun he => absurd he hd⟩
      rw [hopens.shape_eq]
      exact isAngled_nameShape hc cs
  · exact isAngled_angleShape cs
  · exact isAngled_of_isConnector rfl _

theorem Reads.source_eq {rest source text : List Char} {kind : Kind}
    (h : Reads rest source (.verbatim kind text)) (hk : kind ≠ .string) : source = text := by
  generalize hs : Shape.verbatim kind text = s at h
  cases h with
  | newline => exact (congrArg Shape.text hs).symm
  | verbatim => exact (congrArg Shape.text hs).symm
  | blank => cases hs
  | unknown => cases hs
  | closed => exact absurd (Option.some.inj (congrArg Shape.kind? hs)) hk
  | unclosed => exact absurd (Option.some.inj (congrArg Shape.kind? hs)) hk

/-- The lexemes of a text of such characters. If there is a closing angle, the lexeme that holds it
is a connector. The induction is on the lexemes. -/
theorem lexemes_of_isAngled {cs : List Char} (h : ∀ c ∈ cs, IsAngled c) (p : Place) :
    (∀ x ∈ lexemes p cs, x.shape.IsAngled) ∧
      ('>' ∈ cs → ∃ x ∈ lexemes p cs, ∃ kind text, x.shape = .verbatim kind text ∧
        kind.isConnector = true) := by
  induction p, cs using lexemes_induct with
  | nil p => simp [lexemes]
  | cons p c cs source tail hcut hr hlex ih =>
      have hfirst := isAngled_shape (h c (List.mem_cons_self ..)) cs
      obtain ⟨hall, hmem⟩ := ih fun d hd => h d (hcut ▸ List.mem_append_right source hd)
      rw [hlex]
      refine ⟨List.forall_mem_cons.mpr ⟨hfirst, hall⟩, fun hgt => ?_⟩
      rw [hcut, List.mem_append] at hgt
      rcases hgt with hgt | hgt
      · obtain ⟨kind, text, hshape, hkind, hconnects⟩ := hfirst
        have hstring : kind ≠ .string := fun he => by rw [he] at hkind; cases hkind
        rw [hshape] at hr
        rw [hr.source_eq hstring] at hgt
        exact ⟨_, List.mem_cons_self .., kind, text, hshape, hconnects hgt⟩
      · obtain ⟨x, hx, hfound⟩ := hmem hgt
        exact ⟨x, List.mem_cons_of_mem _ hx, hfound⟩

end Token

/-! ## Decorations -/

namespace Declaration

/-- Another name follows: `as` and a name. A decoration that began like this would rename the
entity. -/
def renames : List Token → Bool
  | t :: u :: _ => t.isKeyword "as" && u.kind.isName
  | _ => false

/-- A text that may stand between the name and the body: it leaves no string open, stays in front
of the line end, the body and the brackets, and does not give another name. -/
structure Decoration (d : String) : Prop where
  quoted : ∀ x ∈ (Token.scan d).diagnostics, x.problem ≠ .openString
  kinds : ∀ t ∈ (Token.scan d).tokens,
    t.kind ∉ [Token.Kind.newline, .comment, .openBrace, .openBracket]
  unnamed : renames (Token.scan d).tokens = false

/-- A connector stands in the text, outside its strings and comments. -/
def Connects (d : String) : Prop := ∃ t ∈ (Token.scan d).tokens, t.kind.isConnector = true

def stereotype (s : String) : String := "<<" ++ s ++ ">>"

theorem toList_stereotype (s : String) :
    (stereotype s).toList = '<' :: '<' :: (s.toList ++ ['>', '>']) := by
  simp [stereotype]

theorem isAngled_of_mem_stereotype {s : String} (hs : IsWord s) :
    ∀ c ∈ (stereotype s).toList, Token.IsAngled c := by
  intro c hc
  rw [toList_stereotype] at hc
  simp only [List.mem_cons, List.mem_append, List.not_mem_nil, or_false] at hc
  rcases hc with rfl | rfl | hc | rfl | rfl
  · exact Or.inr (Or.inl rfl)
  · exact Or.inr (Or.inl rfl)
  · exact Or.inl (hs.isNameChar c hc)
  · exact Or.inr (Or.inr rfl)
  · exact Or.inr (Or.inr rfl)

/-- The stereotype of a word is a decoration with a connector: what holds its first closing angle is
one, whatever the word is. -/
theorem decoration_stereotype {s : String} (hs : IsWord s) :
    Decoration (stereotype s) ∧ Connects (stereotype s) := by
  obtain ⟨hall, hgt⟩ := Token.lexemes_of_isAngled (isAngled_of_mem_stereotype hs) .start
  have hkinds : ∀ t ∈ Token.tokens .start (stereotype s).toList, t.kind.isAngled = true := by
    intro t ht
    obtain ⟨x, hx, htoken⟩ := List.mem_filterMap.mp ht
    obtain ⟨kind, text, hshape, hkind, -⟩ := hall x hx
    simp only [Token.Lexeme.token?, hshape, Token.Shape.verbatim, Option.map_some,
      Option.some.injEq] at htoken
    rw [← htoken]
    exact hkind
  refine ⟨⟨?_, ?_, ?_⟩, ?_⟩
  · intro d hd
    obtain ⟨x, hx, hproblem⟩ := List.mem_filterMap.mp hd
    obtain ⟨kind, text, hshape, -⟩ := hall x hx
    simp [Token.Lexeme.diagnostic?, hshape, Token.Shape.verbatim] at hproblem
  · intro t ht
    rw [Token.scan_eq] at ht
    rcases List.mem_append.mp ht with ht | ht
    · have hk := hkinds t ht
      revert hk
      cases t.kind <;> decide
    · rw [List.mem_singleton.mp ht]
      simp [Token.endAt]
  · have hfirst : ∃ more, (Token.scan (stereotype s)).tokens = ⟨.less, "<", .start⟩ :: more := by
      rw [Token.scan_eq, toList_stereotype, Token.tokens, Token.lexemes]
      exact ⟨_, rfl⟩
    obtain ⟨more, hmore⟩ := hfirst
    rw [hmore]
    cases more <;> rfl
  · obtain ⟨x, hx, kind, text, hshape, hkind⟩ := hgt (by rw [toList_stereotype]; simp)
    refine ⟨⟨kind, String.ofList text, x.place⟩, ?_, hkind⟩
    rw [Token.scan_eq]
    refine List.mem_append_left _ (List.mem_filterMap.mpr ⟨x, hx, ?_⟩)
    simp [Token.Lexeme.token?, hshape, Token.Shape.verbatim]

/-! ## Texts -/

/-- The text of a declaration keyword. It is scanned as one identifier, in small letters or
capitals. -/
structure IsKeyword (kw : String) : Prop where
  isWord : IsWord kw
  ident : Token.nameKind kw.toList = .ident
  declares : Text.lower kw ∈ Dialect.plantuml.declarationWords

/-- The rows of a body, on lines of their own: they leave no string open, and no brace stands in
them. -/
structure RowsText (rows : String) : Prop where
  quoted : ∀ x ∈ (Token.scan rows).diagnostics, x.problem ≠ .openString
  kinds : ∀ t ∈ (Token.scan rows).tokens, t.kind ∉ [Token.Kind.openBrace, .closeBrace]

/-- The body behind a declaration, or nothing. The rows have lines of their own. -/
def bodyText : Option String → String
  | none => ""
  | some rows => " \x7b\n" ++ rows ++ "\n\x7d"

/-- A declaration with what stands between its name and its body. The decoration brings its own
space in front, so that there may be none at all. -/
def declarationText (kw n decoration : String) (rows? : Option String) : String :=
  kw ++ " " ++ n ++ decoration ++ bodyText rows?

/-- The tokens of a body, without their places. -/
def bodyTokens : Option String → List Token
  | none => []
  | some rows => ⟨.openBrace, "\x7b", .start⟩ :: ⟨.newline, "\n", .start⟩ ::
      (unplaced rows.toList ++ [⟨.newline, "\n", .start⟩, ⟨.closeBrace, "\x7d", .start⟩])

section Texts

variable {kw n d : String} {rows? : Option String}

theorem toList_bodyText (rows : String) : (bodyText (some rows)).toList =
    ' ' :: '{' :: '\n' :: (rows.toList ++ '\n' :: ['}']) := by
  simp [bodyText]

theorem unplaced_bodyText (hrows : ∀ rows ∈ rows?, RowsText rows) :
    unplaced (bodyText rows?).toList = bodyTokens rows? := by
  cases rows? with
  | none => exact Token.unplaced_nil
  | some rows =>
      have hbrace (cs : List Char) : unplaced ('{' :: cs) =
          ⟨.openBrace, "\x7b", .start⟩ :: unplaced cs := Token.unplaced_cons '{' cs
      rw [toList_bodyText, Token.unplaced_blank, hbrace, Token.unplaced_lineEnd,
        Token.unplaced_newline (hrows rows rfl).quoted, Token.unplaced_closeBrace,
        Token.unplaced_nil]
      rfl

theorem RowsText.kind_ne {rows : String} (h : RowsText rows) :
    ∀ t ∈ unplaced rows.toList,
      t.kind ≠ .openBrace ∧ t.kind ≠ .closeBrace ∧ t.kind ≠ .endOfInput := by
  intro u hu
  obtain ⟨t, ht, hkind, hend⟩ := Token.exists_of_mem_unplaced hu
  have hnot := h.kinds t ht
  rw [hkind] at hnot
  simpa [hend] using hnot

theorem breaks_blank (cs : List Char) : Token.Breaks (' ' :: cs) :=
  Token.breaks_of_separates (by decide)

theorem head?_bodyText (rows? : Option String) : ∀ c ∈ (bodyText rows?).toList.head?, c = ' ' := by
  cases rows? with
  | none => rintro c ⟨⟩
  | some rows =>
      rw [toList_bodyText]
      rintro c ⟨⟩
      rfl

theorem breaks_bodyText (rows? : Option String) : Token.Breaks (bodyText rows?).toList := by
  intro c hc
  rw [head?_bodyText rows? c hc]
  decide

/-- A keyword and a name in front of other text are a token each, as the name ends where the text
begins. -/
theorem unplaced_front (hkw : IsKeyword kw) (hn : IsWord n) {rest : List Char}
    (hrest : Token.Breaks rest) : unplaced (kw.toList ++ ' ' :: (n.toList ++ rest)) =
      ⟨.ident, kw, .start⟩ :: ⟨Token.nameKind n.toList, n, .start⟩ :: unplaced rest := by
  rw [Token.unplaced_word hkw.isWord (breaks_blank _), Token.unplaced_blank,
    Token.unplaced_word hn hrest, hkw.ident]

theorem unplaced_plain (hkw : IsKeyword kw) (hn : IsWord n)
    (hrows : ∀ rows ∈ rows?, RowsText rows) : unplaced (declarationText kw n "" rows?).toList =
      ⟨.ident, kw, .start⟩ :: ⟨Token.nameKind n.toList, n, .start⟩ :: bodyTokens rows? := by
  have htext : (declarationText kw n "" rows?).toList =
      kw.toList ++ ' ' :: (n.toList ++ (bodyText rows?).toList) := by simp [declarationText]
  rw [htext, unplaced_front hkw hn (breaks_bodyText rows?), unplaced_bodyText hrows]

theorem Decoration.stops (hd : Decoration d) :
    ∀ x ∈ Token.lexemes .start d.toList, Token.Stops ' ' x.shape := by
  refine Token.stops_of_tokens hd.quoted fun t ht hk => ?_
  have hnot := hd.kinds t (by rw [Token.scan_eq]; exact List.mem_append_left _ ht)
  simp [hk] at hnot

/-- A decoration in front of a blank or of nothing is scanned as it is alone: it ends in nothing
that could go on there. -/
theorem Decoration.unplaced_append (hd : Decoration d) {cs : List Char}
    (hcs : ∀ c ∈ cs.head?, c = ' ') :
    unplaced (d.toList ++ cs) = unplaced d.toList ++ unplaced cs := by
  cases cs with
  | nil => rw [Token.unplaced_nil, List.append_nil, List.append_nil]
  | cons c cs =>
      obtain rfl := hcs c rfl
      rw [Token.unplaced_space hd.stops, Token.unplaced_blank]

/-- A keyword, a name and a decoration in front of such a text are scanned one after the other. -/
theorem unplaced_decorated (hkw : IsKeyword kw) (hn : IsWord n) (hd : Decoration d)
    {cs : List Char} (hcs : ∀ c ∈ cs.head?, c = ' ') :
    unplaced (kw.toList ++ ' ' :: (n.toList ++ ' ' :: (d.toList ++ cs))) =
      ⟨.ident, kw, .start⟩ :: ⟨Token.nameKind n.toList, n, .start⟩ ::
        (unplaced d.toList ++ unplaced cs) := by
  rw [unplaced_front hkw hn (breaks_blank _), Token.unplaced_blank, hd.unplaced_append hcs]

/-- The tokens of a decoration, wherever it stands. None of them begins a body or a bracket or ends
the line, and they do not give another name. -/
structure Decorates (ds : List Token) : Prop where
  kinds : ∀ t ∈ ds, t.kind ∉
    [Token.Kind.newline, .comment, .openBrace, .openBracket, .endOfInput]
  unnamed : renames ds = false

theorem Decorates.inside {ds : List Token} (h : Decorates ds) :
    ∀ t ∈ ds, t.kind.endsLine = false ∧ t.kind ≠ .openBracket := by
  intro t ht
  have hk := h.kinds t ht
  cases hkind : t.kind <;> simp_all [Token.Kind.endsLine]

theorem Decoration.decorates (hd : Decoration d) : Decorates (unplaced d.toList) := by
  constructor
  · intro u hu
    obtain ⟨t, ht, hkind, hend⟩ := Token.exists_of_mem_unplaced hu
    have hk := hd.kinds t ht
    simp only [hkind, List.mem_cons, List.not_mem_nil, or_false] at hk ⊢
    tauto
  · have hname := hd.unnamed
    rw [Token.scan_eq] at hname
    unfold unplaced
    rcases htokens : Token.tokens .start d.toList with - | ⟨t, - | ⟨u, ts⟩⟩
    · rfl
    · rfl
    · rw [htokens] at hname
      exact hname

theorem connects_iff : Connects d ↔ ∃ t ∈ unplaced d.toList, t.kind.isConnector = true := by
  constructor
  · rintro ⟨t, ht, hk⟩
    rw [Token.scan_eq] at ht
    rcases List.mem_append.mp ht with ht | ht
    · exact ⟨t.move fun _ => .start, List.mem_map_of_mem ht, hk⟩
    · rw [List.mem_singleton.mp ht] at hk
      cases hk
  · rintro ⟨u, hu, hk⟩
    obtain ⟨t, ht, hkind, -⟩ := Token.exists_of_mem_unplaced hu
    exact ⟨t, ht, hkind ▸ hk⟩

end Texts

end Declaration

namespace Reading

open Cursor Declaration

/-! ## The form of the statement -/

theorem hasConnector_of_line {ts us : List Token}
    (hts : ∀ t ∈ ts, t.kind.endsLine = false ∧ t.kind ≠ .openBracket)
    (hus : hasConnector 0 us = false) :
    hasConnector 0 (ts ++ us) = ts.any fun t => t.kind.isConnector := by
  induction ts with
  | nil => exact hus
  | cons t ts ih =>
      obtain ⟨⟨hend, hopen⟩, hts⟩ := List.forall_mem_cons.mp hts
      rw [List.cons_append, hasConnector, List.any_cons, ← ih hts]
      cases hk : t.kind <;> simp_all [Token.Kind.endsLine, Token.Kind.isConnector]

section Keyword

variable {r : Reading} {k n : Token} {rest : List Token}

/-- A line that a declaration keyword and a name lead. Whether it has a connector is asked first,
and that is what costs a stereotype its declaration. -/
theorem form_of_keyword (hd : r.dialect = .plantuml) (ha : r.cursor.ahead = k :: n :: rest)
    (hk : k.kind = .ident) (hword : Text.lower k.text ∈ Dialect.plantuml.declarationWords)
    (hn : n.kind.isWord = true) :
    r.form true = if r.cursor.lineHasConnector then .edges else .declaration := by
  have hcurrent : r.cursor.current = k := by simp [current, ha]
  have hpeek : r.cursor.peek 1 = n := by simp [peek, ha]
  have hname := Token.Kind.isName_of_isWord hn
  have hother : ∀ w ∈ Dialect.plantuml.declarationWords,
      w ∉ Dialect.plantuml.directiveWords ∧ w ∉ Dialect.plantuml.passedWords ∧
        w ∉ Dialect.plantuml.groupWords := by decide
  obtain ⟨hdirective, hpassed, hgroup⟩ := hother _ hword
  have hw : r.wordForm? true = none := by
    simp [wordForm?, hd, hcurrent, hk, hdirective, hpassed]
  have hg : r.groupForm? = none := by simp [groupForm?, hd, hcurrent, hgroup]
  have hdeclares : r.declares = !r.cursor.lineHasConnector := by
    simp [declares, hd, hcurrent, hk, hword, hpeek, hname]
  have hbrace : n.kind ≠ .openBrace := fun he => by rw [he] at hn; cases hn
  unfold form
  simp only [hcurrent, hk, hw, hg, hdeclares]
  cases hline : r.cursor.lineHasConnector with
  | false => rfl
  | true => simp [shapeForm, hcurrent, hpeek, hbrace, hline]

end Keyword

/-! ## The declaration -/

/-- The fields that the rows of a body give. Without a body there are no fields, which is not the
same as none in a body. -/
def bodyFields (rows? : Option String) : Option (List Field) :=
  rows?.map fun rows => FieldRow.readAll .plantuml (Token.tokens .start rows.toList)

/-- The entity that is declared. The keyword is its role, and the decoration leaves nothing in it.
-/
def declared (kw n : String) (rows? : Option String) : Entity :=
  ⟨n, .ofList [("role", Text.lower kw)], bodyFields rows?⟩

theorem readAll_bodyRows (rows : String) : FieldRow.readAll .plantuml
    (⟨.newline, "\n", .start⟩ :: (unplaced rows.toList ++ [⟨.newline, "\n", .start⟩])) =
      FieldRow.readAll .plantuml (Token.tokens .start rows.toList) := by
  have hbefore := FieldRow.readAll_append_newline .plantuml [] (t := ⟨.newline, "\n", .start⟩) rfl
    (unplaced rows.toList ++ [⟨.newline, "\n", .start⟩])
  have hbehind := FieldRow.readAll_append_newline .plantuml (unplaced rows.toList)
    (t := ⟨.newline, "\n", .start⟩) rfl []
  rw [FieldRow.readAll_nil, List.nil_append, List.nil_append] at hbefore
  rw [FieldRow.readAll_nil, List.append_nil] at hbehind
  rw [hbefore, hbehind]
  exact FieldRow.readAll_move _ _

variable {c : Cursor}

/-- The body in braces is read and passed. The first closing brace is the one behind the rows, since
there is none in them. -/
theorem body_of_rows {rows : String} (hrows : RowsText rows)
    (hc : c.ahead = bodyTokens (some rows)) (id : String) :
    ∃ rest, bodyTaken .plantuml id c = ⟨bodyFields (some rows), rest, []⟩ ∧ rest.ahead = [] := by
  have hat : c.isAt .openBrace = true := by simp [isAt, current, hc, bodyTokens]
  have hend : c.atEnd = false := by simp [Cursor.atEnd, isAt, current, hc, bodyTokens]
  have hadvance : c.advance.ahead = ⟨.newline, "\n", .start⟩ ::
      (unplaced rows.toList ++ [⟨.newline, "\n", .start⟩]) ++ [⟨.closeBrace, "\x7d", .start⟩] := by
    rw [ahead_advance_cons hc hend]
    simp
  have hinside : ∀ t ∈ (⟨.newline, "\n", .start⟩ : Token) ::
      (unplaced rows.toList ++ [⟨.newline, "\n", .start⟩]),
      t.kind ≠ .closeBrace ∧ t.kind ≠ .endOfInput :=
    List.forall_mem_cons.mpr ⟨by decide, List.forall_mem_append.mpr
      ⟨fun u hu => (hrows.kind_ne u hu).2, by simp⟩⟩
  obtain ⟨hvalue, hquiet, hrest⟩ :=
    enclosed_of_append (.openFields id) hadvance (by decide) hinside
  refine ⟨(c.enclosed .closeBrace (.openFields id)).cursor, ?_, hrest⟩
  simp only [bodyTaken, hat, if_true, fields, hvalue, hquiet, readAll_bodyRows, bodyFields,
    Option.map_some]

/-- At the body the entity gets its fields, and the body is passed. In front of it stands no
bracket, so there are no attributes but those known. -/
theorem entity_of_body {rows? : Option String} (hrows : ∀ rows ∈ rows?, RowsText rows)
    (hc : c.ahead = bodyTokens rows?) (id : String) (known : KeyedList String String) :
    (entityTaken .plantuml id known c).value = ⟨id, known, bodyFields rows?⟩ ∧
      (entityTaken .plantuml id known c).cursor.ahead = [] := by
  have hattributes : attributes .plantuml id c = ⟨.empty, c, []⟩ := by
    have hat : c.isAt .openBracket = false := by
      cases rows? <;> simp [isAt, current, hc, bodyTokens, c.final_kind]
    rw [attributes, hat]
    rfl
  have hbody : ∃ rest,
      bodyTaken .plantuml id c = ⟨bodyFields rows?, rest, []⟩ ∧ rest.ahead = [] := by
    cases rows? with
    | none =>
        have hat : c.isAt .openBrace = false := by
          simp [isAt, current, hc, bodyTokens, c.final_kind]
        refine ⟨c, ?_, hc⟩
        rw [bodyTaken, hat]
        rfl
    | some rows => exact body_of_rows (hrows rows rfl) hc id
  obtain ⟨rest, hbody, hrest⟩ := hbody
  have hknown : known.update .empty = known := KeyedList.update_empty_right known
  simp only [entityTaken, hattributes, hbody, hknown]
  exact ⟨trivial, by rw [pass_of_nil (k := .newline) (by decide) hrest]; exact hrest⟩

/-- What follows the name gives no other name: a decoration does not begin with `as` and a name, nor
does a body. -/
theorem titled_of_line {n : Token} {ds : List Token} {rows? : Option String}
    (hn : n.kind.isWord = true) (hds : Decorates ds)
    (hc : c.ahead = n :: (ds ++ bodyTokens rows?)) :
    titled .plantuml c = (n.text, none, c.advance) ∧
      c.advance.ahead = ds ++ bodyTokens rows? := by
  have hcurrent : c.current = n := by simp [current, hc]
  have hend : c.atEnd = false :=
    atEnd_of_isName (by rw [hcurrent]; exact Token.Kind.isName_of_isWord hn)
  have hadvance : c.advance.ahead = ds ++ bodyTokens rows? := ahead_advance_cons hc hend
  have hunnamed : (c.advance.current.isKeyword "as" && (c.advance.peek 1).kind.isName) = false := by
    rcases ds with - | ⟨t, - | ⟨u, ds⟩⟩
    · have hnot : c.advance.current.isKeyword "as" = false := by
        cases rows? <;>
          simp [Token.isKeyword, current, hadvance, bodyTokens, c.advance.final_kind]
      rw [hnot, Bool.false_and]
    · have hnot : (c.advance.peek 1).kind.isName = false := by
        cases rows? <;>
          simp [peek, hadvance, bodyTokens, c.advance.final_kind, Token.Kind.isName]
      rw [hnot, Bool.and_false]
    · have hfirst : c.advance.current = t := by simp [current, hadvance]
      have hsecond : c.advance.peek 1 = u := by simp [peek, hadvance]
      rw [hfirst, hsecond]
      exact hds.unnamed
  have hstring : n.kind ≠ .string := fun he => by rw [he] at hn; cases hn
  refine ⟨?_, hadvance⟩
  simp [titled, hunnamed, hcurrent, hstring]

theorem ahead_passDecorations {ds : List Token} {rows? : Option String} (hds : Decorates ds)
    (hc : c.ahead = ds ++ bodyTokens rows?) : (passDecorations c).ahead = bodyTokens rows? := by
  have hpassed : ∀ t ∈ ds, (!t.kind.endsLine &&
      !(t.kind == .openBracket || t.kind == .openBrace)) = true := by
    intro t ht
    have hk := hds.kinds t ht
    cases hkind : t.kind <;> simp_all [Token.Kind.endsLine]
  rw [passDecorations, upTo, ahead_skip_takeWhile, hc, List.dropWhile_append_of_pos hpassed]
  cases rows? <;> rfl

/-- The declaration reads the name and the body. What stands between them is passed up to the end of
the line or the brace. -/
theorem keyword_of_line {k n : Token} {ds : List Token} {rows? : Option String}
    (hk : k.kind = .ident) (hn : n.kind.isWord = true) (hds : Decorates ds)
    (hrows : ∀ rows ∈ rows?, RowsText rows) (hc : c.ahead = k :: n :: (ds ++ bodyTokens rows?)) :
    (keywordTaken .plantuml c).value =
        ⟨n.text, .ofList [("role", Text.lower k.text)], bodyFields rows?⟩ ∧
      (keywordTaken .plantuml c).cursor.ahead = [] := by
  have hcurrent : c.current = k := by simp [current, hc]
  have hend : c.atEnd = false := by simp [Cursor.atEnd, isAt, hcurrent, hk]
  have hadvance : c.advance.ahead = n :: (ds ++ bodyTokens rows?) := ahead_advance_cons hc hend
  obtain ⟨htitled, hrest⟩ := titled_of_line hn hds hadvance
  have hbody := ahead_passDecorations hds hrest
  simp only [keywordTaken, htitled, hcurrent]
  exact entity_of_body hrows hbody n.text _

/-! ## The line -/

/-- What of a body stands on the line of the name. An edge line takes it with the rest of the line.
-/
def braceText : Option String → String
  | none => ""
  | some _ => " \x7b"

/-- What of a body stands on the lines below. Behind an edge line it is read as statements. -/
def belowText : Option String → String
  | none => ""
  | some rows => rows ++ "\n\x7d"

/-- The line of a declaration, up to its end. It is what an edge line takes when there is a
connector in the decoration. -/
def lineText (kw n d : String) (rows? : Option String) : String :=
  kw ++ " " ++ n ++ " " ++ d ++ braceText rows?

/-- A reading at the top level of a PlantUML text, in front of a declaration behind which there is
nothing. What was read before may be anything. -/
structure AtDeclaration (r : Reading) (kw n d : String) (rows? : Option String) : Prop where
  dialect : r.dialect = .plantuml
  openGroups : r.openGroups = []
  ahead : r.cursor.ahead = ⟨.ident, kw, .start⟩ :: ⟨Token.nameKind n.toList, n, .start⟩ ::
    (unplaced d.toList ++ bodyTokens rows?)

section Line

variable {r : Reading} {kw n d : String} {rows? : Option String} (hr : AtDeclaration r kw n d rows?)
  (hkw : IsKeyword kw) (hn : IsWord n) (hd : Decorates (unplaced d.toList))
  (hrows : ∀ rows ∈ rows?, RowsText rows)

include hr

theorem AtDeclaration.atEnd : r.cursor.atEnd = false := by
  simp [Cursor.atEnd, isAt, current, hr.ahead]

theorem AtDeclaration.finished : r.finished = false := by
  simp [Reading.finished, hr.atEnd]

include hn hd

theorem AtDeclaration.lineHasConnector :
    r.cursor.lineHasConnector = (unplaced d.toList).any fun t => t.kind.isConnector := by
  have hword := hn.isWord_nameKind
  have hquiet : hasConnector 0 (bodyTokens rows?) = false := by
    cases rows? <;>
      simp [bodyTokens, hasConnector, Token.Kind.endsLine, Token.Kind.isConnector]
  have hfirst : ∀ us, hasConnector 0 (⟨.ident, kw, .start⟩ ::
      ⟨Token.nameKind n.toList, n, .start⟩ :: us) = hasConnector 0 us := by
    intro us
    rcases Token.nameKind_cases n.toList with hk | hk | hk <;> rw [hk] at hword ⊢
    · cases hword
    · rfl
    · rfl
  rw [Cursor.lineHasConnector, hr.ahead, hfirst, hasConnector_of_line hd.inside hquiet]

include hkw

theorem AtDeclaration.step : r.step = (effect .plantuml r.cursor true
    (if (unplaced d.toList).any fun t => t.kind.isConnector then .edges else .declaration)).apply
      r := by
  have hform := form_of_keyword hr.dialect hr.ahead rfl hkw.declares hn.isWord_nameKind
  rw [hr.lineHasConnector hn hd] at hform
  rw [step_of_form hr.openGroups hr.atEnd hform, hr.dialect]

include hrows

/-- Without a connector the declaration is read, and the text is over. Nothing but its entity is
added to what was read. -/
theorem AtDeclaration.run_of_unconnected
    (hnone : ∀ t ∈ unplaced d.toList, t.kind.isConnector = false) :
    r.run.blocks = r.blocks ++ Forest.ofEntities [declared kw n rows?] ∧
      r.run.edges = r.edges := by
  have hany : ((unplaced d.toList).any fun t => t.kind.isConnector) = false := by
    simpa using hnone
  obtain ⟨hvalue, hrest⟩ := keyword_of_line rfl hn.isWord_nameKind hd hrows hr.ahead
  have hstep := hr.step hkw hn hd
  rw [hany, if_neg Bool.false_ne_true] at hstep
  have hover : r.step.finished = true := by
    rw [hstep, Reading.finished, openGroups_apply, cursor_apply, hr.openGroups]
    simpa [effect, Effect.declaring] using atEnd_of_ahead_nil hrest
  rw [run_of_not_finished hr.finished, run, if_pos hover, hstep, apply_eq _ _ rfl]
  simp only [effect, Effect.declaring, hvalue, List.append_nil]
  exact ⟨rfl, trivial⟩

omit hrows in
/-- With a connector the line is an edge line, and what stands below is a text of its own. The cut
is where the line ends. -/
theorem AtDeclaration.step_of_connected
    (hsome : ∃ t ∈ unplaced d.toList, t.kind.isConnector = true) {line us : List Token}
    (hline : r.cursor.ahead = line ++ us) (hends : ∀ t ∈ line, t.kind.endsLine = false)
    (hus : ∀ u ∈ us.head?, u.kind = .newline) :
    r.step = { r with
      cursor := r.cursor.restOfLine.2
      edges := r.edges ++ (EdgeLine.read .plantuml line).edges
      diagnostics := r.diagnostics ++ (EdgeLine.read .plantuml line).diagnostics
      blocks := r.blocks ++ Forest.ofEntities (EdgeLine.read .plantuml line).declared } ∧
    r.step.cursor.ahead = us.tail := by
  have hany : ((unplaced d.toList).any fun t => t.kind.isConnector) = true := by
    simpa using hsome
  obtain ⟨hfirst, hrest⟩ := restOfLine_of_append hline hends hus
  have hstep := hr.step hkw hn hd
  rw [hany, if_pos rfl] at hstep
  refine ⟨?_, by rw [hstep, cursor_apply]; exact hrest⟩
  rw [hstep, apply_eq _ _ rfl]
  simp [effect, hfirst, putAll_nil]

end Line

/-! ## From the start -/

theorem unplaced_belowText {rows : String} (hrows : RowsText rows) :
    unplaced (belowText (some rows)).toList =
      unplaced rows.toList ++ [⟨.newline, "\n", .start⟩, ⟨.closeBrace, "\x7d", .start⟩] := by
  have htext : (belowText (some rows)).toList = rows.toList ++ '\n' :: ['}'] := by
    simp [belowText]
  rw [htext, Token.unplaced_newline hrows.quoted, Token.unplaced_closeBrace, Token.unplaced_nil]

/-- A body is cut at the end of the line of its brace. Without a body there is nothing to cut. -/
theorem exists_cut {rows? : Option String} (hrows : ∀ rows ∈ rows?, RowsText rows) :
    ∃ us, bodyTokens rows? = unplaced (braceText rows?).toList ++ us ∧
      us.tail = unplaced (belowText rows?).toList ∧ (∀ u ∈ us.head?, u.kind = .newline) ∧
      ∀ t ∈ unplaced (braceText rows?).toList, t.kind.endsLine = false := by
  cases rows? with
  | none =>
      have hbrace : unplaced (braceText none).toList = [] := Token.unplaced_nil
      exact ⟨[], by rw [hbrace]; rfl, Token.unplaced_nil.symm, by simp, by simp [hbrace]⟩
  | some rows =>
      have hbrace : unplaced (braceText (some rows)).toList = [⟨.openBrace, "\x7b", .start⟩] := by
        show unplaced " \x7b".toList = _
        decide +kernel
      refine ⟨⟨.newline, "\n", .start⟩ :: (unplaced rows.toList ++
        [⟨.newline, "\n", .start⟩, ⟨.closeBrace, "\x7d", .start⟩]), ?_, ?_, ?_, ?_⟩
      · rw [hbrace]
        rfl
      · exact (unplaced_belowText (hrows rows rfl)).symm
      · rintro u ⟨⟩
        rfl
      · rw [hbrace]
        simp [Token.Kind.endsLine]

/-- What stands below the line gives no entity with fields, and without rows none at all. Rows have
no opening brace in them, and without one no entity gets fields (`Fieldless.run`). -/
theorem ne_declared_of_below {kw n : String} {rows? : Option String}
    (hrows : ∀ rows ∈ rows?, RowsText rows) :
    ∀ e ∈ (unread .plantuml (belowText rows?).toList).run.blocks.entities,
      e ≠ declared kw n rows? := by
  cases rows? with
  | none =>
      have hover : (unread .plantuml (belowText none).toList).finished = true := by
        decide +kernel
      rw [run, if_pos hover]
      simp [unread, Forest.entities]
  | some rows =>
      have hfieldless : Fieldless (unread .plantuml (belowText (some rows)).toList) := by
        refine ⟨rfl, rfl, fun t ht => ?_, by simp [unread, Forest.entities]⟩
        change t ∈ unplaced (belowText (some rows)).toList at ht
        rw [unplaced_belowText (hrows rows rfl), List.mem_append] at ht
        rcases ht with ht | ht
        · exact ((hrows rows rfl).kind_ne t ht).1
        · revert t
          decide
      intro e he heq
      have hfields := hfieldless.run e he
      rw [heq] at hfields
      cases hfields

/-- A declaration that an edge line declares has no role: it has at most the label or the attributes
in a span, and PlantUML spans hold labels. -/
theorem ne_declared_of_line {kw n : String} {rows? : Option String} (line : List Token) :
    ∀ e ∈ (EdgeLine.read .plantuml line).declared, e ≠ declared kw n rows? := by
  rintro e he rfl
  have hkey : "role" ≠ "label" := by decide
  have hnone := (EdgeLine.isSpanned_read line _ he).get?_eq_none rfl hkey
  cases hnone

section Decorated

variable {kw n : String} {rows? : Option String} (hkw : IsKeyword kw) (hn : IsWord n)
  (hrows : ∀ rows ∈ rows?, RowsText rows)

include hkw hn hrows

theorem run_plain :
    let r := unread .plantuml (declarationText kw n "" rows?).toList
    r.run.blocks = Forest.ofEntities [declared kw n rows?] ∧ r.run.edges = [] := by
  have hnil : unplaced "".toList = [] := Token.unplaced_nil
  have hr : AtDeclaration (unread .plantuml (declarationText kw n "" rows?).toList) kw n ""
      rows? := ⟨rfl, rfl, by rw [hnil]; exact unplaced_plain hkw hn hrows⟩
  have hd : Decorates (unplaced "".toList) := by
    rw [hnil]
    exact ⟨by simp, rfl⟩
  exact hr.run_of_unconnected hkw hn hd hrows (by rw [hnil]; simp)

variable {d : String} (hd : Decoration d)

include hd

theorem atDeclaration_decorated : AtDeclaration
    (unread .plantuml (declarationText kw n (" " ++ d) rows?).toList) kw n d rows? := by
  have htext : (declarationText kw n (" " ++ d) rows?).toList =
      kw.toList ++ ' ' :: (n.toList ++ ' ' :: (d.toList ++ (bodyText rows?).toList)) := by
    simp [declarationText]
  refine ⟨rfl, rfl, ?_⟩
  show unplaced _ = _
  rw [htext, unplaced_decorated hkw hn hd (head?_bodyText rows?), unplaced_bodyText hrows]

theorem run_connected (hsome : Connects d) :
    let r := unread .plantuml (declarationText kw n (" " ++ d) rows?).toList
    let line := EdgeLine.read .plantuml (Token.tokens .start (lineText kw n d rows?).toList)
    let below := unread .plantuml (belowText rows?).toList
    r.run.blocks = Forest.ofEntities line.declared ++ below.run.blocks ∧
      r.run.edges = line.edges ++ below.run.edges := by
  intro r line below
  have hr : AtDeclaration r kw n d rows? := atDeclaration_decorated hkw hn hrows hd
  obtain ⟨us, hcut, htail, hus, hbrace⟩ := exists_cut hrows
  have hline : unplaced (lineText kw n d rows?).toList =
      ⟨.ident, kw, .start⟩ :: ⟨Token.nameKind n.toList, n, .start⟩ ::
        (unplaced d.toList ++ unplaced (braceText rows?).toList) := by
    have htext : (lineText kw n d rows?).toList =
        kw.toList ++ ' ' :: (n.toList ++ ' ' :: (d.toList ++ (braceText rows?).toList)) := by
      simp [lineText]
    rw [htext, unplaced_decorated hkw hn hd]
    cases rows? <;> simp [braceText]
  have hahead : r.cursor.ahead = unplaced (lineText kw n d rows?).toList ++ us := by
    rw [hr.ahead, hcut, hline]
    simp
  have hends : ∀ t ∈ unplaced (lineText kw n d rows?).toList, t.kind.endsLine = false := by
    have hword := hn.isWord_nameKind
    rw [hline]
    refine List.forall_mem_cons.mpr ⟨rfl, List.forall_mem_cons.mpr ⟨?_,
      List.forall_mem_append.mpr ⟨fun t ht => (hd.decorates.inside t ht).1, hbrace⟩⟩⟩
    show (Token.nameKind n.toList).endsLine = false
    cases hk : Token.nameKind n.toList <;> simp_all [Token.Kind.isWord, Token.Kind.endsLine]
  obtain ⟨hstep, hbelow⟩ := hr.step_of_connected hkw hn hd.decorates (connects_iff.mp hsome) hahead
    hends hus
  have hread : EdgeLine.read .plantuml (unplaced (lineText kw n d rows?).toList) =
      { line with diagnostics := line.diagnostics.map (Diagnostic.move fun _ => .start) } :=
    EdgeLine.read_move _ _
  have hagree : Agree r.step.afresh.run below.run := by
    refine agree_run ?_ ?_ ?_
    · rw [afresh, hstep]
      rfl
    · exact htail.symm.trans hbelow.symm
    · exact (final_step hr.finished).symm
  have hgroups : r.step.openGroups = [] := by rw [hstep]; exact hr.openGroups
  have hblocks := blocks_afresh hgroups
  have hedges : r.step.run.edges = r.step.edges ++ r.step.afresh.run.edges := by
    rw [run_afresh hgroups]
    rfl
  rw [run_of_not_finished hr.finished, hblocks, hedges, hagree.blocks, hagree.edges, hstep, hread]
  exact ⟨rfl, rfl⟩

end Decorated

/-- **Decorations.** A keyword, a name and a body in PlantUML declare the one entity. With a
decoration in between the text is read as the same if and only if no connector stands in the
decoration. If there is one, the first line is read as an edge line and the rows as statements. The
stereotype of a word always has one. -/
theorem ofText_decorated {kw n : String} {rows? : Option String} (hkw : IsKeyword kw)
    (hn : IsWord n) (hrows : ∀ rows ∈ rows?, RowsText rows) :
    let plain := (ofText (declarationText kw n "" rows?) (some .plantuml)).document
    (plain.blocks = Forest.ofEntities [declared kw n rows?] ∧ plain.edges = []) ∧
      (∀ d, Decoration d →
        let x := (ofText (declarationText kw n (" " ++ d) rows?) (some .plantuml)).document
        let line := EdgeLine.read .plantuml (Token.tokens .start (lineText kw n d rows?).toList)
        let below := (ofText (belowText rows?) (some .plantuml)).document
        (x.blocks = plain.blocks ∧ x.edges = plain.edges ↔ ¬ Connects d) ∧
          (Connects d → x.blocks = Forest.ofEntities line.declared ++ below.blocks ∧
            x.edges = line.edges ++ below.edges)) ∧
      ∀ s, IsWord s → Decoration (stereotype s) ∧ Connects (stereotype s) := by
  intro plain
  have hplain : plain.blocks = Forest.ofEntities [declared kw n rows?] ∧ plain.edges = [] := by
    have hagree := agree_unread .plantuml (declarationText kw n "" rows?)
    obtain ⟨hblocks, hedges⟩ := run_plain hkw hn hrows
    exact ⟨hagree.blocks.trans hblocks, hagree.edges.trans hedges⟩
  refine ⟨hplain, ?_, fun s hs => decoration_stereotype hs⟩
  intro d hd x line below
  have hx := agree_unread .plantuml (declarationText kw n (" " ++ d) rows?)
  have hbelow := agree_unread .plantuml (belowText rows?)
  have hconnected : Connects d → x.blocks = Forest.ofEntities line.declared ++ below.blocks ∧
      x.edges = line.edges ++ below.edges := by
    intro hsome
    obtain ⟨hblocks, hedges⟩ := run_connected hkw hn hrows hd hsome
    rw [← hbelow.blocks] at hblocks
    rw [← hbelow.edges] at hedges
    exact ⟨hx.blocks.trans hblocks, hx.edges.trans hedges⟩
  refine ⟨⟨fun hsame hsome => ?_, fun hnone => ?_⟩, hconnected⟩
  · -- the entity that the plain text declares comes neither from the line nor from below
    have hmem : declared kw n rows? ∈ x.blocks.entities := by
      rw [hsame.1, hplain.1]
      exact List.mem_cons_self ..
    rw [(hconnected hsome).1, Forest.entities_append, List.mem_append,
      Forest.entities_ofEntities] at hmem
    rcases hmem with hmem | hmem
    · exact ne_declared_of_line _ _ hmem rfl
    · rw [show below.blocks = _ from hbelow.blocks] at hmem
      exact ne_declared_of_below hrows _ hmem rfl
  · have hr := atDeclaration_decorated hkw hn hrows hd
    have hquiet : ∀ t ∈ unplaced d.toList, t.kind.isConnector = false := fun t ht =>
      Bool.eq_false_iff.mpr fun hk => hnone (connects_iff.mpr ⟨t, ht, hk⟩)
    obtain ⟨hblocks, hedges⟩ := hr.run_of_unconnected hkw hn hd.decorates hrows hquiet
    rw [hplain.1, hplain.2]
    exact ⟨hx.blocks.trans hblocks, hx.edges.trans hedges⟩

/-- The rows of a body. -/
def sampleRows : String := "  +id : int\n  -password string"

theorem ofText_decorated_sampleRows :
    IsKeyword "class" ∧ IsWord "User" ∧ RowsText sampleRows ∧
      Decoration "(of all)" ∧ ¬ Connects "(of all)" ∧
      (ofText (declarationText "class" "User" (" " ++ "(of all)") (some sampleRows))
        (some .plantuml)).document.blocks =
          Forest.ofEntities [declared "class" "User" (some sampleRows)] := by
  have hkw : IsKeyword "class" :=
    ⟨⟨.ident, rfl, by decide +kernel⟩, by decide +kernel, by decide +kernel⟩
  have hn : IsWord "User" := ⟨.ident, rfl, by decide +kernel⟩
  have hrows : RowsText sampleRows := ⟨by decide +kernel, by decide +kernel⟩
  have hd : Decoration "(of all)" := ⟨by decide +kernel, by decide +kernel, by decide +kernel⟩
  have hnone : ¬ Connects "(of all)" := by
    unfold Connects
    decide +kernel
  have hbody : ∀ rows ∈ some sampleRows, RowsText rows := fun rows h => Option.some.inj h ▸ hrows
  obtain ⟨⟨hblocks, -⟩, hdecorated, -⟩ := ofText_decorated hkw hn hbody
  exact ⟨hkw, hn, hrows, hd, hnone, ((hdecorated _ hd).1.mpr hnone).1.trans hblocks⟩

/-- A stereotype behind the name, and the class is lost. Without it the class is declared. -/
theorem stereotype_loses_class :
    (ofText (declarationText "class" "Foo" (" " ++ stereotype "entity") none)
        (some .plantuml)).document.blocks = .nil ∧
      (ofText (declarationText "class" "Foo" "" none) (some .plantuml)).document.blocks =
        Forest.ofEntities [declared "class" "Foo" none] := by
  have hdecorated := run_eq_steps (n := 3) (r := start .plantuml
    (Token.scan (declarationText "class" "Foo" (" " ++ stereotype "entity") none)).tokens)
    (by decide +kernel)
  have hplain := run_eq_steps (n := 3) (r := start .plantuml
    (Token.scan (declarationText "class" "Foo" "" none)).tokens) (by decide +kernel)
  constructor
  · show (start .plantuml (Token.scan _).tokens).run.blocks = _
    rw [hdecorated]
    decide +kernel
  · show (start .plantuml (Token.scan _).tokens).run.blocks = _
    rw [hplain]
    decide +kernel

end Reading

end Schematic
