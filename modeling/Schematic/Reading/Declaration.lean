import Schematic.Reading.Cursor
import Schematic.Reading.FieldRow
import Schematic.Text.Lowercase

/-!
# Entity declarations

`name [attributes] { fields }`, where both parts may be missing, and the foreign declarations that
a keyword leads, such as `participant Alice` or `actor "Long name" as L`. A bracket or a brace that
is not closed reaches to the end of the input, with a warning at the opener.
-/

namespace Schematic

namespace Token

/-- The token is the keyword `word`, in letters of any case. -/
def isKeyword (t : Token) (word : String) : Bool :=
  t.kind == .ident && Text.lower t.text == word

end Token

namespace Cursor

/-- With the cursor on an opener, the tokens up to the next token of kind `closer`, and the cursor
behind that token. If there is none, `problem` is reported at the opener. -/
def enclosed (c : Cursor) (closer : Token.Kind) (problem : Problem) : Taken (List Token) :=
  let content := c.advance.ahead.takeWhile fun t => t.kind != closer && t.kind != .endOfInput
  let rest := c.advance.skip content.length
  ⟨content, rest.pass closer, if rest.atEnd then [⟨c.current.place, problem⟩] else []⟩

theorem length_enclosed_le (c : Cursor) (closer : Token.Kind) (problem : Problem) :
    (c.enclosed closer problem).cursor.ahead.length ≤ c.ahead.length := by
  refine Nat.le_trans (length_pass_le _ _) ?_
  rw [length_skip]
  exact Nat.le_trans (Nat.sub_le _ _) (length_advance_le c)

end Cursor

namespace Declaration

/-- The row at the cursor, as a field if it is one, and the cursor behind it. -/
def fieldRow (dialect : Dialect) (c : Cursor) : Option Field × Cursor :=
  let row := c.ahead.takeWhile fun t => !FieldRow.endsRow t
  (FieldRow.read? dialect row, (c.skip row.length).pass .newline)

def fields (dialect : Dialect) (owner : String) (c : Cursor) : Taken (List Field) :=
  let body := c.enclosed .closeBrace (.openFields owner)
  { body with value := FieldRow.readAll dialect body.value }

/-- The attributes in the brackets at the cursor, none if there are no brackets. -/
def attributes (dialect : Dialect) (owner : String) (c : Cursor) :
    Taken (KeyedList String String) :=
  if c.isAt .openBracket then
    let content := c.enclosed .closeBracket (.openAttributes owner)
    { content with value := Phrase.bracketAttributes dialect content.value }
  else ⟨.empty, c, []⟩

/-- The fields in braces, which have to be there. -/
def braced (dialect : Dialect) (owner : String) (c : Cursor) :
    Except Refusal (Taken (List Field)) := do
  let _ ← c.expect .openBrace "'\x7b'"
  return fields dialect owner c

/-- The body in the braces at the cursor, if there are braces. -/
def body (dialect : Dialect) (owner : String) (c : Cursor) :
    Except Refusal (Taken (Option (List Field))) := do
  if c.isAt .openBrace then
    let fs ← braced dialect owner c
    return { fs with value := some fs.value }
  else return ⟨none, c, []⟩

/-- The entity `id` with what follows its name; attributes in brackets are added to those it has
already. The line end behind it is passed. -/
def entity (dialect : Dialect) (id : String) (known : KeyedList String String) (c : Cursor) :
    Except Refusal (Taken Entity) := do
  let attrs := attributes dialect id c
  let rows ← body dialect id attrs.cursor
  return ⟨⟨id, known.update attrs.value, rows.value⟩, rows.cursor.pass .newline,
    attrs.diagnostics ++ rows.diagnostics⟩

def named (dialect : Dialect) (c : Cursor) : Except Refusal (Taken Entity) := do
  let (name, rest) ← c.expectName
  entity dialect name.text .empty rest

/-- The id and the label that `first as second` gives. A quoted name is the label; of two plain
names the second is the id, but Mermaid has the id first. -/
def aliased (dialect : Dialect) (first second : Token) : String × String :=
  if first.kind ≠ .string ∧ (second.kind = .string ∨ dialect = .mermaid) then
    (first.text, second.text)
  else (second.text, first.text)

/-- The name in a keyword declaration: the id, the label if there is one, and the cursor behind. -/
def titled (dialect : Dialect) (c : Cursor) : String × Option String × Cursor :=
  let first := c.current
  let rest := c.advance
  if rest.current.isKeyword "as" && (rest.peek 1).kind.isName then
    let names := aliased dialect first rest.advance.current
    (names.1, some names.2, rest.advance.advance)
  else (first.text, if first.kind = .string then some first.text else none, rest)

/-- The cursor at the attributes, the body or the line end behind a name; stereotypes and other
decorations in between are passed. -/
def passDecorations (c : Cursor) : Cursor :=
  c.skip (c.upTo fun t => t.kind == .openBracket || t.kind == .openBrace).length

/-- The entity that the keyword under the cursor declares. The keyword becomes its role. -/
def keyword (dialect : Dialect) (c : Cursor) : Except Refusal (Taken Entity) :=
  let title := titled dialect c.advance
  let role := ("role", Text.lower c.current.text)
  let label := title.2.1.toList.map fun l => ("label", l)
  entity dialect title.1 (.ofList (role :: label)) (passDecorations title.2.2)

/-! ## What a declaration takes

A body insists on its brace only where the brace has been seen, so behind a name nothing is refused.
What a declaration takes is therefore said without the refusal, and is what the reading returns. -/

/-- What `body` takes. -/
def bodyTaken (dialect : Dialect) (owner : String) (c : Cursor) : Taken (Option (List Field)) :=
  if c.isAt .openBrace then
    let fs := fields dialect owner c
    { fs with value := some fs.value }
  else ⟨none, c, []⟩

/-- What `entity` takes. -/
def entityTaken (dialect : Dialect) (id : String) (known : KeyedList String String)
    (c : Cursor) : Taken Entity :=
  let attrs := attributes dialect id c
  let rows := bodyTaken dialect id attrs.cursor
  ⟨⟨id, known.update attrs.value, rows.value⟩, rows.cursor.pass .newline,
    attrs.diagnostics ++ rows.diagnostics⟩

/-- What `keyword` takes. -/
def keywordTaken (dialect : Dialect) (c : Cursor) : Taken Entity :=
  let title := titled dialect c.advance
  let role := ("role", Text.lower c.current.text)
  let label := title.2.1.toList.map fun l => ("label", l)
  entityTaken dialect title.1 (.ofList (role :: label)) (passDecorations title.2.2)

theorem body_eq (dialect : Dialect) (owner : String) (c : Cursor) :
    body dialect owner c = .ok (bodyTaken dialect owner c) := by
  unfold body bodyTaken braced Cursor.expect
  by_cases h : c.isAt .openBrace = true
  · simp [h, bind, Except.bind, pure, Except.pure]
  · simp [h, pure, Except.pure]

theorem entity_eq (dialect : Dialect) (id : String) (known : KeyedList String String)
    (c : Cursor) : entity dialect id known c = .ok (entityTaken dialect id known c) := by
  simp only [entity, entityTaken, body_eq, bind, Except.bind, pure, Except.pure]

theorem keyword_eq (dialect : Dialect) (c : Cursor) :
    keyword dialect c = .ok (keywordTaken dialect c) :=
  entity_eq _ _ _ _

/-! ## Progress -/

theorem length_attributes_le (dialect : Dialect) (owner : String) (c : Cursor) :
    (attributes dialect owner c).cursor.ahead.length ≤ c.ahead.length := by
  unfold attributes
  split
  · exact c.length_enclosed_le .closeBracket (.openAttributes owner)
  · exact Nat.le_refl _

theorem length_bodyTaken_le (dialect : Dialect) (owner : String) (c : Cursor) :
    (bodyTaken dialect owner c).cursor.ahead.length ≤ c.ahead.length := by
  unfold bodyTaken
  split
  · exact c.length_enclosed_le .closeBrace (.openFields owner)
  · exact Nat.le_refl _

theorem length_entityTaken_le (dialect : Dialect) (id : String) (known : KeyedList String String)
    (c : Cursor) : (entityTaken dialect id known c).cursor.ahead.length ≤ c.ahead.length :=
  Nat.le_trans (Cursor.length_pass_le _ _)
    (Nat.le_trans (length_bodyTaken_le _ _ _) (length_attributes_le _ _ _))

theorem length_titled_le (dialect : Dialect) (c : Cursor) :
    (titled dialect c).2.2.ahead.length ≤ c.ahead.length := by
  have h := c.length_advance_le
  simp only [titled]
  split
  · exact Nat.le_trans (Cursor.length_advance_le _) (Nat.le_trans (Cursor.length_advance_le _) h)
  · exact h

theorem length_keywordTaken_le (dialect : Dialect) (c : Cursor) :
    (keywordTaken dialect c).cursor.ahead.length ≤ c.advance.ahead.length := by
  refine Nat.le_trans (length_entityTaken_le _ _ _ _) (Nat.le_trans ?_ (length_titled_le dialect _))
  unfold passDecorations
  rw [Cursor.length_skip]
  exact Nat.sub_le _ _

end Declaration

end Schematic
