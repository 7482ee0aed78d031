import Schematic.Document.Basic
import Schematic.Layout.Style
import Schematic.Text.Digit

/-!
# The sizes of texts and nodes

No font is ever loaded. The size of a font is read from its description, and a text is taken to be
four sevenths of that size wide for each character, and one and a half times as high.
-/

namespace Schematic

/-! ## Fonts -/

namespace Font

/-- The decimal digits at the head of `cs`, in any script, and what follows them. -/
def digits : List Char → List Nat × List Char
  | [] => ([], [])
  | c :: cs =>
    match Text.digitValue? c with
    | some d =>
      let r := digits cs
      (d :: r.1, r.2)
    | none => ([], c :: cs)

def ofDigits (ds : List Nat) : Nat := ds.foldl (fun n d => 10 * n + d) 0

/-- Digits behind a point at the head of `cs`, and what follows them. -/
def fraction : List Char → List Nat × List Char
  | '.' :: cs =>
    let r := digits cs
    if r.1.isEmpty then ([], '.' :: cs) else r
  | cs => ([], cs)

/-- A number of pixels at the head of `cs`, such as `14px` or `12.5px`: its digits as one number and
how many of them stand behind the point. -/
def pixels? (cs : List Char) : Option (Nat × Nat) :=
  let whole := digits cs
  let part := fraction whole.2
  if whole.1.isEmpty then none
  else if (['p', 'x']).isPrefixOf part.2 then
    some (ofDigits (whole.1 ++ part.1), part.1.length)
  else none

/-- The first number of pixels in a description. -/
def firstPixels? : List Char → Option (Nat × Nat)
  | [] => none
  | c :: cs => (pixels? (c :: cs)).orElse fun _ => firstPixels? cs

/-- The size of a font, 14 if its description has none. -/
def size {α : Type} [Scalar α] (font : String) : α :=
  match firstPixels? font.toList with
  | some (digits, places) => OfScientific.ofScientific digits true places
  | none => ((14 : Nat) : α)

end Font

structure Size (α : Type) where
  width : α
  height : α
deriving Repr, DecidableEq

variable {α : Type} [Scalar α]

/-- The size of a text in a font. -/
def Text.measure (text font : String) : Size α :=
  let size := Font.size font
  ⟨(text.length : α) * size * (4 : Nat) / (7 : Nat), size * 1.5⟩

/-! ## Nodes -/

/-- The width that the widest row of an entity needs, if it has rows. -/
def Entity.rowsWidth? (e : Entity) (font : String) : Option α :=
  match e.rows.map fun f => (Text.measure f.displayText font : Size α).width with
  | [] => none
  | w :: ws => some (Scalar.greatest w ws)

/-- The size of the box of an entity: its title with some room to the sides, but not narrower than
the style allows, and one line for each row below the title. -/
def Entity.size (e : Entity) (style : Style α) : Size α :=
  let title : Size α := Text.measure e.label style.titleFont
  let width := max (title.width + style.labelPadding) style.minNodeWidth
  match e.rowsWidth? style.rowFont with
  | none => ⟨width, style.nodeHeight⟩
  | some widest =>
    ⟨max width (widest + style.labelPadding),
      style.nodeHeight + (e.rows.length : α) * style.rowHeight⟩

end Schematic
