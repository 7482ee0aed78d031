import Schematic.Layout.Column
import Schematic.Layout.Compound
import Schematic.Layout.Sequence
import Schematic.Reading.Text

/-!
# Drawing a document or a text

The way of laying out is chosen by name or by the archetype of the document, the direction by name
or by the document itself. A direction that does not exist is reported before a mode that does not
exist; there is nothing else to report.
-/

namespace Schematic

namespace Layout

variable {α : Type} [Metric α]

def inMode (mode : Mode) (d : Document) (style : Style α) : Except LayoutFailure (Layout α) :=
  match mode with
  | .graph => graph d style
  | .sequence => .ok (sequence d style)
  | .simple => column d style

/-- The mode that a name asks for, in letters of any case. -/
def modeNamed (name : String) : Except LayoutFailure Mode :=
  match Mode.ofName? (Text.lower name) with
  | some mode => .ok mode
  | none => .error (.unknownMode (Text.lower name))

def directionNamed (s : String) : Except LayoutFailure Direction :=
  match Direction.ofText? s with
  | some direction => .ok direction
  | none => .error (.unknownDirection s)

/-- Lays a document out in the mode of the given name, or in the one that suits its archetype. -/
def ofDocument (d : Document) (style : Style α) (mode? : Option String) :
    Except LayoutFailure (Layout α) := do
  let mode ← match mode? with
    | some name => modeNamed name
    | none => .ok (.ofArchetype d.archetype)
  inMode mode d style

/-- The style with the direction that a text asks for. -/
def directed (style : Style α) (direction? : Option String) :
    Except LayoutFailure (Style α) :=
  match direction? with
  | some s => do return { style with direction := some (← directionNamed s) }
  | none => .ok style

def ofText (text : String) (style : Style α) (mode? direction? : Option String) :
    Except LayoutFailure (Layout α) := do
  let style ← directed style direction?
  ofDocument (Reading.ofText text).document style mode?

end Layout

end Schematic
