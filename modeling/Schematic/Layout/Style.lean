import Schematic.Geometry.Basic
import Schematic.Text.Blank
import Schematic.Text.Capital

/-!
# The style of a drawing

All lengths that a layout uses, the fonts that texts are measured in, and the direction of the
ranks. A style is a parameter of every layout; `Style.standard` is the one that is used when nothing
else is asked for.
-/

namespace Schematic

/-- The direction in which ranks follow one another. -/
inductive Direction where
  | down
  | right
deriving Repr, DecidableEq, Inhabited

namespace Direction

def name : Direction → String
  | .down => "TB"
  | .right => "LR"

/-- The direction that a text asks for, without regard to case and surrounding blanks. -/
def ofText? (s : String) : Option Direction :=
  match String.ofList (Text.basicCapitals (Text.trim s)) with
  | "TB" | "TD" => some .down
  | "LR" => some .right
  | _ => none

end Direction

/-- The gaps between boxes that ranked placement keeps: between nodes of a rank, between ranks, and
between the lines that pass a rank. -/
structure Gaps (α : Type) where
  node : α
  rank : α
  edge : α
deriving Repr, DecidableEq

/-- The measures of a sequence: columns of participants and rows of messages. -/
structure SequenceStyle (α : Type) where
  left : α
  top : α
  boxWidth : α
  boxHeight : α
  columnStep : α
  rowStep : α
  headerHeight : α
  gap : α
  loopWidth : α
  loopHeight : α
  loopStep : α
deriving Repr, DecidableEq

/-- The measures of a single column of boxes. -/
structure ColumnStyle (α : Type) where
  left : α
  top : α
  step : α
  boxWidth : α
  boxHeight : α
deriving Repr, DecidableEq

structure Style (α : Type) where
  gaps : Gaps α
  margin : α
  /-- The direction of the ranks, if the document has no say in it. -/
  direction : Option Direction
  minNodeWidth : α
  nodeHeight : α
  labelPadding : α
  rowHeight : α
  titleFont : String
  rowFont : String
  stubWidth : α
  stubHeight : α
  groupPadding : α
  cornerRadius : α
  emptyWidth : α
  emptyHeight : α
  sequence : SequenceStyle α
  column : ColumnStyle α
deriving Repr, DecidableEq

namespace Style

variable {α : Type} [Scalar α]

def standard : Style α where
  gaps := ⟨(60 : Nat), (80 : Nat), (10 : Nat)⟩
  margin := (40 : Nat)
  direction := none
  minNodeWidth := (140 : Nat)
  nodeHeight := (50 : Nat)
  labelPadding := (32 : Nat)
  rowHeight := (24 : Nat)
  titleFont := "600 14px sans-serif"
  rowFont := "12px monospace"
  stubWidth := (140 : Nat)
  stubHeight := (50 : Nat)
  groupPadding := (32 : Nat)
  cornerRadius := (8 : Nat)
  emptyWidth := (800 : Nat)
  emptyHeight := (600 : Nat)
  sequence :=
    { left := (40 : Nat)
      top := (20 : Nat)
      boxWidth := (120 : Nat)
      boxHeight := (40 : Nat)
      columnStep := (150 : Nat)
      rowStep := (60 : Nat)
      headerHeight := (60 : Nat)
      gap := (40 : Nat)
      loopWidth := (40 : Nat)
      loopHeight := (20 : Nat)
      loopStep := (30 : Nat) }
  column :=
    { left := (200 : Nat)
      top := (120 : Nat)
      step := (120 : Nat)
      boxWidth := (160 : Nat)
      boxHeight := (60 : Nat) }

end Style

end Schematic
