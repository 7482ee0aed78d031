import Schematic.Command.Arguments
import Schematic.Text.Words

/-!
# The help text

Two columns: on the left the names of an option and the kind of its value, on the right what it is
good for. A left side that is too wide for its column has its line for itself, and the right column
is filled word by word.
-/

namespace Schematic.Command

def commandName : String := "diagram-layout"

/-- Fills lines of at most `width` characters with words, where `line` is the one being filled. -/
def fill (width : Nat) (line : String) : List String → List String
  | [] => [line]
  | w :: ws =>
    if line.isEmpty then fill width w ws
    else if line.length + 1 + w.length ≤ width then fill width (line ++ " " ++ w) ws
    else line :: fill width w ws

/-- The text with spaces behind it until it is `width` characters wide. -/
def padded (width : Nat) (s : String) : String :=
  s ++ String.ofList (List.replicate (width - s.length) ' ')

namespace Setting

/-- The names of an option and the kind of its value. -/
def signature (s : Setting) : String :=
  let letter := match s.letter? with
    | some c => String.ofList ['-', c, ',', ' ']
    | none => ""
  let value := match s.value? with
    | some kind => " " ++ kind
    | none => ""
  letter ++ s.name ++ value

def helpLines (s : Setting) : List String :=
  let left := "  " ++ s.signature
  let right := fill 44 "" (Text.words s.purpose)
  if left.length ≤ 32 then
    match right with
    | [] => [left]
    | first :: rest => (padded 34 left ++ first) :: rest.map (padded 34 "" ++ ·)
  else left :: right.map (padded 34 "" ++ ·)

end Setting

/-- The line that shows how the command is called. -/
def usageLine : String := "Usage: " ++ commandName ++ " [OPTIONS] [INPUT]"

/-- The help text, without a line end behind it. -/
def helpText : String :=
  "\n".intercalate
    ([usageLine, "", "  Diagram text to JSON layout geometry.", "", "Options:"]
      ++ Setting.all.flatMap Setting.helpLines)

end Schematic.Command
