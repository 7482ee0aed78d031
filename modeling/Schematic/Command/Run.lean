import Schematic.Command.Help
import Schematic.Command.Surroundings
import Schematic.Json.Document
import Schematic.Json.Layout
import Schematic.Geometry.Binary
import Schematic.Layout.Drawing
import Schematic.Text.ControlSequence
import Schematic.Text.Lines

/-!
# Running the command

A run reads a text, lays it out or shows what it says, and prints the result as JSON or writes it to
a file. It ends with the number 0 if all went well, with 1 if something went wrong on the way, and
with 2 if the arguments made no sense.
-/

namespace Schematic.Command

inductive Failure where
  | usage (e : UsageError)
  | unreadable (path : String) (fault : FileFault)
  | layout (e : LayoutFailure)
  | unfitIndent (n : Int)
  | unwritable (path : String) (fault : FileFault)
deriving Repr, DecidableEq

/-- A fault with the path it was met at. -/
def FileFault.message (fault : FileFault) (path : String) : String :=
  "[Errno " ++ toString fault.number ++ "] " ++ fault.wording ++ ": " ++ Text.quoted path

namespace Failure

/-- The number that a run ends with. -/
def exit : Failure → Nat
  | .usage _ => 2
  | _ => 1

def message : Failure → String
  | .usage e =>
    usageLine ++ "\nTry '" ++ commandName ++ " --help' for help.\n\nError: " ++ e.message
  | .unreadable path fault =>
    "error: cannot read '" ++ path ++ "': " ++ fault.message path
  | .layout e => "error: " ++ e.message
  | .unfitIndent n => "fatal: cannot indent by " ++ toString n
  | .unwritable path fault =>
    "error: cannot write '" ++ path ++ "': " ++ fault.message path

end Failure

/-- What a run leaves on the outgoing streams, and the number it ends with. -/
structure Report where
  exit : Nat
  output : String
  notes : List String
deriving Repr, DecidableEq

namespace Report

/-- The report of a run that came to nothing after the given remarks. -/
def ofFailure (remarks : List String) (e : Failure) : Report :=
  ⟨e.exit, "", remarks ++ [Text.shown e.message]⟩

/-- The lines among the notes that tell of an error. -/
def errors (r : Report) : List String :=
  (r.notes.flatMap Text.lines).filter fun line => "error: ".toList.isPrefixOf line.toList

end Report

/-! ## From text to text -/

def payload (o : Options) (text : String) : Except LayoutFailure Json :=
  if o.document then
    let r := Reading.ofText text
    .ok (r.document.json r.diagnostics)
  else
    let layout := Layout.ofText text (.standard : Style Float) (o.mode.map Mode.name) o.direction
    layout.map Layout.json

/-- The least number that says how to indent. -/
def leastIndent : Int := -9223372036854775808

/-- The greatest number that says how to indent: wider levels do not fit into memory. -/
def greatestIndent : Int := 10000000

/-- The text of a value in the spacing that is asked for, without a line end behind it. -/
def printed (o : Options) (value : Json) : Except Failure String :=
  if leastIndent ≤ o.indent ∧ o.indent ≤ greatestIndent then
    .ok (value.text (.ofIndent o.indent))
  else .error (.unfitIndent o.indent)

/-- What is told about a text when more than the result is asked for. -/
def remarks (o : Options) (text : String) : List String :=
  if o.verbose then
    let d := (Reading.ofText text).document
    ["dialect: " ++ d.dialect.name,
     "archetype: " ++ d.archetype.name ++ ", " ++ (Classification.explain .standard d).2.message]
  else []

/-! ## Effects -/

variable {m : Type → Type} [Monad m]

/-- The text to start from, with line feeds at its line ends. A path that leads to nothing that can
be read is a usage error; a folder is not found out before it is read. -/
def source (world : Surroundings m) (o : Options) : ExceptT Failure m String := do
  match o.input with
  | none => return Text.unifyLineEnds (← world.incoming)
  | some path =>
    match ← world.read path with
    | .ok text => return Text.unifyLineEnds text
    | .error .folder => throw (.unreadable path .folder)
    | .error _ => throw (.usage (.missingFile path))

/-- Puts a value where it is asked for. The result is what is left for the outgoing stream. -/
def deliver (world : Surroundings m) (o : Options) (value : Json) : ExceptT Failure m String := do
  let text ← printed o value
  match o.output with
  | none => return text ++ "\n"
  | some path =>
    match ← world.write path text with
    | .ok _ => return ""
    | .error fault => throw (.unwritable path fault)

def draw (world : Surroundings m) (o : Options) : ExceptT Failure m Report := do
  let text ← source world o
  match payload o text with
  | .error e => throw (.layout e)
  | .ok value =>
    try return ⟨0, ← deliver world o value, remarks o text⟩
    catch e => return .ofFailure (remarks o text) e

def run (world : Surroundings m) (args : List String) : m Report := do
  match Request.ofArguments args with
  | .error e => return .ofFailure [] (.usage e)
  | .ok .help => return ⟨0, helpText ++ "\n", []⟩
  | .ok (.draw o) =>
    match ← (draw world o).run with
    | .ok report => return report
    | .error e => return .ofFailure [] e

end Schematic.Command
