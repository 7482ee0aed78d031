import Schematic.Layout.Basic
import Schematic.Text.Capital
import Schematic.Text.Integer

/-!
# The arguments of the command

The command takes options and at most one path. An option has a long name, and most have a letter;
letters may stand together behind one dash. The value of an option follows as the rest of the
letters, behind an equals sign after the long name, or as the next argument, whatever that looks
like. Two dashes alone end the options. Of several values for one option the last one counts, and
only that one has to make sense.
-/

namespace Schematic.Command

/-! ## Options and their names -/

inductive Setting where
  | mode
  | direction
  | document
  | output
  | indent
  | verbose
  | help
deriving Repr, DecidableEq

namespace Setting

def all : List Setting := [.mode, .direction, .document, .output, .indent, .verbose, .help]

def name : Setting → String
  | .mode => "--mode"
  | .direction => "--direction"
  | .document => "--ast"
  | .output => "--output"
  | .indent => "--indent"
  | .verbose => "--verbose"
  | .help => "--help"

def letter? : Setting → Option Char
  | .mode => some 'm'
  | .direction => some 'd'
  | .output => some 'o'
  | .indent => some 'i'
  | .verbose => some 'v'
  | .document | .help => none

/-- What the value of an option is, if it takes one. -/
def value? : Setting → Option String
  | .mode => some ("[" ++ "|".intercalate (Mode.all.map Mode.name) ++ "]")
  | .direction | .output => some "TEXT"
  | .indent => some "INTEGER"
  | .document | .verbose | .help => none

def takesValue (s : Setting) : Bool := s.value?.isSome

/-- What an option is good for. -/
def purpose : Setting → String
  | .mode => "Layout strategy (default: chosen from the diagram type)"
  | .direction => "Override rank direction (TB, TD, LR)"
  | .document => "Print the parsed document instead of the layout"
  | .output => "Write output to this file instead of stdout"
  | .indent => "JSON indentation (0 for compact)"
  | .verbose => "Log pipeline decisions to stderr"
  | .help => "Show this message and exit."

def ofName? (name : String) : Option Setting := all.find? fun s => s.name == name

def ofLetter? (c : Char) : Option Setting := all.find? fun s => s.letter? == some c

end Setting

inductive UsageError where
  | unknownOption (name : String)
  | missingValue (option : Setting)
  | needlessValue (option : Setting)
  | badValue (option : Setting) (value : String)
  | needlessArgument (text : String)
  | missingFile (path : String)
deriving Repr, DecidableEq

/-- The wording of a usage error. What was typed is quoted, so that the wording stays on its
line. -/
def UsageError.message : UsageError → String
  | .unknownOption name => "No such option: " ++ Text.quoted name
  | .missingValue option => "Option '" ++ option.name ++ "' requires an argument."
  | .needlessValue option => "Option '" ++ option.name ++ "' does not take a value."
  | .badValue option value =>
    "Invalid value for '" ++ option.name ++ "': " ++ Text.quoted value ++ " is not "
      ++ (match option with
        | .mode => "one of " ++ ", ".intercalate (Mode.all.map fun m => "'" ++ m.name ++ "'")
        | _ => "a valid integer") ++ "."
  | .needlessArgument text => "Got unexpected extra argument (" ++ Text.quoted text ++ ")"
  | .missingFile path =>
    "Invalid value for '[INPUT]': Path " ++ Text.quoted path ++ " does not exist."

/-! ## Reading arguments -/

/-- What arguments say one by one: the value of an option, an option without a value, or a text that
belongs to no option. -/
inductive Item where
  | value (option : Setting) (text : String)
  | switch (option : Setting)
  | plain (text : String)
deriving Repr, DecidableEq

/-- What a single argument says, and the option at its end that takes the next argument as its
value, if there is one. -/
structure Said where
  items : List Item
  pending : Option Setting
deriving Repr, DecidableEq

namespace Said

/-- What letters behind one dash say. Behind the letter of an option that takes a value, the other
letters are this value. -/
def ofLetters : List Char → Except UsageError Said
  | [] => .ok ⟨[], none⟩
  | c :: cs =>
    match Setting.ofLetter? c with
    | none => .error (.unknownOption (String.ofList ['-', c]))
    | some option =>
      if option.takesValue then
        if cs.isEmpty then .ok ⟨[], some option⟩
        else .ok ⟨[.value option (String.ofList cs)], none⟩
      else (ofLetters cs).map fun said => { said with items := .switch option :: said.items }

/-- What a long name says, with the value behind its equals sign if there is one. -/
def ofOption (option : Setting) (value? : Option String) : Except UsageError Said :=
  match value?, option.takesValue with
  | some value, true => .ok ⟨[.value option value], none⟩
  | none, true => .ok ⟨[], some option⟩
  | some _, false => .error (.needlessValue option)
  | none, false => .ok ⟨[.switch option], none⟩

/-- What an argument says that begins with a dash. A long name is looked for first, and what begins
with two dashes is never taken for letters. -/
def ofDashed (arg : List Char) : Except UsageError Said :=
  let name := String.ofList (arg.takeWhile (· != '='))
  let value? := (arg.dropWhile (· != '=')).tail?.map String.ofList
  match Setting.ofName? name, arg with
  | some option, _ => ofOption option value?
  | none, '-' :: '-' :: _ => .error (.unknownOption name)
  | none, letters => ofLetters letters.tail

end Said

/-- An argument that names options: a dash with something behind it. -/
def isDashed (arg : String) : Bool :=
  match arg.toList with
  | '-' :: _ :: _ => true
  | _ => false

def Item.ofArguments : List String → Except UsageError (List Item)
  | [] => .ok []
  | arg :: rest =>
    if arg = "--" then .ok (rest.map .plain)
    else if isDashed arg then
      match Said.ofDashed arg.toList, rest with
      | .error e, _ => .error e
      | .ok ⟨items, none⟩, rest => (ofArguments rest).map (items ++ ·)
      | .ok ⟨items, some option⟩, text :: rest =>
        (ofArguments rest).map (items ++ .value option text :: ·)
      | .ok ⟨_, some option⟩, [] => .error (.missingValue option)
    else (ofArguments rest).map (.plain arg :: ·)

/-! ## What is asked for -/

/-- What to do with a text and where to put the result. -/
structure Options where
  mode : Option Mode
  direction : Option String
  document : Bool
  output : Option String
  indent : Int
  verbose : Bool
  input : Option String
deriving Repr, DecidableEq

def lastValue? (option : Setting) (items : List Item) : Option String :=
  (items.filterMap fun
    | .value o text => if o = option then some text else none
    | _ => none).getLast?

/-- The mode that a value names, without regard to case. -/
def modeValue (value : String) : Except UsageError Mode :=
  match Mode.all.find? fun m => m.name == Text.basicFold value with
  | some mode => .ok mode
  | none => .error (.badValue .mode value)

/-- The integer that a value spells. -/
def indentValue (value : String) : Except UsageError Int :=
  match Text.integer? value with
  | some n => .ok n
  | none => .error (.badValue .indent value)

/-- The texts that belong to no option. -/
def plainTexts (items : List Item) : List String :=
  items.filterMap fun
    | .plain text => some text
    | _ => none

/-- The options that items spell out. An output without a name is no output. -/
def Options.ofItems (items : List Item) : Except UsageError Options := do
  let mode ← (lastValue? .mode items).mapM modeValue
  let indent ← (lastValue? .indent items).mapM indentValue
  let input ← match plainTexts items with
    | [] => .ok none
    | [path] => .ok (some path)
    | _ :: text :: _ => .error (.needlessArgument text)
  return {
    mode := mode
    direction := lastValue? .direction items
    document := items.contains (.switch .document)
    output := (lastValue? .output items).filter fun path => !path.isEmpty
    indent := indent.getD 2
    verbose := items.contains (.switch .verbose)
    input := input }

inductive Request where
  | help
  | draw (options : Options)
deriving Repr, DecidableEq

/-- What the arguments ask for. A call for help comes before everything but an argument that cannot
be read at all. -/
def Request.ofArguments (args : List String) : Except UsageError Request := do
  let items ← Item.ofArguments args
  if items.contains (.switch .help) then return .help
  return .draw (← Options.ofItems items)

end Schematic.Command
