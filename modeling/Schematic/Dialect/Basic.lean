/-!
# Dialects

Three surface syntaxes share one set of tokens and one reader. What differs between them is data:
which words open a group, which declare an entity, which lead a line that is kept as metadata or
dropped, and a few yes-or-no rules. This file is that data, one function of the dialect per
question. All words are listed in small letters and compared with the small form of a token.
-/

namespace Schematic

inductive Dialect where
  | native
  | plantuml
  | mermaid
deriving Repr, DecidableEq, Inhabited

namespace Dialect

def name : Dialect → String
  | .native => "native"
  | .plantuml => "plantuml"
  | .mermaid => "mermaid"

/-- Words that open a group. -/
def groupWords : Dialect → List String
  | .native => ["group"]
  | .plantuml =>
    ["package", "namespace", "node", "folder", "frame", "cloud", "rectangle", "box", "together"]
  | .mermaid => ["subgraph"]

/-- Words that declare an entity. -/
def declarationWords : Dialect → List String
  | .native => []
  | .plantuml =>
    ["participant", "actor", "boundary", "control", "entity", "database", "collections", "queue",
     "class", "interface", "enum", "abstract", "object", "component", "usecase"]
  | .mermaid => ["participant", "actor", "class"]

/-- Words that lead a directive, which is kept as metadata. -/
def directiveWords : Dialect → List String
  | .native => []
  | .plantuml => ["title", "autonumber", "skinparam", "left", "top", "hide", "show", "caption"]
  | .mermaid => ["direction", "autonumber", "title"]

/-- Words that lead a line without structure of its own. -/
def passedWords : Dialect → List String
  | .native => []
  | .plantuml =>
    ["alt", "else", "end", "loop", "opt", "par", "break", "critical", "note", "activate",
     "deactivate", "return"]
  | .mermaid =>
    ["end", "loop", "alt", "else", "opt", "par", "and", "rect", "critical", "break", "note",
     "activate", "deactivate", "classdef", "style", "linkstyle", "click"]

/-- Brackets hold `key: value` pairs; elsewhere they hold a label. -/
def keyedBrackets : Dialect → Bool
  | .native => true
  | _ => false

/-- A text between two bars on an edge line is its label. -/
def barLabels : Dialect → Bool
  | .native => false
  | _ => true

/-- A line without a connector at the top level is metadata. -/
def metadataLines : Dialect → Bool
  | .native => true
  | _ => false

/-- A mark before a field row gives its visibility. -/
def visibilityMarks : Dialect → Bool
  | .native => false
  | _ => true

/-- A group may be closed by the word `end`. -/
def endBlocks : Dialect → Bool
  | .mermaid => true
  | _ => false

/-- The words that may head a Mermaid text, each with the diagram type it declares. -/
def mermaidHeaders : List (String × String) :=
  [("graph", "flow"), ("flowchart", "flow"), ("sequencediagram", "sequence"),
   ("classdiagram", "er"), ("erdiagram", "er"), ("statediagram", "process"),
   ("statediagram-v2", "process")]

/-- The diagram type that a Mermaid header word declares. -/
def headerType? (word : String) : Option String := mermaidHeaders.lookup word

end Dialect

end Schematic
