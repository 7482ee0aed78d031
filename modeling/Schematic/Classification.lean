import Schematic.Document.Basic
import Schematic.Text.Lowercase
import Schematic.Text.Quoted
import Schematic.Text.Words

/-!
# The archetype of a document

A document that declares its type is taken at its word. For all others signals are weighed, the
most telling first: numbered messages, participants, words of control flow on the edges, and many
styled nodes with many edges all mean a sequence; fields mean entities and relationships; any edge
means a graph. The first rule that applies decides and gives the `Reason`.
-/

namespace Schematic

structure Vocabulary where
  styleKeys : List String
  roleWords : List String
  flowWords : List String
  numberingKeys : List String
  minStyledNodes : Int
  minStyledEdges : Int
deriving Repr, DecidableEq

def Vocabulary.standard : Vocabulary where
  styleKeys := ["icon", "color", "label", "shape"]
  roleWords := ["participant", "actor", "lifeline", "boundary", "control"]
  flowWords :=
    ["alt", "else", "opt", "loop", "par", "break", "activate", "deactivate", "return", "returns",
     "reply", "response"]
  numberingKeys := ["autonumber", "numbering"]
  minStyledNodes := 2
  minStyledEdges := 4

namespace Archetype

/-- The archetype that a declared type names. -/
def ofTypeName? : String → Option Archetype
  | "flow" | "graph" | "flowchart" | "cloud" | "architecture" => some .graph
  | "er" | "entity-relationship" | "class" => some .entityRelationship
  | "sequence" => some .sequence
  | "process" | "bpmn" => some .process
  | _ => none

end Archetype

namespace Classification

/-- The rule that decided, with what it went by. -/
inductive Reason where
  | declaredType (type : String)
  | numbering (key : String)
  | participant (id : String)
  | flowWord (word : String)
  | styled (nodes edges : Nat)
  | fields
  | edges (count : Nat)
  | nothing
deriving Repr, DecidableEq

def Reason.message : Reason → String
  | .declaredType type => "explicit type " ++ Text.quoted type
  | .numbering key => "numbering metadata " ++ Text.quoted key
  | .participant id => "participant-like entity " ++ Text.quoted id
  | .flowWord word => "control-flow word " ++ Text.quoted word ++ " in edge label"
  | .styled n m => toString n ++ " styled nodes with " ++ toString m ++ " edges"
  | .fields => "entities with fields"
  | .edges n => toString n ++ " edge(s)"
  | .nothing => "no structural signals"

/-! ## Signals -/

/-- One of `words` is `word`, without regard to case. -/
def mentions (words : List String) (word : String) : Bool :=
  (words.map Text.lower).contains (Text.lower word)

/-- A character between the parts of a name. -/
def separatesParts (c : Char) : Bool :=
  c == '-' || c == '_' || c == '.' || Text.isBlank c

/-- The role or the type of the entity, or a part of its id, is a role word. -/
def isParticipant (v : Vocabulary) (e : Entity) : Bool :=
  (["role", "type"].any fun key => (e.attributes.get? key).any fun value =>
    !value.isEmpty && mentions v.roleWords value) ||
  (Text.runs separatesParts e.id).any (mentions v.roleWords)

def isStyled (v : Vocabulary) (e : Entity) : Bool :=
  v.styleKeys.any e.attributes.contains

/-- The words of control flow in the label of an edge, where a word is a run of basic letters. -/
def flowWordsOf (v : Vocabulary) (e : Edge) : List String :=
  (Text.runs (fun c => !c.isAlpha) (e.label.getD "")).filter (mentions v.flowWords)

/-- The archetype that a document declares, with the declaration. -/
def declared? (d : Document) : Option (Archetype × String) := do
  let type ← d.metaText? "type"
  let archetype ← Archetype.ofTypeName? (Text.lower (Text.trim type))
  return (archetype, type)

/-- The archetype that the signals of a document speak for, with the reason. -/
def bySignals (v : Vocabulary) (d : Document) : Archetype × Reason :=
  let styled := d.entities.countP (isStyled v)
  match v.numberingKeys.find? d.metadata.contains, d.entities.find? (isParticipant v),
      (d.edges.flatMap (flowWordsOf v)).head? with
  | some key, _, _ => (.sequence, .numbering key)
  | none, some e, _ => (.sequence, .participant e.id)
  | none, none, some word => (.sequence, .flowWord word)
  | none, none, none =>
    if v.minStyledNodes ≤ styled ∧ v.minStyledEdges ≤ d.edges.length then
      (.sequence, .styled styled d.edges.length)
    else if d.entities.any Entity.hasFields then (.entityRelationship, .fields)
    else if d.edges.isEmpty then (.unknown, .nothing)
    else (.graph, .edges d.edges.length)

/-- The archetype of a document and the rule that decided it. -/
def explain (v : Vocabulary) (d : Document) : Archetype × Reason :=
  match declared? d with
  | some (archetype, type) => (archetype, .declaredType type)
  | none => bySignals v d

end Classification

namespace Document

def classified (d : Document) (v : Vocabulary := .standard) : Document :=
  { d with archetype := (Classification.explain v d).1 }

end Document

end Schematic
