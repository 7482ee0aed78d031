import Schematic.Document.Basic
import Schematic.Text.Quoted

/-!
# The outline of a document

The structure that every way of laying out starts from: the nodes with their merged declarations,
the containers with their members, and the edges with their ends resolved. A container knows the
containers around it, from the innermost to the root; so a parent, an ancestor and the smallest
common container are read off such a chain.

This file holds the types and the questions. How a document becomes an outline is in the module
beside it.
-/

namespace Schematic

/-- What an edge can end at. -/
inductive Endpoint where
  | node (id : String)
  | group (key : String)
deriving Repr, DecidableEq

namespace Endpoint

/-- The id of a node or the key of a group. -/
def key : Endpoint → String
  | .node id => id
  | .group key => key

def isGroup : Endpoint → Bool
  | .node _ => false
  | .group _ => true

end Endpoint

/-- A node: its declarations merged into one entity, the key of the container it is in, and whether
it was made up because an edge names it. -/
structure Node where
  entity : Entity
  home : String
  stub : Bool
deriving Repr, DecidableEq

/-- A container: the name it was given, the keys of the containers around it, from the innermost to
the root, the blocks it was declared with, and its direct members in the order they came in. -/
structure Container where
  name : String
  enclosing : List String
  blocks : Forest
  members : List Endpoint
deriving Repr, DecidableEq

/-- An edge with its ends resolved; `index` is its position in the document. -/
structure Wire where
  index : Nat
  edge : Edge
  source : Endpoint
  target : Endpoint
deriving Repr, DecidableEq

/-- A key that names nothing: where a node or a container was looked for and not found. -/
inductive Missing where
  | node (id : String)
  | group (key : String)
deriving Repr, DecidableEq

def Missing.message : Missing → String
  | .node id => Text.quoted id
  | .group key => Text.quoted key

/-- Nodes, containers and resolved edges. The root is the first container, under the empty key; the
others follow in the order of the text, an outer one before the inner ones. -/
structure Outline where
  nodes : KeyedList String Node
  containers : KeyedList String Container
  wires : List Wire
deriving Repr, DecidableEq

namespace Outline

def root : String := ""

def node (o : Outline) (id : String) : Except Missing Node :=
  match o.nodes.get? id with
  | some n => .ok n
  | none => .error (.node id)

def container (o : Outline) (key : String) : Except Missing Container :=
  match o.containers.get? key with
  | some c => .ok c
  | none => .error (.group key)

/-- The ids of all nodes: declared ones in the order of their first declaration, then the made-up
ones. -/
def nodeIds (o : Outline) : List String := o.nodes.keys

/-- Every container but the root, an outer one before the inner ones. -/
def groups (o : Outline) : List (String × Container) :=
  o.containers.entries.filter fun e => e.1 != root

/-! ## Members -/

/-- A member is a node, or a group that is one of `populated`. -/
def takesSpace (populated : List String) : Endpoint → Bool
  | .node _ => true
  | .group key => populated.contains key

/-- The keys of the containers that hold a node at some depth. Inner containers come after outer
ones, so they are decided first. -/
def populated (o : Outline) : List String :=
  o.containers.entries.foldr
    (fun e known => if e.2.members.any (takesSpace known) then e.1 :: known else known) []

/-- Some node is in the container or in a container inside it. -/
def isPopulated (o : Outline) (key : String) : Bool := o.populated.contains key

/-- The direct members of a container that take up space: nodes and populated groups. -/
def members (o : Outline) (key : String) : Except Missing (List Endpoint) := do
  return (← o.container key).members.filter (takesSpace o.populated)

/-! ## Containment -/

/-- The key of the container that an endpoint is in, the root for the root itself. -/
def home (o : Outline) : Endpoint → Except Missing String
  | .node id => do return (← o.node id).home
  | .group key => do return ((← o.container key).enclosing.head?).getD root

/-- The keys of all containers that an endpoint is in, from the innermost to the root. -/
def chain (o : Outline) (e : Endpoint) : Except Missing (List String) := do
  let key ← o.home e
  return key :: (← o.container key).enclosing

/-- The smallest container that both endpoints are in. -/
def commonContainer (o : Outline) (a b : Endpoint) : Except Missing String := do
  let as ← o.chain a
  let bs ← o.chain b
  return (as.find? bs.contains).getD root

/-- The member of the container `key` on the way up from `e` through the containers of a chain. -/
def liftAlong (key : String) (e : Endpoint) : List String → Endpoint
  | [] => e
  | k :: ks => if k = key then e else liftAlong key (.group k) ks

/-- The direct member of the container `key` that is the endpoint or holds it. -/
def lift (o : Outline) (e : Endpoint) (key : String) : Except Missing Endpoint := do
  return liftAlong key e (← o.chain e)

/-- The endpoint lies strictly inside the container `key`. -/
def encloses (o : Outline) (key : String) (e : Endpoint) : Except Missing Bool := do
  if e = .group key then return false
  else return (← o.chain e).contains key

end Outline

end Schematic
