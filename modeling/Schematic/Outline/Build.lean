import Schematic.Outline.Basic
import Schematic.Pieces

/-!
# From a document to its outline

The forest of blocks is walked once. Every group becomes a container under a key of its own; every
entity becomes a node or, if its id is known already, is merged into the node and moves it to the
container of the new declaration. Then the edges are resolved in order, the source of each before
its target. A name is looked for among the node ids, then among the names of populated groups, then
it is cut back at its points until a node id is left, and when all this fails a node is made up for
it at the root.
-/

namespace Schematic

namespace Entity

/-- Two declarations of one entity: the later one adds attributes and wins over the earlier one,
whose fields stay unless the later one has a body. -/
def merge (earlier later : Entity) : Entity :=
  ⟨later.id, earlier.attributes.update later.attributes, later.fields.or earlier.fields⟩

end Entity

namespace Outline

def start : Outline := ⟨.empty, KeyedList.empty.put root ⟨"", [], .nil, []⟩, []⟩

/-! ## Containers -/

/-- The keys that a group of the given name may get: the name itself, then the name with a
number. There is one more of them than there are keys in use. -/
def keyCandidates (name : String) (used : Nat) : List String :=
  name :: (List.range used).map fun i => name ++ "#" ++ toString (i + 2)

/-- A key for a group of the given name that no container has yet. -/
def freshKey (o : Outline) (name : String) : String :=
  ((keyCandidates name o.containers.entries.length).find?
    fun key => !o.containers.contains key).getD name

def addMember (o : Outline) (key : String) (e : Endpoint) : Outline :=
  { o with containers := o.containers.modify key fun c => { c with members := c.members ++ [e] } }

def removeMember (o : Outline) (key : String) (e : Endpoint) : Outline :=
  { o with containers := o.containers.modify key fun c => { c with members := c.members.erase e } }

/-- The keys of a container and of those around it, from the inside to the root. -/
def path (o : Outline) (key : String) : List String :=
  key :: ((o.containers.get? key).map Container.enclosing).getD []

def addGroup (o : Outline) (key name parent : String) (blocks : Forest) : Outline :=
  let c : Container := ⟨name, o.path parent, blocks, []⟩
  addMember { o with containers := o.containers.put key c } parent (.group key)

/-! ## Nodes -/

/-- Declares an entity in the container `key`. A repeated declaration is merged into the first one
and, in another container, moves the node there. -/
def declare (o : Outline) (e : Entity) (key : String) : Outline :=
  match o.nodes.get? e.id with
  | none => addMember { o with nodes := o.nodes.put e.id ⟨e, key, false⟩ } key (.node e.id)
  | some n =>
    let merged := { n with entity := n.entity.merge e, home := key }
    let moved := { o with nodes := o.nodes.put e.id merged }
    if n.home = key then moved
    else (moved.removeMember n.home (.node e.id)).addMember key (.node e.id)

/-- Adds the blocks of a forest to the container `key`. -/
def walk (o : Outline) (key : String) : Forest → Outline
  | .nil => o
  | .entity e rest => (o.declare e key).walk key rest
  | .group name members rest =>
    let inner := o.freshKey name
    ((o.addGroup inner name key members).walk inner members).walk key rest

/-! ## Edges -/

/-- The first populated group of the given name. -/
def groupNamed? (o : Outline) (name : String) : Option String :=
  (o.groups.find? fun e => e.2.name == name && o.isPopulated e.1).map Prod.fst

/-- The name without its last part, without its last two parts, and so on, where points separate
the parts. -/
def shortenings (name : String) : List String :=
  let parts := (pieces (· == '.') name.toList).map String.ofList
  ((List.range parts.length).drop 1).reverse.map fun k => ".".intercalate (parts.take k)

/-- Makes up a node at the root. -/
def addStub (o : Outline) (id : String) : Outline :=
  addMember { o with nodes := o.nodes.put id ⟨.bare id, root, true⟩ } root (.node id)

/-- What a name in an edge means, and the outline with the node that may have been made up for
it. -/
def resolve (o : Outline) (name : String) : Endpoint × Outline :=
  if o.nodes.contains name then (.node name, o)
  else
    match o.groupNamed? name with
    | some key => (.group key, o)
    | none =>
      match (shortenings name).find? o.nodes.contains with
      | some id => (.node id, o)
      | none => (.node name, o.addStub name)

def addEdge (o : Outline) (e : Edge) : Outline :=
  let (source, o) := o.resolve e.source
  let (target, o) := o.resolve e.target
  { o with wires := o.wires ++ [⟨o.wires.length, e, source, target⟩] }

def ofDocument (d : Document) : Outline :=
  d.edges.foldl addEdge (start.walk root d.blocks)

end Outline

end Schematic
