import Schematic.Layout.Basic
import Schematic.Layout.Measure
import Schematic.Outline.Build
import Schematic.Ranking.Placement

/-!
# The graph layout

Every container is placed by itself: its members, where a group inside it counts as one box, are put
into ranks. An edge belongs to the smallest container that holds both of its ends, and joins there
the members that the ends are or lie in; an edge between a group and something inside it belongs
nowhere and is drawn as a straight line at the end.

Containers are placed from the inside to the outside, because the box of a group has to be large
enough for its content. Then positions are handed down from the outside to the inside: the content
of a group begins at the corner of its box, moved in by the padding. The outline lists outer
containers before inner ones, so both are single passes over it, the first one backwards.
-/

namespace Schematic

namespace Compound

/-- Where an edge is routed: in a container, between two of its direct members, or in none. -/
inductive Filing where
  | detached
  | within (container : String) (source target : Endpoint)
deriving Repr, DecidableEq

/-- The endpoint is a group that encloses the other one. -/
def swallows (o : Outline) (e f : Endpoint) : Except Missing Bool :=
  match e with
  | .node _ => .ok false
  | .group key => o.encloses key f

/-- Where a wire is routed. -/
def file (o : Outline) (w : Wire) : Except Missing Filing := do
  if (← swallows o w.source w.target) || (← swallows o w.target w.source) then return .detached
  else
    let key ← o.commonContainer w.source w.target
    return .within key (← o.lift w.source key) (← o.lift w.target key)

/-- What the ids of group boxes begin with. -/
def groupMark : String := "__sg_"

def boxId : Endpoint → String
  | .node id => id
  | .group key => groupMark ++ key

variable {α : Type} [Scalar α]

/-! ## Placing the containers -/

def nodeSize (style : Style α) (n : Node) : Size α :=
  if n.stub then ⟨style.stubWidth, style.stubHeight⟩ else n.entity.size style

/-- The box of a member: for a group its content, already placed, with padding around it. -/
def memberBox (o : Outline) (style : Style α) (placed : KeyedList String (Ranked α)) :
    Endpoint → Except Missing (RankNode α)
  | .node id => do
    let size := nodeSize style (← o.node id)
    return ⟨id, size.width, size.height⟩
  | .group key => do
    let content ← placed.find key (.group key)
    let both := (2 : Nat) * style.groupPadding
    return ⟨boxId (.group key), content.width + both, content.height + both⟩

/-- The edges that are routed in the container `key`. -/
def edgesIn (filed : List (Wire × Filing)) (key : String) : List RankEdge :=
  filed.filterMap fun (w, f) =>
    match f with
    | .detached => none
    | .within k source target =>
      if k = key then some ⟨w.index, boxId source, boxId target⟩ else none

/-- Places the members of a container, the groups among which are placed already. -/
def placeContainer (o : Outline) (style : Style α) (direction : Direction)
    (filed : List (Wire × Filing)) (key : String) (placed : KeyedList String (Ranked α)) :
    Except LayoutFailure (KeyedList String (Ranked α)) := do
  let members ← (o.members key).mapError .missing
  let boxes ← (members.mapM (memberBox o style placed)).mapError .missing
  let ranked ← (Ranked.place direction style.gaps boxes (edgesIn filed key)).mapError .ofRanks
  return placed.put key ranked

/-- Places the members of all containers, inner ones first. -/
def placeAll (o : Outline) (style : Style α) (direction : Direction)
    (filed : List (Wire × Filing)) : Except LayoutFailure (KeyedList String (Ranked α)) :=
  o.containers.keys.foldrM (placeContainer o style direction filed) .empty

/-! ## Handing down positions -/

/-- The box of an endpoint where its container is drawn, of which the content begins at `origin`. -/
def boxAt (placed : KeyedList String (Ranked α)) (origins : KeyedList String (Point α))
    (home : String) (e : Endpoint) : Except Missing (Rect α) := do
  let ranked ← placed.find home (.group home)
  let origin ← origins.find home (.group home)
  let r ← ranked.rects.find (boxId e) (.node (boxId e))
  return r.translate origin.x origin.y

/-- Notes where the content of a group begins. Groups that hold no node are not drawn. -/
def addOrigin (o : Outline) (style : Style α) (placed : KeyedList String (Ranked α))
    (origins : KeyedList String (Point α)) (key : String) :
    Except Missing (KeyedList String (Point α)) := do
  if o.isPopulated key then
    let r ← boxAt placed origins (← o.home (.group key)) (.group key)
    return origins.put key ⟨r.x + style.groupPadding, r.y + style.groupPadding⟩
  else return origins

/-- Where the content of each container begins, that of the root at the margin. -/
def origins (o : Outline) (style : Style α) (placed : KeyedList String (Ranked α)) :
    Except Missing (KeyedList String (Point α)) :=
  (o.groups.map Prod.fst).foldlM (addOrigin o style placed)
    (.ofList [(Outline.root, ⟨style.margin, style.margin⟩)])

def nodeBoxes (o : Outline) (placed : KeyedList String (Ranked α))
    (origins : KeyedList String (Point α)) : Except Missing (KeyedList String (NodeBox α)) := do
  let boxes ← o.nodes.entries.mapM fun (id, n) => do
    let r ← boxAt placed origins n.home (.node id)
    return (id, (⟨n.entity, r, n.stub⟩ : NodeBox α))
  return .ofList boxes

/-- The points of a wire: as its container has routed it or, if it is detached, straight from one
end to the other. -/
def wirePoints (placed : KeyedList String (Ranked α)) (origins : KeyedList String (Point α))
    (nodes : KeyedList String (NodeBox α)) (groups : KeyedList String (GroupBox α)) (w : Wire) :
    Filing → Except Missing (List (Point α))
  | .detached => w.straight nodes groups
  | .within key _ _ =>
    match placed.get? key, origins.get? key with
    | some ranked, some origin =>
      .ok (((ranked.routes.get? w.index).getD []).map fun p => p.translate origin.x origin.y)
    | _, _ => .ok []

end Compound

variable {α : Type}

/-- The direction of the ranks: that of the style or, if it has none, to the right when the
`direction` in the metadata mentions an L or an R, else down. -/
def Style.directionFor (style : Style α) (d : Document) : Direction :=
  match style.direction with
  | some direction => direction
  | none =>
    if ((d.metaText? "direction").getD "" |> Text.basicCapitals).any fun c => c == 'L' || c == 'R'
    then .right
    else .down

/-- Lays a document out as a graph of nested groups. -/
def Layout.graph [Metric α] (d : Document) (style : Style α) : Except LayoutFailure (Layout α) := do
  let direction := style.directionFor d
  let o := Outline.ofDocument d
  let filed ← (o.wires.mapM fun w => do return (w, ← Compound.file o w)).mapError .missing
  let placed ← Compound.placeAll o style direction filed
  let origins ← (Compound.origins o style placed).mapError .missing
  let nodes ← (Compound.nodeBoxes o placed origins).mapError .missing
  let groups ← (GroupBox.all o style.groupPadding nodes).mapError .missing
  let routes ← (filed.mapM fun (w, f) => do
    let points ← Compound.wirePoints placed origins nodes groups w f
    return w.route points style.cornerRadius).mapError .missing
  let canvas := Canvas.around (nodes.values.map NodeBox.bounds ++ groups.values.map GroupBox.bounds)
    style
  return {
    mode := .graph
    archetype := d.archetype
    direction := direction
    nodes := nodes
    groups := groups
    routes := routes
    bounds := canvas.bounds
    width := canvas.width
    height := canvas.height }

end Schematic
