import Schematic.Json.Layout
import Schematic.Layout.Drawing
import Schematic.Proofs.Geometry.Nearest
import Schematic.Proofs.Geometry.PathText
import Schematic.Proofs.Layout.Messages

/-!
# Numbers and routes as they are written

A coordinate is written twice: in the path of its route as the nearest hundredth, and among the
points of the route as the floating point number nearest to that hundredth. The two agree: they
stand for the same floating point number, and are the same decimal as long as floating point numbers
lie closer together than hundredths (`Binary.Agree`). As every layout draws a route along its
points, the ends of a path read off its text agree with the points written beside it.
-/

namespace Schematic

/-! ## The ends of a path -/

namespace Path

variable {α : Type} [Metric α]

theorem getLast?_strokes (radius : α) : ∀ points : List (Point α),
    (strokes radius points).getLast? = points.getLast?.map .line
  | p :: q :: s :: rest => by
      have ih := getLast?_strokes radius (q :: s :: rest)
      have hlast := List.getLast?_eq_some_getLast (List.cons_ne_nil q (s :: rest))
      rw [hlast] at ih
      rw [strokes, List.getLast?_append, ih, List.getLast?_cons_cons, hlast]
      rfl
  | [_, _] => rfl
  | [_] => rfl
  | [] => rfl

theorem head?_rounded (points : List (Point α)) (radius : α) :
    (rounded points radius).head? = points.head?.map .move := by
  cases points <;> rfl

theorem getLast?_rounded (points : List (Point α)) (radius : α) :
    (rounded points radius).getLast? = points.getLast?.map .line := by
  cases points with
  | nil => rfl
  | cons p rest =>
      have hlast := getLast?_strokes radius (p :: rest)
      rw [List.getLast?_eq_some_getLast (List.cons_ne_nil p rest)] at hlast ⊢
      rw [rounded, List.getLast?_cons, hlast]
      rfl

end Path

namespace Layout

variable {α : Type} [Metric α] {d : Document} {style : Style α} {L : Layout α}

theorem exists_inMode {mode? : Option String} (h : ofDocument d style mode? = .ok L) :
    ∃ mode, inMode mode d style = .ok L := by
  unfold ofDocument at h
  cases mode? with
  | none => exact ⟨_, h⟩
  | some name =>
      obtain ⟨mode, -, h⟩ := bind_eq_ok h
      exact ⟨mode, h⟩

theorem path_eq_of_mapM {β : Type} {wire : β → Wire}
    {points : β → Except Missing (List (Point α))} {radius : α} {xs : List β}
    {routes : List (Route α)}
    (h : (xs.mapM fun x => do return (wire x).route (← points x) radius).mapError
      LayoutFailure.missing = .ok routes) {r : Route α} (hr : r ∈ routes) :
    r.path = Path.rounded r.points radius := by
  have hroutes := mapM_eq_ok_iff.mp (mapError_eq_ok_iff.mp h)
  obtain ⟨x, -, hx⟩ := forall₂_exists_left hroutes hr
  obtain ⟨ps, -, hx⟩ := bind_eq_ok hx
  cases hx
  rfl

/-- In every layout a route is drawn along its points. One case per mode: each of the layouts makes
its routes in one place, out of the points alone. -/
theorem path_eq {mode? : Option String} (h : ofDocument d style mode? = .ok L) {r : Route α}
    (hr : r ∈ L.routes) : r.path = Path.rounded r.points style.cornerRadius := by
  obtain ⟨mode, h⟩ := exists_inMode h
  cases mode with
  | graph =>
      obtain ⟨filed, -, h⟩ := bind_eq_ok h
      obtain ⟨placed, -, h⟩ := bind_eq_ok h
      obtain ⟨origins, -, h⟩ := bind_eq_ok h
      obtain ⟨nodes, -, h⟩ := bind_eq_ok h
      obtain ⟨groups, -, h⟩ := bind_eq_ok h
      obtain ⟨routes, hroutes, h⟩ := bind_eq_ok h
      cases h
      exact path_eq_of_mapM hroutes hr
  | sequence =>
      cases h
      obtain ⟨⟨⟨e, points⟩, i⟩, -, rfl⟩ := List.mem_map.mp hr
      rfl
  | simple =>
      obtain ⟨groups, -, h⟩ := bind_eq_ok h
      obtain ⟨routes, hroutes, h⟩ := bind_eq_ok h
      cases h
      exact path_eq_of_mapM hroutes hr

end Layout

/-! ## Reading what is written -/

namespace Json

def member? (key : String) : Json → Option Json
  | .object members => (members.find? fun m => m.1 == key).map Prod.snd
  | _ => none

/-- The decimal in the text of a number. -/
def number? : Json → Option ℚ
  | .number n => (Decimal.ofChars? ((Json.number n).text .line).toList).map Decimal.value
  | _ => none

def point? (j : Json) : Option (Point ℚ) := do
  return ⟨← (← j.member? "x").number?, ← (← j.member? "y").number?⟩

/-- The points of a route. -/
def points? (j : Json) : Option (List (Point ℚ)) :=
  match j.member? "points" with
  | some (.array items) => items.mapM point?
  | _ => none

/-- The commands in the path of a route. -/
def path? (j : Json) : Option (List (PathCommand ℚ)) :=
  match j.member? "path" with
  | some (.string s) => Path.ofText? s
  | _ => none

end Json

section

variable {α : Type} [Written α]

/-- The decimal that is written for a rounded scalar: the shortest that stands for it, not the
hundredth that it was rounded to. -/
def Written.serialized (x : α) : ℚ := (Written.shortest (Written.rounded x)).value

theorem Json.number?_scalar (x : α) : (Json.scalar x).number? = some (Written.serialized x) := by
  have htext (n : Hundredths) : (Json.number n).text .line = n.text := rfl
  rw [Json.scalar, Json.number?, htext, Hundredths.ofChars?_text, Option.map_some,
    Hundredths.value_decimal, Written.serialized]

theorem Point.point?_json (p : Point α) : p.json.point? = some (p.map Written.serialized) := by
  have hx : p.json.member? "x" = some (.scalar p.x) := rfl
  have hy : p.json.member? "y" = some (.scalar p.y) := rfl
  simp [Json.point?, hx, hy, Json.number?_scalar, Point.map]

theorem Json.mapM_point?_json (points : List (Point α)) :
    (points.map Point.json).mapM Json.point? =
      some (points.map (Point.map Written.serialized)) := by
  induction points with
  | nil => rfl
  | cons p ps ih =>
      rw [List.map_cons, List.mapM_cons, Point.point?_json, ih]
      rfl

theorem Route.points?_json (r : Route α) :
    r.json.points? = some (r.points.map (Point.map Written.serialized)) :=
  Json.mapM_point?_json r.points

theorem Route.path?_json (r : Route α) :
    r.json.path? = some (r.path.map (PathCommand.map Written.hundredth)) :=
  Path.ofText?_text r.path

end

/-! ## Agreement -/

open Binary

def Point.IsFinite (p : Point Float) : Prop := p.x.isFinite = true ∧ p.y.isFinite = true

instance Point.decidableIsFinite (p : Point Float) : Decidable p.IsFinite :=
  inferInstanceAs (Decidable (_ ∧ _))

/-- The points that are written for a command. -/
def PathCommand.points {α : Type} : PathCommand α → List (Point α)
  | .move p => [p]
  | .line p => [p]
  | .curve c p => [c, p]

theorem PathCommand.target_mem_points {α : Type} (c : PathCommand α) : c.target ∈ c.points := by
  cases c <;> simp [target, points]

/-- The decimal `a` of a path and the decimal `b` written elsewhere stand for the same number, and
are the same decimal unless they are so large that numbers lie further apart than hundredths. -/
structure Binary.Agree (a b : ℚ) : Prop where
  number : ∃ y : Float, IsNearest y a ∧ IsNearest y b
  decimal : |a| ≤ 2 ^ 44 → a = b

def Point.Agree (p q : Point ℚ) : Prop := Binary.Agree p.x q.x ∧ Binary.Agree p.y q.y

theorem Binary.agree_serialized {x : Float} (hx : x.isFinite = true) :
    Binary.Agree (Written.hundredth x) (Written.serialized x) where
  number := ⟨Written.rounded x, isNearest_rounded hx, isNearest_shortest hx⟩
  decimal hsmall := congrArg Hundredths.value (shortest_rounded hx hsmall).symm

theorem Point.agree_serialized {p : Point Float} (hp : p.IsFinite) :
    Point.Agree (p.map Written.hundredth) (p.map Written.serialized) :=
  ⟨Binary.agree_serialized hp.1, Binary.agree_serialized hp.2⟩

theorem PathCommand.agree_target {c? : Option (PathCommand Float)}
    (hfinite : ∀ c ∈ c?, ∀ p ∈ c.points, p.IsFinite) :
    Option.Rel Point.Agree ((c?.map (map Written.hundredth)).map target)
      ((c?.map target).map (Point.map Written.serialized)) := by
  cases c? with
  | none => exact .none
  | some c =>
      have htarget := Point.agree_serialized (hfinite c rfl _ c.target_mem_points)
      rw [← target_map] at htarget
      exact .some htarget

/-- The ends of a path, read off its text, are the ends of the points that are written beside it.
Rounding corners changes neither end, and the two texts of one coordinate agree. -/
theorem Route.ends_agree {r : Route Float} {radius : Float}
    (hpath : r.path = Path.rounded r.points radius)
    (hfinite : ∀ c ∈ r.path, ∀ p ∈ c.points, p.IsFinite) :
    ∃ path points, r.json.path? = some path ∧ r.json.points? = some points ∧
      Option.Rel Point.Agree (path.head?.map PathCommand.target) points.head? ∧
      Option.Rel Point.Agree (path.getLast?.map PathCommand.target) points.getLast? := by
  have hfirst : r.path.head?.map PathCommand.target = r.points.head? := by
    rw [hpath, Path.head?_rounded, Option.map_map]
    exact Option.map_id'
  have hlast : r.path.getLast?.map PathCommand.target = r.points.getLast? := by
    rw [hpath, Path.getLast?_rounded, Option.map_map]
    exact Option.map_id'
  refine ⟨_, _, r.path?_json, r.points?_json, ?_, ?_⟩
  · rw [List.head?_map, List.head?_map, ← hfirst]
    exact PathCommand.agree_target fun c hc => hfinite c (List.mem_of_head? hc)
  · rw [List.getLast?_map, List.getLast?_map, ← hlast]
    exact PathCommand.agree_target fun c hc => hfinite c (List.mem_of_getLast? hc)

/-- **Paths and serialized numbers denote the same values.** A finite number is written in a path as
the plain decimal of its nearest hundredth, and elsewhere as a decimal that stands for the floating
point number nearest to that hundredth. The text of a path reads as its commands with every
coordinate rounded so, and the ends of the path of a route agree with the ends of its points. -/
theorem Layout.written_agree :
    (∀ x : Float, x.isFinite = true →
      (Written.hundredths x).IsNearest (exactValue x) ∧
        Decimal.Spells (PathCommand.number x) (Written.hundredths x).value ∧
        IsNearest (Written.rounded x) (Written.hundredths x).value ∧
        (∀ y, IsNearest y (Written.hundredths x).value →
          exactValue y = exactValue (Written.rounded x)) ∧
        ∃ q, (Json.scalar x).number? = some q ∧ IsNearest (Written.rounded x) q) ∧
    (∀ commands : List (PathCommand Float), (∀ c ∈ commands, ∀ p ∈ c.points, p.IsFinite) →
      Path.ofText? (Path.text commands) =
        some (commands.map (PathCommand.map Written.hundredth))) ∧
    ∀ (d : Document) (style : Style Float) (mode? : Option String) (L : Layout Float),
      Layout.ofDocument d style mode? = .ok L → ∀ r ∈ L.routes,
        (∀ c ∈ r.path, ∀ p ∈ c.points, p.IsFinite) →
          ∃ path points, r.json.path? = some path ∧ r.json.points? = some points ∧
            Option.Rel Point.Agree (path.head?.map PathCommand.target) points.head? ∧
            Option.Rel Point.Agree (path.getLast?.map PathCommand.target) points.getLast? := by
  refine ⟨fun x hx => ⟨hundredths_isNearest hx, ?_, isNearest_rounded hx,
    fun y hy => exactValue_eq_rounded hx hy, _, Json.number?_scalar x, isNearest_shortest hx⟩,
    fun commands _ => Path.ofText?_text commands, fun d style mode? L hL r hr hfinite => ?_⟩
  · rw [PathCommand.number_eq]
    exact Hundredths.spells_text _
  · exact Route.ends_agree (Layout.path_eq hL hr) hfinite

theorem Layout.written_agree_dialogue :
    ((Written.hundredths (0.125 : Float)).IsNearest (exactValue 0.125) ∧
      PathCommand.number (0.125 : Float) = "0.12") ∧
    Path.ofText? (Path.text [.move ⟨(1.5 : Float), 2.25⟩, .line ⟨3.333, -0.001⟩]) =
      some ([.move ⟨(1.5 : Float), 2.25⟩, .line ⟨3.333, -0.001⟩].map
        (PathCommand.map Written.hundredth)) ∧
    Path.text [.move ⟨(1.5 : Float), 2.25⟩, .line ⟨3.333, -0.001⟩] = "M 1.5 2.25 L 3.33 0" ∧
    ∀ r ∈ (Layout.sequence .dialogue (.standard : Style Float)).routes,
      ∃ path points, r.json.path? = some path ∧ r.json.points? = some points ∧
        Option.Rel Point.Agree (path.head?.map PathCommand.target) points.head? ∧
        Option.Rel Point.Agree (path.getLast?.map PathCommand.target) points.getLast? := by
  have hfinite : ∀ r ∈ (Layout.sequence .dialogue (.standard : Style Float)).routes,
      ∀ c ∈ r.path, ∀ p ∈ c.points, p.IsFinite := by decide +kernel
  exact ⟨⟨(Layout.written_agree.1 0.125 (by decide +kernel)).1, by decide +kernel⟩,
    Layout.written_agree.2.1 _ (by decide +kernel), by decide +kernel,
    fun r hr => Layout.written_agree.2.2 .dialogue .standard none _ rfl r hr (hfinite r hr)⟩

end Schematic
