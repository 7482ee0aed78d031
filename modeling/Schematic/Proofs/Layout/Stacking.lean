import Mathlib.Data.List.Pairwise
import Schematic.Proofs.Layout.Agreement
import Schematic.Proofs.Layout.Enclosure

/-!
# The column layout stacks and encloses

The column layout puts the nodes below one another in the order of the outline and draws the groups
around them from the inside to the outside; its canvas is the hull of all that is drawn
(`Layout.column_stacked`). A group is drawn around its direct members only. That it encloses what
lies deeper is an induction over the containers, an inner one before the one around it: what is
below a group is a member of it or below a group that is a member
(`IsGroups.contains_of_below`).
-/

namespace Schematic

open Outline

/-- The smallest box that has all the boxes inside. It is said by containment alone, so that it does
not matter how the hull is computed. -/
structure Rect.IsHull (rs : List (Rect Rat)) (r : Rect Rat) : Prop where
  covers : ∀ q ∈ rs, r.contains q = true
  least : ∀ s : Rect Rat, (∀ q ∈ rs, s.contains q = true) → s.contains r = true

theorem Rect.isHull_of_union {rs : List (Rect Rat)} {r : Rect Rat} (h : Rect.union rs = some r) :
    Rect.IsHull rs r :=
  ⟨fun _ hq => Rect.contains_of_union h hq, fun _ hs => Rect.contains_union h hs⟩

/-! ## What the layout consists of -/

/-- A column layout has the boxes of the nodes, groups drawn around them and the canvas around
both. -/
theorem Layout.column_eq_ok {α : Type} [Metric α] {d : Document} {style : Style α} {L : Layout α}
    (h : Layout.column d style = .ok L) :
    L.nodes = Column.nodeBoxes (ofDocument d) style.column ∧
      IsGroups (ofDocument d) style.groupPadding L.nodes L.groups ∧
      Canvas.mk L.bounds L.width L.height = Canvas.around
        (L.nodes.values.map NodeBox.bounds ++ L.groups.values.map GroupBox.bounds) style := by
  obtain ⟨groups, hall, h⟩ := bind_eq_ok h
  obtain ⟨routes, -, h⟩ := bind_eq_ok h
  cases h
  obtain ⟨groups', hall', hgroups⟩ := exists_groups (ofDocument_isOutline d).sound
    (Column.keys_nodeBoxes (ofDocument d) style.column) style.groupPadding
  rw [mapError_eq_ok_iff, hall'] at hall
  cases hall
  exact ⟨rfl, hgroups, rfl⟩

/-! ## The stack of nodes -/

namespace Column

variable {style : ColumnStyle Rat}

/-- The box of a node with `i` others above it. -/
def stackBox (style : ColumnStyle Rat) (y : Rat) (i : Nat) : Rect Rat :=
  ⟨style.left, y + i * style.step, style.boxWidth, style.boxHeight⟩

theorem map_bounds_boxesFrom (style : ColumnStyle Rat) (y : Rat) (entries : List (String × Node)) :
    (boxesFrom style y entries).map (fun e => e.2.bounds) =
      (List.range entries.length).map (stackBox style y) := by
  induction entries generalizing y with
  | nil => rfl
  | cons e rest ih =>
      obtain ⟨id, n⟩ := e
      have hnext : ∀ i, stackBox style (y + style.step) i = stackBox style y (i + 1) := by
        intro i
        simp only [stackBox, Rect.mk.injEq, true_and, and_true]
        push_cast
        ring
      have hfirst : stackBox style y 0 = ⟨style.left, y, style.boxWidth, style.boxHeight⟩ := by
        simp [stackBox]
      rw [boxesFrom, List.map_cons, ih, List.length_cons, List.range_succ_eq_map, List.map_cons,
        List.map_map, hfirst]
      exact congrArg _ (List.map_congr_left fun i _ => hnext i)

theorem bounds_nodeBoxes (o : Outline) (style : ColumnStyle Rat) :
    (nodeBoxes o style).values.map NodeBox.bounds =
      (List.range o.nodeIds.length).map (stackBox style style.top) := by
  have hlength : o.nodeIds.length = o.nodes.entries.length := List.length_map _
  rw [KeyedList.values, entries_nodeBoxes, List.map_map, hlength]
  exact map_bounds_boxesFrom ..

/-- A box ends above the ones below it if boxes are not higher than the steps: each of those begins
one step or more further down. -/
theorem stackBox_bottom_le (hheight : 0 ≤ style.boxHeight) (hstep : style.boxHeight ≤ style.step)
    (y : Rat) {i j : Nat} (hij : i < j) :
    (stackBox style y i).bottom ≤ (stackBox style y j).y := by
  have hcast : (i : Rat) + 1 ≤ j := by exact_mod_cast hij
  have hmul := mul_le_mul_of_nonneg_right hcast (le_trans hheight hstep)
  simp only [stackBox, Rect.bottom]
  linarith

end Column

/-! ## Groups around what is below them -/

section

variable {o : Outline} {nodes : KeyedList String (NodeBox Rat)}
  {groups : KeyedList String (GroupBox Rat)} {padding : Rat} {k : String} {e : Endpoint}
  {r : Rect Rat} {box : GroupBox Rat}

/-- A group contains its direct members, for it is drawn around their hull with the padding. -/
theorem IsGroups.contains_of_holds (h : IsGroups o padding nodes groups) (hs : Sound o)
    (hpadding : 0 ≤ padding) (hbox : groups.get? k = some box) (hheld : o.Holds k e)
    (hstands : o.Stands e) (hb : e.bounds nodes groups = .ok r) :
    box.bounds.contains r = true := by
  obtain ⟨members, rects, hull, hmembers, -, hrects, hunion, hbounds⟩ := h.exists_members hbox
  obtain ⟨-, hmem⟩ := hs.of_members hheld.mem_keys hmembers
  obtain ⟨r', hr', hb'⟩ := forall₂_exists_right hrects ((hmem e).mpr ⟨hheld, hstands⟩)
  obtain rfl := Except.ok.inj (hb.symm.trans hb')
  rw [hbounds]
  exact Rect.contains_trans (Rect.contains_expand_self hpadding hull)
    (Rect.contains_of_union hunion hr')

/-- A group contains what is below it. The induction is on the containers from the inside to the
outside, and what is below a group is a member of it or below one that is. -/
theorem IsGroups.contains_of_below (h : IsGroups o padding nodes groups) (hs : Sound o)
    (hnodes : nodes.keys = o.nodeIds) (hpadding : 0 ≤ padding) (hk : k ∈ o.containers.keys) :
    ∀ box e r, groups.get? k = some box → o.Below k e → e.bounds nodes groups = .ok r →
      box.bounds.contains r = true := by
  induction k, hk using hs.inner_induction with
  | step k hk ih =>
      intro box e r hbox hbelow hb
      have hstands := h.stands_of_bounds hnodes hb
      rcases hs.holds_or_below hbelow with hheld | ⟨j, hheld, hj⟩
      · exact h.contains_of_holds hs hpadding hbox hheld hstands hb
      · -- the group in between is drawn because something below it is
        have hinner : o.Stands (.group j) :=
          ⟨hs.ne_root_of_holds hheld, hs.populated_of_below hstands hj⟩
        obtain ⟨inner, hget⟩ := KeyedList.mem_keys_iff.mp ((h.mem_keys_iff hs).mpr hinner)
        exact Rect.contains_trans
          (h.contains_of_holds hs hpadding hbox hheld hinner (Endpoint.bounds_group hget))
          (ih j hheld inner e r hget hj hb)

end

/-! ## The whole drawing -/

/-- Boxes are not higher than the steps between them, and neither their height nor the padding of
groups is negative. -/
structure Style.Stackable (style : Style Rat) : Prop where
  groupPadding : 0 ≤ style.groupPadding
  boxHeight : 0 ≤ style.column.boxHeight
  step : style.column.boxHeight ≤ style.column.step

/-- A drawing in one column: the nodes in the order of the outline, each below the one before; the
populated groups, each the hull of its direct members with the padding around it and around all that
is below it; and, if there is a node, the hull of everything with the margin to the right and below
as the canvas. -/
structure Layout.Stacked (d : Document) (style : Style Rat) (L : Layout Rat) : Prop where
  order : L.nodes.keys = (ofDocument d).nodeIds
  places : L.nodes.values.map NodeBox.bounds =
    (List.range (ofDocument d).nodeIds.length).map (Column.stackBox style.column style.column.top)
  apart : L.nodes.values.Pairwise fun a b => a.bounds.bottom ≤ b.bounds.y
  drawn : L.groups.keys = ((ofDocument d).groups.map Prod.fst).filter (ofDocument d).isPopulated
  around : ∀ key box, L.groups.get? key = some box → ∃ members rects hull,
    (ofDocument d).members key = .ok members ∧ box.members = members.map Endpoint.key ∧
      List.Forall₂ (fun m r => m.bounds L.nodes L.groups = .ok r) members rects ∧
      Rect.IsHull rects hull ∧ box.bounds = hull.expand style.groupPadding
  encloses : ∀ key box e r, L.groups.get? key = some box →
    (ofDocument d).encloses key e = .ok true → e.bounds L.nodes L.groups = .ok r →
      box.bounds.contains r = true
  canvas : (ofDocument d).nodeIds ≠ [] →
    Rect.IsHull (L.nodes.values.map NodeBox.bounds ++ L.groups.values.map GroupBox.bounds)
        L.bounds ∧
      L.width = L.bounds.right + style.margin ∧ L.height = L.bounds.bottom + style.margin

theorem Canvas.isHull_around {rs : List (Rect Rat)} {style : Style Rat} {bounds : Rect Rat}
    {width height : Rat} (hne : rs ≠ [])
    (h : Canvas.mk bounds width height = Canvas.around rs style) :
    Rect.IsHull rs bounds ∧ width = bounds.right + style.margin ∧
      height = bounds.bottom + style.margin := by
  obtain ⟨r, hr⟩ := List.exists_mem_of_ne_nil rs hne
  obtain ⟨hull, hunion⟩ := Rect.exists_union hr
  simp only [Canvas.around, hunion, Canvas.mk.injEq] at h
  obtain ⟨rfl, hwidth, hheight⟩ := h
  exact ⟨Rect.isHull_of_union hunion, hwidth, hheight⟩

/-- **The column layout** of every document stacks its nodes and draws its groups around all that
is in them. -/
theorem Layout.column_stacked (length : Rat → Rat → Rat) (d : Document) (style : Style Rat)
    (hstyle : style.Stackable) :
    ∃ L, @Layout.column Rat (exactMetric length) d style = .ok L ∧ L.Stacked d style := by
  have hs := (ofDocument_isOutline d).sound
  obtain ⟨L, hL, -⟩ := @Layout.exists_column Rat (exactMetric length) d style
  obtain ⟨hnodes, hgroups, hcanvas⟩ := @Layout.column_eq_ok Rat (exactMetric length) d style L hL
  have hkeys : L.nodes.keys = (ofDocument d).nodeIds := by
    rw [hnodes]
    exact Column.keys_nodeBoxes ..
  have hplaces := Column.bounds_nodeBoxes (ofDocument d) style.column
  rw [← hnodes] at hplaces
  refine ⟨L, hL, hkeys, hplaces, ?_, hgroups.keys, ?_, ?_,
    fun hne => Canvas.isHull_around ?_ hcanvas⟩
  · have hpairwise : (L.nodes.values.map NodeBox.bounds).Pairwise fun r t => r.bottom ≤ t.y := by
      rw [hplaces]
      exact List.pairwise_lt_range.map _ fun _ _ hij =>
        Column.stackBox_bottom_le hstyle.boxHeight hstyle.step _ hij
    exact List.pairwise_map.mp hpairwise
  · intro key box hbox
    obtain ⟨members, rects, hull, hmembers, hnames, hrects, hunion, hbounds⟩ :=
      hgroups.exists_members hbox
    exact ⟨members, rects, hull, hmembers, hnames, hrects, Rect.isHull_of_union hunion, hbounds⟩
  · intro key box e r hbox hencloses hb
    have hstands := hgroups.stands_of_bounds hkeys hb
    obtain ⟨ks, hks⟩ := hs.exists_chain hstands
    obtain ⟨b, hb', hiff⟩ := hs.encloses_iff (k := key) hks
    obtain rfl := Except.ok.inj (hencloses.symm.trans hb')
    have hbelow := hiff.mp rfl
    exact hgroups.contains_of_below hs hkeys hstyle.groupPadding (hbelow.mem_keys hs) box e r hbox
      hbelow hb
  · rw [hplaces]
    intro hnil
    have hlength := congrArg List.length (List.append_eq_nil_iff.mp hnil).1
    rw [List.length_map, List.length_range, List.length_nil] at hlength
    exact hne (List.length_eq_zero_iff.mp hlength)

theorem Style.standard_stackable : (Style.standard : Style Rat).Stackable := by
  constructor <;> decide +kernel

/-- A node that is declared in a group in a group and again in another one, which leaves the
innermost group empty, and an edge to that other group. -/
def Document.rehomed : Document where
  archetype := .graph
  metadata := .empty
  blocks := .group "A" (.group "B" (.entity (.bare "x") .nil) (.entity (.bare "y") .nil))
    (.group "C" (.entity (.bare "x") .nil) .nil)
  edges := [⟨"y", "C", .directed, none, none⟩]
  dialect := .native
  lineCount := 9

theorem Layout.column_stacked_rehomed :
    (Style.standard : Style Rat).Stackable ∧
      ∃ L, @Layout.column Rat (exactMetric diagonal) .rehomed .standard = .ok L ∧
        L.Stacked .rehomed .standard ∧ L.groups.keys = ["A", "C"] := by
  obtain ⟨L, hL, hstacked⟩ :=
    Layout.column_stacked diagonal .rehomed .standard Style.standard_stackable
  have hdrawn : ((ofDocument .rehomed).groups.map Prod.fst).filter
      (ofDocument .rehomed).isPopulated = ["A", "C"] := by decide +kernel
  exact ⟨Style.standard_stackable, L, hL, hstacked, hstacked.drawn.trans hdrawn⟩

end Schematic
