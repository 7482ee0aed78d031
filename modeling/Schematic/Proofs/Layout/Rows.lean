import Mathlib.Data.List.Pairwise
import Schematic.Proofs.FirstOccurrences
import Schematic.Proofs.Layout.Canvas
import Schematic.Proofs.Layout.Messages
import Schematic.Proofs.Outline.Resolution

/-!
# Rows and columns of a sequence

The participants of a sequence stand in columns side by side, one for each, and its messages run in
rows below them, each below the one before (`Layout.Tabular`). The columns are those numbered from
the left (`columnBox`), and a row lies between the height at which it begins and the height at which
the next one begins (`messagePoints_within`). The size of the canvas is where the column and the row
behind the last ones would begin, whatever is drawn; so that everything is on the canvas is the
bound at the end of the same two counts.
-/

namespace Schematic

open Outline

namespace KeyedList

universe u v

variable {κ : Type u} {β : Type v} [DecidableEq κ]

theorem keys_putNew (m : KeyedList κ β) (k : κ) (x : β) :
    (m.putNew k x).keys = (m.keys ++ [k]).eraseDups := by
  unfold putNew
  split
  · next h =>
    rw [eraseDups_concat_of_mem (contains_iff.mp h), eraseDups_of_nodup m.nodup_keys]
  · exact keys_put m k x

/-- Keys that are only written where they are new come in the order of their first mention. -/
theorem keys_foldl_putNew {γ : Type v} (f : γ → κ) (g : γ → β) (m : KeyedList κ β) (xs : List γ) :
    (xs.foldl (fun m x => m.putNew (f x) (g x)) m).keys = (m.keys ++ xs.map f).eraseDups := by
  induction xs generalizing m with
  | nil => rw [List.map_nil, List.append_nil, eraseDups_of_nodup m.nodup_keys, List.foldl_nil]
  | cons x xs ih =>
      rw [List.foldl_cons, ih, keys_putNew, eraseDups_eraseDups_append, List.append_assoc,
        List.singleton_append, List.map_cons]

end KeyedList

namespace Sequence

/-! ## Participants -/

/-- The participants are named by the declarations and then by the edges, each once and where it is
mentioned first. -/
theorem keys_participants (d : Document) :
    (participants d).keys =
      (d.entities.map Entity.id ++ d.edges.flatMap Edge.ends).eraseDups := by
  have hends : ∀ m : KeyedList String (Option Entity),
      d.edges.foldl (fun m e => (m.putNew e.source none).putNew e.target none) m =
        (d.edges.flatMap Edge.ends).foldl (fun m id => m.putNew id none) m := by
    intro m
    rw [List.foldl_flatMap]
    rfl
  have hnames := KeyedList.keys_foldl_putNew (id : String → String)
    fun _ => (none : Option Entity)
  unfold participants
  rw [hends]
  refine (hnames ..).trans ?_
  rw [KeyedList.keys_foldl_putNew Entity.id, List.map_id, eraseDups_eraseDups_append]
  rfl

/-! ## Columns -/

section

variable {α : Type} [Scalar α]

/-- The box of the participant with `i` others to its left. -/
def columnBox (s : SequenceStyle α) (i : Nat) : Rect α :=
  ⟨columnX s i, s.top, s.boxWidth, s.boxHeight⟩

theorem map_bounds_boxesFrom (s : SequenceStyle α) (n : Nat) (ps : List (String × Option Entity)) :
    (boxesFrom s (columnX s n) ps).map (fun e => e.2.bounds) =
      (List.range' n ps.length).map (columnBox s) := by
  induction ps generalizing n with
  | nil => rfl
  | cons p ps ih =>
      rw [boxesFrom, List.map_cons, List.length_cons, List.range'_succ, List.map_cons]
      exact congrArg (columnBox s n :: ·) (ih (n + 1))

/-- The participants of a document stand in the columns from the left, in the order in which they
are mentioned; the induction goes over them with the place of the next column. -/
theorem bounds_columns (s : SequenceStyle α) (d : Document) :
    (columns s d).values.map NodeBox.bounds =
      (List.range (participants d).entries.length).map (columnBox s) := by
  rw [KeyedList.values, entries_columns, List.map_map, List.range_eq_range']
  exact map_bounds_boxesFrom s 0 _

theorem exists_columnBox {s : SequenceStyle α} {d : Document} {box : NodeBox α}
    (h : box ∈ (columns s d).values) :
    ∃ i < (participants d).entries.length, box.bounds = columnBox s i := by
  have hmem := List.mem_map_of_mem (f := NodeBox.bounds) h
  rw [bounds_columns] at hmem
  obtain ⟨i, hi, heq⟩ := List.mem_map.mp hmem
  exact ⟨i, List.mem_range.mp hi, heq.symm⟩

/-- Every participant has a box. -/
theorem exists_box (s : SequenceStyle α) {d : Document} {id : String}
    (h : id ∈ (participants d).keys) : ∃ box, (columns s d).get? id = some box := by
  rw [← keys_columns s d] at h
  exact KeyedList.mem_keys_iff.mp h

theorem lifeline_eq {boxes : KeyedList String (NodeBox α)} {id : String} {box : NodeBox α}
    (h : boxes.get? id = some box) : lifeline boxes id = box.bounds.center.x := by
  rw [lifeline, h]
  rfl

end

/-! ## Messages -/

section

variable {α : Type} [Scalar α]

theorem map_fst_messagesFrom (s : SequenceStyle α) (boxes : KeyedList String (NodeBox α)) (y : α)
    (es : List Edge) : (messagesFrom s boxes y es).map Prod.fst = es := by
  induction es generalizing y with
  | nil => rfl
  | cons e es ih => rw [messagesFrom, List.map_cons, ih]

/-- Every message has the points of its edge, from some height on. -/
theorem exists_messagePoints {s : SequenceStyle α} {boxes : KeyedList String (NodeBox α)} {y : α}
    {es : List Edge} {m : Edge × List (Point α)} (h : m ∈ messagesFrom s boxes y es) :
    m.1 ∈ es ∧ ∃ y', m.2 = messagePoints s boxes y' m.1 := by
  induction es generalizing y with
  | nil => cases h
  | cons e es ih =>
      rcases List.mem_cons.mp h with rfl | h
      · exact ⟨List.mem_cons_self .., y, rfl⟩
      · exact (ih h).imp_left (List.mem_cons_of_mem e)

end

/-! ## Measures that leave room -/

/-- No length is negative that a sequence is drawn with. The box of a participant and a loop that
begins in the middle of it end within the column, the boxes end above the first row, and a loop ends
above the row behind it. -/
structure Roomy (s : SequenceStyle Rat) : Prop where
  left : 0 ≤ s.left
  top : 0 ≤ s.top
  boxWidth : 0 ≤ s.boxWidth
  boxHeight : 0 ≤ s.boxHeight
  gap : 0 ≤ s.gap
  loopWidth : 0 ≤ s.loopWidth
  loopHeight : 0 ≤ s.loopHeight
  loopStep : 0 ≤ s.loopStep
  box_in_column : s.boxWidth ≤ s.columnStep
  loop_in_column : s.boxWidth / 2 + s.loopWidth ≤ s.columnStep
  box_in_header : s.boxHeight ≤ s.headerHeight + s.gap
  rowStep : 0 < s.rowStep
  loop_in_row : s.loopHeight < s.loopStep + s.rowStep

variable {s : SequenceStyle Rat}

theorem Roomy.forward (h : Roomy s) : Forward (fun _ => True) s where
  left := trivial
  firstY := trivial
  gap := trivial
  columnStep := by exact_mod_cast le_trans h.boxWidth h.box_in_column
  rowStep := by exact_mod_cast le_of_lt h.rowStep
  loopStep := by exact_mod_cast h.loopStep

theorem Roomy.firstY_nonneg (h : Roomy s) : 0 ≤ firstY s := by
  have htop := h.top
  have hheight := h.boxHeight
  have hheader := h.box_in_header
  unfold firstY
  linarith

theorem Roomy.columnX_mono (h : Roomy s) {m n : Nat} (hmn : m ≤ n) : columnX s m ≤ columnX s n :=
  columnX_le Scalar.grows_rat h.forward hmn

theorem Roomy.columnX_nonneg (h : Roomy s) (n : Nat) : 0 ≤ columnX s n :=
  le_trans h.left (h.columnX_mono (Nat.zero_le n))

/-- What begins in a column and ends within it ends where the columns behind it begin, as a column
is one step wide and steps do not lead back. -/
theorem Roomy.column_le (h : Roomy s) {i n : Nat} (hi : i < n) {x : Rat} (hx : x ≤ s.columnStep) :
    columnX s i + x ≤ columnX s n := by
  have hnext : columnX s (i + 1) = columnX s i + s.columnStep := rfl
  have hle := h.columnX_mono (Nat.succ_le_of_lt hi)
  rw [hnext] at hle
  linarith

theorem Roomy.columnBox_right_le (h : Roomy s) {i j : Nat} (hij : i < j) :
    (columnBox s i).right ≤ (columnBox s j).x := h.column_le hij h.box_in_column

/-! ## Rows -/

variable {boxes : KeyedList String (NodeBox Rat)}

/-- A row lies between where it begins and where the next one begins. -/
theorem Roomy.row_within (h : Roomy s) (y : Rat) (e : Edge) :
    ∀ p ∈ messagePoints s boxes y e, y ≤ p.y ∧ p.y < nextY s y e := by
  have hheight := h.loopHeight
  have hrow := h.rowStep
  have hloop := h.loop_in_row
  intro p hp
  unfold messagePoints at hp
  unfold nextY
  split at hp
  · next hself =>
    rw [if_pos hself]
    simp only [List.mem_cons, List.not_mem_nil, or_false] at hp
    rcases hp with rfl | rfl | rfl | rfl <;> simp only <;> constructor <;> linarith
  · next hself =>
    rw [if_neg hself]
    simp only [List.mem_cons, List.not_mem_nil, or_false] at hp
    rcases hp with rfl | rfl <;> simp only <;> constructor <;> linarith

theorem Roomy.le_rows (h : Roomy s) (y : Rat) (es : List Edge) : y ≤ es.foldl (nextY s) y :=
  (le_foldl_nextY Scalar.grows_rat h.forward trivial es).1

/-- All rows lie between where the first begins and where a row behind the last would begin. The
induction is on the messages, one row at a time. -/
theorem Roomy.rows_within (h : Roomy s) (y : Rat) (es : List Edge) :
    ∀ m ∈ messagesFrom s boxes y es, ∀ p ∈ m.2, y ≤ p.y ∧ p.y < es.foldl (nextY s) y := by
  induction es generalizing y with
  | nil => exact fun m hm => absurd hm List.not_mem_nil
  | cons e es ih =>
      intro m hm p hp
      rw [List.foldl_cons]
      rcases List.mem_cons.mp hm with rfl | hm
      · obtain ⟨hle, hlt⟩ := h.row_within y e p hp
        exact ⟨hle, lt_of_lt_of_le hlt (h.le_rows _ es)⟩
      · obtain ⟨hle, hlt⟩ := ih (nextY s y e) m hm p hp
        exact ⟨le_trans (h.le_rows y [e]) hle, hlt⟩

/-- Each row lies below the rows before it: it begins where they are all over (`Roomy.rows_within`).
-/
theorem Roomy.rows_pairwise (h : Roomy s) (boxes : KeyedList String (NodeBox Rat)) (y : Rat)
    (es : List Edge) : (messagesFrom s boxes y es).Pairwise fun m n =>
      ∀ p ∈ m.2, ∀ q ∈ n.2, p.y < q.y := by
  induction es generalizing y with
  | nil => exact List.Pairwise.nil
  | cons e es ih =>
      refine List.Pairwise.cons (fun n hn p hp q hq => ?_) (ih (nextY s y e))
      exact lt_of_lt_of_le (h.row_within y e p hp).2 (h.rows_within _ es n hn q hq).1

/-- What is no further from the middle of a column than a loop reaches is between the columns, since
a column has room for half a box and for a loop beside its middle. -/
theorem Roomy.near_lifeline (h : Roomy s) {d : Document} {id : String}
    (hid : id ∈ (participants d).keys) {x : Rat} (hx : 0 ≤ x) (hxle : x ≤ s.loopWidth) :
    0 ≤ lifeline (columns s d) id + x ∧
      lifeline (columns s d) id + x ≤ columnX s (participants d).entries.length := by
  obtain ⟨box, hbox⟩ := exists_box s hid
  obtain ⟨i, hi, hbounds⟩ := exists_columnBox (KeyedList.mem_values_of_get? hbox)
  have hcenter : box.bounds.center.x = columnX s i + s.boxWidth / 2 := by
    rw [hbounds]
    simp only [columnBox, Rect.center]
    push_cast
    rfl
  have hleft := h.columnX_nonneg i
  have hright := h.column_le hi h.loop_in_column
  have hwidth := h.boxWidth
  rw [lifeline_eq hbox, hcenter]
  constructor <;> linarith

/-- The points of a message lie between the left of the first column and the right of the last. They
are on the lines below the participants, or beside such a line by the width of a loop. -/
theorem Roomy.point_in_column (h : Roomy s) {d : Document} {e : Edge} (he : e ∈ d.edges) (y : Rat) :
    ∀ p ∈ messagePoints s (columns s d) y e, 0 ≤ p.x ∧
      p.x ≤ columnX s (participants d).entries.length := by
  obtain ⟨hsource, htarget⟩ := ends_mem_participants he
  have hatSource := h.near_lifeline hsource (le_refl 0) h.loopWidth
  have hatLoop := h.near_lifeline hsource h.loopWidth (le_refl _)
  have hatTarget := h.near_lifeline htarget (le_refl 0) h.loopWidth
  rw [add_zero] at hatSource hatTarget
  intro p hp
  unfold messagePoints at hp
  split at hp
  · simp only [List.mem_cons, List.not_mem_nil, or_false] at hp
    rcases hp with rfl | rfl | rfl | rfl
    · exact hatSource
    · exact hatLoop
    · exact hatLoop
    · exact hatSource
  · simp only [List.mem_cons, List.not_mem_nil, or_false] at hp
    rcases hp with rfl | rfl
    · exact hatSource
    · exact hatTarget

end Sequence

/-! ## The whole drawing -/

open Sequence

/-- The messages of the drawing are the edges with their points. -/
theorem Layout.routes_sequence {α : Type} [Metric α] (d : Document) (style : Style α) :
    (Layout.sequence d style).routes.map (fun r => (r.edge, r.points)) =
      messages style.sequence d := by
  have hnumbered := List.zipIdx_map_fst 0 (messages style.sequence d)
  refine Eq.trans ?_ hnumbered
  exact List.map_map ..

/-- A drawing in columns and rows: a column for every participant, named by a declaration or by an
edge, side by side; a row for every edge, below the rows before it and below the boxes of the
participants, and level between the middles of two columns if the edge has two ends; and everything
on the canvas if there is a participant. -/
structure Layout.Tabular (d : Document) (L : Layout Rat) : Prop where
  participants : L.nodes.keys =
    (d.entities.map Entity.id ++ d.edges.flatMap Edge.ends).eraseDups
  columns : L.nodes.values.Pairwise fun a b => a.bounds.right ≤ b.bounds.x
  messages : L.routes.map Route.edge = d.edges
  rows : L.routes.Pairwise fun r s => ∀ p ∈ r.points, ∀ q ∈ s.points, p.y < q.y
  below : ∀ a ∈ L.nodes.values, ∀ p ∈ L.points, a.bounds.bottom ≤ p.y
  level : ∀ r ∈ L.routes, r.edge.source ≠ r.edge.target → ∃ a b y,
    L.nodes.get? r.edge.source = some a ∧ L.nodes.get? r.edge.target = some b ∧
      r.points = [⟨a.bounds.center.x, y⟩, ⟨b.bounds.center.x, y⟩]
  inside : L.nodes.keys ≠ [] → (∀ a ∈ L.nodes.values, L.canvas.contains a.bounds = true) ∧
    ∀ p ∈ L.points, L.canvas.contains (Rect.ofPoint p) = true

section

variable {α : Type} [Metric α] {d : Document} {style : Style α}

theorem Layout.edges_sequence (d : Document) (style : Style α) :
    (Layout.sequence d style).routes.map Route.edge = d.edges := by
  have hroutes := congrArg (List.map Prod.fst) (Layout.routes_sequence d style)
  rw [List.map_map, messages, map_fst_messagesFrom] at hroutes
  exact hroutes

/-- A route of the drawing is a message. -/
theorem Layout.mem_messages {r : Route α} (hr : r ∈ (Layout.sequence d style).routes) :
    (r.edge, r.points) ∈ messages style.sequence d := by
  rw [← Layout.routes_sequence]
  exact List.mem_map_of_mem (f := fun r : Route α => (r.edge, r.points)) hr

/-- A route between two participants is level between the middles of their columns. The height is
that of its row; what counts is that both points have the same one. -/
theorem Layout.exists_level {r : Route α} (hr : r ∈ (Layout.sequence d style).routes)
    (hends : r.edge.source ≠ r.edge.target) : ∃ a b y,
      (Layout.sequence d style).nodes.get? r.edge.source = some a ∧
        (Layout.sequence d style).nodes.get? r.edge.target = some b ∧
        r.points = [⟨a.bounds.center.x, y⟩, ⟨b.bounds.center.x, y⟩] := by
  obtain ⟨hedge, y, hpoints⟩ := exists_messagePoints (Layout.mem_messages hr)
  obtain ⟨hsource, htarget⟩ := ends_mem_participants hedge
  obtain ⟨a, ha⟩ := exists_box style.sequence hsource
  obtain ⟨b, hb⟩ := exists_box style.sequence htarget
  have hself : r.edge.isSelfLoop = false := by
    rw [Edge.isSelfLoop, beq_eq_false_iff_ne]
    exact hends
  refine ⟨a, b, y, ha, hb, ?_⟩
  simp only [messagePoints, hself, lifeline_eq ha, lifeline_eq hb] at hpoints
  exact hpoints

end

section

variable {d : Document} {style : Style Rat} {length : Rat → Rat → Rat} {p : Point Rat}

variable (h : Roomy style.sequence)

include h

/-- The points of a drawing lie in the columns and in the rows. -/
theorem Sequence.Roomy.point_within
    (hp : p ∈ (@Layout.sequence Rat (exactMetric length) d style).points) :
    (0 ≤ p.x ∧ p.x ≤ columnX style.sequence (participants d).entries.length) ∧
      firstY style.sequence ≤ p.y ∧
      p.y < d.edges.foldl (nextY style.sequence) (firstY style.sequence) := by
  obtain ⟨r, hr, hp⟩ := List.mem_flatMap.mp hp
  have hmessage := @Layout.mem_messages Rat (exactMetric length) d style r hr
  obtain ⟨hedge, y, hpoints⟩ := exists_messagePoints hmessage
  refine ⟨h.point_in_column hedge y p ?_, h.rows_within _ d.edges _ hmessage p hp⟩
  exact hpoints ▸ hp

theorem Sequence.Roomy.columns_pairwise :
    (columns style.sequence d).values.Pairwise fun a b => a.bounds.right ≤ b.bounds.x := by
  have hpairwise : ((columns style.sequence d).values.map NodeBox.bounds).Pairwise
      fun r t => r.right ≤ t.x := by
    rw [bounds_columns]
    exact List.pairwise_lt_range.map _ fun _ _ hij => h.columnBox_right_le hij
  exact List.pairwise_map.mp hpairwise

theorem Sequence.Roomy.routes_pairwise :
    (@Layout.sequence Rat (exactMetric length) d style).routes.Pairwise
      fun r s => ∀ p ∈ r.points, ∀ q ∈ s.points, p.y < q.y := by
  have hpairwise := h.rows_pairwise (columns style.sequence d) (firstY style.sequence) d.edges
  have hroutes := @Layout.routes_sequence Rat (exactMetric length) d style
  rw [messages] at hroutes
  rw [← hroutes, List.pairwise_map] at hpairwise
  exact hpairwise

/-- The boxes of the participants end above the first row. -/
theorem Sequence.Roomy.columnBox_bottom_le (i : Nat) :
    (columnBox style.sequence i).bottom ≤ firstY style.sequence := by
  have hheader := h.box_in_header
  simp only [columnBox, Rect.bottom, firstY]
  linarith

/-- Whatever lies in the columns and above the row behind the last one is on the canvas. -/
theorem Sequence.Roomy.contains_canvas {r : Rect Rat} (hne : (participants d).entries ≠ [])
    (hx : 0 ≤ r.x) (hy : 0 ≤ r.y)
    (hright : r.right ≤ columnX style.sequence (participants d).entries.length)
    (hbottom : r.bottom ≤ d.edges.foldl (nextY style.sequence) (firstY style.sequence)) :
    (@Layout.sequence Rat (exactMetric length) d style).canvas.contains r = true := by
  obtain ⟨hwidth, hheight⟩ := @Layout.size_sequence Rat (exactMetric length) d hne style
  have hgap := h.gap
  rw [Rect.contains_iff]
  simp only [Layout.canvas, Rect.right, Rect.bottom, zero_add] at hright hbottom ⊢
  rw [hwidth, hheight]
  exact ⟨hx, hy, hright, by linarith⟩

end

/-- **Rows and columns.** In exact numbers a sequence is drawn in columns and rows if its measures
leave room for what is in them. -/
theorem Layout.sequence_tabular (length : Rat → Rat → Rat) (d : Document) (style : Style Rat)
    (hstyle : Roomy style.sequence) :
    (@Layout.sequence Rat (exactMetric length) d style).Tabular d where
  participants := (keys_columns style.sequence d).trans (keys_participants d)
  columns := hstyle.columns_pairwise
  messages := @Layout.edges_sequence Rat (exactMetric length) d style
  rows := hstyle.routes_pairwise
  below := by
    intro a ha p hp
    obtain ⟨i, -, hbounds⟩ := exists_columnBox ha
    rw [hbounds]
    exact le_trans (hstyle.columnBox_bottom_le i) (hstyle.point_within hp).2.1
  level := fun r hr => @Layout.exists_level Rat (exactMetric length) d style r hr
  inside := by
    intro hkeys
    have hne : (participants d).entries ≠ [] := by
      intro hnil
      have hkeys' := keys_columns style.sequence d
      rw [KeyedList.keys, KeyedList.keys, hnil] at hkeys'
      exact hkeys hkeys'
    constructor
    · intro a ha
      obtain ⟨i, hi, hbounds⟩ := exists_columnBox ha
      rw [hbounds]
      refine hstyle.contains_canvas hne (hstyle.columnX_nonneg i) hstyle.top
        (hstyle.column_le hi hstyle.box_in_column) ?_
      exact le_trans (hstyle.columnBox_bottom_le i) (hstyle.le_rows _ d.edges)
    · intro p hp
      obtain ⟨⟨hleft, hright⟩, htop, hbottom⟩ := hstyle.point_within hp
      refine hstyle.contains_canvas hne hleft (le_trans hstyle.firstY_nonneg htop) ?_ ?_
      · rw [Rect.ofPoint, Rect.right]
        exact (add_zero p.x).trans_le hright
      · rw [Rect.ofPoint, Rect.bottom]
        exact (add_zero p.y).trans_le (le_of_lt hbottom)

theorem Style.standard_roomy : Roomy (Style.standard : Style Rat).sequence := by
  constructor <;> decide +kernel

theorem Layout.sequence_tabular_dialogue :
    Roomy (Style.standard : Style Rat).sequence ∧
      (@Layout.sequence Rat (exactMetric diagonal) .dialogue .standard).Tabular .dialogue ∧
      (@Layout.sequence Rat (exactMetric diagonal) .dialogue .standard).routes.map Route.points =
        [[⟨100, 120⟩, ⟨250, 120⟩], [⟨250, 180⟩, ⟨290, 180⟩, ⟨290, 200⟩, ⟨250, 200⟩]] :=
  ⟨Style.standard_roomy,
    Layout.sequence_tabular diagonal .dialogue .standard Style.standard_roomy, by decide +kernel⟩

end Schematic
