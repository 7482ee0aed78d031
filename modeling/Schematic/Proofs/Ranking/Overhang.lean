import Schematic.Proofs.Ranking.Routing

/-!
# How far lines stand out

A placement is as large as its boxes and lines together. How much it goes beyond its boxes on one
axis is its overhang there (`Ranked.overhang`). Along the ranks there is none
(`Outcome.overhang_along`). Across them a loop stands out by its size and waypoints by any amount,
and nothing else does: the line of an edge between neighbouring layers leaves and reaches its boxes
in the middle (`Outcome.overhang_across_le`, `Outcome.overhang_across_eq_zero`).
-/

namespace Schematic

namespace Ranked

/-- How far a placement goes beyond its boxes on an axis. It is measured against the hull of the
boxes alone, and is nothing where there is no box. -/
def overhang (axis : Direction) (p : Ranked Rat) : Rat :=
  match Rect.union p.rects.values with
  | none => 0
  | some r => Rect.far axis ⟨0, 0, p.width, p.height⟩ - r.far axis

variable {direction : Direction} {gaps : Gaps Rat} {nodes : List (RankNode Rat)}
  {edges : List RankEdge} {layers : KeyedList String Nat} {p : Ranked Rat}

/-- The boxes that are placed have the sizes of the nodes, none of which is negative. -/
theorem Sized.box_nonneg (h : Sized gaps nodes) {n : RankNode Rat} (hn : n ∈ nodes) :
    0 ≤ (boxFor direction gaps nodes edges layers n).width ∧
      0 ≤ (boxFor direction gaps nodes edges layers n).height :=
  ⟨h.width n hn, h.height n hn⟩

section Stops

variable (h : Sized gaps nodes) (hjoins : Joins nodes edges)
  (hlayers : IsLayering nodes edges layers) {e : RankEdge} {q : Point Rat}

include h hjoins hlayers

theorem near_boxFor_nonneg (axis : Direction) {n : RankNode Rat} (hn : n ∈ nodes) :
    0 ≤ (boxFor direction gaps nodes edges layers n).near axis := by
  obtain ⟨hx, hy⟩ := boxFor_nonneg direction h hjoins hlayers hn
  cases axis
  · exact hy
  · exact hx

omit hjoins in
theorem pointOf_nonneg {w : String} (hw : w ∈ (layered nodes edges layers).graph.nodes) :
    let q := pointOf direction (layered nodes edges layers)
      (coordinates direction gaps nodes edges layers) w
    0 ≤ q.along direction ∧ 0 ≤ q.across direction := by
  have hassignable := assignable direction h hlayers
  have htop := hassignable.top_nonneg hw
  have hleft := hassignable.left_nonneg hw
  have hbreadth := Coordinates.halfBreadth_nonneg hassignable.breadth w
  have hdepth := hassignable.depth w
  simp only
  rw [along_pointOf, across_pointOf, alongOf, acrossOf, coordinates_eq]
  constructor <;> linarith

/-- No point of a route lies beyond the corner where the placement begins. The cases are the kinds
of points: those of loops, exits and entries are bounded by boxes, waypoints by their own places. -/
theorem Stop.nonneg (hq : Stop direction gaps nodes edges layers e q) :
    0 ≤ q.along direction ∧ 0 ≤ q.across direction := by
  have hnear : ∀ axis, ∀ n ∈ nodes, 0 ≤ (boxFor direction gaps nodes edges layers n).near axis :=
    fun axis n hn => near_boxFor_nonneg h hjoins hlayers axis hn
  have hmiddle : ∀ n ∈ nodes, 0 ≤ (boxFor direction gaps nodes edges layers n).middle direction :=
    fun n hn => le_trans (hnear _ n hn)
      (Rect.middle_within direction (h.box_nonneg hn).1 (h.box_nonneg hn).2).1
  cases hq with
  | @loops n q hn _ hq =>
      obtain ⟨⟨halong, -⟩, hacross, -⟩ := loop_within (h.box_nonneg hn).1 (h.box_nonneg hn).2 hq
      exact ⟨le_trans (hnear _ n hn) halong, le_trans (hnear _ n hn) hacross⟩
  | @leaves n m hn hm _ =>
      rw [(exits_fst _ _).1, (exits_fst _ _).2]
      obtain ⟨hwidth, hheight⟩ := h.box_nonneg hn
      exact ⟨le_trans (hnear _ n hn) (Rect.near_le_far direction hwidth hheight), hmiddle n hn⟩
  | @reaches n m hn hm _ =>
      rw [(exits_snd _ _).1, (exits_snd _ _).2]
      exact ⟨hnear _ m hm, hmiddle m hm⟩
  | @passes n m w hn hm hturned he hw =>
      obtain ⟨ws, hws, hmem⟩ := hlayers.divided.chains _ (Digraph.mem_arcs.mpr he)
      rw [waypoints, hturned, hws, Option.getD_some] at hw
      exact pointOf_nonneg h hlayers (hmem w hw)

omit hjoins hlayers in
/-- Without waypoints only a loop stands out across the ranks, and by no more than its size. All
other points are the middles of borders. -/
theorem Stop.exists_across_le (hq : Stop direction gaps nodes edges layers e q)
    (hstraight : waypoints nodes edges layers e = []) : ∃ n ∈ nodes,
      q.across direction ≤ (boxFor direction gaps nodes edges layers n).far direction.across +
        if e.source = e.target then loopSize else 0 := by
  have hsize : (0 : Rat) ≤ if e.source = e.target then loopSize else 0 := by
    have : (0 : Rat) ≤ loopSize := by decide +kernel
    split
    · exact this
    · exact le_refl _
  have hmiddle : ∀ n ∈ nodes, (boxFor direction gaps nodes edges layers n).middle direction ≤
      (boxFor direction gaps nodes edges layers n).far direction.across +
        if e.source = e.target then loopSize else 0 :=
    fun n hn => le_add_of_le_of_nonneg
      (Rect.middle_within direction (h.box_nonneg hn).1 (h.box_nonneg hn).2).2 hsize
  cases hq with
  | @loops n q hn hloop hq =>
      rw [if_pos hloop]
      exact ⟨n, hn, (loop_within (h.box_nonneg hn).1 (h.box_nonneg hn).2 hq).2.2⟩
  | @leaves n m hn hm _ =>
      rw [(exits_fst _ _).2]
      exact ⟨n, hn, hmiddle n hn⟩
  | @reaches n m hn hm _ =>
      rw [(exits_snd _ _).2]
      exact ⟨m, hm, hmiddle m hm⟩
  | @passes n m w hn hm hturned he hw =>
      rw [hstraight] at hw
      cases hw

end Stops

/-! ## Overhang -/

section Outcome

variable (h : Sized gaps nodes) (hjoins : Joins nodes edges)
  (hp : Outcome direction gaps nodes edges layers p)

include hp

/-- What is drawn ends no later than the placement, which ends where the hull of all that is drawn
does. -/
theorem Outcome.far_le_size (axis : Direction) {r : Rect Rat} (hr : r ∈ drawn p.rects p.routes) :
    r.far axis ≤ Rect.far axis ⟨0, 0, p.width, p.height⟩ := by
  obtain ⟨hull, hunion⟩ := Rect.exists_union hr
  rw [hp.far_size axis hunion]
  exact Rect.far_le_of_contains axis (Rect.contains_of_union hunion hr)

theorem Outcome.overhang_nonneg (axis : Direction) : 0 ≤ p.overhang axis := by
  unfold overhang
  split
  · exact le_refl _
  · next hull hunion =>
    obtain ⟨r, hr, hfar⟩ := Rect.exists_far_of_union axis hunion
    have hle := hp.far_le_size axis (List.mem_append_left _ hr)
    linarith

/-- Some box ends before the placement does by the overhang. It is one that reaches the far side of
the hull of the boxes. -/
theorem Outcome.exists_far_add_overhang (axis : Direction) (hne : nodes ≠ []) :
    ∃ v r, p.rects.get? v = some r ∧
      Rect.far axis ⟨0, 0, p.width, p.height⟩ = r.far axis + p.overhang axis := by
  obtain ⟨n, hn⟩ := List.exists_mem_of_ne_nil nodes hne
  obtain ⟨s, hs⟩ := KeyedList.mem_keys_iff.mp
    (hp.mem_keys_rects.mpr (List.mem_map_of_mem (f := RankNode.id) hn))
  obtain ⟨hull, hunion⟩ := Rect.exists_union
    (KeyedList.mem_values_of_get? hs)
  obtain ⟨r, hr, hfar⟩ := Rect.exists_far_of_union axis hunion
  obtain ⟨v, hget⟩ := KeyedList.mem_values_iff.mp hr
  refine ⟨v, r, hget, ?_⟩
  have hoverhang : p.overhang axis = Rect.far axis ⟨0, 0, p.width, p.height⟩ - hull.far axis := by
    rw [overhang, hunion]
  rw [hoverhang, ← hfar]
  ring

include h in
/-- Where every point comes before the end of a box and some length more, the overhang is at most
that length. -/
theorem Outcome.overhang_le (axis : Direction) {a : Rat} (ha : 0 ≤ a)
    (hle : ∀ q ∈ p.routes.values.flatten, ∃ n ∈ nodes,
      q.along axis ≤ (boxFor direction gaps nodes edges layers n).far axis + a) :
    p.overhang axis ≤ a := by
  unfold overhang
  split
  · exact ha
  · next hull hunion =>
    have hboxes : ∀ r ∈ p.rects.values, r.far axis ≤ hull.far axis :=
      fun r hr => Rect.far_le_of_contains axis (Rect.contains_of_union hunion hr)
    obtain ⟨r, hr, -⟩ := Rect.exists_far_of_union axis hunion
    have hmem : r ∈ drawn p.rects p.routes := List.mem_append_left _ hr
    obtain ⟨whole, hwhole⟩ := Rect.exists_union hmem
    obtain ⟨s, hs, hfar⟩ := Rect.exists_far_of_union axis hwhole
    rw [hp.far_size axis hwhole, ← hfar]
    rcases List.mem_append.mp hs with hs | hs
    · linarith [hboxes s hs]
    · obtain ⟨q, hq, rfl⟩ := List.mem_map.mp hs
      obtain ⟨n, hn, hqn⟩ := hle q hq
      have hbox := hboxes _ (KeyedList.mem_values_of_get? (hp.get?_eq_boxFor h hn))
      rw [Rect.far_ofPoint]
      linarith

include h hjoins

/-- Every point of a route lies in the corner that the placement fills. So a route needs no room
besides the placement's own. -/
theorem Outcome.contains_point {q : Point Rat} (hq : q ∈ p.routes.values.flatten) :
    Rect.contains ⟨0, 0, p.width, p.height⟩ (Rect.ofPoint q) = true := by
  obtain ⟨e, -, hstop⟩ := hp.exists_stop h hjoins hq
  obtain ⟨halong, hacross⟩ := hstop.nonneg h hjoins hp.isLayering
  have hmem : Rect.ofPoint q ∈ drawn p.rects p.routes :=
    List.mem_append_right _ (List.mem_map_of_mem hq)
  rw [Rect.contains_ofPoint_iff]
  intro axis
  refine ⟨?_, Rect.far_ofPoint axis q ▸ hp.far_le_size axis hmem⟩
  cases direction <;> cases axis <;> assumption

/-- Along the ranks no line goes further than the boxes: a line goes from box to box, its waypoints
are on layers between theirs, and a loop stays beside its box. -/
theorem Outcome.overhang_along : p.overhang direction = 0 := by
  refine le_antisymm (hp.overhang_le h direction (le_refl 0) fun q hq => ?_)
    (hp.overhang_nonneg direction)
  obtain ⟨e, -, hstop⟩ := hp.exists_stop h hjoins hq
  obtain ⟨n, hn, hle⟩ := hstop.exists_along_le_far h hjoins hp.isLayering
  exact ⟨n, hn, by rw [add_zero]; exact hle⟩

/-- Across the ranks loops stand out by their size at most, if no edge has waypoints. With waypoints
there is no such bound, since a waypoint may be beside all boxes. -/
theorem Outcome.overhang_across_le (hstraight : ∀ e ∈ edges, waypoints nodes edges layers e = []) :
    p.overhang direction.across ≤ loopSize := by
  have hsize : (0 : Rat) ≤ loopSize := by decide +kernel
  refine hp.overhang_le h direction.across hsize fun q hq => ?_
  obtain ⟨e, he, hstop⟩ := hp.exists_stop h hjoins hq
  obtain ⟨n, hn, hle⟩ := hstop.exists_across_le h (hstraight e he)
  refine ⟨n, hn, ?_⟩
  rw [Point.along_across]
  split at hle <;> linarith

/-- Across the ranks nothing stands out where all edges lead to neighbouring layers and none is a
loop. -/
theorem Outcome.overhang_across_eq_zero
    (hstraight : ∀ e ∈ edges, waypoints nodes edges layers e = [])
    (hloop : ∀ e ∈ edges, e.source ≠ e.target) : p.overhang direction.across = 0 := by
  refine le_antisymm (hp.overhang_le h direction.across (le_refl 0) fun q hq => ?_)
    (hp.overhang_nonneg direction.across)
  obtain ⟨e, he, hstop⟩ := hp.exists_stop h hjoins hq
  obtain ⟨n, hn, hle⟩ := hstop.exists_across_le h (hstraight e he)
  rw [if_neg (hloop e he)] at hle
  exact ⟨n, hn, by rw [Point.along_across]; exact hle⟩

end Outcome

end Ranked

end Schematic
