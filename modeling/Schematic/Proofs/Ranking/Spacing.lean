import Mathlib.Data.List.Chain
import Schematic.Proofs.Geometry.Exact
import Schematic.Proofs.Ranking.Coordinates

/-!
# Coordinates keep their distance

In exact numbers neighbours of a layer never come nearer than the gap between them. Packing a layer
establishes this (`spaced_pack`) and leaves all other layers alone, because no node is in two layers
of an ordering; so every pass keeps it, and moving everything does too. What stands between two
nodes that are not waypoints only adds to their distance (`Spaced.le`), since a gap next to a
waypoint is at least half of what each of its neighbours asks for. Along the ranks the layers follow
one another with the gap between ranks (`le_layerCenters`).
-/

namespace Schematic

namespace Coordinates

variable {gaps : Gaps Rat} {extents : KeyedList String (Extent Rat)}

/-- With places `f`, neighbours of the layer are at least as far apart as the gap between them asks
for. -/
def Spaced (gaps : Gaps Rat) (extents : KeyedList String (Extent Rat)) (f : String → Rat)
    (layer : List String) : Prop :=
  layer.IsChain fun u v =>
    f u + halfBreadth extents u + gap gaps u v + halfBreadth extents v ≤ f v

theorem Spaced.congr {f g : String → Rat} {layer : List String} (h : Spaced gaps extents f layer)
    (hfg : ∀ v ∈ layer, f v = g v) : Spaced gaps extents g layer := by
  refine List.IsChain.imp_of_mem_imp (fun u v hu hv huv => ?_) h
  rw [← hfg u hu, ← hfg v hv]
  exact huv

/-- Moving everything by the same amount keeps the distances. So the last move to the left border
costs nothing. -/
theorem Spaced.sub {f : String → Rat} {layer : List String} (h : Spaced gaps extents f layer)
    (c : Rat) : Spaced gaps extents (fun v => f v - c) layer := by
  refine List.IsChain.imp (fun u v huv => ?_) h
  linarith

/-! ## Packing -/

theorem spaced_packFrom (want : String → Rat) {f : String → Rat} {layer : List String} {u : String}
    (hf : ∀ e ∈ packFrom gaps extents want (some (u, f u)) layer, f e.1 = e.2) :
    Spaced gaps extents f (u :: layer) := by
  unfold Spaced
  induction layer generalizing u with
  | nil => exact .singleton u
  | cons v vs ih =>
      rw [packFrom] at hf
      have hv := hf _ (List.mem_cons_self ..)
      simp only at hv
      rw [List.isChain_cons_cons]
      constructor
      · rw [hv]
        exact le_max_right _ _
      · refine ih fun e he => hf e (List.mem_cons_of_mem _ ?_)
        rw [← hv]
        exact he

theorem place_pack_of_not_mem {want : String → Rat} {across : KeyedList String Rat}
    {layer : List String} {v : String} (hv : v ∉ layer) :
    place (pack gaps extents want across layer) v = place across v := by
  rw [place, pack, KeyedList.get?_putAll_of_not_mem (by rw [map_fst_packFrom]; exact hv), place]

theorem place_pack_of_mem {want : String → Rat} {across : KeyedList String Rat}
    {layer : List String} (h : layer.Nodup) {e : String × Rat}
    (he : e ∈ packFrom gaps extents want none layer) :
    place (pack gaps extents want across layer) e.1 = e.2 := by
  rw [place, pack, KeyedList.get?_putAll_of_mem (by rw [map_fst_packFrom]; exact h) he]
  rfl

theorem spaced_pack {want : String → Rat} {across : KeyedList String Rat} {layer : List String}
    (h : layer.Nodup) :
    Spaced gaps extents (place (pack gaps extents want across layer)) layer := by
  have hplace : ∀ e ∈ packFrom gaps extents want none layer,
      place (pack gaps extents want across layer) e.1 = e.2 :=
    fun e he => place_pack_of_mem h he
  cases layer with
  | nil => exact .nil
  | cons v vs =>
      rw [packFrom] at hplace
      have hv := hplace _ (List.mem_cons_self ..)
      refine spaced_packFrom want fun e he => hplace e (List.mem_cons_of_mem _ ?_)
      rw [hv] at he
      exact he

/-! ## All layers -/

/-- No node is in two layers of the list, nor twice in one. It lets a layer be packed without a
thought for the others. -/
structure Disjoint (ordering : List (List String)) : Prop where
  nodup : ∀ layer ∈ ordering, layer.Nodup
  eq : ∀ layer ∈ ordering, ∀ other ∈ ordering, ∀ v ∈ layer, v ∈ other → layer = other

/-- Packing one layer spaces it and leaves the others as they are. The other layer is the packed one
itself or shares no node with it. -/
theorem spaced_pack_of_disjoint {ordering : List (List String)} (hd : Disjoint ordering)
    {want : String → Rat} {across : KeyedList String Rat} {layer other : List String}
    (hlayer : layer ∈ ordering) (hother : other ∈ ordering)
    (h : other = layer ∨ Spaced gaps extents (place across) other) :
    Spaced gaps extents (place (pack gaps extents want across layer)) other := by
  by_cases heq : other = layer
  · rw [heq]
    exact spaced_pack (hd.nodup layer hlayer)
  · refine (h.resolve_left heq).congr fun v hv => (place_pack_of_not_mem fun hv' => ?_).symm
    exact heq (hd.eq other hother layer hlayer v hv hv')

/-- Packing layers that are still to do spaces them as well as those that are done. The induction is
on the layers to do, each of which joins those that are done. -/
theorem spaced_foldl_pack {ordering : List (List String)} (hd : Disjoint ordering)
    {want : String → Rat} (done : List (List String)) {todo : List (List String)}
    {across : KeyedList String Rat} (hin : ∀ layer ∈ done ++ todo, layer ∈ ordering)
    (h : ∀ layer ∈ done, Spaced gaps extents (place across) layer) :
    ∀ layer ∈ done ++ todo,
      Spaced gaps extents (place (todo.foldl (pack gaps extents want) across)) layer := by
  induction todo generalizing done across with
  | nil =>
      rw [List.append_nil]
      exact h
  | cons first rest ih =>
      rw [List.append_cons] at hin ⊢
      refine ih (done ++ [first]) hin fun layer hlayer => ?_
      have hfirst : first ∈ done ++ [first] := List.mem_append_right _ (List.mem_singleton.mpr rfl)
      refine spaced_pack_of_disjoint hd (hin first (List.mem_append_left _ hfirst))
        (hin layer (List.mem_append_left _ hlayer)) ?_
      rcases List.mem_append.mp hlayer with hlayer | hlayer
      · exact Or.inr (h layer hlayer)
      · exact Or.inl (List.mem_singleton.mp hlayer)

theorem spaced_packed (gaps : Gaps Rat) (extents : KeyedList String (Extent Rat))
    {ordering : List (List String)} (hd : Disjoint ordering) :
    ∀ layer ∈ ordering, Spaced gaps extents (place (packed gaps extents ordering)) layer :=
  spaced_foldl_pack hd [] (fun _ h => h) fun _ h => absurd h List.not_mem_nil

theorem spaced_pass {ordering : List (List String)} (hd : Disjoint ordering)
    {neighbours : String → List String} {layers : List (List String)}
    (hsub : ∀ layer ∈ layers, layer ∈ ordering) {across : KeyedList String Rat}
    (h : ∀ layer ∈ ordering, Spaced gaps extents (place across) layer) :
    ∀ layer ∈ ordering, Spaced gaps extents
      (place (pass gaps extents neighbours across layers)) layer := by
  unfold pass
  induction layers generalizing across with
  | nil => exact h
  | cons first rest ih =>
      refine ih (fun l hl => hsub l (List.mem_cons_of_mem _ hl)) fun layer hlayer => ?_
      exact spaced_pack_of_disjoint hd (hsub first (List.mem_cons_self ..)) hlayer
        (Or.inr (h layer hlayer))

theorem spaced_passBoth {ordering : List (List String)} (hd : Disjoint ordering)
    {g : Digraph String} {across : KeyedList String Rat}
    (h : ∀ layer ∈ ordering, Spaced gaps extents (place across) layer) :
    ∀ layer ∈ ordering, Spaced gaps extents
      (place (passBoth gaps extents g ordering across)) layer := by
  unfold passBoth
  refine spaced_pass hd (fun l hl => List.mem_reverse.mp (List.mem_of_mem_drop hl)) ?_
  exact spaced_pass hd (fun l hl => List.mem_of_mem_drop hl) h

/-! ## The left border -/

/-- Everything is moved by the same amount, the leftmost edge. The amount is at most every left
edge, and some node's left edge is just there. -/
theorem exists_place_aligned (extents : KeyedList String (Extent Rat))
    (across : KeyedList String Rat) :
    ∃ c : Rat, (∀ v ∈ across.keys, place (aligned extents across) v = place across v - c ∧
        c ≤ place across v - halfBreadth extents v) ∧
      (across.keys ≠ [] → ∃ v ∈ across.keys, c = place across v - halfBreadth extents v) := by
  have hplace : ∀ {v x}, across.get? v = some x → place across v = x :=
    fun {v x} hx => by rw [place, hx, Option.getD_some]
  unfold aligned
  cases hedges : leftEdges extents across with
  | nil =>
      rw [leftEdges, List.map_eq_nil_iff] at hedges
      have hkeys : across.keys = [] := by rw [KeyedList.keys, hedges, List.map_nil]
      rw [hkeys]
      exact ⟨0, fun v hv => absurd hv List.not_mem_nil, fun h => absurd rfl h⟩
  | cons y ys =>
      refine ⟨Scalar.least y ys, fun v hv => ?_, fun _ => ?_⟩
      · obtain ⟨x, hx⟩ := KeyedList.mem_keys_iff.mp hv
        constructor
        · rw [hplace hx]
          simp only [place, KeyedList.get?_mapValues, hx, Option.map_some, Option.getD_some]
        · refine Scalar.least_le y ys _ ?_
          rw [← hedges, hplace hx]
          exact List.mem_map.mpr ⟨(v, x), KeyedList.get?_eq_some_iff.mp hx, rfl⟩
      · have hleast := Scalar.least_mem y ys
        rw [← hedges] at hleast
        obtain ⟨⟨v, x⟩, hentry, hedge⟩ := List.mem_map.mp hleast
        have hx := KeyedList.get?_eq_some_iff.mpr hentry
        refine ⟨v, KeyedList.mem_keys_of_get? hx, ?_⟩
        rw [hplace hx]
        exact hedge.symm

/-! ## Between two nodes -/

theorem halfBreadth_nonneg (h : ∀ v, 0 ≤ (extent extents v).breadth) (v : String) :
    0 ≤ halfBreadth extents v := by
  have := h v
  unfold halfBreadth
  push_cast
  linarith

/-- The gap between two nodes is not larger than the gaps to something between them, if one of the
two is not a waypoint. -/
theorem gap_le_add (hnode : 0 ≤ gaps.node) (hedge : 0 ≤ gaps.edge) {u v w : String}
    (hv : Waypoint.isId v = false) : gap gaps u v ≤ gap gaps u w + gap gaps w v := by
  unfold gap
  rw [hv]
  push_cast
  cases Waypoint.isId u <;> cases Waypoint.isId w <;> simp only <;> linarith

theorem Spaced.le (hnode : 0 ≤ gaps.node) (hedge : 0 ≤ gaps.edge)
    (hhalf : ∀ v, 0 ≤ halfBreadth extents v) {f : String → Rat} {layer : List String} {u v : String}
    (h : Spaced gaps extents f (u :: layer)) (hv : v ∈ layer) (hid : Waypoint.isId v = false) :
    f u + halfBreadth extents u + gap gaps u v + halfBreadth extents v ≤ f v := by
  unfold Spaced at h
  induction layer generalizing u with
  | nil => cases hv
  | cons w ws ih =>
      rw [List.isChain_cons_cons] at h
      obtain ⟨huw, hws⟩ := h
      rcases List.mem_cons.mp hv with rfl | hv
      · exact huw
      -- what stands in between only adds: the gaps next to it make up for the one it replaces
      · have hwv := ih hws hv
        have hgap := gap_le_add hnode hedge (u := u) (w := w) hid
        have hw := hhalf w
        linarith

/-- Of two nodes of a layer that are not waypoints, one is on the left of the other. Which it is
depends on their places in the layer; `Spaced.le` is used with either as the first. -/
theorem Spaced.le_or_le (hnode : 0 ≤ gaps.node) (hedge : 0 ≤ gaps.edge)
    (hhalf : ∀ v, 0 ≤ halfBreadth extents v) {f : String → Rat} {layer : List String} {u v : String}
    (h : Spaced gaps extents f layer) (hu : u ∈ layer) (hv : v ∈ layer) (hne : u ≠ v)
    (hidu : Waypoint.isId u = false) (hidv : Waypoint.isId v = false) :
    f u + halfBreadth extents u + gaps.node + halfBreadth extents v ≤ f v ∨
      f v + halfBreadth extents v + gaps.node + halfBreadth extents u ≤ f u := by
  have hgap : ∀ a b, Waypoint.isId a = false → Waypoint.isId b = false →
      gap gaps a b = gaps.node := fun a b ha hb => by rw [gap, ha, hb]
  induction layer with
  | nil => cases hu
  | cons w ws ih =>
      rw [List.mem_cons] at hu hv
      rcases hu with rfl | hu
      · have hle := h.le hnode hedge hhalf (hv.resolve_left (Ne.symm hne)) hidv
        rw [hgap u v hidu hidv] at hle
        exact Or.inl hle
      · rcases hv with rfl | hv
        · have hle := h.le hnode hedge hhalf hu hidu
          rw [hgap v u hidv hidu] at hle
          exact Or.inr hle
        · exact ih h.tail hu hv

/-! ## Along the ranks -/

theorem depth_le_layerDepth {layer : List String} {v : String} (hv : v ∈ layer) :
    (extent extents v).depth ≤ layerDepth extents layer := by
  unfold layerDepth
  have hmem : (extent extents v).depth ∈ layer.map fun v => (extent extents v).depth :=
    List.mem_map_of_mem (f := fun v => (extent extents v).depth) hv
  split
  · next h =>
    rw [h] at hmem
    cases hmem
  · next d ds h =>
    rw [h] at hmem
    exact Scalar.le_greatest d ds _ hmem

theorem exists_layerDepth_eq (extents : KeyedList String (Extent Rat)) {layer : List String}
    (h : layer ≠ []) :
    ∃ v ∈ layer, (extent extents v).depth = layerDepth extents layer := by
  unfold layerDepth
  split
  · next hnil => exact absurd (List.map_eq_nil_iff.mp hnil) h
  · next d ds hcons =>
    have hmem := Scalar.greatest_mem d ds
    rw [← hcons] at hmem
    exact List.mem_map.mp hmem

theorem layerDepth_nonneg (h : ∀ v, 0 ≤ (extent extents v).depth) (layer : List String) :
    0 ≤ layerDepth extents layer := by
  cases layer with
  | nil => exact le_refl _
  | cons v vs => exact le_trans (h v) (depth_le_layerDepth (List.mem_cons_self ..))

theorem top_le_layerCenters {gap top : Rat} (hgap : 0 ≤ gap) {depths : List Rat}
    (hdepths : ∀ d ∈ depths, 0 ≤ d) {i : Nat} {c d : Rat}
    (hc : (layerCenters gap top depths)[i]? = some c) (hd : depths[i]? = some d) :
    top ≤ c - d / 2 := by
  induction depths generalizing top i with
  | nil => simp at hd
  | cons e es ih =>
      rw [layerCenters] at hc
      cases i with
      | zero =>
          simp only [List.getElem?_cons_zero, Option.some.injEq] at hc hd
          rw [← hc, hd]
          push_cast
          linarith
      | succ i =>
          rw [List.getElem?_cons_succ] at hc hd
          have htail := ih (fun x hx => hdepths x (List.mem_cons_of_mem _ hx)) hc hd
          have he := hdepths e (List.mem_cons_self ..)
          linarith

/-- A later layer begins behind the end of an earlier one and the gap. The induction is on the
depths, and layers between the two only push the later one further. -/
theorem le_layerCenters {gap top : Rat} (hgap : 0 ≤ gap) {depths : List Rat}
    (hdepths : ∀ d ∈ depths, 0 ≤ d) {i j : Nat} (hij : i < j) {c d c' d' : Rat}
    (hc : (layerCenters gap top depths)[i]? = some c) (hd : depths[i]? = some d)
    (hc' : (layerCenters gap top depths)[j]? = some c') (hd' : depths[j]? = some d') :
    c + d / 2 + gap ≤ c' - d' / 2 := by
  induction depths generalizing top i j with
  | nil => simp at hd
  | cons e es ih =>
      rw [layerCenters] at hc hc'
      have hes : ∀ x ∈ es, 0 ≤ x := fun x hx => hdepths x (List.mem_cons_of_mem _ hx)
      cases j with
      | zero => omega
      | succ j =>
          rw [List.getElem?_cons_succ] at hc' hd'
          cases i with
          | zero =>
              simp only [List.getElem?_cons_zero, Option.some.injEq] at hc hd
              have htop := top_le_layerCenters hgap hes hc' hd'
              rw [← hc, ← hd]
              push_cast
              linarith
          | succ i =>
              rw [List.getElem?_cons_succ] at hc hd
              exact ih hes (by omega) hc hd hc' hd'

/-! ## What an assignment promises -/

variable {l : Layered} {ordering : List (List String)} {u v : String}

/-- The distances are kept by all passes and by the last move. The first packing establishes them
whatever the nodes want, and every pass packs all layers anew. -/
theorem spaced_assign (gaps : Gaps Rat) (extents : KeyedList String (Extent Rat)) (l : Layered)
    (hd : Disjoint ordering) : ∀ layer ∈ ordering,
    Spaced gaps extents (place (assign gaps extents l ordering).across) layer := by
  have hspaced := spaced_passBoth hd (g := l.graph) (spaced_passBoth hd (g := l.graph)
    (spaced_packed gaps extents hd))
  obtain ⟨c, hc, -⟩ := exists_place_aligned extents (passBoth gaps extents l.graph ordering
    (passBoth gaps extents l.graph ordering (packed gaps extents ordering)))
  intro layer hlayer
  refine ((hspaced layer hlayer).sub c).congr fun v hv => ?_
  have hkey := (mem_keys_assign gaps extents (l := l)).mpr ⟨layer, hlayer, hv⟩
  simp only [assign, keys_aligned] at hkey
  exact (hc v hkey).1.symm

/-- The leftmost edge of all is at zero: everything was moved by what it was before, and the edge
that was leftmost still is. -/
theorem isLeast_left_assign (h : (assign gaps extents l ordering).across.keys ≠ []) :
    IsLeast {x | ∃ v ∈ (assign gaps extents l ordering).across.keys,
      x = place (assign gaps extents l ordering).across v - halfBreadth extents v} 0 := by
  simp only [assign, keys_aligned] at h ⊢
  obtain ⟨c, hc, hedge⟩ := exists_place_aligned extents (passBoth gaps extents l.graph ordering
    (passBoth gaps extents l.graph ordering (packed gaps extents ordering)))
  constructor
  · obtain ⟨v, hv, hleft⟩ := hedge h
    refine ⟨v, hv, ?_⟩
    rw [(hc v hv).1]
    linarith
  · rintro x ⟨v, hv, rfl⟩
    obtain ⟨hplace, hle⟩ := hc v hv
    rw [hplace]
    linarith

theorem disjoint_of_isOrdering {l : Layered} {ordering : List (List String)}
    (h : l.IsOrdering ordering) : Disjoint ordering := by
  refine ⟨h.nodup, ?_⟩
  intro layer hlayer other hother v hv hv'
  obtain ⟨i, hi⟩ := List.mem_iff_getElem?.mp hlayer
  obtain ⟨j, hj⟩ := List.mem_iff_getElem?.mp hother
  have hvi := ((h.mem hi v).mp hv).2
  have hvj := ((h.mem hj v).mp hv').2
  rw [← hvi] at hi
  rw [← hvj, hi] at hj
  exact Option.some.inj hj

/-- The place of a node along the ranks, which is the centre of its layer. -/
def along (l : Layered) (c : Coordinates Rat) (v : String) : Rat :=
  (c.centers[l.layer v]?).getD ((0 : Nat) : Rat)

/-- The nodes of the graph have layers, the ordering is one of the graph, and all lengths are those
of a drawing. -/
structure Assignable (gaps : Gaps Rat) (extents : KeyedList String (Extent Rat)) (l : Layered)
    (ordering : List (List String)) : Prop where
  isOrdering : l.IsOrdering ordering
  placed : ∀ v ∈ l.graph.nodes, v ∈ l.layers.keys
  node : 0 ≤ gaps.node
  edge : 0 ≤ gaps.edge
  rank : 0 ≤ gaps.rank
  breadth : ∀ v, 0 ≤ (extent extents v).breadth
  depth : ∀ v, 0 ≤ (extent extents v).depth

theorem Assignable.left_nonneg (h : Assignable gaps extents l ordering) (hv : v ∈ l.graph.nodes) :
    0 ≤ place (assign gaps extents l ordering).across v - halfBreadth extents v := by
  obtain ⟨layer, hlayer, hmem⟩ := h.isOrdering.exists_layer hv (h.placed v hv)
  have hkey := (mem_keys_assign gaps extents (l := l)).mpr
    ⟨layer, List.mem_of_getElem? hlayer, hmem⟩
  exact (isLeast_left_assign (List.ne_nil_of_mem hkey)).2 ⟨v, hkey, rfl⟩

/-- Two nodes of one layer are apart across the layer. They are neither waypoints nor the same node,
so the gap between nodes is theirs in full. -/
theorem Assignable.across_le_or_le (h : Assignable gaps extents l ordering)
    (hu : u ∈ l.graph.nodes) (hv : v ∈ l.graph.nodes) (hlayer : l.layer u = l.layer v)
    (hne : u ≠ v) (hidu : Waypoint.isId u = false) (hidv : Waypoint.isId v = false) :
    let x := place (assign gaps extents l ordering).across
    x u + halfBreadth extents u + gaps.node + halfBreadth extents v ≤ x v ∨
      x v + halfBreadth extents v + gaps.node + halfBreadth extents u ≤ x u := by
  obtain ⟨layer, hget, hmem⟩ := h.isOrdering.exists_layer hu (h.placed u hu)
  have hmemv := (h.isOrdering.mem hget v).mpr ⟨hv, hlayer.symm⟩
  have hspaced := spaced_assign gaps extents l
    (disjoint_of_isOrdering h.isOrdering) layer (List.mem_of_getElem? hget)
  exact hspaced.le_or_le h.node h.edge (halfBreadth_nonneg h.breadth) hmem hmemv hne hidu hidv

/-- The middle and the depth of the layer of a node. Every node has a layer, every layer a centre,
and no node is deeper than its layer. -/
theorem Assignable.exists_along (h : Assignable gaps extents l ordering) (hv : v ∈ l.graph.nodes) :
    ∃ d : Rat, (assign gaps extents l ordering).centers[l.layer v]? =
        some (along l (assign gaps extents l ordering) v) ∧
      (assign gaps extents l ordering).depths[l.layer v]? = some d ∧
      (extent extents v).depth ≤ d := by
  obtain ⟨layer, hget, hmem⟩ := h.isOrdering.exists_layer hv (h.placed v hv)
  have hlt : l.layer v < (assign gaps extents l ordering).centers.length := by
    rw [length_centers]
    exact (List.getElem?_eq_some_iff.mp hget).1
  refine ⟨layerDepth extents layer, ?_, ?_, depth_le_layerDepth hmem⟩
  · rw [along, List.getElem?_eq_getElem hlt, Option.getD_some]
  · simp only [assign, List.getElem?_map, hget, Option.map_some]

theorem Assignable.depths_nonneg (h : Assignable gaps extents l ordering) :
    ∀ d ∈ (assign gaps extents l ordering).depths, 0 ≤ d := by
  intro d hd
  obtain ⟨layer, -, rfl⟩ := List.mem_map.mp hd
  exact layerDepth_nonneg h.depth layer

theorem Assignable.top_nonneg (h : Assignable gaps extents l ordering) (hv : v ∈ l.graph.nodes) :
    0 ≤ along l (assign gaps extents l ordering) v - (extent extents v).depth / 2 := by
  obtain ⟨d, hc, hd, hle⟩ := h.exists_along hv
  have htop := top_le_layerCenters h.rank h.depths_nonneg hc hd
  simp only [Nat.cast_zero] at htop
  linarith

/-- The deepest node of the first layer begins where the layers begin. The centre of the layer is
half of its depth away from there. -/
theorem Assignable.exists_deepest (h : Assignable gaps extents l ordering)
    (hv : v ∈ l.graph.nodes) (hlayer : l.layer v = 0) :
    ∃ w, l.layer w = 0 ∧ (extent extents v).depth ≤ (extent extents w).depth ∧
      ∀ u, l.layer u = 0 →
        along l (assign gaps extents l ordering) u = (extent extents w).depth / 2 := by
  obtain ⟨layer, hget, hmem⟩ := h.isOrdering.exists_layer hv (h.placed v hv)
  obtain ⟨w, hw, hdepth⟩ := exists_layerDepth_eq extents (List.ne_nil_of_mem hmem)
  refine ⟨w, ((h.isOrdering.mem hget w).mp hw).2.trans hlayer, ?_, fun u hu => ?_⟩
  · rw [hdepth]
    exact depth_le_layerDepth hmem
  · rw [hlayer] at hget
    cases ordering with
    | nil => cases hget
    | cons first rest =>
        rw [List.getElem?_cons_zero, Option.some.injEq] at hget
        rw [along, hu, hdepth]
        simp only [assign, List.map_cons, layerCenters, List.getElem?_cons_zero, Option.getD_some,
          hget, Nat.cast_zero, zero_add, Nat.cast_ofNat]

/-- Two nodes of different layers are apart along the ranks. Each is no deeper than its layer, and
the layers are apart (`le_layerCenters`). -/
theorem Assignable.along_le (h : Assignable gaps extents l ordering) (hu : u ∈ l.graph.nodes)
    (hv : v ∈ l.graph.nodes) (hlayer : l.layer u < l.layer v) :
    let y := along l (assign gaps extents l ordering)
    y u + (extent extents u).depth / 2 + gaps.rank ≤ y v - (extent extents v).depth / 2 := by
  obtain ⟨d, hc, hd, hle⟩ := h.exists_along hu
  obtain ⟨d', hc', hd', hle'⟩ := h.exists_along hv
  have hcenters := le_layerCenters h.rank h.depths_nonneg hlayer hc hd hc' hd'
  simp only
  linarith

end Coordinates

end Schematic
