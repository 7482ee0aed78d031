import Mathlib.Data.List.Nodup
import Schematic.Proofs.KeyedList
import Schematic.Proofs.Ranking.Acyclic
import Schematic.Proofs.Ranking.Degrees
import Schematic.Ranking.Tally

/-!
# Counters that are kept up by hand are degrees

What carries over from one node that is dropped to the next is `Counts`: no node is left twice, and
the counters of the nodes that are left are their degrees among the nodes that are left. As all
choices are made by the counters of nodes that are left, they are the same that the degrees give.
-/

namespace Schematic

namespace Tally

variable {V : Type} [DecidableEq V] {g : Digraph V} {t : Tally V} {u v : V}

/-- The counters of the nodes that are left are their degrees among these nodes. What the counters
of dropped nodes say is not cared for; they are never read again. -/
structure Counts (g : Digraph V) (t : Tally V) : Prop where
  nodup : t.left.Nodup
  outs : ∀ v ∈ t.left, t.outs.get? v = some (g.outDegree t.left v : Int)
  ins : ∀ v ∈ t.left, t.ins.get? v = some (g.inDegree t.left v : Int)

/-! ## What dropping a node keeps -/

/-- A counter is lowered once for each time its node is passed. Only nodes that are left have their
counters lowered, so the node must be one of them. -/
theorem get?_lower {left : List V} {counts : KeyedList V Int} (vs : List V) (hu : u ∈ left) :
    (lower left counts vs).get? u = (counts.get? u).map fun n => n - (vs.count u : Int) := by
  unfold lower
  induction vs generalizing counts with
  | nil => simp
  | cons v vs ih =>
      rw [List.foldl_cons, ih, List.count_cons]
      by_cases hv : v = u
      · subst hv
        rw [if_pos (List.contains_iff_mem.mpr hu), KeyedList.get?_modify, Option.map_map]
        simp [Function.comp_def, Int.sub_sub, Int.add_comm]
      · have hother : (if left.contains v then counts.modify v (· - 1) else counts).get? u =
            counts.get? u := by
          split
          · rw [KeyedList.get?_modify]
            simp [Ne.symm hv]
          · rfl
        rw [hother]
        simp [hv]

theorem counts_start (g : Digraph V) : Counts g (start g) where
  nodup := g.nodup_nodes
  outs := by
    intro v hv
    have hall : g.outDegree g.nodes v = (g.successors v).length :=
      List.countP_eq_length.mpr fun w hw =>
        List.contains_iff_mem.mpr (g.ends_mem _ (Digraph.mem_successors.mp hw)).2
    have hnodup : (g.nodes.map id).Nodup := by simpa using g.nodup_nodes
    rw [show (start g).left = g.nodes from rfl, hall]
    exact KeyedList.get?_ofList_map (f := id) hnodup hv
  ins := by
    intro v hv
    have hall : g.inDegree g.nodes v = (g.predecessors v).length :=
      List.countP_eq_length.mpr fun w hw =>
        List.contains_iff_mem.mpr (g.ends_mem _ (Digraph.mem_predecessors.mp hw)).1
    have hnodup : (g.nodes.map id).Nodup := by simpa using g.nodup_nodes
    rw [show (start g).left = g.nodes from rfl, hall]
    exact KeyedList.get?_ofList_map (f := id) hnodup hv

theorem Counts.drop (h : Counts g t) (hv : v ∈ t.left) : Counts g (t.drop g v) where
  nodup := h.nodup.erase v
  outs := by
    intro u hu
    have hdegree := Digraph.outDegree_eq_erase_add (g := g) (u := u) h.nodup hv
    rw [left_drop] at hu
    rw [outs_drop, left_drop, get?_lower _ hu, h.outs u (List.mem_of_mem_erase hu),
      g.count_predecessors, hdegree, Option.map_some]
    congr 1
    push_cast
    omega
  ins := by
    intro u hu
    have hdegree := Digraph.inDegree_eq_erase_add (g := g) (u := u) h.nodup hv
    rw [left_drop] at hu
    rw [ins_drop, left_drop, get?_lower _ hu, h.ins u (List.mem_of_mem_erase hu),
      g.count_successors, hdegree, Option.map_some]
    congr 1
    push_cast
    omega

theorem Counts.dropAll (h : Counts g t) {vs : List V} (hvs : vs.Nodup)
    (hmem : ∀ v ∈ vs, v ∈ t.left) : Counts g (vs.foldl (Tally.drop g) t) := by
  induction vs generalizing t with
  | nil => exact h
  | cons v vs ih =>
      obtain ⟨hv, hvs⟩ := List.nodup_cons.mp hvs
      refine ih (h.drop (hmem v (List.mem_cons_self ..))) hvs fun w hw => ?_
      have hne : w ≠ v := fun he => hv (he ▸ hw)
      exact (List.mem_erase_of_ne hne).mpr (hmem w (List.mem_cons_of_mem _ hw))

/-! ## The same nodes are taken away -/

/-- Erasing what a test picks leaves what it does not pick. Erasing takes away one occurrence only,
hence the list must have no element twice. -/
theorem foldl_erase_filter {left : List V} (h : left.Nodup) (p : V → Bool) :
    (left.filter p).foldl List.erase left = left.filter fun v => !p v := by
  rw [← List.diff_eq_foldl, h.sdiff_eq_filter]
  refine List.filter_congr fun v hv => ?_
  by_cases hp : p v <;> simp [hv, hp]

section Peel

variable {counts : Tally V → KeyedList V Int} {degree : List V → V → Nat}
  (hcounts : ∀ {t}, Counts g t → ∀ v ∈ t.left, (counts t).get? v = some (degree t.left v : Int))

include hcounts

theorem exhausted_eq (h : Counts g t) :
    exhausted counts t = Digraph.picked (fun left v => degree left v == 0) t.left := by
  refine List.filter_congr fun v hv => ?_
  rw [hcounts h v hv]
  by_cases hz : degree t.left v = 0 <;> simp [hz]

/-- Batches are taken by counters as they are by degrees, and the counters stay degrees. Both take
all nodes with none of the edges in question at once, and do so until there is no such node. -/
theorem Counts.peel (h : Counts g t) :
    Counts g (t.peel g counts).1 ∧
      (t.peel g counts).1.left = (Digraph.peel (fun left v => degree left v == 0) t.left).1 ∧
      (t.peel g counts).2 = (Digraph.peel (fun left v => degree left v == 0) t.left).2 := by
  have hzeros := exhausted_eq hcounts h
  fun_induction Tally.peel g counts t with
  | case1 t hempty =>
      rw [hzeros] at hempty
      rw [Digraph.peel, if_pos hempty]
      exact ⟨h, rfl, rfl⟩
  | case2 t hempty rest ih =>
      have hdrop : Counts g ((exhausted counts t).foldl (Tally.drop g) t) :=
        h.dropAll (h.nodup.filter _) fun v hv => (List.mem_filter.mp hv).1
      have hleft : ((exhausted counts t).foldl (Tally.drop g) t).left =
          Digraph.unpicked (fun left v => degree left v == 0) t.left := by
        rw [left_dropAll, hzeros]
        exact foldl_erase_filter h.nodup _
      obtain ⟨hrest, hfst, hsnd⟩ := ih hdrop (exhausted_eq hcounts hdrop)
      rw [hleft] at hfst hsnd
      rw [hzeros] at hempty
      rw [Digraph.peel, if_neg hempty]
      exact ⟨hrest, hfst, by rw [hsnd, hzeros]⟩

end Peel

theorem richest_eq (h : Counts g t) {vs : List V} (hleft : t.left = v :: vs) :
    t.richest v vs = g.richest (v :: vs) v vs := by
  have hsurplus : ∀ u ∈ v :: vs, t.surplus u = g.surplus (v :: vs) u := by
    intro u hu
    rw [← hleft] at hu ⊢
    rw [surplus, h.outs u hu, h.ins u hu]
    rfl
  unfold richest Digraph.richest
  -- the best so far is one of the nodes that are left, as is the next
  have hfold : ∀ (us : List V) (best : V), best ∈ v :: vs → (∀ u ∈ us, u ∈ v :: vs) →
      us.foldl (fun best u => if t.surplus best < t.surplus u then u else best) best =
        us.foldl (fun best u =>
          if g.surplus (v :: vs) best < g.surplus (v :: vs) u then u else best) best := by
    intro us
    induction us with
    | nil => exact fun _ _ _ => rfl
    | cons u us ih =>
        intro best hbest hus
        have hu := hus u (List.mem_cons_self ..)
        rw [List.foldl_cons, List.foldl_cons, hsurplus best hbest, hsurplus u hu]
        refine ih _ ?_ fun w hw => hus w (List.mem_cons_of_mem _ hw)
        split
        · exact hu
        · exact hbest
  exact hfold vs v (List.mem_cons_self ..) fun u hu => List.mem_cons_of_mem _ hu

/-- Both kinds of batches, one after the other: the sinks first, then the sources of what they
leave. This is all that happens before a node is chosen. -/
theorem Counts.peels (h : Counts g t) :
    Counts g ((t.peel g Tally.outs).1.peel g Tally.ins).1 ∧
      ((t.peel g Tally.outs).1.peel g Tally.ins).1.left =
        (g.peelSources (g.peelSinks t.left).1).1 ∧
      (t.peel g Tally.outs).2 = (g.peelSinks t.left).2 ∧
      ((t.peel g Tally.outs).1.peel g Tally.ins).2 =
        (g.peelSources (g.peelSinks t.left).1).2 := by
  obtain ⟨hsinks, hleft, htaken⟩ := h.peel fun h => h.outs
  obtain ⟨hsources, hleft', htaken'⟩ := hsinks.peel fun h => h.ins
  rw [hleft] at hleft' htaken'
  exact ⟨hsources, hleft', htaken, htaken'⟩

/-- The order that counters give is the order that degrees give. The induction is on the rounds; in
each the same batches are taken, and the same node is chosen as the first with the greatest surplus.
-/
theorem orderFrom_eq (h : Counts g t) : t.orderFrom g = g.orderFrom t.left := by
  fun_induction Tally.orderFrom g t with
  | case1 t hnil =>
      obtain ⟨-, hleft, hsinks, hsources⟩ := h.peels
      rw [g.orderFrom_of_nil (hleft.symm.trans hnil), hsinks, hsources]
  | case2 t v vs hcons hlt ih =>
      obtain ⟨hcounts, hleft, hsinks, hsources⟩ := h.peels
      have hbest := richest_eq hcounts hcons
      have hrest := ih (hcounts.drop (hcons ▸ richest_mem _ v vs))
      rw [left_drop, hcons, hbest] at hrest
      rw [g.orderFrom_of_cons (hleft.symm.trans hcons), hsinks, hsources, hbest, hrest]

end Tally

theorem Digraph.countedOrder_eq {V : Type} [DecidableEq V] (g : Digraph V) :
    g.countedOrder = g.greedyOrder := Tally.orderFrom_eq (Tally.counts_start g)

end Schematic
