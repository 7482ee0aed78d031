import Schematic.Proofs.Ranking.Acyclic
import Schematic.Proofs.Ranking.Degrees

/-!
# How many edges run backwards

Every edge between two nodes of an order runs either forwards or backwards in it. Node by node, an
edge is accounted for when the first of its ends in the order is reached. In the greedy order a sink
at the end and a source at the front bring no backward edge, and the node with the greatest surplus
brings at most as many backward as forward ones; so at most half of the edges run backwards.
-/

namespace Schematic

namespace Digraph

variable {V : Type} [DecidableEq V] (g : Digraph V) {left xs ys zs : List V} {u v : V}

/-! ## Counting edges node by node -/

/-- How many edges lead from a node of the list to an earlier one. -/
def backward : List V → Nat
  | [] => 0
  | v :: vs => g.inDegree vs v + backward vs

/-- How many edges lead from a node of the list to a later one. -/
def forward : List V → Nat
  | [] => 0
  | v :: vs => g.outDegree vs v + forward vs

variable {g}

/-- A new last node is the end of no backward edge, and the start of those that lead from it. The
induction is on the nodes before it, each of which gains the edges that come from the new one. -/
theorem backward_concat (h : (xs ++ [v]).Nodup) :
    g.backward (xs ++ [v]) = g.backward xs + g.outDegree xs v := by
  induction xs with
  | nil => simp [backward]
  | cons x xs ih =>
      obtain ⟨hx, hxs⟩ := List.nodup_cons.mp h
      have hv : v ∉ xs := fun hm => (List.nodup_append.mp hxs).2.2 v hm v (by simp) rfl
      have hin : g.inDegree (xs ++ [v]) x =
          g.inDegree xs x + if (v, x) ∈ g.edges then 1 else 0 := by
        rw [inDegree_perm (List.perm_append_singleton v xs), g.inDegree_cons hv]
      have hout : g.outDegree (x :: xs) v =
          g.outDegree xs v + if (v, x) ∈ g.edges then 1 else 0 :=
        g.outDegree_cons fun hm => hx (List.mem_append_left _ hm)
      rw [List.cons_append, backward, backward, ih hxs, hin, hout]
      omega

theorem forward_mono (h : xs.Sublist ys) : g.forward xs ≤ g.forward ys := by
  induction h with
  | slnil => exact Nat.le_refl _
  | cons v h ih => exact ih.trans (Nat.le_add_left _ _)
  | cons_cons v h ih => exact Nat.add_le_add (outDegree_mono h.subset) ih

/-! ## Sinks and sources bring no backward edge -/

theorem backward_append_sinks (hnodup : (ys ++ zs).Nodup)
    (h : ∀ v ∈ zs, g.outDegree (ys ++ zs) v = 0) : g.backward (ys ++ zs) = g.backward ys := by
  induction zs generalizing ys with
  | nil => rw [List.append_nil]
  | cons z zs ih =>
      have happend : ys ++ z :: zs = (ys ++ [z]) ++ zs := by simp
      have hzero : g.outDegree ys z = 0 := by
        refine Nat.le_zero.mp ((outDegree_mono fun w hw => ?_).trans (h z (by simp)).le)
        exact List.mem_append_left _ hw
      rw [happend] at hnodup h ⊢
      rw [ih hnodup fun v hv => h v (List.mem_cons_of_mem _ hv),
        backward_concat (List.nodup_append.mp hnodup).1, hzero, Nat.add_zero]

theorem backward_append_sources (h : ∀ v ∈ zs, g.inDegree (zs ++ ys) v = 0) :
    g.backward (zs ++ ys) = g.backward ys := by
  induction zs with
  | nil => rfl
  | cons z zs ih =>
      have hsmaller : ∀ v, g.inDegree (z :: zs ++ ys) v = 0 → g.inDegree (zs ++ ys) v = 0 :=
        fun v hv => Nat.le_zero.mp
          ((inDegree_mono fun w hw => List.mem_cons_of_mem z hw).trans hv.le)
      rw [List.cons_append, backward, hsmaller z (h z (List.mem_cons_self ..)), Nat.zero_add]
      exact ih fun v hv => hsmaller v (h v (List.mem_cons_of_mem _ hv))

omit [DecidableEq V] in
/-- What is left, in any order, and what is picked are what there was. -/
theorem append_picked_perm {pick : List V → V → Bool} (h : ys.Perm (unpicked pick left)) :
    (ys ++ picked pick left).Perm left :=
  ((h.append_right _).trans List.perm_append_comm).trans (List.filter_append_perm (pick left) left)

/-- What is taken away as sinks comes last, in reverse, behind what is left in any order. A sink has
no edge to what is left when it is taken, and those taken earlier stand behind it. -/
theorem backward_append_peelSinks (hleft : left.Nodup) (hys : ys.Perm (g.peelSinks left).1) :
    g.backward (ys ++ (g.peelSinks left).2.reverse) = g.backward ys := by
  unfold peelSinks at *
  fun_induction peel (fun left v => g.outDegree left v == 0) left with
  | case1 left h => rw [List.reverse_nil, List.append_nil]
  | case2 left h rest ih =>
      have hrest : (ys ++ rest.2.reverse).Perm
          (unpicked (fun left v => g.outDegree left v == 0) left) :=
        ((hys.append (List.reverse_perm _)).trans List.perm_append_comm).trans (peel_perm _ _)
      have hperm := ((List.reverse_perm _).append_left _).trans (append_picked_perm hrest)
      have hsinks : ∀ v ∈ (picked (fun left v => g.outDegree left v == 0) left).reverse,
          g.outDegree (ys ++ rest.2.reverse ++ (picked (fun left v => g.outDegree left v == 0)
            left).reverse) v = 0 := by
        intro v hv
        rw [outDegree_perm hperm]
        simpa using (List.mem_filter.mp (List.mem_reverse.mp hv)).2
      rw [List.reverse_append, ← List.append_assoc,
        backward_append_sinks (hperm.nodup_iff.mpr hleft) hsinks]
      exact ih (hleft.filter _) hys

theorem backward_append_peelSources (hys : ys.Perm (g.peelSources left).1) :
    g.backward ((g.peelSources left).2 ++ ys) = g.backward ys := by
  unfold peelSources at *
  fun_induction peel (fun left v => g.inDegree left v == 0) left with
  | case1 left h => rfl
  | case2 left h rest ih =>
      have hrest : (rest.2 ++ ys).Perm (unpicked (fun left v => g.inDegree left v == 0) left) :=
        (hys.append_left _).trans (peel_perm _ _)
      have hperm := List.perm_append_comm.trans (append_picked_perm hrest)
      have hsources : ∀ v ∈ picked (fun left v => g.inDegree left v == 0) left,
          g.inDegree (picked (fun left v => g.inDegree left v == 0) left ++ (rest.2 ++ ys)) v =
            0 := by
        intro v hv
        rw [inDegree_perm hperm]
        simpa using (List.mem_filter.mp hv).2
      rw [List.append_assoc, backward_append_sources hsources]
      exact ih hys

/-! ## The greedy order -/

theorem nodup_peelSinks (hleft : left.Nodup) : (g.peelSinks left).1.Nodup :=
  (List.nodup_append.mp ((peel_perm _ left).nodup_iff.mpr hleft)).2.1

theorem nodup_peelSources (hleft : left.Nodup) : (g.peelSources left).1.Nodup :=
  (List.nodup_append.mp ((peel_perm _ left).nodup_iff.mpr hleft)).2.1

/-- What is taken as sinks and as sources adds no backward edge to those of the rest. So a round of
the order costs what its one node with the greatest surplus costs. -/
theorem backward_peels (hleft : left.Nodup)
    (hys : ys.Perm (g.peelSources (g.peelSinks left).1).1) :
    g.backward ((g.peelSources (g.peelSinks left).1).2 ++ ys ++ (g.peelSinks left).2.reverse) =
      g.backward ys := by
  have hmiddle : ((g.peelSources (g.peelSinks left).1).2 ++ ys).Perm (g.peelSinks left).1 :=
    (hys.append_left _).trans (peel_perm _ _)
  rw [backward_append_peelSinks hleft hmiddle, backward_append_peelSources hys]

/-- When sinks and sources are all there is, no edge runs backwards. -/
theorem backward_orderFrom_of_nil (hleft : left.Nodup)
    (h : (g.peelSources (g.peelSinks left).1).1 = []) : g.backward (g.orderFrom left) = 0 := by
  have hpeels := backward_peels hleft (List.Perm.of_eq h.symm)
  rw [List.append_nil] at hpeels
  rw [orderFrom_of_nil g h, hpeels, backward]

/-- No more edges run backwards in the greedy order than forwards. The induction is on the rounds:
the node with the greatest surplus brings at most as many backward edges as forward ones
(`inDegree_richest_le`), and what is peeled off brings forward ones only. -/
theorem backward_orderFrom_le (hleft : left.Nodup) :
    g.backward (g.orderFrom left) ≤ g.forward (g.orderFrom left) := by
  fun_induction orderFrom g left with
  | case1 left h =>
      rw [← orderFrom_of_nil g h, backward_orderFrom_of_nil hleft h]
      exact Nat.zero_le _
  | case2 left v vs h hlt ih =>
      have hrest : (v :: vs).Nodup := h ▸ nodup_peelSources (nodup_peelSinks hleft)
      have hperm := g.orderFrom_perm ((v :: vs).erase (g.richest (v :: vs) v vs))
      have hys : (g.richest (v :: vs) v vs ::
          g.orderFrom ((v :: vs).erase (g.richest (v :: vs) v vs))).Perm
            (g.peelSources (g.peelSinks left).1).1 := by
        rw [h]
        exact (hperm.cons _).trans (List.perm_cons_erase (g.richest_mem (v :: vs) v vs)).symm
      have hbest := inDegree_erase_richest_le (g := g) hrest
      rw [← inDegree_perm hperm, ← outDegree_perm hperm] at hbest
      rw [backward_peels hleft hys]
      calc g.backward (g.richest (v :: vs) v vs :: _)
          ≤ g.forward (g.richest (v :: vs) v vs ::
              g.orderFrom ((v :: vs).erase (g.richest (v :: vs) v vs))) :=
            Nat.add_le_add hbest (ih (hrest.erase _))
        _ ≤ _ := forward_mono ((List.sublist_append_right _ _).trans (List.sublist_append_left _ _))

/-! ## Counting edges by position -/

/-- Edges whose end `h` comes before their end `f` in `v :: xs`: either `h` is `v` itself, or both
come in `xs`. -/
theorem countP_idxOf_cons {α : Type} (hv : v ∉ xs) (es : List α) (f h : α → V) :
    (es.countP fun e => (v :: xs).contains (f e) &&
        decide ((v :: xs).idxOf (h e) < (v :: xs).idxOf (f e))) =
      (es.countP fun e => decide (h e = v) && xs.contains (f e)) +
        es.countP fun e => xs.contains (f e) && decide (xs.idxOf (h e) < xs.idxOf (f e)) := by
  induction es with
  | nil => rfl
  | cons e es ih =>
      rw [List.countP_cons, List.countP_cons, List.countP_cons, ih]
      have he : (if ((v :: xs).contains (f e) &&
            decide ((v :: xs).idxOf (h e) < (v :: xs).idxOf (f e))) = true then 1 else 0) =
          (if (decide (h e = v) && xs.contains (f e)) = true then 1 else 0) +
            if (xs.contains (f e) && decide (xs.idxOf (h e) < xs.idxOf (f e))) = true then 1
              else 0 := by
        by_cases hf : f e = v
        · simp [hf, hv]
        · by_cases hh : h e = v
          · -- nothing in `xs` is earlier than a node that is not there
            have hnot : ¬xs.length < xs.idxOf (f e) := Nat.not_lt.mpr List.idxOf_le_length
            simp [hf, hh, List.idxOf_cons_ne _ (Ne.symm hf), List.idxOf_eq_length hv, hnot]
          · simp [hf, hh, List.idxOf_cons_ne _ (Ne.symm hf), List.idxOf_cons_ne _ (Ne.symm hh)]
      omega

theorem backward_eq_countP (hxs : xs.Nodup) : g.backward xs = g.edges.countP fun e =>
    xs.contains e.1 && decide (xs.idxOf e.2 < xs.idxOf e.1) := by
  induction xs with
  | nil => simp [backward]
  | cons v xs ih =>
      obtain ⟨hv, hxs⟩ := List.nodup_cons.mp hxs
      rw [backward, ih hxs, inDegree_eq_countP]
      exact (countP_idxOf_cons hv g.edges Prod.fst Prod.snd).symm

theorem forward_eq_countP (hxs : xs.Nodup) : g.forward xs = g.edges.countP fun e =>
    xs.contains e.2 && decide (xs.idxOf e.1 < xs.idxOf e.2) := by
  induction xs with
  | nil => simp [forward]
  | cons v xs ih =>
      obtain ⟨hv, hxs⟩ := List.nodup_cons.mp hxs
      rw [forward, ih hxs, outDegree_eq_countP]
      exact (countP_idxOf_cons hv g.edges Prod.snd Prod.fst).symm

theorem nodup_arcs : g.arcs.Nodup := by
  refine List.nodup_flatMap.mpr ⟨fun u _ => ?_, ?_⟩
  · exact (g.nodup_successors u).map fun a b h => (Prod.mk.inj h).2
  · refine g.nodup_nodes.imp fun hne e hu hv => ?_
    obtain ⟨_, -, rfl⟩ := List.mem_map.mp hu
    obtain ⟨_, -, h⟩ := List.mem_map.mp hv
    exact hne (Prod.mk.inj h).1.symm

theorem arcs_perm : g.arcs.Perm g.edges :=
  (List.perm_ext_iff_of_nodup nodup_arcs g.nodup_edges).mpr fun _ => mem_arcs

theorem contains_greedyOrder {e : V × V} (he : e ∈ g.edges) :
    g.greedyOrder.contains e.1 = true ∧ g.greedyOrder.contains e.2 = true := by
  simp only [List.contains_iff_mem, g.greedyOrder_perm.mem_iff]
  exact g.ends_mem e he

theorem nodup_greedyOrder : g.greedyOrder.Nodup := g.greedyOrder_perm.nodup_iff.mpr g.nodup_nodes

theorem length_backEdges : g.backEdges.length = g.backward g.greedyOrder := by
  rw [backward_eq_countP nodup_greedyOrder, backEdges, ← List.countP_eq_length_filter,
    arcs_perm.countP_eq]
  refine List.countP_congr fun e he => ?_
  rw [(contains_greedyOrder he).1]
  by_cases hloop : e.1 = e.2 <;> simp [hloop]

/-- Every edge that is not a loop runs either forwards or backwards, for its ends stand at two
different places of the order. -/
theorem length_filter_ne_loop : (g.edges.filter fun e => e.1 != e.2).length =
    g.backward g.greedyOrder + g.forward g.greedyOrder := by
  rw [backward_eq_countP nodup_greedyOrder, forward_eq_countP nodup_greedyOrder,
    ← List.countP_eq_length_filter,
    g.edges.countP_eq_countP_filter_add _ fun e =>
      decide (g.greedyOrder.idxOf e.2 < g.greedyOrder.idxOf e.1),
    List.countP_filter, List.countP_filter]
  congr 1
  · refine List.countP_congr fun e he => ?_
    rw [(contains_greedyOrder he).1]
    by_cases hloop : e.1 = e.2 <;> simp [hloop]
  · refine List.countP_congr fun e he => ?_
    rw [(contains_greedyOrder he).2]
    have hmem := List.contains_iff_mem.mp (contains_greedyOrder he).1
    by_cases hloop : e.1 = e.2
    · simp [hloop]
    · have hne : g.greedyOrder.idxOf e.1 ≠ g.greedyOrder.idxOf e.2 :=
        fun h => hloop ((List.idxOf_inj hmem).mp h)
      have hlater : g.greedyOrder.idxOf e.1 ≤ g.greedyOrder.idxOf e.2 ↔
          g.greedyOrder.idxOf e.1 < g.greedyOrder.idxOf e.2 := by omega
      simp [hloop, hlater]

/-- At most half of the edges that are not loops are turned around: those are the backward ones, and
the forward ones are no fewer. -/
theorem two_mul_length_backEdges_le (g : Digraph V) :
    2 * g.backEdges.length ≤ (g.edges.filter fun e => e.1 != e.2).length := by
  have hle : g.backward g.greedyOrder ≤ g.forward g.greedyOrder :=
    backward_orderFrom_le g.nodup_nodes
  rw [length_backEdges, length_filter_ne_loop]
  omega

end Digraph

end Schematic
