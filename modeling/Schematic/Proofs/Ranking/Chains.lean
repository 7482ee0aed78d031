import Mathlib.Data.List.Nodup
import Schematic.Proofs.Ranking.Subdivision
import Schematic.Proofs.Text.Numerals

/-!
# Chains go down layer by layer

The waypoints of an edge are its own: no other edge has one with the same id. So the layers they are
given stay theirs while the other edges are divided, and in the end the chain of an edge has one
waypoint in each of the layers it passes over, in order (`Layered.ofLayers_threaded`).
-/

namespace Schematic

theorem Waypoint.id_injective {m n i j : Nat} (h : id m i = id n j) : m = n ∧ i = j := by
  have hlist := congrArg String.toList h
  have hsep : "_".toList = ['_'] := rfl
  simp only [id, String.toList_append, List.append_assoc, Nat.toString_eq_ofList_toDigits,
    String.toList_ofList, hsep, List.singleton_append] at hlist
  obtain ⟨hm, hi⟩ := Text.toDigits_append_inj (by decide) (List.append_cancel_left hlist)
  exact ⟨hm, Text.toDigits_inj hi⟩

namespace Layered

variable {layers : KeyedList String Nat} {done : List (String × String)} {l : Layered}

/-- The layer in which an edge begins. -/
def top (layers : KeyedList String Nat) (e : String × String) : Nat := (layers.get? e.1).getD 0

/-- The layers that an edge passes over. -/
def passed (layers : KeyedList String Nat) (e : String × String) : Nat :=
  (layers.get? e.2).getD 0 - top layers e - 1

/-- The waypoints of the edge `e` as number `n`, one for each layer that it passes over. Their ids
hold the number, so no two edges share one. -/
def waypoints (layers : KeyedList String Nat) (e : String × String) (n : Nat) : List String :=
  (List.range (passed layers e)).map fun i => Waypoint.id n i

/-- Every edge of `done` is divided into waypoints of its own, the numbers up to `number` being
used, and each of them is in the layer behind the one before it. -/
def Threaded (layers : KeyedList String Nat) (done : List (String × String)) (number : Nat)
    (l : Layered) : Prop :=
  ∀ e ∈ done, ∃ n < number, l.chains.get? e = some (waypoints layers e n) ∧
    ∀ i < passed layers e, l.layers.get? (Waypoint.id n i) = some (top layers e + i + 1)

theorem Threaded.addEdge {number : Nat} (h : Threaded layers done number l) (e : String × String) :
    Threaded layers (done ++ [e]) (number + 1) (l.addEdge layers (e, number)) := by
  let places := (List.range (passed layers e)).map fun i =>
    (Waypoint.id number i, top layers e + i + 1)
  have hlayers : (l.addEdge layers (e, number)).layers = l.layers.putAll places := rfl
  have hchains : (l.addEdge layers (e, number)).chains =
      l.chains.put e (waypoints layers e number) := rfl
  have hkeys : places.map Prod.fst = waypoints layers e number := by
    rw [List.map_map]
    rfl
  intro f hf
  by_cases hfe : f = e
  · subst hfe
    refine ⟨number, Nat.lt_succ_self _, by rw [hchains, KeyedList.get?_put_self], fun i hi => ?_⟩
    rw [hlayers]
    refine KeyedList.get?_putAll_of_mem ?_ (List.mem_map.mpr ⟨i, List.mem_range.mpr hi, rfl⟩)
    rw [hkeys]
    refine List.Nodup.map (fun i j hij => ?_) List.nodup_range
    exact (Waypoint.id_injective hij).2
  · rcases List.mem_append.mp hf with hf | hf
    · obtain ⟨n, hn, hchain, hlayer⟩ := h f hf
      refine ⟨n, Nat.lt_succ_of_lt hn, ?_, fun i hi => ?_⟩
      · rw [hchains, KeyedList.get?_put_of_ne hfe]
        exact hchain
      · rw [hlayers, KeyedList.get?_putAll_of_not_mem ?_]
        · exact hlayer i hi
        · rw [hkeys]
          intro hmem
          obtain ⟨j, -, hj⟩ := List.mem_map.mp hmem
          exact Nat.ne_of_lt hn (Waypoint.id_injective hj).1.symm
    · exact absurd (List.mem_singleton.mp hf) hfe

theorem Threaded.foldl {number : Nat} (es : List (String × String))
    (h : Threaded layers done number l) :
    Threaded layers (done ++ es) (number + es.length)
      ((es.zipIdx number).foldl (Layered.addEdge layers) l) := by
  induction es generalizing done l number with
  | nil => simpa using h
  | cons e es ih =>
      have htail := ih (h.addEdge e)
      rw [List.append_assoc, List.singleton_append] at htail
      rw [List.length_cons, Nat.add_comm es.length, ← Nat.add_assoc]
      exact htail

theorem ofLayers_threaded (g : Digraph String) (layers : KeyedList String Nat) :
    Threaded layers g.arcs g.arcs.length (ofLayers g layers) := by
  have hstart : Threaded layers [] 0 ⟨Digraph.empty.addNodes g.nodes, layers, .empty⟩ :=
    fun e he => absurd he List.not_mem_nil
  have hall := hstart.foldl g.arcs
  rw [List.nil_append, Nat.zero_add] at hall
  exact hall

/-- The layers of a whole chain, from the source of the edge to its target: the waypoints fill the
layers between the two one after the other, and none is left out. -/
theorem Threaded.chain {number : Nat} (h : Threaded layers done number l) {e : String × String}
    (he : e ∈ done) (hlt : (layers.get? e.1).getD 0 < (layers.get? e.2).getD 0)
    (hu : l.layer e.1 = (layers.get? e.1).getD 0) (hv : l.layer e.2 = (layers.get? e.2).getD 0) :
    ∃ ws, l.chains.get? e = some ws ∧
      (e.1 :: ws ++ [e.2]).map l.layer = List.range' (l.layer e.1) (passed layers e + 2) := by
  obtain ⟨n, -, hchain, hlayer⟩ := h e he
  refine ⟨waypoints layers e n, hchain, ?_⟩
  have hmiddle : (waypoints layers e n).map l.layer =
      List.range' (top layers e + 1) (passed layers e) := by
    rw [waypoints, List.map_map, List.range'_eq_map_range]
    refine List.map_congr_left fun i hi => ?_
    rw [Function.comp_apply, layer, hlayer i (List.mem_range.mp hi), Option.getD_some]
    omega
  have hlast : l.layer e.2 = top layers e + 1 + passed layers e := by
    rw [hv]
    simp only [passed, top]
    omega
  rw [List.cons_append, List.map_cons, List.map_append, hmiddle, List.map_cons, List.map_nil, hlast,
    hu, List.range'_succ, List.range'_1_concat]
  rfl

end Layered

end Schematic
