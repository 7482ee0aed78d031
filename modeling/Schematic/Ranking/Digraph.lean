/-!
# Directed graphs in the order they were built

A graph remembers the order in which nodes and edges were added, because every tie in ranked
placement is broken by it. Adding what is there already changes nothing, and an edge brings its ends
along. That nodes and edges do not repeat and that edges have their ends is part of the type.
-/

namespace Schematic

/-- A finite directed graph without parallel edges. -/
structure Digraph (V : Type) where
  nodes : List V
  edges : List (V × V)
  nodup_nodes : nodes.Nodup
  nodup_edges : edges.Nodup
  ends_mem : ∀ e ∈ edges, e.1 ∈ nodes ∧ e.2 ∈ nodes

namespace Digraph

variable {V : Type} [DecidableEq V]

def empty : Digraph V := ⟨[], [], .nil, .nil, by simp⟩

def addNode (g : Digraph V) (v : V) : Digraph V :=
  if h : v ∈ g.nodes then g
  else
    { g with
      nodes := g.nodes ++ [v]
      nodup_nodes := by
        refine List.nodup_append.mpr ⟨g.nodup_nodes, by simp, ?_⟩
        intro a ha b hb hab
        rw [List.mem_singleton] at hb
        exact h (hb ▸ hab ▸ ha)
      ends_mem := fun e he =>
        ⟨List.mem_append_left _ (g.ends_mem e he).1, List.mem_append_left _ (g.ends_mem e he).2⟩ }

theorem mem_nodes_addNode {g : Digraph V} {u v : V} :
    u ∈ (g.addNode v).nodes ↔ u ∈ g.nodes ∨ u = v := by
  unfold addNode
  split
  · next h =>
    constructor
    · exact Or.inl
    · rintro (hu | rfl)
      · exact hu
      · exact h
  · simp

theorem edges_addNode (g : Digraph V) (v : V) : (g.addNode v).edges = g.edges := by
  unfold addNode
  split <;> rfl

/-- Adds an edge from `u` to `v`, and these nodes in this order if they are missing. -/
def addEdge (g : Digraph V) (u v : V) : Digraph V :=
  let h := (g.addNode u).addNode v
  if hm : (u, v) ∈ h.edges then h
  else
    { h with
      edges := h.edges ++ [(u, v)]
      nodup_edges := by
        refine List.nodup_append.mpr ⟨h.nodup_edges, by simp, ?_⟩
        intro a ha b hb hab
        rw [List.mem_singleton] at hb
        exact hm (hb ▸ hab ▸ ha)
      ends_mem := by
        intro e he
        rcases List.mem_append.mp he with he | he
        · exact h.ends_mem e he
        · rw [List.mem_singleton] at he
          subst he
          exact ⟨mem_nodes_addNode.mpr (Or.inl (mem_nodes_addNode.mpr (Or.inr rfl))),
            mem_nodes_addNode.mpr (Or.inr rfl)⟩ }

def addNodes (g : Digraph V) (vs : List V) : Digraph V := vs.foldl addNode g

def addEdges (g : Digraph V) (es : List (V × V)) : Digraph V :=
  es.foldl (fun g e => g.addEdge e.1 e.2) g

/-- The graph with the given nodes, then the given edges. -/
def ofLists (vs : List V) (es : List (V × V)) : Digraph V := (empty.addNodes vs).addEdges es

/-- The nodes that an edge from `v` leads to. -/
def successors (g : Digraph V) (v : V) : List V :=
  g.edges.filterMap fun e => if e.1 = v then some e.2 else none

/-- The nodes that an edge leads from to `v`. -/
def predecessors (g : Digraph V) (v : V) : List V :=
  g.edges.filterMap fun e => if e.2 = v then some e.1 else none

/-- All edges, by their source in the order of the nodes. -/
def arcs (g : Digraph V) : List (V × V) :=
  g.nodes.flatMap fun u => (g.successors u).map fun v => (u, v)

end Digraph

end Schematic
