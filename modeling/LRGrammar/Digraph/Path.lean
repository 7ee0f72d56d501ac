import LRGrammar.Digraph
import Mathlib.Logic.Relation

/-!
# LRGrammar.Digraph.Path

Paths in a graph: the edges, what they lead to, and which nodes lead back to
themselves.
-/

namespace LRGrammar

namespace Digraph

variable {α : Type} [DecidableEq α]

/-- There is an edge from `v` to `w`. -/
def Edge (g : Digraph α) (v w : α) : Prop := w ∈ g.successors v

/-- There is a path from `v` to `w`, of no edges or more. -/
def Reaches (g : Digraph α) : α → α → Prop := Relation.ReflTransGen g.Edge

/-- There are paths both ways. -/
def Connected (g : Digraph α) (v w : α) : Prop := g.Reaches v w ∧ g.Reaches w v

/-- There is a path of one edge or more from the node to itself. -/
def OnCycle (g : Digraph α) (v : α) : Prop := Relation.TransGen g.Edge v v

/-- The edges of a graph that is given by one entry for each item of a list. -/
theorem edge_map_iff {ι : Type} {items : List ι} {key : ι → α} {next : ι → List α} {v w : α} :
    (⟨items.map fun i => (key i, next i)⟩ : Digraph α).Edge v w ↔
      ∃ i ∈ items, key i = v ∧ w ∈ next i := by
  rw [Edge, mem_successors]
  simp only [List.mem_map, Prod.mk.injEq]
  constructor
  · rintro ⟨ws, ⟨i, hi, rfl, rfl⟩, hw⟩
    exact ⟨i, hi, rfl, hw⟩
  · rintro ⟨i, hi, rfl, hw⟩
    exact ⟨next i, ⟨i, hi, rfl, rfl⟩, hw⟩

/-- The edges of a graph are known as a relation. -/
theorem edge_eq_of_iff {g : Digraph α} {r : α → α → Prop} (h : ∀ v w, g.Edge v w ↔ r v w) :
    g.Edge = r := by
  funext v w
  exact propext (h v w)

/-- The graph lists the nodes and the edges of the table, in whatever order. -/
structure Lists (g : Digraph Symbol) (table : SymbolMap SymbolSet) : Prop where
  mem_nodes : ∀ s, s ∈ g.nodes ↔ s ∈ table ∨ ∃ key, s ∈ table.getD key ∅
  edge_iff : ∀ s x, g.Edge s x ↔ x ∈ table.getD s ∅

theorem lists_ofMap (table : SymbolMap SymbolSet) : (ofMap table).Lists table where
  mem_nodes _ := mem_nodes_ofMap
  edge_iff _ _ := mem_successors_ofMap

namespace Reaches

variable {g : Digraph α} {u v w : α}

theorem refl (g : Digraph α) (v : α) : g.Reaches v v := Relation.ReflTransGen.refl

theorem of_edge (h : g.Edge v w) : g.Reaches v w := .single h

theorem trans (h : g.Reaches u v) (k : g.Reaches v w) : g.Reaches u w :=
  Relation.ReflTransGen.trans h k

/-- A path of at least one edge begins with an edge. -/
theorem eq_or_edge (h : g.Reaches v w) : v = w ∨ ∃ u, g.Edge v u ∧ g.Reaches u w :=
  (Relation.ReflTransGen.cases_head h).imp_left id

/-- A path leads from nodes of the graph to nodes of the graph. -/
theorem mem_nodes (h : g.Reaches v w) (hv : v ∈ g.nodes) : w ∈ g.nodes := by
  induction h with
  | refl => exact hv
  | tail _ edge _ => exact (mem_nodes_of_mem_successors edge).2

end Reaches

/-- A node lies on a cycle if one of its successors leads back to it. -/
theorem onCycle_iff {g : Digraph α} {v : α} :
    g.OnCycle v ↔ ∃ w, g.Edge v w ∧ g.Reaches w v :=
  Relation.TransGen.head'_iff

end Digraph

end LRGrammar
