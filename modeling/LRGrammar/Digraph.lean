import LRGrammar.Symbol

/-!
# LRGrammar.Digraph

Finite directed graphs, given by listing the successors of nodes.  A node may be
listed more than once: its successors are then those of all its entries, in order.
A node that only occurs as a successor has none.

* `Digraph.mem_nodes` — the nodes are those that occur at all;
* `Digraph.nodup_nodes` — each of them is listed once.
-/

namespace LRGrammar

/-- A directed graph, as a list of nodes with their successors. -/
structure Digraph (α : Type) where
  adjacency : List (α × List α)
deriving DecidableEq, Repr

namespace Digraph

variable {α : Type} [DecidableEq α]

/-- The successors of a node, in the order listed, repeats included. -/
def successors (g : Digraph α) (v : α) : List α :=
  (g.adjacency.filter fun entry => entry.1 = v).flatMap (·.2)

/-- Every node that occurs, in the order of its first occurrence. -/
def nodes (g : Digraph α) : List α :=
  (g.adjacency.flatMap fun entry => entry.1 :: entry.2).eraseDups

/-- The graph in which every key of the table points to the symbols of its entry. -/
def ofMap (successors : SymbolMap SymbolSet) : Digraph Symbol :=
  ⟨successors.toList.map fun entry => (entry.1, entry.2.toList)⟩

theorem mem_successors {g : Digraph α} {v w : α} :
    w ∈ g.successors v ↔ ∃ ws, (v, ws) ∈ g.adjacency ∧ w ∈ ws := by
  rw [successors, List.mem_flatMap]
  constructor
  · rintro ⟨⟨u, ws⟩, hentry, hw⟩
    obtain ⟨hmem, rfl⟩ : (u, ws) ∈ g.adjacency ∧ u = v := by simpa using hentry
    exact ⟨ws, hmem, hw⟩
  · rintro ⟨ws, hmem, hw⟩
    exact ⟨(v, ws), by simpa using hmem, hw⟩

theorem mem_nodes {g : Digraph α} {v : α} :
    v ∈ g.nodes ↔ ∃ entry ∈ g.adjacency, v = entry.1 ∨ v ∈ entry.2 := by
  simp [nodes]

theorem mem_nodes_of_mem_successors {g : Digraph α} {v w : α} (h : w ∈ g.successors v) :
    v ∈ g.nodes ∧ w ∈ g.nodes := by
  obtain ⟨ws, hv, hw⟩ := mem_successors.mp h
  exact ⟨mem_nodes.mpr ⟨_, hv, .inl rfl⟩, mem_nodes.mpr ⟨_, hv, .inr hw⟩⟩

/-- The edges of a table lead from a symbol to what it is looked up to. -/
theorem mem_successors_ofMap {table : SymbolMap SymbolSet} {s x : Symbol} :
    x ∈ (ofMap table).successors s ↔ x ∈ table.getD s ∅ := by
  rw [mem_successors, SymbolMap.mem_getD_empty]
  constructor
  · intro ⟨xs, hmem, hx⟩
    obtain ⟨⟨key, set⟩, hentry, heq⟩ := List.mem_map.mp hmem
    obtain ⟨rfl, rfl⟩ : key = s ∧ set.toList = xs := by simpa using heq
    exact ⟨set, Std.ExtTreeMap.mem_toList_iff_getElem?_eq_some.mp hentry,
      Std.ExtTreeSet.mem_toList.mp hx⟩
  · intro ⟨set, hset, hx⟩
    have hentry := Std.ExtTreeMap.mem_toList_iff_getElem?_eq_some.mpr hset
    exact ⟨set.toList, List.mem_map.mpr ⟨(s, set), hentry, rfl⟩, Std.ExtTreeSet.mem_toList.mpr hx⟩

/-- The nodes of a table are its keys and what they are looked up to. -/
theorem mem_nodes_ofMap {table : SymbolMap SymbolSet} {s : Symbol} :
    s ∈ (ofMap table).nodes ↔ s ∈ table ∨ ∃ key, s ∈ table.getD key ∅ := by
  simp only [mem_nodes, ofMap, SymbolMap.mem_iff_getElem?, SymbolMap.mem_getD_empty,
    List.mem_map, Prod.exists, Std.ExtTreeMap.mem_toList_iff_getElem?_eq_some]
  constructor
  · rintro ⟨key, xs, ⟨key', set, hset, heq⟩, hs⟩
    obtain ⟨rfl, rfl⟩ : key' = key ∧ set.toList = xs := by simpa using heq
    cases hs with
    | inl hs => exact .inl ⟨set, by rw [hs]; exact hset⟩
    | inr hs => exact .inr ⟨key', set, hset, Std.ExtTreeSet.mem_toList.mp hs⟩
  · intro h
    cases h with
    | inl h =>
        obtain ⟨set, hset⟩ := h
        exact ⟨s, set.toList, ⟨s, set, hset, rfl⟩, .inl rfl⟩
    | inr h =>
        obtain ⟨key, set, hset, hs⟩ := h
        exact ⟨key, set.toList, ⟨key, set, hset, rfl⟩, .inr (Std.ExtTreeSet.mem_toList.mpr hs)⟩

/-- A list without its repeats has none. -/
theorem nodup_eraseDups (l : List α) : l.eraseDups.Nodup := by
  induction hn : l.length using Nat.strongRecOn generalizing l with
  | _ n ih =>
      cases l with
      | nil => simp
      | cons x rest =>
          rw [List.eraseDups_cons, List.nodup_cons]
          refine ⟨by simp, ih _ ?_ _ rfl⟩
          have := List.length_filter_le (fun b => !b == x) rest
          simp only [List.length_cons] at hn
          omega

theorem nodup_nodes (g : Digraph α) : g.nodes.Nodup := nodup_eraseDups _

end Digraph

end LRGrammar
