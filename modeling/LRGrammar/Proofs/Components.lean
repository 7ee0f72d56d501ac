import LRGrammar.Proofs.Search.Finish
import LRGrammar.Proofs.Search.Visit
import Mathlib.Data.List.Nodup

/-!
# LRGrammar.Proofs.Components

The search keeps its invariant over a whole run, and so its complete components
are the strongly connected components of the graph, each after all components
that it reaches.  The graph may list its nodes and their successors in any order.

* `Search.sound_states` — the invariant holds at every step of the search;
* `Digraph.completed_components` — what the search leaves behind when it ends;
* `Digraph.mem_cyclicNodes` — the nodes found to be cyclic are those on a cycle;
* `Digraph.onCycle_iff_loop_or_component` — a node on a cycle is its own successor, or it
  shares a component with another node even where no node is its own successor;
* `Digraph.components_partition` — the components are the classes of the nodes
  that reach each other;
* `Digraph.components_order` — no path leads to a later component.
-/

namespace LRGrammar

/-! ## completed components -/

namespace Digraph

variable {α : Type} [DecidableEq α] {g : Digraph α} {v w : α}
variable {component : List α} {later earlier components : List (List α)}

/-- What was complete earlier was complete by itself. -/
theorem Completed.of_append (h : g.Completed (later ++ earlier)) : g.Completed earlier := by
  induction later with
  | nil => exact h
  | cons component later ih => exact ih h.2.2.2

theorem Completed.ne_nil (h : g.Completed components) (hc : component ∈ components) :
    component ≠ [] := by
  obtain ⟨later, earlier, rfl⟩ := List.append_of_mem hc
  exact h.of_append.1

/-- The nodes of a complete component reach each other. -/
theorem Completed.reaches (h : g.Completed components) (hc : component ∈ components)
    (hv : v ∈ component) (hw : w ∈ component) : g.Reaches v w := by
  obtain ⟨later, earlier, rfl⟩ := List.append_of_mem hc
  exact h.of_append.2.1 v hv w hw

/-- No edge leads out of the completed components. -/
theorem Completed.mem_flatten_of_edge (h : g.Completed components)
    (hv : v ∈ components.flatten) (edge : g.Edge v w) : w ∈ components.flatten := by
  induction components with
  | nil => exact absurd hv List.not_mem_nil
  | cons component earlier ih =>
      rw [List.flatten_cons, List.mem_append] at hv ⊢
      cases hv with
      | inl hv => exact h.2.2.1 v hv w edge
      | inr hv => exact .inr (ih h.2.2.2 hv)

/-- No path leads out of the complete components. -/
theorem Completed.mem_flatten_of_reaches (h : g.Completed components)
    (hv : v ∈ components.flatten) (path : g.Reaches v w) : w ∈ components.flatten := by
  induction path with
  | refl => exact hv
  | tail _ edge ih => exact h.mem_flatten_of_edge ih edge

end Digraph

/-! ## the run of the search -/

namespace Search

variable {α : Type} [DecidableEq α] [Ord α] [Std.TransOrd α]
variable {g : Digraph α} {s t : Search α}

/-- The search starts with all nodes fresh and nothing else. -/
theorem sound_start (g : Digraph α) : (start g).Sound g where
  nodup_fresh := g.nodup_nodes
  mem_fresh v := by simp [start]
  mem_nodes v hv := absurd hv Std.ExtTreeMap.not_mem_empty
  mem_marks v := by simp [start]
  onStack_iff v := by simp [start, onStack]
  nodup := List.nodup_nil
  index_lt v hv := absurd hv List.not_mem_nil
  falling := .nil
  callers_sublist := .slnil
  path := .nil
  edge_of_unexplored v w h := absurd (mem_callers_of_unexplored h) List.not_mem_nil
  explored v w hv := absurd hv Std.ExtTreeMap.not_mem_empty
  reaches_younger c hc := absurd hc List.not_mem_nil
  reaches_caller v hv := absurd hv List.not_mem_nil
  low_le v hv := absurd hv List.not_mem_nil
  low_reached v hv := absurd hv List.not_mem_nil
  low_bounds v hv := absurd hv List.not_mem_nil
  completed := trivial

/-- Where no visit is suspended, no component is open. -/
theorem Sound.stack_eq_nil (h : s.Sound g) (hcalls : s.calls = []) : s.stack = [] := by
  apply List.eq_nil_iff_forall_not_mem.mpr
  intro v hv
  obtain ⟨c, hc, -⟩ := h.reaches_caller v hv
  rw [callers, hcalls] at hc
  exact List.not_mem_nil hc

variable [Std.LawfulEqOrd α]

/-- Every step keeps the invariant. -/
theorem Sound.step (h : s.Sound g) (hstep : s.step g = some t) : t.Sound g := by
  rcases step_cases hstep with ⟨w, calls, ahead, hw, rfl⟩ |
    ⟨-, ⟨v, w, calls, ahead, hv, hw, rfl⟩ | ⟨v, outer, hcalls, rfl⟩⟩
  · exact h.visit (mem_fresh_of_visiting hw) ahead
  · exact h.look ahead hv hw
  · exact h.finish hcalls

/-- The invariant holds before every step of the search. -/
theorem sound_states (g : Digraph α) : ∀ t ∈ g.search.states (start g), t.Sound g :=
  Machine.states_of_invariant (fun _ _ h hstep => h.step hstep) (sound_start g)

/-- The invariant holds where the search ends. -/
theorem sound_run (g : Digraph α) : (g.search.run (start g)).Sound g :=
  sound_states g _ (g.search.run_mem_states _)

end Search

/-! ## the components of a graph -/

namespace Digraph

variable {α : Type} [DecidableEq α] [Ord α] [Std.TransOrd α] [Std.LawfulEqOrd α]

theorem completed_components (g : Digraph α) : g.Completed g.components.reverse := by
  rw [components, List.reverse_reverse]
  exact (Search.sound_run g).completed

/-- The components hold the nodes of the graph and nothing else. -/
theorem mem_flatten_components {g : Digraph α} {v : α} :
    v ∈ g.components.flatten ↔ v ∈ g.nodes := by
  have h := Search.sound_run g
  obtain ⟨hcalls, hfresh⟩ := Search.step_eq_none_iff.mp (g.search.step_run (.start g))
  have hmarks := h.mem_marks v
  rw [h.stack_eq_nil hcalls] at hmarks
  have hfresh' := h.mem_fresh v
  rw [hfresh] at hfresh'
  have hnodes := h.mem_nodes v
  have hflat : v ∈ g.components.flatten ↔
      v ∈ (g.search.run (.start g)).complete.flatten := by
    simp [components]
  rw [hflat]
  simp only [List.not_mem_nil, false_or, false_iff] at hmarks hfresh'
  tauto

/-- No node is in two components, or twice in one. -/
theorem nodup_flatten_components (g : Digraph α) : g.components.flatten.Nodup := by
  have h := (List.nodup_append.mp (Search.sound_run g).nodup).2.1
  exact ((List.reverse_perm _).flatten.nodup_iff).mpr h

/-- The component of the node has the position `i`. -/
def StandsAt (g : Digraph α) (v : α) (i : Nat) : Prop :=
  ∃ component, g.components[i]? = some component ∧ v ∈ component

variable {g : Digraph α} {u v : α} {i j : Nat}

theorem exists_standsAt (hv : v ∈ g.nodes) : ∃ i, g.StandsAt v i := by
  obtain ⟨component, hc, hv⟩ := List.mem_flatten.mp (mem_flatten_components.mpr hv)
  obtain ⟨i, hi⟩ := List.mem_iff_getElem?.mp hc
  exact ⟨i, component, hi, hv⟩

/-- A path leads to a component that stands no later. -/
theorem StandsAt.le_of_reaches (hu : g.StandsAt u i) (hv : g.StandsAt v j)
    (path : g.Reaches u v) : j ≤ i := by
  obtain ⟨c, hi, huc⟩ := hu
  obtain ⟨d, hj, hvd⟩ := hv
  by_contra hlt
  -- the components up to that of `u` are closed under edges, and `v` would stand behind them
  have completed : g.Completed (g.components.take (i + 1)).reverse := by
    have all := g.completed_components
    rw [← List.take_append_drop (i + 1) g.components, List.reverse_append] at all
    exact all.of_append
  have huc' : u ∈ (g.components.take (i + 1)).reverse.flatten := by
    refine List.mem_flatten.mpr ⟨c, List.mem_reverse.mpr ?_, huc⟩
    exact List.mem_of_getElem? (by rw [List.getElem?_take_of_lt (Nat.lt_succ_self i)]; exact hi)
  have early : v ∈ (g.components.take (i + 1)).flatten := by
    have := completed.mem_flatten_of_reaches huc' path
    simpa using this
  have late : v ∈ (g.components.drop (i + 1)).flatten := by
    refine List.mem_flatten.mpr ⟨d, ?_, hvd⟩
    apply List.mem_of_getElem? (i := j - (i + 1))
    rw [List.getElem?_drop, Nat.add_sub_cancel' (by omega)]
    exact hj
  have nodup := g.nodup_flatten_components
  rw [← List.take_append_drop (i + 1) g.components, List.flatten_append] at nodup
  exact (List.nodup_append.mp nodup).2.2 v early v late rfl

/-- A node has one component. -/
theorem StandsAt.unique (h : g.StandsAt v i) (h' : g.StandsAt v j) : i = j :=
  Nat.le_antisymm (h'.le_of_reaches h (.refl g v)) (h.le_of_reaches h' (.refl g v))

/-- Two nodes of the graph share a component exactly when each reaches the other. -/
theorem exists_component_iff : (∃ c ∈ g.components, u ∈ c ∧ v ∈ c) ↔
    u ∈ g.nodes ∧ g.Connected u v := by
  constructor
  · intro ⟨c, hc, hu, hv⟩
    have completed := g.completed_components
    have hc' : c ∈ g.components.reverse := List.mem_reverse.mpr hc
    have hnode := mem_flatten_components.mp (List.mem_flatten.mpr ⟨c, hc, hu⟩)
    exact ⟨hnode, completed.reaches hc' hu hv, completed.reaches hc' hv hu⟩
  · intro ⟨hu, huv, hvu⟩
    obtain ⟨i, hi⟩ := exists_standsAt hu
    obtain ⟨j, hj⟩ := exists_standsAt (huv.mem_nodes hu)
    have hij : i = j :=
      Nat.le_antisymm (hj.le_of_reaches hi hvu) (hi.le_of_reaches hj huv)
    subst hij
    obtain ⟨c, hc, huc⟩ := hi
    obtain ⟨d, hd, hvd⟩ := hj
    obtain rfl : c = d := Option.some.inj (hc.symm.trans hd)
    exact ⟨c, List.mem_of_getElem? hc, huc, hvd⟩

/-- The position of a node is the first component that lists it. -/
theorem StandsAt.findIdx_eq (h : g.StandsAt v i) :
    g.components.findIdx (fun component => v ∈ component) = i := by
  obtain ⟨component, hi, hv⟩ := h
  have found : g.components.findIdx (fun component => v ∈ component) < g.components.length :=
    List.findIdx_lt_length_of_exists ⟨component, List.mem_of_getElem? hi, by simpa using hv⟩
  have first : g.StandsAt v (g.components.findIdx fun component => v ∈ component) :=
    ⟨_, List.getElem?_eq_getElem found, by simpa using List.findIdx_getElem (w := found)⟩
  exact first.unique ⟨component, hi, hv⟩

/-! ## cycles -/

omit [Ord α] [Std.TransOrd α] [Std.LawfulEqOrd α] in
/-- A list of nodes is a cycle if it holds a node and one of the node's successors. -/
theorem isCycle_of_edge {c : List α} (hu : u ∈ c) (hv : v ∈ c) (edge : g.Edge u v) :
    g.isCycle c := by
  simp only [isCycle, Bool.or_eq_true, decide_eq_true_eq, List.any_eq_true]
  match c with
  | [x] =>
      obtain rfl : u = x := List.mem_singleton.mp hu
      obtain rfl : v = u := List.mem_singleton.mp hv
      exact .inr ⟨v, hv, edge⟩
  | _ :: _ :: rest => exact .inl (Nat.lt_add_left rest.length (Nat.lt_succ_self 1))

/-- Every node of a component that is a cycle lies on one: it reaches another node of
the component, or a node that is its own successor. -/
theorem onCycle_of_isCycle {c : List α} (hc : c ∈ g.components) (hcycle : g.isCycle c)
    (hv : v ∈ c) : g.OnCycle v := by
  have connected : ∀ w ∈ c, g.Reaches v w ∧ g.Reaches w v := fun w hw =>
    (exists_component_iff.mp ⟨c, hc, hv, hw⟩).2
  have on_cycle_of_reaches : ∀ w ∈ c, (∃ u, g.Edge v u ∧ g.Reaches u w) → g.OnCycle v := by
    intro w hw ⟨u, edge, path⟩
    exact onCycle_iff.mpr ⟨u, edge, path.trans (connected w hw).2⟩
  simp only [isCycle, Bool.or_eq_true, decide_eq_true_eq, List.any_eq_true] at hcycle
  cases hcycle with
  | inl hlength =>
      -- a second node of the component, which a first step leads towards
      have nodup : c.Nodup := (List.nodup_flatten.mp g.nodup_flatten_components).1 c hc
      have other : ∃ w ∈ c, w ≠ v := by
        refine ((nodup.ne_singleton_iff v).mp ?_).resolve_left (List.ne_nil_of_mem hv)
        rintro rfl
        exact Nat.lt_irrefl 1 hlength
      obtain ⟨w, hw, hne⟩ := other
      exact on_cycle_of_reaches w hw ((connected w hw).1.eq_or_edge.resolve_left (Ne.symm hne))
  | inr hself =>
      obtain ⟨w, hw, edge⟩ := hself
      refine on_cycle_of_reaches w hw ?_
      rcases (connected w hw).1.eq_or_edge with rfl | first
      · exact ⟨v, edge, .refl g v⟩
      · exact first

/-- The nodes found to be cyclic are those that lie on a cycle. -/
theorem mem_cyclicNodes : v ∈ g.cyclicNodes ↔ g.OnCycle v := by
  rw [cyclicNodes, List.mem_flatten]
  constructor
  · intro ⟨c, hc, hv⟩
    obtain ⟨hc, hcycle⟩ := List.mem_filter.mp hc
    exact onCycle_of_isCycle hc hcycle hv
  · intro h
    obtain ⟨w, edge, path⟩ := onCycle_iff.mp h
    obtain ⟨c, hc, hv, hw⟩ := exists_component_iff.mpr
      ⟨(mem_nodes_of_mem_successors edge).1, .of_edge edge, path⟩
    exact ⟨c, List.mem_filter.mpr ⟨hc, isCycle_of_edge hv hw edge⟩, hv⟩

/-! ## loops apart -/

/-- The graph without the edges from a node to itself. -/
def withoutLoops (g : Digraph α) : Digraph α :=
  ⟨g.adjacency.map fun entry => (entry.1, entry.2.filter (· ≠ entry.1))⟩

omit [Ord α] [Std.TransOrd α] [Std.LawfulEqOrd α] in
theorem edge_withoutLoops : g.withoutLoops.Edge u v ↔ g.Edge u v ∧ v ≠ u := by
  rw [withoutLoops, edge_map_iff, Edge, mem_successors]
  constructor
  · rintro ⟨⟨w, ws⟩, hentry, rfl, hv⟩
    obtain ⟨hv, hne⟩ := List.mem_filter.mp hv
    exact ⟨⟨ws, hentry, hv⟩, of_decide_eq_true hne⟩
  · rintro ⟨⟨ws, hentry, hv⟩, hne⟩
    exact ⟨(u, ws), hentry, rfl, List.mem_filter.mpr ⟨hv, decide_eq_true hne⟩⟩

omit [Ord α] [Std.TransOrd α] [Std.LawfulEqOrd α] in
/-- A path needs no loops. -/
theorem reaches_withoutLoops : g.withoutLoops.Reaches u v ↔ g.Reaches u v := by
  constructor
  · intro path
    exact Relation.ReflTransGen.mono (fun _ _ edge => (edge_withoutLoops.mp edge).1) _ _ path
  · intro path
    induction path with
    | refl => exact .refl _ u
    | @tail w x _ edge ih =>
        by_cases hloop : x = w
        · rw [hloop]; exact ih
        · exact ih.trans (.of_edge (edge_withoutLoops.mpr ⟨edge, hloop⟩))

/-- The cycles are the loops, and the components of two nodes or more that are left when the
loops are taken away. -/
theorem onCycle_iff_loop_or_component :
    g.OnCycle v ↔ g.Edge v v ∨ ∃ c ∈ g.withoutLoops.components, 1 < c.length ∧ v ∈ c := by
  constructor
  · intro h
    obtain ⟨w, edge, back⟩ := onCycle_iff.mp h
    by_cases hloop : w = v
    · exact .inl (hloop ▸ edge)
    · have edge' : g.withoutLoops.Edge v w := edge_withoutLoops.mpr ⟨edge, hloop⟩
      obtain ⟨c, hc, hv, hw⟩ := exists_component_iff.mpr
        ⟨(mem_nodes_of_mem_successors edge').1, .of_edge edge', reaches_withoutLoops.mpr back⟩
      refine .inr ⟨c, hc, ?_, hv⟩
      match c, hv, hw with
      | [x], hv, hw =>
          exact absurd ((List.mem_singleton.mp hw).trans (List.mem_singleton.mp hv).symm) hloop
      | _ :: _ :: rest, _, _ => exact Nat.lt_add_left rest.length (Nat.lt_succ_self 1)
  · rintro (loop | ⟨c, hc, hlength, hv⟩)
    · exact .single loop
    · have cycle : g.withoutLoops.isCycle c := by simp [isCycle, hlength]
      exact Relation.TransGen.mono (fun _ _ edge => (edge_withoutLoops.mp edge).1) _ _
        (onCycle_of_isCycle hc cycle hv)

/-! ## main results -/

/-- **The components partition the nodes**: none is empty, every node that occurs
as a key or as a successor is in exactly one of them and there once, nothing else
is, and two nodes share a component exactly when each reaches the other.  The
graph is any list of nodes with their successors, hence any order of listing a
graph. -/
theorem components_partition (g : Digraph α) :
    (∀ component ∈ g.components, component ≠ []) ∧ g.components.flatten.Nodup ∧
      (∀ v, (∃ component ∈ g.components, v ∈ component) ↔
        ∃ entry ∈ g.adjacency, v = entry.1 ∨ v ∈ entry.2) ∧
      ∀ u v, (∃ component ∈ g.components, u ∈ component ∧ v ∈ component) ↔
        u ∈ g.nodes ∧ g.Connected u v := by
  refine ⟨?_, g.nodup_flatten_components, ?_, ?_⟩
  · intro component hc
    exact g.completed_components.ne_nil (List.mem_reverse.mpr hc)
  · intro v
    rw [← mem_nodes, ← mem_flatten_components, List.mem_flatten]
  · intro u v
    exact exists_component_iff

/-- Two cycles in a row, and a node that only occurs as a successor. -/
theorem components_partition_two_cycles :
    let g : Digraph Nat := ⟨[(0, [1]), (1, [0, 2]), (2, [3]), (3, [2, 4])]⟩
    g.components = [[4], [3, 2], [1, 0]] ∧
      ∀ u v, (∃ component ∈ [[4], [3, 2], [1, 0]], u ∈ component ∧ v ∈ component) ↔
        u ∈ g.nodes ∧ g.Connected u v := by
  intro g
  have found : g.components = [[4], [3, 2], [1, 0]] := by decide +kernel
  have partition := components_partition g
  rw [found] at partition
  exact ⟨found, partition.2.2.2⟩

/-- **Components stand behind those that they reach**: both ends of an edge stand
in a component, the target no later than the source, and the same holds of the
ends of a path, wherever they stand. -/
theorem components_order (g : Digraph α) :
    (∀ u v, g.Edge u v → ∃ i j, g.StandsAt u i ∧ g.StandsAt v j ∧ j ≤ i) ∧
      (∀ u v i j, g.Reaches u v → g.StandsAt u i → g.StandsAt v j → j ≤ i) ∧
      g.calleesFirst g.components := by
  have descends : ∀ u v, g.Edge u v → ∃ i j, g.StandsAt u i ∧ g.StandsAt v j ∧ j ≤ i := by
    intro u v edge
    obtain ⟨hu, hv⟩ := mem_nodes_of_mem_successors edge
    obtain ⟨i, hi⟩ := exists_standsAt hu
    obtain ⟨j, hj⟩ := exists_standsAt hv
    exact ⟨i, j, hi, hj, hi.le_of_reaches hj (.of_edge edge)⟩
  refine ⟨descends, ?_, ?_⟩
  · intro u v i j path hu hv
    exact hu.le_of_reaches hv path
  · simp only [calleesFirst, List.all_eq_true, decide_eq_true_eq]
    intro entry hentry w hw
    obtain ⟨i, j, hi, hj, hle⟩ := descends entry.1 w (mem_successors.mpr ⟨_, hentry, hw⟩)
    rw [hi.findIdx_eq, hj.findIdx_eq]
    exact hle

/-- In two cycles in a row, the first cycle stands behind the second. -/
theorem components_order_two_cycles :
    let g : Digraph Nat := ⟨[(0, [1]), (1, [0, 2]), (2, [3]), (3, [2, 4])]⟩
    g.components = [[4], [3, 2], [1, 0]] ∧
      ∃ i j, g.StandsAt 1 i ∧ g.StandsAt 2 j ∧ j ≤ i := by
  intro g
  exact ⟨by decide +kernel, (components_order g).1 1 2 (show 2 ∈ g.successors 1 by decide)⟩

end Digraph

end LRGrammar
