import LRGrammar.Proofs.Components

/-!
# LRGrammar.Proofs.Search.Run

The run of the depth-first search, step by step.  It gives every node of the graph its index
once: a step visits one fresh node at most, which is fresh no more, and every other step leaves
the fresh nodes and all indices as they are.  So the visits of a run use up the nodes, and the
index of a node is the position of its visit among them.

* `Search.visiting_cases` — what a step does to the fresh nodes and to the indices;
* `Search.fresh_perm_visited` — a run visits the fresh nodes, each of them once;
* `Search.Sound.index_run_of_visited` — it numbers them in the order of their visits;
* `Search.Sound.popThrough_eq`, `Search.Sound.step_eq_endComponent` — a component is cut off
  the stack at its first node;
* `Digraph.search_stacks` — how the two stacks hang together before every step, and how
  the search ends.
-/

namespace LRGrammar

namespace Search

variable {α : Type} [DecidableEq α] [Ord α] [Std.TransOrd α] [Std.LawfulEqOrd α]
variable {g : Digraph α} {s t : Search α}

/-! ## one step -/

/-- The same nodes have an index, and each has the same one. -/
structure SameIndices (s t : Search α) : Prop where
  mem_marks : ∀ u, u ∈ t.marks ↔ u ∈ s.marks
  size : t.marks.size = s.marks.size
  index : ∀ u, t.index u = s.index u

theorem sameIndices_look {calls : List (α × List α)} {v w : α} :
    s.SameIndices ((s.withCalls calls).look v w) where
  mem_marks _ := mem_marks_look
  size := size_marks_look
  index _ := index_look

theorem sameIndices_finish {outer : List (α × List α)} {v : α} :
    s.SameIndices (s.finish v outer) := by
  unfold finish
  split
  · exact ⟨fun _ => Iff.rfl, rfl, fun _ => rfl⟩
  · next m _ =>
      dsimp only
      split
      · exact ⟨fun _ => mem_marks_detach.trans mem_marks_goBack,
          size_marks_detach.trans size_marks_goBack, fun _ => index_detach.trans index_goBack⟩
      · exact ⟨fun _ => mem_marks_goBack, size_marks_goBack, fun _ => index_goBack⟩

/-- A step visits a fresh node, or it leaves the fresh nodes and the indices as they are. -/
theorem visiting_cases (h : s.step g = some t) :
    (∃ w calls, s.visiting = some w ∧ t = (s.withCalls calls).visit g w) ∨
      s.visiting = none ∧ t.fresh = s.fresh ∧ s.SameIndices t := by
  rcases step_cases h with ⟨w, calls, -, hw, rfl⟩ |
    ⟨hidle, ⟨v, w, calls, -, -, -, rfl⟩ | ⟨v, outer, -, rfl⟩⟩
  · exact .inl ⟨w, calls, hw, rfl⟩
  · exact .inr ⟨hidle, fresh_look, sameIndices_look⟩
  · exact .inr ⟨hidle, fresh_finish s v outer, sameIndices_finish⟩

/-- The node that a step visits is fresh no more. -/
theorem fresh_perm_of_step (h : s.step g = some t) :
    s.fresh.Perm (s.visiting.toList ++ t.fresh) := by
  rcases visiting_cases h with ⟨w, calls, hw, rfl⟩ | ⟨hidle, hfresh, -⟩
  · rw [hw]
    exact List.perm_cons_erase (mem_fresh_of_visiting hw)
  · rw [hidle, hfresh]
    exact .refl _

omit [Std.LawfulEqOrd α] in
theorem Bookkept.not_mem_marks_of_visiting (h : s.Bookkept g) {w : α} (hw : s.visiting = some w) :
    w ∉ s.marks := ((h.mem_fresh w).mp (mem_fresh_of_visiting hw)).2

/-- A step gives an index to the node that it visits and to no other node. -/
theorem Bookkept.visiting_eq_some_iff (h : s.Bookkept g) (hstep : s.step g = some t) {v : α} :
    s.visiting = some v ↔ v ∉ s.marks ∧ v ∈ t.marks := by
  rcases visiting_cases hstep with ⟨w, calls, hw, rfl⟩ | ⟨hidle, -, same⟩
  · have hnew : w ∉ s.marks := h.not_mem_marks_of_visiting hw
    rw [hw, Option.some.injEq, mem_marks_visit]
    constructor
    · rintro rfl
      exact ⟨hnew, .inl rfl⟩
    · rintro ⟨hv, rfl | hv'⟩
      · rfl
      · exact absurd hv' hv
  · rw [hidle, same.mem_marks]
    simp

/-- A node keeps its index. -/
theorem Bookkept.index_of_step (h : s.Bookkept g) (hstep : s.step g = some t) {v : α}
    (hv : v ∈ s.marks) : v ∈ t.marks ∧ t.index v = s.index v := by
  rcases visiting_cases hstep with ⟨w, calls, hw, rfl⟩ | ⟨-, -, same⟩
  · have hne : v ≠ w := fun heq => h.not_mem_marks_of_visiting hw (heq ▸ hv)
    refine ⟨mem_marks_visit.mpr (.inr hv), ?_⟩
    rw [index_visit, if_neg hne, index_withCalls]
  · exact ⟨(same.mem_marks v).mpr hv, same.index v⟩

/-! ## a run -/

/-- The nodes that are visited from the state on, in the order of the visits. -/
def visited (g : Digraph α) (s : Search α) : List α := (g.search.states s).filterMap visiting

omit [Std.LawfulEqOrd α] in
theorem visited_of_none (h : s.step g = none) : s.visited g = [] := by
  obtain ⟨hcalls, hfresh⟩ := step_eq_none_iff.mp h
  have hidle : s.visiting = none := by rw [visiting, hcalls, hfresh]; rfl
  rw [visited, Machine.states_of_none h, List.filterMap_cons_none hidle, List.filterMap_nil]

omit [Std.LawfulEqOrd α] in
theorem visited_of_some (h : s.step g = some t) :
    s.visited g = s.visiting.toList ++ t.visited g := by
  rw [visited, Machine.states_of_some h]
  cases hvisiting : s.visiting with
  | none => rw [List.filterMap_cons_none hvisiting]; rfl
  | some w => rw [List.filterMap_cons_some hvisiting]; rfl

/-- A run visits the nodes that are fresh before it, each of them once. -/
theorem fresh_perm_visited (g : Digraph α) (s : Search α) : s.fresh.Perm (s.visited g) := by
  fun_induction g.search.states s with
  | case1 s h => rw [visited_of_none h, (step_eq_none_iff.mp h).2]
  | case2 s t h ih =>
      rw [visited_of_some h]
      exact (fresh_perm_of_step h).trans (ih.append_left _)

/-- A node keeps its index to the end. -/
theorem Sound.index_run (h : s.Sound g) {v : α} (hv : v ∈ s.marks) :
    (g.search.run s).index v = s.index v := by
  fun_induction g.search.run s with
  | case1 s hstep => rfl
  | case2 s t hstep ih =>
      obtain ⟨hvt, hindex⟩ := h.index_of_step hstep hv
      rw [ih (h.step hstep) hvt, hindex]

/-- The nodes that are visited are numbered on from those that were visited before. -/
theorem Sound.index_run_of_visited (h : s.Sound g) {i : Nat} {v : α}
    (hv : (s.visited g)[i]? = some v) : (g.search.run s).index v = s.marks.size + i := by
  fun_induction g.search.states s generalizing i with
  | case1 s hstep =>
      rw [visited_of_none hstep] at hv
      simp at hv
  | case2 s t hstep ih =>
      have hnext := h.step hstep
      rw [visited_of_some hstep] at hv
      rw [Machine.run_of_some hstep]
      rcases visiting_cases hstep with ⟨w, calls, hw, rfl⟩ | ⟨hidle, -, same⟩
      · rw [hw] at hv
        cases i with
        | zero =>
            obtain rfl : w = v := Option.some.inj hv
            rw [hnext.index_run (mem_marks_visit.mpr (.inl rfl)), index_visit_self]
            rfl
        | succ i =>
            have hnew : w ∉ (s.withCalls calls).marks := h.not_mem_marks_of_visiting hw
            rw [ih hnext hv, size_marks_visit hnew]
            simp only [withCalls]
            omega
      · rw [hidle] at hv
        rw [ih hnext hv, same.size]

/-! ## the end of a component -/

section endComponent

omit [Std.LawfulEqOrd α]

variable {v : α} {outer : List (α × List α)}

/-- The node whose visit ends is on the stack, so its component is cut off there. -/
theorem Sound.popThrough_eq (h : s.Sound g) (hcalls : s.calls = (v, []) :: outer) :
    ∃ above below, s.stack = above ++ v :: below ∧ v ∉ above ∧
      popThrough v s.stack = (above ++ [v], below) := by
  have hv : v ∈ s.stack := h.mem_stack_of_mem_callers (mem_callers_of_head hcalls)
  obtain ⟨above, below, hstack, hpop⟩ := popThrough_of_mem hv
  have hnodup := h.nodup_stack
  rw [hstack] at hnodup
  refine ⟨above, below, hstack, fun hmem => ?_, hpop⟩
  exact (List.nodup_append.mp hnodup).2.2 v hmem v List.mem_cons_self rfl

/-- The visit of a node whose low index is its own ends with the component of the node. -/
theorem Sound.step_eq_endComponent (h : s.Sound g) (hcalls : s.calls = (v, []) :: outer)
    (heq : s.low v = s.index v) : s.step g = some (s.endComponent v outer) := by
  have hv : v ∈ s.stack := h.mem_stack_of_mem_callers (mem_callers_of_head hcalls)
  have hfinish : s.finish v outer = s.endComponent v outer :=
    (finish_eq (h.mem_marks_of_mem_stack hv)).trans (if_pos heq)
  rw [Search.step, hcalls, ← hfinish]

end endComponent

end Search

/-! ## main results -/

namespace Digraph

variable {α : Type} [DecidableEq α] [Ord α] [Std.TransOrd α] [Std.LawfulEqOrd α]

open Search

/-- **The two stacks of the search.**  Before every step just the nodes on the stack are marked
as such; the stack holds no node twice and its indices rise from the bottom to the top; the
suspended visits are a path of the graph, their nodes are on the stack and their indices rise
inwards.  A node on the stack reaches the node of a suspended visit that is no younger, and its
low index is at most its own and is the index of a node on the stack that it reaches.

So where the visit of a node ends that has its own index for low index, taking nodes off the
stack comes to that node before the stack is empty.  A step gives an index to the node that it
visits, and no step changes an index.  The search ends with both stacks empty, after at most
two steps for each node and one for each edge; it has then visited every node of the graph
once, and the index of a node is the number of the nodes that were visited before it. -/
theorem search_stacks (g : Digraph α) :
    let states := g.search.states (start g)
    let last := g.search.run (start g)
    let visited := (start g).visited g
    (∀ s ∈ states,
      (∀ w, s.onStack w ↔ w ∈ s.stack) ∧ s.stack.Nodup ∧
      (s.stack.Pairwise fun upper lower => s.index lower < s.index upper) ∧
      (s.callers.IsChain fun inner outer => g.Edge outer inner) ∧
      (∀ c ∈ s.callers, c ∈ s.stack) ∧
      (s.callers.Pairwise fun inner outer => s.index outer < s.index inner) ∧
      (∀ w ∈ s.stack, ∃ c ∈ s.callers, s.index c ≤ s.index w ∧ g.Reaches w c) ∧
      ∀ w ∈ s.stack, s.low w ≤ s.index w ∧
        ∃ x ∈ s.stack, s.index x = s.low w ∧ g.Reaches w x) ∧
    (∀ s ∈ states, ∀ v outer, s.calls = (v, []) :: outer → s.low v = s.index v →
      ∃ above below, s.stack = above ++ v :: below ∧ v ∉ above ∧
        popThrough v s.stack = (above ++ [v], below) ∧
        ∃ t, s.step g = some t ∧ t.calls = outer ∧ t.stack = below ∧
          t.complete = (above ++ [v]) :: s.complete) ∧
    (∀ s ∈ states, ∀ t, s.step g = some t → ∀ v,
      (s.visiting = some v ↔ v ∉ s.marks ∧ v ∈ t.marks) ∧
      (v ∈ s.marks → v ∈ t.marks ∧ t.index v = s.index v)) ∧
    states.getLast? = some last ∧ last.step g = none ∧ last.calls = [] ∧ last.stack = [] ∧
    states.length ≤ (g.nodes.flatMap g.successors).length + 2 * g.nodes.length + 1 ∧
    visited.Nodup ∧ (∀ v, v ∈ visited ↔ v ∈ g.nodes) ∧
    ∀ i v, visited[i]? = some v → last.index v = i := by
  intro states last visited
  have sound : ∀ s ∈ states, s.Sound g := sound_states g
  have hend : last.step g = none := g.search.step_run (start g)
  have hcalls : last.calls = [] := (step_eq_none_iff.mp hend).1
  have hperm : g.nodes.Perm visited := fresh_perm_visited g (start g)
  refine ⟨fun s hs => ?_, fun s hs v outer hv heq => ?_, fun s hs t hstep v => ?_,
    g.search.getLast?_states (start g), hend, hcalls, (sound_run g).stack_eq_nil hcalls,
    g.search.length_states_le (start g), hperm.nodup_iff.mp g.nodup_nodes,
    fun v => hperm.symm.mem_iff, fun i v hv => ?_⟩
  · have h := sound s hs
    exact ⟨h.onStack_iff, h.nodup_stack, h.falling, h.path,
      fun c hc => h.mem_stack_of_mem_callers hc, h.falling_callers, h.reaches_caller,
      fun w hw => ⟨h.low_le w hw, h.low_reached w hw⟩⟩
  · have h := sound s hs
    obtain ⟨above, below, hstack, hfirst, hpop⟩ := h.popThrough_eq hv
    refine ⟨above, below, hstack, hfirst, hpop, _, h.step_eq_endComponent hv heq, rfl, ?_, ?_⟩
    · exact congrArg Prod.snd hpop
    · exact congrArg (fun cut => cut.1 :: s.complete) hpop
  · have h := sound s hs
    exact ⟨h.visiting_eq_some_iff hstep, h.index_of_step hstep⟩
  · rw [(sound_start g).index_run_of_visited hv]
    exact Nat.zero_add i

/-- In two cycles in a row, the end of the visit of `2` takes the second cycle off the stack. -/
theorem search_stacks_two_cycles :
    let g : Digraph Nat := ⟨[(0, [1]), (1, [0, 2]), (2, [3]), (3, [2, 4])]⟩
    (start g).visited g = [0, 1, 2, 3, 4] ∧ (g.search.run (start g)).index 3 = 3 ∧
      ∃ s ∈ g.search.states (start g), ∃ t, s.step g = some t ∧
        s.calls = [(2, []), (1, []), (0, [])] ∧ t.calls = [(1, []), (0, [])] ∧
        s.stack = [3, 2, 1, 0] ∧ t.stack = [1, 0] ∧ t.complete = [3, 2] :: s.complete := by
  intro g
  obtain ⟨-, cuts, -, -, -, -, -, -, -, -, numbered⟩ := search_stacks g
  have hvisited : (start g).visited g = [0, 1, 2, 3, 4] := by decide +kernel
  have hviews : ((g.search.states (start g))[9]?.map fun s => (s.calls, s.stack, s.low 2, s.index 2))
      = some ([(2, []), (1, []), (0, [])], [3, 2, 1, 0], 2, 2) := by decide +kernel
  obtain ⟨s, hs, hview⟩ := Option.map_eq_some_iff.mp hviews
  simp only [Prod.mk.injEq] at hview
  obtain ⟨hcalls, hstack, hlow, hindex⟩ := hview
  obtain ⟨above, below, -, -, hpop, t, hstep, houter, hbelow, hcomplete⟩ :=
    cuts s (List.mem_of_getElem? hs) 2 _ hcalls (hlow.trans hindex.symm)
  rw [hstack] at hpop
  obtain ⟨habove, rfl⟩ : [3, 2] = above ++ [2] ∧ [1, 0] = below := Prod.mk.inj hpop
  rw [← habove] at hcomplete
  exact ⟨hvisited, numbered 3 3 (by rw [hvisited]; rfl), s, List.mem_of_getElem? hs, t, hstep,
    hcalls, houter, hstack, hbelow, hcomplete⟩

end Digraph

end LRGrammar
