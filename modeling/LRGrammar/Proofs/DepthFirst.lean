import LRGrammar.Proofs.Exploration

/-!
# LRGrammar.Proofs.DepthFirst

The exploration of a graph asks for the successors of nodes in the order of a recursive
depth-first search.  The search marks a node when it enters it and skips marked nodes, while
the exploration leaves its nodes on a stack and finds out when it takes them off: a node may
wait many times over, next to nodes that are marked meanwhile.

What waits on the stack is what the suspended calls of the search have yet to visit, the
innermost call uppermost.  So the search over the whole stack goes on like the exploration
(`Digraph.depthFirst_of_step`), given two facts about the search:

* `Digraph.depthFirst_append` — it visits one part of a list and then the other;
* `Digraph.depthFirst_filter` — it may be spared nodes that are marked from the outset.
-/

namespace LRGrammar

namespace Digraph

variable {α : Type} [DecidableEq α] {g : Digraph α} {marked expanded nodes rest asked : List α}
variable {s t last : Exploration α} {v : α}

open Exploration

/-! ## the recursive search -/

/-- Marks leave no more edges to be used. -/
theorem length_unused_append_le (g : Digraph α) (others marked : List α) :
    ((unused g (others ++ marked)).flatMap (·.2)).length ≤
      ((unused g marked).flatMap (·.2)).length := by
  induction others with
  | nil => exact Nat.le_refl _
  | cons v others ih =>
      by_cases hv : v ∈ others ++ marked
      · have same : unused g (v :: (others ++ marked)) = unused g (others ++ marked) := by
          refine List.filter_congr fun entry _ => ?_
          simp only [decide_eq_decide, List.mem_cons, not_or, and_iff_right_iff_imp]
          rintro hentry rfl
          exact hentry hv
        rwa [List.cons_append, same]
      · have used := length_unused_cons (g := g) hv
        simp only [List.cons_append]
        omega

/-- The nodes that a depth-first search over the listed nodes enters, in order, where some
nodes are marked before, the latest first.  It skips a marked node.  It enters any other node:
it marks the node, visits its successors from the last to the first, and then goes on. -/
def depthFirst (g : Digraph α) (marked : List α) : List α → List α
  | [] => []
  | v :: rest =>
      if v ∈ marked then g.depthFirst marked rest
      else
        let below := g.depthFirst (v :: marked) (g.successors v).reverse
        v :: below ++ g.depthFirst (below.reverse ++ v :: marked) rest
termination_by nodes => weight g ⟨nodes, marked⟩
decreasing_by
  · simp [weight]
  · rename_i hv
    have used := length_unused_cons (g := g) hv
    simp only [weight, List.length_reverse, List.length_cons]
    omega
  · rename_i hv
    have used := length_unused_cons (g := g) hv
    refine Nat.lt_of_le_of_lt (Nat.add_le_add_left (g.length_unused_append_le _ (v :: marked)) _) ?_
    simp only [weight, List.length_cons]
    omega

/-- The preorder of the depth-first search from the roots, from the last root to the first. -/
def preorder (g : Digraph α) (roots : List α) : List α := g.depthFirst [] roots.reverse

@[simp] theorem depthFirst_nil : g.depthFirst marked [] = [] := by
  rw [depthFirst]

theorem depthFirst_cons_of_mem (hv : v ∈ marked) :
    g.depthFirst marked (v :: rest) = g.depthFirst marked rest := by
  rw [depthFirst, if_pos hv]

theorem depthFirst_cons_of_not_mem (hv : v ∉ marked) :
    g.depthFirst marked (v :: rest) =
      v :: g.depthFirst (v :: marked) (g.successors v).reverse ++
        g.depthFirst ((g.depthFirst (v :: marked) (g.successors v).reverse).reverse ++ v :: marked)
          rest := by
  rw [depthFirst, if_neg hv]

/-- The search visits one part of the list, and then the other with what it marked before. -/
theorem depthFirst_append :
    g.depthFirst marked (nodes ++ rest) =
      g.depthFirst marked nodes ++
        g.depthFirst ((g.depthFirst marked nodes).reverse ++ marked) rest := by
  induction nodes generalizing marked with
  | nil => simp
  | cons v nodes ih =>
      by_cases hv : v ∈ marked
      · rw [List.cons_append, depthFirst_cons_of_mem hv, depthFirst_cons_of_mem hv, ih]
      · rw [List.cons_append, depthFirst_cons_of_not_mem hv, depthFirst_cons_of_not_mem hv, ih]
        simp

/-- The search does not need the nodes that are marked from the outset. -/
theorem depthFirst_filter (hmarked : ∀ v ∈ expanded, v ∈ marked) :
    g.depthFirst marked (nodes.filter fun v => v ∉ expanded) = g.depthFirst marked nodes := by
  induction nodes generalizing marked with
  | nil => rfl
  | cons v nodes ih =>
      by_cases hexpanded : v ∈ expanded
      · rw [List.filter_cons_of_neg (by simpa using hexpanded),
          depthFirst_cons_of_mem (hmarked v hexpanded), ih hmarked]
      · rw [List.filter_cons_of_pos (by simpa using hexpanded)]
        by_cases hv : v ∈ marked
        · rw [depthFirst_cons_of_mem hv, depthFirst_cons_of_mem hv, ih hmarked]
        · rw [depthFirst_cons_of_not_mem hv, depthFirst_cons_of_not_mem hv, ih fun u hu => by
            simp [hmarked u hu]]

/-! ## the exploration -/

/-- The search over the stack enters what the step asks for, and goes on over the stack that
the step leaves. -/
theorem depthFirst_of_step (h : s.step g.successors = some t) :
    g.depthFirst s.expanded s.pending =
      s.asks.toList ++ g.depthFirst t.expanded t.pending := by
  obtain ⟨v, rest, hpending, ⟨hv, rfl⟩ | ⟨hv, rfl⟩⟩ := step_cases h
  · rw [hpending, depthFirst_cons_of_mem hv, asks_of_mem hpending hv]
    rfl
  · have below : g.depthFirst (v :: s.expanded)
          ((g.successors v).filter fun w => w ∉ s.expanded).reverse =
        g.depthFirst (v :: s.expanded) (g.successors v).reverse := by
      rw [← List.filter_reverse]
      exact depthFirst_filter fun u hu => List.mem_cons_of_mem v hu
    rw [hpending, depthFirst_cons_of_not_mem hv, asks_of_not_mem hpending hv,
      depthFirst_append, below]
    rfl

/-- From any state on the exploration asks for what the search over its stack enters. -/
theorem asked_eq_depthFirst (h : Explores g.successors s asked last) :
    asked = g.depthFirst s.expanded s.pending := by
  induction h with
  | done hdone => rw [step_eq_none_iff.mp hdone, depthFirst_nil]
  | next hstep _ ih => rw [depthFirst_of_step hstep, ih]

/-- **The exploration goes depth first.**  From its roots on it asks for the successors of
nodes in the preorder of the recursive depth-first search, and in no other order, and its
closure lists them so. -/
theorem explores_iff_eq_preorder (g : Digraph α) (roots : List α) :
    (∀ asked, (∃ last, Explores g.successors (start roots) asked last) ↔
      asked = g.preorder roots) ∧ g.closure roots = g.preorder roots := by
  have run := g.explores_closure roots
  have order : g.closure roots = g.preorder roots := asked_eq_depthFirst run
  refine ⟨fun asked => ⟨?_, ?_⟩, order⟩
  · rintro ⟨last, h⟩
    exact asked_eq_depthFirst h
  · rintro rfl
    exact ⟨_, order ▸ run⟩

/-- A node that waits from early on is entered from the later node that leads to it. -/
example :
    let g : Digraph Nat := ⟨[(1, [2, 3, 2, 4]), (4, [1, 4, 3])]⟩
    g.preorder [5, 1] = [1, 4, 3, 2, 5] ∧ g.closure [5, 1] = [1, 4, 3, 2, 5] := by
  decide +kernel

end Digraph

end LRGrammar
