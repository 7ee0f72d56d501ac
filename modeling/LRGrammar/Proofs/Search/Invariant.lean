import LRGrammar.Proofs.Search.Marks
import Mathlib.Data.List.Chain
import Mathlib.Data.List.Pairwise
import Mathlib.Tactic.ByContra

/-!
# LRGrammar.Proofs.Search.Invariant

What holds before every step of the depth-first search, in four parts.

* `Search.Bookkept` — every node is listed where it belongs, and the stack is in
  the order of the visits;
* `Search.Traced` — the suspended visits form a path, every open node lies on a
  walk from and to it, and no edge is forgotten;
* `Search.Bounded` — low indices are sound and complete: each is the index of an
  open node that is reached, and no explored edge inside the stack leads below it;
* `Digraph.Completed` — the complete components are strongly connected, and their
  edges lead to components that were complete before.
-/

namespace LRGrammar

/-- Components in the order of their completion, latest first: the nodes of each
reach each other, and every edge out of it leads to one completed earlier. -/
def Digraph.Completed {α : Type} [DecidableEq α] (g : Digraph α) : List (List α) → Prop
  | [] => True
  | component :: earlier =>
      component ≠ [] ∧ (∀ v ∈ component, ∀ w ∈ component, g.Reaches v w) ∧
        (∀ v ∈ component, ∀ w, g.Edge v w → w ∈ component ∨ w ∈ earlier.flatten) ∧
        g.Completed earlier

namespace Search

variable {α : Type} [Ord α] [Std.TransOrd α]

/-- Of the suspended visits, that of `c` is the innermost one that began no later than `v`. -/
structure Innermost (s : Search α) (c v : α) : Prop where
  mem_callers : c ∈ s.callers
  index_le : s.index c ≤ s.index v
  le_index : ∀ d ∈ s.callers, s.index d ≤ s.index v → s.index d ≤ s.index c

theorem Innermost.of_mem_callers {s : Search α} {c : α} (hc : c ∈ s.callers) :
    s.Innermost c c where
  mem_callers := hc
  index_le := Nat.le_refl _
  le_index _ _ hd := hd

/-- A suspended visit that is older than the innermost one is around it. -/
theorem mem_outer_of_index_lt {s : Search α} {v c : α} {ws : List α}
    {outer : List (α × List α)} (hcalls : s.calls = (v, ws) :: outer) (hc : c ∈ s.callers)
    (hlt : s.index c < s.index v) : c ∈ outer.map (·.1) := by
  rw [callers_of_calls hcalls, List.mem_cons] at hc
  cases hc with
  | inl he => rw [he] at hlt; exact absurd hlt (Nat.lt_irrefl _)
  | inr hc => exact hc

variable [DecidableEq α]

/-- Every node is either fresh, on the stack or in one complete component, and the
stack holds the suspended visits, in the order of the visiting indices. -/
structure Bookkept (g : Digraph α) (s : Search α) : Prop where
  nodup_fresh : s.fresh.Nodup
  mem_fresh : ∀ v, v ∈ s.fresh ↔ v ∈ g.nodes ∧ v ∉ s.marks
  mem_nodes : ∀ v ∈ s.marks, v ∈ g.nodes
  mem_marks : ∀ v, v ∈ s.marks ↔ v ∈ s.stack ∨ v ∈ s.complete.flatten
  onStack_iff : ∀ v, s.onStack v ↔ v ∈ s.stack
  nodup : (s.stack ++ s.complete.flatten).Nodup
  index_lt : ∀ v ∈ s.stack, s.index v < s.marks.size
  falling : s.stack.Pairwise fun w v => s.index v < s.index w
  callers_sublist : s.callers.Sublist s.stack

/-- The suspended visits form a path, innermost node first; they reach what was
visited after them, and every open node reaches one of them that is not younger.
An edge that was not followed is still to be explored. -/
structure Traced (g : Digraph α) (s : Search α) : Prop where
  path : s.callers.IsChain fun inner outer => g.Edge outer inner
  edge_of_unexplored : ∀ v w, s.Unexplored v w → g.Edge v w
  explored : ∀ v w, v ∈ s.marks → g.Edge v w → w ∈ s.marks ∨ s.Unexplored v w
  reaches_younger : ∀ c ∈ s.callers, ∀ w ∈ s.stack, s.index c ≤ s.index w → g.Reaches c w
  reaches_caller : ∀ w ∈ s.stack, ∃ c ∈ s.callers, s.index c ≤ s.index w ∧ g.Reaches w c

/-- The low index of an open node is that of an open node that it reaches, and an
explored edge between open nodes leads nowhere below the low index of the
innermost visit around its source. -/
structure Bounded (g : Digraph α) (s : Search α) : Prop where
  low_le : ∀ v ∈ s.stack, s.low v ≤ s.index v
  low_reached : ∀ v ∈ s.stack, ∃ x ∈ s.stack, s.index x = s.low v ∧ g.Reaches v x
  low_bounds : ∀ v ∈ s.stack, ∀ w ∈ s.stack, g.Edge v w →
    s.Unexplored v w ∨ ∃ c, s.Innermost c v ∧ s.low c ≤ s.index w

/-- What holds before every step. -/
structure Sound (g : Digraph α) (s : Search α) : Prop extends
    Bookkept g s, Traced g s, Bounded g s where
  completed : g.Completed s.complete

/-! ## what follows for one state -/

namespace Bookkept

variable {g : Digraph α} {s : Search α}

theorem mem_marks_of_mem_stack (h : s.Bookkept g) {v : α} (hv : v ∈ s.stack) : v ∈ s.marks :=
  (h.mem_marks v).mpr (.inl hv)

theorem nodup_stack (h : s.Bookkept g) : s.stack.Nodup := (List.nodup_append.mp h.nodup).1

theorem mem_stack_of_mem_callers (h : s.Bookkept g) {v : α} (hv : v ∈ s.callers) :
    v ∈ s.stack := h.callers_sublist.subset hv

theorem not_mem_stack_of_fresh (h : s.Bookkept g) {v : α} (hv : v ∈ s.fresh) :
    v ∉ s.stack := fun hs =>
  ((h.mem_fresh v).mp hv).2 (h.mem_marks_of_mem_stack hs)

/-- A visited node is a node that is not fresh. -/
theorem mem_marks_of_not_mem_fresh (h : s.Bookkept g) {v : α} (hv : v ∈ g.nodes)
    (hf : v ∉ s.fresh) : v ∈ s.marks := by
  by_contra hm
  exact hf ((h.mem_fresh v).mpr ⟨hv, hm⟩)

/-- Open nodes with one index are one node. -/
theorem eq_of_index_eq (h : s.Bookkept g) {v w : α} (hv : v ∈ s.stack) (hw : w ∈ s.stack)
    (heq : s.index v = s.index w) : v = w := by
  by_contra hne
  have apart : s.stack.Pairwise fun a b => s.index a ≠ s.index b :=
    h.falling.imp fun hlt => by omega
  have : Std.Symm fun a b => s.index a ≠ s.index b := ⟨fun _ _ hab => hab.symm⟩
  exact apart.forall hv hw hne heq

theorem falling_callers (h : s.Bookkept g) :
    s.callers.Pairwise fun c d => s.index d < s.index c :=
  h.falling.sublist h.callers_sublist

/-- The innermost visit is the youngest. -/
theorem index_le_head (h : s.Bookkept g) {v c : α} (hv : s.callers.head? = some v)
    (hc : c ∈ s.callers) : s.index c ≤ s.index v := by
  obtain ⟨outer, hcallers⟩ : ∃ outer, s.callers = v :: outer := List.head?_eq_some_iff.mp hv
  have falling := h.falling_callers
  rw [hcallers] at falling hc
  rcases List.mem_cons.mp hc with rfl | hc
  · exact Nat.le_refl _
  · exact Nat.le_of_lt (List.rel_of_pairwise_cons falling hc)

/-- The visits around the innermost one are older. -/
theorem index_outer_lt (h : s.Bookkept g) {v c : α} {ws : List α} {outer : List (α × List α)}
    (hcalls : s.calls = (v, ws) :: outer) (hc : c ∈ outer.map (·.1)) :
    s.index c < s.index v := by
  have falling := h.falling_callers
  rw [callers_of_calls hcalls] at falling
  exact List.rel_of_pairwise_cons falling hc

/-- The lists and the marks but for the low indices are all that the books are about. -/
theorem of_views {t : Search α} (h : s.Bookkept g) (fresh : t.fresh = s.fresh)
    (stack : t.stack = s.stack) (complete : t.complete = s.complete)
    (mem : ∀ u, u ∈ t.marks ↔ u ∈ s.marks) (size : t.marks.size = s.marks.size)
    (index : ∀ u, t.index u = s.index u) (onStack : ∀ u, t.onStack u = s.onStack u)
    (callers : t.callers.Sublist s.callers) : t.Bookkept g where
  nodup_fresh := by rw [fresh]; exact h.nodup_fresh
  mem_fresh u := by rw [fresh, mem]; exact h.mem_fresh u
  mem_nodes u hu := h.mem_nodes u ((mem u).mp hu)
  mem_marks u := by rw [mem, stack, complete]; exact h.mem_marks u
  onStack_iff u := by rw [onStack, stack]; exact h.onStack_iff u
  nodup := by rw [stack, complete]; exact h.nodup
  index_lt u hu := by rw [index, size]; exact h.index_lt u (stack ▸ hu)
  falling := by simp only [stack, index]; exact h.falling
  callers_sublist := by rw [stack]; exact callers.trans h.callers_sublist

end Bookkept

/-- The search goes on along an edge of the innermost visit. -/
theorem Traced.edge_of_approaches {g : Digraph α} {s : Search α} {v w : α}
    {calls : List (α × List α)} (h : s.Traced g) (ahead : s.Approaches w calls)
    (hv : s.callers.head? = some v) : g.Edge v w :=
  h.edge_of_unexplored v w ((ahead.unexplored v w).mpr (.inl ⟨hv, rfl⟩))

end Search

end LRGrammar
