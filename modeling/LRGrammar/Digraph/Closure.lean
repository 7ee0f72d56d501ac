import LRGrammar.Digraph
import LRGrammar.Machine

/-!
# LRGrammar.Digraph.Closure

The nodes that can be reached from some roots, in the order in which they are
expanded.  Pending nodes wait on a stack; a node is expanded when it is taken
off the stack for the first time, and then its successors that were not expanded
before are put on the stack, the last one uppermost.

The step is defined for any successor function (`Exploration.step`); over the
successors of a finite graph it is a `Machine` (`Digraph.exploration`).

* `Exploration.weight_lt_of_step` — every step uses up a pending node or the
  edges listed for a node that was not expanded.
-/

namespace LRGrammar

/-- A state of the exploration. -/
structure Exploration (α : Type) where
  /-- The nodes to be expanded, the next one first; a node may wait more than once. -/
  pending : List α
  /-- The nodes expanded so far, latest first. -/
  expanded : List α
deriving DecidableEq, Repr

namespace Exploration

variable {α : Type} [DecidableEq α]

/-- The exploration before its first step: the last root is the first to be expanded. -/
def start (roots : List α) : Exploration α := ⟨roots.reverse, []⟩

/-- Take a node off the stack, and expand it unless it was expanded before. -/
def step (successors : α → List α) (s : Exploration α) : Option (Exploration α) :=
  match s.pending with
  | [] => none
  | v :: rest =>
      if v ∈ s.expanded then some { s with pending := rest }
      else some
        { pending := ((successors v).filter fun w => w ∉ s.expanded).reverse ++ rest
          expanded := v :: s.expanded }

/-! ## the work that is left -/

/-- The entries of the graph whose node was not expanded. -/
def unused (g : Digraph α) (expanded : List α) : List (α × List α) :=
  g.adjacency.filter fun entry => entry.1 ∉ expanded

/-- Every pending node, and every edge listed for a node that was not expanded. -/
def weight (g : Digraph α) (s : Exploration α) : Nat :=
  s.pending.length + ((unused g s.expanded).flatMap (·.2)).length

/-- Expanding a node uses up exactly its edges. -/
theorem length_unused_cons {g : Digraph α} {v : α} {expanded : List α} (h : v ∉ expanded) :
    ((unused g (v :: expanded)).flatMap (·.2)).length + (g.successors v).length =
      ((unused g expanded).flatMap (·.2)).length := by
  unfold unused Digraph.successors
  induction g.adjacency with
  | nil => rfl
  | cons entry rest ih =>
      by_cases hv : entry.1 = v <;> by_cases he : entry.1 ∈ expanded <;>
        simp_all <;> omega

theorem weight_lt_of_step {g : Digraph α} {s t : Exploration α}
    (h : s.step g.successors = some t) : t.weight g < s.weight g := by
  unfold step at h
  split at h
  · simp at h
  · rename_i v rest hp
    split at h
    · obtain rfl := Option.some.inj h
      simp [weight, hp]
    · rename_i hv
      obtain rfl := Option.some.inj h
      have used := length_unused_cons (g := g) hv
      have kept := List.length_filter_le (fun w => decide (w ∉ s.expanded)) (g.successors v)
      simp only [weight, hp, List.length_append, List.length_reverse, List.length_cons]
      omega

end Exploration

namespace Digraph

variable {α : Type} [DecidableEq α]

/-- The exploration of a graph. -/
def exploration (g : Digraph α) : Machine (Exploration α) where
  step := Exploration.step g.successors
  weight := Exploration.weight g
  weight_lt := Exploration.weight_lt_of_step

/-- The nodes that can be reached from the roots, in the order in which they are expanded. -/
def closure (g : Digraph α) (roots : List α) : List α :=
  (g.exploration.run (.start roots)).expanded.reverse

end Digraph

end LRGrammar
