import LRGrammar.Digraph
import LRGrammar.Machine

/-!
# LRGrammar.Digraph.Components

The strongly connected components of a graph, found in one depth-first search.
Each visited node carries its visiting index and its *low* index, the least
index of an unfinished node that the search has seen it reach.  The nodes whose
component is not complete wait on a stack; a node that is finished while its two
indices agree is the first of its component, which is then the top of the stack.

The search is a `Machine` with calls of its own, so each loop head can be
spoken about: `Digraph.search` is the machine, `Search.start` its first state.

* `Search.weight_lt_of_step` — every step does at least one unit of the work that
  the unvisited nodes and the suspended calls hold;
* `Search.popThrough_append` — a component and what stays of the stack make up
  the stack.
-/

namespace LRGrammar

/-- What the search knows of a visited node. -/
structure Mark where
  /-- How many nodes were visited before it. -/
  index : Nat
  low : Nat
  /-- Its component is not complete. -/
  onStack : Bool
deriving DecidableEq, Repr

/-- A state of the depth-first search. -/
structure Search (α : Type) [Ord α] where
  /-- The nodes that were not visited, in the order in which they are tried as roots. -/
  fresh : List α
  /-- The suspended visits, innermost first, each with the successors it has yet to explore. -/
  calls : List (α × List α)
  /-- The visited nodes whose component is not complete, latest first. -/
  stack : List α
  marks : Std.ExtTreeMap α Mark compare
  /-- The complete components, latest first. -/
  complete : List (List α)

namespace Search

variable {α : Type} [DecidableEq α]

/-- Split a list behind the first occurrence of `v`. -/
def popThrough (v : α) : List α → List α × List α
  | [] => ([], [])
  | w :: rest =>
      if w = v then ([w], rest)
      else
        let behind := popThrough v rest
        (w :: behind.1, behind.2)

theorem popThrough_append (v : α) (stack : List α) :
    (popThrough v stack).1 ++ (popThrough v stack).2 = stack := by
  induction stack with
  | nil => rfl
  | cons w rest ih => by_cases h : w = v <;> simp [popThrough, h, ih]

/-! ## the search -/

variable [Ord α] [Std.TransOrd α]

/-- The search before its first step. -/
def start (g : Digraph α) : Search α := ⟨g.nodes, [], [], ∅, []⟩

/-- Lower the low index of a node to `bound`, if it was above. -/
def lower (marks : Std.ExtTreeMap α Mark compare) (v : α) (bound : Nat) :
    Std.ExtTreeMap α Mark compare :=
  marks.modify v fun m => { m with low := min m.low bound }

/-- Take the listed nodes off the stack. -/
def close (marks : Std.ExtTreeMap α Mark compare) (members : List α) :
    Std.ExtTreeMap α Mark compare :=
  members.foldl (fun ms w => ms.modify w fun m => { m with onStack := false }) marks

/-- Begin the visit of a node. -/
def visit (g : Digraph α) (s : Search α) (v : α) : Search α where
  fresh := s.fresh.erase v
  calls := (v, g.successors v) :: s.calls
  stack := v :: s.stack
  marks := s.marks.insert v ⟨s.marks.size, s.marks.size, true⟩
  complete := s.complete

/-- Look at an edge from the innermost visit's node `v` to the visited node `w`:
a node on the stack may lower the low index of `v`. -/
def look (s : Search α) (v w : α) : Search α :=
  match s.marks[w]? with
  | some m => if m.onStack then { s with marks := lower s.marks v m.index } else s
  | none => s

/-- Return to the visits `outer`, and hand `bound` to the visit that goes on there. -/
def goBack (s : Search α) (outer : List (α × List α)) (bound : Nat) : Search α where
  fresh := s.fresh
  calls := outer
  stack := s.stack
  marks := match outer with
    | [] => s.marks
    | (parent, _) :: _ => lower s.marks parent bound
  complete := s.complete

/-- Complete the component whose first node is `v`: it is the top of the stack. -/
def detach (s : Search α) (v : α) : Search α where
  fresh := s.fresh
  calls := s.calls
  stack := (popThrough v s.stack).2
  marks := close s.marks (popThrough v s.stack).1
  complete := (popThrough v s.stack).1 :: s.complete

/-- End the visit of `v`, inside the visits `outer`: its low index is handed to
the visit that it returns to, and if `v` is the first of its component, the
component is complete. -/
def finish (s : Search α) (v : α) (outer : List (α × List α)) : Search α :=
  match s.marks[v]? with
  | none => { s with calls := outer }
  | some m =>
      let returned := s.goBack outer m.low
      if m.low = m.index then returned.detach v else returned

/-- One step: try the next root, explore the next successor, or return. -/
def step (g : Digraph α) (s : Search α) : Option (Search α) :=
  match s.calls with
  | [] => match s.fresh with
    | [] => none
    | root :: _ => some (s.visit g root)
  | (v, w :: ws) :: outer =>
      let advanced := { s with calls := (v, ws) :: outer }
      some (if w ∈ s.fresh then advanced.visit g w else advanced.look v w)
  | (v, []) :: outer => some (s.finish v outer)

/-! ## the work that is left -/

/-- The edges of the unvisited nodes, with the visit and the return of each, and the
unexplored edges of the suspended calls, with their returns. -/
def weight (g : Digraph α) (s : Search α) : Nat :=
  (s.fresh.flatMap g.successors).length + 2 * s.fresh.length +
    ((s.calls.flatMap (·.2)).length + s.calls.length)

theorem weight_visit {g : Digraph α} {s : Search α} {v : α} (h : v ∈ s.fresh) :
    (s.visit g v).weight g + 1 = s.weight g := by
  have taken := List.perm_cons_erase h
  have edges := (taken.flatMap_right g.successors).length_eq
  have nodes := taken.length_eq
  simp only [weight, visit, List.flatMap_cons, List.length_append, List.length_cons] at *
  omega

theorem weight_look (g : Digraph α) (s : Search α) (v w : α) :
    (s.look v w).weight g = s.weight g := by
  unfold look; grind [weight]

theorem fresh_finish (s : Search α) (v : α) (outer : List (α × List α)) :
    (s.finish v outer).fresh = s.fresh := by
  unfold finish
  split
  · rfl
  · dsimp only; split <;> rfl

theorem calls_finish (s : Search α) (v : α) (outer : List (α × List α)) :
    (s.finish v outer).calls = outer := by
  unfold finish
  split
  · rfl
  · dsimp only; split <;> rfl

theorem weight_lt_of_step {g : Digraph α} {s t : Search α} (h : s.step g = some t) :
    t.weight g < s.weight g := by
  unfold step at h
  split at h
  · rename_i hc
    split at h
    · simp at h
    · rename_i root rest hf
      obtain rfl := Option.some.inj h
      have := weight_visit (g := g) (s := s) (v := root) (by simp [hf])
      omega
  · rename_i v w ws outer hc
    have advanced :
        ({ s with calls := (v, ws) :: outer } : Search α).weight g + 1 = s.weight g := by
      simp [weight, hc]; omega
    obtain rfl := Option.some.inj h
    split
    · rename_i hw
      have := weight_visit (g := g) (s := { s with calls := (v, ws) :: outer }) (v := w) hw
      omega
    · rw [weight_look]; omega
  · rename_i v outer hc
    obtain rfl := Option.some.inj h
    simp only [weight, fresh_finish, calls_finish, hc, List.flatMap_cons, List.nil_append,
      List.length_cons]
    omega

end Search

namespace Digraph

variable {α : Type} [DecidableEq α] [Ord α] [Std.TransOrd α]

/-- The depth-first search of a graph. -/
def search (g : Digraph α) : Machine (Search α) where
  step := Search.step g
  weight := Search.weight g
  weight_lt := Search.weight_lt_of_step

/-- The strongly connected components, each after all components that it reaches. -/
def components (g : Digraph α) : List (List α) := (g.search.run (.start g)).complete.reverse

/-- No edge leads to a later component of the list. -/
def calleesFirst (g : Digraph α) (components : List (List α)) : Bool :=
  let place (v : α) := components.findIdx fun component => v ∈ component
  g.adjacency.all fun (v, successors) => successors.all fun w => place w ≤ place v

/-- The component is a cycle: it has two nodes, or a node that is its own successor. -/
def isCycle (g : Digraph α) (component : List α) : Bool :=
  1 < component.length || component.any fun v => v ∈ g.successors v

/-- The nodes that lie on a cycle. -/
def cyclicNodes (g : Digraph α) : List α := (g.components.filter g.isCycle).flatten

end Digraph

end LRGrammar
