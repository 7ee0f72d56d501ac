import LRGrammar.Digraph.Components
import LRGrammar.Digraph.Path

/-!
# LRGrammar.Proofs.Search.Marks

What can be read off a state of the depth-first search: the indices of a node,
whether it is marked as being on the stack, the nodes of the suspended visits
and the edges that these have yet to explore.  Each operation of the search has
one lemma for each of these views, so that the proofs about the search never
look into its table of marks.

* `Search.step_cases` — all that one step can do;
* `Search.look_eq`, `Search.finish_eq` — the operations without their matches.
-/

namespace LRGrammar

namespace Search

variable {α : Type} [Ord α]

/-! ## the suspended visits -/

/-- The nodes of the suspended visits, innermost first. -/
def callers (s : Search α) : List α := s.calls.map (·.1)

/-- The visit of `v` has yet to look at its successor `w`. -/
def Unexplored (s : Search α) (v w : α) : Prop := ∃ ws, (v, ws) ∈ s.calls ∧ w ∈ ws

/-- Only suspended visits have successors to look at. -/
theorem mem_callers_of_unexplored {s : Search α} {v w : α} (h : s.Unexplored v w) :
    v ∈ s.callers := by
  obtain ⟨ws, hcall, hw⟩ := h
  exact List.mem_map.mpr ⟨_, hcall, rfl⟩

/-- The call on top is the innermost visit. -/
theorem callers_of_calls {s : Search α} {v : α} {ws : List α} {outer : List (α × List α)}
    (h : s.calls = (v, ws) :: outer) : s.callers = v :: outer.map (·.1) := by
  rw [callers, h, List.map_cons]

theorem head?_callers {s : Search α} {v : α} {ws : List α} {outer : List (α × List α)}
    (h : s.calls = (v, ws) :: outer) : s.callers.head? = some v := by
  rw [callers_of_calls h, List.head?_cons]

/-- The innermost visit is one of the suspended ones. -/
theorem mem_callers_of_head {s : Search α} {v : α} {ws : List α} {outer : List (α × List α)}
    (h : s.calls = (v, ws) :: outer) : v ∈ s.callers := by
  rw [callers_of_calls h]
  exact List.mem_cons_self

/-- The visits around the innermost one are suspended, too. -/
theorem mem_callers_of_outer {s : Search α} {v c : α} {ws : List α} {outer : List (α × List α)}
    (h : s.calls = (v, ws) :: outer) (hc : c ∈ outer.map (·.1)) : c ∈ s.callers := by
  rw [callers_of_calls h]
  exact List.mem_cons_of_mem v hc

/-- The same state with other suspended visits. -/
def withCalls (s : Search α) (calls : List (α × List α)) : Search α := { s with calls := calls }

/-- With these calls the search goes on to `w`: it takes the edge to `w` from what
the innermost visit has yet to explore.  Where no visit is suspended, `w` is a root. -/
structure Approaches (s : Search α) (w : α) (calls : List (α × List α)) : Prop where
  callers : calls.map (·.1) = s.callers
  unexplored : ∀ a b, s.Unexplored a b ↔
    (s.callers.head? = some a ∧ b = w) ∨ (s.withCalls calls).Unexplored a b

/-- Where no visit is suspended, the search goes on to a root with the calls it has. -/
theorem approaches_root {s : Search α} {root : α} (hs : s.calls = []) :
    s.Approaches root s.calls where
  callers := rfl
  unexplored a b := by simp [callers, hs, Unexplored, withCalls]

/-- Going on to its next successor takes that one from what the innermost visit has to explore. -/
theorem approaches_successor {s : Search α} {v w : α} {ws : List α} {outer : List (α × List α)}
    (hs : s.calls = (v, w :: ws) :: outer) : s.Approaches w ((v, ws) :: outer) where
  callers := by rw [callers_of_calls hs, List.map_cons]
  unexplored a b := by
    simp only [callers_of_calls hs, hs, Unexplored, withCalls, List.head?_cons,
      Option.some.injEq, List.mem_cons]
    grind

/-! ## the marks -/

variable [Std.TransOrd α]

/-- The visiting index of a node. -/
def index (s : Search α) (v : α) : Nat := s.marks[v]?.elim 0 (·.index)

/-- The low index of a node. -/
def low (s : Search α) (v : α) : Nat := s.marks[v]?.elim 0 (·.low)

/-- The node was visited, and its component is not complete. -/
def onStack (s : Search α) (v : α) : Bool := s.marks[v]?.elim false (·.onStack)

section withCalls

variable {s : Search α} {calls : List (α × List α)} {u : α}

/-- The calls hold no visiting index. -/
@[simp] theorem index_withCalls : (s.withCalls calls).index u = s.index u := rfl

/-- The calls hold no low index. -/
@[simp] theorem low_withCalls : (s.withCalls calls).low u = s.low u := rfl

/-- The calls do not tell which nodes are on the stack. -/
@[simp] theorem onStack_withCalls : (s.withCalls calls).onStack u = s.onStack u := rfl

end withCalls

/-! ## which nodes are visited -/

section visited

variable {s : Search α} {v w u : α} {outer : List (α × List α)} {bound : Nat}

/-- An edge to a node on the stack lowers the low index; other edges change nothing. -/
theorem look_eq : s.look v w =
    if s.onStack w then { s with marks := lower s.marks v (s.index w) } else s := by
  unfold look onStack index
  cases s.marks[w]? <;> rfl

/-- Looking at an edge visits no node. -/
@[simp] theorem fresh_look : (s.look v w).fresh = s.fresh := by
  rw [look_eq]; split <;> rfl

/-- Looking at an edge suspends no visit and ends none. -/
@[simp] theorem calls_look : (s.look v w).calls = s.calls := by
  rw [look_eq]; split <;> rfl

/-- Looking at an edge leaves the stack alone. -/
@[simp] theorem stack_look : (s.look v w).stack = s.stack := by
  rw [look_eq]; split <;> rfl

/-- Looking at an edge completes no component. -/
@[simp] theorem complete_look : (s.look v w).complete = s.complete := by
  rw [look_eq]; split <;> rfl

@[simp] theorem callers_look : (s.look v w).callers = s.callers := by
  rw [callers, calls_look, callers]

/-- The visits that were suspended before the search went on to an edge are still suspended. -/
theorem Approaches.callers_look {calls : List (α × List α)}
    (ahead : s.Approaches w calls) :
    ((s.withCalls calls).look v w).callers = s.callers := by
  rw [Search.callers_look]
  exact ahead.callers

/-- An edge is used up by going on to it; looking at it then uses up no other one. -/
@[simp] theorem unexplored_look {a b : α} :
    (s.look v w).Unexplored a b ↔ s.Unexplored a b := by
  rw [Unexplored, calls_look, Unexplored]

/-- Looking at an edge marks no node as visited. -/
@[simp] theorem mem_marks_look : u ∈ (s.look v w).marks ↔ u ∈ s.marks := by
  rw [look_eq]
  split
  · exact Std.ExtTreeMap.mem_modify
  · rfl

theorem size_marks_look : (s.look v w).marks.size = s.marks.size := by
  rw [look_eq]
  split
  · exact Std.ExtTreeMap.size_modify
  · rfl

/-- After a return the outer visits are the suspended ones. -/
@[simp] theorem callers_goBack : (s.goBack outer bound).callers = outer.map (·.1) := rfl

/-- A return leaves the stack alone. -/
@[simp] theorem stack_goBack : (s.goBack outer bound).stack = s.stack := rfl

/-- A visit whose successors are all explored takes no unexplored edge with it. -/
theorem unexplored_goBack (hs : s.calls = (v, []) :: outer) {a b : α} :
    (s.goBack outer bound).Unexplored a b ↔ s.Unexplored a b := by
  simp only [Unexplored, goBack, hs, List.mem_cons]
  grind

/-- A return marks no node as visited. -/
@[simp] theorem mem_marks_goBack : u ∈ (s.goBack outer bound).marks ↔ u ∈ s.marks := by
  cases outer with
  | nil => rfl
  | cons call outer => exact Std.ExtTreeMap.mem_modify

theorem size_marks_goBack : (s.goBack outer bound).marks.size = s.marks.size := by
  cases outer with
  | nil => rfl
  | cons call outer => exact Std.ExtTreeMap.size_modify

theorem close_cons {marks : Std.ExtTreeMap α Mark compare} {members : List α} :
    close marks (w :: members) =
      close (marks.modify w fun m => { m with onStack := false }) members := rfl

/-- A node that leaves the stack stays visited. -/
theorem mem_close {marks : Std.ExtTreeMap α Mark compare} {members : List α} :
    u ∈ close marks members ↔ u ∈ marks := by
  induction members generalizing marks with
  | nil => rfl
  | cons w rest ih => rw [close_cons, ih, Std.ExtTreeMap.mem_modify]

theorem size_close {marks : Std.ExtTreeMap α Mark compare} {members : List α} :
    (close marks members).size = marks.size := by
  induction members generalizing marks with
  | nil => rfl
  | cons w rest ih => rw [close_cons, ih, Std.ExtTreeMap.size_modify]

variable [DecidableEq α]

/-- A visit of an unmarked node marks one node more. -/
theorem size_marks_visit {g : Digraph α} (h : v ∉ s.marks) :
    (s.visit g v).marks.size = s.marks.size + 1 := by
  simp [visit, Std.ExtTreeMap.size_insert, h]

/-- A complete component takes no suspended visit away. -/
@[simp] theorem callers_detach : (s.detach v).callers = s.callers := rfl

/-- A complete component takes no unexplored edge away. -/
@[simp] theorem unexplored_detach {a b : α} :
    (s.detach v).Unexplored a b ↔ s.Unexplored a b := Iff.rfl

/-- The members of a complete component stay visited. -/
@[simp] theorem mem_marks_detach : u ∈ (s.detach v).marks ↔ u ∈ s.marks := mem_close

theorem size_marks_detach : (s.detach v).marks.size = s.marks.size := size_close

end visited

/-! ## steps -/

variable [DecidableEq α]

/-- The fresh node that the next step visits, if it visits any: the next root, or the next
successor of the innermost visit. -/
def visiting (s : Search α) : Option α :=
  match s.calls with
  | [] => s.fresh.head?
  | (_, []) :: _ => none
  | (_, w :: _) :: _ => if w ∈ s.fresh then some w else none

omit [Std.TransOrd α] in
/-- What a step visits was not visited before. -/
theorem mem_fresh_of_visiting {s : Search α} {w : α} (h : s.visiting = some w) : w ∈ s.fresh := by
  unfold visiting at h
  split at h
  · exact List.mem_of_head? h
  · simp at h
  · split at h
    · next hw => exact Option.some.inj h ▸ hw
    · simp at h

/-- All that a step can do: visit a node, which is the next root or the next
successor of the innermost visit; look at a visited successor; or end the visit. -/
theorem step_cases {g : Digraph α} {s t : Search α} (h : s.step g = some t) :
    (∃ w calls, s.Approaches w calls ∧ s.visiting = some w ∧ t = (s.withCalls calls).visit g w) ∨
      s.visiting = none ∧
        ((∃ v w calls, s.Approaches w calls ∧ s.callers.head? = some v ∧ w ∉ s.fresh ∧
          t = (s.withCalls calls).look v w) ∨
        ∃ v outer, s.calls = (v, []) :: outer ∧ t = s.finish v outer) := by
  unfold step at h
  unfold visiting
  split at h
  · next hc =>
      rw [hc]
      split at h
      · simp at h
      · next root rest hf =>
          obtain rfl := Option.some.inj h
          exact .inl ⟨root, s.calls, approaches_root hc, by rw [hf, List.head?_cons], rfl⟩
  · next v w ws outer hc =>
      obtain rfl := Option.some.inj h
      have ahead := approaches_successor hc
      rw [hc]
      by_cases hw : w ∈ s.fresh
      · exact .inl ⟨w, _, ahead, if_pos hw, by rw [if_pos hw]; rfl⟩
      · exact .inr ⟨if_neg hw, .inl ⟨v, w, _, ahead, head?_callers hc, hw, by rw [if_neg hw]; rfl⟩⟩
  · next v outer hc =>
      obtain rfl := Option.some.inj h
      rw [hc]
      exact .inr ⟨rfl, .inr ⟨v, outer, rfl, rfl⟩⟩

/-- The search ends when no visit is suspended and no node is left to try. -/
theorem step_eq_none_iff {g : Digraph α} {s : Search α} :
    s.step g = none ↔ s.calls = [] ∧ s.fresh = [] := by
  unfold step
  split
  · next hc => split <;> simp_all
  · simp_all
  · simp_all

/-- A visited node hands its low index on, and where that is its own index, it
detaches its component. -/
theorem finish_eq {s : Search α} {v : α} {outer : List (α × List α)} (hv : v ∈ s.marks) :
    s.finish v outer =
      if s.low v = s.index v then (s.goBack outer (s.low v)).detach v
      else s.goBack outer (s.low v) := by
  unfold finish low index
  cases hm : s.marks[v]? with
  | none => simp [Std.ExtTreeMap.mem_iff_isSome_getElem?, hm] at hv
  | some m => rfl

/-! ## visiting -/

section visit

variable {g : Digraph α} {s : Search α} {v u w : α}

/-- A new visit is the innermost one. -/
@[simp] theorem callers_visit : (s.visit g v).callers = v :: s.callers := rfl

/-- A new visit has all edges of its node to explore. -/
theorem unexplored_visit :
    (s.visit g v).Unexplored u w ↔ (u = v ∧ g.Edge v w) ∨ s.Unexplored u w := by
  simp only [Unexplored, visit, List.mem_cons, Digraph.Edge]
  grind

/-- The visits that were suspended before the search went on to a node are around its visit. -/
theorem Approaches.callers_visit {calls : List (α × List α)}
    (ahead : s.Approaches w calls) :
    ((s.withCalls calls).visit g w).callers = w :: s.callers := by
  rw [Search.callers_visit]
  exact congrArg _ ahead.callers

/-- An edge that leads elsewhere is still to be explored. -/
theorem Approaches.unexplored_visit {calls : List (α × List α)}
    (ahead : s.Approaches w calls) {a b : α} (hab : s.Unexplored a b) (hb : b ≠ w) :
    ((s.withCalls calls).visit g w).Unexplored a b := by
  cases (ahead.unexplored a b).mp hab with
  | inl followed => exact absurd followed.2 hb
  | inr hab => exact Search.unexplored_visit.mpr (.inr hab)

variable [Std.LawfulEqOrd α]

/-- A visit marks its node, with the number of nodes visited before as both indices. -/
theorem getElem?_marks_visit : (s.visit g v).marks[u]? =
    if u = v then some ⟨s.marks.size, s.marks.size, true⟩ else s.marks[u]? := by
  rw [visit, Std.ExtTreeMap.getElem?_insert]
  by_cases h : u = v
  · simp [h]
  · simp [h, Ne.symm h]

/-- Besides what was visited before, a visit marks just its node. -/
@[simp] theorem mem_marks_visit : u ∈ (s.visit g v).marks ↔ u = v ∨ u ∈ s.marks := by
  rw [Std.ExtTreeMap.mem_iff_isSome_getElem?, getElem?_marks_visit,
    Std.ExtTreeMap.mem_iff_isSome_getElem?]
  by_cases h : u = v <;> simp [h]

/-- The node of a visit is numbered next, and all others keep their index. -/
@[simp] theorem index_visit :
    (s.visit g v).index u = if u = v then s.marks.size else s.index u := by
  rw [index, getElem?_marks_visit]
  split <;> rfl

/-- The low index of the node of a visit starts as its index. -/
@[simp] theorem low_visit : (s.visit g v).low u = if u = v then s.marks.size else s.low u := by
  rw [low, getElem?_marks_visit]
  split <;> rfl

/-- A visit puts its node on the stack. -/
@[simp] theorem onStack_visit :
    (s.visit g v).onStack u = if u = v then true else s.onStack u := by
  rw [onStack, getElem?_marks_visit]
  split <;> rfl

end visit

/-! ## lowering -/

section lower

variable [Std.LawfulEqOrd α] {s t : Search α} {v w u : α} {outer : List (α × List α)}
  {bound : Nat}

/-- Lowering concerns the low index of a single node. -/
theorem getElem?_lower {marks : Std.ExtTreeMap α Mark compare} : (lower marks v bound)[u]? =
    if u = v then marks[u]?.map fun m => { m with low := min m.low bound } else marks[u]? := by
  rw [lower, Std.ExtTreeMap.getElem?_modify]
  by_cases h : u = v
  · subst h; simp
  · simp [h, Ne.symm h]

/-- Lowering changes no visiting index. -/
theorem index_of_lower (ht : t.marks = lower s.marks v bound) : t.index u = s.index u := by
  rw [index, index, ht, getElem?_lower]
  split <;> cases s.marks[u]? <;> rfl

/-- Lowering takes no node off the stack. -/
theorem onStack_of_lower (ht : t.marks = lower s.marks v bound) :
    t.onStack u = s.onStack u := by
  rw [onStack, onStack, ht, getElem?_lower]
  split <;> cases s.marks[u]? <;> rfl

/-- The low index of the node is lowered to the bound, if it was above. -/
theorem low_of_lower (ht : t.marks = lower s.marks v bound) :
    t.low u = if u = v then min (s.low u) bound else s.low u := by
  rw [low, low, ht, getElem?_lower]
  split <;> cases s.marks[u]? <;> simp

/-- Looking at an edge changes no visiting index. -/
@[simp] theorem index_look : (s.look v w).index u = s.index u := by
  rw [look_eq]
  split
  · exact index_of_lower rfl
  · rfl

/-- Looking at an edge takes no node off the stack. -/
@[simp] theorem onStack_look : (s.look v w).onStack u = s.onStack u := by
  rw [look_eq]
  split
  · exact onStack_of_lower rfl
  · rfl

/-- An edge to a node on the stack lowers the low index of its source to the index of that node. -/
theorem low_look : (s.look v w).low u =
    if u = v ∧ s.onStack w then min (s.low u) (s.index w) else s.low u := by
  rw [look_eq]
  cases hw : s.onStack w with
  | false => simp
  | true => simpa using low_of_lower (s := s) (u := u) rfl

/-- A return changes no visiting index. -/
@[simp] theorem index_goBack : (s.goBack outer bound).index u = s.index u := by
  cases outer with
  | nil => rfl
  | cons call outer => exact index_of_lower rfl

/-- A return takes no node off the stack. -/
@[simp] theorem onStack_goBack : (s.goBack outer bound).onStack u = s.onStack u := by
  cases outer with
  | nil => rfl
  | cons call outer => exact onStack_of_lower rfl

/-- A return hands its bound to the visit that goes on, and to no other one. -/
theorem low_goBack : (s.goBack outer bound).low u =
    if (outer.map (·.1)).head? = some u then min (s.low u) bound else s.low u := by
  cases outer with
  | nil => simp [goBack, low]
  | cons call outer =>
      have lowered : (s.goBack (call :: outer) bound).low u =
          if u = call.1 then min (s.low u) bound else s.low u := low_of_lower rfl
      rw [lowered]
      simp [eq_comm]

end lower

/-! ## detaching -/

section detach

variable [Std.LawfulEqOrd α] {s : Search α} {v u : α}

/-- Taking nodes off the stack changes just that mark of theirs. -/
theorem getElem?_close {marks : Std.ExtTreeMap α Mark compare} {members : List α} :
    (close marks members)[u]? =
      if u ∈ members then marks[u]?.map fun m => { m with onStack := false } else marks[u]? := by
  induction members generalizing marks with
  | nil => simp [close]
  | cons w rest ih =>
      rw [close_cons, ih, Std.ExtTreeMap.getElem?_modify]
      by_cases h : u = w
      · subst h
        by_cases hr : u ∈ rest <;> cases marks[u]? <;> simp [hr]
      · simp [h, Ne.symm h]

/-- A complete component changes no visiting index. -/
@[simp] theorem index_detach : (s.detach v).index u = s.index u := by
  rw [index, index, detach, getElem?_close]
  split <;> cases s.marks[u]? <;> rfl

/-- A complete component changes no low index. -/
@[simp] theorem low_detach : (s.detach v).low u = s.low u := by
  rw [low, low, detach, getElem?_close]
  split <;> cases s.marks[u]? <;> rfl

/-- The members of the component leave the stack, and no other node does. -/
theorem onStack_detach : (s.detach v).onStack u =
    if u ∈ (popThrough v s.stack).1 then false else s.onStack u := by
  rw [onStack, onStack, detach, getElem?_close]
  split <;> cases s.marks[u]? <;> rfl

end detach

end Search

end LRGrammar
