import LRGrammar.Proofs.Closure
import Mathlib.Data.Finset.Card
import Mathlib.Data.Set.Finite.Basic

/-!
# LRGrammar.Proofs.Exploration

What an exploration asks for.  A step asks for the successors of one node at most, and knows
of the successors only what it asks for.  From its roots on an exploration asks for the
successors of each node that they lead to, once, and of no other node.  It ends whenever
these nodes are finitely many: a step uses up one of them, or else shortens the stack.

* `Exploration.step_congr`, `Exploration.asks_eq_some_iff` — what a step depends on;
* `Exploration.Explores.expanded_eq` — what is asked for is what is expanded;
* `Exploration.remaining_lt_of_step`, `Exploration.exists_explores` — why it ends;
* `Exploration.explores_of_finite` — all this of an exploration from some roots;
* `Digraph.explores_closure` — the exploration of a finite graph.
-/

namespace LRGrammar

namespace Exploration

variable {α : Type} [DecidableEq α] {successors other : α → List α} {asked asked' : List α}
variable {s t last last' : Exploration α} {v : α}

/-! ## what a step asks for -/

/-- The node whose successors the next step asks for, if it asks for any: the uppermost one,
unless that was expanded before. -/
def asks (s : Exploration α) : Option α := s.pending.head?.filter fun v => v ∉ s.expanded

theorem asks_of_mem {rest : List α} (hpending : s.pending = v :: rest) (hv : v ∈ s.expanded) :
    s.asks = none := by
  simp [asks, hpending, hv]

theorem asks_of_not_mem {rest : List α} (hpending : s.pending = v :: rest)
    (hv : v ∉ s.expanded) : s.asks = some v := by
  simp [asks, hpending, hv]

/-- A step knows of the successors only what it asks for. -/
theorem step_congr (h : ∀ v, s.asks = some v → successors v = other v) :
    s.step successors = s.step other := by
  unfold step
  split
  · rfl
  · next v rest hpending =>
      split
      · rfl
      · next hv => rw [h v (asks_of_not_mem hpending hv)]

/-- A step asks for the successors of the one node on whose successors it depends. -/
theorem asks_eq_some_iff :
    s.asks = some v ↔
      ∃ one another : α → List α, (∀ u ≠ v, one u = another u) ∧ s.step one ≠ s.step another := by
  constructor
  · intro hasks
    obtain ⟨hhead, hv⟩ := Option.filter_eq_some_iff.mp hasks
    obtain ⟨rest, hpending⟩ := List.head?_eq_some_iff.mp hhead
    have hv : v ∉ s.expanded := of_decide_eq_true hv
    -- once the node has no successor, and once itself
    refine ⟨fun _ => [], fun u => if u = v then [v] else [], fun u hu => (if_neg hu).symm, ?_⟩
    simp [step, hpending, hv]
  · rintro ⟨one, another, hsame, hdiffer⟩
    by_contra hasks
    refine hdiffer (step_congr fun u hu => hsame u ?_)
    rintro rfl
    exact hasks hu

/-- What a step asks for is what it expands. -/
theorem expanded_of_step (h : s.step successors = some t) :
    t.expanded = s.asks.toList.reverse ++ s.expanded := by
  obtain ⟨v, rest, hpending, ⟨hv, rfl⟩ | ⟨hv, rfl⟩⟩ := step_cases h
  · rw [asks_of_mem hpending hv]
    rfl
  · rw [asks_of_not_mem hpending hv]
    rfl

theorem nodup_expanded_of_step (hs : s.expanded.Nodup) (h : s.step successors = some t) :
    t.expanded.Nodup := by
  obtain ⟨v, rest, hpending, ⟨hv, rfl⟩ | ⟨hv, rfl⟩⟩ := step_cases h
  · exact hs
  · exact List.nodup_cons.mpr ⟨hv, hs⟩

/-! ## what a run asks for -/

/-- From the first state on the exploration asks for the successors of the listed nodes, in
this order, and then ends in the last state. -/
inductive Explores (successors : α → List α) :
    Exploration α → List α → Exploration α → Prop where
  | done {s : Exploration α} (h : s.step successors = none) : Explores successors s [] s
  | next {s t last : Exploration α} {asked : List α} (h : s.step successors = some t)
      (rest : Explores successors t asked last) :
      Explores successors s (s.asks.toList ++ asked) last

namespace Explores

theorem pending_eq_nil (h : Explores successors s asked last) : last.pending = [] := by
  induction h with
  | done hdone => exact step_eq_none_iff.mp hdone
  | next _ _ ih => exact ih

/-- What every step keeps, the exploration keeps. -/
theorem invariant {P : Exploration α → Prop}
    (keep : ∀ s t, P s → s.step successors = some t → P t)
    (h : Explores successors s asked last) (start : P s) : P last := by
  induction h with
  | done _ => exact start
  | next hstep _ ih => exact ih (keep _ _ start hstep)

/-- What is asked for is expanded, the latest first. -/
theorem expanded_eq (h : Explores successors s asked last) :
    last.expanded = asked.reverse ++ s.expanded := by
  induction h with
  | done _ => rfl
  | next hstep _ ih =>
      rw [ih, expanded_of_step hstep, List.reverse_append, List.append_assoc]

/-- There is one way for the exploration to go on. -/
theorem unique (h : Explores successors s asked last) (h' : Explores successors s asked' last') :
    asked' = asked ∧ last' = last := by
  induction h generalizing asked' last' with
  | done hdone =>
      cases h' with
      | done _ => exact ⟨rfl, rfl⟩
      | next hstep _ =>
          rw [hdone] at hstep
          contradiction
  | next hstep _ ih =>
      cases h' with
      | done hdone =>
          rw [hdone] at hstep
          contradiction
      | next hstep' rest' =>
          obtain rfl := Option.some.inj (hstep.symm.trans hstep')
          obtain ⟨rfl, rfl⟩ := ih rest'
          exact ⟨rfl, rfl⟩

/-- Successors that are not asked for make no difference. -/
theorem congr (h : Explores successors s asked last)
    (hsame : ∀ v ∈ asked, other v = successors v) : Explores other s asked last := by
  induction h with
  | done hdone => exact .done (step_eq_none_iff.mpr (step_eq_none_iff.mp hdone))
  | next hstep _ ih =>
      rw [List.forall_mem_append] at hsame
      refine .next ?_ (ih hsame.2)
      rw [← hstep]
      exact step_congr fun v hv => hsame.1 v (by simp [hv])

end Explores

/-! ## why it ends -/

/-- The nodes that were not expanded, and the nodes that wait. -/
def remaining (nodes : Finset α) (s : Exploration α) : Nat × Nat :=
  ((nodes.filter (· ∉ s.expanded)).card, s.pending.length)

/-- A step expands one of the nodes, whatever it then puts on the stack, or takes a node off
the stack. -/
theorem remaining_lt_of_step {nodes : Finset α} (hs : ∀ v ∈ s.pending, v ∈ nodes)
    (h : s.step successors = some t) :
    Prod.Lex (· < ·) (· < ·) (t.remaining nodes) (s.remaining nodes) := by
  obtain ⟨v, rest, hpending, ⟨hv, rfl⟩ | ⟨hv, rfl⟩⟩ := step_cases h
  -- a node that was expanded before is only taken off the stack
  · refine .right _ ?_
    rw [hpending]
    exact Nat.lt_succ_self rest.length
  · refine .left _ _ (Finset.card_lt_card ?_)
    rw [Finset.ssubset_iff_of_subset ?_]
    · have hnode : v ∈ nodes := hs v (by simp [hpending])
      exact ⟨v, by simp [hnode, hv], by simp⟩
    · intro u hu
      simp only [Finset.mem_filter, List.mem_cons, not_or] at hu ⊢
      exact ⟨hu.1, hu.2.2⟩

theorem mem_nodes_of_step {nodes : Finset α} (closed : ∀ v ∈ nodes, ∀ w ∈ successors v, w ∈ nodes)
    (hs : ∀ v ∈ s.pending, v ∈ nodes) (h : s.step successors = some t) :
    ∀ v ∈ t.pending, v ∈ nodes := by
  obtain ⟨v, rest, hpending, ⟨hv, rfl⟩ | ⟨hv, rfl⟩⟩ := step_cases h <;>
    rw [hpending, List.forall_mem_cons] at hs
  · exact hs.2
  · intro w hw
    rcases List.mem_append.mp hw with hw | hw
    · exact closed v hs.1 w (List.mem_of_mem_filter (List.mem_reverse.mp hw))
    · exact hs.2 w hw

/-- Among finitely many nodes that no successor leads out of, every exploration ends. -/
theorem exists_explores {nodes : Finset α}
    (closed : ∀ v ∈ nodes, ∀ w ∈ successors v, w ∈ nodes) (s : Exploration α)
    (hs : ∀ v ∈ s.pending, v ∈ nodes) : ∃ asked last, Explores successors s asked last := by
  cases hstep : s.step successors with
  | none => exact ⟨[], s, .done hstep⟩
  | some t =>
      obtain ⟨asked, last, rest⟩ := exists_explores closed t (mem_nodes_of_step closed hs hstep)
      exact ⟨_, last, .next hstep rest⟩
termination_by s.remaining nodes
decreasing_by exact remaining_lt_of_step hs hstep

end Exploration

namespace Digraph

variable {α : Type} [DecidableEq α]

open Exploration

theorem exists_explores_run (g : Digraph α) (s : Exploration α) :
    ∃ asked, Explores g.successors s asked (g.exploration.run s) := by
  fun_induction g.exploration.run s with
  | case1 s h => exact ⟨[], .done h⟩
  | case2 s t h ih =>
      obtain ⟨asked, rest⟩ := ih
      exact ⟨_, .next h rest⟩

/-- The closure of some roots lists what the exploration from them asks for, in order. -/
theorem explores_closure (g : Digraph α) (roots : List α) :
    Explores g.successors (start roots) (g.closure roots) (g.exploration.run (start roots)) := by
  obtain ⟨asked, run⟩ := g.exists_explores_run (start roots)
  have hclosure : g.closure roots = asked := by
    rw [closure, run.expanded_eq]
    exact (congrArg List.reverse (List.append_nil _)).trans (List.reverse_reverse asked)
  rwa [hclosure]

end Digraph

/-! ## main results -/

namespace Exploration

variable {α : Type} [DecidableEq α] {successors : α → List α} {roots asked : List α}
variable {last : Exploration α} {v : α}

theorem Explores.mem_expanded_iff (h : Explores successors (start roots) asked last) :
    v ∈ last.expanded ↔ ∃ root ∈ roots, LeadsTo successors root v :=
  (h.invariant (fun _ _ hs hstep => hs.step hstep)
    (sound_start successors roots)).mem_expanded_iff h.pending_eq_nil

/-- From the roots on, all that is expanded was asked for. -/
theorem Explores.expanded_eq_reverse (h : Explores successors (start roots) asked last) :
    last.expanded = asked.reverse :=
  h.expanded_eq.trans (List.append_nil asked.reverse)

theorem Explores.nodup (h : Explores successors (start roots) asked last) : asked.Nodup := by
  have hexpanded : last.expanded.Nodup :=
    h.invariant (fun _ _ hs hstep => nodup_expanded_of_step hs hstep) List.nodup_nil
  rwa [h.expanded_eq_reverse, List.nodup_reverse] at hexpanded

/-- **An exploration asks once for the successors of each node that its roots lead to.**  Where
these nodes are finitely many, the exploration ends, and in one way only.  It has expanded
just these nodes then, and has asked for the successors of each of them once and of no
other node: other successors elsewhere make no difference to it.  Over a finite graph the
closure of the roots lists them in the order in which they were asked for. -/
theorem explores_of_finite (successors : α → List α) (roots : List α)
    (hfinite : {v | ∃ root ∈ roots, LeadsTo successors root v}.Finite) :
    ∃ asked last, Explores successors (start roots) asked last ∧
      (∀ asked' last', Explores successors (start roots) asked' last' →
        asked' = asked ∧ last' = last) ∧
      (∀ v, v ∈ last.expanded ↔ ∃ root ∈ roots, LeadsTo successors root v) ∧
      asked.Nodup ∧ (∀ v, v ∈ asked ↔ v ∈ last.expanded) ∧
      (∀ other : α → List α, (∀ v ∈ asked, other v = successors v) →
        Explores other (start roots) asked last) ∧
      ∀ g : Digraph α, g.successors = successors → g.closure roots = asked := by
  have closed : ∀ v ∈ hfinite.toFinset, ∀ w ∈ successors v, w ∈ hfinite.toFinset := by
    intro v hv w hw
    rw [Set.Finite.mem_toFinset] at hv ⊢
    obtain ⟨root, hroot, path⟩ := hv
    exact ⟨root, hroot, path.tail hw⟩
  have hroots : ∀ v ∈ (start roots).pending, v ∈ hfinite.toFinset := by
    intro v hv
    rw [Set.Finite.mem_toFinset]
    exact ⟨v, List.mem_reverse.mp hv, .refl⟩
  obtain ⟨asked, last, run⟩ := exists_explores closed (start roots) hroots
  refine ⟨asked, last, run, fun _ _ => run.unique, fun _ => run.mem_expanded_iff, run.nodup,
    fun v => ?_, fun other => run.congr, ?_⟩
  · rw [run.expanded_eq_reverse, List.mem_reverse]
  · rintro g rfl
    exact (run.unique (g.explores_closure roots)).1

/-- Three numbers and one more with no successor; from `4` on there is no end. -/
def threeOrEndless (n : Nat) : List Nat :=
  if n < 3 then [n + 1, n, 0] else if n = 3 then [] else [n + 1]

/-- From `0` and `2` the exploration ends, and it never asks for the successors of `4`. -/
theorem explores_of_finite_threeOrEndless :
    {v | ∃ root ∈ [0, 2], LeadsTo threeOrEndless root v}.Finite ∧
      ∃ asked last, Explores threeOrEndless (start [0, 2]) asked last ∧
        asked.Nodup ∧ 3 ∈ asked ∧ 4 ∉ asked := by
  have keep : ∀ v, v ≤ 3 → ∀ w ∈ threeOrEndless v, w ≤ 3 := by decide
  have bounded : ∀ v, (∃ root ∈ [0, 2], LeadsTo threeOrEndless root v) → v ≤ 3 := by
    rintro v ⟨root, hroot, path⟩
    have hstart : root ≤ 3 := by
      simp only [List.mem_cons, List.not_mem_nil, or_false] at hroot
      omega
    induction path with
    | refl => exact hstart
    | tail _ hw ih => exact keep _ ih _ hw
  have hfinite : {v | ∃ root ∈ [0, 2], LeadsTo threeOrEndless root v}.Finite :=
    (Set.finite_le_nat 3).subset bounded
  obtain ⟨asked, last, run, -, reached, hnodup, same, -⟩ :=
    explores_of_finite threeOrEndless [0, 2] hfinite
  refine ⟨hfinite, asked, last, run, hnodup, ?_, ?_⟩
  · exact (same 3).mpr ((reached 3).mpr ⟨2, by decide, .single (by decide)⟩)
  · intro hmem
    exact absurd (bounded 4 ((reached 4).mp ((same 4).mp hmem))) (by decide)

end Exploration

end LRGrammar
