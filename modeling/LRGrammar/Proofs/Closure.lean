import LRGrammar.Digraph.Closure
import LRGrammar.Digraph.Path

/-!
# LRGrammar.Proofs.Closure

The exploration of a graph expands the nodes that its roots lead to, and no others.
A node is *held* while it waits or after it was expanded.  No step loses a held
node, and a step comes to hold only successors of held ones; expanding a node makes
the exploration hold all its successors (`Exploration.Sound`).  When no node waits
any more, the expanded nodes are closed under successors.

* `Exploration.step_cases` — all that one step can do;
* `Exploration.Sound.step` — what every step keeps, for any successor function;
* `Digraph.mem_closure` — the closure holds exactly the nodes that a root leads to.
-/

namespace LRGrammar

namespace Exploration

variable {α : Type} [DecidableEq α] {successors : α → List α} {roots : List α}
variable {s t : Exploration α} {v w : α}

/-- A step takes the uppermost node off the stack; if the node was not expanded before,
it is expanded, and its successors are put on the stack. -/
theorem step_cases (h : s.step successors = some t) :
    ∃ v rest, s.pending = v :: rest ∧
      (v ∈ s.expanded ∧ t = ⟨rest, s.expanded⟩ ∨
        v ∉ s.expanded ∧
          t = ⟨((successors v).filter fun w => w ∉ s.expanded).reverse ++ rest,
            v :: s.expanded⟩) := by
  unfold step at h
  split at h
  · contradiction
  · next v rest hpending =>
      refine ⟨v, rest, hpending, ?_⟩
      split at h
      · next hv => exact .inl ⟨hv, (Option.some.inj h).symm⟩
      · next hv => exact .inr ⟨hv, (Option.some.inj h).symm⟩

theorem step_eq_none_iff : s.step successors = none ↔ s.pending = [] := by
  unfold step
  split
  · simp [*]
  · split <;> simp [*]

/-- The node waits or was expanded. -/
def Holds (s : Exploration α) (v : α) : Prop := v ∈ s.pending ∨ v ∈ s.expanded

omit [DecidableEq α] in
theorem holds_start : (start roots).Holds v ↔ v ∈ roots := by
  simp [Holds, start]

/-- No step loses a node. -/
theorem Holds.step (hv : s.Holds v) (h : s.step successors = some t) : t.Holds v := by
  obtain ⟨u, rest, hpending, ⟨hu, rfl⟩ | ⟨hu, rfl⟩⟩ := step_cases h <;>
    simp only [Holds, hpending, List.mem_cons, List.mem_append] at hv ⊢ <;> grind

/-- What a step comes to hold is a successor of what was held. -/
theorem Holds.of_step (hv : t.Holds v) (h : s.step successors = some t) :
    s.Holds v ∨ ∃ u, s.Holds u ∧ v ∈ successors u := by
  obtain ⟨u, rest, hpending, ⟨hu, rfl⟩ | ⟨hu, rfl⟩⟩ := step_cases h
  · exact .inl (hv.imp_left fun hv => by simp [hpending, hv])
  · have held : s.Holds u := .inl (by simp [hpending])
    simp only [Holds, hpending, List.mem_cons, List.mem_append, List.mem_reverse,
      List.mem_filter] at hv ⊢
    grind [Holds]

/-- A step holds every successor of the nodes that it leaves expanded. -/
theorem holds_successor_of_step (hs : ∀ v ∈ s.expanded, ∀ w ∈ successors v, s.Holds w)
    (h : s.step successors = some t) : ∀ v ∈ t.expanded, ∀ w ∈ successors v, t.Holds w := by
  have kept {w : α} (hw : s.Holds w) : t.Holds w := hw.step h
  obtain ⟨u, rest, hpending, ⟨hu, rfl⟩ | ⟨hu, rfl⟩⟩ := step_cases h
  · exact fun v hv w hw => kept (hs v hv w hw)
  · intro v hv w hw
    rcases List.mem_cons.mp hv with rfl | hv
    · by_cases hexpanded : w ∈ s.expanded
      · exact .inr (List.mem_cons_of_mem v hexpanded)
      · exact .inl (by simp [hw, hexpanded])
    · exact kept (hs v hv w hw)

/-- Some steps to successors lead from `v` to `w`. -/
def LeadsTo (successors : α → List α) : α → α → Prop :=
  Relation.ReflTransGen fun v w => w ∈ successors v

/-- What holds before every step of the exploration from the roots. -/
structure Sound (successors : α → List α) (roots : List α) (s : Exploration α) : Prop where
  reached : ∀ v, s.Holds v → ∃ root ∈ roots, LeadsTo successors root v
  holds_root : ∀ root ∈ roots, s.Holds root
  holds_successor : ∀ v ∈ s.expanded, ∀ w ∈ successors v, s.Holds w

omit [DecidableEq α] in
theorem sound_start (successors : α → List α) (roots : List α) :
    Sound successors roots (start roots) where
  reached v hv := ⟨v, holds_start.mp hv, .refl⟩
  holds_root _ hroot := holds_start.mpr hroot
  holds_successor _ hv := absurd hv List.not_mem_nil

theorem Sound.step (hs : Sound successors roots s) (h : s.step successors = some t) :
    Sound successors roots t where
  reached v hv := by
    rcases hv.of_step h with hv | ⟨u, hu, hv⟩
    · exact hs.reached v hv
    · obtain ⟨root, hroot, path⟩ := hs.reached u hu
      exact ⟨root, hroot, path.tail hv⟩
  holds_root root hroot := (hs.holds_root root hroot).step h
  holds_successor := holds_successor_of_step hs.holds_successor h

omit [DecidableEq α] in
/-- When no node waits any more, the expanded nodes are those that a root leads to. -/
theorem Sound.mem_expanded_iff (hs : Sound successors roots s) (hdone : s.pending = []) :
    v ∈ s.expanded ↔ ∃ root ∈ roots, LeadsTo successors root v := by
  have held_iff (w : α) : s.Holds w ↔ w ∈ s.expanded := by simp [Holds, hdone]
  constructor
  · intro hv
    exact hs.reached v (.inr hv)
  · intro ⟨root, hroot, path⟩
    induction path with
    | refl => exact (held_iff root).mp (hs.holds_root root hroot)
    | tail _ hw ih => exact (held_iff _).mp (hs.holds_successor _ ih _ hw)

end Exploration

namespace Digraph

variable {α : Type} [DecidableEq α] {g : Digraph α} {roots : List α} {v : α}

/-- The closure of some roots holds exactly the nodes that a root leads to. -/
theorem mem_closure : v ∈ g.closure roots ↔ ∃ root ∈ roots, g.Reaches root v := by
  have hsound : Exploration.Sound g.successors roots (g.exploration.run (.start roots)) :=
    Machine.run_of_invariant (fun _ _ hs h => hs.step h) (Exploration.sound_start g.successors roots)
  have hdone : (g.exploration.run (.start roots)).pending = [] :=
    Exploration.step_eq_none_iff.mp (g.exploration.step_run _)
  rw [closure, List.mem_reverse]
  exact hsound.mem_expanded_iff hdone

end Digraph

end LRGrammar
