/-!
# LRGrammar.Machine

A loop, as a step that is taken until there is none left to take.  A weight that
falls at every step bounds the loop, whatever state it starts from.

* `Machine.step_run` — a run ends where no step is left;
* `Machine.getLast?_states` — the run ends in the last of its states;
* `Machine.run_of_invariant` — what every step keeps, the run keeps;
* `Machine.length_states_le` — a run takes at most as many steps as its first state weighs.
-/

namespace LRGrammar

/-- A step that can be taken only finitely often. -/
structure Machine (σ : Type) where
  /-- The next state, or `none` where the loop ends. -/
  step : σ → Option σ
  /-- A bound on the number of steps that are left. -/
  weight : σ → Nat
  weight_lt : ∀ {s t : σ}, step s = some t → weight t < weight s

namespace Machine

variable {σ : Type}

/-- The state in which the loop ends. -/
def run (m : Machine σ) (s : σ) : σ :=
  match _h : m.step s with
  | none => s
  | some t => m.run t
termination_by m.weight s
decreasing_by exact m.weight_lt ‹_›

/-- The states in which the loop stands before each step, the last one included. -/
def states (m : Machine σ) (s : σ) : List σ :=
  match _h : m.step s with
  | none => [s]
  | some t => s :: m.states t
termination_by m.weight s
decreasing_by exact m.weight_lt ‹_›

/-- A run without a step ends where it begins. -/
theorem run_of_none {m : Machine σ} {s : σ} (h : m.step s = none) : m.run s = s := by
  rw [run]; split <;> simp_all

/-- A run ends where it ends after its first step. -/
theorem run_of_some {m : Machine σ} {s t : σ} (h : m.step s = some t) : m.run s = m.run t := by
  rw [run]; split <;> simp_all

theorem states_of_none {m : Machine σ} {s : σ} (h : m.step s = none) : m.states s = [s] := by
  rw [states]; split <;> simp_all

theorem states_of_some {m : Machine σ} {s t : σ} (h : m.step s = some t) :
    m.states s = s :: m.states t := by
  rw [states]; split <;> simp_all

/-! ## what a run keeps -/

/-- A run ends in a state without a step. -/
theorem step_run (m : Machine σ) (s : σ) : m.step (m.run s) = none := by
  fun_induction m.run s with
  | case1 s h => exact h
  | case2 s t h ih => exact ih

/-- A property that every step keeps holds in every state of a run. -/
theorem states_of_invariant {m : Machine σ} {P : σ → Prop}
    (keep : ∀ s t, P s → m.step s = some t → P t) {s : σ} (start : P s) :
    ∀ t ∈ m.states s, P t := by
  fun_induction m.states s with
  | case1 s h => simpa using start
  | case2 s t h ih => simpa [start] using ih (keep s t start h)

/-- The state in which the run ends is one of its states. -/
theorem run_mem_states (m : Machine σ) (s : σ) : m.run s ∈ m.states s := by
  fun_induction m.run s with
  | case1 s h => simp [states_of_none h]
  | case2 s t h ih => simp [states_of_some h, ih]

/-- The state in which the run ends is the last of its states. -/
theorem getLast?_states (m : Machine σ) (s : σ) : (m.states s).getLast? = some (m.run s) := by
  fun_induction m.run s with
  | case1 s h => rw [states_of_none h, List.getLast?_singleton]
  | case2 s t h ih => rw [states_of_some h, List.getLast?_cons, ih, Option.getD_some]

/-- A property that every step keeps holds where the run ends. -/
theorem run_of_invariant {m : Machine σ} {P : σ → Prop}
    (keep : ∀ s t, P s → m.step s = some t → P t) {s : σ} (start : P s) : P (m.run s) :=
  states_of_invariant keep start _ (m.run_mem_states s)

/-- A run has at most one state more than the weight of the first one. -/
theorem length_states_le (m : Machine σ) (s : σ) : (m.states s).length ≤ m.weight s + 1 := by
  fun_induction m.states s with
  | case1 s h => simp
  | case2 s t h ih => have := m.weight_lt h; simp only [List.length_cons]; omega

end Machine

end LRGrammar
