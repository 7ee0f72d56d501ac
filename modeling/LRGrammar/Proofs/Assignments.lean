import LRGrammar.Proofs.Acceptance

/-!
# LRGrammar.Proofs.Assignments

Where the levels of the symbols come from.  A symbol has a level exactly if a level
declaration that was accepted lists it, and then the level is the one that the declarer
was told: no later declaration moves it, and no refused one gives it.

* `Grammar.told_of_accepts`, `Grammar.exists_fault_of_not_accepts` — what the declarer is
  told;
* `Grammar.levelOf_after_eq_some_iff` — the levels after one declaration;
* `Grammar.levelOf_replay_eq_some_iff`, `Grammar.listed_iff` — the levels after a history.
-/

namespace LRGrammar

namespace Grammar

variable {ο : Type} {g : Grammar ο} {d : Declaration ο} {history : List (Declaration ο)}
variable {s : Symbol} {level : Level} {fault : Fault}

/-! ## what is told -/

theorem told_of_accepts (h : g.Accepts d) :
    (g.declare d).value.map (·.1) = .ok (g.receiptFor d) := by
  rw [declare_of_accepts h]
  rfl

/-- The declarer is left with the grammar after the declaration. -/
theorem declare_eq_ok_iff_after {told : Receipt × Grammar ο} :
    (g.declare d).value = .ok told ↔ g.Accepts d ∧ told = (g.receiptFor d, g.after d) := by
  rw [declare_eq_ok_iff_accepts]
  exact and_congr_right fun h => by rw [after_of_accepts h]

/-- What is not accepted is refused with some fault. -/
theorem exists_fault_of_not_accepts (h : ¬ g.Accepts d) :
    ∃ fault, (g.declare d).value = .error fault := by
  cases hd : (g.declare d).value with
  | error fault => exact ⟨fault, rfl⟩
  | ok told => exact absurd (declare_eq_ok_iff_accepts.mp hd).1 h

/-- A refused declaration changes nothing. -/
theorem after_of_fault (h : (g.declare d).value = .error fault) : g.after d = g := by
  refine after_of_not_accepts fun haccepts => ?_
  rw [declare_of_accepts haccepts] at h
  contradiction

/-! ## levels -/

/-- The declaration lists the symbol, and its declarer was told that it opened `level`. -/
def Lists (entry : Declaration ο × Except Fault Receipt) (level : Level) (s : Symbol) : Prop :=
  ∃ tag symbols, entry = (.level tag symbols, .ok (.level level)) ∧ s ∈ symbols

/-- A declaration gives a level to the symbols that it lists, if it is accepted, and takes
none away: of those symbols, none had a level before. -/
theorem levelOf_after_eq_some_iff :
    (g.after d).levelOf s = some level ↔
      g.levelOf s = some level ∨ Lists (d, (g.declare d).value.map (·.1)) level s := by
  by_cases h : g.Accepts d
  · rw [after_of_accepts h, told_of_accepts h]
    cases d with
    | rule r => simp [Lists, grownBy, append, levelOf]
    | start s => simp [Lists, grownBy, addStart_eq, levelOf]
    | level tag symbols =>
        obtain ⟨-, -, hfree⟩ := h
        have lists_iff : Lists (ο := ο) (.level tag symbols, .ok (.level g.precedence.size)) level s ↔
            g.precedence.size = level ∧ s ∈ symbols := by
          simp [Lists]
        rw [receiptFor, lists_iff, grownBy, levelOf, PrecedenceTable.levelOf_grown]
        by_cases hlisted : s ∈ symbols
        · simp [hlisted, (hfree s hlisted).2]
        · simp [hlisted, levelOf]
  · obtain ⟨fault, hfault⟩ := exists_fault_of_not_accepts h
    rw [after_of_not_accepts h, hfault]
    simp [Lists, Except.map]

/-- After a history a symbol has the level that it had, or that a declaration gave it. -/
theorem levelOf_afterAll_eq_some_iff :
    (g.afterAll history).levelOf s = some level ↔
      g.levelOf s = some level ∨ ∃ entry ∈ g.answers history, Lists entry level s := by
  induction history generalizing g with
  | nil => simp
  | cons d later ih =>
      rw [afterAll_cons, ih, levelOf_after_eq_some_iff, answers_cons, List.exists_mem_cons_iff,
        or_assoc]

/-- Some level declaration of the history was accepted and lists the symbol. -/
def Listed (history : List (Declaration ο)) (s : Symbol) : Prop :=
  ∃ level, ∃ entry ∈ answers ∅ history, Lists entry level s

/-- The levels are those that the declarations gave. -/
theorem levelOf_replay_eq_some_iff :
    (replay history).levelOf s = some level ↔ ∃ entry ∈ answers ∅ history, Lists entry level s := by
  have empty : (∅ : Grammar ο).levelOf s = none := by
    show (∅ : SymbolMap Level)[s]? = none
    simp
  rw [replay, levelOf_afterAll_eq_some_iff, empty]
  simp

/-- The symbols with a level are the listed ones. -/
theorem listed_iff : Listed history s ↔ (replay history).levelOf s ≠ none := by
  simp only [Listed, ← levelOf_replay_eq_some_iff, ← Option.ne_none_iff_exists']

end Grammar

end LRGrammar
