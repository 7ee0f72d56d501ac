import LRGrammar.Proofs.Consistency

/-!
# LRGrammar.Proofs.Acceptance

One declaration, told by its conditions and its effect.  A declaration is accepted
under the conditions `Grammar.Accepts`; then the declarer is told
`Grammar.receiptFor` and the grammar becomes `Grammar.grownBy`.  Otherwise nothing
changes.

* `Grammar.declare_eq_ok_iff_accepts` — the three together are what `declare` does;
* `Grammar.after_of_accepts`, `Grammar.after_of_not_accepts` — the grammar after a
  declaration.
-/

namespace LRGrammar

namespace Grammar

variable {ο : Type} {g : Grammar ο} {d : Declaration ο}

/-! ## conditions and effect -/

/-- A start symbol changes nothing but the start symbols. -/
theorem addStart_eq (g : Grammar ο) (s : Symbol) :
    g.addStart s = { g with starts := if s ∈ g.starts then g.starts else g.starts ++ [s] } := by
  unfold addStart
  split <;> rfl

/-- What it takes for a declaration to be accepted. -/
def Accepts (g : Grammar ο) : Declaration ο → Prop
  | .rule r => g.levelOf r.lhs = none ∧ r.action.firstBeyond r.rhs.length = none ∧
      g.findRule r.toProduction = none
  | .level _ symbols => symbols ≠ [] ∧ symbols.Nodup ∧
      ∀ s ∈ symbols, g.isNonterminal s = false ∧ g.levelOf s = none
  | .start _ => True

/-- What the declarer is told of a declaration that is accepted. -/
def receiptFor (g : Grammar ο) : Declaration ο → Receipt
  | .rule _ => .rule g.ruleCount
  | .level _ _ => .level g.precedence.size
  | .start s => .starts (g.addStart s).starts

/-- The grammar with what an accepted declaration adds to it. -/
def grownBy (g : Grammar ο) : Declaration ο → Grammar ο
  | .rule r => g.append r
  | .level tag symbols => { g with precedence := g.precedence.grown tag symbols }
  | .start s => g.addStart s

theorem declareRule_eq_ok_iff_accepts {r : Rule ο} {opened : RuleId × Grammar ο} :
    g.declareRule r = .ok opened ↔ g.Accepts (.rule r) ∧ opened = (g.ruleCount, g.append r) := by
  rw [declareRule_eq_ok_iff, Accepts, and_assoc, and_assoc]
  rfl

theorem declareLevel_eq_ok_iff_accepts {tag : Associativity} {symbols : List Symbol}
    {opened : Level × Grammar ο} :
    g.declareLevel tag symbols = .ok opened ↔ g.Accepts (.level tag symbols) ∧
      opened = (g.precedence.size, { g with precedence := g.precedence.grown tag symbols }) := by
  have owns_none_iff : symbols.find? g.isNonterminal = none ↔
      ∀ s ∈ symbols, g.isNonterminal s = false := by simp
  rw [declareLevel_eq_ok_iff, owns_none_iff]
  constructor
  · rintro ⟨hterminal, level, table, hopened, rfl⟩
    obtain ⟨hne, hnodup, hfree, heq⟩ := PrecedenceTable.declare_eq_ok_iff.mp hopened
    obtain ⟨rfl, rfl⟩ : level = _ ∧ table = _ := by simpa using heq
    exact ⟨⟨hne, hnodup, fun s hs => ⟨hterminal s hs, hfree s hs⟩⟩, rfl⟩
  · rintro ⟨⟨hne, hnodup, hfree⟩, rfl⟩
    have hopened : g.precedence.declare tag symbols =
        .ok (g.precedence.size, g.precedence.grown tag symbols) :=
      PrecedenceTable.declare_eq_ok_iff.mpr ⟨hne, hnodup, fun s hs => (hfree s hs).2, rfl⟩
    exact ⟨fun s hs => (hfree s hs).1, _, _, hopened, rfl⟩

/-- What succeeds under one condition, with one outcome, still does when the outcome is
put into another form. -/
theorem map_eq_ok_iff {ε α β : Type} {x : Except ε α} {P : Prop} {a : α} {f : α → β} {b : β}
    (h : ∀ a', x = .ok a' ↔ P ∧ a' = a) : x.map f = .ok b ↔ P ∧ b = f a := by
  cases x with
  | error fault =>
      have refused : ¬ P := fun hP => by simpa using (h a).mpr ⟨hP, rfl⟩
      simp [Except.map, refused]
  | ok a' =>
      obtain ⟨hP, rfl⟩ := (h a').mp rfl
      simp [Except.map, hP, eq_comm]

/-- A declaration is accepted under its conditions, and has its effect. -/
theorem declare_eq_ok_iff_accepts {told : Receipt × Grammar ο} :
    (g.declare d).value = .ok told ↔ g.Accepts d ∧ told = (g.receiptFor d, g.grownBy d) := by
  cases d with
  | rule r =>
      have outcome : (g.declare (.rule r)).value =
          (g.declareRule r).map fun opened => (.rule opened.1, opened.2) := by
        rw [declare]
        cases g.declareRule r <;> rfl
      rw [outcome]
      exact map_eq_ok_iff fun _ => declareRule_eq_ok_iff_accepts
  | level tag symbols =>
      have outcome : (g.declare (.level tag symbols)).value =
          (g.declareLevel tag symbols).map fun opened => (.level opened.1, opened.2) := by
        rw [declare]
        cases g.declareLevel tag symbols <;> rfl
      rw [outcome]
      exact map_eq_ok_iff fun _ => declareLevel_eq_ok_iff_accepts
  | start s => simp [declare, Accepts, receiptFor, grownBy, eq_comm]

/-- An accepted declaration has its receipt and its effect. -/
theorem declare_of_accepts (h : g.Accepts d) :
    (g.declare d).value = .ok (g.receiptFor d, g.grownBy d) :=
  declare_eq_ok_iff_accepts.mpr ⟨h, rfl⟩

/-- An accepted declaration grows the grammar. -/
theorem after_of_accepts (h : g.Accepts d) : g.after d = g.grownBy d := by
  rw [after, declare_of_accepts h]

/-- A refused declaration leaves the grammar as it is. -/
theorem after_of_not_accepts (h : ¬ g.Accepts d) : g.after d = g := by
  unfold after
  split
  · next receipt grown heq => exact absurd (declare_eq_ok_iff_accepts.mp heq).1 h
  · rfl

end Grammar

end LRGrammar
