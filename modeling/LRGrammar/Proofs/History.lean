import LRGrammar.Declaration

/-!
# LRGrammar.Proofs.History

What every history of declarations keeps.  A grammar is *coherent* when its set
of symbols and its index of left-hand sides tell the same as its list of rules.

* `Grammar.declareRule_eq_ok_iff`, `Grammar.declareLevel_eq_ok_iff` — when a
  declaration is accepted, and what it makes of the grammar;
* `Grammar.after_cases` — all that one declaration can do;
* `Grammar.replay_induction` — what holds of the empty grammar and survives every
  declaration holds after every history;
* `Grammar.mem_rules_replay` — every rule of a grammar was declared;
* `Grammar.coherent_replay` — every grammar that a history makes is coherent.
-/

namespace LRGrammar

namespace Grammar

variable {ο : Type}

/-! ## one declaration -/

/-- A rule is appended exactly when none of the three refusals applies. -/
theorem declareRule_eq_ok_iff {g : Grammar ο} {r : Rule ο} {receipt : RuleId × Grammar ο} :
    g.declareRule r = .ok receipt ↔
      g.precedence.levelOf r.lhs = none ∧ r.action.firstBeyond r.rhs.length = none ∧
        g.findRule r.toProduction = none ∧ receipt = (g.ruleCount, g.append r) := by
  unfold declareRule
  cases g.precedence.levelOf r.lhs with
  | some level => simp
  | none =>
      cases r.action.firstBeyond r.rhs.length with
      | some position => simp
      | none =>
          cases g.findRule r.toProduction with
          | some existing => simp
          | none => simp [eq_comm]

/-- A level is opened exactly when no listed symbol owns a rule and the table takes it. -/
theorem declareLevel_eq_ok_iff {g : Grammar ο} {tag : Associativity} {symbols : List Symbol}
    {receipt : Level × Grammar ο} :
    g.declareLevel tag symbols = .ok receipt ↔
      symbols.find? g.isNonterminal = none ∧
        ∃ level table, g.precedence.declare tag symbols = .ok (level, table) ∧
          receipt = (level, { g with precedence := table }) := by
  unfold declareLevel
  cases symbols.find? g.isNonterminal with
  | some s => simp
  | none =>
      cases g.precedence.declare tag symbols with
      | error fault => simp
      | ok opened =>
          obtain ⟨level, table⟩ := opened
          simp only [true_and]
          constructor
          · intro h
            exact ⟨level, table, rfl, (Except.ok.inj h).symm⟩
          · intro ⟨level', table', heq, hreceipt⟩
            obtain ⟨rfl, rfl⟩ : level = level' ∧ table = table' := by simpa using heq
            rw [hreceipt]

/-- All that a declaration can do: it is refused and nothing changes, a rule is
appended, a level is opened, or a start symbol is added. -/
theorem after_cases (g : Grammar ο) (d : Declaration ο) :
    ((∃ fault, (g.declare d).value = .error fault) ∧ g.after d = g) ∨
      (∃ r, d = .rule r ∧ g.declareRule r = .ok (g.ruleCount, g.append r) ∧
        g.after d = g.append r) ∨
      (∃ tag symbols level table, d = .level tag symbols ∧
        g.declareLevel tag symbols = .ok (level, { g with precedence := table }) ∧
        g.after d = { g with precedence := table }) ∨
      (∃ s, d = .start s ∧ g.after d = g.addStart s) := by
  cases d with
  | rule r =>
      cases hr : g.declareRule r with
      | error fault => exact .inl ⟨⟨fault, by simp [declare, hr]⟩, by simp [after, declare, hr]⟩
      | ok receipt =>
          obtain ⟨-, -, -, rfl⟩ := declareRule_eq_ok_iff.mp hr
          exact .inr (.inl ⟨r, rfl, hr, by simp [after, declare, hr]⟩)
  | level tag symbols =>
      cases hl : g.declareLevel tag symbols with
      | error fault => exact .inl ⟨⟨fault, by simp [declare, hl]⟩, by simp [after, declare, hl]⟩
      | ok receipt =>
          obtain ⟨-, level, table, -, rfl⟩ := declareLevel_eq_ok_iff.mp hl
          exact .inr (.inr (.inl ⟨tag, symbols, level, table, rfl, hl,
            by simp [after, declare, hl]⟩))
  | start s => exact .inr (.inr (.inr ⟨s, rfl, rfl⟩))

/-- What holds of the empty grammar and survives every declaration holds after
every history. -/
theorem replay_induction {motive : Grammar ο → Prop} (empty : motive ∅)
    (after : ∀ g d, motive g → motive (g.after d)) (history : List (Declaration ο)) :
    motive (replay history) := by
  have keep : ∀ g, motive g → motive (g.afterAll history) := by
    induction history with
    | nil => intro g hg; exact hg
    | cons d history ih => intro g hg; exact ih (g.after d) (after g d hg)
  exact keep ∅ empty

/-- A rule was in the grammar before a history, or is declared in it. -/
theorem mem_rules_or_declared {g : Grammar ο} {r : Rule ο} {history : List (Declaration ο)}
    (h : r ∈ (g.afterAll history).rules) : r ∈ g.rules ∨ .rule r ∈ history := by
  induction history generalizing g with
  | nil => exact .inl h
  | cons d later ih =>
      rcases ih h with hr | hr
      · rcases g.after_cases d with ⟨-, hsame⟩ | ⟨r', rfl, -, hrule⟩ |
          ⟨tag, symbols, level, table, -, -, hlevel⟩ | ⟨start, -, hstart⟩
        · exact .inl (hsame ▸ hr)
        · rw [hrule] at hr
          rcases List.mem_append.mp hr with hr | hr
          · exact .inl hr
          · exact .inr (List.mem_cons.mpr (.inl (congrArg _ (List.mem_singleton.mp hr))))
        · exact .inl (by rwa [hlevel] at hr)
        · rw [hstart, addStart] at hr
          split at hr <;> exact .inl hr
      · exact .inr (List.mem_cons_of_mem d hr)

/-- Every rule of a grammar was declared. -/
theorem mem_rules_replay {r : Rule ο} {history : List (Declaration ο)}
    (h : r ∈ (replay history).rules) : .rule r ∈ history :=
  (mem_rules_or_declared h).resolve_left List.not_mem_nil

/-! ## coherence -/

/-- The symbols and the left-hand sides of a grammar are those of its productions. -/
structure Coherent (g : Grammar ο) : Prop where
  mem_symbols : ∀ s, s ∈ g.symbols ↔ ∃ p ∈ g.productions, s = p.lhs ∨ s ∈ p.rhs
  isNonterminal_iff : ∀ s, g.isNonterminal s ↔ ∃ p ∈ g.productions, p.lhs = s

/-- The non-terminals are among the symbols. -/
theorem Coherent.mem_symbols_of_isNonterminal {g : Grammar ο} (h : g.Coherent) {s : Symbol}
    (hs : g.isNonterminal s) : s ∈ g.symbols := by
  obtain ⟨p, hp, rfl⟩ := (h.isNonterminal_iff s).mp hs
  exact (h.mem_symbols p.lhs).mpr ⟨p, hp, .inl rfl⟩

/-- A symbol that owns no rule is a symbol of the grammar through bodies only. -/
theorem Coherent.mem_symbols_iff_of_terminal {g : Grammar ο} (h : g.Coherent) {s : Symbol}
    (hs : g.isNonterminal s = false) : s ∈ g.symbols ↔ ∃ p ∈ g.productions, s ∈ p.rhs := by
  rw [h.mem_symbols]
  constructor
  · rintro ⟨p, hp, rfl | hbody⟩
    · rw [(h.isNonterminal_iff p.lhs).mpr ⟨p, hp, rfl⟩] at hs
      contradiction
    · exact ⟨p, hp, hbody⟩
  · rintro ⟨p, hp, hbody⟩
    exact ⟨p, hp, .inr hbody⟩

/-- A rule adds its production at the end. -/
theorem productions_append {g : Grammar ο} {r : Rule ο} :
    (g.append r).productions = g.productions ++ [r.toProduction] := by
  simp [productions, append]

theorem coherent_empty : Coherent (∅ : Grammar ο) where
  mem_symbols s := by
    show s ∈ (∅ : SymbolSet) ↔ ∃ p ∈ [], _
    simp
  isNonterminal_iff s := by
    show (∅ : SymbolMap (List RuleId)).contains s ↔ ∃ p ∈ [], _
    simp

theorem Coherent.append {g : Grammar ο} (h : g.Coherent) (r : Rule ο) :
    (g.append r).Coherent where
  mem_symbols s := by
    rw [mem_symbols_append, h.mem_symbols, productions_append]
    simp only [List.mem_append, List.mem_singleton, or_and_right, exists_or, exists_eq_left]
  isNonterminal_iff s := by
    rw [isNonterminal_append, h.isNonterminal_iff, productions_append]
    simp only [List.mem_append, List.mem_singleton, or_and_right, exists_or, exists_eq_left]
    rw [or_comm, eq_comm]

theorem Coherent.after {g : Grammar ο} (h : g.Coherent) (d : Declaration ο) :
    (g.after d).Coherent := by
  rcases g.after_cases d with ⟨-, hsame⟩ | ⟨r, -, -, hrule⟩ |
    ⟨tag, symbols, level, table, -, -, hlevel⟩ | ⟨s, -, hstart⟩
  · rw [hsame]; exact h
  · rw [hrule]; exact h.append r
  · rw [hlevel]; exact ⟨h.mem_symbols, h.isNonterminal_iff⟩
  · rw [hstart, addStart]
    split
    · exact h
    · exact ⟨h.mem_symbols, h.isNonterminal_iff⟩

/-- Every history makes a coherent grammar. -/
theorem coherent_replay (history : List (Declaration ο)) : (replay history).Coherent :=
  replay_induction coherent_empty (fun _ d h => h.after d) history

end Grammar

end LRGrammar
