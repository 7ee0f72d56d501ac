import LRGrammar.PrecedenceTable

/-!
# LRGrammar.Grammar

A context-free grammar with operator precedences, as it stands after some
declarations.  Several start symbols may share one set of rules; a table
construction takes each of them for the body of an accept rule of its own.

The state is kept five-fold (symbols, start symbols, rules, the rules of each
left-hand side, precedences) so that each question is answered by one of them;
that the five agree is a property of the declarations (`LRGrammar.Declaration`).
-/

namespace LRGrammar

/-- The declarations taken so far.  `ο` is the type of the rules' origins. -/
structure Grammar (ο : Type) where
  symbols : SymbolSet
  starts : List Symbol
  rules : List (Rule ο)
  idsByLhs : SymbolMap (List RuleId)
  precedence : PrecedenceTable
deriving DecidableEq

namespace Grammar

variable {ο : Type}

/-- The grammar before any declaration. -/
instance : EmptyCollection (Grammar ο) := ⟨⟨∅, [], [], ∅, ∅⟩⟩

/-! ## rules -/

/-- The rule with the given id. -/
def rule? (g : Grammar ο) (id : RuleId) : Option (Rule ο) := g.rules[id]?

/-- The number of rules, which is also the id of the next one. -/
def ruleCount (g : Grammar ο) : Nat := g.rules.length

/-- The ids of the rules of a left-hand side, in the order of declaration. -/
def rulesFor (g : Grammar ο) (lhs : Symbol) : List RuleId := g.idsByLhs[lhs]?.getD []

/-- The rules without what the language does not depend on. -/
def productions (g : Grammar ο) : List Production := g.rules.map (·.toProduction)

/-- Every body, followed by one body `[start]` for each start symbol: the accept rules. -/
def augmentedBodies (g : Grammar ο) : Except Fault (List (List Symbol)) :=
  if g.starts.isEmpty then .error .missingStart
  else .ok (g.rules.map (·.rhs) ++ g.starts.map ([·]))

/-- The ids of the accept rules: from the first, up to but without the second. -/
def acceptIds (g : Grammar ο) : RuleId × RuleId :=
  (g.ruleCount, g.ruleCount + g.starts.length)

/-! ## symbols -/

/-- The symbols that own a rule. -/
def nonterminals (g : Grammar ο) : SymbolSet := .ofList g.idsByLhs.keys

/-- The symbol owns a rule. -/
def isNonterminal (g : Grammar ο) (s : Symbol) : Bool := g.idsByLhs.contains s

/-- The symbols that some rule mentions and that own none. -/
def apparentTerminals (g : Grammar ο) : SymbolSet := g.symbols.filter fun s => !g.isNonterminal s

/-- The symbol is mentioned by some rule and owns none. -/
def isTerminal (g : Grammar ο) (s : Symbol) : Bool := g.symbols.contains s && !g.isNonterminal s

theorem mem_nonterminals {g : Grammar ο} {s : Symbol} :
    s ∈ g.nonterminals ↔ g.isNonterminal s := by
  simp [nonterminals, isNonterminal, Std.ExtTreeMap.mem_keys, Std.ExtTreeMap.contains_iff_mem]

theorem mem_apparentTerminals {g : Grammar ο} {s : Symbol} :
    s ∈ g.apparentTerminals ↔ s ∈ g.symbols ∧ g.isNonterminal s = false := by
  simp [apparentTerminals, Std.ExtTreeSet.mem_filter]

theorem isTerminal_iff {g : Grammar ο} {s : Symbol} :
    g.isTerminal s ↔ s ∈ g.apparentTerminals := by
  simp [isTerminal, mem_apparentTerminals, Std.ExtTreeSet.contains_iff_mem]

end Grammar

end LRGrammar
