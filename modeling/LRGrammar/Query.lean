import LRGrammar.Conflict
import LRGrammar.RuleTable
import LRGrammar.Validation

/-!
# LRGrammar.Query

Everything that can be asked of a grammar, apart from the origins of its rules, each
question with the type of its answers.  The analyses and the checks answer with the
events that they log.
-/

namespace LRGrammar

/-- A question about a grammar, to be answered by an `α`. -/
inductive Query : Type → Type where
  | symbols : Query SymbolSet
  | nonterminals : Query SymbolSet
  | apparentTerminals : Query SymbolSet
  | isNonterminal (s : Symbol) : Query Bool
  | isTerminal (s : Symbol) : Query Bool
  | starts : Query (List Symbol)
  | rules : Query (List (Rule Unit))
  | rule (id : RuleId) : Query (Option (Rule Unit))
  | ruleCount : Query Nat
  | rulesFor (lhs : Symbol) : Query (List RuleId)
  | augmentedBodies : Query (Except Fault (List (List Symbol)))
  | acceptIds : Query (RuleId × RuleId)
  /-- The rule table as it is printed. -/
  | table : Query (Option String)
  /-- All levels: their number, their tags, their symbols and the anchors of bodies. -/
  | precedence : Query PrecedenceTable
  | levelOf (s : Symbol) : Query (Option Level)
  | compareLevels (a b : Symbol) : Query Ordering
  | ruleLevel (id : RuleId) : Query (Except Fault (Option Level))
  | resolveConflict (lookahead : Symbol) (id : RuleId) :
      Query (Except Fault (Option Associativity))
  | firstAnalysis : Query (Logged FirstSets)
  | checkBogusTokens : Query Check
  | checkWellFounded : Query Check
  | checkReachability : Query Check
  | checkRenameLoops : Query Check
  | checkEpsilonLoops : Query Check
  | checkEpsilonLoopsWith (sets : FirstSets) : Query Check
  | validate (allowUnreachable : Bool) : Query Check

namespace Grammar

variable {ο : Type}

/-- What the grammar answers; a rule is handed out without its origin. -/
def ask (g : Grammar ο) : {α : Type} → Query α → α
  | _, .symbols => g.symbols
  | _, .nonterminals => g.nonterminals
  | _, .apparentTerminals => g.apparentTerminals
  | _, .isNonterminal s => g.isNonterminal s
  | _, .isTerminal s => g.isTerminal s
  | _, .starts => g.starts
  | _, .rules => g.rules.map (·.forgetOrigin)
  | _, .rule id => (g.rule? id).map (·.forgetOrigin)
  | _, .ruleCount => g.ruleCount
  | _, .rulesFor lhs => g.rulesFor lhs
  | _, .augmentedBodies => g.augmentedBodies
  | _, .acceptIds => g.acceptIds
  | _, .table => g.printedTable
  | _, .precedence => g.precedence
  | _, .levelOf s => g.levelOf s
  | _, .compareLevels a b => g.compareLevels a b
  | _, .ruleLevel id => g.ruleLevel id
  | _, .resolveConflict lookahead id => g.resolveConflict lookahead id
  | _, .firstAnalysis => g.firstAnalysis
  | _, .checkBogusTokens => g.checkBogusTokens
  | _, .checkWellFounded => g.checkWellFounded
  | _, .checkReachability => g.checkReachability
  | _, .checkRenameLoops => g.checkRenameLoops
  | _, .checkEpsilonLoops => g.checkEpsilonLoops
  | _, .checkEpsilonLoopsWith sets => g.checkEpsilonLoopsWith sets
  | _, .validate allowUnreachable => g.validate allowUnreachable

end Grammar

end LRGrammar
