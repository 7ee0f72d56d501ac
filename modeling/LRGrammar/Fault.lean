import LRGrammar.Associativity
import LRGrammar.Production

/-!
# LRGrammar.Fault

Everything that can be wrong with a declaration or with a finished grammar, by
its cause.  The wording, the stable code and the advice of each fault stand here
and nowhere else.
-/

namespace LRGrammar

/-- A fault in the construction or in the structure of a grammar. -/
inductive Fault where
  /-- A symbol may not both own rules and have a precedence level. -/
  | nonterminalWithLevel (symbol : Symbol)
  | levelDeclaredTwice (symbol : Symbol)
  /-- The same production was declared before, as rule `existing`. -/
  | duplicateRule (lhs : Symbol) (rhs : List Symbol) (existing : RuleId)
  /-- The semantic action reads `position`, but the body has `length` symbols. -/
  | actionOutOfBounds (lhs : Symbol) (position length : Nat)
  | emptyLevel (tag : Associativity)
  /-- The anchor that the rule names has no precedence level. -/
  | undeclaredAnchor (rule : RuleId) (symbol : Symbol)
  | unknownRule (rule : RuleId)
  | missingStart
  /-- Lookahead and rule meet on a bogus level. -/
  | bogusConflict (symbol : Symbol) (rule : RuleId)
  /-- A body mentions a symbol of a bogus level. -/
  | bogusToken (rule : RuleId)
  | illFounded (symbols : SymbolSet)
  | unreachable (symbols : SymbolSet)
  | renamingLoop (symbols : SymbolSet)
  | epsilonLoop (symbols : SymbolSet)
deriving DecidableEq, Repr

/-- Results are compared by what they hold. -/
instance decidableEqExcept {ε α : Type} [DecidableEq ε] [DecidableEq α] :
    DecidableEq (Except ε α)
  | .error a, .error b => decidable_of_decidable_of_iff (Except.error.injEq a b).symm.to_iff
  | .ok a, .ok b => decidable_of_decidable_of_iff (Except.ok.injEq a b).symm.to_iff
  | .error _, .ok _ => isFalse nofun
  | .ok _, .error _ => isFalse nofun

namespace Fault

/-- The fault in words. -/
def message : Fault → String
  | nonterminalWithLevel symbol => s!"Non-terminal '{symbol}' cannot have a precedence level"
  | levelDeclaredTwice symbol => s!"Precedence declared twice for '{symbol}'"
  | duplicateRule lhs rhs existing =>
      s!"Duplicate rule: {lhs} -> {sequenceText rhs} (already declared as rule {existing})"
  | actionOutOfBounds lhs position length =>
      s!"Attribute of a rule for '{lhs}' refers to position {position}, " ++
        s!"but the right-hand side has {length} symbol(s)"
  | emptyLevel tag => s!"{tag.name} precedence level declared without any symbols"
  | undeclaredAnchor rule symbol =>
      s!"Rule {rule} takes its precedence from '{symbol}', which has no precedence level"
  | unknownRule rule => s!"No rule with id {rule}"
  | missingStart => "Grammar has no start symbol"
  | bogusConflict symbol rule =>
      s!"Bogus precedence level reached while resolving '{symbol}' against rule {rule}"
  | bogusToken rule => s!"Rule {rule} produces a bogus token"
  | illFounded symbols => s!"Ill-founded symbols: {symbols.commaSeparated}"
  | unreachable symbols => s!"Unreachable symbols: {symbols.commaSeparated}"
  | renamingLoop symbols => s!"Renaming loop among: {symbols.commaSeparated}"
  | epsilonLoop symbols => s!"Epsilon loop among: {symbols.commaSeparated}"

/-- The stable code of the fault. -/
def code : Fault → String
  | nonterminalWithLevel _ => "grammar::nonterminal_precedence"
  | levelDeclaredTwice _ => "grammar::precedence_twice"
  | duplicateRule _ _ _ => "grammar::duplicate_rule"
  | actionOutOfBounds _ _ _ => "grammar::attribute_bounds"
  | emptyLevel _ => "grammar::empty_level"
  | undeclaredAnchor _ _ => "grammar::undeclared_anchor"
  | unknownRule _ => "grammar::unknown_rule"
  | missingStart => "grammar::missing_start"
  | bogusConflict _ _ => "grammar::bogus_conflict"
  | bogusToken _ => "grammar::bogus_token"
  | illFounded _ => "grammar::ill_founded"
  | unreachable _ => "grammar::unreachable"
  | renamingLoop _ => "grammar::renaming_loop"
  | epsilonLoop _ => "grammar::epsilon_loop"

/-- Advice on how to mend the fault, where there is any. -/
def advice : Fault → Option String
  | nonterminalWithLevel _ => some "precedence levels apply to terminals only"
  | undeclaredAnchor _ _ => some "declare a precedence level containing the anchor symbol"
  | bogusToken _ =>
      some "bogus symbols only anchor precedence levels and may not appear in a rule body"
  | illFounded _ =>
      some "every non-terminal needs an alternative that eventually derives only terminals"
  | _ => none

/-- The faults of a finished grammar, as against those of a single declaration or query. -/
def isValidation : Fault → Bool
  | bogusToken _ | illFounded _ | unreachable _ | renamingLoop _ | epsilonLoop _ => true
  | _ => false

/-- The symbols that the fault blames; a set is listed in increasing order. -/
def symbols : Fault → List Symbol
  | nonterminalWithLevel symbol | levelDeclaredTwice symbol | undeclaredAnchor _ symbol
  | bogusConflict symbol _ => [symbol]
  | duplicateRule lhs _ _ | actionOutOfBounds lhs _ _ => [lhs]
  | illFounded symbols | unreachable symbols | renamingLoop symbols | epsilonLoop symbols =>
      symbols.toList
  | emptyLevel _ | unknownRule _ | missingStart | bogusToken _ => []

end Fault

end LRGrammar
