import LRGrammar.First.Analysis
import LRGrammar.Validation.Check

/-!
# LRGrammar.Validation.EpsilonLoops

No non-terminal may come back to itself through nullable symbols alone.  The one
exception is left self-recursion before more symbols: where a body of two or
more symbols begins with its own left-hand side, that occurrence is let pass.

A rule with a body of one symbol makes its left-hand side depend on that symbol
whether or not it is nullable, so a cycle of such rules is found here, whatever
their semantic actions.
-/

namespace LRGrammar

/-- The symbols that a left-hand side can be replaced by with nothing left in
front of them: the single symbol of the body, or else its leading nullable
symbols, less a first one that is the left-hand side itself. -/
def Production.dependencies (nullable : Symbol → Bool) (p : Production) : List Symbol :=
  match p.rhs with
  | [x] => [x]
  | body => match body.takeWhile nullable with
    | [] => []
    | x :: rest => if x = p.lhs then rest else x :: rest

namespace Grammar

variable {ο : Type}

/-- The graph that leads from each left-hand side to its dependencies. -/
def dependencyGraph (g : Grammar ο) (sets : FirstSets) : Digraph Symbol :=
  ⟨g.productions.map fun p => (p.lhs, p.dependencies sets.isNullable)⟩

/-- No symbol lies on a cycle of dependencies, going by the given sets. -/
def checkEpsilonLoopsWith (g : Grammar ο) (sets : FirstSets) : Check :=
  let broken := SymbolSet.ofList (g.dependencyGraph sets).cyclicNodes
  { value := Check.blame .epsilonLoop broken
    events := [.epsilonLoops sets.nullable.size broken.size] }

/-- No symbol lies on a cycle of dependencies. -/
def checkEpsilonLoops (g : Grammar ο) : Check := g.firstAnalysis.andThen g.checkEpsilonLoopsWith

end Grammar

end LRGrammar
