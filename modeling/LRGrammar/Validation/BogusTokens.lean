import LRGrammar.Grammar
import LRGrammar.Validation.Check

/-!
# LRGrammar.Validation.BogusTokens

A symbol of a bogus level only anchors precedences; no rule may produce it.
-/

namespace LRGrammar

namespace Grammar

variable {ο : Type}

/-- The first rule whose body mentions one of the symbols. -/
def firstProducing (g : Grammar ο) (symbols : SymbolSet) : Option RuleId :=
  g.rules.findIdx? fun r => r.rhs.any symbols.contains

/-- No body mentions a bogus symbol.  The number of bogus symbols is told first. -/
def checkBogusTokens (g : Grammar ο) : Check where
  value := match g.firstProducing g.precedence.bogusSymbols with
    | some id => .error (.bogusToken id)
    | none => .ok ()
  events := [.bogusSymbols g.precedence.bogusSymbols.size]

end Grammar

end LRGrammar
