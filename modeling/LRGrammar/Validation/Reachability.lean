import LRGrammar.Digraph.Closure
import LRGrammar.Grammar
import LRGrammar.Validation.Check

/-!
# LRGrammar.Validation.Reachability

Every symbol of the grammar must be reachable from a start symbol.  A symbol
that only has a precedence level is not a symbol of the grammar.
-/

namespace LRGrammar

namespace Grammar

variable {ο : Type}

/-- The graph that leads from each left-hand side to the symbols of its bodies. -/
def bodyGraph (g : Grammar ο) : Digraph Symbol := ⟨g.productions.map fun p => (p.lhs, p.rhs)⟩

/-- The symbols that can be reached from the start symbols, these included. -/
def reachable (g : Grammar ο) : SymbolSet := .ofList (g.bodyGraph.closure g.starts)

/-- The symbols of the grammar that cannot be reached. -/
def unreachable (g : Grammar ο) : SymbolSet :=
  let reachable := g.reachable
  g.symbols.filter fun s => s ∉ reachable

theorem mem_unreachable {g : Grammar ο} {s : Symbol} :
    s ∈ g.unreachable ↔ s ∈ g.symbols ∧ s ∉ g.reachable := by
  simp [unreachable, Std.ExtTreeSet.mem_filter]

/-- Every symbol can be reached. -/
def checkReachability (g : Grammar ο) : Check :=
  let unreachable := g.unreachable
  { value := Check.blame .unreachable unreachable
    events := [.reachability g.reachable.size unreachable.size] }

/-- Let unreachable symbols pass with a warning. -/
def warnOfUnreachable (g : Grammar ο) : Check :=
  match g.checkReachability with
  | ⟨.error (.unreachable symbols), events⟩ =>
      ⟨.ok (), events ++ [.unreachableIgnored symbols]⟩
  | check => check

end Grammar

end LRGrammar
