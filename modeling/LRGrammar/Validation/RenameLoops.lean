import LRGrammar.Digraph.Components
import LRGrammar.Grammar
import LRGrammar.Validation.Check

/-!
# LRGrammar.Validation.RenameLoops

No symbol may be replaced by itself through a chain of rules that only rename.
-/

namespace LRGrammar

namespace Grammar

variable {ο : Type}

/-- The rules that only rename a symbol. -/
def renames (g : Grammar ο) : List (Rule ο) := g.rules.filter (·.isRename)

/-- The graph that leads from each symbol to those it may be renamed to. -/
def renameGraph (g : Grammar ο) : Digraph Symbol := ⟨g.renames.map fun r => (r.lhs, r.rhs)⟩

/-- The left-hand sides that some rule renames to another symbol. -/
def renamed (g : Grammar ο) : SymbolSet :=
  .ofList ((g.renames.filter fun r => r.rhs ≠ [r.lhs]).map (·.lhs))

/-- No symbol lies on a cycle of renames. -/
def checkRenameLoops (g : Grammar ο) : Check :=
  let broken := SymbolSet.ofList g.renameGraph.cyclicNodes
  { value := Check.blame .renamingLoop broken
    events := [.renameLoops g.renamed.size broken.size] }

end Grammar

end LRGrammar
