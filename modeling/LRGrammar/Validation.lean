import LRGrammar.Validation.BogusTokens
import LRGrammar.Validation.EpsilonLoops
import LRGrammar.Validation.Reachability
import LRGrammar.Validation.RenameLoops
import LRGrammar.Validation.WellFounded

/-!
# LRGrammar.Validation

What a table construction relies on, checked in a fixed order: no bogus tokens,
well-foundedness, reachability, no renaming loops, no epsilon loops.  The first
check that fails gives the verdict.
-/

namespace LRGrammar

namespace Grammar

variable {ο : Type}

/-- Check the whole grammar.  Unreachable symbols are only warned of where they are allowed. -/
def validate (g : Grammar ο) (allowUnreachable : Bool) : Check :=
  let announced : Check := ⟨.ok (), [.validating g.symbols.size g.ruleCount g.starts.length]⟩
  let reachability := if allowUnreachable then g.warnOfUnreachable else g.checkReachability
  announced
    |>.followedBy g.checkBogusTokens
    |>.followedBy g.checkWellFounded
    |>.followedBy reachability
    |>.followedBy g.checkRenameLoops
    |>.followedBy g.checkEpsilonLoops
    |>.followedBy ⟨.ok (), [.valid]⟩

end Grammar

end LRGrammar
