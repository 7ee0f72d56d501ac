import LRGrammar.Conflict
import LRGrammar.Declaration
import LRGrammar.Derivation
import LRGrammar.Digraph.Path
import LRGrammar.Json.Codec
import LRGrammar.Proofs.Search.Marks
import LRGrammar.Query
import LRGrammar.RuleTable
import LRGrammar.Validation
import LRGrammar.Proofs.Search.Invariant
import LRGrammar.Proofs.Search.Visit
import LRGrammar.Proofs.Search.Finish
import LRGrammar.Proofs.Search.Run
import LRGrammar.Proofs.Components
import LRGrammar.Proofs.Leading
import LRGrammar.Proofs.History
import LRGrammar.Proofs.First.Scan
import LRGrammar.Proofs.First.Analysis
import LRGrammar.Proofs.Productivity
import LRGrammar.Proofs.EpsilonLoops
import LRGrammar.Proofs.Consistency
import LRGrammar.Proofs.Acceptance
import LRGrammar.Proofs.Interleaving
import LRGrammar.Proofs.First.Words
import LRGrammar.Proofs.Closure
import LRGrammar.Proofs.Findings
import LRGrammar.Proofs.RuleOrder
import LRGrammar.Proofs.Growth
import LRGrammar.Proofs.Conflicts
import LRGrammar.Proofs.Reachability
import LRGrammar.Proofs.WrittenForms
import LRGrammar.Proofs.Origins
import LRGrammar.Proofs.UnitCycles
import LRGrammar.Proofs.Assignments
import LRGrammar.Proofs.Refusals
import LRGrammar.Proofs.RuleLevels
import LRGrammar.Proofs.Decisions
import LRGrammar.Proofs.First.Sequences
import LRGrammar.Proofs.BogusTokens
import LRGrammar.Proofs.Verdicts
import LRGrammar.Proofs.Trace
import LRGrammar.Proofs.Exploration
import LRGrammar.Proofs.DepthFirst
import LRGrammar.Proofs.Sweeps
import LRGrammar.Proofs.First.Obligations
import LRGrammar.Proofs.Joined
import LRGrammar.Proofs.ActionText
import LRGrammar.Proofs.Table.Cells
import LRGrammar.Proofs.Table.Layout
import LRGrammar.Proofs.Table.Printing
import LRGrammar.Proofs.Table.Legible
