import LRGrammar.Proofs.RuleOrder

/-!
# LRGrammar.Proofs.Skeleton

What the analyses and the checks look at: the productions in order, the symbols, which
of them own rules, the start symbols and the bogus symbols (`Grammar.Alike`).  Semantic
actions, anchors, origins and the levels that are not bogus make no difference to them,
nor to the events that they log; only the check of rename loops also asks which rules
just rename.  In a grammar that declarations make, the productions tell the symbols and
the non-terminals (`Grammar.Coherent.alike`).

* `Grammar.Alike.firstAnalysis`, `Grammar.Alike.checkBogusTokens`,
  `Grammar.Alike.checkWellFounded`, `Grammar.Alike.checkReachability`,
  `Grammar.Alike.checkEpsilonLoopsWith`, `Grammar.Alike.checkEpsilonLoops` — analysis by
  analysis, the same result;
* `Grammar.Alike.checkRenameLoops`, `Grammar.Alike.validate` — the same where the same
  rules rename.
-/

namespace LRGrammar

namespace Grammar

variable {ο ο' : Type} {g : Grammar ο} {g' : Grammar ο'}

/-! ## what the productions tell -/

/-- The first body with one of the symbols is found by the productions alone. -/
theorem firstProducing_eq_findIdx? (g : Grammar ο) (symbols : SymbolSet) :
    g.firstProducing symbols = g.productions.findIdx? fun p => p.rhs.any symbols.contains := by
  rw [productions, List.findIdx?_map]
  rfl

/-- There are as many productions as rules. -/
theorem ruleCount_eq_length_productions (g : Grammar ο) : g.ruleCount = g.productions.length :=
  (List.length_map ..).symm

/-- Which rules just rename, in order. -/
def renameFlags (g : Grammar ο) : List Bool := g.rules.map (·.isRename)

/-- The productions of the rules that just rename. -/
def renameProductions (g : Grammar ο) : List Production := g.renames.map (·.toProduction)

/-- Which productions just rename is told by the productions and the flags in order. -/
theorem renameProductions_eq (g : Grammar ο) :
    g.renameProductions = ((g.productions.zip g.renameFlags).filter (·.2)).map (·.1) := by
  rw [productions, renameFlags, List.zip_map', List.filter_map, List.map_map]
  rfl

/-- The check of rename loops, told from the renaming productions alone. -/
theorem checkRenameLoops_eq (g : Grammar ο) :
    g.checkRenameLoops =
      let graph : Digraph Symbol := ⟨g.renameProductions.map fun p => (p.lhs, p.rhs)⟩
      let renamed := (g.renameProductions.filter fun p => p.rhs ≠ [p.lhs]).map (·.lhs)
      let broken := SymbolSet.ofList graph.cyclicNodes
      { value := Check.blame .renamingLoop broken
        events := [.renameLoops (SymbolSet.ofList renamed).size broken.size] } := by
  simp only [checkRenameLoops, renameGraph, renamed, renameProductions, List.map_map,
    List.filter_map]
  rfl

/-! ## grammars that are alike -/

/-- Whatever the analyses and the checks look at is the same in both grammars. -/
structure Alike (g : Grammar ο) (g' : Grammar ο') : Prop where
  symbols : g.symbols = g'.symbols
  isNonterminal : g.isNonterminal = g'.isNonterminal
  productions : g.productions = g'.productions
  starts : g.starts = g'.starts
  bogusSymbols : g.precedence.bogusSymbols = g'.precedence.bogusSymbols

/-- Coherent grammars with the same productions have the same symbols and non-terminals. -/
theorem Coherent.alike (h : g.Coherent) (h' : g'.Coherent)
    (productions : g.productions = g'.productions) (starts : g.starts = g'.starts)
    (bogusSymbols : g.precedence.bogusSymbols = g'.precedence.bogusSymbols) : g.Alike g' where
  symbols := Std.ExtTreeSet.ext_mem (h.mem_symbols_congr h' fun p => by rw [productions])
  isNonterminal := funext (h.isNonterminal_congr h' fun p => by rw [productions])
  productions := productions
  starts := starts
  bogusSymbols := bogusSymbols

namespace Alike

variable (h : g.Alike g')

include h

/-- The FIRST sets, the nullable symbols and their event come out the same. -/
theorem firstAnalysis : g.firstAnalysis = g'.firstAnalysis := by
  have scan : g.scan = g'.scan := by
    rw [Grammar.scan, Grammar.scan, h.symbols, h.productions]
  rw [Grammar.firstAnalysis, Grammar.firstAnalysis, scan, h.isNonterminal]

/-- The check of bogus tokens blames the same rule. -/
theorem checkBogusTokens : g.checkBogusTokens = g'.checkBogusTokens := by
  rw [Grammar.checkBogusTokens, Grammar.checkBogusTokens, firstProducing_eq_findIdx?,
    firstProducing_eq_findIdx?, h.productions, h.bogusSymbols]

/-- The same symbols are stuck, after as many sweeps. -/
theorem checkWellFounded : g.checkWellFounded = g'.checkWellFounded := by
  have settling : g.settling = g'.settling := by
    rw [Grammar.settling, Grammar.settling, apparentTerminals, apparentTerminals, h.symbols,
      h.isNonterminal, h.productions]
  rw [Grammar.checkWellFounded, Grammar.checkWellFounded, settling]

/-- The same symbols are unreachable. -/
theorem checkReachability : g.checkReachability = g'.checkReachability := by
  have reachable : g.reachable = g'.reachable := by
    rw [Grammar.reachable, Grammar.reachable, bodyGraph, bodyGraph, h.productions, h.starts]
  rw [Grammar.checkReachability, Grammar.checkReachability, unreachable, unreachable, reachable,
    h.symbols]

theorem warnOfUnreachable : g.warnOfUnreachable = g'.warnOfUnreachable := by
  rw [Grammar.warnOfUnreachable, Grammar.warnOfUnreachable, h.checkReachability]

/-- With given sets the same symbols depend on themselves. -/
theorem checkEpsilonLoopsWith (sets : FirstSets) :
    g.checkEpsilonLoopsWith sets = g'.checkEpsilonLoopsWith sets := by
  rw [Grammar.checkEpsilonLoopsWith, Grammar.checkEpsilonLoopsWith, dependencyGraph,
    dependencyGraph, h.productions]

/-- The same symbols depend on themselves with the sets of the grammars. -/
theorem checkEpsilonLoops : g.checkEpsilonLoops = g'.checkEpsilonLoops := by
  rw [Grammar.checkEpsilonLoops, Grammar.checkEpsilonLoops, h.firstAnalysis,
    funext h.checkEpsilonLoopsWith]

theorem ruleCount : g.ruleCount = g'.ruleCount := by
  rw [ruleCount_eq_length_productions, ruleCount_eq_length_productions, h.productions]

variable (renames : g.renameFlags = g'.renameFlags)

include renames

/-- Where the same rules just rename, the same symbols are renamed to themselves. -/
theorem checkRenameLoops : g.checkRenameLoops = g'.checkRenameLoops := by
  have same : g.renameProductions = g'.renameProductions := by
    rw [renameProductions_eq, renameProductions_eq, h.productions, renames]
  rw [checkRenameLoops_eq, checkRenameLoops_eq, same]

/-- Where the same rules just rename, the whole validation comes out the same, events included. -/
theorem validate (allowUnreachable : Bool) :
    g.validate allowUnreachable = g'.validate allowUnreachable := by
  simp only [Grammar.validate, h.symbols, h.ruleCount, h.starts, h.checkBogusTokens,
    h.checkWellFounded, h.checkReachability, h.warnOfUnreachable, h.checkRenameLoops renames,
    h.checkEpsilonLoops]

end Alike

end Grammar

end LRGrammar
