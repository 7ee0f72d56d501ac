import LRGrammar.Digraph.Components
import LRGrammar.Event
import LRGrammar.First.Scan
import LRGrammar.First.Sets
import LRGrammar.Grammar

/-!
# LRGrammar.First.Analysis

The FIRST sets of a grammar, without iterating to a fixed point.  The scan
(`LRGrammar.First.Scan`) settles nullability and what each symbol can directly
begin with.  Symbols on a cycle of that relation begin alike, so one pass over
its strongly connected components is enough: the components come after those
they depend on, and the FIRST set of a component is settled at one stroke.
-/

namespace LRGrammar

/-! ## one pass over the components -/

/-- What the members of a component begin with alike, read off a table that holds
the FIRST sets of the components before it, and for the others what they can
directly begin with: the terminals among what the members' direct beginnings have
in the table. -/
def sharedFirst (isNonterminal : Symbol → Bool) (table : SymbolMap SymbolSet)
    (component : List Symbol) : SymbolSet :=
  let begun := component.flatMap fun member =>
    (table.getD member ∅).toList.map fun x => table.getD x ∅
  (SymbolSet.unions begun).filter fun s => !isNonterminal s

/-- Give every member of the component the FIRST set that they share. -/
def settleComponent (isNonterminal : Symbol → Bool) (table : SymbolMap SymbolSet)
    (component : List Symbol) : SymbolMap SymbolSet :=
  SymbolMap.fill table component fun _ => sharedFirst isNonterminal table component

/-- Settle the components one after the other, each in place of its direct beginnings. -/
def settleAll (isNonterminal : Symbol → Bool) (direct : SymbolMap SymbolSet)
    (components : List (List Symbol)) : SymbolMap SymbolSet :=
  components.foldl (settleComponent isNonterminal) direct

namespace Grammar

variable {ο : Type}

/-! ## the sets of a grammar -/

/-- The finished scan of the rules. -/
def scan (g : Grammar ο) : Scan := Scan.machine.run (.start g.symbols g.productions)

/-- Compute the FIRST sets and the nullable symbols; one event tells of it. -/
def firstAnalysis (g : Grammar ο) : Logged FirstSets :=
  let scan := g.scan
  let components := (Digraph.ofMap scan.direct).components
  { value := ⟨settleAll g.isNonterminal scan.direct components, scan.nullable⟩
    events := [.firstRelation scan.direct.size components.length scan.nullable.size] }

/-- The FIRST sets and the nullable symbols of the grammar. -/
def firstSets (g : Grammar ο) : FirstSets := g.firstAnalysis.value

end Grammar

end LRGrammar
