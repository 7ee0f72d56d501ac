import LRGrammar.Symbol

/-!
# LRGrammar.First.Sets

For every symbol the terminals that a phrase of it can begin with, and the
symbols that can derive nothing at all.  A `FirstSets` is a value of its own: it
may be kept while its grammar grows, or belong to another grammar.

* `FirstSets.firstOfSequence_cons_of_nullable`,
  `FirstSets.firstOfSequence_cons_of_not_nullable` — a sequence begins as its
  first symbol does, and if that can vanish, also as the rest does.
-/

namespace LRGrammar

/-- The FIRST set of every symbol, and the nullable symbols. -/
structure FirstSets where
  first : SymbolMap SymbolSet
  nullable : SymbolSet
deriving DecidableEq

namespace FirstSets

/-- The FIRST set of a symbol, if it is known. -/
def firstOf (sets : FirstSets) (s : Symbol) : Option SymbolSet := sets.first[s]?

/-- The symbol can derive the empty sequence. -/
def isNullable (sets : FirstSets) (s : Symbol) : Bool := sets.nullable.contains s

/-- What a symbol can begin with; an unknown symbol counts as a terminal. -/
def leading (sets : FirstSets) (s : Symbol) : SymbolSet := (sets.firstOf s).getD (.ofList [s])

/-- The FIRST set of a sequence, and whether the whole sequence is nullable. -/
def firstOfSequence (sets : FirstSets) : List Symbol → SymbolSet × Bool
  | [] => (∅, true)
  | s :: rest =>
      if sets.isNullable s then
        let behind := sets.firstOfSequence rest
        (sets.leading s ∪ behind.1, behind.2)
      else (sets.leading s, false)

theorem firstOfSequence_cons_of_nullable {sets : FirstSets} {s : Symbol} {rest : List Symbol}
    (h : sets.isNullable s) :
    sets.firstOfSequence (s :: rest) =
      (sets.leading s ∪ (sets.firstOfSequence rest).1, (sets.firstOfSequence rest).2) := by
  simp [firstOfSequence, h]

theorem firstOfSequence_cons_of_not_nullable {sets : FirstSets} {s : Symbol} {rest : List Symbol}
    (h : sets.isNullable s = false) :
    sets.firstOfSequence (s :: rest) = (sets.leading s, false) := by
  simp [firstOfSequence, h]

end FirstSets

end LRGrammar
