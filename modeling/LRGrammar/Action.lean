import LRGrammar.Symbol

/-!
# LRGrammar.Action

How a rule makes its semantic value from the values of its right-hand side.
Positions count the symbols of the right-hand side from zero; tags are not
interpreted.

* `Action.firstBeyond_eq_none_iff` — no position lies beyond the body exactly
  when all of them are below its length.
-/

namespace LRGrammar

/-- The semantic action of a rule: pass one value through, or apply a named
constructor to the values at `places`, in that order. -/
inductive Action where
  | rename (position : Nat)
  | construct (tag : Symbol) (places : List Nat)
deriving DecidableEq, Repr

namespace Action

/-- Every position that the action reads, in the order it reads them. -/
def positions : Action → List Nat
  | rename position => [position]
  | construct _ places => places

/-- The first position read that is not a position of a body of `length` symbols. -/
def firstBeyond (a : Action) (length : Nat) : Option Nat :=
  a.positions.find? fun position => length ≤ position

theorem firstBeyond_eq_none_iff {a : Action} {length : Nat} :
    a.firstBeyond length = none ↔ ∀ position ∈ a.positions, position < length := by
  simp [firstBeyond]

/-! ## text -/

/-- A position as it is written: `$2`. -/
def placeText (position : Nat) : String := "$" ++ position.repr

/-- The action as it is written: `$1`, or `add($0, $2)`. -/
def text : Action → String
  | rename position => placeText position
  | construct tag places => tag ++ "(" ++ ", ".intercalate (places.map placeText) ++ ")"

end Action

end LRGrammar
