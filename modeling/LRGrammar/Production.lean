import LRGrammar.Action

/-!
# LRGrammar.Production

A production says that its left-hand side may be replaced by its right-hand
side.  A rule is a production together with what the analyses of the language
never look at: the precedence anchor, the semantic action and the origin.
-/

namespace LRGrammar

/-- A rule is known by its place in the order of declaration, from zero. -/
abbrev RuleId := Nat

/-- `lhs → rhs`; the right-hand side may be empty. -/
structure Production where
  lhs : Symbol
  rhs : List Symbol
deriving DecidableEq, Repr

/-- A production with its precedence anchor (the symbol whose level the rule
takes, if it is given), its semantic action and its origin.  The origin is the
caller's: it is kept and handed back. -/
structure Rule (ο : Type) extends Production where
  anchor : Option Symbol
  action : Action
  origin : ο
deriving DecidableEq, Repr

namespace Rule

variable {ο : Type}

/-- A rule that only gives its single right-hand symbol a new name. -/
def isRename (r : Rule ο) : Bool :=
  r.rhs.length = 1 ∧ r.action = .rename 0

/-- A rule with an empty right-hand side. -/
def isEpsilon (r : Rule ο) : Bool := r.rhs.isEmpty

theorem isRename_iff {r : Rule ο} :
    r.isRename ↔ (∃ target, r.rhs = [target]) ∧ r.action = .rename 0 := by
  simp [isRename, List.length_eq_one_iff]

/-- The rule without its origin. -/
def forgetOrigin (r : Rule ο) : Rule Unit := { r with origin := () }

end Rule

end LRGrammar
