import LRGrammar.Grammar

/-!
# LRGrammar.Conflict

The precedence of rules, and the decision of a conflict between shifting a
lookahead and reducing by a rule.
-/

namespace LRGrammar

namespace Grammar

variable {ο : Type}

/-- The level of a symbol. -/
def levelOf (g : Grammar ο) (s : Symbol) : Option Level := g.precedence.levelOf s

/-- Compare the levels of two symbols; having none is below every level. -/
def compareLevels (g : Grammar ο) (a b : Symbol) : Ordering :=
  compare (g.levelOf a) (g.levelOf b)

/-- The level of a rule: that of the anchor it names, which must have one, or
else that of the first symbol of its body with a level. -/
def ruleLevel (g : Grammar ο) (id : RuleId) : Except Fault (Option Level) :=
  match g.rule? id with
  | none => .error (.unknownRule id)
  | some r => match r.anchor with
    | none => .ok ((g.precedence.inferAnchor r.rhs).bind g.levelOf)
    | some anchor => match g.levelOf anchor with
      | none => .error (.undeclaredAnchor id anchor)
      | some level => .ok (some level)

/-- Decide between shifting `lookahead` and reducing by rule `id`.  There is no
opinion unless both have a level; a fault of the rule is told for every
lookahead; and nothing can be decided on a bogus level. -/
def resolveConflict (g : Grammar ο) (lookahead : Symbol) (id : RuleId) :
    Except Fault (Option Associativity) :=
  match g.ruleLevel id with
  | .error fault => .error fault
  | .ok none => .ok none
  | .ok (some ofRule) => match g.levelOf lookahead with
    | none => .ok none
    | some ofLookahead => match g.precedence.arbitrate ofRule ofLookahead with
      | some .bogus => .error (.bogusConflict lookahead id)
      | tag => .ok tag

end Grammar

end LRGrammar
