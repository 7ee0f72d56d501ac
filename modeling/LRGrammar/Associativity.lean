/-!
# LRGrammar.Associativity

The tag of a precedence level, and what it makes of a conflict between two
operators of that level.
-/

namespace LRGrammar

/-- How operators of one level associate.  A `bogus` level exists only so that
rules can name its symbols as their precedence anchor. -/
inductive Associativity where
  | left
  | right
  | nonAssoc
  | bogus
deriving DecidableEq, Repr

/-- What is done about a conflict between shifting a lookahead and reducing by a
rule.  `refuse` means that the operators do not associate: the input is wrong here. -/
inductive Resolution where
  | shift
  | reduce
  | refuse
deriving DecidableEq, Repr

namespace Associativity

/-- The name under which the tag is written. -/
def name : Associativity → String
  | left => "Left"
  | right => "Right"
  | nonAssoc => "NonAssoc"
  | bogus => "Bogus"

/-- The resolution that the tag stands for; a bogus level takes part in no conflict. -/
def resolution : Associativity → Option Resolution
  | left => some .reduce
  | right => some .shift
  | nonAssoc => some .refuse
  | bogus => none

/-- The tag written as `text`. -/
def ofName? (text : String) : Option Associativity :=
  [left, right, nonAssoc, bogus].find? fun tag => tag.name = text

@[simp] theorem ofName?_name (tag : Associativity) : ofName? tag.name = some tag := by
  cases tag <;> decide

end Associativity

end LRGrammar
