import LRGrammar.Json
import LRGrammar.PrecedenceTable

/-!
# LRGrammar.Json.Codec

The written forms of tags, levels, actions and rules.  Each has one form in
which it is written; a reader takes some more.  A tag is its name, or an object
whose one key is the name, with `null`.  A rule is an object, or the list of its
five parts; keys that are not its own are passed over, and an anchor may be left
out.

Reading does not compare the positions of an action with a body: a rule may be
written down before anything is declared.
-/

namespace LRGrammar

/-! ## tags and levels -/

/-- A tag is written by its name. -/
def Associativity.toJson (tag : Associativity) : Json := .str tag.name

/-- Read a tag. -/
def Associativity.ofJson? : Json → Option Associativity
  | .str name => ofName? name
  | .obj [(name, .null)] => ofName? name
  | _ => none

/-- A level is written by its number. -/
def Level.toJson (level : Level) : Json := .ofNat level

/-- Read a level. -/
def Level.ofJson? (j : Json) : Option Level := j.word?

/-! ## actions -/

namespace Action

/-- An action is written as an object whose one key names its kind. -/
def toJson : Action → Json
  | rename position => .obj [("Rename", .ofNat position)]
  | construct tag places =>
      .obj [("Construct", .obj [("places", .arr (places.map .ofNat)), ("tag", .str tag)])]

/-- Read an action. -/
def ofJson? : Json → Option Action
  | .obj [("Rename", position)] => position.word?.map rename
  | .obj [("Construct", .obj fields)] => do
      let tag ← (← fields.lookup "tag").string?
      let places ← (← fields.lookup "places").list? Json.word?
      some (construct tag places)
  | _ => none

end Action

/-! ## rules -/

namespace Rule

/-- Read an anchor; `null` and nothing at all both stand for none. -/
def anchor? : Option Json → Option (Option Symbol)
  | none | some .null => some none
  | some (.str s) => some (some s)
  | some _ => none

/-- Read a rule from its parts. -/
def ofParts? (lhs rhs : Json) (anchor : Option Json) (action origin : Json) :
    Option (Rule Json) := do
  let lhs ← lhs.string?
  let rhs ← rhs.list? Json.string?
  let anchor ← anchor? anchor
  let action ← Action.ofJson? action
  some { lhs, rhs, anchor, action, origin }

/-- A rule is written as an object with all five keys. -/
def toJson (r : Rule Json) : Json :=
  .obj
    [("attribute", r.action.toJson),
     ("lhs", .str r.lhs),
     ("origin", r.origin),
     ("precedence", match r.anchor with
       | some s => .str s
       | none => .null),
     ("rhs", .arr (r.rhs.map .str))]

/-- Read a rule. -/
def ofJson? : Json → Option (Rule Json)
  | .obj fields => do
      let lhs ← fields.lookup "lhs"
      let rhs ← fields.lookup "rhs"
      let action ← fields.lookup "attribute"
      let origin ← fields.lookup "origin"
      ofParts? lhs rhs (fields.lookup "precedence") action origin
  | .arr [lhs, rhs, anchor, action, origin] => ofParts? lhs rhs (some anchor) action origin
  | _ => none

end Rule

end LRGrammar
