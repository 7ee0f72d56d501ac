import LRGrammar.Fault

/-!
# LRGrammar.Event

What the library tells about its work while it goes on: one event for each
accepted declaration, each analysis and each stage of a validation.  A value
that comes with the events of its making is `Logged`.
-/

namespace LRGrammar

/-- How much an event asks for attention. -/
inductive Severity where
  | trace
  | debug
  | warning
deriving DecidableEq, Repr

/-- The value of a field of an event. -/
inductive Detail where
  | count (n : Nat)
  | text (s : String)
deriving DecidableEq, Repr

/-- One thing that happened. -/
inductive Event where
  | ruleDeclared (rule : RuleId) (lhs : Symbol) (arity : Nat)
  | levelDeclared (level : Nat) (tag : Associativity)
  /-- The direct FIRST relation over so many symbols, its strongly connected
  components and the number of nullable symbols. -/
  | firstRelation (symbols components nullable : Nat)
  | validating (symbols rules start : Nat)
  | bogusSymbols (count : Nat)
  | illFounded (sweeps stuck : Nat)
  | wellFounded (sweeps : Nat)
  | reachability (reachable unreachable : Nat)
  | unreachableIgnored (symbols : SymbolSet)
  | renameLoops (renames broken : Nat)
  | epsilonLoops (nullable broken : Nat)
  | valid
deriving DecidableEq, Repr

namespace Event

/-- Declarations are traced, and a fault that is let pass is worth a warning. -/
def severity : Event → Severity
  | ruleDeclared .. | levelDeclared .. => .trace
  | unreachableIgnored _ => .warning
  | _ => .debug

/-- The event in words. -/
def message : Event → String
  | ruleDeclared .. => "declaring rule"
  | levelDeclared .. => "declared precedence level"
  | firstRelation .. => "computed direct FIRST relation"
  | validating .. => "validating grammar"
  | bogusSymbols _ => "checking for bogus symbols"
  | illFounded .. => "well-foundedness check failed"
  | wellFounded _ => "grammar is well-founded"
  | reachability .. => "checked reachability"
  | unreachableIgnored _ => "ignoring unreachable symbols"
  | renameLoops .. => "checked rename loops"
  | epsilonLoops .. => "checked epsilon loops"
  | valid => "grammar is valid"

/-- The named details of the event. -/
def fields : Event → List (String × Detail)
  | ruleDeclared rule lhs arity =>
      [("rule", .count rule), ("lhs", .text lhs), ("arity", .count arity)]
  | levelDeclared level tag => [("level", .count level), ("associativity", .text tag.name)]
  | firstRelation symbols components nullable =>
      [("symbols", .count symbols), ("components", .count components),
       ("nullable", .count nullable)]
  | validating symbols rules start =>
      [("symbols", .count symbols), ("rules", .count rules), ("start", .count start)]
  | bogusSymbols count => [("bogons", .count count)]
  | illFounded sweeps stuck => [("sweeps", .count sweeps), ("stuck", .count stuck)]
  | wellFounded sweeps => [("sweeps", .count sweeps)]
  | reachability reachable unreachable =>
      [("reachable", .count reachable), ("unreachable", .count unreachable)]
  | unreachableIgnored symbols => [("symbols", .text symbols.commaSeparated)]
  | renameLoops renames broken => [("renames", .count renames), ("broken", .count broken)]
  | epsilonLoops nullable broken => [("nullable", .count nullable), ("broken", .count broken)]
  | valid => []

end Event

/-- A value and the events of its making, in order. -/
structure Logged (α : Type) where
  value : α
  events : List Event
deriving DecidableEq

namespace Logged

variable {α β : Type}

/-- A value that was made in silence. -/
def silent (value : α) : Logged α := ⟨value, []⟩

/-- Go on from the value; the events of the second step follow those of the first. -/
def andThen (x : Logged α) (f : α → Logged β) : Logged β :=
  ⟨(f x.value).value, x.events ++ (f x.value).events⟩

end Logged

end LRGrammar
