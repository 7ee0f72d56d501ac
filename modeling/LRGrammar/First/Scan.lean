import LRGrammar.Machine
import LRGrammar.Production

/-!
# LRGrammar.First.Scan

Which symbols are nullable, and which symbols a phrase of each left-hand side
can directly begin with.  Every rule is read from the left, as an *item* that
knows what is left of the body.  An item that meets a symbol not known to be
nullable is parked under it, and goes on when that symbol turns out nullable;
an item that comes to the end of its body makes its left-hand side nullable.

* `Scan.weight_of_step` — every step settles one position of one rule: it lowers
  what is left to read by exactly one.
-/

namespace LRGrammar

/-- A rule read up to a position: everything before it can vanish. -/
structure Item where
  rule : RuleId
  lhs : Symbol
  position : Nat
  /-- The symbols from the position on. -/
  rest : List Symbol
deriving DecidableEq, Repr

namespace Item

/-- A rule of which nothing is read. -/
def start (rule : RuleId) (p : Production) : Item := ⟨rule, p.lhs, 0, p.rhs⟩

end Item

/-- A state of the scan. -/
structure Scan where
  /-- The items that nothing blocks, the next one first. -/
  pending : List Item
  /-- The items that wait for a symbol to turn out nullable, each already past that symbol. -/
  parked : List (Symbol × Item)
  nullable : SymbolSet
  /-- For every symbol those that it can directly begin with, itself included. -/
  direct : SymbolMap SymbolSet
deriving DecidableEq

namespace Scan

/-- The scan before its first step: the latest rule comes first, and every symbol
begins with itself. -/
def start (symbols : SymbolSet) (productions : List Production) : Scan where
  pending := (productions.zipIdx.map fun (p, id) => .start id p).reverse
  parked := []
  nullable := ∅
  direct := SymbolMap.fill ∅ symbols.toList fun s => .ofList [s]

/-- The items that wait for the symbol. -/
def waiting (s : Scan) (x : Symbol) : List Item := (s.parked.filter (·.1 = x)).map (·.2)

/-- The parked items that wait for another symbol. -/
def othersParked (s : Scan) (x : Symbol) : List (Symbol × Item) := s.parked.filter (·.1 ≠ x)

/-- The scan after the end of a rule for `lhs`: it is nullable, and what waited for it goes on. -/
def complete (s : Scan) (lhs : Symbol) : Scan where
  pending := s.waiting lhs ++ s.pending
  parked := s.othersParked lhs
  nullable := s.nullable.insert lhs
  direct := s.direct

/-- The scan after reading symbol `x`, where `item` is past it: the left-hand side
can begin with `x`, and the item goes on or waits. -/
def read (s : Scan) (x : Symbol) (item : Item) : Scan where
  pending := if s.nullable.contains x then item :: s.pending else s.pending
  parked := if s.nullable.contains x then s.parked else (x, item) :: s.parked
  nullable := s.nullable
  direct := s.direct.modify item.lhs (·.insert x)

/-- Take the next item one symbol further. -/
def step (s : Scan) : Option Scan :=
  match s.pending with
  | [] => none
  | item :: others =>
      let s := { s with pending := others }
      some (match item.rest with
        | [] => s.complete item.lhs
        | x :: rest => s.read x { item with position := item.position + 1, rest := rest })

/-! ## the work that is left -/

/-- What is left to read of the pending and of the parked items, their ends included. -/
def weight (s : Scan) : Nat :=
  (s.pending.flatMap (·.rest)).length + s.pending.length +
    ((s.parked.flatMap (·.2.rest)).length + s.parked.length)

theorem weight_complete (s : Scan) (lhs : Symbol) : (s.complete lhs).weight = s.weight := by
  have halves := List.filter_append_perm (fun entry : Symbol × Item => entry.1 = lhs) s.parked
  have symbols := (halves.flatMap_right (·.2.rest)).length_eq
  have items := halves.length_eq
  simp only [weight, complete, waiting, othersParked, List.flatMap_append, List.flatMap_map,
    List.length_append, List.length_map, decide_not] at *
  omega

theorem weight_read (s : Scan) (x : Symbol) (item : Item) :
    (s.read x item).weight = s.weight + (item.rest.length + 1) := by
  by_cases h : x ∈ s.nullable <;> simp [weight, read, h] <;> omega

theorem weight_of_step {s t : Scan} (h : s.step = some t) : t.weight + 1 = s.weight := by
  unfold step at h
  split at h
  · simp at h
  · rename_i item others hp
    obtain rfl := Option.some.inj h
    split
    · rename_i hr
      rw [weight_complete]
      simp [weight, hp, hr]; omega
    · rename_i x rest hr
      rw [weight_read]
      simp [weight, hp, hr]; omega

/-- The scan as a loop. -/
def machine : Machine Scan where
  step := step
  weight := weight
  weight_lt h := by have := weight_of_step h; omega

end Scan

end LRGrammar
