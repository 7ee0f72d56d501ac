import LRGrammar.Fault

/-!
# LRGrammar.PrecedenceTable

The declared precedence levels and the symbols assigned to them.  Levels are
numbered in the order of declaration, and a later level binds tighter.

* `PrecedenceTable.firstRepeated_eq_none_iff` — a list of symbols can be assigned
  exactly when it has no repeats and none of its symbols is taken;
* `PrecedenceTable.mem_bogusSymbols` — the bogus symbols are those of a bogus level.
-/

namespace LRGrammar

/-- The number of a level; the greater binds the tighter. -/
abbrev Level := Nat

/-- The tag of every level, loosest level first, and the level of every assigned symbol. -/
structure PrecedenceTable where
  tags : List Associativity
  levels : SymbolMap Level
deriving DecidableEq

namespace PrecedenceTable

/-- The table before any declaration. -/
instance : EmptyCollection PrecedenceTable := ⟨⟨[], ∅⟩⟩

/-- The number of declared levels. -/
def size (t : PrecedenceTable) : Nat := t.tags.length

/-- No level is declared. -/
def isEmpty (t : PrecedenceTable) : Bool := t.tags.isEmpty

/-- The level that a symbol was assigned to. -/
def levelOf (t : PrecedenceTable) (symbol : Symbol) : Option Level := t.levels[symbol]?

/-- The tag of a level. -/
def tagOf (t : PrecedenceTable) (level : Level) : Option Associativity := t.tags[level]?

/-- The symbols assigned to bogus levels. -/
def bogusSymbols (t : PrecedenceTable) : SymbolSet :=
  .ofList (t.levels.keys.filter fun s => (t.levelOf s).bind t.tagOf = some .bogus)

@[simp] theorem mem_bogusSymbols {t : PrecedenceTable} {s : Symbol} :
    s ∈ t.bogusSymbols ↔ (t.levelOf s).bind t.tagOf = some .bogus := by
  simp only [bogusSymbols, SymbolSet.mem_ofList, List.mem_filter, Std.ExtTreeMap.mem_keys,
    decide_eq_true_eq, and_iff_right_iff_imp]
  intro h
  rw [Std.ExtTreeMap.mem_iff_isSome_getElem?]
  cases hl : t.levels[s]? <;> simp_all [levelOf]

/-- The first symbol of a body that has a level: the anchor of a rule that names none. -/
def inferAnchor (t : PrecedenceTable) (body : List Symbol) : Option Symbol :=
  body.find? fun s => (t.levelOf s).isSome

/-! ## declaring a level -/

/-- The first symbol of the list that is `taken` or stands earlier in the list. -/
def firstRepeated (taken : Symbol → Bool) : List Symbol → Option Symbol
  | [] => none
  | s :: rest => if taken s then some s else firstRepeated (fun x => taken x || x = s) rest

theorem firstRepeated_eq_none_iff {taken : Symbol → Bool} {symbols : List Symbol} :
    firstRepeated taken symbols = none ↔ symbols.Nodup ∧ ∀ s ∈ symbols, taken s = false := by
  induction symbols generalizing taken with
  | nil => simp [firstRepeated]
  | cons s rest ih =>
      cases hs : taken s
      · simp only [firstRepeated, hs, Bool.false_eq_true, if_false, ih, List.nodup_cons]
        grind
      · simp [firstRepeated, hs]

/-- Open a level above all others for the listed symbols.  Nothing is recorded
unless the list is not empty, has no repeats and none of its symbols has a level. -/
def declare (t : PrecedenceTable) (tag : Associativity) (symbols : List Symbol) :
    Except Fault (Level × PrecedenceTable) :=
  if symbols.isEmpty then .error (.emptyLevel tag)
  else match firstRepeated (fun s => (t.levelOf s).isSome) symbols with
    | some s => .error (.levelDeclaredTwice s)
    | none => .ok (t.size, ⟨t.tags ++ [tag], SymbolMap.fill t.levels symbols fun _ => t.size⟩)

/-! ## conflicts -/

/-- What a rule of level `ofRule` and a lookahead of level `ofLookahead` make of
each other: the tighter one wins, and at equal levels the tag of the level decides. -/
def arbitrate (t : PrecedenceTable) (ofRule ofLookahead : Level) : Option Associativity :=
  if ofRule < ofLookahead then some .right
  else if ofLookahead < ofRule then some .left
  else t.tagOf ofRule

end PrecedenceTable

end LRGrammar
