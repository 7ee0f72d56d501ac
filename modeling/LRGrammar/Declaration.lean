import LRGrammar.Event
import LRGrammar.Grammar

/-!
# LRGrammar.Declaration

How a grammar grows: a rule, a precedence level or a start symbol at a time.  A
declaration that is refused changes nothing, and `Grammar.replay` gives the
grammar after a whole history, refused declarations included.

* `Grammar.mem_symbols_append`, `Grammar.rulesFor_append`,
  `Grammar.isNonterminal_append` — what an accepted rule adds;
* `Grammar.afterAll_append` — a history may be taken in two parts.
-/

namespace LRGrammar

namespace Grammar

variable {ο : Type}

/-! ## rules -/

/-- The rule that was declared with this production. -/
def findRule (g : Grammar ο) (p : Production) : Option RuleId :=
  (g.rulesFor p.lhs).find? fun id => (g.rule? id).any (·.rhs = p.rhs)

/-- The grammar with one more rule. -/
def append (g : Grammar ο) (r : Rule ο) : Grammar ο where
  symbols := g.symbols ∪ .ofList (r.lhs :: r.rhs)
  starts := g.starts
  rules := g.rules ++ [r]
  idsByLhs := g.idsByLhs.alter r.lhs fun ids => some (ids.getD [] ++ [g.ruleCount])
  precedence := g.precedence

/-- A rule brings its symbols along. -/
theorem mem_symbols_append {g : Grammar ο} {r : Rule ο} {s : Symbol} :
    s ∈ (g.append r).symbols ↔ s ∈ g.symbols ∨ s = r.lhs ∨ s ∈ r.rhs := by
  simp [append, Std.ExtTreeSet.mem_union_iff]

/-- A rule is listed last of those for its left-hand side. -/
theorem rulesFor_append {g : Grammar ο} {r : Rule ο} {s : Symbol} :
    (g.append r).rulesFor s =
      if s = r.lhs then g.rulesFor s ++ [g.ruleCount] else g.rulesFor s := by
  unfold rulesFor append
  rw [Std.ExtTreeMap.getElem?_alter]
  grind [Std.compare_eq_iff_eq]

/-- A rule makes its left-hand side a non-terminal. -/
theorem isNonterminal_append {g : Grammar ο} {r : Rule ο} {s : Symbol} :
    (g.append r).isNonterminal s ↔ s = r.lhs ∨ g.isNonterminal s := by
  unfold isNonterminal append
  rw [Std.ExtTreeMap.contains_alter]
  grind [Std.compare_eq_iff_eq]

/-- Declare a rule; the answer is its id.  The left-hand side may not have a
precedence level, the action may read positions of the body only, and the
production may not have been declared before. -/
def declareRule (g : Grammar ο) (r : Rule ο) : Except Fault (RuleId × Grammar ο) :=
  if (g.precedence.levelOf r.lhs).isSome then .error (.nonterminalWithLevel r.lhs)
  else match r.action.firstBeyond r.rhs.length with
    | some position => .error (.actionOutOfBounds r.lhs position r.rhs.length)
    | none => match g.findRule r.toProduction with
      | some existing => .error (.duplicateRule r.lhs r.rhs existing)
      | none => .ok (g.ruleCount, g.append r)

/-! ## precedence levels and start symbols -/

/-- Declare a level that binds tighter than all earlier ones; the answer is its
number.  No listed symbol may own a rule, have a level or be listed twice. -/
def declareLevel (g : Grammar ο) (tag : Associativity) (symbols : List Symbol) :
    Except Fault (Level × Grammar ο) :=
  match symbols.find? g.isNonterminal with
  | some s => .error (.nonterminalWithLevel s)
  | none => match g.precedence.declare tag symbols with
    | .error fault => .error fault
    | .ok (level, table) => .ok (level, { g with precedence := table })

/-- Add a start symbol, unless it is one. -/
def addStart (g : Grammar ο) (s : Symbol) : Grammar ο :=
  if s ∈ g.starts then g else { g with starts := g.starts ++ [s] }

end Grammar

/-! ## histories -/

/-- One declaration. -/
inductive Declaration (ο : Type) where
  | rule (r : Rule ο)
  | level (tag : Associativity) (symbols : List Symbol)
  | start (s : Symbol)
deriving DecidableEq

/-- What the declarer is told: the id of the rule, the number of the level, or
all start symbols in order. -/
inductive Receipt where
  | rule (id : RuleId)
  | level (number : Level)
  | starts (symbols : List Symbol)
deriving DecidableEq, Repr

namespace Grammar

variable {ο : Type}

/-- Take a declaration.  Accepted rules and levels are told by one event; a
refusal and a start symbol are silent. -/
def declare (g : Grammar ο) : Declaration ο → Logged (Except Fault (Receipt × Grammar ο))
  | .rule r => match g.declareRule r with
    | .ok (id, grown) => ⟨.ok (.rule id, grown), [.ruleDeclared id r.lhs r.rhs.length]⟩
    | .error fault => ⟨.error fault, []⟩
  | .level tag symbols => match g.declareLevel tag symbols with
    | .ok (level, grown) => ⟨.ok (.level level, grown), [.levelDeclared level tag]⟩
    | .error fault => ⟨.error fault, []⟩
  | .start s => ⟨.ok (.starts (g.addStart s).starts, g.addStart s), []⟩

/-- The grammar after a declaration: as before, if it is refused. -/
def after (g : Grammar ο) (d : Declaration ο) : Grammar ο :=
  match (g.declare d).value with
  | .ok (_, grown) => grown
  | .error _ => g

/-- The grammar after a history of declarations. -/
def afterAll (g : Grammar ο) (history : List (Declaration ο)) : Grammar ο := history.foldl after g

/-- Every declaration of a history, with what the declarer is told of it. -/
def answers (g : Grammar ο) :
    List (Declaration ο) → List (Declaration ο × Except Fault Receipt)
  | [] => []
  | d :: later => (d, (g.declare d).value.map (·.1)) :: (g.after d).answers later

/-- The grammar that a history makes of nothing. -/
def replay (history : List (Declaration ο)) : Grammar ο := afterAll ∅ history

@[simp] theorem answers_nil (g : Grammar ο) : g.answers [] = [] := rfl

@[simp] theorem answers_cons (g : Grammar ο) (d : Declaration ο) (later : List (Declaration ο)) :
    g.answers (d :: later) = (d, (g.declare d).value.map (·.1)) :: (g.after d).answers later := rfl

@[simp] theorem afterAll_nil (g : Grammar ο) : g.afterAll [] = g := rfl

@[simp] theorem afterAll_cons (g : Grammar ο) (d : Declaration ο) (history : List (Declaration ο)) :
    g.afterAll (d :: history) = (g.after d).afterAll history := rfl

/-- A history may be taken in two parts. -/
theorem afterAll_append {g : Grammar ο} {earlier later : List (Declaration ο)} :
    g.afterAll (earlier ++ later) = (g.afterAll earlier).afterAll later :=
  List.foldl_append

end Grammar

end LRGrammar
