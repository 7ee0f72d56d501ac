import LRGrammar.Proofs.Assignments

/-!
# LRGrammar.Proofs.Refusals

What becomes of a declaration: which of its faults is told, where there are several, and
what an accepted one adds.  A fault is told of the first offender in the order of the
declaration (`IsFirst`), and one kind of fault is looked for after the other.  A rule is
looked up under its left-hand side only; in a grammar that declarations make, that finds
it wherever it was declared.

* `find?_eq_some_iff_isFirst`, `PrecedenceTable.firstRepeated_eq_some_iff` — the searches
  find the first offender;
* `Grammar.Consistent.findRule_eq_some_iff` — the id of a production;
* `Grammar.declareRule_outcome`, `Grammar.declareLevel_outcome` — the outcome of a
  declaration, in every grammar that a history makes.
-/

namespace LRGrammar

/-! ## the first offender -/

section First

variable {α : Type} {bad : List α → α → Prop} {xs : List α} {x y : α}

/-- `x` stands in the list and is bad, given the members in front of it, and no member in
front of it is bad. -/
def IsFirst (bad : List α → α → Prop) (xs : List α) (x : α) : Prop :=
  ∃ i, xs[i]? = some x ∧ bad (xs.take i) x ∧ ∀ j < i, ∀ y, xs[j]? = some y → ¬ bad (xs.take j) y

theorem not_isFirst_nil : ¬ IsFirst bad [] x := by
  simp [IsFirst]

/-- The first bad member is the head, or it is the first one behind the head. -/
theorem isFirst_cons :
    IsFirst bad (y :: xs) x ↔
      bad [] y ∧ y = x ∨ ¬ bad [] y ∧ IsFirst (fun before => bad (y :: before)) xs x := by
  constructor
  · rintro ⟨i, hi, hbad, hfirst⟩
    cases i with
    | zero =>
        obtain rfl : y = x := by simpa using hi
        exact .inl ⟨hbad, rfl⟩
    | succ i =>
        refine .inr ⟨hfirst 0 (Nat.succ_pos i) y rfl, i, hi, hbad, fun j hj z hz => ?_⟩
        exact hfirst (j + 1) (Nat.succ_lt_succ hj) z hz
  · rintro (⟨hbad, rfl⟩ | ⟨hgood, i, hi, hbad, hfirst⟩)
    · exact ⟨0, rfl, hbad, fun j hj => absurd hj (Nat.not_lt_zero j)⟩
    · refine ⟨i + 1, hi, hbad, fun j hj z hz => ?_⟩
      cases j with
      | zero =>
          obtain rfl : y = z := by simpa using hz
          exact hgood
      | succ j => exact hfirst j (Nat.lt_of_succ_lt_succ hj) z hz

/-- What is found in a list is the first member that passes the test. -/
theorem find?_eq_some_iff_isFirst {test : α → Bool} :
    xs.find? test = some x ↔ IsFirst (fun _ y => test y) xs x := by
  induction xs with
  | nil => simp [not_isFirst_nil]
  | cons y rest ih =>
      rw [isFirst_cons, ← ih]
      cases hy : test y <;> simp [hy]

end First

/-- The position that is refused is the first one beyond the body. -/
theorem Action.firstBeyond_eq_some_iff {a : Action} {length position : Nat} :
    a.firstBeyond length = some position ↔
      IsFirst (fun _ position => length ≤ position) a.positions position := by
  simp only [firstBeyond, find?_eq_some_iff_isFirst, decide_eq_true_eq]

/-- The search for a repetition finds the first symbol that is taken or stands in the list
before. -/
theorem PrecedenceTable.firstRepeated_eq_some_iff {taken : Symbol → Bool} {symbols : List Symbol}
    {s : Symbol} :
    firstRepeated taken symbols = some s ↔
      IsFirst (fun before x => taken x ∨ x ∈ before) symbols s := by
  induction symbols generalizing taken with
  | nil => simp [firstRepeated, not_isFirst_nil]
  | cons y rest ih =>
      -- behind `y`, what stands in front is `y` and the rest of it
      have later : (fun before x => (taken x || decide (x = y)) = true ∨ x ∈ before) =
          fun before x => taken x = true ∨ x ∈ y :: before := by
        funext before x
        simp [or_assoc]
      rw [firstRepeated, isFirst_cons, ← later]
      cases hy : taken y with
      | true => simp
      | false => simpa using @ih fun x => taken x || decide (x = y)

/-- A level is refused for want of symbols, or for the first symbol that cannot be assigned. -/
theorem PrecedenceTable.declare_eq_error_iff {t : PrecedenceTable} {tag : Associativity}
    {symbols : List Symbol} {fault : Fault} :
    t.declare tag symbols = .error fault ↔
      symbols = [] ∧ fault = .emptyLevel tag ∨
        ∃ s, IsFirst (fun before x => t.levelOf x ≠ none ∨ x ∈ before) symbols s ∧
          fault = .levelDeclaredTwice s := by
  have taken_iff (x : Symbol) : t.levelOf x ≠ none ↔ (t.levelOf x).isSome :=
    Option.isSome_iff_ne_none.symm
  simp only [taken_iff, ← firstRepeated_eq_some_iff, declare]
  cases symbols with
  | nil => simp [firstRepeated, eq_comm]
  | cons x rest =>
      cases firstRepeated (fun s => (t.levelOf s).isSome) (x :: rest) with
      | some repeated => simp [eq_comm]
      | none => simp

namespace Grammar

variable {ο : Type} {g : Grammar ο} {r : Rule ο} {s : Symbol} {fault : Fault}

/-! ## a rule -/

/-- The production was declared as rule `id`. -/
def DeclaredAs (g : Grammar ο) (p : Production) (id : RuleId) : Prop :=
  ∃ r, g.rule? id = some r ∧ r.toProduction = p

namespace Consistent

variable (h : g.Consistent) {p : Production} {id j : RuleId}

include h

/-- A production is declared once. -/
theorem declaredAs_unique (hid : g.DeclaredAs p id) (hj : g.DeclaredAs p j) : id = j := by
  obtain ⟨r, hr, hp⟩ := hid
  obtain ⟨r', hr', hp'⟩ := hj
  exact h.eq_of_rule? hr hr' (hp.trans hp'.symm)

theorem declaredAs_of_findRule (hfound : g.findRule p = some id) : g.DeclaredAs p id := by
  obtain ⟨r, hr, hlhs⟩ := (h.mem_rulesFor p.lhs id).mp (List.mem_of_find?_eq_some hfound)
  have hrhs : r.rhs = p.rhs := by simpa [hr] using List.find?_some hfound
  exact ⟨r, hr, congrArg₂ Production.mk hlhs hrhs⟩

/-- The search under the left-hand side finds a production wherever it was declared, and it
was declared once. -/
theorem findRule_eq_some_iff :
    g.findRule p = some id ↔ ∀ j, g.DeclaredAs p j ↔ j = id := by
  constructor
  · intro hfound j
    have hid := h.declaredAs_of_findRule hfound
    exact ⟨fun hj => h.declaredAs_unique hj hid, fun hj => hj ▸ hid⟩
  · intro hall
    have hid : g.DeclaredAs p id := (hall id).mpr rfl
    cases hfound : g.findRule p with
    | none => exact absurd (mem_productions_iff.mpr ⟨id, hid⟩) (h.findRule_eq_none_iff.mp hfound)
    | some j => rw [(hall j).mp (h.declaredAs_of_findRule hfound)]

/-- A production is not found if it was not declared. -/
theorem findRule_eq_none_iff_forall : g.findRule p = none ↔ ∀ id, ¬ g.DeclaredAs p id := by
  rw [h.findRule_eq_none_iff, mem_productions_iff, not_exists]
  rfl

end Consistent

/-- A rule is refused for its left-hand side, else for a position, else as a repetition. -/
theorem declareRule_eq_error_iff :
    g.declareRule r = .error fault ↔
      g.levelOf r.lhs ≠ none ∧ fault = .nonterminalWithLevel r.lhs ∨
        g.levelOf r.lhs = none ∧
          ((∃ position, r.action.firstBeyond r.rhs.length = some position ∧
              fault = .actionOutOfBounds r.lhs position r.rhs.length) ∨
            r.action.firstBeyond r.rhs.length = none ∧
              ∃ id, g.findRule r.toProduction = some id ∧
                fault = .duplicateRule r.lhs r.rhs id) := by
  unfold declareRule levelOf
  cases g.precedence.levelOf r.lhs with
  | some level => simp [eq_comm]
  | none =>
      cases r.action.firstBeyond r.rhs.length with
      | some position => simp [eq_comm]
      | none => cases g.findRule r.toProduction <;> simp [eq_comm]

/-- The declarer of a rule is told the fault. -/
theorem declare_rule_eq_error_iff :
    (g.declare (.rule r)).value = .error fault ↔ g.declareRule r = .error fault := by
  rw [declare]
  cases g.declareRule r <;> simp

/-- The grammar with the rule behind all others, and nothing else that is new. -/
structure Appended (g : Grammar ο) (r : Rule ο) (g' : Grammar ο) : Prop where
  rules : g'.rules = g.rules ++ [r]
  rulesFor : ∀ s, g'.rulesFor s = if s = r.lhs then g.rulesFor s ++ [g.ruleCount] else g.rulesFor s
  mem_symbols : ∀ s, s ∈ g'.symbols ↔ s ∈ g.symbols ∨ s = r.lhs ∨ s ∈ r.rhs
  precedence : g'.precedence = g.precedence
  starts : g'.starts = g.starts

/-- The grammar with one more rule has nothing else added. -/
theorem appended_append : g.Appended r (g.append r) where
  rules := rfl
  rulesFor _ := rulesFor_append
  mem_symbols _ := mem_symbols_append
  precedence := rfl
  starts := rfl

/-- What it takes for a rule to be accepted, told by the history and the rules. -/
theorem accepts_rule_iff {history : List (Declaration ο)} :
    (replay history).Accepts (.rule r) ↔
      ¬ Listed history r.lhs ∧ (∀ position ∈ r.action.positions, position < r.rhs.length) ∧
        ∀ id, ¬ (replay history).DeclaredAs r.toProduction id := by
  rw [Accepts, listed_iff, not_ne_iff, Action.firstBeyond_eq_none_iff,
    (consistent_replay history).findRule_eq_none_iff_forall]

/-- **The outcome of declaring a rule**: it is refused for its left-hand side, if an accepted
level declaration of the history lists it; else for the first position of its action that
is none of its body, if there is one; else as a repetition of the one rule with the same
production, if there is one; and else it is accepted, with the number of rules as its id.
A refusal changes nothing, and an accepted rule is appended, with its id entered under its
left-hand side and its symbols added to the symbols, and nothing else is changed. -/
theorem declareRule_outcome (history : List (Declaration ο)) (r : Rule ο) :
    let g := replay history
    let outcome := (g.declare (.rule r)).value
    let grown := g.after (.rule r)
    (∀ fault, outcome = .error fault ↔
        Listed history r.lhs ∧ fault = .nonterminalWithLevel r.lhs ∨
          ¬ Listed history r.lhs ∧
            ((∃ position,
                IsFirst (fun _ position => r.rhs.length ≤ position) r.action.positions position ∧
                  fault = .actionOutOfBounds r.lhs position r.rhs.length) ∨
              (∀ position ∈ r.action.positions, position < r.rhs.length) ∧
                ∃ id, (∀ j, g.DeclaredAs r.toProduction j ↔ j = id) ∧
                  fault = .duplicateRule r.lhs r.rhs id)) ∧
      (∀ told, outcome = .ok told ↔
        ¬ Listed history r.lhs ∧ (∀ position ∈ r.action.positions, position < r.rhs.length) ∧
          (∀ id, ¬ g.DeclaredAs r.toProduction id) ∧ told = (.rule g.ruleCount, grown)) ∧
      (∀ fault, outcome = .error fault → grown = g) ∧
      ∀ told, outcome = .ok told → g.Appended r grown := by
  intro g outcome grown
  have h : g.Consistent := consistent_replay history
  refine ⟨fun fault => ?_, fun told => ?_, fun fault => after_of_fault, fun told htold => ?_⟩
  · rw [declare_rule_eq_error_iff, declareRule_eq_error_iff, listed_iff, not_ne_iff,
      Action.firstBeyond_eq_none_iff]
    simp only [Action.firstBeyond_eq_some_iff, h.findRule_eq_some_iff]
    rfl
  · rw [declare_eq_ok_iff_after, accepts_rule_iff, and_assoc, and_assoc]
    rfl
  · obtain ⟨haccepts, -⟩ := declare_eq_ok_iff_accepts.mp htold
    have grown_eq : grown = g.append r := after_of_accepts haccepts
    rw [grown_eq]
    exact appended_append

/-- A level with two operators, sums, and a rule that is refused for its left-hand side. -/
def sumsOnly : List (Declaration Unit) :=
  [.level .left ["+", "-"],
   .rule ⟨⟨"E", ["E", "+", "E"]⟩, none, .construct "add" [0, 2], ()⟩,
   .rule ⟨⟨"-", ["E"]⟩, none, .rename 0, ()⟩,
   .start "E"]

/-- Sums cannot be declared again, and if the action is out of bounds as well, then it is this
that is told.  Rules for an operator are refused, and a rule for brackets becomes rule 1. -/
theorem declareRule_outcome_sumsOnly :
    let g := replay sumsOnly
    let again : Rule Unit := ⟨⟨"E", ["E", "+", "E"]⟩, none, .construct "plus" [2, 0], ()⟩
    let beyond : Rule Unit := ⟨⟨"E", ["E", "+", "E"]⟩, none, .construct "plus" [2, 7, 9], ()⟩
    let operator : Rule Unit := ⟨⟨"+", ["E"]⟩, none, .rename 5, ()⟩
    let brackets : Rule Unit := ⟨⟨"E", ["(", "E", ")"]⟩, none, .rename 1, ()⟩
    (g.declare (.rule again)).value = .error (.duplicateRule "E" ["E", "+", "E"] 0) ∧
      g.after (.rule again) = g ∧
      (g.declare (.rule beyond)).value = .error (.actionOutOfBounds "E" 7 3) ∧
      (g.declare (.rule operator)).value = .error (.nonterminalWithLevel "+") ∧
      Listed sumsOnly "+" ∧
      (g.declare (.rule brackets)).value = .ok (.rule 1, g.after (.rule brackets)) ∧
      g.Appended brackets (g.after (.rule brackets)) := by
  intro g again beyond operator brackets
  have hagain : (g.declare (.rule again)).value =
      .error (.duplicateRule "E" ["E", "+", "E"] 0) := by decide +kernel
  have hbeyond : (g.declare (.rule beyond)).value = .error (.actionOutOfBounds "E" 7 3) := by
    decide +kernel
  have hoperator : (g.declare (.rule operator)).value = .error (.nonterminalWithLevel "+") := by
    decide +kernel
  have hbrackets : (g.declare (.rule brackets)).value = .ok (.rule 1, g.after (.rule brackets)) := by
    decide +kernel
  have listed : Listed sumsOnly "+" := listed_iff.mpr (by decide +kernel)
  obtain ⟨-, -, unchanged, -⟩ := declareRule_outcome sumsOnly again
  obtain ⟨-, -, -, appended⟩ := declareRule_outcome sumsOnly brackets
  exact ⟨hagain, unchanged _ hagain, hbeyond, hoperator, listed, hbrackets, appended _ hbrackets⟩

/-! ## a level -/

/-- The symbol owns a rule. -/
def Owns (g : Grammar ο) (s : Symbol) : Prop := ∃ r ∈ g.rules, r.lhs = s

/-- The non-terminals are the symbols that own rules. -/
theorem Coherent.isNonterminal_iff_owns (h : g.Coherent) : g.isNonterminal s ↔ g.Owns s := by
  rw [h.isNonterminal_iff, Owns]
  simp [productions]

/-- A level is refused for a symbol that owns a rule, else by the table of levels. -/
theorem declareLevel_eq_error_iff {tag : Associativity} {symbols : List Symbol} :
    g.declareLevel tag symbols = .error fault ↔
      (∃ s, symbols.find? g.isNonterminal = some s ∧ fault = .nonterminalWithLevel s) ∨
        symbols.find? g.isNonterminal = none ∧ g.precedence.declare tag symbols = .error fault := by
  unfold declareLevel
  cases symbols.find? g.isNonterminal with
  | some s => simp [eq_comm]
  | none => cases g.precedence.declare tag symbols <;> simp

/-- The declarer of a level is told the fault. -/
theorem declare_level_eq_error_iff {tag : Associativity} {symbols : List Symbol} :
    (g.declare (.level tag symbols)).value = .error fault ↔
      g.declareLevel tag symbols = .error fault := by
  rw [declare]
  cases g.declareLevel tag symbols <;> simp

/-- The grammar with one more level, for the listed symbols and for no others, while all
other levels and tags stay. -/
structure Opened (g : Grammar ο) (tag : Associativity) (symbols : List Symbol) (g' : Grammar ο) :
    Prop where
  size : g'.precedence.size = g.precedence.size + 1
  levelOf_listed : ∀ s, g'.levelOf s = some g.precedence.size ↔ s ∈ symbols
  levelOf_other : ∀ s, s ∉ symbols → g'.levelOf s = g.levelOf s
  tagOf : ∀ level, g'.precedence.tagOf level =
    if level = g.precedence.size then some tag else g.precedence.tagOf level

/-- A new level concerns none but the listed symbols. -/
theorem Consistent.opened (h : g.Consistent) (tag : Associativity) (symbols : List Symbol) :
    g.Opened tag symbols { g with precedence := g.precedence.grown tag symbols } where
  size := PrecedenceTable.size_grown
  levelOf_listed s := by
    -- the number of levels is no symbol's level yet
    have fresh : g.precedence.levelOf s ≠ some g.precedence.size :=
      fun hs => Nat.lt_irrefl _ (h.level_lt s _ hs)
    rw [levelOf, PrecedenceTable.levelOf_grown]
    by_cases hlisted : s ∈ symbols
    · simp [hlisted]
    · simp [hlisted, fresh]
  levelOf_other s hs := by
    rw [levelOf, PrecedenceTable.levelOf_grown, if_neg hs]
    rfl
  tagOf level := by
    unfold PrecedenceTable.tagOf PrecedenceTable.grown PrecedenceTable.size
    rw [List.getElem?_append]
    grind

/-- What it takes for a level to be accepted, told by the rules and the levels. -/
theorem Coherent.accepts_level_iff (h : g.Coherent) {tag : Associativity} {symbols : List Symbol} :
    g.Accepts (.level tag symbols) ↔
      symbols ≠ [] ∧ symbols.Nodup ∧ ∀ s ∈ symbols, ¬ g.Owns s ∧ g.levelOf s = none := by
  simp only [Accepts, ← h.isNonterminal_iff_owns, Bool.not_eq_true]

/-- **The outcome of declaring a level**: it is refused for the first of its symbols that owns
a rule, if there is one; else for want of symbols, if it lists none; else for the first
symbol that has a level or stands in the list before, if there is one; and else it is
accepted, with the number of levels as its number.  A refusal changes nothing, an accepted
level is that of the listed symbols and of no others, and neither changes the rules, the
symbols or the start symbols. -/
theorem declareLevel_outcome (history : List (Declaration ο)) (tag : Associativity)
    (symbols : List Symbol) :
    let g := replay history
    let outcome := (g.declare (.level tag symbols)).value
    let grown := g.after (.level tag symbols)
    (∀ fault, outcome = .error fault ↔
        (∃ s, IsFirst (fun _ x => g.Owns x) symbols s ∧ fault = .nonterminalWithLevel s) ∨
          (∀ s ∈ symbols, ¬ g.Owns s) ∧
            (symbols = [] ∧ fault = .emptyLevel tag ∨
              ∃ s, IsFirst (fun before x => g.levelOf x ≠ none ∨ x ∈ before) symbols s ∧
                fault = .levelDeclaredTwice s)) ∧
      (∀ told, outcome = .ok told ↔
        symbols ≠ [] ∧ symbols.Nodup ∧ (∀ s ∈ symbols, ¬ g.Owns s ∧ g.levelOf s = none) ∧
          told = (.level g.precedence.size, grown)) ∧
      (∀ fault, outcome = .error fault → grown = g) ∧
      (∀ told, outcome = .ok told → g.Opened tag symbols grown) ∧
      ∃ table, grown = { g with precedence := table } := by
  intro g outcome grown
  have h : g.Consistent := consistent_replay history
  have grown_eq (haccepts : g.Accepts (.level tag symbols)) :
      grown = { g with precedence := g.precedence.grown tag symbols } := after_of_accepts haccepts
  refine ⟨fun fault => ?_, fun told => ?_, fun fault => after_of_fault, fun told htold => ?_, ?_⟩
  · have owns_none_iff : symbols.find? g.isNonterminal = none ↔ ∀ s ∈ symbols, ¬ g.Owns s := by
      simp only [List.find?_eq_none, h.isNonterminal_iff_owns]
    rw [declare_level_eq_error_iff, declareLevel_eq_error_iff, owns_none_iff,
      PrecedenceTable.declare_eq_error_iff]
    simp only [find?_eq_some_iff_isFirst, h.isNonterminal_iff_owns]
    rfl
  · rw [declare_eq_ok_iff_after, h.accepts_level_iff, and_assoc, and_assoc]
    rfl
  · obtain ⟨haccepts, -⟩ := declare_eq_ok_iff_accepts.mp htold
    rw [grown_eq haccepts]
    exact h.opened tag symbols
  · by_cases haccepts : g.Accepts (.level tag symbols)
    · exact ⟨_, grown_eq haccepts⟩
    · exact ⟨g.precedence, after_of_not_accepts haccepts⟩

/-- Of several faults in a list of symbols, a symbol that owns a rule is told first, and then
the first that cannot be assigned: `*` is free, `-` has a level, and `*` stands twice in
the list.  A free list of symbols becomes level 1. -/
theorem declareLevel_outcome_sumsOnly :
    let g := replay sumsOnly
    let taken : Declaration Unit := .level .right ["*", "-", "*"]
    let free : Declaration Unit := .level .right ["^", "*"]
    (g.declare (.level .right ["*", "*", "E"])).value = .error (.nonterminalWithLevel "E") ∧
      (g.declare taken).value = .error (.levelDeclaredTwice "-") ∧
      g.after taken = g ∧
      (g.declare free).value = .ok (.level 1, g.after free) ∧
      g.Opened .right ["^", "*"] (g.after free) := by
  intro g taken free
  have howner : (g.declare (.level .right ["*", "*", "E"])).value =
      .error (.nonterminalWithLevel "E") := by decide +kernel
  have htaken : (g.declare taken).value = .error (.levelDeclaredTwice "-") := by decide +kernel
  have hfree : (g.declare free).value = .ok (.level 1, g.after free) := by decide +kernel
  obtain ⟨-, -, unchanged, -, -⟩ := declareLevel_outcome sumsOnly .right ["*", "-", "*"]
  obtain ⟨-, -, -, opened, -⟩ := declareLevel_outcome sumsOnly .right ["^", "*"]
  exact ⟨howner, htaken, unchanged _ htaken, hfree, opened _ hfree⟩

end Grammar

end LRGrammar
