import LRGrammar.Proofs.Acceptance
import LRGrammar.Proofs.Skeleton
import LRGrammar.Query

/-!
# LRGrammar.Proofs.Origins

Origins are kept and handed back, and nothing looks at them: to forget the origins of a
history and to replay it gives the grammar of the history with its origins forgotten, the
declarer is told the same, and all questions have the same answers.  Beyond that, the
analyses and the checks do not look at actions, anchors and levels either, as long as the
same symbols are bogus and the same rules rename (`LRGrammar.Proofs.Skeleton`).

* `Grammar.declare_forgetOrigins`, `Grammar.answers_forgetOrigins` — what is told of
  declarations;
* `Grammar.replay_forgetOrigins` — the grammar after a history;
* `Grammar.ask_forgetOrigins` — what the grammar answers;
* `Grammar.origin_and_attribute_independence` — origins change no answer, and actions,
  anchors and levels change no finding.
-/

namespace LRGrammar

variable {ο ο' : Type}

/-- The declaration without the origin of its rule. -/
def Declaration.forgetOrigin : Declaration ο → Declaration Unit
  | .rule r => .rule r.forgetOrigin
  | .level tag symbols => .level tag symbols
  | .start s => .start s

namespace Grammar

/-- The grammar without the origins of its rules. -/
def forgetOrigins (g : Grammar ο) : Grammar Unit :=
  { g with rules := g.rules.map (·.forgetOrigin) }

/-! ## rules without origins -/

/-- The rules are looked up by their ids all the same. -/
theorem rule?_forgetOrigins (g : Grammar ο) (id : RuleId) :
    g.forgetOrigins.rule? id = (g.rule? id).map (·.forgetOrigin) :=
  List.getElem?_map

theorem ruleCount_forgetOrigins (g : Grammar ο) : g.forgetOrigins.ruleCount = g.ruleCount :=
  List.length_map _

/-- Origins are no part of productions. -/
theorem productions_forgetOrigins (g : Grammar ο) :
    g.forgetOrigins.productions = g.productions :=
  List.map_map

/-- The same rules just rename. -/
theorem renameFlags_forgetOrigins (g : Grammar ο) :
    g.forgetOrigins.renameFlags = g.renameFlags :=
  List.map_map

/-- A production is found where it was, whatever the origin of its rule. -/
theorem findRule_forgetOrigins (g : Grammar ο) (p : Production) :
    g.forgetOrigins.findRule p = g.findRule p := by
  have same (id : RuleId) : (g.forgetOrigins.rule? id).any (·.rhs = p.rhs) =
      (g.rule? id).any (·.rhs = p.rhs) := by
    rw [rule?_forgetOrigins]
    cases g.rule? id <;> rfl
  simp only [findRule, same]
  rfl

/-- Origins may be forgotten before a rule is added or afterwards. -/
theorem forgetOrigins_append (g : Grammar ο) (r : Rule ο) :
    (g.append r).forgetOrigins = g.forgetOrigins.append r.forgetOrigin := by
  simp only [append, forgetOrigins, ruleCount, List.map_append, List.map_cons, List.map_nil,
    List.length_map]
  rfl

/-- Origins may be forgotten before a start symbol is added or afterwards. -/
theorem forgetOrigins_addStart (g : Grammar ο) (s : Symbol) :
    (g.addStart s).forgetOrigins = g.forgetOrigins.addStart s := by
  rw [addStart_eq, addStart_eq]
  rfl

/-! ## declarations -/

/-- What is told of a declaration, and the grammar that it leaves, are those of the
declaration without its origin. -/
theorem declare_forgetOrigins (g : Grammar ο) (d : Declaration ο) :
    g.forgetOrigins.declare d.forgetOrigin =
      { value := (g.declare d).value.map fun told => (told.1, told.2.forgetOrigins)
        events := (g.declare d).events } := by
  cases d with
  | rule r =>
      have level : g.forgetOrigins.precedence.levelOf r.forgetOrigin.lhs =
          g.precedence.levelOf r.lhs := rfl
      have beyond : r.forgetOrigin.action.firstBeyond r.forgetOrigin.rhs.length =
          r.action.firstBeyond r.rhs.length := rfl
      have found : g.forgetOrigins.findRule r.forgetOrigin.toProduction =
          g.findRule r.toProduction := g.findRule_forgetOrigins r.toProduction
      simp only [declare, Declaration.forgetOrigin, declareRule, level, beyond, found]
      cases g.precedence.levelOf r.lhs with
      | some level => rfl
      | none =>
          cases r.action.firstBeyond r.rhs.length with
          | some position => rfl
          | none =>
              cases g.findRule r.toProduction with
              | some existing => rfl
              | none => simp [Except.map, ruleCount_forgetOrigins, forgetOrigins_append,
                  Rule.forgetOrigin]
  | level tag symbols =>
      have owner : g.forgetOrigins.isNonterminal = g.isNonterminal := rfl
      have table : g.forgetOrigins.precedence = g.precedence := rfl
      simp only [declare, Declaration.forgetOrigin, declareLevel, owner, table]
      cases symbols.find? g.isNonterminal with
      | some s => rfl
      | none => cases g.precedence.declare tag symbols <;> rfl
  | start s =>
      simp only [declare, Declaration.forgetOrigin, ← forgetOrigins_addStart]
      rfl

/-- Origins may be forgotten before a declaration or afterwards. -/
theorem after_forgetOrigins (g : Grammar ο) (d : Declaration ο) :
    g.forgetOrigins.after d.forgetOrigin = (g.after d).forgetOrigins := by
  rw [after, after, declare_forgetOrigins]
  cases (g.declare d).value <;> rfl

/-- The declarer is told the same. -/
theorem answers_forgetOrigins (g : Grammar ο) (history : List (Declaration ο)) :
    (g.forgetOrigins.answers (history.map (·.forgetOrigin))).map (·.2) =
      (g.answers history).map (·.2) := by
  induction history generalizing g with
  | nil => rfl
  | cons d later ih =>
      have told : (g.forgetOrigins.declare d.forgetOrigin).value.map (·.1) =
          (g.declare d).value.map (·.1) := by
        rw [declare_forgetOrigins]
        cases (g.declare d).value <;> rfl
      rw [List.map_cons, answers_cons, answers_cons, List.map_cons, List.map_cons, told,
        after_forgetOrigins, ih]

/-- Origins may be forgotten before a history or afterwards. -/
theorem afterAll_forgetOrigins (g : Grammar ο) (history : List (Declaration ο)) :
    g.forgetOrigins.afterAll (history.map (·.forgetOrigin)) =
      (g.afterAll history).forgetOrigins := by
  induction history generalizing g with
  | nil => rfl
  | cons d later ih =>
      rw [List.map_cons, afterAll_cons, afterAll_cons, after_forgetOrigins, ih]

/-- The grammar after a history without its origins. -/
theorem replay_forgetOrigins (history : List (Declaration ο)) :
    replay (history.map (·.forgetOrigin)) = (replay history).forgetOrigins :=
  afterAll_forgetOrigins ∅ history

/-! ## questions -/

/-- The analyses and the checks look at nothing that is forgotten. -/
theorem alike_forgetOrigins (g : Grammar ο) : g.forgetOrigins.Alike g where
  symbols := rfl
  isNonterminal := rfl
  productions := g.productions_forgetOrigins
  starts := rfl
  bogusSymbols := rfl

/-- The level of a rule does not go by its origin. -/
theorem ruleLevel_forgetOrigins (g : Grammar ο) (id : RuleId) :
    g.forgetOrigins.ruleLevel id = g.ruleLevel id := by
  rw [ruleLevel, ruleLevel, rule?_forgetOrigins]
  cases g.rule? id <;> rfl

/-- Origins are not shown in the rule table. -/
theorem tableRows_forgetOrigins (g : Grammar ο) : g.forgetOrigins.tableRows = g.tableRows := by
  simp only [tableRows, forgetOrigins, List.zipIdx_map, List.map_map]
  rfl

/-- The grammar without its origins answers as the grammar does. -/
theorem ask_forgetOrigins (g : Grammar ο) {α : Type} (q : Query α) :
    g.forgetOrigins.ask q = g.ask q := by
  have alike := g.alike_forgetOrigins
  cases q with
  | symbols | nonterminals | apparentTerminals | isNonterminal | isTerminal => rfl
  | starts | precedence | levelOf | compareLevels | rulesFor => rfl
  | rules => exact List.map_map
  | rule id =>
      rw [ask, ask, rule?_forgetOrigins, Option.map_map]
      rfl
  | ruleCount => exact g.ruleCount_forgetOrigins
  | augmentedBodies =>
      rw [ask, ask, augmentedBodies, augmentedBodies, forgetOrigins, List.map_map]
      rfl
  | acceptIds =>
      rw [ask, ask, acceptIds, acceptIds, ruleCount_forgetOrigins]
      rfl
  | table =>
      rw [ask, ask, printedTable, printedTable, table, table, tableLines, tableLines,
        tableRows_forgetOrigins]
  | ruleLevel id => exact g.ruleLevel_forgetOrigins id
  | resolveConflict lookahead id =>
      rw [ask, ask, resolveConflict, resolveConflict, ruleLevel_forgetOrigins]
      rfl
  | firstAnalysis => exact alike.firstAnalysis
  | checkBogusTokens => exact alike.checkBogusTokens
  | checkWellFounded => exact alike.checkWellFounded
  | checkReachability => exact alike.checkReachability
  | checkRenameLoops => exact alike.checkRenameLoops g.renameFlags_forgetOrigins
  | checkEpsilonLoops => exact alike.checkEpsilonLoops
  | checkEpsilonLoopsWith sets => exact alike.checkEpsilonLoopsWith sets
  | validate allowUnreachable =>
      exact alike.validate g.renameFlags_forgetOrigins allowUnreachable

/-! ## independence -/

/-- **Origins change no answer, and actions, anchors and levels change no finding**: two
histories that differ in origins only are told the same and leave grammars that answer
the same; and two grammars with the same productions in order, the same start symbols and
the same bogus symbols have the same FIRST sets and the same verdicts, the events included,
on bogus tokens, well-foundedness, reachability and epsilon loops.  If also the same rules
just rename, the check of rename loops and the whole validation, strict or not, come out
the same. -/
theorem origin_and_attribute_independence :
    (∀ (first : List (Declaration ο)) (second : List (Declaration ο')),
      first.map (·.forgetOrigin) = second.map (·.forgetOrigin) →
        (answers ∅ first).map (·.2) = (answers ∅ second).map (·.2) ∧
          ∀ {α : Type} (q : Query α), (replay first).ask q = (replay second).ask q) ∧
      ∀ (first : List (Declaration ο)) (second : List (Declaration ο')),
        let g := replay first
        let g' := replay second
        g.productions = g'.productions → g.starts = g'.starts →
        g.precedence.bogusSymbols = g'.precedence.bogusSymbols →
          g.firstAnalysis = g'.firstAnalysis ∧
            g.checkBogusTokens = g'.checkBogusTokens ∧
            g.checkWellFounded = g'.checkWellFounded ∧
            g.checkReachability = g'.checkReachability ∧
            g.checkEpsilonLoops = g'.checkEpsilonLoops ∧
            (g.renameFlags = g'.renameFlags →
              g.checkRenameLoops = g'.checkRenameLoops ∧
                ∀ allowUnreachable, g.validate allowUnreachable = g'.validate allowUnreachable) := by
  constructor
  · intro first second same
    constructor
    · have hfirst := answers_forgetOrigins ∅ first
      rw [same] at hfirst
      exact hfirst.symm.trans (answers_forgetOrigins ∅ second)
    · intro α q
      rw [← ask_forgetOrigins, ← replay_forgetOrigins, same, replay_forgetOrigins,
        ask_forgetOrigins]
  · intro first second g g' productions starts bogusSymbols
    have alike : g.Alike g' :=
      (coherent_replay first).alike (coherent_replay second) productions starts bogusSymbols
    exact ⟨alike.firstAnalysis, alike.checkBogusTokens, alike.checkWellFounded,
      alike.checkReachability, alike.checkEpsilonLoops,
      fun renames => ⟨alike.checkRenameLoops renames, alike.validate renames⟩⟩

/-- Sums and a negation, the first rule declared twice, and an origin for each declaration. -/
def sums (origin : Nat → ο) (tag : Symbol) (anchor : Option Symbol) : List (Declaration ο) :=
  [.rule ⟨⟨"E", ["E", "+", "E"]⟩, none, .construct tag [0, 2], origin 1⟩,
   .rule ⟨⟨"E", ["E", "+", "E"]⟩, none, .construct tag [0], origin 2⟩,
   .rule ⟨⟨"E", ["-", "E"]⟩, anchor, .construct tag [1], origin 3⟩,
   .rule ⟨⟨"E", ["num"]⟩, none, .rename 0, origin 4⟩,
   .level .bogus ["neg"], .start "E"]

/-- Lines or files as origins: the refusal of the second rule is told the same, and so is the
decision on the negation.  Other tags, no anchor, and a level for `+`: the grammar is
still found valid, with the same events. -/
theorem origin_and_attribute_independence_sums :
    let lines := sums id "node" (some "neg")
    let files := sums (fun line => if line < 3 then "here" else "there") "node" (some "neg")
    let others := .level .left ["+"] :: sums id "other" none
    lines.map (·.forgetOrigin) = files.map (·.forgetOrigin) ∧
      (answers ∅ lines).map (·.2) = (answers ∅ files).map (·.2) ∧
      (replay lines).ask (.resolveConflict "neg" 1) = (replay files).ask (.resolveConflict "neg" 1) ∧
      (replay lines).productions = (replay others).productions ∧
      (replay lines).starts = (replay others).starts ∧
      (replay lines).precedence.bogusSymbols = (replay others).precedence.bogusSymbols ∧
      (replay lines).renameFlags = (replay others).renameFlags ∧
      (replay lines).validate false = (replay others).validate false ∧
      (replay lines).rules ≠ (replay others).rules := by
  intro lines files others
  have same : lines.map (·.forgetOrigin) = files.map (·.forgetOrigin) := by decide +kernel
  have productions : (replay lines).productions = (replay others).productions := by
    decide +kernel
  have starts : (replay lines).starts = (replay others).starts := by decide +kernel
  have bogusSymbols : (replay lines).precedence.bogusSymbols =
      (replay others).precedence.bogusSymbols := by decide +kernel
  have renames : (replay lines).renameFlags = (replay others).renameFlags := by decide +kernel
  obtain ⟨told, answered⟩ := origin_and_attribute_independence.1 lines files same
  have found := (origin_and_attribute_independence.2 lines others productions starts
    bogusSymbols).2.2.2.2.2 renames
  exact ⟨same, told, answered _, productions, starts, bogusSymbols, renames, found.2 false,
    by decide +kernel⟩

end Grammar

end LRGrammar
