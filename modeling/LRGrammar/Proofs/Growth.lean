import LRGrammar.Proofs.Acceptance
import LRGrammar.Proofs.Findings

/-!
# LRGrammar.Proofs.Growth

Declarations only add to a grammar: the rules so far keep their ids, and the levels
so far their numbers, tags and symbols (`Grammar.Extends`).  What a check blames on
the rules that are there therefore stays to blame, whatever is declared later; and
sets that were computed earlier, which may lack nullable symbols, never blame too much.

* `Grammar.extends_after`, `Grammar.extends_afterAll` — every history extends the
  grammar;
* `Grammar.Extends.productions_subset`, `Grammar.Extends.derivesEmpty`,
  `Grammar.Extends.mem_bogusSymbols` — what an extension keeps;
* `Grammar.Extends.exists_firstProducing` — the first body with a bogus symbol does not
  move to a later rule;
* `Grammar.Extends.exists_bogusToken`, `Grammar.Extends.exists_renamingLoop`,
  `Grammar.exists_epsilonLoop` — check by check, what stays to blame;
* `Grammar.faults_persist` — nullability and faults survive all further declarations.
-/

namespace LRGrammar

namespace Grammar

variable {ο : Type} {g g' g'' : Grammar ο} {d : Declaration ο} {s a x : Symbol}

/-- The rules and the levels of `g` are the first ones of `g'`, and its symbols have the
same levels there. -/
structure Extends (g g' : Grammar ο) : Prop where
  rules : g.rules <+: g'.rules
  tags : g.precedence.tags <+: g'.precedence.tags
  levelOf : ∀ s level, g.levelOf s = some level → g'.levelOf s = some level

/-- Every grammar extends itself. -/
theorem extends_refl (g : Grammar ο) : g.Extends g where
  rules := List.prefix_refl g.rules
  tags := List.prefix_refl g.precedence.tags
  levelOf _ _ h := h

/-- Extensions of extensions are extensions. -/
theorem Extends.trans (h : g.Extends g') (k : g'.Extends g'') : g.Extends g'' where
  rules := h.rules.trans k.rules
  tags := h.tags.trans k.tags
  levelOf s level hs := k.levelOf s level (h.levelOf s level hs)

/-! ## declarations extend -/

/-- An accepted declaration extends the grammar: a new level takes no symbol that has one. -/
theorem extends_grownBy (h : g.Accepts d) : g.Extends (g.grownBy d) := by
  cases d with
  | rule r => exact { extends_refl g with rules := List.prefix_append g.rules [r] }
  | level tag symbols =>
      obtain ⟨-, -, hfree⟩ := h
      refine { extends_refl g with tags := List.prefix_append g.precedence.tags [tag], levelOf := ?_ }
      intro s level hs
      have unlisted : s ∉ symbols := by
        intro hlisted
        have hnone := (hfree s hlisted).2
        rw [hs] at hnone
        contradiction
      exact PrecedenceTable.levelOf_grown.trans ((if_neg unlisted).trans hs)
  | start s =>
      rw [grownBy, addStart_eq]
      exact { extends_refl g with }

/-- Every declaration extends the grammar, a refused one trivially. -/
theorem extends_after (g : Grammar ο) (d : Declaration ο) : g.Extends (g.after d) := by
  by_cases h : g.Accepts d
  · rw [after_of_accepts h]
    exact extends_grownBy h
  · rw [after_of_not_accepts h]
    exact extends_refl g

/-- Every history extends the grammar, refused declarations included. -/
theorem extends_afterAll (g : Grammar ο) (history : List (Declaration ο)) :
    g.Extends (g.afterAll history) := by
  induction history generalizing g with
  | nil => exact extends_refl g
  | cons d later ih => exact (extends_after g d).trans (ih (g.after d))

/-! ## what an extension keeps -/

namespace Extends

variable (h : g.Extends g')

include h

/-- A rule keeps its id. -/
theorem rule?_eq_some {id : RuleId} {r : Rule ο} (hr : g.rule? id = some r) :
    g'.rule? id = some r := by
  obtain ⟨later, heq⟩ := h.rules
  rw [rule?, ← heq, List.getElem?_append_left (lt_ruleCount_of_rule? hr)]
  exact hr

/-- No production is lost. -/
theorem productions_subset : g.productions ⊆ g'.productions :=
  List.map_subset _ h.rules.subset

/-- What derives the empty sequence goes on to do so. -/
theorem derivesEmpty (hs : DerivesEmpty g.productions s) : DerivesEmpty g'.productions s :=
  Derives.mono hs h.productions_subset

/-- A level keeps its tag. -/
theorem tagOf_eq_some {level : Level} {tag : Associativity}
    (htag : g.precedence.tagOf level = some tag) : g'.precedence.tagOf level = some tag := by
  obtain ⟨later, heq⟩ := h.tags
  have hlt : level < g.precedence.tags.length := (List.getElem?_eq_some_iff.mp htag).1
  rw [PrecedenceTable.tagOf, ← heq, List.getElem?_append_left hlt]
  exact htag

/-- A bogus symbol stays bogus. -/
theorem mem_bogusSymbols (hs : s ∈ g.precedence.bogusSymbols) :
    s ∈ g'.precedence.bogusSymbols := by
  rw [PrecedenceTable.mem_bogusSymbols, Option.bind_eq_some_iff] at hs ⊢
  obtain ⟨level, hlevel, htag⟩ := hs
  exact ⟨level, h.levelOf s level hlevel, h.tagOf_eq_some htag⟩

/-- The first body with a bogus symbol is the same, or an earlier one. -/
theorem exists_firstProducing {i : RuleId}
    (hi : g.firstProducing g.precedence.bogusSymbols = some i) :
    ∃ j ≤ i, g'.firstProducing g'.precedence.bogusSymbols = some j := by
  obtain ⟨⟨r, hr, x, hx, hbogus⟩, -⟩ := firstProducing_eq_some_iff.mp hi
  have found : Mentions g'.precedence.bogusSymbols r := ⟨x, hx, h.mem_bogusSymbols hbogus⟩
  have hr' : g'.rule? i = some r := h.rule?_eq_some hr
  cases hj : g'.firstProducing g'.precedence.bogusSymbols with
  | none =>
      have hp : r.toProduction ∈ g'.productions := mem_productions_iff.mpr ⟨i, r, hr', rfl⟩
      exact absurd (h.mem_bogusSymbols hbogus) (firstProducing_eq_none_iff.mp hj _ hp x hx)
  | some j =>
      refine ⟨j, ?_, rfl⟩
      by_contra hlt
      exact (firstProducing_eq_some_iff.mp hj).2 i (Nat.lt_of_not_le hlt) r hr' found

/-- A nullable symbol stays nullable. -/
theorem isNullable_firstSets (hs : g.firstSets.isNullable s) : g'.firstSets.isNullable s := by
  have hempty : DerivesEmpty g.productions s := by rwa [← Grammar.isNullable_firstSets]
  have hempty' := h.derivesEmpty hempty
  rwa [← Grammar.isNullable_firstSets] at hempty'

/-! ## what stays to blame -/

/-- A rule with a bogus token stays to blame, unless an earlier one is. -/
theorem exists_bogusToken {i : RuleId} (hi : g.checkBogusTokens.value = .error (.bogusToken i)) :
    ∃ j ≤ i, g'.checkBogusTokens.value = .error (.bogusToken j) := by
  obtain ⟨id, hid, heq⟩ := checkBogusTokens_eq_error_iff.mp hi
  obtain rfl : i = id := Fault.bogusToken.inj heq
  obtain ⟨j, hle, hj⟩ := h.exists_firstProducing hid
  exact ⟨j, hle, checkBogusTokens_eq_error_iff.mpr ⟨j, hj, rfl⟩⟩

/-- Symbols that are renamed to themselves stay to blame. -/
theorem exists_renamingLoop {broken : SymbolSet}
    (hbroken : g.checkRenameLoops.value = .error (.renamingLoop broken)) :
    ∃ broken', g'.checkRenameLoops.value = .error (.renamingLoop broken') ∧
      ∀ s ∈ broken, s ∈ broken' := by
  refine Check.exists_blame_of_subset (fun _ _ heq => Fault.renamingLoop.inj heq) ?_ hbroken
  intro s hs
  rw [mem_cyclicNodes_renameGraph] at hs ⊢
  exact Relation.TransGen.mono (fun _ _ step => step.mono h.rules.subset) _ _ hs

end Extends

/-- With rules and nullable symbols that are among those of the grammar, only symbols are
blamed that the grammar's own check blames. -/
theorem exists_epsilonLoop {sets : FirstSets} (hP : g.productions ⊆ g'.productions)
    (hsets : ∀ s, sets.isNullable s → g'.firstSets.isNullable s) {broken : SymbolSet}
    (hbroken : (g.checkEpsilonLoopsWith sets).value = .error (.epsilonLoop broken)) :
    ∃ broken', g'.checkEpsilonLoops.value = .error (.epsilonLoop broken') ∧
      ∀ s ∈ broken, s ∈ broken' :=
  Check.exists_blame_of_subset (fun _ _ heq => Fault.epsilonLoop.inj heq)
    (fun _ hs => mem_cyclicNodes_dependencyGraph_of_subset hP hsets hs) hbroken

/-- **Nullability and faults are persistent**: whatever is declared later, accepted or
refused, nullable symbols stay nullable; the checks of rename loops and of epsilon
loops, if they failed, fail again and blame no fewer symbols; a bogus token, if one
was found, is found in that rule or an earlier one; and epsilon loops that are found
with the sets of the earlier grammar are found with those of the later one. -/
theorem faults_persist (earlier later : List (Declaration ο)) :
    let g := replay earlier
    let g' := g.afterAll later
    (∀ s ∈ g.firstSets.nullable, s ∈ g'.firstSets.nullable) ∧
      (∀ broken, g.checkRenameLoops.value = .error (.renamingLoop broken) →
        ∃ broken', g'.checkRenameLoops.value = .error (.renamingLoop broken') ∧
          ∀ s ∈ broken, s ∈ broken') ∧
      (∀ broken, g.checkEpsilonLoops.value = .error (.epsilonLoop broken) →
        ∃ broken', g'.checkEpsilonLoops.value = .error (.epsilonLoop broken') ∧
          ∀ s ∈ broken, s ∈ broken') ∧
      (∀ i, g.checkBogusTokens.value = .error (.bogusToken i) →
        ∃ j ≤ i, g'.checkBogusTokens.value = .error (.bogusToken j)) ∧
      (∀ broken, (g'.checkEpsilonLoopsWith g.firstSets).value = .error (.epsilonLoop broken) →
        ∃ broken', g'.checkEpsilonLoops.value = .error (.epsilonLoop broken') ∧
          ∀ s ∈ broken, s ∈ broken') := by
  intro g g'
  have h : g.Extends g' := extends_afterAll g later
  have nullable_mono : ∀ s, g.firstSets.isNullable s → g'.firstSets.isNullable s :=
    fun _ hs => h.isNullable_firstSets hs
  refine ⟨?_, ?_, ?_, ?_, ?_⟩
  · intro s hs
    exact Std.ExtTreeSet.contains_iff_mem.mp
      (nullable_mono s (Std.ExtTreeSet.contains_iff_mem.mpr hs))
  · intro broken hbroken
    exact h.exists_renamingLoop hbroken
  · intro broken hbroken
    exact exists_epsilonLoop h.productions_subset nullable_mono hbroken
  · intro i hi
    exact h.exists_bogusToken hi
  · intro broken hbroken
    exact exists_epsilonLoop (List.Subset.refl _) nullable_mono hbroken

/-- Rules that rename `A` to itself and mention a symbol of a bogus level. -/
def selfRenaming : List (Declaration Unit) :=
  [.rule ⟨⟨"A", ["A"]⟩, none, .rename 0, ()⟩,
   .rule ⟨⟨"A", ["x", "A"]⟩, none, .construct "more" [1], ()⟩,
   .rule ⟨⟨"A", ["neg"]⟩, none, .construct "last" [0], ()⟩,
   .level .bogus ["neg"]]

/-- Later declarations, the first of them refused, draw `B` into the loops and make the
symbol of an earlier body bogus. -/
theorem faults_persist_selfRenaming :
    let g := replay selfRenaming
    let g' := g.afterAll
      [.rule ⟨⟨"A", ["A"]⟩, none, .rename 0, ()⟩, .rule ⟨⟨"A", ["B"]⟩, none, .rename 0, ()⟩,
       .rule ⟨⟨"B", ["A"]⟩, none, .rename 0, ()⟩, .level .bogus ["x"]]
    g.checkRenameLoops.value = .error (.renamingLoop (.ofList ["A"])) ∧
      (∃ broken', g'.checkRenameLoops.value = .error (.renamingLoop broken') ∧
        ∀ s ∈ SymbolSet.ofList ["A"], s ∈ broken') ∧
      g'.checkRenameLoops.value = .error (.renamingLoop (.ofList ["B", "A"])) ∧
      g.checkBogusTokens.value = .error (.bogusToken 2) ∧
      (∃ j ≤ 2, g'.checkBogusTokens.value = .error (.bogusToken j)) ∧
      g'.checkBogusTokens.value = .error (.bogusToken 1) := by
  intro g g'
  have hloop : g.checkRenameLoops.value = .error (.renamingLoop (.ofList ["A"])) := by
    decide +kernel
  have hbogus : g.checkBogusTokens.value = .error (.bogusToken 2) := by decide +kernel
  obtain ⟨-, renameLoops, -, bogusTokens, -⟩ := faults_persist selfRenaming
    [.rule ⟨⟨"A", ["A"]⟩, none, .rename 0, ()⟩, .rule ⟨⟨"A", ["B"]⟩, none, .rename 0, ()⟩,
     .rule ⟨⟨"B", ["A"]⟩, none, .rename 0, ()⟩, .level .bogus ["x"]]
  exact ⟨hloop, renameLoops _ hloop, by decide +kernel, hbogus, bogusTokens 2 hbogus,
    by decide +kernel⟩

end Grammar

end LRGrammar
