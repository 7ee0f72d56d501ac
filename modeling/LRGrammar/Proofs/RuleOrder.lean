import LRGrammar.Proofs.Findings
import LRGrammar.Proofs.Productivity

/-!
# LRGrammar.Proofs.RuleOrder

The order of the rules decides how the analyses and the checks go about their work:
which item the scan takes next, what a sweep settles on its way, how the components
come out.  It does not decide what they find.  Each result was shown to be a set or a
table that is told by membership alone, of a production in the rules or of a symbol
in the start symbols; so grammars with the same members have the same results.

* `derives_congr` — derivations go by membership;
* `Grammar.Coherent.firstSets_congr`, `Grammar.Coherent.stuck_congr`,
  `Grammar.Coherent.unreachable_congr` — so do the analyses;
* `Grammar.verdicts_of_sameUpToOrder` — grammars that differ in order have the same
  FIRST sets and the same verdicts.
-/

namespace LRGrammar

/-! ## membership -/

section Membership

variable {P Q : List Production} (same : ∀ p, p ∈ P ↔ p ∈ Q)

include same

/-- The same sequences are derived by any order of the productions. -/
theorem derives_congr : Derives P = Derives Q := by
  funext xs ys
  apply propext
  constructor
  · intro h
    exact h.mono fun p => (same p).mp
  · intro h
    exact h.mono fun p => (same p).mpr

/-- The same symbols derive the empty sequence. -/
theorem derivesEmpty_congr : DerivesEmpty P = DerivesEmpty Q := by
  funext s
  rw [DerivesEmpty, DerivesEmpty, derives_congr same]

/-- The same symbols derive sequences of symbols without rules. -/
theorem productive_congr : Productive P = Productive Q := by
  funext s
  simp only [Productive, Ruleless, derives_congr same, same]

/-- The same symbols stand in the bodies of a symbol. -/
theorem produces_congr : Produces P = Produces Q := by
  funext a x
  simp only [Produces, same]

/-- The same symbols depend on each other, whichever are taken for nullable. -/
theorem depends_congr (N : Symbol → Prop) : Depends N P = Depends N Q := by
  funext a x
  simp only [Depends, same]

end Membership

/-- Which symbol is renamed to which does not go by origins. -/
theorem renames_forgetOrigin {ο : Type} (rules : List (Rule ο)) :
    Renames (rules.map (·.forgetOrigin)) = Renames rules := by
  funext a x
  simp [Renames, Rule.forgetOrigin]

namespace Grammar

variable {ο ο' : Type} {g : Grammar ο} {g' : Grammar ο'}

/-! ## analyses -/

namespace Coherent

variable (h : g.Coherent) (h' : g'.Coherent)
variable (same : ∀ p, p ∈ g.productions ↔ p ∈ g'.productions)

include h h' same

/-- The same symbols occur. -/
theorem mem_symbols_congr (s : Symbol) : s ∈ g.symbols ↔ s ∈ g'.symbols := by
  simp only [h.mem_symbols, h'.mem_symbols, same]

/-- The same symbols own rules. -/
theorem isNonterminal_congr (s : Symbol) : g.isNonterminal s = g'.isNonterminal s := by
  rw [Bool.eq_iff_iff]
  simp only [h.isNonterminal_iff, h'.isNonterminal_iff, same]

/-- The FIRST sets and the nullable symbols go by the members of the productions. -/
theorem firstSets_congr : g.firstSets = g'.firstSets := by
  obtain ⟨hkeys, hfirst⟩ := h.settleAll_scan (Digraph.lists_ofMap _)
  obtain ⟨hkeys', hfirst'⟩ := h'.settleAll_scan (Digraph.lists_ofMap _)
  have first_eq : g.firstSets.first = g'.firstSets.first := by
    apply SymbolMap.ext_mem
    · intro s
      exact (hkeys s).trans ((h.mem_symbols_congr h' same s).trans (hkeys' s).symm)
    · intro s t
      refine (hfirst s t).trans (Iff.trans ?_ (hfirst' s t).symm)
      rw [h.mem_symbols_congr h' same, h.isNonterminal_congr h' same, derives_congr same]
  have nullable_eq : g.firstSets.nullable = g'.firstSets.nullable := by
    apply Std.ExtTreeSet.ext_mem
    intro s
    refine Scan.mem_nullable_run.trans (Iff.trans ?_ Scan.mem_nullable_run.symm)
    rw [derivesEmpty_congr same]
  exact congrArg₂ FirstSets.mk first_eq nullable_eq

/-- The sweeps end with the same symbols, in whatever order they settle the others. -/
theorem stuck_congr : g.settling.stuck = g'.settling.stuck := by
  apply Std.ExtTreeSet.ext_mem
  intro s
  rw [h.mem_stuck, h'.mem_stuck, mem_nonterminals, mem_nonterminals,
    h.isNonterminal_congr h' same, productive_congr same]

/-- No order of start symbols or bodies makes another symbol reachable. -/
theorem unreachable_congr (hstarts : ∀ s, s ∈ g.starts ↔ s ∈ g'.starts) :
    g.unreachable = g'.unreachable := by
  apply Std.ExtTreeSet.ext_mem
  intro s
  simp only [mem_unreachable, mem_reachable, h.mem_symbols_congr h' same, hstarts,
    produces_congr same]

end Coherent

/-! ## checks -/

/-- The check of epsilon loops blames the same symbols. -/
theorem checkEpsilonLoops_congr (same : ∀ p, p ∈ g.productions ↔ p ∈ g'.productions) :
    g.checkEpsilonLoops.value = g'.checkEpsilonLoops.value := by
  rw [value_checkEpsilonLoops, value_checkEpsilonLoops]
  refine congrArg (Check.blame .epsilonLoop) (Std.ExtTreeSet.ext_mem fun s => ?_)
  rw [g.mem_broken, g'.mem_broken, derivesEmpty_congr same, depends_congr same]

/-- The check of rename loops blames the same symbols. -/
theorem checkRenameLoops_congr (same : Renames g.rules = Renames g'.rules) :
    g.checkRenameLoops.value = g'.checkRenameLoops.value := by
  refine congrArg (Check.blame .renamingLoop) (Std.ExtTreeSet.ext_mem fun s => ?_)
  rw [mem_cyclicNodes_renameGraph, mem_cyclicNodes_renameGraph, same]

/-- Where the same symbols are bogus, both checks of the bodies pass, or both fail. -/
theorem checkBogusTokens_congr (same : ∀ p, p ∈ g.productions ↔ p ∈ g'.productions)
    (hbogus : g.precedence.bogusSymbols = g'.precedence.bogusSymbols) :
    g.checkBogusTokens.value = .ok () ∧ g'.checkBogusTokens.value = .ok () ∨
      ∃ i j, g.checkBogusTokens.value = .error (.bogusToken i) ∧
        g'.checkBogusTokens.value = .error (.bogusToken j) := by
  have ok_iff : g.checkBogusTokens.value = .ok () ↔ g'.checkBogusTokens.value = .ok () := by
    simp only [checkBogusTokens_eq_ok_iff, same, hbogus]
  cases hg : g.checkBogusTokens.value with
  | ok => exact .inl ⟨rfl, ok_iff.mp hg⟩
  | error fault =>
      cases hg' : g'.checkBogusTokens.value with
      | ok => exact absurd (ok_iff.mpr hg') (by simp [hg])
      | error fault' =>
          obtain ⟨i, -, rfl⟩ := checkBogusTokens_eq_error_iff.mp hg
          obtain ⟨j, -, rfl⟩ := checkBogusTokens_eq_error_iff.mp hg'
          exact .inr ⟨i, j, rfl, rfl⟩

/-- The grammars have the same rules up to their origins, and the same start symbols, in
whatever order. -/
structure SameUpToOrder (g : Grammar ο) (g' : Grammar ο') : Prop where
  rules : (g.rules.map (·.forgetOrigin)).Perm (g'.rules.map (·.forgetOrigin))
  starts : g.starts.Perm g'.starts

namespace SameUpToOrder

variable (h : SameUpToOrder g g')

include h

/-- Grammars that differ in order have the same productions. -/
theorem mem_productions_iff (p : Production) : p ∈ g.productions ↔ p ∈ g'.productions := by
  have forget {ο : Type} (g : Grammar ο) :
      g.productions = (g.rules.map (·.forgetOrigin)).map (·.toProduction) := by
    rw [productions, List.map_map]
    rfl
  rw [forget g, forget g']
  exact (h.rules.map _).mem_iff

/-- Grammars that differ in order rename alike. -/
theorem renames_eq : Renames g.rules = Renames g'.rules := by
  rw [← renames_forgetOrigin g.rules, ← renames_forgetOrigin g'.rules]
  funext a x
  simp only [Renames, h.rules.mem_iff]

end SameUpToOrder

/-- **The order of rules and of start symbols does not matter**: two grammars that differ
in it have the same FIRST sets and nullable symbols, and the four checks of the rules
have the same verdicts, with the same symbols blamed.  If the same symbols are bogus,
so has a validation as a whole, strict or not, except that another rule may be cited
for a bogus token. -/
theorem verdicts_of_sameUpToOrder (history : List (Declaration ο))
    (other : List (Declaration ο')) (h : SameUpToOrder (replay history) (replay other)) :
    (replay history).firstSets = (replay other).firstSets ∧
      (replay history).checkWellFounded.value = (replay other).checkWellFounded.value ∧
      (replay history).checkReachability.value = (replay other).checkReachability.value ∧
      (replay history).checkRenameLoops.value = (replay other).checkRenameLoops.value ∧
      (replay history).checkEpsilonLoops.value = (replay other).checkEpsilonLoops.value ∧
      ((∀ s, s ∈ (replay history).precedence.bogusSymbols ↔
          s ∈ (replay other).precedence.bogusSymbols) →
        ∀ allowUnreachable,
          ((replay history).validate allowUnreachable).value =
              ((replay other).validate allowUnreachable).value ∨
            ∃ i j, ((replay history).validate allowUnreachable).value = .error (.bogusToken i) ∧
              ((replay other).validate allowUnreachable).value = .error (.bogusToken j)) := by
  have hg := coherent_replay history
  have hg' := coherent_replay other
  have same := h.mem_productions_iff
  have wellFounded : (replay history).checkWellFounded.value =
      (replay other).checkWellFounded.value :=
    congrArg (Check.blame .illFounded) (hg.stuck_congr hg' same)
  have reachability : (replay history).checkReachability.value =
      (replay other).checkReachability.value :=
    congrArg (Check.blame .unreachable)
      (hg.unreachable_congr hg' same fun _ => h.starts.mem_iff)
  have renameLoops := checkRenameLoops_congr h.renames_eq
  have epsilonLoops := checkEpsilonLoops_congr same
  refine ⟨hg.firstSets_congr hg' same, wellFounded, reachability, renameLoops, epsilonLoops,
    fun hbogus allowUnreachable => ?_⟩
  rw [value_validate, value_validate, ← wellFounded, ← reachability, ← renameLoops,
    ← epsilonLoops]
  -- the check of bogus tokens comes first, and only it can tell the two apart
  rcases checkBogusTokens_congr same (Std.ExtTreeSet.ext_mem hbogus) with
    ⟨hok, hok'⟩ | ⟨i, j, herror, herror'⟩
  · exact .inl (by rw [hok, hok'])
  · exact .inr ⟨i, j, by rw [herror]; rfl, by rw [herror']; rfl⟩

/-- Rules with a renaming cycle, a symbol that nothing derives, and one that is bogus. -/
def tangledRules : List (Declaration Unit) :=
  [.rule ⟨⟨"A", ["B"]⟩, none, .rename 0, ()⟩, .rule ⟨⟨"B", ["A"]⟩, none, .rename 0, ()⟩,
   .rule ⟨⟨"B", ["A", "neg"]⟩, none, .construct "b" [0], ()⟩,
   .rule ⟨⟨"E", []⟩, none, .construct "e" [], ()⟩]

/-- The tangled rules in order, and from the last to the first: the rule that is cited for
the bogus token is another one, all else is the same. -/
theorem verdicts_of_sameUpToOrder_tangled :
    let forth := .level .bogus ["neg"] :: .start "A" :: tangledRules
    let back := .start "A" :: tangledRules.reverse ++ [.level .bogus ["neg"]]
    SameUpToOrder (replay forth) (replay back) ∧
      (replay forth).precedence.bogusSymbols = (replay back).precedence.bogusSymbols ∧
      (replay forth).firstSets = (replay back).firstSets ∧
      (replay forth).checkEpsilonLoops.value = (replay back).checkEpsilonLoops.value ∧
      (∃ i j, ((replay forth).validate false).value = .error (.bogusToken i) ∧
        ((replay back).validate false).value = .error (.bogusToken j)) ∧
      ((replay forth).validate false).value = .error (.bogusToken 2) ∧
      ((replay back).validate false).value = .error (.bogusToken 1) := by
  intro forth back
  have h : SameUpToOrder (replay forth) (replay back) := ⟨by decide +kernel, by decide +kernel⟩
  have hbogus : (replay forth).precedence.bogusSymbols = (replay back).precedence.bogusSymbols := by
    decide +kernel
  have hforth : ((replay forth).validate false).value = .error (.bogusToken 2) := by
    decide +kernel
  have hback : ((replay back).validate false).value = .error (.bogusToken 1) := by
    decide +kernel
  obtain ⟨first, -, -, -, epsilonLoops, validations⟩ := verdicts_of_sameUpToOrder forth back h
  have cited := (validations (fun s => by rw [hbogus]) false).resolve_left (by simp [hforth, hback])
  exact ⟨h, hbogus, first, epsilonLoops, cited, hforth, hback⟩

end Grammar

end LRGrammar
