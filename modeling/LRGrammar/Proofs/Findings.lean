import LRGrammar.Proofs.Closure
import LRGrammar.Proofs.EpsilonLoops

/-!
# LRGrammar.Proofs.Findings

What the checks of a validation go by, told by the rules alone: which bodies mention
a bogus symbol, which symbols a start symbol leads to, which symbols only rename each
other.  (For the symbols that are stuck see `LRGrammar.Proofs.Productivity`, for the
dependencies `LRGrammar.Proofs.EpsilonLoops`.)

* `Grammar.firstProducing_eq_some_iff`, `Grammar.checkBogusTokens_eq_ok_iff` — the
  first body with a bogus symbol;
* `Grammar.mem_reachable` — the symbols that can be reached;
* `Grammar.mem_cyclicNodes_renameGraph` — the symbols that are renamed to themselves;
* `Grammar.value_validate` — the verdict of a validation, check by check.
-/

namespace LRGrammar

namespace Grammar

variable {ο : Type} {g : Grammar ο} {symbols : SymbolSet} {s a x : Symbol}

/-! ## bogus tokens -/

/-- The body of the rule mentions one of the symbols. -/
def Mentions (symbols : SymbolSet) (r : Rule ο) : Prop := ∃ x ∈ r.rhs, x ∈ symbols

/-- The rule that is found mentions one of the symbols, and no earlier rule does. -/
theorem firstProducing_eq_some_iff {id : RuleId} :
    g.firstProducing symbols = some id ↔
      (∃ r, g.rule? id = some r ∧ Mentions symbols r) ∧
        ∀ j < id, ∀ r, g.rule? j = some r → ¬ Mentions symbols r := by
  have test_iff (r : Rule ο) : r.rhs.any symbols.contains ↔ Mentions symbols r := by
    simp [Mentions, Std.ExtTreeSet.contains_iff_mem]
  rw [firstProducing, List.findIdx?_eq_some_iff_getElem]
  constructor
  · rintro ⟨hlt, hfound, hbefore⟩
    refine ⟨⟨_, List.getElem?_eq_getElem hlt, (test_iff _).mp hfound⟩, fun j hj r hr => ?_⟩
    obtain ⟨_, rfl⟩ := List.getElem?_eq_some_iff.mp hr
    exact fun hmentions => hbefore j hj ((test_iff _).mpr hmentions)
  · rintro ⟨⟨r, hr, hmentions⟩, hbefore⟩
    obtain ⟨hlt, rfl⟩ := List.getElem?_eq_some_iff.mp hr
    refine ⟨hlt, (test_iff _).mpr hmentions, fun j hj hfound => ?_⟩
    exact hbefore j hj _ (List.getElem?_eq_getElem (hj.trans hlt)) ((test_iff _).mp hfound)

/-- No rule is found exactly when no body mentions one of the symbols. -/
theorem firstProducing_eq_none_iff :
    g.firstProducing symbols = none ↔ ∀ p ∈ g.productions, ∀ x ∈ p.rhs, x ∉ symbols := by
  simp [firstProducing, productions, List.findIdx?_eq_none_iff]

/-- The check of bogus tokens passes if no body has one. -/
theorem checkBogusTokens_eq_ok_iff :
    g.checkBogusTokens.value = .ok () ↔
      ∀ p ∈ g.productions, ∀ x ∈ p.rhs, x ∉ g.precedence.bogusSymbols := by
  rw [← firstProducing_eq_none_iff, checkBogusTokens]
  cases g.firstProducing g.precedence.bogusSymbols <;> simp

/-- The check of bogus tokens blames the first rule with one. -/
theorem checkBogusTokens_eq_error_iff {fault : Fault} :
    g.checkBogusTokens.value = .error fault ↔
      ∃ id, g.firstProducing g.precedence.bogusSymbols = some id ∧ fault = .bogusToken id := by
  rw [checkBogusTokens]
  cases g.firstProducing g.precedence.bogusSymbols <;> simp [eq_comm]

end Grammar

/-! ## reachability -/

/-- Some rule for `a` has `x` in its body. -/
def Produces (P : List Production) (a x : Symbol) : Prop := ∃ p ∈ P, p.lhs = a ∧ x ∈ p.rhs

namespace Grammar

variable {ο : Type} {g : Grammar ο} {s a x : Symbol}

/-- The edges of the body graph lead from a symbol to those in its bodies. -/
theorem edge_bodyGraph : g.bodyGraph.Edge a x ↔ Produces g.productions a x :=
  Digraph.edge_map_iff

/-- The symbols that can be reached are those that a start symbol leads to. -/
theorem mem_reachable :
    s ∈ g.reachable ↔ ∃ root ∈ g.starts, Relation.ReflTransGen (Produces g.productions) root s := by
  have edges : g.bodyGraph.Edge = Produces g.productions :=
    Digraph.edge_eq_of_iff fun _ _ => edge_bodyGraph
  rw [reachable, SymbolSet.mem_ofList, Digraph.mem_closure, Digraph.Reaches, edges]

/-- A relaxed check of reachability always passes. -/
theorem value_warnOfUnreachable (g : Grammar ο) : g.warnOfUnreachable.value = .ok () := by
  rw [warnOfUnreachable, checkReachability, Check.blame]
  by_cases h : g.unreachable.isEmpty <;> simp [h]

end Grammar

/-! ## renaming -/

/-- Some rule only renames `a` to `x`. -/
def Renames {ο : Type} (rules : List (Rule ο)) (a x : Symbol) : Prop :=
  ∃ r ∈ rules, r.lhs = a ∧ r.rhs = [x] ∧ r.action = .rename 0

theorem Renames.mono {ο : Type} {rules more : List (Rule ο)} {a x : Symbol}
    (h : Renames rules a x) (hsub : rules ⊆ more) : Renames more a x := by
  obtain ⟨r, hr, hrename⟩ := h
  exact ⟨r, hsub hr, hrename⟩

namespace Grammar

variable {ο : Type} {g : Grammar ο} {s a x : Symbol}

/-- The edges of the rename graph lead from a symbol to what it is renamed to. -/
theorem edge_renameGraph : g.renameGraph.Edge a x ↔ Renames g.rules a x := by
  rw [renameGraph, Digraph.edge_map_iff]
  constructor
  · rintro ⟨r, hr, rfl, hx⟩
    obtain ⟨hmem, hrename⟩ := List.mem_filter.mp hr
    obtain ⟨⟨y, hy⟩, haction⟩ := Rule.isRename_iff.mp hrename
    obtain rfl : x = y := by simpa [hy] using hx
    exact ⟨r, hmem, rfl, hy, haction⟩
  · rintro ⟨r, hr, rfl, hrhs, haction⟩
    have hrename : r.isRename := Rule.isRename_iff.mpr ⟨⟨x, hrhs⟩, haction⟩
    exact ⟨r, List.mem_filter.mpr ⟨hr, hrename⟩, rfl, by simp [hrhs]⟩

/-- The symbols that the check blames are those that are renamed to themselves. -/
theorem mem_cyclicNodes_renameGraph :
    s ∈ SymbolSet.ofList g.renameGraph.cyclicNodes ↔
      Relation.TransGen (Renames g.rules) s s := by
  have edges : g.renameGraph.Edge = Renames g.rules :=
    Digraph.edge_eq_of_iff fun _ _ => edge_renameGraph
  rw [SymbolSet.mem_ofList, Digraph.mem_cyclicNodes, Digraph.OnCycle, edges]

/-! ## the whole validation -/

/-- The check of epsilon loops goes by the sets computed for the grammar. -/
theorem value_checkEpsilonLoops (g : Grammar ο) :
    g.checkEpsilonLoops.value =
      Check.blame .epsilonLoop (.ofList (g.dependencyGraph g.firstSets).cyclicNodes) := rfl

/-- The verdict is that of the first check that fails. -/
theorem value_validate (g : Grammar ο) (allowUnreachable : Bool) :
    (g.validate allowUnreachable).value =
      (g.checkBogusTokens.value.bind fun _ => g.checkWellFounded.value.bind fun _ =>
        (if allowUnreachable then .ok () else g.checkReachability.value).bind fun _ =>
          g.checkRenameLoops.value.bind fun _ => g.checkEpsilonLoops.value) := by
  have reachability : (if allowUnreachable then g.warnOfUnreachable else g.checkReachability).value =
      if allowUnreachable then .ok () else g.checkReachability.value := by
    cases allowUnreachable <;> simp [value_warnOfUnreachable]
  have assoc (x : Except Fault Unit) (f k : Unit → Except Fault Unit) :
      (x.bind f).bind k = x.bind fun a => (f a).bind k := bind_assoc x f k
  rw [validate, Check.value_followedBy_passing rfl]
  simp only [Check.value_followedBy, reachability, assoc]
  rfl

end Grammar

end LRGrammar
