import LRGrammar.Proofs.Skeleton

/-!
# LRGrammar.Proofs.UnitCycles

Symbols that are rewritten to themselves by bodies of one symbol.  As long as every body
is a single symbol, a sequence of one symbol stays one, and a derivation is a path; the
check of rename loops finds the symbols that come back to themselves by rules that only
rename.  The check of epsilon loops finds these and all others that come back by bodies of
one symbol, whatever symbols it takes for nullable, and with more nullable symbols it
finds no fewer.

* `transGen_rewrites_iff` — rewriting by bodies of one symbol;
* `Grammar.checkRenameLoops_verdict` — what the check of rename loops finds;
* `Grammar.mem_blamed_checkEpsilonLoopsWith`, `Grammar.mem_blamed_checkRenameLoops` — the
  symbols that the two checks blame;
* `Grammar.blamed_of_nullable_subset` — how the two compare, and what they depend on.
-/

namespace LRGrammar

variable {P : List Production} {a b s x : Symbol} {ys : List Symbol}

/-! ## rewriting a single symbol -/

/-- The symbol is rewritten to itself in one step or more. -/
def ComesBack (P : List Production) (s : Symbol) : Prop :=
  Relation.TransGen (Rewrites P) [s] [s]

/-- The productions with a body of one symbol. -/
def unitProductions (P : List Production) : List Production := P.filter (·.rhs.length = 1)

theorem mem_unitProductions {p : Production} :
    p ∈ unitProductions P ↔ p ∈ P ∧ ∃ x, p.rhs = [x] := by
  rw [unitProductions, List.mem_filter, decide_eq_true_eq, List.length_eq_one_iff]

/-- By bodies of one symbol a symbol is rewritten to single symbols only, step by step. -/
theorem transGen_rewrites_iff (hunit : ∀ p ∈ P, ∃ x, p.rhs = [x]) :
    Relation.TransGen (Rewrites P) [a] ys ↔
      ∃ b, ys = [b] ∧ Relation.TransGen (fun a x => ⟨a, [x]⟩ ∈ P) a b := by
  constructor
  · intro h
    induction h with
    | single step =>
        have hp := rewrites_singleton_iff.mp step
        obtain ⟨x, rfl⟩ := hunit _ hp
        exact ⟨x, rfl, .single hp⟩
    | tail _ step ih =>
        obtain ⟨b, rfl, path⟩ := ih
        have hp := rewrites_singleton_iff.mp step
        obtain ⟨x, rfl⟩ := hunit _ hp
        exact ⟨x, rfl, path.tail hp⟩
  · rintro ⟨b, rfl, path⟩
    induction path with
    | single hp => exact .single (rewrites_singleton_iff.mpr hp)
    | tail _ hp ih => exact ih.tail (rewrites_singleton_iff.mpr hp)

theorem comesBack_iff (hunit : ∀ p ∈ P, ∃ x, p.rhs = [x]) :
    ComesBack P s ↔ Relation.TransGen (fun a x => ⟨a, [x]⟩ ∈ P) s s := by
  rw [ComesBack, transGen_rewrites_iff hunit]
  constructor
  · rintro ⟨b, heq, path⟩
    rwa [← List.singleton_inj.mp heq] at path
  · intro path
    exact ⟨s, rfl, path⟩

/-! ## what is blamed -/

/-- The symbols that a check blames: none, if it passes. -/
def Check.blamed (check : Check) : SymbolSet :=
  match check.value with
  | .ok () => ∅
  | .error fault => .ofList fault.symbols

/-- What is blamed is what the verdict was reached from. -/
theorem Check.blamed_eq (fault : SymbolSet → Fault) {check : Check} {symbols : SymbolSet}
    (hvalue : check.value = blame fault symbols)
    (hsymbols : (fault symbols).symbols = symbols.toList) : check.blamed = symbols := by
  rw [blamed, hvalue, blame]
  cases hempty : symbols.isEmpty with
  | true => exact (Std.ExtTreeSet.isEmpty_iff.mp hempty).symm
  | false =>
      apply Std.ExtTreeSet.ext_mem
      intro s
      simp [hsymbols, Std.ExtTreeSet.mem_toList]

namespace Grammar

variable {ο : Type} {g : Grammar ο} {sets : FirstSets}

/-! ## rename loops -/

theorem mem_renameProductions {p : Production} :
    p ∈ g.renameProductions ↔ ∃ r ∈ g.rules, r.isRename ∧ r.toProduction = p := by
  simp only [renameProductions, renames, List.mem_map, List.mem_filter, and_assoc]

theorem exists_rhs_eq_of_mem_renameProductions :
    ∀ p ∈ g.renameProductions, ∃ x, p.rhs = [x] := by
  intro p hp
  obtain ⟨r, -, hrename, rfl⟩ := mem_renameProductions.mp hp
  exact (Rule.isRename_iff.mp hrename).1

theorem mk_mem_renameProductions_iff : ⟨a, [x]⟩ ∈ g.renameProductions ↔ Renames g.rules a x := by
  rw [mem_renameProductions]
  constructor
  · rintro ⟨r, hr, hrename, heq⟩
    have hlhs : r.lhs = a := congrArg Production.lhs heq
    have hrhs : r.rhs = [x] := congrArg Production.rhs heq
    exact ⟨r, hr, hlhs, hrhs, (Rule.isRename_iff.mp hrename).2⟩
  · rintro ⟨r, hr, rfl, hrhs, haction⟩
    exact ⟨r, hr, Rule.isRename_iff.mpr ⟨⟨x, hrhs⟩, haction⟩, congrArg (Production.mk r.lhs) hrhs⟩

theorem comesBack_renameProductions_iff :
    ComesBack g.renameProductions s ↔ Relation.TransGen (Renames g.rules) s s := by
  simp only [comesBack_iff exists_rhs_eq_of_mem_renameProductions, mk_mem_renameProductions_iff]

/-- The symbols to blame are those that come back to themselves by renaming. -/
theorem mem_renameCycles (g : Grammar ο) (s : Symbol) :
    s ∈ SymbolSet.ofList g.renameGraph.cyclicNodes ↔ ComesBack g.renameProductions s := by
  rw [mem_cyclicNodes_renameGraph, comesBack_renameProductions_iff]

/-- **The check finds the symbols that are renamed to themselves**: it passes if and only if
no symbol comes back to itself by rules that only rename, and otherwise names exactly the
symbols that do.  These are the symbols that one rule renames to themselves, and those
that share a component of the graph of all other renames with another symbol, on however
many cycles; a symbol that only leads into a cycle or out of one is not among them. -/
theorem checkRenameLoops_verdict (g : Grammar ο) :
    (g.checkRenameLoops.value = .ok () ↔ ∀ s, ¬ ComesBack g.renameProductions s) ∧
      (g.checkRenameLoops.value = .ok () ∨
        ∃ broken, g.checkRenameLoops.value = .error (.renamingLoop broken) ∧
          ∀ s, s ∈ broken ↔ ComesBack g.renameProductions s) ∧
      ∀ s, ComesBack g.renameProductions s ↔
        Renames g.rules s s ∨
          ∃ c ∈ g.renameGraph.withoutLoops.components, 1 < c.length ∧ s ∈ c := by
  obtain ⟨hok, herror⟩ := Check.blame_verdict .renamingLoop g.mem_renameCycles
  refine ⟨hok, herror, fun s => ?_⟩
  rw [← mem_renameCycles, SymbolSet.mem_ofList, Digraph.mem_cyclicNodes,
    Digraph.onCycle_iff_loop_or_component, edge_renameGraph]

/-- Two cycles with `B` in common, a way in from `D` and a way out to `E`, and a loop. -/
example :
    let rename (a x : Symbol) : Declaration Unit := .rule ⟨⟨a, [x]⟩, none, .rename 0, ()⟩
    (replay [rename "A" "B", rename "B" "A", rename "B" "C", rename "C" "B", rename "D" "A",
      rename "C" "E", rename "F" "F"]).checkRenameLoops.value =
        .error (.renamingLoop (.ofList ["A", "B", "C", "F"])) := by
  decide +kernel

/-! ## epsilon loops -/

theorem blamed_checkEpsilonLoopsWith (g : Grammar ο) (sets : FirstSets) :
    (g.checkEpsilonLoopsWith sets).blamed = .ofList (g.dependencyGraph sets).cyclicNodes :=
  Check.blamed_eq .epsilonLoop rfl rfl

/-- The symbols that the check of epsilon loops blames, going by any sets. -/
theorem mem_blamed_checkEpsilonLoopsWith :
    s ∈ (g.checkEpsilonLoopsWith sets).blamed ↔
      Relation.TransGen (Depends (fun s => sets.isNullable s) g.productions) s s := by
  rw [blamed_checkEpsilonLoopsWith, mem_cyclicNodes_dependencyGraph]

/-- The symbols that the check of rename loops blames. -/
theorem mem_blamed_checkRenameLoops :
    s ∈ g.checkRenameLoops.blamed ↔ ComesBack g.renameProductions s := by
  rw [← mem_renameCycles]
  exact iff_of_eq (congrArg (s ∈ ·) (Check.blamed_eq .renamingLoop rfl rfl))

/-- A body of one symbol is a dependency, whatever counts as nullable. -/
theorem mem_blamed_of_comesBack (h : ComesBack (unitProductions g.productions) s)
    (sets : FirstSets) : s ∈ (g.checkEpsilonLoopsWith sets).blamed := by
  rw [comesBack_iff fun _ hp => (mem_unitProductions.mp hp).2] at h
  refine mem_blamed_checkEpsilonLoopsWith.mpr (Relation.TransGen.mono ?_ _ _ h)
  intro a x hp
  exact ⟨_, (mem_unitProductions.mp hp).1, rfl, .inl rfl⟩

/-- What comes back by renaming comes back by bodies of one symbol. -/
theorem comesBack_unitProductions (h : ComesBack g.renameProductions s) :
    ComesBack (unitProductions g.productions) s := by
  refine Relation.TransGen.mono (fun _ _ step => step.mono fun p hp => ?_) _ _ h
  obtain ⟨r, hr, hrename, rfl⟩ := mem_renameProductions.mp hp
  exact mem_unitProductions.mpr
    ⟨List.mem_map.mpr ⟨r, hr, rfl⟩, (Rule.isRename_iff.mp hrename).1⟩

/-- **More nullable symbols bring no blame to an end**: whatever sets the check of epsilon
loops goes by, those of the grammar or any others, the symbols that it blames stay to
blame when more symbols count as nullable, and its result does not depend on what the
sets say that symbols begin with.  With any sets it blames every symbol that comes back to
itself by bodies of one symbol, and so every symbol that the check of rename loops
blames. -/
theorem blamed_of_nullable_subset (g : Grammar ο) (sets : FirstSets) :
    ((g.checkEpsilonLoopsWith sets).value =
        Check.blame .epsilonLoop (g.checkEpsilonLoopsWith sets).blamed) ∧
      (∀ more : FirstSets, (∀ s ∈ sets.nullable, s ∈ more.nullable) →
        ∀ s ∈ (g.checkEpsilonLoopsWith sets).blamed,
          s ∈ (g.checkEpsilonLoopsWith more).blamed) ∧
      (∀ first, g.checkEpsilonLoopsWith { sets with first } = g.checkEpsilonLoopsWith sets) ∧
      (∀ s, ComesBack (unitProductions g.productions) s →
        s ∈ (g.checkEpsilonLoopsWith sets).blamed) ∧
      ∀ s ∈ g.checkRenameLoops.blamed, s ∈ (g.checkEpsilonLoopsWith sets).blamed := by
  refine ⟨?_, fun more hsub s hs => ?_, fun _ => rfl, fun s h => mem_blamed_of_comesBack h sets,
    fun s hs => ?_⟩
  · rw [blamed_checkEpsilonLoopsWith]
    rfl
  · have count_mono : ∀ s, sets.isNullable s → more.isNullable s := by
      intro s hs
      exact Std.ExtTreeSet.contains_iff_mem.mpr (hsub s (Std.ExtTreeSet.contains_iff_mem.mp hs))
    rw [blamed_checkEpsilonLoopsWith] at hs ⊢
    exact mem_cyclicNodes_dependencyGraph_of_subset (List.Subset.refl _) count_mono hs
  · exact mem_blamed_of_comesBack (comesBack_unitProductions (mem_blamed_checkRenameLoops.mp hs))
      sets

/-- A cycle of bodies that wrap their symbol, a rule that renames `T` to itself, and `L`,
which comes back to itself behind `E`. -/
def wrapping : List (Declaration Unit) :=
  [.rule ⟨⟨"S", ["A"]⟩, none, .construct "wrap" [0], ()⟩,
   .rule ⟨⟨"A", ["S"]⟩, none, .construct "wrap" [0], ()⟩,
   .rule ⟨⟨"T", ["T"]⟩, none, .rename 0, ()⟩,
   .rule ⟨⟨"L", ["E", "L"]⟩, none, .construct "more" [0, 1], ()⟩]

/-- No symbol of the grammar vanishes.  Sets that take `E` and `L` for nullable all the same
make the check blame `L` as well. -/
theorem blamed_of_nullable_subset_wrapping :
    let g := replay wrapping
    let sets : FirstSets := ⟨∅, ∅⟩
    let more : FirstSets := ⟨∅, .ofList ["E", "L"]⟩
    (∀ s ∈ sets.nullable, s ∈ more.nullable) ∧
      (∀ s ∈ (g.checkEpsilonLoopsWith sets).blamed, s ∈ (g.checkEpsilonLoopsWith more).blamed) ∧
      ComesBack (unitProductions g.productions) "S" ∧
      "S" ∈ (g.checkEpsilonLoopsWith sets).blamed ∧
      "T" ∈ g.checkRenameLoops.blamed ∧ "T" ∈ (g.checkEpsilonLoopsWith sets).blamed ∧
      (g.checkEpsilonLoopsWith sets).blamed = .ofList ["A", "S", "T"] ∧
      (g.checkEpsilonLoopsWith more).blamed = .ofList ["A", "L", "S", "T"] := by
  intro g sets more
  have hsub : ∀ s ∈ sets.nullable, s ∈ more.nullable :=
    fun s hs => absurd hs Std.ExtTreeSet.not_mem_empty
  have toward : Rewrites (unitProductions g.productions) ["S"] ["A"] :=
    rewrites_singleton_iff.mpr (by decide +kernel)
  have back : Rewrites (unitProductions g.productions) ["A"] ["S"] :=
    rewrites_singleton_iff.mpr (by decide +kernel)
  have wraps : ComesBack (unitProductions g.productions) "S" := .head toward (.single back)
  have renames : "T" ∈ g.checkRenameLoops.blamed := by decide +kernel
  obtain ⟨-, mono, -, unit, rename⟩ := blamed_of_nullable_subset g sets
  exact ⟨hsub, mono more hsub, wraps, unit "S" wraps, renames, rename "T" renames,
    by decide +kernel, by decide +kernel⟩

end Grammar

end LRGrammar
