import LRGrammar.Proofs.First.Analysis
import LRGrammar.Validation

/-!
# LRGrammar.Proofs.EpsilonLoops

Which cycles the epsilon check finds, and which it does not.  A left-hand side
*depends* on the whole of a body of one symbol, and on the leading symbols of a
longer body as far as these vanish (`Depends`); the check finds the cycles of this
relation.  A left-hand side *regenerates* a symbol of a body if all the others
vanish, whether or not that symbol vanishes itself (`Regenerates`).  The two part
where a symbol that does not vanish stands in a body of two or more symbols.

* `Production.mem_dependencies` — the dependencies of one rule, by position;
* `Grammar.edge_dependencyGraph` — the graph of the check is the relation;
* `Grammar.checkEpsilonLoops_verdict` — the check passes if and only if no symbol
  depends on itself, and otherwise names those that do;
* `transGen_depends_of_derivesEmpty`, `transGen_depends_or_exists_longer` — where
  regeneration is dependency;
* `Grammar.validate_regeneration` — what regeneration a valid grammar still has.
-/

namespace LRGrammar

/-! ## dependency -/

/-- By one production, `a` depends on `x`: the body is `x` alone, or it is longer and
`x` stands in it with nothing but symbols of `N` up to and including itself.  A
first symbol that is the left-hand side itself does not count. -/
def Depends (N : Symbol → Prop) (P : List Production) (a x : Symbol) : Prop :=
  ∃ p ∈ P, p.lhs = a ∧ (p.rhs = [x] ∨ 2 ≤ p.rhs.length ∧
    ∃ i, p.rhs[i]? = some x ∧ (∀ y ∈ p.rhs.take (i + 1), N y) ∧ ¬(i = 0 ∧ x = a))

/-- More productions and more symbols that count make for more dependencies: the exception
for a first symbol does not hang on either. -/
theorem Depends.mono {N M : Symbol → Prop} {P Q : List Production} {a x : Symbol}
    (h : Depends N P a x) (hNM : ∀ s, N s → M s) (hPQ : P ⊆ Q) : Depends M Q a x := by
  obtain ⟨p, hp, hlhs, hunit | ⟨hlength, i, hi, hbefore, hkept⟩⟩ := h
  · exact ⟨p, hPQ hp, hlhs, .inl hunit⟩
  · exact ⟨p, hPQ hp, hlhs, .inr ⟨hlength, i, hi, fun y hy => hNM y (hbefore y hy), hkept⟩⟩

/-- A position of the leading symbols that pass a test is one up to which all pass it. -/
theorem getElem?_takeWhile_eq_some_iff {α : Type} {test : α → Bool} {xs : List α} {i : Nat}
    {x : α} : (xs.takeWhile test)[i]? = some x ↔
      xs[i]? = some x ∧ ∀ y ∈ xs.take (i + 1), test y := by
  induction xs generalizing i with
  | nil => simp
  | cons y rest ih =>
      rw [List.take_succ_cons, List.forall_mem_cons]
      cases hy : test y with
      | false => simp [List.takeWhile_cons_of_neg, hy]
      | true =>
          rw [List.takeWhile_cons_of_pos hy]
          cases i with
          | zero => simp
          | succ i => simpa using ih

/-- What is left of a list when a first member `a` is taken away, by position. -/
theorem mem_ite_cons_iff {α : Type} [DecidableEq α] {a x y : α} {rest : List α} :
    x ∈ (if y = a then rest else y :: rest) ↔
      ∃ i, (y :: rest)[i]? = some x ∧ ¬(i = 0 ∧ x = a) := by
  by_cases h : y = a
  · rw [if_pos h, List.mem_iff_getElem?]
    constructor
    · intro ⟨i, hi⟩
      exact ⟨i + 1, hi, fun hfirst => Nat.succ_ne_zero i hfirst.1⟩
    · intro ⟨i, hi, hkept⟩
      cases i with
      | zero => exact absurd ⟨rfl, (Option.some.inj hi).symm.trans h⟩ hkept
      | succ i => exact ⟨i, hi⟩
  · rw [if_neg h, List.mem_iff_getElem?]
    constructor
    · intro ⟨i, hi⟩
      refine ⟨i, hi, fun hfirst => h ?_⟩
      rw [hfirst.1, hfirst.2] at hi
      exact Option.some.inj hi
    · intro ⟨i, hi, _⟩
      exact ⟨i, hi⟩

namespace Production

variable {nullable : Symbol → Bool} {p : Production} {x : Symbol}

theorem dependencies_of_length_ne_one (h : p.rhs.length ≠ 1) :
    x ∈ p.dependencies nullable ↔
      ∃ i, (p.rhs.takeWhile nullable)[i]? = some x ∧ ¬(i = 0 ∧ x = p.lhs) := by
  unfold dependencies
  split
  · next y hy => exact absurd (by rw [hy]; rfl) h
  · cases p.rhs.takeWhile nullable with
    | nil => simp
    | cons y rest => exact mem_ite_cons_iff

/-- The dependencies of a rule: the single symbol of its body, or the leading nullable
symbols of a longer body, a first one that is the left-hand side left out. -/
theorem mem_dependencies : x ∈ p.dependencies nullable ↔
    p.rhs = [x] ∨ 2 ≤ p.rhs.length ∧ ∃ i, p.rhs[i]? = some x ∧
      (∀ y ∈ p.rhs.take (i + 1), nullable y) ∧ ¬(i = 0 ∧ x = p.lhs) := by
  by_cases hone : p.rhs.length = 1
  · obtain ⟨y, hy⟩ := List.length_eq_one_iff.mp hone
    rw [dependencies, hy, List.mem_singleton]
    constructor
    · intro hx
      exact .inl (by rw [hx])
    · rintro (hx | ⟨hlength, -⟩)
      · exact (List.singleton_inj.mp hx).symm
      · exact absurd hlength (Nat.not_succ_le_self 1)
  · have not_unit : p.rhs ≠ [x] := fun h => hone (by rw [h]; rfl)
    rw [dependencies_of_length_ne_one hone]
    simp only [getElem?_takeWhile_eq_some_iff, not_unit, false_or, and_assoc]
    constructor
    · intro ⟨i, hi, hrest⟩
      obtain ⟨hlt, -⟩ := List.getElem?_eq_some_iff.mp hi
      exact ⟨by omega, i, hi, hrest⟩
    · exact And.right

end Production

namespace Grammar

variable {ο : Type}

theorem edge_dependencyGraph {g : Grammar ο} {sets : FirstSets} {a x : Symbol} :
    (g.dependencyGraph sets).Edge a x ↔
      Depends (fun s => sets.isNullable s) g.productions a x := by
  rw [dependencyGraph, Digraph.edge_map_iff]
  constructor
  · rintro ⟨p, hp, rfl, hx⟩
    exact ⟨p, hp, rfl, Production.mem_dependencies.mp hx⟩
  · rintro ⟨p, hp, rfl, hx⟩
    exact ⟨p, hp, rfl, Production.mem_dependencies.mpr hx⟩

/-- The symbols that the check blames, going by any sets, depend on themselves. -/
theorem mem_cyclicNodes_dependencyGraph {g : Grammar ο} {sets : FirstSets} {s : Symbol} :
    s ∈ SymbolSet.ofList (g.dependencyGraph sets).cyclicNodes ↔
      Relation.TransGen (Depends (fun s => sets.isNullable s) g.productions) s s := by
  have edges : (g.dependencyGraph sets).Edge =
      Depends (fun s => sets.isNullable s) g.productions :=
    Digraph.edge_eq_of_iff fun _ _ => edge_dependencyGraph
  rw [SymbolSet.mem_ofList, Digraph.mem_cyclicNodes, Digraph.OnCycle, edges]

/-- More productions and more nullable symbols leave no symbol out of the blame. -/
theorem mem_cyclicNodes_dependencyGraph_of_subset {g g' : Grammar ο} {sets more : FirstSets}
    (hP : g.productions ⊆ g'.productions) (hsets : ∀ s, sets.isNullable s → more.isNullable s)
    {s : Symbol} (hs : s ∈ SymbolSet.ofList (g.dependencyGraph sets).cyclicNodes) :
    s ∈ SymbolSet.ofList (g'.dependencyGraph more).cyclicNodes := by
  rw [mem_cyclicNodes_dependencyGraph] at hs ⊢
  exact Relation.TransGen.mono (fun _ _ edge => edge.mono hsets hP) _ _ hs

/-- The sets computed for the grammar take the symbols for nullable that vanish. -/
theorem isNullable_firstSets (g : Grammar ο) :
    (fun s => g.firstSets.isNullable s = true) = DerivesEmpty g.productions := by
  funext s
  exact propext isNullable_firstSets_iff

theorem mem_broken (g : Grammar ο) (s : Symbol) :
    s ∈ SymbolSet.ofList (g.dependencyGraph g.firstSets).cyclicNodes ↔
      Relation.TransGen (Depends (DerivesEmpty g.productions) g.productions) s s := by
  rw [mem_cyclicNodes_dependencyGraph, isNullable_firstSets]

/-- **The check finds the symbols that depend on themselves**: it passes if and only if
there is none, and otherwise names exactly those that do. -/
theorem checkEpsilonLoops_verdict (history : List (Declaration ο)) :
    ((replay history).checkEpsilonLoops.value = .ok () ↔
        ∀ s, ¬ Relation.TransGen (Depends (DerivesEmpty (replay history).productions)
          (replay history).productions) s s) ∧
      ((replay history).checkEpsilonLoops.value = .ok () ∨
        ∃ broken, (replay history).checkEpsilonLoops.value = .error (.epsilonLoop broken) ∧
          ∀ s, s ∈ broken ↔
            Relation.TransGen (Depends (DerivesEmpty (replay history).productions)
              (replay history).productions) s s) :=
  Check.blame_verdict .epsilonLoop (replay history).mem_broken

end Grammar

/-! ## regeneration -/

/-- The production `a → before ++ b :: after` turns `a` into `b`, since all the other
symbols of its body vanish.  Left self-recursion before more symbols is let pass. -/
structure RegeneratesAmid (P : List Production) (before after : List Symbol) (a b : Symbol) :
    Prop where
  mem : ⟨a, before ++ b :: after⟩ ∈ P
  vanish : ∀ x ∈ before ++ after, DerivesEmpty P x
  not_permitted : ¬(before = [] ∧ b = a ∧ after ≠ [])

/-- Some production turns `a` into `b`. -/
def Regenerates (P : List Production) (a b : Symbol) : Prop :=
  ∃ before after, RegeneratesAmid P before after a b

variable {P : List Production} {before after : List Symbol} {a b : Symbol}

/-- What turns into a vanishing symbol vanishes. -/
theorem RegeneratesAmid.derivesEmpty (h : RegeneratesAmid P before after a b)
    (hb : DerivesEmpty P b) : DerivesEmpty P a := by
  refine derivesEmpty_of_mem h.mem fun x hx => ?_
  rw [List.mem_append, List.mem_cons] at hx
  rcases hx with hx | rfl | hx
  · exact h.vanish x (List.mem_append_left after hx)
  · exact hb
  · exact h.vanish x (List.mem_append_right before hx)

/-- Regeneration by a body of one symbol is dependency, whatever vanishes. -/
theorem RegeneratesAmid.depends_of_nil {N : Symbol → Prop}
    (h : RegeneratesAmid P before after a b) (hnil : before ++ after = []) :
    Depends N P a b := by
  obtain ⟨rfl, rfl⟩ := List.append_eq_nil_iff.mp hnil
  exact ⟨_, h.mem, rfl, .inl rfl⟩

/-- Regeneration of a vanishing symbol is dependency. -/
theorem RegeneratesAmid.depends (h : RegeneratesAmid P before after a b)
    (hb : DerivesEmpty P b) : Depends (DerivesEmpty P) P a b := by
  by_cases hnil : before ++ after = []
  · exact h.depends_of_nil hnil
  · refine ⟨_, h.mem, rfl, .inr ⟨?_, before.length, ?_, ?_, ?_⟩⟩
    · have := List.length_pos_iff.mpr hnil
      simp only [List.length_append, List.length_cons] at this ⊢
      omega
    · rw [List.getElem?_append_right (Nat.le_refl _), Nat.sub_self, List.getElem?_cons_zero]
    · intro y hy
      rw [List.take_length_add_append, List.take_succ_cons, List.take_zero, List.mem_append,
        List.mem_singleton] at hy
      rcases hy with hy | rfl
      · exact h.vanish y (List.mem_append_left after hy)
      · exact hb
    · intro ⟨hfirst, hself⟩
      have hbefore := List.length_eq_zero_iff.mp hfirst
      refine h.not_permitted ⟨hbefore, hself, fun hafter => hnil ?_⟩
      rw [hbefore, hafter, List.append_nil]

/-- A chain of regeneration that ends in a vanishing symbol is a chain of dependency,
and begins with a vanishing symbol. -/
theorem transGen_depends_of_derivesEmpty (h : Relation.TransGen (Regenerates P) a b)
    (hb : DerivesEmpty P b) :
    DerivesEmpty P a ∧ Relation.TransGen (Depends (DerivesEmpty P) P) a b := by
  -- from the end of the chain, which vanishes, to its beginning
  induction h using Relation.TransGen.head_induction_on with
  | single step =>
      obtain ⟨before, after, step⟩ := step
      exact ⟨step.derivesEmpty hb, .single (step.depends hb)⟩
  | head step _ ih =>
      obtain ⟨before, after, step⟩ := step
      exact ⟨step.derivesEmpty ih.1, .head (step.depends ih.1) ih.2⟩

/-- A chain of regeneration that is no chain of dependency has a step by a body of two
or more symbols. -/
theorem transGen_depends_or_exists_longer {N : Symbol → Prop}
    (h : Relation.TransGen (Regenerates P) a b) :
    Relation.TransGen (Depends N P) a b ∨
      ∃ before after c d, before ++ after ≠ [] ∧ Relation.ReflTransGen (Regenerates P) a c ∧
        RegeneratesAmid P before after c d ∧ Relation.ReflTransGen (Regenerates P) d b := by
  -- the first step by a longer body is the one to find
  induction h using Relation.TransGen.head_induction_on with
  | @single a step =>
      obtain ⟨before, after, step⟩ := step
      by_cases hnil : before ++ after = []
      · exact .inl (.single (step.depends_of_nil hnil))
      · exact .inr ⟨before, after, a, b, hnil, .refl, step, .refl⟩
  | @head a c step path ih =>
      obtain ⟨before, after, step⟩ := step
      by_cases hnil : before ++ after = []
      · refine ih.imp (.head (step.depends_of_nil hnil)) ?_
        rintro ⟨before', after', d, e, hlonger, toward, longer, back⟩
        exact ⟨before', after', d, e, hlonger, .head ⟨before, after, step⟩ toward, longer, back⟩
      · exact .inr ⟨before, after, a, c, hnil, .refl, step, path.to_reflTransGen⟩

namespace Grammar

variable {ο : Type}

/-- A valid grammar passes the last of the checks. -/
theorem checkEpsilonLoops_of_validate {g : Grammar ο} {allowUnreachable : Bool}
    (h : (g.validate allowUnreachable).value = .ok ()) : g.checkEpsilonLoops.value = .ok () := by
  simp only [validate, Check.value_followedBy_eq_ok_iff] at h
  exact h.1.2

/-- In a valid grammar no symbol depends on itself. -/
theorem not_transGen_depends_of_validate {g : Grammar ο} {allowUnreachable : Bool}
    (h : (g.validate allowUnreachable).value = .ok ()) (s : Symbol) :
    ¬ Relation.TransGen (Depends (DerivesEmpty g.productions) g.productions) s s :=
  (Check.blame_verdict .epsilonLoop g.mem_broken).1.mp
    (checkEpsilonLoops_of_validate h) s

/-- **What regeneration a valid grammar still has**: a symbol regenerates itself exactly
if it does not vanish and comes back to itself by way of a body of two or more
symbols.  No symbol that vanishes regenerates itself, and no cycle consists of bodies
of one symbol. -/
theorem validate_regeneration (history : List (Declaration ο)) (allowUnreachable : Bool)
    (h : ((replay history).validate allowUnreachable).value = .ok ()) (s : Symbol) :
    Relation.TransGen (Regenerates (replay history).productions) s s ↔
      ¬ DerivesEmpty (replay history).productions s ∧
        ∃ before after a b, before ++ after ≠ [] ∧
          Relation.ReflTransGen (Regenerates (replay history).productions) s a ∧
          RegeneratesAmid (replay history).productions before after a b ∧
          Relation.ReflTransGen (Regenerates (replay history).productions) b s := by
  have acyclic := not_transGen_depends_of_validate h s
  constructor
  · intro cycle
    exact ⟨fun hs => acyclic (transGen_depends_of_derivesEmpty cycle hs).2,
      (transGen_depends_or_exists_longer cycle).resolve_left acyclic⟩
  · intro ⟨_, before, after, a, b, _, toward, step, back⟩
    have first : Relation.TransGen (Regenerates (replay history).productions) s b :=
      .tail' toward ⟨before, after, step⟩
    exact first.trans_left back

/-- Right recursion behind a vanishing symbol: `A` comes back to itself by `A → E A`, and
never vanishes. -/
def rightRecursion : List (Declaration Unit) :=
  [.rule ⟨⟨"E", []⟩, none, .construct "nothing" [], ()⟩,
   .rule ⟨⟨"A", ["E", "A"]⟩, none, .construct "again" [0, 1], ()⟩,
   .rule ⟨⟨"A", ["x"]⟩, none, .construct "item" [0], ()⟩,
   .start "A"]

theorem regenerates_rightRecursion :
    Regenerates (replay rightRecursion).productions "A" "A" := by
  have vanishes : DerivesEmpty (replay rightRecursion).productions "E" :=
    derivesEmpty_of_mem (p := ⟨"E", []⟩) (by decide +kernel) fun x hx => absurd hx List.not_mem_nil
  refine ⟨["E"], [], by decide +kernel, fun x hx => ?_, fun h => List.cons_ne_nil _ _ h.1⟩
  rw [List.append_nil, List.mem_singleton] at hx
  rw [hx]
  exact vanishes

/-- A valid grammar with a symbol that regenerates itself, and how it does so. -/
theorem validate_regeneration_rightRecursion :
    ((replay rightRecursion).validate false).value = .ok () ∧
      ¬ DerivesEmpty (replay rightRecursion).productions "A" ∧
        ∃ before after a b, before ++ after ≠ [] ∧
          Relation.ReflTransGen (Regenerates (replay rightRecursion).productions) "A" a ∧
          RegeneratesAmid (replay rightRecursion).productions before after a b ∧
          Relation.ReflTransGen (Regenerates (replay rightRecursion).productions) b "A" := by
  have valid : ((replay rightRecursion).validate false).value = .ok () := by decide +kernel
  exact ⟨valid, (validate_regeneration rightRecursion false valid "A").mp
    (.single regenerates_rightRecursion)⟩

/-- Validity does not exclude cyclic derivations: `A` derives `E A`, and that `A`. -/
theorem validate_accepts_rightRecursion :
    ((replay rightRecursion).validate false).value = .ok () ∧
      (replay rightRecursion).isNonterminal "A" ∧
      Relation.TransGen (Regenerates (replay rightRecursion).productions) "A" "A" :=
  ⟨by decide +kernel, by decide +kernel, .single regenerates_rightRecursion⟩

end Grammar

end LRGrammar
