import LRGrammar.Proofs.Findings
import LRGrammar.Proofs.Productivity

/-!
# LRGrammar.Proofs.Verdicts

A validation makes its checks one after the other and stops at the first that fails.
The relaxed validation leaves the check of reachability out and makes all others.  So it
finds what the strict one finds, unless that is unreachable symbols.  Whatever is found is a
fault of the grammar as a whole, and the sets that it names are made of the grammar's
symbols.

* `Check.verdict_eq_ok_iff`, `Check.verdict_eq_error_iff` — checks in a row;
* `Check.verdict_of_insert` — leaving one of them out;
* `Grammar.value_validate_eq_verdict` — a validation as checks in a row;
* `Grammar.Coherent.grounded_of_mem_checks` — what the single checks find;
* `Grammar.validate_verdict` — what a validation finds, strict and relaxed.
-/

namespace LRGrammar

/-! ## checks in a row -/

namespace Check

variable {checks before after : List Check} {check : Check} {fault : Fault}

/-- What the checks find one after the other, up to the first that fails. -/
def verdict : List Check → Except Fault Unit
  | [] => .ok ()
  | check :: rest => check.value.bind fun _ => verdict rest

theorem verdict_cons_of_ok (h : check.value = .ok ()) :
    verdict (check :: checks) = verdict checks := by
  rw [verdict, h]
  rfl

theorem verdict_cons_of_error (h : check.value = .error fault) :
    verdict (check :: checks) = .error fault := by
  rw [verdict, h]
  rfl

/-- The fault is that of the first check which fails on its own. -/
def FirstFault (checks : List Check) (fault : Fault) : Prop :=
  ∃ before check after, checks = before ++ check :: after ∧
    (∀ earlier ∈ before, earlier.value = .ok ()) ∧ check.value = .error fault

theorem not_firstFault_nil : ¬ FirstFault [] fault := by
  rintro ⟨before, check, after, heq, -, -⟩
  simp at heq

theorem firstFault_cons_iff :
    FirstFault (check :: checks) fault ↔
      check.value = .error fault ∨ check.value = .ok () ∧ FirstFault checks fault := by
  constructor
  · rintro ⟨before, failing, after, heq, hbefore, hfails⟩
    cases before with
    | nil =>
        obtain ⟨rfl, rfl⟩ : check = failing ∧ checks = after := by simpa using heq
        exact .inl hfails
    | cons first before =>
        obtain ⟨rfl, rfl⟩ : check = first ∧ checks = before ++ failing :: after := by
          simpa using heq
        rw [List.forall_mem_cons] at hbefore
        exact .inr ⟨hbefore.1, before, failing, after, rfl, hbefore.2, hfails⟩
  · rintro (hfails | ⟨hok, before, failing, after, rfl, hbefore, hfails⟩)
    · exact ⟨[], check, checks, rfl, by simp, hfails⟩
    · exact ⟨check :: before, failing, after, rfl, List.forall_mem_cons.mpr ⟨hok, hbefore⟩, hfails⟩

/-- Checks in a row pass when all of them do. -/
theorem verdict_eq_ok_iff : verdict checks = .ok () ↔ ∀ check ∈ checks, check.value = .ok () := by
  induction checks with
  | nil => simp [verdict]
  | cons check rest ih =>
      rw [List.forall_mem_cons]
      cases hvalue : check.value with
      | error fault => simp [verdict_cons_of_error hvalue]
      | ok passed => simp [verdict_cons_of_ok hvalue, ih]

/-- Checks in a row find the fault of the first that fails. -/
theorem verdict_eq_error_iff : verdict checks = .error fault ↔ FirstFault checks fault := by
  induction checks with
  | nil => simp [verdict, not_firstFault_nil]
  | cons check rest ih =>
      rw [firstFault_cons_iff]
      cases hvalue : check.value with
      | error found => simp [verdict_cons_of_error hvalue]
      | ok passed => simp [verdict_cons_of_ok hvalue, ih]

/-- A check that does not find the fault may be left out. -/
theorem verdict_of_insert (hcheck : check.value ≠ .error fault)
    (h : verdict (before ++ check :: after) = .error fault) :
    verdict (before ++ after) = .error fault := by
  induction before with
  | nil =>
      cases hvalue : check.value with
      | error found =>
          rw [List.nil_append, verdict_cons_of_error hvalue] at h
          exact absurd (hvalue.trans h) hcheck
      | ok passed => rwa [List.nil_append, verdict_cons_of_ok hvalue] at h
  | cons first before ih =>
      cases hvalue : first.value with
      | error found => rwa [List.cons_append, verdict_cons_of_error hvalue] at h ⊢
      | ok passed =>
          rw [List.cons_append, verdict_cons_of_ok hvalue] at h ⊢
          exact ih h

end Check

/-! ## what a fault names -/

namespace Fault

/-- The set of symbols that the fault names, if it names one. -/
def symbolSet : Fault → Option SymbolSet
  | illFounded symbols | unreachable symbols | renamingLoop symbols | epsilonLoop symbols =>
      some symbols
  | _ => none

/-- A fault of the grammar as a whole.  The set that it names holds symbols of the grammar, at
least one. -/
structure Grounded {ο : Type} (g : Grammar ο) (fault : Fault) : Prop where
  isValidation : fault.isValidation
  ne_empty : ∀ set, fault.symbolSet = some set → set ≠ ∅
  mem_symbols : ∀ set, fault.symbolSet = some set → ∀ s ∈ set, s ∈ g.symbols

theorem grounded_bogusToken {ο : Type} (g : Grammar ο) (id : RuleId) :
    (bogusToken id).Grounded g where
  isValidation := rfl
  ne_empty _ hset := by contradiction
  mem_symbols _ hset := by contradiction

/-- Blame that falls on symbols of the grammar. -/
theorem grounded_of_blame {ο : Type} {g : Grammar ο} {fault : SymbolSet → Fault}
    {symbols : SymbolSet} {found : Fault} (h : Check.blame fault symbols = .error found)
    (hkind : (fault symbols).isValidation) (hset : (fault symbols).symbolSet = some symbols)
    (hsymbols : ∀ s ∈ symbols, s ∈ g.symbols) : found.Grounded g := by
  obtain ⟨hne, rfl⟩ := Check.blame_eq_error_iff.mp h
  refine ⟨hkind, fun set heq => ?_, fun set heq => ?_⟩ <;>
    obtain rfl : symbols = set := Option.some.inj (hset.symm.trans heq)
  · exact hne
  · exact hsymbols

end Fault

namespace Grammar

variable {ο : Type} {g : Grammar ο} {s : Symbol} {check : Check} {fault : Fault}

/-! ## the single checks -/

/-- The checks of a validation, in their order. -/
def checks (g : Grammar ο) (allowUnreachable : Bool) : List Check :=
  [g.checkBogusTokens, g.checkWellFounded] ++
    (if allowUnreachable then [] else [g.checkReachability]) ++
    [g.checkRenameLoops, g.checkEpsilonLoops]

/-- The relaxed validation leaves one check of the strict one out. -/
theorem mem_checks_of_relaxed (h : check ∈ g.checks true) : check ∈ g.checks false := by
  simp only [checks] at h ⊢
  grind

theorem checkReachability_eq_error_iff :
    g.checkReachability.value = .error fault ↔
      g.unreachable ≠ ∅ ∧ .unreachable g.unreachable = fault :=
  Check.blame_eq_error_iff

namespace Coherent

theorem mem_symbols_of_lhs (h : g.Coherent) {p : Production} (hp : p ∈ g.productions) :
    p.lhs ∈ g.symbols :=
  (h.mem_symbols p.lhs).mpr ⟨p, hp, .inl rfl⟩

theorem mem_symbols_of_mem_stuck (h : g.Coherent) (hs : s ∈ g.settling.stuck) :
    s ∈ g.symbols :=
  h.mem_symbols_of_isNonterminal (mem_nonterminals.mp ((h.mem_stuck s).mp hs).1)

/-- A symbol that is renamed to itself owns a rule, the first one on its way. -/
theorem mem_symbols_of_mem_renameCycles (h : g.Coherent)
    (hs : s ∈ SymbolSet.ofList g.renameGraph.cyclicNodes) : s ∈ g.symbols := by
  obtain ⟨x, ⟨r, hr, rfl, -, -⟩, -⟩ :=
    Relation.TransGen.head'_iff.mp (mem_cyclicNodes_renameGraph.mp hs)
  exact h.mem_symbols_of_lhs (List.mem_map_of_mem hr)

/-- So does a symbol that depends on itself. -/
theorem mem_symbols_of_mem_broken (h : g.Coherent)
    (hs : s ∈ SymbolSet.ofList (g.dependencyGraph g.firstSets).cyclicNodes) :
    s ∈ g.symbols := by
  obtain ⟨x, ⟨p, hp, rfl, -⟩, -⟩ := Relation.TransGen.head'_iff.mp ((mem_broken g s).mp hs)
  exact h.mem_symbols_of_lhs hp

/-- Each check of a validation finds faults of the grammar as a whole, in its own symbols. -/
theorem grounded_of_mem_checks (h : g.Coherent) (hcheck : check ∈ g.checks false)
    (hfault : check.value = .error fault) : fault.Grounded g := by
  simp only [checks, Bool.false_eq_true, if_false, List.cons_append, List.nil_append,
    List.mem_cons, List.not_mem_nil, or_false] at hcheck
  rcases hcheck with rfl | rfl | rfl | rfl | rfl
  · obtain ⟨id, -, rfl⟩ := checkBogusTokens_eq_error_iff.mp hfault
    exact Fault.grounded_bogusToken g id
  · exact Fault.grounded_of_blame hfault rfl rfl fun s => h.mem_symbols_of_mem_stuck
  · exact Fault.grounded_of_blame hfault rfl rfl fun s hs => (mem_unreachable.mp hs).1
  · exact Fault.grounded_of_blame hfault rfl rfl fun s => h.mem_symbols_of_mem_renameCycles
  · exact Fault.grounded_of_blame hfault rfl rfl fun s => h.mem_symbols_of_mem_broken

end Coherent

/-! ## the whole validation -/

/-- A validation finds what its checks find in a row. -/
theorem value_validate_eq_verdict (g : Grammar ο) (allowUnreachable : Bool) :
    (g.validate allowUnreachable).value = Check.verdict (g.checks allowUnreachable) := by
  have last : (g.checkEpsilonLoops.value.bind fun _ => .ok ()) = g.checkEpsilonLoops.value := by
    cases g.checkEpsilonLoops.value <;> rfl
  have skipped (rest : Unit → Except Fault Unit) : (Except.ok ()).bind rest = rest () := rfl
  rw [value_validate]
  cases allowUnreachable with
  | false => simp only [checks, Check.verdict, last, List.cons_append, List.nil_append,
      Bool.false_eq_true, if_false]
  | true => simp only [checks, Check.verdict, last, skipped, List.cons_append, List.nil_append,
      if_true]

/-- A strict validation that finds something else than unreachable symbols finds it with the
check of reachability left out. -/
theorem validate_relaxed_of_strict (h : (g.validate false).value = .error fault)
    (hfault : ∀ orphans, fault ≠ .unreachable orphans) :
    (g.validate true).value = .error fault := by
  rw [value_validate_eq_verdict] at h ⊢
  have hreach : g.checkReachability.value ≠ .error fault := by
    intro hreach
    obtain ⟨-, rfl⟩ := checkReachability_eq_error_iff.mp hreach
    exact hfault _ rfl
  exact @Check.verdict_of_insert [g.checkBogusTokens, g.checkWellFounded]
    [g.checkRenameLoops, g.checkEpsilonLoops] g.checkReachability fault hreach h

/-- **A validation finds what the first failing check finds on its own**: it passes exactly if
all of its checks do.  Without the check of reachability it passes where it passes with it,
and it finds the same fault, unless that is unreachable symbols.  Every fault that it finds
is one of the whole grammar, and the set of symbols that it names, if it names one, is a
non-empty set of the grammar's symbols. -/
theorem validate_verdict (history : List (Declaration ο)) :
    let g := replay history
    (∀ allowUnreachable,
        ((g.validate allowUnreachable).value = .ok () ↔
          ∀ check ∈ g.checks allowUnreachable, check.value = .ok ()) ∧
        ∀ fault, (g.validate allowUnreachable).value = .error fault ↔
          Check.FirstFault (g.checks allowUnreachable) fault) ∧
      ((g.validate false).value = .ok () → (g.validate true).value = .ok ()) ∧
      (∀ fault, (g.validate false).value = .error fault →
        (∀ orphans, fault ≠ .unreachable orphans) → (g.validate true).value = .error fault) ∧
      ∀ allowUnreachable fault, (g.validate allowUnreachable).value = .error fault →
        fault.Grounded g := by
  intro g
  have ok_iff (allowUnreachable : Bool) : (g.validate allowUnreachable).value = .ok () ↔
      ∀ check ∈ g.checks allowUnreachable, check.value = .ok () := by
    rw [value_validate_eq_verdict, Check.verdict_eq_ok_iff]
  have error_iff (allowUnreachable : Bool) (fault : Fault) :
      (g.validate allowUnreachable).value = .error fault ↔
        Check.FirstFault (g.checks allowUnreachable) fault := by
    rw [value_validate_eq_verdict, Check.verdict_eq_error_iff]
  refine ⟨fun allow => ⟨ok_iff allow, error_iff allow⟩, fun hpass => ?_,
    fun fault => validate_relaxed_of_strict, fun allowUnreachable fault hfault => ?_⟩
  · exact (ok_iff true).mpr fun check hcheck =>
      (ok_iff false).mp hpass check (mem_checks_of_relaxed hcheck)
  · obtain ⟨before, check, after, heq, -, hfails⟩ := (error_iff allowUnreachable fault).mp hfault
    have hcheck : check ∈ g.checks allowUnreachable := heq ▸ by simp
    -- what the relaxed validation finds, a check of the strict one finds
    have hstrict : check ∈ g.checks false := by
      cases allowUnreachable with
      | false => exact hcheck
      | true => exact mem_checks_of_relaxed hcheck
    exact (coherent_replay history).grounded_of_mem_checks hstrict hfails

/-- `Dead` and `Loop` rename each other, and no start symbol leads to them. -/
def deadLoop : List (Declaration Unit) :=
  [.start "S", .rule ⟨⟨"S", ["a"]⟩, none, .rename 0, ()⟩,
   .rule ⟨⟨"Dead", ["Loop"]⟩, none, .rename 0, ()⟩,
   .rule ⟨⟨"Loop", ["Dead"]⟩, none, .rename 0, ()⟩,
   .rule ⟨⟨"Loop", ["z"]⟩, none, .rename 0, ()⟩]

/-- The first rule alone is accepted either way.  In the whole the strict validation finds the
symbols that cannot be reached and the relaxed one the loop, and once `Dead` is a start
symbol both find the loop. -/
theorem validate_verdict_deadLoop :
    let loop : SymbolSet := .ofList ["Loop", "Dead"]
    let start := replay (deadLoop.take 2)
    let dead := replay deadLoop
    let alive := replay (deadLoop ++ [.start "Dead"])
    ((start.validate false).value = .ok () ∧ (start.validate true).value = .ok ()) ∧
      (dead.validate false).value = .error (.unreachable (.ofList ["Dead", "Loop", "z"])) ∧
      (dead.validate true).value = .error (.renamingLoop loop) ∧
      loop ≠ ∅ ∧ (∀ s ∈ loop, s ∈ dead.symbols) ∧
      (alive.validate false).value = .error (.renamingLoop loop) ∧
      (alive.validate true).value = .error (.renamingLoop loop) := by
  intro loop start dead alive
  obtain ⟨-, passes, -, -⟩ := validate_verdict (deadLoop.take 2)
  obtain ⟨found, -, -, grounded⟩ := validate_verdict deadLoop
  obtain ⟨-, -, relaxed, -⟩ := validate_verdict (deadLoop ++ [.start "Dead"])
  have hstart : (start.validate false).value = .ok () := by decide +kernel
  have hdead : (dead.validate true).value = .error (.renamingLoop loop) :=
    ((found true).2 _).mpr
      ⟨[dead.checkBogusTokens, dead.checkWellFounded], dead.checkRenameLoops,
        [dead.checkEpsilonLoops], rfl, by decide +kernel, by decide +kernel⟩
  have halive : (alive.validate false).value = .error (.renamingLoop loop) := by decide +kernel
  exact ⟨⟨hstart, passes hstart⟩, by decide +kernel, hdead,
    (grounded true _ hdead).ne_empty loop rfl, (grounded true _ hdead).mem_symbols loop rfl,
    halive, relaxed _ halive fun _ => Fault.noConfusion⟩

end Grammar

end LRGrammar
