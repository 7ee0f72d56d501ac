import LRGrammar.Proofs.Assignments
import LRGrammar.Proofs.Growth

/-!
# LRGrammar.Proofs.Timeline

A history by the places of its declarations.  Declaration `i` is answered by the grammar
that the `i` declarations before it make, and the number of an accepted level is the number
of levels opened before.  So of two accepted levels the one that is declared later has the
greater number: levels can be compared by the places of the declarations that list their
symbols.

* `Grammar.getElem?_answers` — what is told of declaration `i`;
* `Grammar.rule?_replay_eq_some_iff` — the rules are the accepted ones, under the ids told;
* `Grammar.listed_iff_listedAt`, `Grammar.levelOf_replay_eq_some_iff_listedAt` — the symbols
  with a level, by the declaration that lists them;
* `Grammar.ListedAt.levelsBefore_lt`, `Grammar.ListedAt.unique` — later levels are greater,
  and no symbol is listed twice.
-/

namespace LRGrammar

/-- A new level has the tag that it was declared with. -/
theorem PrecedenceTable.tagOf_grown_size {t : PrecedenceTable} {tag : Associativity}
    {symbols : List Symbol} : (t.grown tag symbols).tagOf t.size = some tag := by
  simp [tagOf, grown, size]

namespace Grammar

variable {ο : Type} {g g' : Grammar ο} {d : Declaration ο} {history : List (Declaration ο)}
variable {s : Symbol} {tag tag' : Associativity} {level : Level} {i j : Nat}

/-! ## stages -/

/-- The grammar after the first `i` declarations of the history. -/
def stage (g : Grammar ο) (history : List (Declaration ο)) (i : Nat) : Grammar ο :=
  g.afterAll (history.take i)

/-- Each stage comes from the one before it by a declaration. -/
theorem stage_succ (h : history[i]? = some d) :
    g.stage history (i + 1) = (g.stage history i).after d := by
  rw [stage, List.take_add_one, h, afterAll_append]
  rfl

/-- Later stages extend earlier ones. -/
theorem extends_stage (g : Grammar ο) (history : List (Declaration ο)) (h : i ≤ j) :
    (g.stage history i).Extends (g.stage history j) := by
  have split : history.take j = history.take i ++ (history.take j).drop i := by
    conv_lhs => rw [← List.take_append_drop i (history.take j), List.take_take, Nat.min_eq_left h]
  rw [stage, stage, split, afterAll_append]
  exact extends_afterAll _ _

/-- The grammar after the whole history extends every stage. -/
theorem stage_extends_afterAll (g : Grammar ο) (history : List (Declaration ο)) (i : Nat) :
    (g.stage history i).Extends (g.afterAll history) := by
  rw [stage]
  conv_rhs => rw [← List.take_append_drop i history, afterAll_append]
  exact extends_afterAll _ _

theorem Extends.size_le (h : g.Extends g') : g.precedence.size ≤ g'.precedence.size :=
  h.tags.length_le

/-! ## what is told -/

/-- A declarer is told of a success just when the declaration is accepted. -/
theorem told_eq_ok_iff {told : Receipt} :
    (g.declare d).value.map (·.1) = .ok told ↔ g.Accepts d ∧ told = g.receiptFor d :=
  map_eq_ok_iff fun _ => declare_eq_ok_iff_accepts

/-- Every declaration is answered by the grammar that it finds. -/
theorem getElem?_answers (g : Grammar ο) (history : List (Declaration ο)) (i : Nat) :
    (g.answers history)[i]? =
      history[i]?.map fun d => (d, ((g.stage history i).declare d).value.map (·.1)) := by
  induction history generalizing g i with
  | nil => simp
  | cons d later ih =>
      cases i with
      | zero => rfl
      | succ i => rw [answers_cons, List.getElem?_cons_succ, List.getElem?_cons_succ, ih]; rfl

/-- An answer tells of a success just when its declaration is accepted at its stage. -/
theorem getElem?_answers_eq_ok_iff {told : Receipt} :
    (g.answers history)[i]? = some (d, .ok told) ↔
      history[i]? = some d ∧ (g.stage history i).Accepts d ∧
        told = (g.stage history i).receiptFor d := by
  rw [getElem?_answers]
  cases history[i]? with
  | none => simp
  | some d' =>
      rw [Option.map_some, Option.some.injEq, Option.some.injEq, Prod.mk.injEq, ← told_eq_ok_iff]
      exact and_congr_right fun heq => by rw [heq]

/-- The level that a declaration opens is above all levels before it. -/
theorem size_le_of_lists {entry : Declaration ο × Except Fault Receipt}
    (hentry : entry ∈ g.answers history) (h : Lists entry level s) : g.precedence.size ≤ level := by
  obtain ⟨tag, symbols, rfl, -⟩ := h
  obtain ⟨i, hi⟩ := List.mem_iff_getElem?.mp hentry
  obtain ⟨-, -, htold⟩ := getElem?_answers_eq_ok_iff.mp hi
  obtain rfl : level = (g.stage history i).precedence.size := Receipt.level.inj htold
  exact (extends_stage g history (Nat.zero_le i)).size_le

/-! ## rules -/

/-- The rules after one declaration. -/
theorem rule?_after_eq_some_iff {id : RuleId} {r : Rule ο} :
    (g.after d).rule? id = some r ↔
      g.rule? id = some r ∨ (d, (g.declare d).value.map (·.1)) = (.rule r, .ok (.rule id)) := by
  by_cases h : g.Accepts d
  · rw [after_of_accepts h, told_of_accepts h]
    cases d with
    | rule r' =>
        have none_at_end : g.rule? g.ruleCount = none := List.getElem?_eq_none (Nat.le_refl _)
        rw [grownBy, receiptFor, rule?_append]
        by_cases hid : id = g.ruleCount
        · simp [hid, none_at_end]
        · simp [hid, Ne.symm hid]
    | level tag symbols => simp [grownBy, rule?]
    | start s => simp [grownBy, addStart_eq, rule?]
  · obtain ⟨fault, hfault⟩ := exists_fault_of_not_accepts h
    rw [after_of_not_accepts h, hfault]
    simp [Except.map]

/-- A rule of the grammar was there before, or its declaration was answered with its id. -/
theorem rule?_afterAll_eq_some_iff {id : RuleId} {r : Rule ο} :
    (g.afterAll history).rule? id = some r ↔
      g.rule? id = some r ∨ (.rule r, .ok (.rule id)) ∈ g.answers history := by
  induction history generalizing g with
  | nil => simp
  | cons d later ih =>
      rw [afterAll_cons, ih, rule?_after_eq_some_iff, answers_cons, List.mem_cons, or_assoc,
        eq_comm (b := (d, _))]

/-- The rules are those that were accepted, each under the id that was told. -/
theorem rule?_replay_eq_some_iff {id : RuleId} {r : Rule ο} :
    (replay history).rule? id = some r ↔ (.rule r, .ok (.rule id)) ∈ answers ∅ history := by
  rw [replay, rule?_afterAll_eq_some_iff, or_iff_right]
  exact fun h => by simp [rule?, show (∅ : Grammar ο).rules = [] from rfl] at h

/-! ## levels -/

/-- The number of levels that are open when declaration `i` is made. -/
def levelsBefore (history : List (Declaration ο)) (i : Nat) : Nat :=
  (stage ∅ history i).precedence.size

/-- Declaration `i` of the history is an accepted level with this tag, and lists the symbol. -/
def ListedAt (history : List (Declaration ο)) (i : Nat) (tag : Associativity) (s : Symbol) : Prop :=
  ∃ symbols level,
    (answers ∅ history)[i]? = some (.level tag symbols, .ok (.level level)) ∧ s ∈ symbols

/-- A symbol is listed by a declaration of a level that is accepted at its stage. -/
theorem listedAt_iff :
    ListedAt history i tag s ↔
      ∃ symbols, history[i]? = some (.level tag symbols) ∧
        (stage ∅ history i).Accepts (.level tag symbols) ∧ s ∈ symbols := by
  simp only [ListedAt, getElem?_answers_eq_ok_iff, receiptFor, Receipt.level.injEq]
  constructor
  · rintro ⟨symbols, level, ⟨hi, haccepts, -⟩, hs⟩
    exact ⟨symbols, hi, haccepts, hs⟩
  · rintro ⟨symbols, hi, haccepts, hs⟩
    exact ⟨symbols, _, ⟨hi, haccepts, rfl⟩, hs⟩

/-- The levels of symbols, by the declarations that list them. -/
theorem levelOf_replay_eq_some_iff_listedAt :
    (replay history).levelOf s = some level ↔
      ∃ i tag, ListedAt history i tag s ∧ levelsBefore history i = level := by
  rw [levelOf_replay_eq_some_iff]
  constructor
  · rintro ⟨entry, hentry, tag, symbols, rfl, hs⟩
    obtain ⟨i, hi⟩ := List.mem_iff_getElem?.mp hentry
    obtain ⟨-, -, htold⟩ := getElem?_answers_eq_ok_iff.mp hi
    exact ⟨i, tag, ⟨symbols, level, hi, hs⟩, (Receipt.level.inj htold).symm⟩
  · rintro ⟨i, tag, ⟨symbols, level', hi, hs⟩, rfl⟩
    obtain ⟨-, -, htold⟩ := getElem?_answers_eq_ok_iff.mp hi
    obtain rfl : level' = levelsBefore history i := Receipt.level.inj htold
    exact ⟨_, List.mem_of_getElem? hi, tag, symbols, rfl, hs⟩

theorem listed_iff_listedAt : Listed history s ↔ ∃ i tag, ListedAt history i tag s := by
  simp only [listed_iff, Option.ne_none_iff_exists', levelOf_replay_eq_some_iff_listedAt]
  constructor
  · rintro ⟨level, i, tag, hlisted, -⟩
    exact ⟨i, tag, hlisted⟩
  · rintro ⟨i, tag, hlisted⟩
    exact ⟨_, i, tag, hlisted, rfl⟩

namespace ListedAt

variable (h : ListedAt history i tag s)

include h

/-- A listed symbol has the level that was opened for it. -/
theorem levelOf : (replay history).levelOf s = some (levelsBefore history i) :=
  levelOf_replay_eq_some_iff_listedAt.mpr ⟨i, tag, h, rfl⟩

/-- The declaration leaves the levels with one more, which has its tag. -/
theorem exists_stage_succ_eq :
    ∃ symbols, (stage ∅ history (i + 1)).precedence =
      (stage ∅ history i).precedence.grown tag symbols := by
  obtain ⟨symbols, hi, haccepts, -⟩ := listedAt_iff.mp h
  refine ⟨symbols, ?_⟩
  rw [stage_succ hi, after_of_accepts haccepts]
  rfl

/-- The level of a listed symbol has the tag of its declaration. -/
theorem tagOf : (replay history).precedence.tagOf (levelsBefore history i) = some tag := by
  obtain ⟨symbols, hnext⟩ := h.exists_stage_succ_eq
  refine (stage_extends_afterAll ∅ history (i + 1)).tagOf_eq_some ?_
  rw [hnext]
  exact PrecedenceTable.tagOf_grown_size

/-- A level that is declared later is greater. -/
theorem levelsBefore_lt (hij : i < j) : levelsBefore history i < levelsBefore history j := by
  obtain ⟨symbols, hnext⟩ := h.exists_stage_succ_eq
  have grows := (extends_stage ∅ history (Nat.succ_le_of_lt hij)).size_le
  rw [hnext, PrecedenceTable.size_grown] at grows
  exact grows

/-- All symbols that a declaration lists are listed under its tag. -/
theorem tag_eq {x : Symbol} (k : ListedAt history i tag' x) : tag = tag' :=
  Option.some.inj (h.tagOf.symm.trans k.tagOf)

/-- A symbol is listed by one declaration only. -/
theorem unique (k : ListedAt history j tag' s) : i = j ∧ tag = tag' := by
  have same : levelsBefore history i = levelsBefore history j :=
    Option.some.inj (h.levelOf.symm.trans k.levelOf)
  rcases Nat.lt_trichotomy i j with hlt | rfl | hlt
  · exact absurd same (Nat.ne_of_lt (h.levelsBefore_lt hlt))
  · exact ⟨rfl, h.tag_eq k⟩
  · exact absurd same.symm (Nat.ne_of_lt (k.levelsBefore_lt hlt))

end ListedAt

end Grammar

end LRGrammar
