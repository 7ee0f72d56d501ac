import LRGrammar.Conflict
import LRGrammar.Proofs.History
import Mathlib.Data.List.Nodup

/-!
# LRGrammar.Proofs.Consistency

The parts of a grammar agree after every history.  Each rule is entered under its
left-hand side and nowhere else, no production is declared twice, every action
reads positions of its own body, no symbol has both a rule and a level, every level
has a symbol, and no start symbol is listed twice (`Grammar.Consistent`).  That a
symbol with a rule has no level is secured from both sides: a rule is refused if its
left-hand side has a level, and a level if one of its symbols owns a rule.

* `PrecedenceTable.declare_eq_ok_iff`, `PrecedenceTable.levelOf_grown` — when a
  level is opened, and what levels there are then;
* `Grammar.Consistent.findRule_eq_none_iff` — the search under the left-hand side
  finds every declared production;
* `Grammar.Consistent.after` — every declaration keeps the parts consistent;
* `Grammar.replay_agreement` — what the questions answer after a history.
-/

namespace LRGrammar

/-! ## opening a level -/

namespace PrecedenceTable

variable {t : PrecedenceTable} {tag : Associativity} {symbols : List Symbol} {s : Symbol}

/-- The table with one more level, which the listed symbols are assigned to. -/
def grown (t : PrecedenceTable) (tag : Associativity) (symbols : List Symbol) :
    PrecedenceTable :=
  ⟨t.tags ++ [tag], SymbolMap.fill t.levels symbols fun _ => t.size⟩

@[simp] theorem size_grown : (t.grown tag symbols).size = t.size + 1 := by
  simp [grown, size]

/-- The listed symbols get the new level, and all others keep theirs. -/
theorem levelOf_grown :
    (t.grown tag symbols).levelOf s = if s ∈ symbols then some t.size else t.levelOf s :=
  SymbolMap.getElem?_fill

/-- A level is opened exactly for symbols that have none, listed once each, and at
least one of them. -/
theorem declare_eq_ok_iff {opened : Level × PrecedenceTable} :
    t.declare tag symbols = .ok opened ↔
      symbols ≠ [] ∧ symbols.Nodup ∧ (∀ s ∈ symbols, t.levelOf s = none) ∧
        opened = (t.size, t.grown tag symbols) := by
  have free_iff : firstRepeated (fun s => (t.levelOf s).isSome) symbols = none ↔
      symbols.Nodup ∧ ∀ s ∈ symbols, t.levelOf s = none := by
    simp only [firstRepeated_eq_none_iff, Option.isSome_eq_false_iff, Option.isNone_iff_eq_none]
  rw [declare, ← and_assoc (a := symbols.Nodup), ← free_iff]
  cases symbols with
  | nil => simp
  | cons x rest =>
      cases firstRepeated (fun s => (t.levelOf s).isSome) (x :: rest) with
      | some repeated => simp
      | none => simp [grown, eq_comm]

end PrecedenceTable

namespace Grammar

variable {ο : Type} {g : Grammar ο} {r : Rule ο} {s : Symbol}

/-! ## rules and their ids -/

/-- The new rule has the next id, and all others keep theirs. -/
theorem rule?_append {id : RuleId} :
    (g.append r).rule? id = if id = g.ruleCount then some r else g.rule? id := by
  unfold rule? append ruleCount
  rw [List.getElem?_append]
  grind

theorem lt_ruleCount_of_rule? {id : RuleId} (h : g.rule? id = some r) : id < g.ruleCount :=
  (List.getElem?_eq_some_iff.mp h).1

/-- The productions are those of the rules with an id. -/
theorem mem_productions_iff {p : Production} :
    p ∈ g.productions ↔ ∃ id r, g.rule? id = some r ∧ r.toProduction = p := by
  constructor
  · intro hp
    obtain ⟨r, hr, heq⟩ := List.mem_map.mp hp
    obtain ⟨id, hid⟩ := List.mem_iff_getElem?.mp hr
    exact ⟨id, r, hid, heq⟩
  · rintro ⟨id, r, hid, heq⟩
    exact List.mem_map.mpr ⟨r, List.mem_of_getElem? hid, heq⟩

/-! ## consistency -/

/-- The parts of the grammar agree with each other.  A repeated production is looked
for under its left-hand side only, so `nodup_productions` rests on `mem_rulesFor`. -/
structure Consistent (g : Grammar ο) : Prop extends Coherent g where
  rising_rulesFor : ∀ s, (g.rulesFor s).Pairwise (· < ·)
  mem_rulesFor : ∀ s id, id ∈ g.rulesFor s ↔ ∃ r, g.rule? id = some r ∧ r.lhs = s
  nodup_productions : g.productions.Nodup
  position_lt : ∀ r ∈ g.rules, ∀ position ∈ r.action.positions, position < r.rhs.length
  levelOf_eq_none : ∀ s, g.isNonterminal s → g.levelOf s = none
  level_lt : ∀ s level, g.levelOf s = some level → level < g.precedence.size
  exists_levelOf_eq : ∀ level < g.precedence.size, ∃ s, g.levelOf s = some level
  nodup_starts : g.starts.Nodup

namespace Consistent

/-- The empty grammar is consistent. -/
theorem empty : (∅ : Grammar ο).Consistent where
  toCoherent := coherent_empty
  rising_rulesFor s := by
    show ((∅ : SymbolMap (List RuleId))[s]?.getD []).Pairwise _
    simp
  mem_rulesFor s id := by
    show id ∈ (∅ : SymbolMap (List RuleId))[s]?.getD [] ↔ ∃ r, ([] : List (Rule ο))[id]? = some r ∧ _
    simp
  nodup_productions := List.nodup_nil
  position_lt r hr := absurd hr List.not_mem_nil
  levelOf_eq_none s _ := by
    show (∅ : SymbolMap Level)[s]? = none
    simp
  level_lt s level hs := by
    have hs : (∅ : SymbolMap Level)[s]? = some level := hs
    simp at hs
  exists_levelOf_eq level hlevel := absurd hlevel (Nat.not_lt_zero level)
  nodup_starts := List.nodup_nil

/-- The search under the left-hand side fails only if the production was not declared. -/
theorem findRule_eq_none_iff (h : g.Consistent) {p : Production} :
    g.findRule p = none ↔ p ∉ g.productions := by
  rw [findRule, List.find?_eq_none]
  constructor
  · intro hnone hp
    obtain ⟨id, r, hid, rfl⟩ := mem_productions_iff.mp hp
    refine hnone id ((h.mem_rulesFor r.lhs id).mpr ⟨r, hid, rfl⟩) ?_
    simp [hid]
  · intro hp id hid hfound
    obtain ⟨r, hr, hlhs⟩ := (h.mem_rulesFor p.lhs id).mp hid
    have hrhs : r.rhs = p.rhs := by simpa [hr] using hfound
    have same : r.toProduction = p := congrArg₂ Production.mk hlhs hrhs
    exact hp (mem_productions_iff.mpr ⟨id, r, hr, same⟩)

/-- A rule that passes all checks keeps the grammar consistent. -/
theorem append (h : g.Consistent) (hlevel : g.levelOf r.lhs = none)
    (hbounds : r.action.firstBeyond r.rhs.length = none)
    (hnew : g.findRule r.toProduction = none) : (g.append r).Consistent where
  toCoherent := h.toCoherent.append r
  rising_rulesFor s := by
    rw [rulesFor_append]
    split
    · refine List.pairwise_append.mpr ⟨h.rising_rulesFor s, List.pairwise_singleton _ _, ?_⟩
      intro id hid next hnext
      obtain ⟨r', hr', -⟩ := (h.mem_rulesFor s id).mp hid
      rw [List.mem_singleton.mp hnext]
      exact lt_ruleCount_of_rule? hr'
    · exact h.rising_rulesFor s
  mem_rulesFor s id := by
    -- the next id was no rule's, and is that of the new one
    have none_at_end : g.rule? g.ruleCount = none := List.getElem?_eq_none (Nat.le_refl _)
    have hold := h.mem_rulesFor s id
    rw [rulesFor_append, rule?_append]
    by_cases hid : id = g.ruleCount
    · rw [hid] at hold ⊢
      rw [none_at_end] at hold
      by_cases hs : s = r.lhs
      · simp [hs]
      · simp [hs, hold, Ne.symm hs]
    · by_cases hs : s = r.lhs
      · rw [if_pos hs, if_neg hid, List.mem_append, List.mem_singleton, hold, or_iff_left hid]
      · rw [if_neg hs, if_neg hid, hold]
  nodup_productions := by
    have undeclared : r.toProduction ∉ g.productions := h.findRule_eq_none_iff.mp hnew
    rw [productions_append, ← List.concat_eq_append]
    exact h.nodup_productions.concat undeclared
  position_lt r' hr' := by
    rcases List.mem_append.mp hr' with hr' | hr'
    · exact h.position_lt r' hr'
    · rw [List.mem_singleton.mp hr']
      exact Action.firstBeyond_eq_none_iff.mp hbounds
  levelOf_eq_none s hs := by
    rcases isNonterminal_append.mp hs with rfl | hs
    · exact hlevel
    · exact h.levelOf_eq_none s hs
  level_lt := h.level_lt
  exists_levelOf_eq := h.exists_levelOf_eq
  nodup_starts := h.nodup_starts

/-- A level for symbols without rules and without levels. -/
theorem grow (h : g.Consistent) {tag : Associativity} {symbols : List Symbol}
    (hterminal : symbols.find? g.isNonterminal = none) (hne : symbols ≠ [])
    (hfree : ∀ s ∈ symbols, g.levelOf s = none) :
    Consistent { g with precedence := g.precedence.grown tag symbols } where
  toCoherent := ⟨h.mem_symbols, h.isNonterminal_iff⟩
  rising_rulesFor := h.rising_rulesFor
  mem_rulesFor := h.mem_rulesFor
  nodup_productions := h.nodup_productions
  position_lt := h.position_lt
  levelOf_eq_none s hs := by
    have unlisted : s ∉ symbols := fun hlisted =>
      List.find?_eq_none.mp hterminal s hlisted hs
    exact PrecedenceTable.levelOf_grown.trans ((if_neg unlisted).trans (h.levelOf_eq_none s hs))
  level_lt s level hs := by
    have hs : (g.precedence.grown tag symbols).levelOf s = some level := hs
    rw [PrecedenceTable.levelOf_grown] at hs
    show level < (g.precedence.grown tag symbols).size
    rw [PrecedenceTable.size_grown]
    split at hs
    · rw [Option.some.inj hs]
      exact Nat.lt_succ_self level
    · exact Nat.lt_succ_of_lt (h.level_lt s level hs)
  exists_levelOf_eq level hlevel := by
    have hlevel : level < (g.precedence.grown tag symbols).size := hlevel
    show ∃ s, (g.precedence.grown tag symbols).levelOf s = some level
    rw [PrecedenceTable.size_grown] at hlevel
    simp only [PrecedenceTable.levelOf_grown]
    rcases Nat.lt_succ_iff_lt_or_eq.mp hlevel with hbelow | rfl
    · obtain ⟨s, hs⟩ := h.exists_levelOf_eq level hbelow
      have unlisted : s ∉ symbols := fun hlisted => by simp [hfree s hlisted] at hs
      exact ⟨s, (if_neg unlisted).trans hs⟩
    -- a level is never opened for an empty list
    · exact ⟨symbols.head hne, if_pos (List.head_mem hne)⟩
  nodup_starts := h.nodup_starts

theorem addStart (h : g.Consistent) (s : Symbol) : (g.addStart s).Consistent := by
  unfold Grammar.addStart
  split
  · exact h
  · next hnew =>
      have nodup : (g.starts ++ [s]).Nodup := by
        rw [← List.concat_eq_append]
        exact h.nodup_starts.concat hnew
      exact { h with nodup_starts := nodup }

/-- Every declaration keeps the grammar consistent. -/
theorem after (h : g.Consistent) (d : Declaration ο) : (g.after d).Consistent := by
  rcases g.after_cases d with ⟨-, hsame⟩ | ⟨r, -, haccepted, hrule⟩ |
    ⟨tag, symbols, level, table, -, haccepted, hlevel⟩ | ⟨s, -, hstart⟩
  · rw [hsame]; exact h
  · obtain ⟨hfree, hbounds, hnew, -⟩ := declareRule_eq_ok_iff.mp haccepted
    rw [hrule]
    exact h.append hfree hbounds hnew
  · obtain ⟨hterminal, level', table', hopened, heq⟩ := declareLevel_eq_ok_iff.mp haccepted
    obtain ⟨hne, -, hfree, hgrown⟩ := PrecedenceTable.declare_eq_ok_iff.mp hopened
    have htable : table = g.precedence.grown tag symbols := by
      have := congrArg (fun opened => opened.2.precedence) heq
      exact this.trans (congrArg Prod.snd hgrown)
    rw [hlevel, htable]
    exact h.grow hterminal hne hfree
  · rw [hstart]; exact h.addStart s

end Consistent

/-- Every history makes a consistent grammar. -/
theorem consistent_replay (history : List (Declaration ο)) : (replay history).Consistent :=
  replay_induction .empty (fun _ d h => h.after d) history

namespace Consistent

/-- A symbol owns a rule exactly if some id is entered under it. -/
theorem isNonterminal_iff_rulesFor_ne_nil (h : g.Consistent) :
    g.isNonterminal s ↔ g.rulesFor s ≠ [] := by
  rw [h.isNonterminal_iff, ← List.isEmpty_eq_false_iff, List.isEmpty_eq_false_iff_exists_mem]
  constructor
  · rintro ⟨p, hp, rfl⟩
    obtain ⟨id, r, hid, rfl⟩ := mem_productions_iff.mp hp
    exact ⟨id, (h.mem_rulesFor r.lhs id).mpr ⟨r, hid, rfl⟩⟩
  · intro ⟨id, hid⟩
    obtain ⟨r, hr, hlhs⟩ := (h.mem_rulesFor s id).mp hid
    exact ⟨r.toProduction, mem_productions_iff.mpr ⟨id, r, hr, rfl⟩, hlhs⟩

/-- Two rules with the same production are one rule. -/
theorem eq_of_rule? (h : g.Consistent) {i j : RuleId} {r r' : Rule ο} (hi : g.rule? i = some r)
    (hj : g.rule? j = some r') (heq : r.toProduction = r'.toProduction) : i = j := by
  have bound : i < g.productions.length := by
    rw [productions, List.length_map]
    exact lt_ruleCount_of_rule? hi
  have hi : g.rules[i]? = some r := hi
  have hj : g.rules[j]? = some r' := hj
  refine (List.getElem?_inj bound h.nodup_productions).mp ?_
  rw [productions, List.getElem?_map, List.getElem?_map, hi, hj, Option.map_some,
    Option.map_some, heq]

/-- The symbols fall into the apparent terminals and the non-terminals. -/
theorem mem_symbols_iff_terminal_or_nonterminal (h : g.Consistent) :
    s ∈ g.symbols ↔ s ∈ g.apparentTerminals ∨ s ∈ g.nonterminals := by
  rw [mem_apparentTerminals, mem_nonterminals]
  cases hs : g.isNonterminal s with
  | false => simp
  | true => simpa using h.mem_symbols_of_isNonterminal hs

end Consistent

/-- **The parts of a grammar agree after every history**, refused declarations included:
the symbols are those of the rules; the ids under a left-hand side are those of its
rules, in rising order; no production has two ids; the actions read positions of
their bodies; rules and levels exclude each other; the levels that symbols have are
all those opened; the start symbols have no repeats; and terminals and non-terminals
partition the symbols. -/
theorem replay_agreement (history : List (Declaration ο)) :
    let g := replay history
    (∀ s, s ∈ g.symbols ↔ ∃ r ∈ g.rules, s = r.lhs ∨ s ∈ r.rhs) ∧
      (∀ s, (g.rulesFor s).Pairwise (· < ·) ∧
        (∀ id, id ∈ g.rulesFor s ↔ ∃ r, g.rule? id = some r ∧ r.lhs = s) ∧
        (g.isNonterminal s ↔ g.rulesFor s ≠ [])) ∧
      (∀ i j r r', g.rule? i = some r → g.rule? j = some r' →
        r.lhs = r'.lhs → r.rhs = r'.rhs → i = j) ∧
      (∀ r ∈ g.rules, ∀ position ∈ r.action.positions, position < r.rhs.length) ∧
      (∀ s, ¬(g.rulesFor s ≠ [] ∧ (g.levelOf s).isSome)) ∧
      (∀ s level, g.levelOf s = some level → level < g.precedence.size) ∧
      (∀ level < g.precedence.size, ∃ s, g.levelOf s = some level) ∧
      g.starts.Nodup ∧
      (∀ s, s ∈ g.symbols ↔ s ∈ g.apparentTerminals ∨ s ∈ g.nonterminals) ∧
      ∀ s, ¬(s ∈ g.apparentTerminals ∧ s ∈ g.nonterminals) := by
  intro g
  have h : g.Consistent := consistent_replay history
  refine ⟨fun s => ?_, fun s => ⟨h.rising_rulesFor s, h.mem_rulesFor s,
    h.isNonterminal_iff_rulesFor_ne_nil⟩, fun i j r r' hi hj hlhs hrhs => ?_, h.position_lt,
    fun s hboth => ?_, h.level_lt, h.exists_levelOf_eq, h.nodup_starts,
    fun s => h.mem_symbols_iff_terminal_or_nonterminal, fun s hboth => ?_⟩
  · rw [h.mem_symbols]
    constructor
    · rintro ⟨p, hp, hs⟩
      obtain ⟨r, hr, rfl⟩ := List.mem_map.mp hp
      exact ⟨r, hr, hs⟩
    · rintro ⟨r, hr, hs⟩
      exact ⟨r.toProduction, List.mem_map.mpr ⟨r, hr, rfl⟩, hs⟩
  · exact h.eq_of_rule? hi hj (congrArg₂ Production.mk hlhs hrhs)
  · have unassigned := h.levelOf_eq_none s (h.isNonterminal_iff_rulesFor_ne_nil.mpr hboth.1)
    rw [unassigned] at hboth
    exact Bool.false_ne_true hboth.2
  · have hterminal := (mem_apparentTerminals.mp hboth.1).2
    rw [mem_nonterminals.mp hboth.2] at hterminal
    contradiction

end Grammar

end LRGrammar
