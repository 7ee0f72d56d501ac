import LRGrammar.Proofs.Acceptance

/-!
# LRGrammar.Proofs.Interleaving

Rules, levels and start symbols may be declared in any order relative to each
other.  A rule is refused if its left-hand side has a level, and a level if one of
its symbols owns a rule; both checks come to the same condition on the two
declarations, whichever comes first (`Declaration.Apart`).  So two neighbours of
different kinds may change places, and an accepted history may be rearranged step
by step into any other that keeps the order of the rules, of the levels and of the
start symbols.

* `Grammar.accepts_grownBy`, `Grammar.receiptFor_grownBy`, `Grammar.grownBy_comm` —
  two declarations of different kinds, one after the other;
* `Grammar.AgreesWith.swap`, `Grammar.agreesWith_move` — neighbours change places, and
  a declaration is moved ahead of several;
* `Grammar.agreesWith_of_sameOrder` — all rearrangements of an accepted history agree;
* `Grammar.interleavings_agree` — so do all interleavings of three lists.
-/

namespace LRGrammar

namespace Declaration

variable {ο : Type}

/-- What is declared. -/
inductive Kind where
  | rule
  | level
  | start
deriving DecidableEq, Repr

/-- What the declaration declares. -/
def kind : Declaration ο → Kind
  | .rule _ => .rule
  | .level _ _ => .level
  | .start _ => .start

/-- No symbol gets a rule from one of the two declarations and a level from the other. -/
def Apart : Declaration ο → Declaration ο → Prop
  | .rule r, .level _ symbols => r.lhs ∉ symbols
  | .level _ symbols, .rule r => r.lhs ∉ symbols
  | _, _ => True

theorem Apart.symm {d e : Declaration ο} (h : d.Apart e) : e.Apart d := by
  cases d <;> cases e <;> exact h

end Declaration

/-- The history consists of the three lists of declarations, each in its own order. -/
structure Interleaves {ο : Type} (rules : List (Rule ο))
    (levels : List (Associativity × List Symbol)) (starts : List Symbol)
    (history : List (Declaration ο)) : Prop where
  rules_eq : history.filter (·.kind = .rule) = rules.map .rule
  levels_eq : history.filter (·.kind = .level) = levels.map fun (tag, symbols) => .level tag symbols
  starts_eq : history.filter (·.kind = .start) = starts.map .start

/-- Both histories have the same declarations of each kind, in the same order. -/
def SameOrder {ο : Type} (first second : List (Declaration ο)) : Prop :=
  ∀ kind : Declaration.Kind, second.filter (·.kind = kind) = first.filter (·.kind = kind)

theorem Interleaves.sameOrder {ο : Type} {rules : List (Rule ο)}
    {levels : List (Associativity × List Symbol)} {starts : List Symbol}
    {first second : List (Declaration ο)} (hfirst : Interleaves rules levels starts first)
    (hsecond : Interleaves rules levels starts second) : SameOrder first second := by
  intro kind
  cases kind with
  | rule => rw [hfirst.rules_eq, hsecond.rules_eq]
  | level => rw [hfirst.levels_eq, hsecond.levels_eq]
  | start => rw [hfirst.starts_eq, hsecond.starts_eq]

namespace Grammar

variable {ο : Type} {g : Grammar ο} {d e : Declaration ο}
variable {first second third before later : List (Declaration ο)}

/-! ## two declarations of different kinds -/

/-- The conditions of a declaration after one of another kind are those before it, and
that no symbol has a rule from the one and a level from the other. -/
theorem accepts_grownBy (h : d.kind ≠ e.kind) :
    (g.grownBy e).Accepts d ↔ g.Accepts d ∧ d.Apart e := by
  cases d with
  | rule r =>
      cases e with
      | rule r' => exact absurd rfl h
      | level tag symbols =>
          have level_iff : (g.grownBy (.level tag symbols)).levelOf r.lhs = none ↔
              r.lhs ∉ symbols ∧ g.levelOf r.lhs = none := by
            rw [grownBy, levelOf, PrecedenceTable.levelOf_grown]
            by_cases hlisted : r.lhs ∈ symbols <;> simp [hlisted, levelOf]
          rw [Accepts, level_iff, and_comm (a := r.lhs ∉ symbols), and_assoc,
            and_comm (a := r.lhs ∉ symbols), ← and_assoc]
          rfl
      | start s => simp only [grownBy, addStart_eq, Accepts, Declaration.Apart, and_true]; rfl
  | level tag symbols =>
      cases e with
      | rule r =>
          have owner_iff (s : Symbol) : (g.grownBy (.rule r)).isNonterminal s = false ↔
              s ≠ r.lhs ∧ g.isNonterminal s = false := by
            rw [grownBy, ← Bool.not_eq_true, isNonterminal_append, not_or, Bool.not_eq_true]
          have apart_iff : (∀ s ∈ symbols, s ≠ r.lhs) ↔ r.lhs ∉ symbols := by
            grind
          simp only [Accepts, owner_iff, Declaration.Apart, ← apart_iff]
          grind [grownBy, append, levelOf]
      | level tag' symbols' => exact absurd rfl h
      | start s => simp only [grownBy, addStart_eq, Accepts, Declaration.Apart, and_true]; rfl
  | start s => simp [Accepts, Declaration.Apart]

/-- What is told of a declaration does not depend on one of another kind before it. -/
theorem receiptFor_grownBy (h : d.kind ≠ e.kind) :
    (g.grownBy e).receiptFor d = g.receiptFor d := by
  cases d <;> cases e <;> simp_all [receiptFor, grownBy, addStart_eq, append, ruleCount,
    Declaration.kind]

/-- Two declarations of different kinds have the same effect in either order. -/
theorem grownBy_comm (h : d.kind ≠ e.kind) :
    (g.grownBy d).grownBy e = (g.grownBy e).grownBy d := by
  cases d <;> cases e <;> simp_all [grownBy, addStart_eq, append, ruleCount, Declaration.kind]

/-! ## accepted histories -/

/-- Every declaration of the history is accepted. -/
def AcceptsAll (g : Grammar ο) (history : List (Declaration ο)) : Prop :=
  ∀ entry ∈ g.answers history, entry.2.isOk

theorem answers_cons_of_accepts (h : g.Accepts d) :
    g.answers (d :: later) = (d, .ok (g.receiptFor d)) :: (g.grownBy d).answers later := by
  rw [answers_cons, after_of_accepts h, declare_of_accepts h]
  rfl

theorem acceptsAll_cons :
    g.AcceptsAll (d :: later) ↔ g.Accepts d ∧ (g.grownBy d).AcceptsAll later := by
  by_cases h : g.Accepts d
  · simp [AcceptsAll, answers_cons_of_accepts h, h, Except.isOk, Except.toBool]
  · have refused : ((g.declare d).value.map (·.1)).isOk = false := by
      cases hd : (g.declare d).value with
      | error fault => rfl
      | ok told => exact absurd (declare_eq_ok_iff_accepts.mp hd).1 h
    simp [AcceptsAll, refused, h]

/-- From `g` on, the second history fares as the first: all is accepted, every
declaration is told the same, and the grammar in the end is the same. -/
structure AgreesWith (g : Grammar ο) (first second : List (Declaration ο)) : Prop where
  accepted : g.AcceptsAll second
  answers_eq : ∀ kind : Declaration.Kind, (g.answers second).filter (·.1.kind = kind) =
    (g.answers first).filter (·.1.kind = kind)
  afterAll_eq : g.afterAll second = g.afterAll first

namespace AgreesWith

theorem refl (h : g.AcceptsAll first) : g.AgreesWith first first := ⟨h, fun _ => rfl, rfl⟩

theorem trans (h : g.AgreesWith first second) (k : g.AgreesWith second third) :
    g.AgreesWith first third where
  accepted := k.accepted
  answers_eq kind := (k.answers_eq kind).trans (h.answers_eq kind)
  afterAll_eq := k.afterAll_eq.trans h.afterAll_eq

/-- Histories that agree may follow a declaration. -/
theorem cons (hd : g.Accepts d) (h : (g.grownBy d).AgreesWith first second) :
    g.AgreesWith (d :: first) (d :: second) where
  accepted := acceptsAll_cons.mpr ⟨hd, h.accepted⟩
  answers_eq kind := by
    rw [answers_cons_of_accepts hd, answers_cons_of_accepts hd, List.filter_cons,
      List.filter_cons, h.answers_eq]
  afterAll_eq := by
    rw [afterAll_cons, afterAll_cons, after_of_accepts hd, h.afterAll_eq]

/-- Two neighbours of different kinds may change places. -/
theorem swap (hkind : d.kind ≠ e.kind) (h : g.AcceptsAll (d :: e :: later)) :
    g.AgreesWith (d :: e :: later) (e :: d :: later) := by
  obtain ⟨hd, h⟩ := acceptsAll_cons.mp h
  obtain ⟨he, hlater⟩ := acceptsAll_cons.mp h
  -- `e` is accepted behind `d`, hence without `d`, and the two are apart
  obtain ⟨he', apart⟩ := (accepts_grownBy hkind.symm).mp he
  have hd' : (g.grownBy e).Accepts d := (accepts_grownBy hkind).mpr ⟨hd, apart.symm⟩
  have hcomm : (g.grownBy e).grownBy d = (g.grownBy d).grownBy e := grownBy_comm hkind.symm
  constructor
  · rw [acceptsAll_cons, acceptsAll_cons, hcomm]
    exact ⟨he', hd', hlater⟩
  · intro kind
    rw [answers_cons_of_accepts he', answers_cons_of_accepts hd', answers_cons_of_accepts hd,
      answers_cons_of_accepts he, hcomm, receiptFor_grownBy hkind, receiptFor_grownBy hkind.symm]
    by_cases hkind' : d.kind = kind
    · have : e.kind ≠ kind := fun h' => hkind (hkind'.trans h'.symm)
      simp [hkind', this]
    · by_cases hkind'' : e.kind = kind <;> simp [hkind', hkind'']
  · simp only [afterAll_cons, after_of_accepts hd, after_of_accepts he, after_of_accepts he',
      after_of_accepts hd', hcomm]

end AgreesWith

/-- A declaration may be made later, after declarations of other kinds. -/
theorem agreesWith_move (hother : ∀ e ∈ before, e.kind ≠ d.kind)
    (h : g.AcceptsAll (d :: (before ++ later))) :
    g.AgreesWith (d :: (before ++ later)) (before ++ d :: later) := by
  induction before generalizing g with
  | nil => exact .refl h
  | cons e before ih =>
      have hswap : g.AgreesWith (d :: e :: (before ++ later)) (e :: d :: (before ++ later)) :=
        .swap (hother e List.mem_cons_self).symm h
      obtain ⟨he, hrest⟩ := acceptsAll_cons.mp hswap.accepted
      have hmove := ih (fun e' he' => hother e' (List.mem_cons_of_mem e he')) hrest
      exact hswap.trans (.cons he hmove)

/-! ## rearranged histories -/

/-- A history with no declaration of any kind is empty. -/
theorem eq_nil_of_sameOrder_nil (h : SameOrder [] second) : second = [] := by
  cases second with
  | nil => rfl
  | cons d later => simpa using h d.kind

/-- Where the first history begins with `d`, the other has `d` behind declarations of
other kinds, and without `d` both still have the same order. -/
theorem exists_split_of_sameOrder_cons (h : SameOrder (d :: later) second) :
    ∃ before after, second = before ++ d :: after ∧ (∀ e ∈ before, e.kind ≠ d.kind) ∧
      SameOrder later (before ++ after) := by
  have hfirst := h d.kind
  rw [List.filter_cons_of_pos (by simp)] at hfirst
  obtain ⟨before, after, rfl, hbefore, -, hafter⟩ := List.filter_eq_cons_iff.mp hfirst
  have hother : ∀ e ∈ before, e.kind ≠ d.kind := by simpa using hbefore
  refine ⟨before, after, rfl, hother, fun kind => ?_⟩
  -- of the kind of `d` there is nothing before it; of other kinds `d` is left out anyway
  by_cases hkind : d.kind = kind
  · subst hkind
    rw [List.filter_append, List.filter_eq_nil_iff.mpr hbefore, List.nil_append, hafter]
  · have hall := h kind
    simpa [List.filter_append, List.filter_cons, hkind] using hall

/-- Every rearrangement that keeps the order of each kind agrees with an accepted history. -/
theorem agreesWith_of_sameOrder (h : SameOrder first second) (haccepted : g.AcceptsAll first) :
    g.AgreesWith first second := by
  induction first generalizing g second with
  | nil =>
      rw [eq_nil_of_sameOrder_nil h]
      exact .refl haccepted
  | cons d later ih =>
      obtain ⟨before, after, rfl, hother, hrest⟩ := exists_split_of_sameOrder_cons h
      obtain ⟨hd, hlater⟩ := acceptsAll_cons.mp haccepted
      have hcons : g.AgreesWith (d :: later) (d :: (before ++ after)) := .cons hd (ih hrest hlater)
      exact hcons.trans (agreesWith_move hother hcons.accepted)

/-- **All interleavings fare alike**: if some interleaving of a list of rules, a list of
levels and a list of start symbols is accepted throughout, every other one is.  Each
rule is told the same id and each level the same number, and the grammar in the end
is the same. -/
theorem interleavings_agree {rules : List (Rule ο)} {levels : List (Associativity × List Symbol)}
    {starts : List Symbol} {first second : List (Declaration ο)}
    (hfirst : Interleaves rules levels starts first)
    (hsecond : Interleaves rules levels starts second) (haccepted : AcceptsAll ∅ first) :
    AcceptsAll ∅ second ∧
      (∀ kind : Declaration.Kind, (answers ∅ second).filter (·.1.kind = kind) =
        (answers ∅ first).filter (·.1.kind = kind)) ∧
      replay second = replay first := by
  have hagree : AgreesWith ∅ first second :=
    agreesWith_of_sameOrder (hfirst.sameOrder hsecond) haccepted
  exact ⟨hagree.accepted, hagree.answers_eq, hagree.afterAll_eq⟩

/-- Sums of numbers with a negation: the levels stand before the rules, or behind them. -/
theorem interleavings_agree_sums :
    let sum : Rule Unit := ⟨⟨"E", ["E", "+", "E"]⟩, none, .construct "add" [0, 2], ()⟩
    let negation : Rule Unit := ⟨⟨"E", ["-", "E"]⟩, some "neg", .construct "neg" [1], ()⟩
    let rules := [sum, negation, ⟨⟨"E", ["num"]⟩, none, .rename 0, ()⟩]
    let levels := [(.left, ["+", "-"]), (.bogus, ["neg"])]
    let first : List (Declaration Unit) :=
      levels.map (fun (tag, symbols) => .level tag symbols) ++ rules.map .rule ++ [.start "E"]
    let second : List (Declaration Unit) :=
      .start "E" :: rules.map .rule ++ levels.map fun (tag, symbols) => .level tag symbols
    Interleaves rules levels ["E"] first ∧ Interleaves rules levels ["E"] second ∧
      AcceptsAll ∅ first ∧ AcceptsAll ∅ second ∧
      (∀ kind : Declaration.Kind, (answers ∅ second).filter (·.1.kind = kind) =
        (answers ∅ first).filter (·.1.kind = kind)) ∧
      replay second = replay first := by
  intro sum negation rules levels first second
  have hfirst : Interleaves rules levels ["E"] first := ⟨by decide, by decide, by decide⟩
  have hsecond : Interleaves rules levels ["E"] second := ⟨by decide, by decide, by decide⟩
  have haccepted : AcceptsAll ∅ first := by
    rw [AcceptsAll]
    decide +kernel
  exact ⟨hfirst, hsecond, haccepted, interleavings_agree hfirst hsecond haccepted⟩

end Grammar

end LRGrammar
