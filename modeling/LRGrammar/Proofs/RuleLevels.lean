import LRGrammar.Proofs.Conflicts
import LRGrammar.Proofs.Timeline

/-!
# LRGrammar.Proofs.RuleLevels

The level of a rule, and how it moves while the grammar grows.  A rule takes its level from
the anchor that it names, or else from the first symbol of its body with a level.  An anchor
keeps its level for good.  But a symbol in front of the first one with a level may be given
a level later, and then it is the first one; since new levels are above all others, the rule
rises.

* `PrecedenceTable.inferAnchor_eq_some_iff` — the first symbol of a body with a level;
* `Grammar.ruleLevel_eq_some_iff`, `Grammar.ruleLevel_eq_none_iff` — the level of a rule;
* `Grammar.resolveConflict_of_lt`, `Grammar.resolveConflict_of_gt`,
  `Grammar.resolveConflict_of_same` — a conflict of two levels;
* `Grammar.Consistent.exists_ruleLevel_of_inferred` — what becomes of an inferred anchor;
* `Grammar.ruleLevel_never_falls` — the level of a rule in every later grammar.
-/

namespace LRGrammar

/-! ## the anchor of a body -/

namespace PrecedenceTable

variable {t : PrecedenceTable} {body before after : List Symbol} {a s : Symbol}

/-- A body without an anchor has no symbol with a level. -/
theorem inferAnchor_eq_none_iff : t.inferAnchor body = none ↔ ∀ s ∈ body, t.levelOf s = none := by
  simp [inferAnchor]

theorem levelOf_isSome_of_inferAnchor (h : t.inferAnchor body = some a) : (t.levelOf a).isSome := by
  simpa using List.find?_some h

theorem inferAnchor_append {rest : List Symbol} :
    t.inferAnchor (before ++ rest) = (t.inferAnchor before).or (t.inferAnchor rest) :=
  List.find?_append

/-- Of two symbols with a level the one in front is the anchor. -/
theorem inferAnchor_eq_some_iff :
    t.inferAnchor body = some a ↔ (t.levelOf a).isSome ∧
      ∃ before after, body = before ++ a :: after ∧ ∀ x ∈ before, t.levelOf x = none := by
  rw [inferAnchor, List.find?_eq_some_iff_append]
  simp

/-- The symbol stands in the body in front of the first symbol with a level. -/
def BeforeAnchor (t : PrecedenceTable) (body : List Symbol) (s : Symbol) : Prop :=
  ∃ before a after, t.inferAnchor body = some a ∧ body = before ++ a :: after ∧ a ∉ before ∧
    s ∈ before

/-- No symbol in front of the first one with a level has a level. -/
theorem BeforeAnchor.levelOf_eq_none (h : t.BeforeAnchor body s) : t.levelOf s = none := by
  obtain ⟨before, a, after, hinfer, hbody, ha, hs⟩ := h
  cases hfront : t.inferAnchor before with
  | none => exact inferAnchor_eq_none_iff.mp hfront s hs
  | some x =>
      rw [hbody, inferAnchor_append, hfront, Option.some_or, Option.some.injEq] at hinfer
      exact absurd (hinfer ▸ List.mem_of_find?_eq_some hfront) ha

/-- What stands in front of the anchor depends on the table by the anchor only. -/
theorem BeforeAnchor.congr {t' : PrecedenceTable} (h : t.BeforeAnchor body s)
    (same : t'.inferAnchor body = t.inferAnchor body) : t'.BeforeAnchor body s := by
  obtain ⟨before, a, after, hinfer, hfront⟩ := h
  exact ⟨before, a, after, same.trans hinfer, hfront⟩

end PrecedenceTable

namespace Grammar

variable {ο : Type} {g g' : Grammar ο} {r : Rule ο} {a t : Symbol} {id : RuleId}
variable {level ofRule ofLookahead : Level} {later : List (Declaration ο)}

/-! ## the level of a rule -/

/-- The rule goes by the level of `a`: it names this anchor, or it names none and this is the
first symbol of its body with a level. -/
def GoesBy (g : Grammar ο) (r : Rule ο) (a : Symbol) : Prop :=
  r.anchor = some a ∨ r.anchor = none ∧ g.precedence.inferAnchor r.rhs = some a

/-- A rule has the level of the symbol that it goes by. -/
theorem ruleLevel_eq_some_iff :
    g.ruleLevel id = .ok (some level) ↔
      ∃ r a, g.rule? id = some r ∧ g.GoesBy r a ∧ g.levelOf a = some level := by
  unfold ruleLevel GoesBy
  cases g.rule? id with
  | none => simp
  | some r =>
      cases hanchor : r.anchor with
      | none =>
          simp [hanchor, Option.bind_eq_some_iff]
      | some a =>
          cases hlevel : g.levelOf a <;> simp [hanchor, hlevel]

/-- A rule without a level names no anchor and has no symbol with a level in its body. -/
theorem ruleLevel_eq_none_iff :
    g.ruleLevel id = .ok none ↔
      ∃ r, g.rule? id = some r ∧ r.anchor = none ∧ ∀ s ∈ r.rhs, g.levelOf s = none := by
  unfold ruleLevel
  cases g.rule? id with
  | none => simp
  | some r =>
      cases hanchor : r.anchor with
      | none =>
          have none_iff : (g.precedence.inferAnchor r.rhs).bind g.levelOf = none ↔
              ∀ s ∈ r.rhs, g.levelOf s = none := by
            refine Iff.trans ?_ PrecedenceTable.inferAnchor_eq_none_iff
            cases hinfer : g.precedence.inferAnchor r.rhs with
            | none => simp
            | some a =>
                have leveled := PrecedenceTable.levelOf_isSome_of_inferAnchor hinfer
                simpa [levelOf, Option.isSome_iff_ne_none] using leveled
          simp [hanchor, none_iff]
      | some a => cases hlevel : g.levelOf a <;> simp [hanchor, hlevel]

/-! ## two levels in conflict -/

section Conflict

variable (hrule : g.ruleLevel id = .ok (some ofRule))

include hrule

/-- A lookahead that binds tighter than the rule is shifted. -/
theorem resolveConflict_of_lt (ht : g.levelOf t = some ofLookahead) (hlt : ofRule < ofLookahead) :
    g.resolveConflict t id = .ok (some .right) := by
  simp [resolveConflict, hrule, ht, PrecedenceTable.arbitrate, hlt]

/-- A rule that binds tighter than the lookahead is reduced. -/
theorem resolveConflict_of_gt (ht : g.levelOf t = some ofLookahead) (hgt : ofLookahead < ofRule) :
    g.resolveConflict t id = .ok (some .left) := by
  simp [resolveConflict, hrule, ht, PrecedenceTable.arbitrate, hgt, Nat.lt_asymm hgt]

/-- On one level its tag decides, unless it is bogus. -/
theorem resolveConflict_of_same (ht : g.levelOf t = some ofRule) {tag : Associativity}
    (htag : g.precedence.tagOf ofRule = some tag) :
    g.resolveConflict t id =
      if tag = .bogus then .error (.bogusConflict t id) else .ok (some tag) := by
  simp only [resolveConflict, hrule, ht, PrecedenceTable.arbitrate, Nat.lt_irrefl, if_false, htag]
  cases tag <;> simp

/-- Nothing is decided about a lookahead without a level. -/
theorem resolveConflict_of_unleveled (ht : g.levelOf t = none) :
    g.resolveConflict t id = .ok none := by
  simp [resolveConflict, hrule, ht]

end Conflict

/-- The level of the rule is above that of the lookahead. -/
def Outranks (g : Grammar ο) (id : RuleId) (t : Symbol) : Prop :=
  ∃ ofRule ofLookahead, g.ruleLevel id = .ok (some ofRule) ∧ g.levelOf t = some ofLookahead ∧
    ofLookahead < ofRule

theorem Outranks.resolveConflict (h : g.Outranks id t) :
    g.resolveConflict t id = .ok (some .left) := by
  obtain ⟨ofRule, ofLookahead, hrule, ht, hgt⟩ := h
  exact resolveConflict_of_gt hrule ht hgt

/-! ## growth -/

/-- A declaration of the history gives the symbol a level. -/
def GivenLevel (g : Grammar ο) (history : List (Declaration ο)) (s : Symbol) : Prop :=
  ∃ level, ∃ entry ∈ g.answers history, Lists entry level s

/-- A symbol without a level has one later exactly if it is given one. -/
theorem givenLevel_iff {s : Symbol} (h : g.levelOf s = none) :
    g.GivenLevel later s ↔ ∃ level, (g.afterAll later).levelOf s = some level := by
  simp [GivenLevel, levelOf_afterAll_eq_some_iff, h]

/-- A level that a symbol did not have before is above all those before. -/
theorem size_le_of_levelOf_afterAll {s : Symbol} (h : g.levelOf s = none)
    (hlater : (g.afterAll later).levelOf s = some level) : g.precedence.size ≤ level := by
  rw [levelOf_afterAll_eq_some_iff, h] at hlater
  obtain ⟨entry, hentry, hlists⟩ := hlater.resolve_left (Option.some_ne_none _).symm
  exact size_le_of_lists hentry hlists

/-- A named anchor keeps its level. -/
theorem Extends.ruleLevel_of_named (h : g.Extends g') (hr : g.rule? id = some r)
    (hanchor : r.anchor = some a) (hlevel : g.levelOf a = some level) :
    g'.ruleLevel id = .ok (some level) :=
  ruleLevel_eq_some_iff.mpr ⟨r, a, h.rule?_eq_some hr, .inl hanchor, h.levelOf a level hlevel⟩

/-- A rule without an anchor keeps its level until a symbol in front of the first one with a
level is given one; then it rises. -/
theorem Consistent.exists_ruleLevel_of_inferred (h : g.Consistent) (later : List (Declaration ο))
    (hr : g.rule? id = some r) (hanchor : r.anchor = none)
    (hinfer : g.precedence.inferAnchor r.rhs = some a) (hlevel : g.levelOf a = some level) :
    ∃ level', (g.afterAll later).ruleLevel id = .ok (some level') ∧
      (level' = level ∧ (∀ s, g.precedence.BeforeAnchor r.rhs s → ¬ g.GivenLevel later s) ∨
        level < level' ∧ ∃ s, g.precedence.BeforeAnchor r.rhs s ∧ g.GivenLevel later s) := by
  have grown : g.Extends (g.afterAll later) := extends_afterAll g later
  have takes {x : Symbol} {levelOfX : Level}
      (hx : (g.afterAll later).precedence.inferAnchor r.rhs = some x)
      (hlevelOfX : (g.afterAll later).levelOf x = some levelOfX) :
      (g.afterAll later).ruleLevel id = .ok (some levelOfX) :=
    ruleLevel_eq_some_iff.mpr ⟨r, x, grown.rule?_eq_some hr, .inr ⟨hanchor, hx⟩, hlevelOfX⟩
  obtain ⟨-, before, after, hbody, hbefore⟩ := PrecedenceTable.inferAnchor_eq_some_iff.mp hinfer
  have notin : a ∉ before := fun ha => by
    have hnone : g.levelOf a = none := hbefore a ha
    rw [hlevel] at hnone
    contradiction
  cases hfront : (g.afterAll later).precedence.inferAnchor before with
  | none =>
      -- nothing in front has been given a level, so the anchor is the old one
      have unleveled := PrecedenceTable.inferAnchor_eq_none_iff.mp hfront
      have hlater : (g.afterAll later).levelOf a = some level := grown.levelOf a level hlevel
      have hinfer' : (g.afterAll later).precedence.inferAnchor r.rhs = some a :=
        PrecedenceTable.inferAnchor_eq_some_iff.mpr
          ⟨Option.isSome_of_eq_some hlater, before, after, hbody, unleveled⟩
      refine ⟨level, takes hinfer' hlater, .inl ⟨rfl, ?_⟩⟩
      intro s hs hgiven
      obtain ⟨given, hsome⟩ := (givenLevel_iff hs.levelOf_eq_none).mp hgiven
      have hnone : (g.afterAll later).levelOf s = none :=
        (hs.congr (hinfer'.trans hinfer.symm)).levelOf_eq_none
      rw [hnone] at hsome
      contradiction
  | some x =>
      -- `x` is the new anchor, and its level was opened after that of `a`
      have hx : x ∈ before := List.mem_of_find?_eq_some hfront
      have hinfer' : (g.afterAll later).precedence.inferAnchor r.rhs = some x := by
        rw [hbody, PrecedenceTable.inferAnchor_append, hfront, Option.some_or]
      obtain ⟨levelOfX, hlevelOfX⟩ :=
        Option.isSome_iff_exists.mp (PrecedenceTable.levelOf_isSome_of_inferAnchor hfront)
      have above : level < levelOfX :=
        Nat.lt_of_lt_of_le (h.level_lt a level hlevel)
          (size_le_of_levelOf_afterAll (hbefore x hx) hlevelOfX)
      have given : g.GivenLevel later x := (givenLevel_iff (hbefore x hx)).mpr ⟨levelOfX, hlevelOfX⟩
      exact ⟨levelOfX, takes hinfer' hlevelOfX,
        .inr ⟨above, x, ⟨before, a, after, hinfer, hbody, notin, hx⟩, given⟩⟩

/-- The level of a rule before a history and after it: no lower; the same if the rule names
its anchor; and else higher exactly if the history gives a level to a symbol in front of the
first one with a level. -/
structure Rises (g : Grammar ο) (later : List (Declaration ο)) (r : Rule ο)
    (level level' : Level) : Prop where
  le : level ≤ level'
  eq_of_named : r.anchor ≠ none → level' = level
  lt_iff_of_inferred : r.anchor = none →
    (level < level' ↔ ∃ s, g.precedence.BeforeAnchor r.rhs s ∧ g.GivenLevel later s)

theorem Consistent.exists_ruleLevel_of_some (h : g.Consistent) (later : List (Declaration ο))
    (hr : g.rule? id = some r) (hrule : g.ruleLevel id = .ok (some level)) :
    ∃ level', (g.afterAll later).ruleLevel id = .ok (some level') ∧
      g.Rises later r level level' := by
  obtain ⟨r', a, hr', hgoesBy, hlevel⟩ := ruleLevel_eq_some_iff.mp hrule
  obtain rfl : r = r' := Option.some.inj (hr.symm.trans hr')
  cases hgoesBy with
  | inl hanchor =>
      refine ⟨level, (extends_afterAll g later).ruleLevel_of_named hr hanchor hlevel, ?_⟩
      exact ⟨Nat.le_refl _, fun _ => rfl, fun hnone => by simp [hanchor] at hnone⟩
  | inr hinferred =>
      obtain ⟨hanchor, hinfer⟩ := hinferred
      obtain ⟨level', hrule', hcases⟩ :=
        h.exists_ruleLevel_of_inferred later hr hanchor hinfer hlevel
      refine ⟨level', hrule', ?_, fun hnamed => absurd hanchor hnamed, fun _ => ?_⟩
      · rcases hcases with ⟨rfl, -⟩ | ⟨hlt, -⟩
        · exact Nat.le_refl _
        · exact Nat.le_of_lt hlt
      · rcases hcases with ⟨rfl, hnone⟩ | ⟨hlt, hsome⟩
        · simpa using hnone
        · simp [hlt, hsome]

/-- Only an anchor that a rule names can be in the way of its level. -/
theorem exists_ruleLevel_of_unnamed (hr : g.rule? id = some r) (hanchor : r.anchor = none) :
    ∃ level?, g.ruleLevel id = .ok level? :=
  ⟨(g.precedence.inferAnchor r.rhs).bind g.levelOf, by simp only [ruleLevel, hr, hanchor]⟩

/-- **The level of a rule never falls**, whatever is declared later, accepted or refused.  It
stays for good if the rule names its anchor; else it rises exactly if a symbol in front of the
first one with a level is given one.  A rule without a level may get one, but no fault.  A
conflict that a rule wins by its level it wins in every later grammar. -/
theorem ruleLevel_never_falls (earlier later : List (Declaration ο)) (id : RuleId) :
    let g := replay earlier
    let g' := g.afterAll later
    (∀ level, g.ruleLevel id = .ok (some level) →
        ∃ r level', g.rule? id = some r ∧ g'.ruleLevel id = .ok (some level') ∧
          g.Rises later r level level') ∧
      (g.ruleLevel id = .ok none → ∃ level?, g'.ruleLevel id = .ok level?) ∧
      ∀ t, g.Outranks id t →
        g.resolveConflict t id = .ok (some .left) ∧
          g'.Outranks id t ∧ g'.resolveConflict t id = .ok (some .left) := by
  intro g g'
  have h : g.Consistent := consistent_replay earlier
  have grown : g.Extends g' := extends_afterAll g later
  refine ⟨fun level hrule => ?_, fun hnone => ?_, fun t houtranks => ?_⟩
  · obtain ⟨r, -, hr, -, -⟩ := ruleLevel_eq_some_iff.mp hrule
    obtain ⟨level', hrule', rises⟩ := h.exists_ruleLevel_of_some later hr hrule
    exact ⟨r, level', hr, hrule', rises⟩
  · obtain ⟨r, hr, hanchor, -⟩ := ruleLevel_eq_none_iff.mp hnone
    exact exists_ruleLevel_of_unnamed (grown.rule?_eq_some hr) hanchor
  · have houtranks' : g'.Outranks id t := by
      obtain ⟨ofRule, ofLookahead, hrule, ht, hlt⟩ := houtranks
      obtain ⟨r, -, hr, -, -⟩ := ruleLevel_eq_some_iff.mp hrule
      obtain ⟨level', hrule', rises⟩ := h.exists_ruleLevel_of_some later hr hrule
      exact ⟨level', ofLookahead, hrule', grown.levelOf t ofLookahead ht,
        Nat.lt_of_lt_of_le hlt rises.le⟩
    exact ⟨houtranks.resolveConflict, houtranks', houtranks'.resolveConflict⟩

/-- Products, a rule that is anchored on a sum, and sums above products. -/
def productsFirst : List (Declaration Unit) :=
  [.level .left ["*"],
   .rule ⟨⟨"E", ["E", "of", "E", "*", "E"]⟩, none, .construct "share" [0, 2, 4], ()⟩,
   .rule ⟨⟨"E", ["E", "E"]⟩, some "+", .construct "join" [0, 1], ()⟩,
   .level .left ["+"]]

/-- The first rule goes by `*`, until `of` is given a level above all others; then it wins over
`+` as well.  The second rule keeps the level of `+`, by which it wins over `*`. -/
theorem ruleLevel_never_falls_productsFirst :
    let g := replay productsFirst
    let later : List (Declaration Unit) := [.level .right ["of", "*"], .level .right ["of"]]
    let g' := g.afterAll later
    g.ruleLevel 0 = .ok (some 0) ∧ g.resolveConflict "+" 0 = .ok (some .right) ∧
      g'.ruleLevel 0 = .ok (some 2) ∧ g'.resolveConflict "+" 0 = .ok (some .left) ∧
      (∃ s, g.precedence.BeforeAnchor ["E", "of", "E", "*", "E"] s ∧ g.GivenLevel later s) ∧
      g.Outranks 1 "*" ∧ g'.resolveConflict "*" 1 = .ok (some .left) := by
  intro g later g'
  have hrule : g.ruleLevel 0 = .ok (some 0) := by decide +kernel
  have hrule' : g'.ruleLevel 0 = .ok (some 2) := by decide +kernel
  have houtranks : g.Outranks 1 "*" := ⟨1, 0, by decide +kernel, by decide +kernel, by decide⟩
  obtain ⟨rises, -, -⟩ := ruleLevel_never_falls productsFirst later 0
  obtain ⟨-, -, wins⟩ := ruleLevel_never_falls productsFirst later 1
  obtain ⟨r, level', hr, hlevel', hrises⟩ := rises 0 hrule
  obtain rfl : level' = 2 := by simpa using hlevel'.symm.trans hrule'
  obtain rfl : r = ⟨⟨"E", ["E", "of", "E", "*", "E"]⟩, none, .construct "share" [0, 2, 4], ()⟩ :=
    Option.some.inj (hr.symm.trans (by decide +kernel))
  exact ⟨hrule, by decide +kernel, hrule', by decide +kernel,
    (hrises.lt_iff_of_inferred rfl).mp (by decide), houtranks, (wins "*" houtranks).2.2⟩

end Grammar

end LRGrammar
