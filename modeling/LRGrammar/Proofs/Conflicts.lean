import LRGrammar.Conflict
import LRGrammar.Proofs.Findings

/-!
# LRGrammar.Proofs.Conflicts

When a conflict between a lookahead and a rule cannot be decided.  Either the rule has
no level to go by, since the id is no rule's or the anchor that the rule names has no
level; or rule and lookahead meet on a bogus level.  The second cannot happen with a
lookahead that stands in some body, once the check of bogus tokens has passed: the level
of such a symbol is never bogus.  A rule may still be anchored on a bogus level.

* `Grammar.ruleLevel_eq_error_iff`, `Grammar.resolveConflict_eq_error_iff` — all that
  can be wrong with a rule, and with a conflict;
* `Grammar.Coherent.not_mem_bogusSymbols_of_terminal` — no terminal of a checked grammar
  is bogus;
* `Grammar.resolveConflict_of_checkBogusTokens` — the conflicts of a checked grammar.
-/

namespace LRGrammar

/-- Rule and lookahead meet on a bogus level only if they have that level both. -/
theorem PrecedenceTable.arbitrate_eq_bogus_iff {t : PrecedenceTable} {ofRule ofLookahead : Level} :
    t.arbitrate ofRule ofLookahead = some .bogus ↔
      ofRule = ofLookahead ∧ t.tagOf ofRule = some .bogus := by
  unfold arbitrate
  rcases Nat.lt_trichotomy ofRule ofLookahead with hlt | rfl | hlt
  · simp [hlt, Nat.ne_of_lt hlt]
  · simp
  · simp [hlt, Nat.lt_asymm hlt, Nat.ne_of_gt hlt]

namespace Grammar

variable {ο : Type} {g : Grammar ο} {t : Symbol} {id : RuleId} {fault : Fault}

/-! ## what can be wrong -/

/-- The anchor that rule `id` names has no level. -/
def AnchorUndeclared (g : Grammar ο) (id : RuleId) (anchor : Symbol) : Prop :=
  ∃ r, g.rule? id = some r ∧ r.anchor = some anchor ∧ g.levelOf anchor = none

theorem ruleLevel_eq_error_iff :
    g.ruleLevel id = .error fault ↔
      g.rule? id = none ∧ fault = .unknownRule id ∨
        ∃ anchor, g.AnchorUndeclared id anchor ∧ fault = .undeclaredAnchor id anchor := by
  unfold ruleLevel AnchorUndeclared
  cases g.rule? id with
  | none => simp [eq_comm]
  | some r =>
      cases hanchor : r.anchor with
      | none => simp [hanchor]
      | some anchor =>
          cases hlevel : g.levelOf anchor with
          | none => simp [hanchor, hlevel, eq_comm]
          | some level => simp [hanchor, hlevel]

/-- A conflict is not decided for a fault of the rule, or since the lookahead meets the
rule on a bogus level. -/
theorem resolveConflict_eq_error_iff :
    g.resolveConflict t id = .error fault ↔
      g.ruleLevel id = .error fault ∨
        ∃ level, g.ruleLevel id = .ok (some level) ∧ g.levelOf t = some level ∧
          g.precedence.tagOf level = some .bogus ∧ fault = .bogusConflict t id := by
  unfold resolveConflict
  cases g.ruleLevel id with
  | error found => simp
  | ok ofRule? =>
      cases ofRule? with
      | none => simp
      | some ofRule =>
          cases hlookahead : g.levelOf t with
          | none => simp
          | some ofLookahead =>
              by_cases hbogus : g.precedence.arbitrate ofRule ofLookahead = some .bogus
              · obtain ⟨rfl, htag⟩ := PrecedenceTable.arbitrate_eq_bogus_iff.mp hbogus
                simp [hbogus, htag, eq_comm]
              · -- no other tag refuses, and the two have no bogus level in common
                have apart := mt PrecedenceTable.arbitrate_eq_bogus_iff.mpr hbogus
                grind

/-! ## lookaheads that no level makes bogus -/

/-- With a lookahead that is not bogus, only faults of the rule stand in the way. -/
theorem resolveConflict_eq_error_iff_of_not_bogus (ht : t ∉ g.precedence.bogusSymbols) :
    g.resolveConflict t id = .error fault ↔ g.ruleLevel id = .error fault := by
  rw [resolveConflict_eq_error_iff, or_iff_left]
  rintro ⟨level, -, hlevel, htag, -⟩
  refine ht (PrecedenceTable.mem_bogusSymbols.mpr ?_)
  rw [show g.precedence.levelOf t = some level from hlevel, Option.bind_some, htag]

/-- The terminals stand in bodies, where the check lets no bogus symbol pass. -/
theorem Coherent.not_mem_bogusSymbols_of_terminal (h : g.Coherent)
    (hcheck : g.checkBogusTokens.value = .ok ()) (ht : t ∈ g.apparentTerminals) :
    t ∉ g.precedence.bogusSymbols := by
  obtain ⟨hmem, hterminal⟩ := mem_apparentTerminals.mp ht
  obtain ⟨p, hp, hbody⟩ := (h.mem_symbols_iff_of_terminal hterminal).mp hmem
  exact checkBogusTokens_eq_ok_iff.mp hcheck p hp t hbody

/-- A valid grammar passes the first of the checks. -/
theorem checkBogusTokens_of_validate {allowUnreachable : Bool}
    (h : (g.validate allowUnreachable).value = .ok ()) : g.checkBogusTokens.value = .ok () := by
  simp only [validate, Check.value_followedBy_eq_ok_iff] at h
  exact h.1.1.1.1.1.2

/-- **The conflicts of a checked grammar can be decided**: where the check of bogus tokens
passes, as it does in every valid grammar, no terminal meets a rule on a bogus level.  A
conflict between a terminal and a rule is refused exactly if the rule names an anchor
that has no level, and the refusal names that rule and that anchor. -/
theorem resolveConflict_of_checkBogusTokens (history : List (Declaration ο)) :
    let g := replay history
    (∀ allowUnreachable, (g.validate allowUnreachable).value = .ok () →
        g.checkBogusTokens.value = .ok ()) ∧
      (g.checkBogusTokens.value = .ok () →
        ∀ t ∈ g.apparentTerminals, ∀ id < g.ruleCount,
          (∀ symbol rule, g.resolveConflict t id ≠ .error (.bogusConflict symbol rule)) ∧
          ∀ fault, g.resolveConflict t id = .error fault ↔
            ∃ anchor, g.AnchorUndeclared id anchor ∧ fault = .undeclaredAnchor id anchor) := by
  intro g
  refine ⟨fun _ h => checkBogusTokens_of_validate h, fun hcheck t ht id hid => ?_⟩
  have harmless : t ∉ g.precedence.bogusSymbols :=
    (coherent_replay history).not_mem_bogusSymbols_of_terminal hcheck ht
  have known : g.rule? id ≠ none := by
    rw [rule?, List.getElem?_eq_getElem hid]
    exact Option.some_ne_none _
  have error_iff (fault : Fault) : g.resolveConflict t id = .error fault ↔
      ∃ anchor, g.AnchorUndeclared id anchor ∧ fault = .undeclaredAnchor id anchor := by
    rw [resolveConflict_eq_error_iff_of_not_bogus harmless, ruleLevel_eq_error_iff,
      or_iff_right fun h => known h.1]
  refine ⟨fun symbol rule hbogus => ?_, error_iff⟩
  obtain ⟨anchor, -, heq⟩ := (error_iff _).mp hbogus
  contradiction

/-- A sum, a negation that is anchored on a bogus level, and a rule whose anchor has none. -/
def anchored : List (Declaration Unit) :=
  [.rule ⟨⟨"E", ["E", "+", "E"]⟩, none, .construct "add" [0, 2], ()⟩,
   .rule ⟨⟨"E", ["-", "E"]⟩, some "neg", .construct "neg" [1], ()⟩,
   .rule ⟨⟨"E", ["?", "E"]⟩, some "maybe", .construct "maybe" [1], ()⟩,
   .rule ⟨⟨"E", ["num"]⟩, none, .rename 0, ()⟩,
   .level .left ["+", "-"], .level .bogus ["neg"], .start "E"]

/-- The grammar is valid.  The negation is decided on, for every terminal; the rule with the
anchor `maybe` is not, for any; and `neg`, which is no terminal, meets the negation on
a bogus level. -/
theorem resolveConflict_of_checkBogusTokens_anchored :
    let g := replay anchored
    (g.validate false).value = .ok () ∧ "-" ∈ g.apparentTerminals ∧ 2 < g.ruleCount ∧
      g.resolveConflict "-" 1 = .ok (some .left) ∧
      (∀ symbol rule, g.resolveConflict "-" 2 ≠ .error (.bogusConflict symbol rule)) ∧
      g.resolveConflict "-" 2 = .error (.undeclaredAnchor 2 "maybe") ∧
      g.resolveConflict "neg" 1 = .error (.bogusConflict "neg" 1) := by
  intro g
  have hvalid : (g.validate false).value = .ok () := by decide +kernel
  have hterminal : "-" ∈ g.apparentTerminals := by decide +kernel
  have hid : 2 < g.ruleCount := by decide +kernel
  have undeclared : g.AnchorUndeclared 2 "maybe" :=
    ⟨⟨⟨"E", ["?", "E"]⟩, some "maybe", .construct "maybe" [1], ()⟩, by decide +kernel, rfl,
      by decide +kernel⟩
  obtain ⟨hcheck, conflicts⟩ := resolveConflict_of_checkBogusTokens anchored
  obtain ⟨never_bogus, error_iff⟩ := conflicts (hcheck false hvalid) "-" hterminal 2 hid
  exact ⟨hvalid, hterminal, hid, by decide +kernel, never_bogus,
    (error_iff _).mpr ⟨"maybe", undeclared, rfl⟩, by decide +kernel⟩

end Grammar

end LRGrammar
