import LRGrammar.Proofs.Findings
import LRGrammar.Proofs.Timeline

/-!
# LRGrammar.Proofs.BogusTokens

The check of bogus tokens, told by the history.  It reads rule bodies only, but a symbol
that a level lists owns no rule, whichever of the two was declared first: where no body has
a bogus symbol, no left-hand side has one either.

* `Grammar.mem_bogusSymbols_replay_iff` — the bogus symbols, by the declarations that list
  them;
* `Grammar.mem_symbols_iff_of_listedBogus` — a bogus symbol stands in bodies only;
* `Grammar.checkBogusTokens_verdict` — when the check passes, and which rule it blames.
-/

namespace LRGrammar

namespace Grammar

variable {ο : Type} {g : Grammar ο} {history : List (Declaration ο)} {r : Rule ο} {s : Symbol}

/-! ## bogus symbols -/

/-- An accepted level with the bogus tag lists the symbol. -/
def ListedBogus (history : List (Declaration ο)) (s : Symbol) : Prop :=
  ∃ i, ListedAt history i .bogus s

theorem ListedBogus.listed (h : ListedBogus history s) : Listed history s := by
  obtain ⟨i, hi⟩ := h
  exact listed_iff_listedAt.mpr ⟨i, .bogus, hi⟩

/-- The bogus symbols are those that were listed as such. -/
theorem mem_bogusSymbols_replay_iff :
    s ∈ (replay history).precedence.bogusSymbols ↔ ListedBogus history s := by
  rw [PrecedenceTable.mem_bogusSymbols, Option.bind_eq_some_iff]
  constructor
  · rintro ⟨level, hlevel, htag⟩
    obtain ⟨i, tag, hi, rfl⟩ := levelOf_replay_eq_some_iff_listedAt.mp hlevel
    obtain rfl : tag = .bogus := Option.some.inj (hi.tagOf.symm.trans htag)
    exact ⟨i, hi⟩
  · rintro ⟨i, hi⟩
    exact ⟨_, hi.levelOf, hi.tagOf⟩

/-! ## where bogus symbols stand -/

theorem Consistent.isNonterminal_eq_false_of_leveled (h : g.Consistent)
    (hs : g.levelOf s ≠ none) : g.isNonterminal s = false :=
  Bool.eq_false_iff.mpr fun howner => hs (h.levelOf_eq_none s howner)

/-- A symbol with a level owns no rule, so it is a symbol of the grammar through bodies only. -/
theorem mem_symbols_iff_of_listedBogus (h : ListedBogus history s) :
    s ∈ (replay history).symbols ↔ ∃ p ∈ (replay history).productions, s ∈ p.rhs := by
  have consistent := consistent_replay history
  exact consistent.mem_symbols_iff_of_terminal
    (consistent.isNonterminal_eq_false_of_leveled (listed_iff.mp h.listed))

/-- The body of the rule has a symbol that was listed as bogus. -/
def ProducesBogus (history : List (Declaration ο)) (r : Rule ο) : Prop :=
  ∃ s ∈ r.rhs, ListedBogus history s

theorem mentions_bogusSymbols_iff :
    Mentions (replay history).precedence.bogusSymbols r ↔ ProducesBogus history r := by
  simp only [Mentions, ProducesBogus, mem_bogusSymbols_replay_iff]

/-- **The check of bogus tokens** passes exactly if no symbol that was listed as bogus, before
or after the rules, is a symbol of the grammar on either side of a rule.  Otherwise it blames
the first rule whose body has such a symbol. -/
theorem checkBogusTokens_verdict (history : List (Declaration ο)) :
    let g := replay history
    (g.checkBogusTokens.value = .ok () ↔ ∀ s, ListedBogus history s → s ∉ g.symbols) ∧
      ∀ fault, g.checkBogusTokens.value = .error fault ↔
        ∃ id, fault = .bogusToken id ∧ (∃ r, g.rule? id = some r ∧ ProducesBogus history r) ∧
          ∀ j < id, ∀ r, g.rule? j = some r → ¬ ProducesBogus history r := by
  intro g
  constructor
  · rw [checkBogusTokens_eq_ok_iff]
    constructor
    · intro hbodies s hbogus hmem
      obtain ⟨p, hp, hs⟩ := (mem_symbols_iff_of_listedBogus hbogus).mp hmem
      exact hbodies p hp s hs (mem_bogusSymbols_replay_iff.mpr hbogus)
    · intro habsent p hp s hs hbogus
      have listed := mem_bogusSymbols_replay_iff.mp hbogus
      exact habsent s listed ((mem_symbols_iff_of_listedBogus listed).mpr ⟨p, hp, hs⟩)
  · intro fault
    simp only [checkBogusTokens_eq_error_iff, firstProducing_eq_some_iff,
      mentions_bogusSymbols_iff, g]
    exact exists_congr fun id => and_comm

/-- An anchor that only precedences know, a bogus level that is refused since `E` owns a rule,
and one for `?`, which a body has already. -/
def bogusAfterUse : List (Declaration Unit) :=
  [.level .bogus ["neg"],
   .rule ⟨⟨"E", ["-", "E"]⟩, some "neg", .construct "neg" [1], ()⟩,
   .rule ⟨⟨"E", ["E", "?"]⟩, none, .construct "try" [0], ()⟩,
   .level .bogus ["-", "E"],
   .level .bogus ["?"],
   .rule ⟨⟨"?", ["-"]⟩, none, .rename 0, ()⟩]

/-- The check passes up to the refused level, so `neg` is no symbol of the grammar then, and in
the end it blames the rule that has `?` in its body. -/
theorem checkBogusTokens_verdict_bogusAfterUse :
    ListedBogus (bogusAfterUse.take 4) "neg" ∧
      "neg" ∉ (replay (bogusAfterUse.take 4)).symbols ∧
      ListedBogus bogusAfterUse "?" ∧ ¬ ListedBogus bogusAfterUse "-" ∧
      (replay bogusAfterUse).checkBogusTokens.value = .error (.bogusToken 1) := by
  have hneg : ListedBogus (bogusAfterUse.take 4) "neg" :=
    mem_bogusSymbols_replay_iff.mp (by decide +kernel)
  have htry : ListedBogus bogusAfterUse "?" := mem_bogusSymbols_replay_iff.mp (by decide +kernel)
  have unlisted (s : Symbol) (h : s ∉ (replay bogusAfterUse).precedence.bogusSymbols) :
      ¬ ListedBogus bogusAfterUse s := mem_bogusSymbols_replay_iff.not.mp h
  have hminus := unlisted "-" (by decide +kernel)
  have before : ∀ j < 1, ∀ r, (replay bogusAfterUse).rule? j = some r →
      ¬ ProducesBogus bogusAfterUse r := by
    intro j hj r hr
    obtain rfl : j = 0 := Nat.lt_one_iff.mp hj
    have hfirst : (replay bogusAfterUse).rule? 0 =
        some ⟨⟨"E", ["-", "E"]⟩, some "neg", .construct "neg" [1], ()⟩ := by decide +kernel
    obtain rfl := Option.some.inj (hr.symm.trans hfirst)
    simpa [ProducesBogus] using ⟨hminus, unlisted "E" (by decide +kernel)⟩
  refine ⟨hneg, ?_, htry, hminus, ?_⟩
  · exact (checkBogusTokens_verdict _).1.mp (by decide +kernel) "neg" hneg
  · exact ((checkBogusTokens_verdict bogusAfterUse).2 _).mpr
      ⟨1, rfl, ⟨⟨⟨"E", ["E", "?"]⟩, none, .construct "try" [0], ()⟩, by decide +kernel, "?",
        by decide, htry⟩, before⟩

end Grammar

end LRGrammar
