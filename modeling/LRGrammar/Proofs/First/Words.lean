import LRGrammar.Proofs.First.Analysis
import LRGrammar.Proofs.Productivity

/-!
# LRGrammar.Proofs.First.Words

FIRST sets speak of sequences that a symbol derives, whatever they consist of.  In a
well-founded grammar every symbol derives a word of terminals, so each of these
sequences can be completed to a word, its first symbol kept: the FIRST sets are
those of the language.

* `Grammar.Coherent.forall_mem_symbols` — a derivation does not leave the symbols of
  the grammar;
* `Grammar.Coherent.productive_of_wellFounded` — the check makes every symbol
  productive;
* `Grammar.Coherent.exists_word` — what begins with a terminal derives a word of
  terminals that does;
* `Grammar.mem_first_iff_exists_word` — the terminals that words of a symbol begin
  with, and that every symbol has some or is nullable.
-/

namespace LRGrammar

namespace Grammar

variable {ο : Type} {g : Grammar ο} {s t : Symbol} {xs ys : List Symbol}

/-- A derivation from symbols of the grammar leads to symbols of the grammar. -/
theorem Coherent.forall_mem_symbols (h : g.Coherent) (derives : Derives g.productions xs ys)
    (hxs : ∀ x ∈ xs, x ∈ g.symbols) : ∀ y ∈ ys, y ∈ g.symbols := by
  induction derives with
  | refl => exact hxs
  | tail _ step ih =>
      obtain @⟨p, before, after, hp⟩ := step
      intro y hy
      rw [List.mem_append, List.mem_append] at hy
      rcases hy with (hy | hy) | hy
      · exact ih y (by simp [hy])
      · exact (h.mem_symbols y).mpr ⟨p, hp, .inr hy⟩
      · exact ih y (by simp [hy])

/-- The apparent terminals are the symbols of the grammar that own no rule. -/
theorem Coherent.mem_apparentTerminals_iff (h : g.Coherent) :
    t ∈ g.apparentTerminals ↔ t ∈ g.symbols ∧ Ruleless g.productions t := by
  rw [mem_apparentTerminals, ← Bool.not_eq_true, h.isNonterminal_iff]
  simp [Ruleless]

/-- In a well-founded grammar every symbol derives a word. -/
theorem Coherent.productive_of_wellFounded (h : g.Coherent)
    (hwf : g.checkWellFounded.value = .ok ()) (s : Symbol) : Productive g.productions s := by
  by_cases hs : s ∈ g.nonterminals
  · have none_stuck := (Check.blame_verdict .illFounded h.mem_stuck).1.mp hwf s
    simpa [hs] using none_stuck
  · rw [mem_nonterminals, h.isNonterminal_iff] at hs
    exact Ruleless.productive fun p hp hlhs => hs ⟨p, hp, hlhs⟩

/-- What begins with a terminal derives a word of terminals that begins with it. -/
theorem Coherent.exists_word (h : g.Coherent) (hwf : g.checkWellFounded.value = .ok ())
    (hs : s ∈ g.symbols) (ht : t ∈ g.apparentTerminals) {tail : List Symbol}
    (derives : Derives g.productions [s] (t :: tail)) :
    ∃ word, Derives g.productions [s] (t :: word) ∧ ∀ y ∈ t :: word, y ∈ g.apparentTerminals := by
  obtain ⟨word, hword, hruleless⟩ :=
    exists_derives_ruleless fun x (_ : x ∈ tail) => h.productive_of_wellFounded hwf x
  have completed : Derives g.productions [s] (t :: word) :=
    derives.trans (hword.append_left [t])
  have known := h.forall_mem_symbols completed (by simpa using hs)
  refine ⟨word, completed, fun y hy => ?_⟩
  rcases List.mem_cons.mp hy with rfl | hmem
  · exact ht
  · exact h.mem_apparentTerminals_iff.mpr ⟨known y hy, hruleless y hmem⟩

theorem Coherent.mem_firstOf (h : g.Coherent) (hs : s ∈ g.symbols) :
    (∃ set, g.firstSets.firstOf s = some set ∧ t ∈ set) ↔
      g.isNonterminal t = false ∧ ∃ tail, Derives g.productions [s] (t :: tail) := by
  have hfirst := (h.settleAll_scan (Digraph.lists_ofMap _)).2 s t
  rw [SymbolMap.mem_getD_empty] at hfirst
  exact hfirst.trans (and_iff_right hs)

/-- **FIRST sets of a well-founded grammar are those of its language**: a terminal is in
the FIRST set of a symbol exactly if some word of terminals that the symbol derives
begins with it.  So every symbol is nullable or has a FIRST set that is not empty. -/
theorem mem_first_iff_exists_word (history : List (Declaration ο))
    (hwf : (replay history).checkWellFounded.value = .ok ()) (s : Symbol)
    (hs : s ∈ (replay history).symbols) :
    (∀ t ∈ (replay history).apparentTerminals,
      (∃ set, (replay history).firstSets.firstOf s = some set ∧ t ∈ set) ↔
        ∃ word, Derives (replay history).productions [s] (t :: word) ∧
          ∀ y ∈ t :: word, y ∈ (replay history).apparentTerminals) ∧
      (s ∈ (replay history).firstSets.nullable ∨
        ∃ set, (replay history).firstSets.firstOf s = some set ∧ set ≠ ∅) := by
  have h := coherent_replay history
  constructor
  · intro t ht
    rw [h.mem_firstOf hs, and_iff_right (mem_apparentTerminals.mp ht).2]
    constructor
    · intro ⟨tail, derives⟩
      exact h.exists_word hwf hs ht derives
    · intro ⟨word, derives, _⟩
      exact ⟨word, derives⟩
  · obtain ⟨word, derives, hruleless⟩ := h.productive_of_wellFounded hwf s
    cases word with
    | nil => exact .inl (Scan.mem_nullable_run.mpr derives)
    | cons t word =>
        have known := h.forall_mem_symbols derives (by simpa using hs)
        have hterminal : t ∈ (replay history).apparentTerminals :=
          h.mem_apparentTerminals_iff.mpr
            ⟨known t List.mem_cons_self, hruleless t List.mem_cons_self⟩
        obtain ⟨set, hset, ht⟩ := (h.mem_firstOf hs).mpr
          ⟨(mem_apparentTerminals.mp hterminal).2, word, derives⟩
        exact .inr ⟨set, hset, fun hempty => Std.ExtTreeSet.not_mem_empty (hempty ▸ ht)⟩

/-- Left recursion behind a symbol that vanishes: `S → E L`, `L → L b` and `L → a`. -/
def leftRecursion : List (Declaration Unit) :=
  [.rule ⟨⟨"S", ["E", "L"]⟩, none, .rename 1, ()⟩,
   .rule ⟨⟨"L", ["L", "b"]⟩, none, .construct "more" [0, 1], ()⟩,
   .rule ⟨⟨"L", ["a"]⟩, none, .construct "item" [0], ()⟩,
   .rule ⟨⟨"E", []⟩, none, .construct "nothing" [], ()⟩]

/-- The FIRST set of `S` promises a word of terminals that begins with `a`. -/
theorem mem_first_iff_exists_word_leftRecursion :
    (replay leftRecursion).checkWellFounded.value = .ok () ∧
      "S" ∈ (replay leftRecursion).symbols ∧ "a" ∈ (replay leftRecursion).apparentTerminals ∧
      ∃ word, Derives (replay leftRecursion).productions ["S"] ("a" :: word) ∧
        ∀ y ∈ "a" :: word, y ∈ (replay leftRecursion).apparentTerminals := by
  have hwf : (replay leftRecursion).checkWellFounded.value = .ok () := by decide +kernel
  have hs : "S" ∈ (replay leftRecursion).symbols := by decide +kernel
  have ht : "a" ∈ (replay leftRecursion).apparentTerminals := by decide +kernel
  have hfirst : (replay leftRecursion).firstSets.firstOf "S" = some (.ofList ["a"]) := by
    decide +kernel
  have hword := ((mem_first_iff_exists_word leftRecursion hwf "S" hs).1 "a" ht).mp
    ⟨_, hfirst, SymbolSet.mem_ofList.mpr List.mem_cons_self⟩
  exact ⟨hwf, hs, ht, hword⟩

end Grammar

end LRGrammar
