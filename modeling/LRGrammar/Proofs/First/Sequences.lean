import LRGrammar.Proofs.First.Words

/-!
# LRGrammar.Proofs.First.Sequences

What sequences begin with.  A sequence begins as its first symbol does, and if that vanishes,
also as the rest does; a symbol with rules begins as their bodies do.  The FIRST sets of a
grammar are read off the components of a relation between symbols, and yet they meet both
equations: the sets of sequences are those of the derivations.

* `canBegin_cons_iff`, `canBegin_singleton_iff` — the two equations, for derivations;
* `Grammar.Coherent.mem_leading` — what a symbol begins with, known to the grammar or not;
* `Grammar.Coherent.mem_firstOfSequence` — what a sequence begins with;
* `Grammar.Coherent.firstOf_eq` — the FIRST set of a non-terminal is the union of the sets
  of its bodies;
* `Grammar.firstOfSequence_firstSets` — all of it, for the grammar after a history.
-/

namespace LRGrammar

variable {P : List Production} {x s t : Symbol} {xs rest : List Symbol}

/-! ## beginnings -/

/-- The sequence derives one that begins with `t`. -/
def CanBegin (P : List Production) (xs : List Symbol) (t : Symbol) : Prop :=
  ∃ tail, Derives P xs (t :: tail)

theorem not_canBegin_nil : ¬ CanBegin P [] t := by
  rintro ⟨tail, h⟩
  obtain ⟨before, x, after, hnil, -⟩ := h.exists_front
  simp at hnil

/-- A sequence begins as its first symbol does, and as the rest does if that vanishes. -/
theorem canBegin_cons_iff :
    CanBegin P (x :: rest) t ↔ CanBegin P [x] t ∨ DerivesEmpty P x ∧ CanBegin P rest t := by
  constructor
  · intro ⟨tail, h⟩
    obtain ⟨front, back, hform, hfront, hback⟩ := @Derives.exists_append P [x] rest _ h
    cases front with
    | nil => exact .inr ⟨hfront, tail, by rwa [hform]⟩
    | cons y front =>
        obtain ⟨rfl, -⟩ : t = y ∧ tail = front ++ back := by simpa using hform
        exact .inl ⟨front, hfront⟩
  · rintro (⟨tail, h⟩ | ⟨hempty, tail, h⟩)
    · exact ⟨tail ++ rest, h.append_right rest⟩
    · exact ⟨tail, (hempty.append_right rest).trans h⟩

/-- A symbol begins with itself, and as the bodies for it do. -/
theorem canBegin_singleton_iff :
    CanBegin P [s] t ↔ t = s ∨ ∃ p ∈ P, p.lhs = s ∧ CanBegin P p.rhs t := by
  simp only [CanBegin, derives_singleton_iff (a := s), List.cons.injEq, exists_or]
  constructor
  · rintro (⟨tail, hsame, -⟩ | ⟨tail, p, hp, hlhs, h⟩)
    · exact .inl hsame
    · exact .inr ⟨p, hp, hlhs, tail, h⟩
  · rintro (hsame | ⟨p, hp, hlhs, tail, h⟩)
    · exact .inl ⟨[], hsame, rfl⟩
    · exact .inr ⟨tail, p, hp, hlhs, h⟩

/-- A symbol without a rule begins with itself only. -/
theorem Ruleless.canBegin_iff (h : Ruleless P s) : CanBegin P [s] t ↔ t = s := by
  rw [canBegin_singleton_iff, or_iff_left]
  rintro ⟨p, hp, hlhs, -⟩
  exact h p hp hlhs

/-- A symbol vanishes exactly if some body for it does. -/
theorem derivesEmpty_iff : DerivesEmpty P s ↔ ∃ p ∈ P, p.lhs = s ∧ Derives P p.rhs [] := by
  rw [DerivesEmpty, derives_singleton_iff, or_iff_right (List.cons_ne_nil s []).symm]

namespace Grammar

variable {ο : Type} {g : Grammar ο} {a : Symbol}

/-! ## the sets of a grammar -/

theorem ruleless_iff : Ruleless g.productions t ↔ ∀ r ∈ g.rules, r.lhs ≠ t := by
  simp [Ruleless, productions]

/-- The sets know the symbols of the grammar and no others. -/
theorem Coherent.firstOf_eq_none_iff (h : g.Coherent) :
    g.firstSets.firstOf s = none ↔ s ∉ g.symbols := by
  have known : s ∈ g.firstSets.first ↔ s ∈ g.symbols :=
    (h.settleAll_scan (Digraph.lists_ofMap _)).1 s
  rw [FirstSets.firstOf, ← known, SymbolMap.mem_iff_getElem?, ← Option.ne_none_iff_exists', not_not]

theorem Coherent.exists_firstOf (h : g.Coherent) (hs : s ∈ g.symbols) :
    ∃ set, g.firstSets.firstOf s = some set :=
  Option.ne_none_iff_exists'.mp (mt h.firstOf_eq_none_iff.mp (not_not.mpr hs))

/-- A symbol, known to the grammar or not, is given the symbols without a rule that it begins
with. -/
theorem Coherent.mem_leading (h : g.Coherent) :
    t ∈ g.firstSets.leading s ↔ Ruleless g.productions t ∧ CanBegin g.productions [s] t := by
  by_cases hs : s ∈ g.symbols
  · obtain ⟨set, hset⟩ := h.exists_firstOf hs
    have hfirst := h.mem_firstOf (t := t) hs
    rw [h.isNonterminal_eq_false_iff, ← ruleless_iff] at hfirst
    rw [FirstSets.leading, hset, Option.getD_some, CanBegin, ← hfirst]
    simp [hset]
  · have hruleless : Ruleless g.productions s := fun p hp hlhs =>
      hs ((h.mem_symbols s).mpr ⟨p, hp, .inl hlhs.symm⟩)
    rw [FirstSets.leading, h.firstOf_eq_none_iff.mpr hs, Option.getD_none, SymbolSet.mem_ofList,
      List.mem_singleton, hruleless.canBegin_iff]
    exact ⟨fun heq => ⟨heq ▸ hruleless, heq⟩, And.right⟩

/-- A sequence is given the symbols without a rule that it begins with. -/
theorem Coherent.mem_firstOfSequence (h : g.Coherent) (xs : List Symbol) :
    t ∈ (g.firstSets.firstOfSequence xs).1 ↔
      Ruleless g.productions t ∧ CanBegin g.productions xs t := by
  induction xs with
  | nil => simp [FirstSets.firstOfSequence, not_canBegin_nil]
  | cons x rest ih =>
      have vanishes := isNullable_firstSets_iff (g := g) (s := x)
      rw [canBegin_cons_iff, ← vanishes]
      cases hx : g.firstSets.isNullable x with
      | true =>
          rw [FirstSets.firstOfSequence_cons_of_nullable hx, Std.ExtTreeSet.mem_union_iff,
            h.mem_leading, ih, ← and_or_left, and_iff_right rfl]
      | false =>
          rw [FirstSets.firstOfSequence_cons_of_not_nullable hx, h.mem_leading]
          simp

/-- A sequence is flagged if it derives the empty one. -/
theorem firstOfSequence_snd_iff (xs : List Symbol) :
    (g.firstSets.firstOfSequence xs).2 ↔ Derives g.productions xs [] := by
  rw [derives_nil_iff]
  induction xs with
  | nil => simp [FirstSets.firstOfSequence]
  | cons x rest ih =>
      rw [List.forall_mem_cons, ← ih, ← isNullable_firstSets_iff]
      cases hx : g.firstSets.isNullable x with
      | true => rw [FirstSets.firstOfSequence_cons_of_nullable hx, and_iff_right rfl]
      | false =>
          rw [FirstSets.firstOfSequence_cons_of_not_nullable hx]
          simp

/-! ## the sets of a non-terminal -/

/-- The rules whose left-hand side is the symbol. -/
def alternatives (g : Grammar ο) (a : Symbol) : List (Rule ο) := g.rules.filter (·.lhs = a)

theorem exists_mem_alternatives_iff {Q : Production → Prop} :
    (∃ r ∈ g.alternatives a, Q r.toProduction) ↔ ∃ p ∈ g.productions, p.lhs = a ∧ Q p := by
  simp [alternatives, productions, and_assoc]

/-- The FIRST set of a non-terminal is the union of the sets of its bodies. -/
theorem Coherent.firstOf_eq (h : g.Coherent) (ha : g.isNonterminal a) :
    g.firstSets.firstOf a =
      some (.unions ((g.alternatives a).map fun r => (g.firstSets.firstOfSequence r.rhs).1)) := by
  obtain ⟨p, hp, hlhs⟩ := (h.isNonterminal_iff a).mp ha
  obtain ⟨set, hset⟩ := h.exists_firstOf (h.mem_symbols_of_isNonterminal ha)
  have mem_set (t : Symbol) :
      t ∈ set ↔ Ruleless g.productions t ∧ CanBegin g.productions [a] t := by
    rw [← h.mem_leading, FirstSets.leading, hset, Option.getD_some]
  -- a symbol without a rule is not `a`, so it comes from a body
  have from_body (t : Symbol) (ht : Ruleless g.productions t) :
      CanBegin g.productions [a] t ↔
        ∃ p ∈ g.productions, p.lhs = a ∧ CanBegin g.productions p.rhs t := by
    rw [canBegin_singleton_iff, or_iff_right]
    rintro rfl
    exact ht p hp hlhs
  rw [hset]
  refine congrArg some (Std.ExtTreeSet.ext_mem fun t => ?_)
  calc
    t ∈ set ↔ Ruleless g.productions t ∧
        ∃ p ∈ g.productions, p.lhs = a ∧ CanBegin g.productions p.rhs t := by
      rw [mem_set, and_congr_right (from_body t)]
    _ ↔ ∃ p ∈ g.productions, p.lhs = a ∧
        Ruleless g.productions t ∧ CanBegin g.productions p.rhs t := by
      simp only [← exists_and_left, and_left_comm (a := Ruleless g.productions t)]
    _ ↔ ∃ r ∈ g.alternatives a, t ∈ (g.firstSets.firstOfSequence r.rhs).1 := by
      simp only [h.mem_firstOfSequence]
      exact exists_mem_alternatives_iff.symm
    _ ↔ t ∈ SymbolSet.unions
        ((g.alternatives a).map fun r => (g.firstSets.firstOfSequence r.rhs).1) := by
      simp

/-- A symbol is nullable exactly if some body for it is. -/
theorem isNullable_iff_alternatives :
    g.firstSets.isNullable a ↔
      ∃ r ∈ g.alternatives a, (g.firstSets.firstOfSequence r.rhs).2 := by
  simp only [firstOfSequence_snd_iff]
  rw [exists_mem_alternatives_iff (Q := fun p => Derives g.productions p.rhs []),
    ← derivesEmpty_iff, isNullable_firstSets_iff]

/-- **The sets of sequences are those of the derivations**: a sequence of symbols, known to the
grammar or not, is given exactly the symbols without a rule that a sequence derived from it
begins with, and is flagged exactly if it derives the empty sequence.  So the sets solve the
equations of FIRST sets: that of a non-terminal is the union of those of its bodies, and the
non-terminal is nullable exactly if one of its bodies is flagged. -/
theorem firstOfSequence_firstSets (history : List (Declaration ο)) :
    let g := replay history
    let sets := g.firstSets
    (∀ xs,
        (∀ t, t ∈ (sets.firstOfSequence xs).1 ↔
          (∀ r ∈ g.rules, r.lhs ≠ t) ∧ ∃ tail, Derives g.productions xs (t :: tail)) ∧
        ((sets.firstOfSequence xs).2 ↔ Derives g.productions xs [])) ∧
      ∀ a, g.isNonterminal a →
        sets.firstOf a =
            some (.unions ((g.alternatives a).map fun r => (sets.firstOfSequence r.rhs).1)) ∧
          (sets.isNullable a ↔ ∃ r ∈ g.alternatives a, (sets.firstOfSequence r.rhs).2) := by
  intro g sets
  have h : g.Coherent := coherent_replay history
  refine ⟨fun xs => ⟨fun t => ?_, firstOfSequence_snd_iff xs⟩,
    fun a ha => ⟨h.firstOf_eq ha, isNullable_iff_alternatives⟩⟩
  rw [h.mem_firstOfSequence xs, ruleless_iff]
  rfl

/-- `S` comes back behind a symbol that vanishes, and can vanish itself. -/
def vanishing : List (Declaration Unit) :=
  [.rule ⟨⟨"S", ["E", "S", "a"]⟩, none, .construct "more" [1], ()⟩,
   .rule ⟨⟨"S", ["b"]⟩, none, .construct "last" [0], ()⟩,
   .rule ⟨⟨"S", ["E", "E"]⟩, none, .construct "none" [], ()⟩,
   .rule ⟨⟨"E", []⟩, none, .construct "nothing" [], ()⟩]

/-- With `E` and `S` out of the way a sequence begins with `?`, which the grammar does not know.
The set of `S` is the union over its three bodies, and the last of them makes it nullable. -/
theorem firstOfSequence_firstSets_vanishing :
    let g := replay vanishing
    let sets := g.firstSets
    sets.firstOfSequence ["E", "S", "?", "b"] = (.ofList ["?", "a", "b"], false) ∧
      (∃ tail, Derives g.productions ["E", "S", "?", "b"] ("?" :: tail)) ∧
      g.isNonterminal "S" ∧
      sets.firstOf "S" =
        some (.unions ((g.alternatives "S").map fun r => (sets.firstOfSequence r.rhs).1)) ∧
      sets.firstOf "S" = some (.ofList ["a", "b"]) ∧ sets.isNullable "S" ∧
      ∃ r ∈ g.alternatives "S", (sets.firstOfSequence r.rhs).2 := by
  intro g sets
  have hsequence : sets.firstOfSequence ["E", "S", "?", "b"] = (.ofList ["?", "a", "b"], false) := by
    decide +kernel
  have hnonterminal : g.isNonterminal "S" := by decide +kernel
  have hnullable : sets.isNullable "S" := by decide +kernel
  obtain ⟨sequences, nonterminals⟩ := firstOfSequence_firstSets vanishing
  obtain ⟨hunion, hflagged⟩ := nonterminals "S" hnonterminal
  have hunknown : "?" ∈ (sets.firstOfSequence ["E", "S", "?", "b"]).1 := by
    rw [hsequence]
    exact SymbolSet.mem_ofList.mpr List.mem_cons_self
  exact ⟨hsequence, (((sequences _).1 "?").mp hunknown).2, hnonterminal, hunion,
    by decide +kernel, hnullable, hflagged.mp hnullable⟩

end Grammar

end LRGrammar
