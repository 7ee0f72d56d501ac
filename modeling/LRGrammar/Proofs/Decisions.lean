import LRGrammar.Proofs.Refusals
import LRGrammar.Proofs.RuleLevels

/-!
# LRGrammar.Proofs.Decisions

Who wins a conflict, told by the history of declarations alone.  A rule goes by the anchor that
it names, or else by the first symbol of its body that an accepted level declaration lists,
wherever in the history that declaration stands.  If lookahead and anchor are listed by
different declarations, the one that is listed later wins: a later level binds tighter.

* `Grammar.goesBy_replay_iff`, `Grammar.ruleLevel_of_anchoredBy` — the level of a rule, by the
  declarations that list symbols;
* `Grammar.Decides.resolveConflict_eq`, `Grammar.exists_decides` — the history decides every
  conflict, and the grammar decides it in the same way;
* `Grammar.resolveConflict_by_history` — the decision of a conflict, and its mirror image.
-/

namespace LRGrammar

namespace Grammar

variable {ο : Type} {history : List (Declaration ο)} {r : Rule ο} {id : RuleId}
variable {s a lookahead : Symbol} {tag tag' : Associativity} {i j : Nat}
variable {outcome : Except Fault (Option Associativity)}

/-! ## rules and anchors in a history -/

/-- The rule was declared in the history and accepted under this id. -/
def AcceptedAs (history : List (Declaration ο)) (r : Rule ο) (id : RuleId) : Prop :=
  (.rule r, .ok (.rule id)) ∈ answers ∅ history

theorem acceptedAs_iff : AcceptedAs history r id ↔ (replay history).rule? id = some r :=
  rule?_replay_eq_some_iff.symm

/-- The symbol is the anchor that the rule names, or else the first symbol of its body that the
history lists. -/
def AnchoredBy (history : List (Declaration ο)) (r : Rule ο) (a : Symbol) : Prop :=
  r.anchor = some a ∨ r.anchor = none ∧ IsFirst (fun _ s => Listed history s) r.rhs a

theorem not_listed_iff : ¬ Listed history s ↔ (replay history).levelOf s = none := by
  rw [listed_iff, not_ne_iff]

theorem goesBy_replay_iff : (replay history).GoesBy r a ↔ AnchoredBy history r a := by
  have first_iff : (replay history).precedence.inferAnchor r.rhs = some a ↔
      IsFirst (fun _ s => Listed history s) r.rhs a := by
    simp only [PrecedenceTable.inferAnchor, find?_eq_some_iff_isFirst, listed_iff,
      Option.isSome_iff_ne_none]
    rfl
  rw [GoesBy, AnchoredBy, first_iff]

/-- A rule has the level that was opened for its anchor. -/
theorem ruleLevel_of_anchoredBy (hr : AcceptedAs history r id) (ha : AnchoredBy history r a)
    (hlisted : ListedAt history i tag a) :
    (replay history).ruleLevel id = .ok (some (levelsBefore history i)) :=
  ruleLevel_eq_some_iff.mpr ⟨r, a, acceptedAs_iff.mp hr, goesBy_replay_iff.mpr ha, hlisted.levelOf⟩

/-! ## the decision -/

/-- How the history decides between the lookahead and rule `id`. -/
inductive Decides (history : List (Declaration ο)) (lookahead : Symbol) (id : RuleId) :
    Except Fault (Option Associativity) → Prop where
  /-- No rule was accepted under the id. -/
  | unknownRule (h : ∀ r, ¬ AcceptedAs history r id) :
      Decides history lookahead id (.error (.unknownRule id))
  /-- The anchor that the rule names was never listed. -/
  | undeclaredAnchor {r : Rule ο} {a : Symbol} (hr : AcceptedAs history r id)
      (hanchor : r.anchor = some a) (hunlisted : ¬ Listed history a) :
      Decides history lookahead id (.error (.undeclaredAnchor id a))
  /-- The rule names no anchor, and no symbol of its body was ever listed. -/
  | noAnchor {r : Rule ο} (hr : AcceptedAs history r id) (hanchor : r.anchor = none)
      (hunlisted : ∀ s ∈ r.rhs, ¬ Listed history s) : Decides history lookahead id (.ok none)
  /-- The lookahead was never listed. -/
  | noLevel {r : Rule ο} {a : Symbol} (hr : AcceptedAs history r id) (ha : AnchoredBy history r a)
      (hlisted : Listed history a) (hunlisted : ¬ Listed history lookahead) :
      Decides history lookahead id (.ok none)
  /-- The lookahead was listed later than the anchor. -/
  | later {r : Rule ο} {a : Symbol} {i j : Nat} {tag tag' : Associativity}
      (hr : AcceptedAs history r id) (ha : AnchoredBy history r a) (hi : ListedAt history i tag a)
      (hj : ListedAt history j tag' lookahead) (hij : i < j) :
      Decides history lookahead id (.ok (some .right))
  /-- The lookahead was listed earlier than the anchor. -/
  | earlier {r : Rule ο} {a : Symbol} {i j : Nat} {tag tag' : Associativity}
      (hr : AcceptedAs history r id) (ha : AnchoredBy history r a) (hi : ListedAt history i tag a)
      (hj : ListedAt history j tag' lookahead) (hji : j < i) :
      Decides history lookahead id (.ok (some .left))
  /-- One declaration lists both, and its tag decides. -/
  | together {r : Rule ο} {a : Symbol} {i : Nat} {tag : Associativity}
      (hr : AcceptedAs history r id) (ha : AnchoredBy history r a) (hi : ListedAt history i tag a)
      (hj : ListedAt history i tag lookahead) (htag : tag ≠ .bogus) :
      Decides history lookahead id (.ok (some tag))
  /-- One bogus declaration lists both. -/
  | bogus {r : Rule ο} {a : Symbol} {i : Nat} (hr : AcceptedAs history r id)
      (ha : AnchoredBy history r a) (hi : ListedAt history i .bogus a)
      (hj : ListedAt history i .bogus lookahead) :
      Decides history lookahead id (.error (.bogusConflict lookahead id))

/-- The grammar decides as the history does. -/
theorem Decides.resolveConflict_eq (h : Decides history lookahead id outcome) :
    (replay history).resolveConflict lookahead id = outcome := by
  cases h with
  | unknownRule h =>
      have unknown : (replay history).rule? id = none := by
        rw [Option.eq_none_iff_forall_ne_some]
        exact fun r hr => h r (acceptedAs_iff.mpr hr)
      exact resolveConflict_eq_error_iff.mpr
        (.inl (ruleLevel_eq_error_iff.mpr (.inl ⟨unknown, rfl⟩)))
  | @undeclaredAnchor r a hr hanchor hunlisted =>
      have undeclared : (replay history).AnchorUndeclared id a :=
        ⟨r, acceptedAs_iff.mp hr, hanchor, not_listed_iff.mp hunlisted⟩
      exact resolveConflict_eq_error_iff.mpr
        (.inl (ruleLevel_eq_error_iff.mpr (.inr ⟨a, undeclared, rfl⟩)))
  | @noAnchor r hr hanchor hunlisted =>
      have unleveled : (replay history).ruleLevel id = .ok none :=
        ruleLevel_eq_none_iff.mpr ⟨r, acceptedAs_iff.mp hr, hanchor, fun s hs =>
          not_listed_iff.mp (hunlisted s hs)⟩
      simp [resolveConflict, unleveled]
  | noLevel hr ha hlisted hunlisted =>
      obtain ⟨i, tag, hi⟩ := listed_iff_listedAt.mp hlisted
      exact resolveConflict_of_unleveled (ruleLevel_of_anchoredBy hr ha hi)
        (not_listed_iff.mp hunlisted)
  | later hr ha hi hj hij =>
      exact resolveConflict_of_lt (ruleLevel_of_anchoredBy hr ha hi) hj.levelOf
        (hi.levelsBefore_lt hij)
  | earlier hr ha hi hj hji =>
      exact resolveConflict_of_gt (ruleLevel_of_anchoredBy hr ha hi) hj.levelOf
        (hj.levelsBefore_lt hji)
  | together hr ha hi hj htag =>
      rw [resolveConflict_of_same (ruleLevel_of_anchoredBy hr ha hi) hj.levelOf hi.tagOf,
        if_neg htag]
  | bogus hr ha hi hj =>
      rw [resolveConflict_of_same (ruleLevel_of_anchoredBy hr ha hi) hj.levelOf hi.tagOf,
        if_pos rfl]

theorem exists_decides_of_anchoredBy (hr : AcceptedAs history r id) (ha : AnchoredBy history r a)
    (hi : ListedAt history i tag a) : ∃ outcome, Decides history lookahead id outcome := by
  by_cases hlookahead : Listed history lookahead
  · obtain ⟨j, tag', hj⟩ := listed_iff_listedAt.mp hlookahead
    -- which of the two was listed first decides, and the tag where one declaration lists both
    rcases Nat.lt_trichotomy i j with hij | rfl | hji
    · exact ⟨_, .later hr ha hi hj hij⟩
    · obtain rfl : tag = tag' := hi.tag_eq hj
      by_cases htag : tag = .bogus
      · subst htag
        exact ⟨_, .bogus hr ha hi hj⟩
      · exact ⟨_, .together hr ha hi hj htag⟩
    · exact ⟨_, .earlier hr ha hi hj hji⟩
  · exact ⟨_, .noLevel hr ha (listed_iff_listedAt.mpr ⟨i, tag, hi⟩) hlookahead⟩

/-- The history leaves no conflict open. -/
theorem exists_decides (history : List (Declaration ο)) (lookahead : Symbol) (id : RuleId) :
    ∃ outcome, Decides history lookahead id outcome := by
  by_cases haccepted : ∃ r, AcceptedAs history r id
  · obtain ⟨r, hr⟩ := haccepted
    cases hanchor : r.anchor with
    | some a =>
        by_cases hlisted : Listed history a
        · obtain ⟨i, tag, hi⟩ := listed_iff_listedAt.mp hlisted
          exact exists_decides_of_anchoredBy hr (.inl hanchor) hi
        · exact ⟨_, .undeclaredAnchor hr hanchor hlisted⟩
    | none =>
        cases hinfer : (replay history).precedence.inferAnchor r.rhs with
        | none =>
            have unleveled := PrecedenceTable.inferAnchor_eq_none_iff.mp hinfer
            exact ⟨_, .noAnchor hr hanchor fun s hs => not_listed_iff.mpr (unleveled s hs)⟩
        | some a =>
            have hlisted : Listed history a := listed_iff.mpr
              (Option.isSome_iff_ne_none.mp (PrecedenceTable.levelOf_isSome_of_inferAnchor hinfer))
            obtain ⟨i, tag, hi⟩ := listed_iff_listedAt.mp hlisted
            exact exists_decides_of_anchoredBy hr
              (goesBy_replay_iff.mp (.inr ⟨hanchor, hinfer⟩)) hi
  · exact ⟨_, .unknownRule fun r hr => haccepted ⟨r, hr⟩⟩

/-- **Conflicts are decided by the history of declarations**, whichever of them were refused
and in whatever order rules and levels come: the outcome is the one that `Decides` names.  So
of two rules with anchors from different declarations, one gives way to the anchor of the other
exactly if that one prevails over the anchor of the first. -/
theorem resolveConflict_by_history (history : List (Declaration ο)) :
    let g := replay history
    (∀ lookahead id outcome,
        g.resolveConflict lookahead id = outcome ↔ Decides history lookahead id outcome) ∧
      ∀ r r' id id' a b i j tag tag', AcceptedAs history r id → AcceptedAs history r' id' →
        AnchoredBy history r a → AnchoredBy history r' b →
        ListedAt history i tag a → ListedAt history j tag' b → i ≠ j →
        (g.resolveConflict b id = .ok (some .right) ↔ g.resolveConflict a id' = .ok (some .left)) := by
  intro g
  refine ⟨fun lookahead id outcome => ⟨?_, Decides.resolveConflict_eq⟩, ?_⟩
  · rintro rfl
    obtain ⟨outcome, hdecides⟩ := exists_decides history lookahead id
    rw [hdecides.resolveConflict_eq]
    exact hdecides
  · intro r r' id id' a b i j tag tag' hr hr' ha hb hi hj hne
    rcases Nat.lt_or_gt_of_ne hne with hij | hji
    · have right : g.resolveConflict b id = .ok (some .right) :=
        Decides.resolveConflict_eq (.later hr ha hi hj hij)
      have left : g.resolveConflict a id' = .ok (some .left) :=
        Decides.resolveConflict_eq (.earlier hr' hb hj hi hij)
      simp [right, left]
    · have left : g.resolveConflict b id = .ok (some .left) :=
        Decides.resolveConflict_eq (.earlier hr ha hi hj hji)
      have right : g.resolveConflict a id' = .ok (some .right) :=
        Decides.resolveConflict_eq (.later hr' hb hj hi hji)
      simp [left, right]

/-- Sums, a power in brackets before its operator has a level, a level that is refused for a
symbol that has one, and two rules with anchors of their own. -/
def scattered : List (Declaration Unit) :=
  [.level .left ["+", "-"],
   .rule ⟨⟨"E", ["E", "+", "E"]⟩, none, .construct "add" [0, 2], ()⟩,
   .rule ⟨⟨"E", ["(", "E", "^", "E", ")"]⟩, none, .construct "pow" [1, 3], ()⟩,
   .level .right ["(", "-"],
   .level .right ["^"],
   .level .bogus ["neg"],
   .rule ⟨⟨"E", ["-", "E"]⟩, some "neg", .construct "neg" [1], ()⟩,
   .rule ⟨⟨"E", ["?", "E"]⟩, some "maybe", .construct "maybe" [1], ()⟩]

/-- The power is anchored on `^`, since the level for `(` was refused, and `^` is listed after
`+`: it wins over sums on either side.  Sums go by the tag of their level, the negation cannot
be decided against its anchor, and `maybe` was never listed. -/
theorem resolveConflict_by_history_scattered :
    let g := replay scattered
    let add : Rule Unit := ⟨⟨"E", ["E", "+", "E"]⟩, none, .construct "add" [0, 2], ()⟩
    let pow : Rule Unit := ⟨⟨"E", ["(", "E", "^", "E", ")"]⟩, none, .construct "pow" [1, 3], ()⟩
    AnchoredBy scattered add "+" ∧ AnchoredBy scattered pow "^" ∧
      ListedAt scattered 0 .left "+" ∧ ListedAt scattered 4 .right "^" ∧
      g.resolveConflict "^" 0 = .ok (some .right) ∧ g.resolveConflict "+" 1 = .ok (some .left) ∧
      g.resolveConflict "-" 0 = .ok (some .left) ∧
      g.resolveConflict "neg" 2 = .error (.bogusConflict "neg" 2) ∧
      g.resolveConflict "num" 3 = .error (.undeclaredAnchor 3 "maybe") ∧
      g.resolveConflict "num" 0 = .ok none := by
  intro g add pow
  have hadd : AcceptedAs scattered add 0 := acceptedAs_iff.mpr (by decide +kernel)
  have hpow : AcceptedAs scattered pow 1 := acceptedAs_iff.mpr (by decide +kernel)
  have ha : AnchoredBy scattered add "+" := goesBy_replay_iff.mp (.inr (by decide +kernel))
  have hb : AnchoredBy scattered pow "^" := goesBy_replay_iff.mp (.inr (by decide +kernel))
  have hplus : ListedAt scattered 0 .left "+" :=
    ⟨["+", "-"], 0, by decide +kernel, by decide⟩
  have hminus : ListedAt scattered 0 .left "-" :=
    ⟨["+", "-"], 0, by decide +kernel, by decide⟩
  have hcaret : ListedAt scattered 4 .right "^" := ⟨["^"], 1, by decide +kernel, by decide⟩
  obtain ⟨decided, mirrored⟩ := resolveConflict_by_history scattered
  have hright : g.resolveConflict "^" 0 = .ok (some .right) :=
    (decided "^" 0 _).mpr (.later hadd ha hplus hcaret (by decide))
  have hleft : g.resolveConflict "+" 1 = .ok (some .left) :=
    (mirrored add pow 0 1 "+" "^" 0 4 .left .right hadd hpow ha hb hplus hcaret (by decide)).mp hright
  have htogether : g.resolveConflict "-" 0 = .ok (some .left) :=
    (decided "-" 0 _).mpr (.together hadd ha hplus hminus (by decide))
  exact ⟨ha, hb, hplus, hcaret, hright, hleft, htogether, by decide +kernel, by decide +kernel,
    by decide +kernel⟩

end Grammar

end LRGrammar
