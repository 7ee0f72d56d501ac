import LRGrammar.Proofs.Productivity
import Mathlib.Data.Finset.Card

/-!
# LRGrammar.Proofs.Sweeps

How often the pending rules are swept.  A sweep may settle nothing and still get on, by
dropping rules whose left-hand sides were settled behind them in the sweep before; the
unsettled symbols alone are no measure of the work that is left.  But the rules that such a
sweep leaves are all blocked by the very symbols that it began with, so no sweep after it
gets on (`sweep_of_blocked`).

* `SweepsTo` — the sweeps as a loop that nothing bounds;
* `SweepsTo.eq_settle`, `sweepsTo_settle` — the loop ends, and as `settle` says;
* `SweepsTo.sweeps_le_length`, `SweepsTo.sweeps_le_card` — every sweep but the last drops a
  rule; every sweep but the last two settles a symbol, or the last one too if none is stuck;
* `Grammar.sweeps_bounded` — the check ends after at most so many sweeps as there are rules,
  and at most one more than there are non-terminals.
-/

namespace LRGrammar

variable {settled : SymbolSet} {pending : List Production} {s : Symbol} {p : Production}

/-! ## one sweep -/

/-- Only left-hand sides of the swept rules are settled. -/
theorem mem_settled_or_lhs (h : s ∈ (sweep settled pending).1) :
    s ∈ settled ∨ ∃ p ∈ pending, p.lhs = s := by
  fun_induction sweep settled pending with
  | case1 => exact .inl h
  | case2 settled q rest _ ih =>
      rcases ih h with hs | ⟨p, hp, heq⟩
      · exact .inl hs
      · exact .inr ⟨p, List.mem_cons_of_mem q hp, heq⟩
  | case3 settled q rest _ _ ih =>
      rcases ih h with hs | ⟨p, hp, heq⟩
      · rcases SymbolSet.mem_insert.mp hs with rfl | hs
        · exact .inr ⟨q, List.mem_cons_self, rfl⟩
        · exact .inl hs
      · exact .inr ⟨p, List.mem_cons_of_mem q hp, heq⟩
  | case4 settled q rest _ _ _ ih =>
      rcases ih h with hs | ⟨p, hp, heq⟩
      · exact .inl hs
      · exact .inr ⟨p, List.mem_cons_of_mem q hp, heq⟩

/-- A sweep over blocked rules makes no difference. -/
theorem sweep_of_blocked (h : ∀ p ∈ pending, Blocked settled p) :
    sweep settled pending = (settled, pending) := by
  fun_induction sweep settled pending with
  | case1 => rfl
  | case2 settled q rest hlhs _ =>
      exact absurd (Std.ExtTreeSet.contains_iff_mem.mp hlhs) (h q List.mem_cons_self).1
  | case3 settled q rest _ hbody _ =>
      obtain ⟨x, hx, hnot⟩ := (h q List.mem_cons_self).2
      exact absurd (all_contains_iff.mp hbody x hx) hnot
  | case4 settled q rest _ _ behind ih =>
      have hbehind : behind = (settled, rest) :=
        ih fun p hp => h p (List.mem_cons_of_mem q hp)
      rw [hbehind]

/-! ## the loop -/

/-- Sweeping the pending rules again and again comes to the outcome: at once where no rule is
pending; after one sweep where that drops none; and else after one sweep more than it takes
with what the sweep leaves. -/
inductive SweepsTo : SymbolSet → List Production → Settling → Prop where
  | done {settled : SymbolSet} : SweepsTo settled [] ⟨0, ∅⟩
  | stuck {settled : SymbolSet} {pending : List Production} (hne : pending ≠ [])
      (hsame : (sweep settled pending).2.length = pending.length) :
      SweepsTo settled pending ⟨1, .ofList ((sweep settled pending).2.map (·.lhs))⟩
  | again {settled : SymbolSet} {pending : List Production} {later : Settling}
      (hne : pending ≠ []) (hdropped : (sweep settled pending).2.length ≠ pending.length)
      (hlater : SweepsTo (sweep settled pending).1 (sweep settled pending).2 later) :
      SweepsTo settled pending { later with sweeps := later.sweeps + 1 }

variable {outcome : Settling}

theorem sweepsTo_settle (settled : SymbolSet) (pending : List Production) :
    SweepsTo settled pending (settle settled pending) := by
  fun_induction settle settled pending with
  | case1 settled pending hempty =>
      rw [List.isEmpty_iff] at hempty
      rw [hempty]
      exact .done
  | case2 settled pending hne swept hprogress later ih =>
      exact .again (mt List.isEmpty_iff.mpr hne) hprogress.ne ih
  | case3 settled pending hne swept hprogress =>
      have hsame : swept.2.length = pending.length :=
        Nat.le_antisymm (sweep_sublist settled pending).length_le (Nat.le_of_not_lt hprogress)
      exact .stuck (mt List.isEmpty_iff.mpr hne) hsame

theorem SweepsTo.eq_settle (h : SweepsTo settled pending outcome) :
    outcome = settle settled pending := by
  induction h with
  | done => rw [settle, if_pos List.isEmpty_nil]
  | stuck hne hsame =>
      rw [settle, if_neg (mt List.isEmpty_iff.mp hne), if_neg hsame.not_lt]
  | @again settled pending later hne hdropped _ ih =>
      have hshorter : (sweep settled pending).2.length < pending.length :=
        Nat.lt_of_le_of_ne (sweep_sublist settled pending).length_le hdropped
      rw [settle, if_neg (mt List.isEmpty_iff.mp hne), if_pos hshorter, ih]

/-! ## how often -/

/-- Every sweep drops a rule, but for a last one that finds all of them blocked. -/
theorem SweepsTo.sweeps_le_length (h : SweepsTo settled pending outcome) :
    outcome.sweeps ≤ pending.length := by
  induction h with
  | done => exact Nat.le_refl 0
  | stuck hne _ => exact List.length_pos_iff.mpr hne
  | @again settled pending later _ hdropped _ ih =>
      have hshorter := Nat.lt_of_le_of_ne (sweep_sublist settled pending).length_le hdropped
      exact Nat.lt_of_le_of_lt ih hshorter

/-- The left-hand sides of the pending rules that are not settled. -/
def unsettled (settled : SymbolSet) (pending : List Production) : Finset Symbol :=
  (pending.map (·.lhs)).toFinset.filter (· ∉ settled)

theorem mem_unsettled :
    s ∈ unsettled settled pending ↔ (∃ p ∈ pending, p.lhs = s) ∧ s ∉ settled := by
  simp only [unsettled, Finset.mem_filter, List.mem_toFinset, List.mem_map]

theorem unsettled_sweep_subset :
    unsettled (sweep settled pending).1 (sweep settled pending).2 ⊆ unsettled settled pending := by
  intro s hs
  obtain ⟨⟨p, hp, hlhs⟩, hnot⟩ := mem_unsettled.mp hs
  exact mem_unsettled.mpr
    ⟨⟨p, (sweep_sublist settled pending).subset hp, hlhs⟩, mt mem_sweep_of_mem hnot⟩

/-- A sweep that settles a symbol leaves fewer unsettled. -/
theorem card_unsettled_sweep_lt (h : (sweep settled pending).1 ≠ settled) :
    (unsettled (sweep settled pending).1 (sweep settled pending).2).card <
      (unsettled settled pending).card := by
  obtain ⟨s, hs, hnew⟩ : ∃ s ∈ (sweep settled pending).1, s ∉ settled := by
    by_contra hnone
    simp only [not_exists, not_and, Classical.not_not] at hnone
    exact h (Std.ExtTreeSet.ext_mem fun s => ⟨hnone s, mem_sweep_of_mem⟩)
  have hopen : s ∈ unsettled settled pending :=
    mem_unsettled.mpr ⟨(mem_settled_or_lhs hs).resolve_left hnew, hnew⟩
  refine Finset.card_lt_card ((Finset.ssubset_iff_of_subset unsettled_sweep_subset).mpr
    ⟨s, hopen, fun hstill => ?_⟩)
  exact (mem_unsettled.mp hstill).2 hs

/-- Where all pending rules are blocked, one sweep shows it. -/
theorem SweepsTo.sweeps_le_one (h : SweepsTo settled pending outcome)
    (hblocked : ∀ p ∈ pending, Blocked settled p) : outcome.sweeps ≤ 1 := by
  cases h with
  | done => exact Nat.zero_le 1
  | stuck _ _ => exact Nat.le_refl 1
  | again _ hdropped _ =>
      rw [sweep_of_blocked hblocked] at hdropped
      exact absurd rfl hdropped

/-- There is at most one more sweep than there are symbols to settle. -/
theorem SweepsTo.sweeps_le_card (h : SweepsTo settled pending outcome) :
    outcome.sweeps ≤ (unsettled settled pending).card + 1 := by
  induction h with
  | done => exact Nat.zero_le _
  | stuck _ _ => exact Nat.le_add_left 1 _
  | @again settled pending later _ _ hlater ih =>
      show later.sweeps + 1 ≤ _
      by_cases hsettled : (sweep settled pending).1 = settled
      · -- a sweep that settles nothing leaves blocked rules only
        rw [hsettled] at hlater
        have hblocked : ∀ p ∈ (sweep settled pending).2, Blocked settled p :=
          fun p hp => blocked_of_mem_sweep hp
        cases hleft : (sweep settled pending).2 with
        | nil =>
            rw [hleft] at hlater
            have hnone : later.sweeps ≤ 0 := hlater.sweeps_le_length
            omega
        | cons p rest =>
            have hone : later.sweeps ≤ 1 := hlater.sweeps_le_one hblocked
            have hp : p ∈ (sweep settled pending).2 := hleft ▸ List.mem_cons_self
            have hopen : p.lhs ∈ unsettled settled pending := mem_unsettled.mpr
              ⟨⟨p, (sweep_sublist settled pending).subset hp, rfl⟩, (hblocked p hp).1⟩
            have hpos := Finset.card_pos.mpr ⟨p.lhs, hopen⟩
            omega
      · have hfewer := card_unsettled_sweep_lt hsettled
        omega

/-! ## the check -/

namespace Grammar

variable {ο : Type} {g : Grammar ο}

/-- All symbols to settle are non-terminals. -/
theorem Coherent.card_unsettled_le (h : g.Coherent) :
    (unsettled g.apparentTerminals g.productions).card ≤ g.nonterminals.size := by
  have hsub : unsettled g.apparentTerminals g.productions ⊆ g.nonterminals.toList.toFinset := by
    intro s hs
    obtain ⟨howns, -⟩ := mem_unsettled.mp hs
    rw [List.mem_toFinset, Std.ExtTreeSet.mem_toList, mem_nonterminals, h.isNonterminal_iff]
    exact howns
  calc (unsettled g.apparentTerminals g.productions).card
      ≤ g.nonterminals.toList.toFinset.card := Finset.card_le_card hsub
    _ ≤ g.nonterminals.toList.length := List.toFinset_card_le _
    _ = g.nonterminals.size := Std.ExtTreeSet.length_toList

/-- **The sweeps come to an end soon.**  Sweeping the rules from the terminals on ends, in one
way only, after at most so many sweeps as there are rules, and at most one more than there
are non-terminals.  The check reports this number of sweeps when it passes and when it
fails. -/
theorem sweeps_bounded (history : List (Declaration ο)) :
    let g := replay history
    ∃ outcome, SweepsTo g.apparentTerminals g.productions outcome ∧
      (∀ other, SweepsTo g.apparentTerminals g.productions other → other = outcome) ∧
      outcome.sweeps ≤ g.ruleCount ∧ outcome.sweeps ≤ g.nonterminals.size + 1 ∧
      ((g.checkWellFounded.value = .ok () ∧
          g.checkWellFounded.events = [.wellFounded outcome.sweeps]) ∨
        ∃ stuck, g.checkWellFounded.value = .error (.illFounded stuck) ∧
          g.checkWellFounded.events = [.illFounded outcome.sweeps stuck.size]) := by
  intro g
  have h : g.Coherent := coherent_replay history
  have hends : SweepsTo g.apparentTerminals g.productions g.settling := sweepsTo_settle _ _
  refine ⟨g.settling, hends, fun _ hother => hother.eq_settle, ?_, ?_, ?_⟩
  · calc g.settling.sweeps ≤ g.productions.length := hends.sweeps_le_length
      _ = g.ruleCount := List.length_map _
  · exact hends.sweeps_le_card.trans (Nat.succ_le_succ h.card_unsettled_le)
  · by_cases hstuck : g.settling.stuck.isEmpty
    · exact .inl ⟨by rw [checkWellFounded, Check.blame, if_pos hstuck],
        by rw [checkWellFounded, if_pos hstuck]⟩
    · exact .inr ⟨g.settling.stuck, by rw [checkWellFounded, Check.blame, if_neg hstuck],
        by rw [checkWellFounded, if_neg hstuck]⟩

-- both bounds are met: the rule that comes first is dropped by a sweep of its own
example : (settle (.ofList ["x"]) [⟨"A", ["A"]⟩, ⟨"A", ["x"]⟩]).sweeps = 2 := by cbv

end Grammar

end LRGrammar
