import LRGrammar.Proofs.History
import LRGrammar.Proofs.Leading
import LRGrammar.Validation.WellFounded

/-!
# LRGrammar.Proofs.Productivity

The sweeps settle the symbols that derive a finite sequence of symbols without a
rule, and leave the others stuck.  Before every sweep, what is settled is
productive, and a rule that is not pending any more has a settled left-hand side
(`Sweeping`).  A sweep that drops no rule has found all of them blocked and settled
nothing on the way, so the settled symbols are closed under the rules.

* `Productive.of_closed` — the productive symbols are the least set that holds the
  symbols without a rule, and a left-hand side wherever it holds the whole body;
* `Sweeping.sweep` — what every sweep keeps;
* `blocked_of_mem_sweep`, `sweep_of_length_le` — what a sweep leaves, and what one tells that
  drops nothing;
* `Sweeping.mem_stuck_settle` — what stays stuck when the sweeps have ended;
* `Grammar.checkWellFounded_verdict` — the check passes if and only if every
  non-terminal is productive, and names those that are not.
-/

namespace LRGrammar

/-! ## productive symbols -/

/-- No production has the symbol for its left-hand side. -/
def Ruleless (P : List Production) (s : Symbol) : Prop := ∀ p ∈ P, p.lhs ≠ s

/-- The symbol derives a finite sequence, possibly empty, of symbols without a rule. -/
def Productive (P : List Production) (s : Symbol) : Prop :=
  ∃ word, Derives P [s] word ∧ ∀ t ∈ word, Ruleless P t

variable {P : List Production} {s : Symbol} {p : Production}

theorem Ruleless.productive (h : Ruleless P s) : Productive P s :=
  ⟨[s], .refl P [s], fun _ ht => List.mem_singleton.mp ht ▸ h⟩

/-- A sequence of productive symbols derives a sequence of symbols without a rule. -/
theorem exists_derives_ruleless {xs : List Symbol} (h : ∀ x ∈ xs, Productive P x) :
    ∃ word, Derives P xs word ∧ ∀ t ∈ word, Ruleless P t := by
  induction xs with
  | nil => exact ⟨[], .refl P [], fun _ ht => absurd ht List.not_mem_nil⟩
  | cons x rest ih =>
      obtain ⟨front, hfront, hfront'⟩ := h x List.mem_cons_self
      obtain ⟨back, hback, hback'⟩ := ih fun y hy => h y (List.mem_cons_of_mem x hy)
      have derives : Derives P ([x] ++ rest) (front ++ back) := hfront.append hback
      refine ⟨front ++ back, derives, fun t ht => ?_⟩
      cases List.mem_append.mp ht with
      | inl ht => exact hfront' t ht
      | inr ht => exact hback' t ht

/-- A left-hand side is productive if its whole body is. -/
theorem productive_of_mem (hp : p ∈ P) (h : ∀ x ∈ p.rhs, Productive P x) :
    Productive P p.lhs := by
  obtain ⟨word, hword, hruleless⟩ := exists_derives_ruleless h
  exact ⟨word, (Derives.of_mem hp).trans hword, hruleless⟩

theorem Productive.of_closed {N : Symbol → Prop} (h : Productive P s)
    (ruleless : ∀ t, Ruleless P t → N t) (closed : ∀ p ∈ P, (∀ x ∈ p.rhs, N x) → N p.lhs) :
    N s := by
  obtain ⟨word, hword, hruleless⟩ := h
  exact hword.forall_mem_of_closed closed (fun t ht => ruleless t (hruleless t ht)) s
    List.mem_cons_self

/-! ## one sweep -/

variable {settled : SymbolSet} {pending : List Production}

/-- The test that a sweep makes of a body. -/
theorem all_contains_iff {symbols : List Symbol} :
    symbols.all settled.contains = true ↔ ∀ x ∈ symbols, x ∈ settled := by
  simp only [List.all_eq_true, Std.ExtTreeSet.contains_iff_mem]

/-- What is settled stays settled. -/
theorem mem_sweep_of_mem (h : s ∈ settled) : s ∈ (sweep settled pending).1 := by
  fun_induction sweep settled pending with
  | case1 => exact h
  | case2 _ _ _ _ ih => exact ih h
  | case3 _ _ _ _ _ ih => exact ih (SymbolSet.mem_insert.mpr (.inr h))
  | case4 _ _ _ _ _ _ ih => exact ih h

/-- A rule stays pending unless its left-hand side is settled. -/
theorem mem_sweep_or_settled (hp : p ∈ pending) :
    p ∈ (sweep settled pending).2 ∨ p.lhs ∈ (sweep settled pending).1 := by
  fun_induction sweep settled pending with
  | case1 => exact absurd hp List.not_mem_nil
  | case2 settled q rest hlhs ih =>
      rcases List.mem_cons.mp hp with rfl | hp
      · exact .inr (mem_sweep_of_mem (Std.ExtTreeSet.contains_iff_mem.mp hlhs))
      · exact ih hp
  | case3 settled q rest _ _ ih =>
      rcases List.mem_cons.mp hp with rfl | hp
      · exact .inr (mem_sweep_of_mem (SymbolSet.mem_insert.mpr (.inl rfl)))
      · exact ih hp
  | case4 settled q rest _ _ _ ih =>
      rcases List.mem_cons.mp hp with rfl | hp
      · exact .inl List.mem_cons_self
      · exact (ih hp).imp_left (List.mem_cons_of_mem q)

/-- A sweep over rules of the list settles productive symbols only. -/
theorem productive_of_mem_sweep (hsettled : ∀ s ∈ settled, Productive P s)
    (hpending : ∀ p ∈ pending, p ∈ P) : ∀ s ∈ (sweep settled pending).1, Productive P s := by
  fun_induction sweep settled pending with
  | case1 => exact hsettled
  | case2 settled q rest _ ih =>
      exact ih hsettled fun p hp => hpending p (List.mem_cons_of_mem q hp)
  | case3 settled q rest _ hbody ih =>
      refine ih (fun s hs => ?_) fun p hp => hpending p (List.mem_cons_of_mem q hp)
      rcases SymbolSet.mem_insert.mp hs with rfl | hs
      · exact productive_of_mem (hpending q List.mem_cons_self) fun x hx =>
          hsettled x (all_contains_iff.mp hbody x hx)
      · exact hsettled s hs
  | case4 settled q rest _ _ _ ih =>
      exact ih hsettled fun p hp => hpending p (List.mem_cons_of_mem q hp)

/-- The rule waits for a symbol of its body, and its left-hand side is not settled either. -/
def Blocked (settled : SymbolSet) (p : Production) : Prop :=
  p.lhs ∉ settled ∧ ∃ x ∈ p.rhs, x ∉ settled

theorem Blocked.of_insert {x : Symbol} (h : Blocked (settled.insert x) p) : Blocked settled p := by
  obtain ⟨hlhs, y, hy, hnot⟩ := h
  exact ⟨fun hmem => hlhs (SymbolSet.mem_insert.mpr (.inr hmem)), y, hy,
    fun hmem => hnot (SymbolSet.mem_insert.mpr (.inr hmem))⟩

/-- What a sweep leaves was blocked when the sweep began. -/
theorem blocked_of_mem_sweep (h : p ∈ (sweep settled pending).2) : Blocked settled p := by
  fun_induction sweep settled pending with
  | case1 => exact absurd h List.not_mem_nil
  | case2 _ _ _ _ ih => exact ih h
  | case3 _ _ _ _ _ ih => exact (ih h).of_insert
  | case4 settled q rest hlhs hbody behind ih =>
      rcases List.mem_cons.mp h with rfl | h
      · rw [all_contains_iff] at hbody
        rw [Std.ExtTreeSet.contains_iff_mem] at hlhs
        exact ⟨hlhs, by simpa only [Classical.not_forall, exists_prop] using hbody⟩
      · exact ih h

/-- A sweep that drops no rule has settled nothing, since all the rules are blocked. -/
theorem sweep_of_length_le (h : pending.length ≤ (sweep settled pending).2.length) :
    (sweep settled pending).2 = pending ∧ ∀ p ∈ pending, Blocked settled p := by
  have hsame : (sweep settled pending).2 = pending :=
    (sweep_sublist settled pending).eq_of_length_le h
  refine ⟨hsame, fun p hp => ?_⟩
  rw [← hsame] at hp
  exact blocked_of_mem_sweep hp

/-! ## all sweeps -/

/-- What holds before every sweep over the productions `P`. -/
structure Sweeping (P : List Production) (settled : SymbolSet) (pending : List Production) :
    Prop where
  productive : ∀ s ∈ settled, Productive P s
  /-- The symbols without a rule are settled from the start. -/
  mem_of_ruleless : ∀ p ∈ P, ∀ x ∈ p.rhs, Ruleless P x → x ∈ settled
  mem_of_pending : ∀ p ∈ pending, p ∈ P
  pending_or_settled : ∀ p ∈ P, p ∈ pending ∨ p.lhs ∈ settled

theorem Sweeping.sweep (h : Sweeping P settled pending) :
    Sweeping P (sweep settled pending).1 (sweep settled pending).2 where
  productive := productive_of_mem_sweep h.productive h.mem_of_pending
  mem_of_ruleless p hp x hx hruleless := mem_sweep_of_mem (h.mem_of_ruleless p hp x hx hruleless)
  mem_of_pending p hp := h.mem_of_pending p ((sweep_sublist settled pending).subset hp)
  pending_or_settled p hp := by
    cases h.pending_or_settled p hp with
    | inl hpending => exact mem_sweep_or_settled hpending
    | inr hsettled => exact .inr (mem_sweep_of_mem hsettled)

/-- Where every pending rule is blocked, no pending left-hand side is productive. -/
theorem Sweeping.not_productive (h : Sweeping P settled pending)
    (hblocked : ∀ p ∈ pending, Blocked settled p) (hp : p ∈ pending) : ¬ Productive P p.lhs := by
  intro hproductive
  have settled_or_ruleless : p.lhs ∈ settled ∨ Ruleless P p.lhs := by
    refine hproductive.of_closed (N := fun s => s ∈ settled ∨ Ruleless P s)
      (fun t ht => .inr ht) fun q hq hbody => .inl ?_
    have hbody : ∀ x ∈ q.rhs, x ∈ settled := fun x hx =>
      (hbody x hx).elim id (h.mem_of_ruleless q hq x hx)
    refine (h.pending_or_settled q hq).resolve_left fun hq' => ?_
    obtain ⟨x, hx, hx'⟩ := (hblocked q hq').2
    exact hx' (hbody x hx)
  cases settled_or_ruleless with
  | inl hsettled => exact (hblocked p hp).1 hsettled
  | inr hruleless => exact hruleless p (h.mem_of_pending p hp) rfl

/-- The left-hand sides that stay stuck are those that are not productive. -/
theorem Sweeping.mem_stuck_settle (h : Sweeping P settled pending) :
    s ∈ (settle settled pending).stuck ↔ (∃ p ∈ P, p.lhs = s) ∧ ¬ Productive P s := by
  -- the sweeps end because nothing is pending (case1) or because nothing was dropped (case3)
  fun_induction settle settled pending with
  | case1 settled pending hempty =>
      rw [List.isEmpty_iff] at hempty
      subst hempty
      simp only [Std.ExtTreeSet.not_mem_empty, false_iff]
      rintro ⟨⟨p, hp, rfl⟩, hnot⟩
      exact hnot (h.productive p.lhs
        ((h.pending_or_settled p hp).resolve_left List.not_mem_nil))
  | case2 settled pending _ swept _ later ih => exact ih h.sweep
  | case3 settled pending _ swept hprogress =>
      obtain ⟨hsame, hblocked⟩ := sweep_of_length_le (Nat.le_of_not_lt hprogress)
      rw [SymbolSet.mem_ofList, hsame, List.mem_map]
      constructor
      · rintro ⟨p, hp, rfl⟩
        exact ⟨⟨p, h.mem_of_pending p hp, rfl⟩, h.not_productive hblocked hp⟩
      · rintro ⟨⟨p, hp, rfl⟩, hnot⟩
        exact ⟨p, (h.pending_or_settled p hp).resolve_right
          (mt (h.productive p.lhs) hnot), rfl⟩

/-! ## the check -/

namespace Grammar

variable {ο : Type} {g : Grammar ο}

/-- The sweeps start from the terminals, with all rules pending. -/
theorem Coherent.sweeping (h : g.Coherent) :
    Sweeping g.productions g.apparentTerminals g.productions where
  productive s hs := by
    obtain ⟨-, hterminal⟩ := mem_apparentTerminals.mp hs
    refine Ruleless.productive fun p hp heq => ?_
    rw [(h.isNonterminal_iff s).mpr ⟨p, hp, heq⟩] at hterminal
    contradiction
  mem_of_ruleless p hp x hx hruleless := by
    refine mem_apparentTerminals.mpr ⟨(h.mem_symbols x).mpr ⟨p, hp, .inr hx⟩, ?_⟩
    rw [← Bool.not_eq_true, h.isNonterminal_iff]
    rintro ⟨q, hq, heq⟩
    exact hruleless q hq heq
  mem_of_pending _ hp := hp
  pending_or_settled _ hp := .inl hp

theorem Coherent.mem_stuck (h : g.Coherent) (s : Symbol) :
    s ∈ g.settling.stuck ↔ s ∈ g.nonterminals ∧ ¬ Productive g.productions s := by
  rw [settling, h.sweeping.mem_stuck_settle, mem_nonterminals, h.isNonterminal_iff]

/-- **The check finds the unproductive non-terminals**: it passes if and only if every
non-terminal derives a finite sequence of symbols without a rule, and otherwise names
exactly the non-terminals that derive none. -/
theorem checkWellFounded_verdict (history : List (Declaration ο)) :
    ((replay history).checkWellFounded.value = .ok () ↔
        ∀ s ∈ (replay history).nonterminals, Productive (replay history).productions s) ∧
      ((replay history).checkWellFounded.value = .ok () ∨
        ∃ stuck, (replay history).checkWellFounded.value = .error (.illFounded stuck) ∧
          ∀ s, s ∈ stuck ↔
            s ∈ (replay history).nonterminals ∧ ¬ Productive (replay history).productions s) := by
  obtain ⟨hok, herror⟩ := Check.blame_verdict .illFounded
    (coherent_replay history).mem_stuck
  refine ⟨hok.trans ?_, herror⟩
  simp only [not_and, Classical.not_not]

end Grammar

end LRGrammar
