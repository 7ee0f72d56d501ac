import LRGrammar.Proofs.First.Analysis
import Mathlib.Algebra.GroupWithZero.Nat

/-!
# LRGrammar.Proofs.First.Obligations

The scan comes to each position of each rule once at most.  An *obligation* is a rule with a
position to be read next.  At any time a rule has one item at most, pending or parked: a step
takes the first pending item away, and puts it back one position further on, or not at all
(`Scan.live_of_step`).  So the positions of a rule are processed in rising order, and what
enters the work list is in the end just what is processed (`Scan.entered_perm_processed`).

* `Scan.OneEach.step` — no rule ever has two items;
* `Scan.nodup_processed` — from any such state on, no obligation is processed twice;
* `Scan.mem_processed_of_nullable` — an item goes on as long as it meets nullable symbols;
* `Grammar.obligations_once` — what enters the work list of the scan of a grammar, what is
  processed, and after how many steps the scan ends.
-/

namespace LRGrammar

/-- A rule, with the position to be read next. -/
abbrev Obligation := RuleId × Nat

namespace Item

/-- The obligation that the item stands for. -/
def obligation (item : Item) : Obligation := (item.rule, item.position)

/-- The item one position further on, if that is still in the rule or at its end. -/
def advance (item : Item) : Option Item :=
  match item.rest with
  | [] => none
  | _ :: rest => some { item with position := item.position + 1, rest := rest }

theorem advance_reading {id : RuleId} {p : Production} {k : Nat} (hk : k < p.rhs.length) :
    (Item.reading id p k).advance = some (.reading id p (k + 1)) := by
  have hdrop : p.rhs.drop k = p.rhs[k] :: p.rhs.drop (k + 1) := List.drop_eq_getElem_cons hk
  simp only [advance, reading, hdrop]

theorem of_advance {item next : Item} (h : item.advance = some next) :
    next.rule = item.rule ∧ next.position = item.position + 1 := by
  unfold advance at h
  split at h
  · simp at h
  · obtain rfl := Option.some.inj h
    exact ⟨rfl, rfl⟩

end Item

namespace Scan

variable {P : List Production} {symbols : SymbolSet} {s t : Scan} {o : Obligation}

/-! ## the items of a state -/

/-- The pending and the parked items. -/
def live (s : Scan) : List Item := s.pending ++ s.parked.map (·.2)

/-- Those that wait for a symbol and those that wait for another one are all that wait. -/
theorem waiting_append_othersParked (s : Scan) (x : Symbol) :
    (s.waiting x ++ (s.othersParked x).map (·.2)).Perm (s.parked.map (·.2)) := by
  rw [waiting, othersParked, ← List.map_append]
  have halves := List.filter_append_perm (fun entry : Symbol × Item => entry.1 = x) s.parked
  simp only [← decide_not] at halves
  exact halves.map (·.2)

/-- A step takes the first pending item away, and puts it back one position further on. -/
theorem live_of_step (h : s.step = some t) : ∃ item rest, s.pending.head? = some item ∧
    s.live = item :: rest ∧ t.live.Perm (item.advance.toList ++ rest) := by
  obtain ⟨item, others, hpending, hcase⟩ := step_cases h
  refine ⟨item, others ++ s.parked.map (·.2), by rw [hpending, List.head?_cons],
    by rw [live, hpending, List.cons_append], ?_⟩
  rcases hcase with ⟨hend, rfl⟩ | ⟨x, rest, hrest, rfl⟩
  · -- the end of a rule: what waited is pending now
    have hparked := s.waiting_append_othersParked item.lhs
    have hadvance : item.advance = none := by rw [Item.advance, hend]
    rw [hadvance, Option.toList_none, List.nil_append]
    have hpend : (s.waiting item.lhs ++ others ++ (s.othersParked item.lhs).map (·.2)).Perm
        (others ++ (s.waiting item.lhs ++ (s.othersParked item.lhs).map (·.2))) := by
      rw [← List.append_assoc]
      exact List.perm_append_comm.append_right _
    exact hpend.trans (hparked.append_left others)
  · have hadvance : item.advance =
        some { item with position := item.position + 1, rest := rest } := by
      rw [Item.advance, hrest]
    rw [hadvance, Option.toList_some, List.singleton_append, live, read]
    by_cases hx : s.nullable.contains x
    · rw [show (s.withPending others).nullable = s.nullable from rfl, if_pos hx, if_pos hx]
      exact .refl _
    · rw [show (s.withPending others).nullable = s.nullable from rfl, if_neg hx, if_neg hx]
      exact List.perm_middle

/-- No rule has two items. -/
def OneEach (s : Scan) : Prop := (s.live.map (·.rule)).Nodup

theorem OneEach.rule_ne (h : s.OneEach) {item other : Item} {x : Symbol} (hitem : item ∈ s.pending)
    (hother : (x, other) ∈ s.parked) : item.rule ≠ other.rule := by
  rw [OneEach, live, List.map_append, List.map_map] at h
  exact (List.nodup_append.mp h).2.2 item.rule (List.mem_map.mpr ⟨item, hitem, rfl⟩)
    other.rule (List.mem_map.mpr ⟨(x, other), hother, rfl⟩)

theorem OneEach.step (h : s.OneEach) (hstep : s.step = some t) : t.OneEach := by
  obtain ⟨item, rest, -, hlive, hperm⟩ := live_of_step hstep
  rw [OneEach, hlive, List.map_cons] at h
  refine ((hperm.map (·.rule)).nodup_iff).mpr ?_
  rw [List.map_append]
  cases hadvance : item.advance with
  | none => exact h.of_cons
  | some next =>
      rw [Option.toList_some, List.map_singleton, List.singleton_append,
        (Item.of_advance hadvance).1]
      exact h

theorem oneEach_start (P : List Production) (symbols : SymbolSet) :
    (start symbols P).OneEach := by
  have hrules : (start symbols P).live.map (·.rule) = (List.range' 0 P.length).reverse := by
    rw [← List.zipIdx_map_snd]
    simp only [start, live, List.map_nil, List.append_nil, List.map_reverse, List.map_map]
    rfl
  rw [OneEach, hrules, List.nodup_reverse]
  exact List.nodup_range'

/-! ## the work of a run -/

/-- The obligation that the next step processes: the first on the work list. -/
def processing (s : Scan) : Option Obligation := s.pending.head?.map (·.obligation)

/-- What the next step puts on the work list, above what it leaves there. -/
def entering (s : Scan) : List Item :=
  match s.step with
  | none => []
  | some t => t.pending.take (t.pending.length - s.pending.tail.length)

/-- The obligations that are processed from the state on, one for each step. -/
def processed (s : Scan) : List Obligation := (machine.states s).filterMap processing

/-- The obligations on the work list of the state and those that enter it from there on. -/
def entered (s : Scan) : List Obligation :=
  (s.pending ++ (machine.states s).flatMap entering).map (·.obligation)

/-- A step takes the first item from the work list, and leaves the others there. -/
theorem pending_of_step (h : s.step = some t) : t.pending = s.entering ++ s.pending.tail := by
  obtain ⟨new, hnew⟩ : ∃ new, t.pending = new ++ s.pending.tail := by
    obtain ⟨item, others, hpending, hcase⟩ := step_cases h
    rw [hpending, List.tail_cons]
    rcases hcase with ⟨-, rfl⟩ | ⟨x, rest, -, rfl⟩
    · exact ⟨s.waiting item.lhs, rfl⟩
    · unfold read
      split
      · exact ⟨[_], rfl⟩
      · exact ⟨[], rfl⟩
  have hentering : s.entering = new := by
    simp only [entering, h, hnew, List.length_append, Nat.add_sub_cancel, List.take_left']
  rw [hentering, hnew]

theorem processed_of_none (h : s.step = none) : s.processed = [] := by
  have hidle : s.processing = none := by rw [processing, step_eq_none_iff.mp h]; rfl
  rw [processed, Machine.states_of_none h, List.filterMap_cons_none hidle, List.filterMap_nil]

theorem processed_of_some {item : Item} (h : s.step = some t)
    (hitem : s.pending.head? = some item) : s.processed = item.obligation :: t.processed := by
  have hbusy : s.processing = some item.obligation := by rw [processing, hitem]; rfl
  rw [processed, Machine.states_of_some h, List.filterMap_cons_some hbusy, processed]

/-- What is on the work list or enters it is processed, once for each time. -/
theorem entered_perm_processed (s : Scan) : s.entered.Perm s.processed := by
  unfold entered
  fun_induction machine.states s with
  | case1 s h =>
      have hentering : s.entering = [] := by rw [entering]; split <;> simp_all [machine]
      rw [processed_of_none h, step_eq_none_iff.mp h]
      simp [hentering]
  | case2 s t h ih =>
      obtain ⟨item, others, hpending, -⟩ := step_cases h
      rw [processed_of_some h (by rw [hpending, List.head?_cons])]
      rw [pending_of_step h, hpending, List.tail_cons] at ih
      refine List.Perm.trans ?_ (ih.cons item.obligation)
      rw [hpending, List.flatMap_cons, List.cons_append, List.map_cons]
      refine (List.Perm.map _ ?_).cons _
      rw [← List.append_assoc]
      exact List.perm_append_comm.append_right _

/-- Every step processes one obligation. -/
theorem length_states (s : Scan) : (machine.states s).length = s.processed.length + 1 := by
  fun_induction machine.states s with
  | case1 s h => rw [processed_of_none h]; rfl
  | case2 s t h ih =>
      obtain ⟨item, rest, hitem, -⟩ := live_of_step h
      rw [processed_of_some h hitem, List.length_cons, List.length_cons, ih]

/-- What is processed from a state on comes of an item that is no further there. -/
theorem exists_live_of_mem_processed (h : o ∈ s.processed) :
    ∃ item ∈ s.live, item.rule = o.1 ∧ item.position ≤ o.2 := by
  fun_induction machine.states s with
  | case1 s hstep =>
      rw [processed_of_none hstep] at h
      exact absurd h List.not_mem_nil
  | case2 s t hstep ih =>
      obtain ⟨item, rest, hitem, hlive, hperm⟩ := live_of_step hstep
      rw [processed_of_some hstep hitem, List.mem_cons] at h
      rw [hlive]
      rcases h with rfl | h
      · exact ⟨item, List.mem_cons_self, rfl, Nat.le_refl _⟩
      · obtain ⟨i, hi, hrule, hposition⟩ := ih h
        rcases List.mem_append.mp (hperm.mem_iff.mp hi) with hmoved | hrest
        · obtain ⟨hsame, hnext⟩ := Item.of_advance (Option.mem_toList.mp hmoved)
          exact ⟨item, List.mem_cons_self, hsame ▸ hrule, by omega⟩
        · exact ⟨i, List.mem_cons_of_mem item hrest, hrule, hposition⟩

/-- Where no rule has two items, nothing is processed twice from there on. -/
theorem nodup_processed (h : s.OneEach) : s.processed.Nodup := by
  fun_induction machine.states s with
  | case1 s hstep => rw [processed_of_none hstep]; exact List.nodup_nil
  | case2 s t hstep ih =>
      obtain ⟨item, rest, hitem, hlive, hperm⟩ := live_of_step hstep
      rw [processed_of_some hstep hitem]
      refine List.nodup_cons.mpr ⟨fun hagain => ?_, ih (h.step hstep)⟩
      obtain ⟨i, hi, hrule, hposition⟩ := exists_live_of_mem_processed hagain
      have hrule : i.rule = item.rule := hrule
      have hposition : i.position ≤ item.position := hposition
      rcases List.mem_append.mp (hperm.mem_iff.mp hi) with hmoved | hrest
      · have hnext := (Item.of_advance (Option.mem_toList.mp hmoved)).2
        omega
      · rw [OneEach, hlive, List.map_cons, List.nodup_cons] at h
        exact h.1 (List.mem_map.mpr ⟨i, hrest, hrule⟩)

/-- From a state on, an item is taken past symbols that turn out nullable. -/
theorem mem_processed_of_nullable (hsound : s.Sound P symbols) {id : RuleId} {p : Production}
    {j k : Nat} (hp : P[id]? = some p) (hlive : .reading id p j ∈ s.live) (hjk : j ≤ k)
    (hk : k ≤ p.rhs.length) (hread : ∀ y ∈ p.rhs.take k, y ∈ (machine.run s).nullable) :
    (id, k) ∈ s.processed := by
  fun_induction machine.states s generalizing j with
  | case1 s h =>
      -- the scan has ended, so the item waits for a symbol that is not nullable
      rw [live, step_eq_none_iff.mp h, List.nil_append, List.mem_map] at hlive
      obtain ⟨⟨x, item⟩, hparked, rfl⟩ := hlive
      obtain ⟨id', q, i, heq, hq, hx, hnot, -⟩ := hsound.parked x _ hparked
      have hid : id = id' := congrArg Item.rule heq
      have hj : j = i + 1 := congrArg Item.position heq
      rw [← hid, hp] at hq
      obtain rfl := Option.some.inj hq
      have hi : i < k := by omega
      have hmem : x ∈ p.rhs.take k := List.mem_of_getElem? (i := i) (by
        rw [List.getElem?_take_of_lt hi, hx])
      rw [Machine.run_of_none h] at hread
      exact absurd (hread x hmem) hnot
  | case2 s t h ih =>
      obtain ⟨item, rest, hitem, hlive', hperm⟩ := live_of_step h
      rw [processed_of_some h hitem, List.mem_cons]
      rw [Machine.run_of_some h] at hread
      have go : ∀ i, .reading id p i ∈ item.advance.toList ++ rest → i ≤ k →
          (id, k) ∈ t.processed :=
        fun i hi hik => ih (hsound.step h) (hperm.mem_iff.mpr hi) hik hread
      rw [hlive', List.mem_cons] at hlive
      rcases hlive with rfl | hrest
      · rcases Nat.eq_or_lt_of_le hjk with rfl | hlt
        · exact .inl rfl
        · have hmoved : .reading id p (j + 1) ∈ (Item.reading id p j).advance.toList ++ rest := by
            rw [Item.advance_reading (Nat.lt_of_lt_of_le hlt hk)]
            exact List.mem_append_left _ List.mem_cons_self
          exact .inr (go (j + 1) hmoved hlt)
      · exact .inr (go j (List.mem_append_right _ hrest) hjk)

/-! ## the run from the first state -/

theorem sound_states (P : List Production) (symbols : SymbolSet) :
    ∀ s ∈ machine.states (start symbols P), s.Sound P symbols :=
  machine.states_of_invariant (fun _ _ hs hstep => hs.step hstep) (sound_start P symbols)

/-- What is processed is a position of a rule, behind symbols that can all vanish. -/
theorem mem_processed_start_iff {id : RuleId} {k : Nat} :
    (id, k) ∈ (start symbols P).processed ↔
      ∃ p, P[id]? = some p ∧ k ≤ p.rhs.length ∧ ∀ y ∈ p.rhs.take k, DerivesEmpty P y := by
  constructor
  · intro h
    obtain ⟨s, hs, hprocessing⟩ := List.mem_filterMap.mp h
    obtain ⟨item, hitem, hobligation⟩ := Option.map_eq_some_iff.mp hprocessing
    have hsound := sound_states P symbols s hs
    obtain ⟨id', p, k', rfl, hp, hk, hread⟩ := hsound.pending item (List.mem_of_head? hitem)
    obtain ⟨rfl, rfl⟩ : id' = id ∧ k' = k := Prod.mk.inj hobligation
    exact ⟨p, hp, hk, fun y hy => hsound.nullable y (hread y hy)⟩
  · rintro ⟨p, hp, hk, hread⟩
    have hlive : .reading id p 0 ∈ (start symbols P).live :=
      List.mem_append_left _ (mem_pending_start.mpr ⟨id, p, hp, rfl⟩)
    exact mem_processed_of_nullable (sound_start P symbols) hp hlive (Nat.zero_le k) hk
      fun y hy => mem_nullable_run.mpr (hread y hy)

/-- The rules have as many positions as symbols in their bodies, and their ends. -/
theorem sum_positions (P : List Production) :
    (P.map fun p => p.rhs.length + 1).sum = (P.flatMap (·.rhs)).length + P.length := by
  induction P with
  | nil => rfl
  | cons p P ih =>
      rw [List.map_cons, List.sum_cons, ih, List.flatMap_cons, List.length_append, List.length_cons]
      omega

/-- At first all positions of all rules are to be read, the ends included. -/
theorem weight_start (P : List Production) (symbols : SymbolSet) :
    (start symbols P).weight = (P.map fun p => p.rhs.length + 1).sum := by
  have hrests : (P.zipIdx.map fun entry => Item.start entry.2 entry.1).flatMap (·.rest) =
      P.flatMap (·.rhs) := by
    rw [List.flatMap_map, ← List.zipIdx_map_fst 0 P, List.flatMap_map, List.zipIdx_map_fst]
    rfl
  have hpending : (start symbols P).pending.Perm
      (P.zipIdx.map fun entry => Item.start entry.2 entry.1) := List.reverse_perm _
  have hsymbols : ((start symbols P).pending.flatMap (·.rest)).length =
      (P.flatMap (·.rhs)).length := by
    rw [← hrests]
    exact (hpending.flatMap_right (·.rest)).length_eq
  have hitems : (start symbols P).pending.length = P.length := by
    rw [start, List.length_reverse, List.length_map, List.length_zipIdx]
  rw [sum_positions, weight, hsymbols, hitems]
  rfl

end Scan

namespace Grammar

variable {ο : Type}

/-- **Every obligation is dealt with once.**  Over the whole scan of a grammar no obligation
enters the work list twice or is processed twice; all of them are positions of rules.
Before every step none is both pending and parked, and what is parked waits for a symbol
that is not nullable so far.  The scan ends, with an empty work list, after as many steps as
obligations are processed, which are no more than all rules have positions, the ends
included; and what was not processed stands behind a symbol that is not nullable. -/
theorem obligations_once (history : List (Declaration ο)) :
    let g := replay history
    let start := Scan.start g.symbols g.productions
    start.entered.Nodup ∧ start.processed.Nodup ∧
      (∀ id k, (id, k) ∈ start.entered → ∃ r, g.rule? id = some r ∧ k ≤ r.rhs.length) ∧
      (∀ s ∈ Scan.machine.states start,
        (∀ item ∈ s.pending, ∀ x other, (x, other) ∈ s.parked →
          item.obligation ≠ other.obligation) ∧
        ∀ x item, (x, item) ∈ s.parked → x ∉ s.nullable) ∧
      (Scan.machine.states start).getLast? = some g.scan ∧ g.scan.pending = [] ∧
      (Scan.machine.states start).length = start.processed.length + 1 ∧
      start.processed.length ≤ (g.rules.map fun r => r.rhs.length + 1).sum ∧
      ∀ id r k, g.rule? id = some r → k ≤ r.rhs.length →
        ((id, k) ∈ start.processed ↔ ∀ y ∈ r.rhs.take k, y ∈ g.firstSets.nullable) := by
  intro g start
  have hlookup : ∀ id, g.productions[id]? = (g.rule? id).map (·.toProduction) :=
    fun id => List.getElem?_map
  have hprocessed := start.nodup_processed (Scan.oneEach_start g.productions g.symbols)
  have hperm := start.entered_perm_processed
  refine ⟨hperm.nodup_iff.mpr hprocessed, hprocessed, fun id k hmem => ?_, fun s hs => ⟨?_, ?_⟩,
    Scan.machine.getLast?_states start, Scan.pending_run start, start.length_states, ?_,
    fun id r k hr hk => ?_⟩
  · obtain ⟨p, hp, hk, -⟩ := Scan.mem_processed_start_iff.mp (hperm.mem_iff.mp hmem)
    rw [hlookup, Option.map_eq_some_iff] at hp
    obtain ⟨r, hr, rfl⟩ := hp
    exact ⟨r, hr, hk⟩
  · intro item hitem x other hother heq
    have hone : s.OneEach := Scan.machine.states_of_invariant (fun _ _ h hstep => h.step hstep)
      (Scan.oneEach_start g.productions g.symbols) s hs
    exact hone.rule_ne hitem hother (congrArg Prod.fst heq)
  · intro x item hparked
    obtain ⟨_, _, _, -, -, -, hnot, -⟩ :=
      (Scan.sound_states g.productions g.symbols s hs).parked x item hparked
    exact hnot
  · have hsteps := Scan.machine.length_states_le start
    have hweight : Scan.machine.weight start = (g.rules.map fun r => r.rhs.length + 1).sum := by
      refine (Scan.weight_start g.productions g.symbols).trans ?_
      rw [productions, List.map_map]
      rfl
    rw [start.length_states, hweight] at hsteps
    exact Nat.le_of_succ_le_succ hsteps
  · have hnullable : ∀ y, y ∈ g.firstSets.nullable ↔ DerivesEmpty g.productions y :=
      fun y => Scan.mem_nullable_run
    refine Scan.mem_processed_start_iff.trans ?_
    simp only [hnullable, hlookup, hr, Option.map_some, Option.some.injEq, exists_eq_left']
    exact and_iff_right hk

end Grammar

end LRGrammar
