import LRGrammar.First.Scan
import LRGrammar.Proofs.Leading

/-!
# LRGrammar.Proofs.First.Scan

The scan of the rules finds the nullable symbols and the relation of beginning,
in whatever order it comes to the items.  Two things hold before every step: what
is recorded is true (`Scan.Sound`), and every rule was read up to some position,
where it goes on, waits for a symbol that is not nullable, or has ended
(`Scan.Advancing`).

* `Scan.mem_nullable_run`, `Scan.mem_direct_run` — what the finished scan knows.
-/

namespace LRGrammar

/-- What holds of a prefix and of the symbol behind it holds of the prefix grown by one. -/
theorem forall_mem_take_succ {α : Type} {N : α → Prop} {xs : List α} {k : Nat} {x : α}
    (hx : xs[k]? = some x) (hread : ∀ y ∈ xs.take k, N y) (hN : N x) :
    ∀ y ∈ xs.take (k + 1), N y := by
  intro y hy
  rw [List.take_add_one, hx, Option.toList_some, List.mem_append, List.mem_singleton] at hy
  cases hy with
  | inl hy => exact hread y hy
  | inr hy => rw [hy]; exact hN

/-- The item of a rule read up to the position `k`. -/
def Item.reading (id : RuleId) (p : Production) (k : Nat) : Item := ⟨id, p.lhs, k, p.rhs.drop k⟩

/-- An item with nothing left has read the whole body. -/
theorem Item.rest_reading_eq_nil_iff {id : RuleId} {p : Production} {k : Nat} :
    (Item.reading id p k).rest = [] ↔ p.rhs.length ≤ k := List.drop_eq_nil_iff

/-- The next symbol of an item is that at its position. -/
theorem Item.getElem?_of_rest_reading {id : RuleId} {p : Production} {k : Nat} {x : Symbol}
    {rest : List Symbol} (h : (Item.reading id p k).rest = x :: rest) :
    p.rhs[k]? = some x ∧ rest = p.rhs.drop (k + 1) := by
  have hdrop : p.rhs.drop k = x :: rest := h
  constructor
  · rw [← List.head?_drop, hdrop, List.head?_cons]
  · rw [← List.tail_drop, hdrop, List.tail_cons]

namespace Scan

variable {P : List Production} {symbols : SymbolSet} {s t : Scan}

/-! ## steps -/

/-- Take the first pending item away. -/
def withPending (s : Scan) (pending : List Item) : Scan := { s with pending := pending }

/-- A step ends a rule that is read to its end, or reads the next symbol of a rule. -/
theorem step_cases (h : s.step = some t) : ∃ item others, s.pending = item :: others ∧
    ((item.rest = [] ∧ t = (s.withPending others).complete item.lhs) ∨
      ∃ x rest, item.rest = x :: rest ∧
        t = (s.withPending others).read x
          { item with position := item.position + 1, rest := rest }) := by
  unfold step at h
  split at h
  · simp at h
  · next item others hp =>
      obtain rfl := Option.some.inj h
      refine ⟨item, others, hp, ?_⟩
      cases hr : item.rest with
      | nil => exact .inl ⟨rfl, rfl⟩
      | cons x rest => exact .inr ⟨x, rest, rfl, rfl⟩

/-- The scan ends when nothing is pending. -/
theorem step_eq_none_iff : s.step = none ↔ s.pending = [] := by
  unfold step
  split <;> simp_all

/-! ## what a step does to the parts of the state -/

/-- What waited for the symbol goes on, next to what was pending. -/
theorem mem_pending_complete {lhs : Symbol} {item : Item} :
    item ∈ (s.complete lhs).pending ↔ (lhs, item) ∈ s.parked ∨ item ∈ s.pending := by
  simp only [complete, waiting, List.mem_append, List.mem_map, List.mem_filter,
    decide_eq_true_eq]
  constructor
  · rintro (⟨⟨x, i⟩, ⟨hmem, rfl⟩, rfl⟩ | hp)
    · exact .inl hmem
    · exact .inr hp
  · rintro (hmem | hp)
    · exact .inl ⟨(lhs, item), ⟨hmem, rfl⟩, rfl⟩
    · exact .inr hp

/-- What waits for another symbol goes on waiting. -/
theorem mem_parked_complete {lhs x : Symbol} {item : Item} :
    (x, item) ∈ (s.complete lhs).parked ↔ (x, item) ∈ s.parked ∧ x ≠ lhs := by
  simp [complete, othersParked]

theorem mem_nullable_complete {lhs x : Symbol} :
    x ∈ (s.complete lhs).nullable ↔ x = lhs ∨ x ∈ s.nullable := SymbolSet.mem_insert

/-- The item goes on if the symbol that it has read is nullable. -/
theorem mem_pending_read {x : Symbol} {item i : Item} :
    i ∈ (s.read x item).pending ↔ (i = item ∧ x ∈ s.nullable) ∨ i ∈ s.pending := by
  unfold read
  by_cases h : x ∈ s.nullable <;> simp [h]

/-- The item waits if the symbol that it has read is not nullable. -/
theorem mem_parked_read {x y : Symbol} {item i : Item} :
    (y, i) ∈ (s.read x item).parked ↔
      (y = x ∧ i = item ∧ x ∉ s.nullable) ∨ (y, i) ∈ s.parked := by
  unfold read
  by_cases h : x ∈ s.nullable <;> simp [h]

/-- Reading a symbol adds it to what the left-hand side can begin with, and to nothing else. -/
theorem getElem?_direct_read {x a : Symbol} {item : Item} :
    (s.read x item).direct[a]? =
      if a = item.lhs then s.direct[a]?.map (·.insert x) else s.direct[a]? := by
  rw [read, Std.ExtTreeMap.getElem?_modify]
  by_cases h : a = item.lhs
  · subst h; simp
  · simp [h, Ne.symm h]

/-! ## what is recorded is true -/

/-- Every item reads a rule of the list, and what it has read can vanish, but for
the symbol that it waits for; the nullable symbols derive the empty sequence, and
the recorded beginnings are beginnings. -/
structure Sound (P : List Production) (symbols : SymbolSet) (s : Scan) : Prop where
  pending : ∀ item ∈ s.pending, ∃ id p k, item = .reading id p k ∧ P[id]? = some p ∧
    k ≤ p.rhs.length ∧ ∀ y ∈ p.rhs.take k, y ∈ s.nullable
  parked : ∀ x item, (x, item) ∈ s.parked → ∃ id p k, item = .reading id p (k + 1) ∧
    P[id]? = some p ∧ p.rhs[k]? = some x ∧ x ∉ s.nullable ∧ ∀ y ∈ p.rhs.take k, y ∈ s.nullable
  nullable : ∀ x ∈ s.nullable, DerivesEmpty P x
  mem_direct : ∀ a, a ∈ s.direct ↔ a ∈ symbols
  direct : ∀ a set, s.direct[a]? = some set → a ∈ set ∧ ∀ x ∈ set, x = a ∨ Begins P a x

/-- Every item of the first state has read nothing. -/
theorem mem_pending_start {P : List Production} {symbols : SymbolSet} {item : Item} :
    item ∈ (start symbols P).pending ↔ ∃ id p, P[id]? = some p ∧ item = .reading id p 0 := by
  simp only [start, List.mem_reverse, List.mem_map, Prod.exists,
    List.mem_zipIdx_iff_getElem?, Item.start, Item.reading, List.drop_zero]
  constructor
  · rintro ⟨p, id, hp, rfl⟩
    exact ⟨id, p, hp, rfl⟩
  · rintro ⟨id, p, hp, rfl⟩
    exact ⟨p, id, hp, rfl⟩

theorem getElem?_direct_start {P : List Production} {symbols : SymbolSet} {a : Symbol} :
    (start symbols P).direct[a]? = if a ∈ symbols then some (.ofList [a]) else none := by
  rw [start, SymbolMap.getElem?_fill]
  simp [Std.ExtTreeSet.mem_toList]

/-- At first nothing is read, nothing waits, and each symbol begins with itself. -/
theorem sound_start (P : List Production) (symbols : SymbolSet) :
    (start symbols P).Sound P symbols where
  pending item h := by
    obtain ⟨id, p, hp, rfl⟩ := mem_pending_start.mp h
    exact ⟨id, p, 0, rfl, hp, Nat.zero_le _, by simp⟩
  parked x item h := absurd h List.not_mem_nil
  nullable x h := absurd h Std.ExtTreeSet.not_mem_empty
  mem_direct a := by
    rw [Std.ExtTreeMap.mem_iff_isSome_getElem?, getElem?_direct_start]
    split <;> simp_all
  direct a set h := by
    rw [getElem?_direct_start] at h
    split at h
    · obtain rfl := Option.some.inj h
      simp
    · simp at h

/-- A rule that is read to its end past nullable symbols makes its left-hand side vanish. -/
theorem Sound.derivesEmpty_lhs (h : s.Sound P symbols) {id : RuleId} {p : Production} {k : Nat}
    (hp : P[id]? = some p) (hread : ∀ y ∈ p.rhs.take k, y ∈ s.nullable)
    (hend : (Item.reading id p k).rest = []) : DerivesEmpty P p.lhs := by
  have hall : p.rhs.take k = p.rhs := List.take_of_length_le (Item.rest_reading_eq_nil_iff.mp hend)
  rw [hall] at hread
  exact derivesEmpty_of_mem (List.mem_of_getElem? hp) fun y hy => h.nullable y (hread y hy)

/-- The end of a rule lets the items go on that wait for its left-hand side. -/
theorem Sound.complete (h : s.Sound P symbols) {lhs : Symbol} {others : List Item}
    (hothers : ∀ item ∈ others, item ∈ s.pending) (hlhs : DerivesEmpty P lhs) :
    ((s.withPending others).complete lhs).Sound P symbols := by
  have grown : ∀ y ∈ s.nullable, y ∈ ((s.withPending others).complete lhs).nullable :=
    fun y hy => mem_nullable_complete.mpr (.inr hy)
  constructor
  case pending =>
    intro item hi
    cases mem_pending_complete.mp hi with
    | inl released =>
        -- a released item stands behind `lhs`, and now all that it has read can vanish
        obtain ⟨id, p, k, rfl, hp, hx, -, hread⟩ := h.parked lhs item released
        have hread' := forall_mem_take_succ hx (fun y hy => grown y (hread y hy))
          (mem_nullable_complete.mpr (.inl rfl))
        exact ⟨id, p, k + 1, rfl, hp, (List.getElem?_eq_some_iff.mp hx).1, hread'⟩
    | inr hi =>
        obtain ⟨id, p, k, hitem, hp, hk, hread⟩ := h.pending item (hothers item hi)
        exact ⟨id, p, k, hitem, hp, hk, fun y hy => grown y (hread y hy)⟩
  case parked =>
    intro x item hi
    obtain ⟨hi, hx⟩ := mem_parked_complete.mp hi
    obtain ⟨id, p, k, hitem, hp, hrhs, hnot, hread⟩ := h.parked x item hi
    have hnot' : x ∉ ((s.withPending others).complete lhs).nullable :=
      fun hmem => (mem_nullable_complete.mp hmem).elim hx hnot
    exact ⟨id, p, k, hitem, hp, hrhs, hnot', fun y hy => grown y (hread y hy)⟩
  case nullable =>
    intro x hx
    cases mem_nullable_complete.mp hx with
    | inl hx => rw [hx]; exact hlhs
    | inr hx => exact h.nullable x hx
  case mem_direct => exact h.mem_direct
  case direct => exact h.direct

/-- The symbol that is read stands after symbols that can all vanish. -/
theorem Sound.read (h : s.Sound P symbols) {id : RuleId} {p : Production} {k : Nat} {x : Symbol}
    {rest : List Symbol} {others : List Item} (hothers : ∀ item ∈ others, item ∈ s.pending)
    (hp : P[id]? = some p) (hread : ∀ y ∈ p.rhs.take k, y ∈ s.nullable)
    (hrest : (Item.reading id p k).rest = x :: rest) :
    ((s.withPending others).read x (.reading id p (k + 1))).Sound P symbols := by
  have hx : p.rhs[k]? = some x := (Item.getElem?_of_rest_reading hrest).1
  have begins : Begins P p.lhs x := by
    have hsplit : p.rhs = p.rhs.take k ++ x :: rest := by
      rw [← hrest]
      exact (List.take_append_drop k p.rhs).symm
    exact ⟨p, List.mem_of_getElem? hp, _, _, rfl, hsplit, fun y hy => h.nullable y (hread y hy)⟩
  constructor
  case pending =>
    intro item hi
    cases mem_pending_read.mp hi with
    | inl hi =>
        obtain ⟨hitem, hnull⟩ := hi
        have hread' := forall_mem_take_succ hx hread hnull
        exact ⟨id, p, k + 1, hitem, hp, (List.getElem?_eq_some_iff.mp hx).1, hread'⟩
    | inr hi => exact h.pending item (hothers item hi)
  case parked =>
    intro y item hi
    cases mem_parked_read.mp hi with
    | inl hi =>
        obtain ⟨rfl, hitem, hnot⟩ := hi
        exact ⟨id, p, k, hitem, hp, hx, hnot, hread⟩
    | inr hi => exact h.parked y item hi
  case nullable => exact h.nullable
  case mem_direct =>
    intro a
    rw [← h.mem_direct]
    exact Std.ExtTreeMap.mem_modify
  case direct =>
    intro a set hset
    rw [getElem?_direct_read] at hset
    split at hset
    · next ha =>
      obtain ⟨old, hold, rfl⟩ := Option.map_eq_some_iff.mp hset
      obtain ⟨hself, hsound⟩ := h.direct a old hold
      constructor
      · exact SymbolSet.mem_insert.mpr (.inr hself)
      · intro y hy
        cases SymbolSet.mem_insert.mp hy with
        | inl hy => rw [hy, ha]; exact .inr begins
        | inr hy => exact hsound y hy
    · exact h.direct a set hset

/-- A step records nothing that does not hold. -/
theorem Sound.step (h : s.Sound P symbols) (hstep : s.step = some t) : t.Sound P symbols := by
  obtain ⟨item, others, hpending, hcase⟩ := step_cases hstep
  have hothers : ∀ i ∈ others, i ∈ s.pending := by
    intro i hi
    rw [hpending]
    exact List.mem_cons_of_mem _ hi
  have hitem : item ∈ s.pending := by
    rw [hpending]
    exact List.mem_cons_self
  obtain ⟨id, p, k, rfl, hp, hk, hread⟩ := h.pending item hitem
  cases hcase with
  | inl hend =>
      obtain ⟨hend, rfl⟩ := hend
      exact h.complete hothers (h.derivesEmpty_lhs hp hread hend)
  | inr hnext =>
      obtain ⟨x, rest, hrest, rfl⟩ := hnext
      rw [(Item.getElem?_of_rest_reading hrest).2]
      exact h.read hothers hp hread hrest

/-! ## every rule is read as far as it can be -/

/-- The rule was read up to the position `k`, where it goes on, waits, or has ended. -/
def StandsAt (s : Scan) (id : RuleId) (p : Production) (k : Nat) : Prop :=
  .reading id p k ∈ s.pending ∨ (∃ x, (x, .reading id p k) ∈ s.parked) ∨
    (p.rhs.length ≤ k ∧ p.lhs ∈ s.nullable)

/-- Every rule stands at some position, and its left-hand side begins with all that
was read before that position. -/
def Advancing (P : List Production) (s : Scan) : Prop :=
  ∀ id p, P[id]? = some p → ∃ k, s.StandsAt id p k ∧
    ∀ set, s.direct[p.lhs]? = some set → ∀ x ∈ p.rhs.take k, x ∈ set

/-- At first every rule has an item at its beginning. -/
theorem advancing_start (P : List Production) (symbols : SymbolSet) :
    (start symbols P).Advancing P := by
  intro id p hp
  have hstands : (start symbols P).StandsAt id p 0 := .inl (mem_pending_start.mpr ⟨id, p, hp, rfl⟩)
  exact ⟨0, hstands, by simp⟩

/-- A rule that ends stands at its end, and those that wait for its left-hand side go on. -/
theorem StandsAt.complete {id id' : RuleId} {p q : Production} {k j : Nat} {others : List Item}
    (h : s.StandsAt id' q j) (hpending : s.pending = .reading id p k :: others)
    (hend : (Item.reading id p k).rest = []) :
    ((s.withPending others).complete p.lhs).StandsAt id' q j := by
  cases h with
  | inl hpend =>
      rw [hpending, List.mem_cons] at hpend
      cases hpend with
      | inl heq =>
          have hlhs : q.lhs = p.lhs := congrArg Item.lhs heq
          have hrest : (Item.reading id' q j).rest = [] := by rw [heq]; exact hend
          refine .inr (.inr ⟨Item.rest_reading_eq_nil_iff.mp hrest, ?_⟩)
          rw [hlhs]
          exact mem_nullable_complete.mpr (.inl rfl)
      | inr hothers => exact .inl (mem_pending_complete.mpr (.inr hothers))
  | inr h =>
      cases h with
      | inl hparked =>
          obtain ⟨x, hx⟩ := hparked
          by_cases hlhs : x = p.lhs
          · rw [hlhs] at hx
            exact .inl (mem_pending_complete.mpr (.inl hx))
          · exact .inr (.inl ⟨x, mem_parked_complete.mpr ⟨hx, hlhs⟩⟩)
      | inr hended =>
          obtain ⟨hlength, hnull⟩ := hended
          exact .inr (.inr ⟨hlength, mem_nullable_complete.mpr (.inr hnull)⟩)

/-- Reading a symbol moves the item that reads it, and no other. -/
theorem StandsAt.read {id id' : RuleId} {p q : Production} {k j : Nat} {x : Symbol}
    {others : List Item} (h : s.StandsAt id' q j)
    (hpending : s.pending = .reading id p k :: others) :
    (id' = id ∧ j = k ∧
        ((s.withPending others).read x (.reading id p (k + 1))).StandsAt id p (k + 1)) ∨
      ((s.withPending others).read x (.reading id p (k + 1))).StandsAt id' q j := by
  cases h with
  | inl hpend =>
      rw [hpending, List.mem_cons] at hpend
      cases hpend with
      | inl heq =>
          refine .inl ⟨congrArg Item.rule heq, congrArg Item.position heq, ?_⟩
          by_cases hx : x ∈ s.nullable
          · exact .inl (mem_pending_read.mpr (.inl ⟨rfl, hx⟩))
          · exact .inr (.inl ⟨x, mem_parked_read.mpr (.inl ⟨rfl, rfl, hx⟩)⟩)
      | inr hothers => exact .inr (.inl (mem_pending_read.mpr (.inr hothers)))
  | inr h =>
      cases h with
      | inl hparked =>
          obtain ⟨y, hy⟩ := hparked
          exact .inr (.inr (.inl ⟨y, mem_parked_read.mpr (.inr hy)⟩))
      | inr hended => exact .inr (.inr (.inr hended))

/-- What a symbol was known to begin with, it still is. -/
theorem mem_direct_read {x a b : Symbol} {item : Item} {set : SymbolSet}
    (h : (s.read x item).direct[a]? = some set)
    (hold : ∀ old, s.direct[a]? = some old → b ∈ old) : b ∈ set := by
  rw [getElem?_direct_read] at h
  split at h
  · obtain ⟨old, hget, rfl⟩ := Option.map_eq_some_iff.mp h
    exact SymbolSet.mem_insert.mpr (.inr (hold old hget))
  · exact hold set h

theorem mem_direct_read_self {x : Symbol} {item : Item} {set : SymbolSet}
    (h : (s.read x item).direct[item.lhs]? = some set) : x ∈ set := by
  rw [getElem?_direct_read, if_pos rfl] at h
  obtain ⟨old, -, rfl⟩ := Option.map_eq_some_iff.mp h
  exact SymbolSet.mem_insert.mpr (.inl rfl)

/-- A step takes one rule further and leaves every other one where it stands. -/
theorem Advancing.step (h : s.Advancing P) (hsound : s.Sound P symbols)
    (hstep : s.step = some t) : t.Advancing P := by
  obtain ⟨item, others, hpending, hcase⟩ := step_cases hstep
  have hitem : item ∈ s.pending := by
    rw [hpending]
    exact List.mem_cons_self
  obtain ⟨id, p, k, rfl, hp, hk, hread⟩ := hsound.pending item hitem
  -- the position of every rule but the one read stays what it was
  intro id' q hq
  obtain ⟨j, hstands, hbegun⟩ := h id' q hq
  cases hcase with
  | inl hend =>
      obtain ⟨hend, rfl⟩ := hend
      exact ⟨j, hstands.complete hpending hend, hbegun⟩
  | inr hnext =>
      obtain ⟨x, rest, hrest, rfl⟩ := hnext
      obtain ⟨hx, rfl⟩ := Item.getElem?_of_rest_reading hrest
      have kept : ∀ set,
          ((s.withPending others).read x (.reading id p (k + 1))).direct[q.lhs]? = some set →
            ∀ y ∈ q.rhs.take j, y ∈ set :=
        fun set hset y hy => mem_direct_read hset fun old hold => hbegun old hold y hy
      cases hstands.read (x := x) hpending with
      | inl hmoved =>
          obtain ⟨rfl, rfl, hmoved⟩ := hmoved
          obtain rfl : p = q := Option.some.inj (hp.symm.trans hq)
          exact ⟨j + 1, hmoved, fun set hset =>
            forall_mem_take_succ hx (kept set hset) (mem_direct_read_self hset)⟩
      | inr hother => exact ⟨j, hother, kept⟩

/-! ## the finished scan -/

/-- Where nothing is pending, a rule has ended or waits for a symbol that is not nullable. -/
theorem StandsAt.blocked {id : RuleId} {p : Production} {k : Nat} (h : s.StandsAt id p k)
    (hsound : s.Sound P symbols) (hpending : s.pending = []) (hp : P[id]? = some p) :
    (p.rhs.length ≤ k ∧ p.lhs ∈ s.nullable) ∨
      ∃ j x, k = j + 1 ∧ p.rhs[j]? = some x ∧ x ∉ s.nullable := by
  cases h with
  | inl hpend =>
      rw [hpending] at hpend
      exact absurd hpend List.not_mem_nil
  | inr h =>
      cases h with
      | inl hparked =>
          obtain ⟨x, hx⟩ := hparked
          -- a parked item stands behind the symbol that it waits for
          obtain ⟨id', q, j, heq, hq, hrhs, hnot, -⟩ := hsound.parked x _ hx
          have hid : id = id' := congrArg Item.rule heq
          have hk : k = j + 1 := congrArg Item.position heq
          rw [← hid, hp] at hq
          obtain rfl := Option.some.inj hq
          exact .inr ⟨j, x, hk, hrhs, hnot⟩
      | inr hended => exact .inl hended

/-- When nothing is pending any more, the nullable symbols are all found. -/
theorem mem_nullable_iff (hsound : s.Sound P symbols) (hadvancing : s.Advancing P)
    (hpending : s.pending = []) {x : Symbol} : x ∈ s.nullable ↔ DerivesEmpty P x := by
  constructor
  · exact hsound.nullable x
  · intro hx
    refine hx.of_closed fun p hp hrhs => ?_
    obtain ⟨id, hid⟩ := List.mem_iff_getElem?.mp hp
    obtain ⟨k, hstands, -⟩ := hadvancing id p hid
    cases hstands.blocked hsound hpending hid with
    | inl hended => exact hended.2
    | inr hblocked =>
        obtain ⟨j, y, -, hy, hnot⟩ := hblocked
        exact absurd (hrhs y (List.mem_of_getElem? hy)) hnot

/-- When nothing is pending any more, what a symbol can begin with is all found. -/
theorem mem_direct_iff (hsound : s.Sound P symbols) (hadvancing : s.Advancing P)
    (hpending : s.pending = []) {a x : Symbol} {set : SymbolSet}
    (hset : s.direct[a]? = some set) : x ∈ set ↔ x = a ∨ Begins P a x := by
  obtain ⟨hself, hbegins⟩ := hsound.direct a set hset
  constructor
  · exact hbegins x
  · intro h
    cases h with
    | inl hx => rw [hx]; exact hself
    | inr h =>
        obtain ⟨p, hp, before, after, rfl, hrhs, hbefore⟩ := h
        obtain ⟨id, hid⟩ := List.mem_iff_getElem?.mp hp
        obtain ⟨k, hstands, hbegun⟩ := hadvancing id p hid
        -- no rule stands still before a symbol with only nullable ones in front
        have hk : before.length < k := by
          cases hstands.blocked hsound hpending hid with
          | inl hended =>
              have hlength := hended.1
              rw [hrhs, List.length_append, List.length_cons] at hlength
              omega
          | inr hblocked =>
              obtain ⟨j, y, rfl, hy, hnot⟩ := hblocked
              refine Nat.lt_of_not_le fun hle => ?_
              rw [hrhs, List.getElem?_append_left hle] at hy
              exact hnot ((mem_nullable_iff hsound hadvancing hpending).mpr
                (hbefore y (List.mem_of_getElem? hy)))
        have hx : (p.rhs.take k)[before.length]? = some x := by
          rw [List.getElem?_take_of_lt hk, hrhs, List.getElem?_append_right (Nat.le_refl _),
            Nat.sub_self, List.getElem?_cons_zero]
        exact hbegun set hset x (List.mem_of_getElem? hx)

/-- The scan ends with nothing pending. -/
theorem pending_run (s : Scan) : (machine.run s).pending = [] :=
  step_eq_none_iff.mp (machine.step_run s)

/-- What holds before every step holds of the finished scan. -/
theorem sound_run (P : List Production) (symbols : SymbolSet) :
    (machine.run (start symbols P)).Sound P symbols ∧
      (machine.run (start symbols P)).Advancing P := by
  have keep : ∀ s t, s.Sound P symbols ∧ s.Advancing P → machine.step s = some t →
      t.Sound P symbols ∧ t.Advancing P :=
    fun s t h hstep => ⟨h.1.step hstep, h.2.step h.1 hstep⟩
  exact machine.run_of_invariant keep ⟨sound_start P symbols, advancing_start P symbols⟩

/-- The scan finds the symbols that derive the empty sequence, all of them and no other. -/
theorem mem_nullable_run {P : List Production} {symbols : SymbolSet} {x : Symbol} :
    x ∈ (machine.run (start symbols P)).nullable ↔ DerivesEmpty P x := by
  obtain ⟨hsound, hadvancing⟩ := sound_run P symbols
  exact mem_nullable_iff hsound hadvancing (pending_run _)

/-- The table has an entry for every symbol of the grammar and no other. -/
theorem mem_keys_run {P : List Production} {symbols : SymbolSet} {a : Symbol} :
    a ∈ (machine.run (start symbols P)).direct ↔ a ∈ symbols :=
  (sound_run P symbols).1.mem_direct a

/-- The scan finds what each symbol can directly begin with, all of it and nothing else. -/
theorem mem_direct_run {P : List Production} {symbols : SymbolSet} {a x : Symbol} :
    x ∈ (machine.run (start symbols P)).direct.getD a ∅ ↔
      a ∈ symbols ∧ (x = a ∨ Begins P a x) := by
  obtain ⟨hsound, hadvancing⟩ := sound_run P symbols
  rw [SymbolMap.mem_getD_empty, ← mem_keys_run (P := P), SymbolMap.mem_iff_getElem?]
  constructor
  · intro ⟨set, hset, hx⟩
    exact ⟨⟨set, hset⟩, (mem_direct_iff hsound hadvancing (pending_run _) hset).mp hx⟩
  · intro ⟨⟨set, hset⟩, hx⟩
    exact ⟨set, hset, (mem_direct_iff hsound hadvancing (pending_run _) hset).mpr hx⟩

end Scan

end LRGrammar
