import LRGrammar.First.Analysis
import LRGrammar.Proofs.Components
import LRGrammar.Proofs.First.Scan
import LRGrammar.Proofs.History

/-!
# LRGrammar.Proofs.First.Analysis

One pass over the components of the relation of beginning is enough.  When a
component is settled, the table holds two kinds of sets side by side: final ones
for the components before it, and direct beginnings for its own members
(`Settled`).  A path out of the component leaves it by one edge to a settled
symbol, and what the path leads to is in the final set of that symbol.

* `settled_settleAll` — the table after the pass over any number of components;
* `Grammar.mem_firstSets_first` — a symbol without a rule is in the FIRST set of a
  symbol exactly when a sequence derived from the latter begins with it;
* `Grammar.mem_firstSets_nullable` — the nullable symbols are those that derive
  the empty sequence.
-/

namespace LRGrammar

/-! ## leaving a component -/

/-- A path from a completed component stays in it or leaves it by an edge to an
earlier component. -/
theorem Digraph.Completed.exists_exit {α : Type} [DecidableEq α] {g : Digraph α}
    {component : List α} {earlier : List (List α)} {v t : α}
    (h : g.Completed (component :: earlier)) (hv : v ∈ component) (path : g.Reaches v t) :
    t ∈ component ∨
      ∃ u ∈ component, ∃ x ∈ earlier.flatten, g.Edge u x ∧ g.Reaches x t := by
  induction path with
  | refl => exact .inl hv
  | @tail w t _ edge ih =>
      cases ih with
      | inl hw =>
          cases h.2.2.1 w hw t edge with
          | inl ht => exact .inl ht
          | inr ht => exact .inr ⟨w, hw, t, ht, edge, .refl g t⟩
      | inr hexit =>
          obtain ⟨u, hu, x, hx, out, path⟩ := hexit
          exact .inr ⟨u, hu, x, hx, out, path.trans (.of_edge edge)⟩

/-! ## one component -/

variable {isNonterminal : Symbol → Bool} {direct table : SymbolMap SymbolSet}
variable {graph : Digraph Symbol} {component : List Symbol}
variable {earlier components : List (List Symbol)}

theorem mem_sharedFirst {t : Symbol} :
    t ∈ sharedFirst isNonterminal table component ↔ isNonterminal t = false ∧
      ∃ m ∈ component, ∃ x ∈ table.getD m ∅, t ∈ table.getD x ∅ := by
  rw [sharedFirst, SymbolSet.mem_filter, SymbolSet.mem_unions, and_comm, Bool.not_eq_true']
  refine and_congr_right fun _ => ?_
  constructor
  · intro ⟨set, hset, ht⟩
    obtain ⟨m, hm, hset⟩ := List.mem_flatMap.mp hset
    obtain ⟨x, hx, rfl⟩ := List.mem_map.mp hset
    exact ⟨m, hm, x, Std.ExtTreeSet.mem_toList.mp hx, ht⟩
  · intro ⟨m, hm, x, hx, ht⟩
    have hset : table.getD x ∅ ∈ (table.getD m ∅).toList.map fun x => table.getD x ∅ :=
      List.mem_map.mpr ⟨x, Std.ExtTreeSet.mem_toList.mpr hx, rfl⟩
    exact ⟨_, List.mem_flatMap.mpr ⟨m, hm, hset⟩, ht⟩

theorem getD_settleComponent {s : Symbol} :
    (settleComponent isNonterminal table component).getD s ∅ =
      if s ∈ component then sharedFirst isNonterminal table component else table.getD s ∅ := by
  rw [settleComponent, Std.ExtTreeMap.getD_eq_getD_getElem?, SymbolMap.getElem?_fill,
    Std.ExtTreeMap.getD_eq_getD_getElem?]
  split <;> rfl

theorem mem_settleComponent {s : Symbol} :
    s ∈ settleComponent isNonterminal table component ↔ s ∈ component ∨ s ∈ table :=
  SymbolMap.mem_fill

/-- The symbols that are done have the terminals that they reach, the others still
have what they can directly begin with. -/
structure Settled (isNonterminal : Symbol → Bool) (direct : SymbolMap SymbolSet)
    (graph : Digraph Symbol) (done : List Symbol) (table : SymbolMap SymbolSet) : Prop where
  mem_iff : ∀ s, s ∈ table ↔ s ∈ done ∨ s ∈ direct
  settled : ∀ s ∈ done, ∀ t, t ∈ table.getD s ∅ ↔ isNonterminal t = false ∧ graph.Reaches s t
  unsettled : ∀ s, s ∉ done → table.getD s ∅ = direct.getD s ∅

/-- What the members of the next component share is what each of them reaches. -/
theorem Settled.mem_sharedFirst_iff (hlists : graph.Lists direct)
    (h : Settled isNonterminal direct graph earlier.flatten table)
    (hcompleted : graph.Completed (component :: earlier))
    (hself : ∀ m ∈ component, m ∈ direct.getD m ∅)
    (hfresh : ∀ m ∈ component, m ∉ earlier.flatten) {s t : Symbol} (hs : s ∈ component) :
    t ∈ sharedFirst isNonterminal table component ↔
      isNonterminal t = false ∧ graph.Reaches s t := by
  rw [mem_sharedFirst]
  refine and_congr_right fun ht => ?_
  constructor
  · intro ⟨m, hm, x, hx, htable⟩
    rw [h.unsettled m (hfresh m hm), ← hlists.edge_iff] at hx
    have path : graph.Reaches s x := (hcompleted.2.1 s hs m hm).trans (.of_edge hx)
    cases hcompleted.2.2.1 m hm x hx with
    | inl hmember =>
        -- the entry of a member is not final yet: it adds one more edge of the component
        rw [h.unsettled x (hfresh x hmember), ← hlists.edge_iff] at htable
        exact path.trans (.of_edge htable)
    | inr hearlier => exact path.trans ((h.settled x hearlier t).mp htable).2
  · intro path
    cases hcompleted.exists_exit hs path with
    | inl hmember =>
        -- a member without a rule is found as a beginning of itself
        have hdirect : t ∈ table.getD t ∅ := by
          rw [h.unsettled t (hfresh t hmember)]
          exact hself t hmember
        exact ⟨t, hmember, t, hdirect, hdirect⟩
    | inr hexit =>
        obtain ⟨u, hu, x, hx, edge, rest⟩ := hexit
        have hdirect : x ∈ table.getD u ∅ := by
          rw [h.unsettled u (hfresh u hu), ← hlists.edge_iff]
          exact edge
        exact ⟨u, hu, x, hdirect, (h.settled x hx t).mpr ⟨ht, rest⟩⟩

/-- Settling the next component keeps the two kinds of sets apart. -/
theorem Settled.settleComponent (hlists : graph.Lists direct)
    (h : Settled isNonterminal direct graph earlier.flatten table)
    (hcompleted : graph.Completed (component :: earlier))
    (hself : ∀ m ∈ component, m ∈ direct.getD m ∅)
    (hfresh : ∀ m ∈ component, m ∉ earlier.flatten) :
    Settled isNonterminal direct graph (component :: earlier).flatten
      (settleComponent isNonterminal table component) where
  mem_iff s := by
    rw [mem_settleComponent, h.mem_iff, List.flatten_cons, List.mem_append, or_assoc]
  settled s hs t := by
    rw [getD_settleComponent]
    split
    · next hmember => exact h.mem_sharedFirst_iff hlists hcompleted hself hfresh hmember
    · next hother =>
      rw [List.flatten_cons, List.mem_append] at hs
      exact h.settled s (hs.resolve_left hother) t
  unsettled s hs := by
    rw [List.flatten_cons, List.mem_append, not_or] at hs
    rw [getD_settleComponent, if_neg hs.1]
    exact h.unsettled s hs.2

/-! ## all components -/

/-- The table after the pass over components that come after all those they reach. -/
theorem settled_settleAll (isNonterminal : Symbol → Bool) (hlists : graph.Lists direct)
    (hcompleted : graph.Completed components) (hnodup : components.flatten.Nodup)
    (hself : ∀ m ∈ components.flatten, m ∈ direct.getD m ∅) :
    Settled isNonterminal direct graph components.flatten
      (settleAll isNonterminal direct components.reverse) := by
  induction components with
  | nil => exact ⟨fun s => by simp [settleAll], fun s hs => absurd hs List.not_mem_nil,
      fun s _ => rfl⟩
  | cons component earlier ih =>
      rw [List.flatten_cons, List.nodup_append] at hnodup
      obtain ⟨-, hnodup, hapart⟩ := hnodup
      have hsettled := ih hcompleted.2.2.2 hnodup fun m hm =>
        hself m (by rw [List.flatten_cons]; exact List.mem_append_right _ hm)
      rw [List.reverse_cons, settleAll, List.foldl_append]
      refine hsettled.settleComponent hlists hcompleted (fun m hm => hself m ?_)
        fun m hm hearlier => hapart m hm m hearlier rfl
      rw [List.flatten_cons]
      exact List.mem_append_left _ hm

/-- Where every symbol is known to begin with itself, the pass over the components
gives every symbol the terminals that it reaches, and knows no other symbol. -/
theorem settleAll_components (isNonterminal : Symbol → Bool) (hlists : graph.Lists direct)
    (hself : ∀ s ∈ direct, s ∈ direct.getD s ∅)
    (hclosed : ∀ s, ∀ x ∈ direct.getD s ∅, x ∈ direct) :
    (∀ s, s ∈ settleAll isNonterminal direct graph.components ↔ s ∈ direct) ∧
      ∀ s t, t ∈ (settleAll isNonterminal direct graph.components).getD s ∅ ↔
        s ∈ direct ∧ isNonterminal t = false ∧ graph.Reaches s t := by
  have hperm := (List.reverse_perm graph.components).flatten
  have mem_iff : ∀ s, s ∈ graph.components.reverse.flatten ↔ s ∈ direct := by
    intro s
    rw [hperm.mem_iff, Digraph.mem_flatten_components, hlists.mem_nodes]
    constructor
    · intro h
      cases h with
      | inl h => exact h
      | inr h =>
          obtain ⟨key, h⟩ := h
          exact hclosed key s h
    · exact .inl
  have hsettled := settled_settleAll isNonterminal hlists graph.completed_components
    (hperm.nodup_iff.mpr graph.nodup_flatten_components) fun s hs => hself s ((mem_iff s).mp hs)
  rw [List.reverse_reverse] at hsettled
  have hkeys : ∀ s, s ∈ settleAll isNonterminal direct graph.components ↔ s ∈ direct := by
    intro s
    rw [hsettled.mem_iff, mem_iff, or_self]
  refine ⟨hkeys, fun s t => ?_⟩
  by_cases hs : s ∈ direct
  · rw [hsettled.settled s ((mem_iff s).mpr hs), and_iff_right hs]
  · rw [Std.ExtTreeMap.getD_eq_fallback (mt (hkeys s).mp hs)]
    simp [hs]

/-! ## the relation of beginning -/

/-- Paths of direct beginnings are chains of single beginnings. -/
theorem Scan.reaches_direct_iff {P : List Production} {symbols : SymbolSet}
    (hlhs : ∀ p ∈ P, p.lhs ∈ symbols)
    (hlists : graph.Lists (machine.run (start symbols P)).direct) {s t : Symbol} :
    graph.Reaches s t ↔ Relation.ReflTransGen (Begins P) s t := by
  have edge_iff : ∀ a x, graph.Edge a x ↔ a ∈ symbols ∧ (x = a ∨ Begins P a x) := by
    intro a x
    rw [hlists.edge_iff, mem_direct_run]
  constructor
  · intro path
    induction path with
    | refl => exact .refl
    | @tail a x _ edge ih =>
        cases ((edge_iff a x).mp edge).2 with
        | inl hx => rw [hx]; exact ih
        | inr begins => exact ih.tail begins
  · intro path
    induction path with
    | refl => exact .refl _ s
    | @tail a x _ begins ih =>
        have ha : a ∈ symbols := by
          obtain ⟨p, hp, -, -, rfl, -⟩ := begins
          exact hlhs p hp
        exact ih.trans (.of_edge ((edge_iff a x).mpr ⟨ha, .inr begins⟩))

namespace Grammar

variable {ο : Type}

/-! ## the sets of a grammar -/

/-- A symbol is no non-terminal if no rule has it for its left-hand side. -/
theorem Coherent.isNonterminal_eq_false_iff {g : Grammar ο} (h : g.Coherent) {t : Symbol} :
    g.isNonterminal t = false ↔ ∀ r ∈ g.rules, r.lhs ≠ t := by
  rw [← Bool.not_eq_true, h.isNonterminal_iff]
  simp [productions]

/-- In whatever order the relation of beginning is listed, the pass over its
components knows the symbols of the grammar, and for each of them the terminals
that a sequence derived from it can begin with. -/
theorem Coherent.settleAll_scan {g : Grammar ο} (h : g.Coherent)
    (hlists : graph.Lists g.scan.direct) :
    (∀ s, s ∈ settleAll g.isNonterminal g.scan.direct graph.components ↔ s ∈ g.symbols) ∧
      ∀ s t, t ∈ (settleAll g.isNonterminal g.scan.direct graph.components).getD s ∅ ↔
        s ∈ g.symbols ∧ g.isNonterminal t = false ∧
          ∃ tail, Derives g.productions [s] (t :: tail) := by
  have hlhs : ∀ p ∈ g.productions, p.lhs ∈ g.symbols := fun p hp =>
    (h.mem_symbols p.lhs).mpr ⟨p, hp, .inl rfl⟩
  have hkeys : ∀ s, s ∈ g.scan.direct ↔ s ∈ g.symbols := fun s => Scan.mem_keys_run
  have hself : ∀ s ∈ g.scan.direct, s ∈ g.scan.direct.getD s ∅ := fun s hs =>
    Scan.mem_direct_run.mpr ⟨(hkeys s).mp hs, .inl rfl⟩
  have hclosed : ∀ s, ∀ x ∈ g.scan.direct.getD s ∅, x ∈ g.scan.direct := by
    intro s x hx
    obtain ⟨hs, hx⟩ := Scan.mem_direct_run.mp hx
    rw [hkeys]
    cases hx with
    | inl hx => rw [hx]; exact hs
    | inr hx =>
        obtain ⟨p, hp, hmem⟩ := hx.exists_mem_rhs
        exact (h.mem_symbols x).mpr ⟨p, hp, .inr hmem⟩
  obtain ⟨hmem, hfirst⟩ := settleAll_components g.isNonterminal hlists hself hclosed
  constructor
  · intro s
    rw [hmem, hkeys]
  · intro s t
    rw [hfirst, hkeys, derives_cons_iff, Scan.reaches_direct_iff hlhs hlists]

/-- The FIRST sets are those of the symbols of the grammar.  They hold exactly the
symbols without a rule that some sequence derived from the symbol begins with, and
do not depend on the order in which the relation of beginning is listed. -/
theorem mem_firstSets_first (history : List (Declaration ο)) :
    (∀ s, s ∈ (replay history).firstSets.first ↔ s ∈ (replay history).symbols) ∧
      (∀ s t, (∃ set, (replay history).firstSets.first[s]? = some set ∧ t ∈ set) ↔
        s ∈ (replay history).symbols ∧ (∀ r ∈ (replay history).rules, r.lhs ≠ t) ∧
          ∃ tail, Derives (replay history).productions [s] (t :: tail)) ∧
      ∀ graph : Digraph Symbol, graph.Lists (replay history).scan.direct →
        settleAll (replay history).isNonterminal (replay history).scan.direct graph.components =
          (replay history).firstSets.first := by
  have hcoherent := coherent_replay history
  obtain ⟨hkeys, hfirst⟩ := hcoherent.settleAll_scan (Digraph.lists_ofMap _)
  refine ⟨hkeys, fun s t => ?_, fun graph hlists => ?_⟩
  · rw [← SymbolMap.mem_getD_empty, ← hcoherent.isNonterminal_eq_false_iff]
    exact hfirst s t
  · obtain ⟨hkeys', hfirst'⟩ := hcoherent.settleAll_scan hlists
    refine SymbolMap.ext_mem (fun s => ?_) fun s t => ?_
    · exact (hkeys' s).trans (hkeys s).symm
    · exact (hfirst' s t).trans (hfirst s t).symm

theorem isNullable_firstSets_iff {g : Grammar ο} {s : Symbol} :
    g.firstSets.isNullable s ↔ DerivesEmpty g.productions s :=
  Std.ExtTreeSet.contains_iff_mem.trans Scan.mem_nullable_run

/-- The nullable symbols of a grammar are those that derive the empty sequence. -/
theorem mem_firstSets_nullable (history : List (Declaration ο)) (s : Symbol) :
    s ∈ (replay history).firstSets.nullable ↔ DerivesEmpty (replay history).productions s :=
  Scan.mem_nullable_run

/-- The rule of `E` is read last, and a rule of `S` waits for it, to go on with `S` itself. -/
example :
    let rule (lhs : Symbol) (rhs : List Symbol) : Declaration Unit :=
      .rule ⟨⟨lhs, rhs⟩, none, .construct "node" [], ()⟩
    let sets := (replay [rule "E" [], rule "S" ["b"], rule "S" ["E", "S", "a"]]).firstSets
    sets.nullable = .ofList ["E"] ∧ sets.firstOf "S" = some (.ofList ["b"]) ∧
      sets.firstOf "E" = some ∅ := by
  decide +kernel

end Grammar

end LRGrammar
