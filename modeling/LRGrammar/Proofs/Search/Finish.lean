import LRGrammar.Proofs.Search.Invariant

/-!
# LRGrammar.Proofs.Search.Finish

The invariant of the search survives the end of a visit.  The node either stays
open, because its low index tells of an older open node, or it is the first node
of a component, which is then exactly the part of the stack above it.

* `Search.Sound.stay`, `Search.Sound.endComponent` — the two ways in which a visit ends;
* `Search.Sound.finish` — the invariant survives both.
-/

namespace LRGrammar

namespace Search

variable {α : Type} [DecidableEq α] [Ord α] [Std.TransOrd α] [Std.LawfulEqOrd α]
variable {g : Digraph α} {s : Search α} {v : α} {outer : List (α × List α)} {bound : Nat}

section finish

variable (hcalls : s.calls = (v, []) :: outer)
include hcalls

/-! ## the node stays open -/

/-- A return moves no node from where it is listed. -/
theorem Bookkept.goBack (h : s.Bookkept g) : (s.goBack outer bound).Bookkept g := by
  apply h.of_views
  case fresh => rfl
  case stack => rfl
  case complete => rfl
  case mem => intro u; exact mem_marks_goBack
  case size => exact size_marks_goBack
  case index => intro u; exact index_goBack
  case onStack => intro u; exact onStack_goBack
  case callers =>
    rw [callers_goBack, callers_of_calls hcalls]
    exact List.sublist_cons_self _ _

omit [Std.LawfulEqOrd α] in
/-- A node whose low index is not its own reaches an older suspended visit. -/
theorem Bounded.reaches_outer (h : s.Bounded g) (books : s.Bookkept g) (trace : s.Traced g)
    (hlt : s.low v < s.index v) :
    ∃ c ∈ outer.map (·.1), s.index c ≤ s.low v ∧ g.Reaches v c := by
  have hv : v ∈ s.stack := books.mem_stack_of_mem_callers (mem_callers_of_head hcalls)
  obtain ⟨x, hx, hindex, hvx⟩ := h.low_reached v hv
  obtain ⟨c, hc, hle, hxc⟩ := trace.reaches_caller x hx
  rw [hindex] at hle
  have houter : c ∈ outer.map (·.1) :=
    mem_outer_of_index_lt hcalls hc (Nat.lt_of_le_of_lt hle hlt)
  exact ⟨c, houter, hle, hvx.trans hxc⟩

/-- The visit of a node that reaches an older one may end: whatever reaches it reaches a visit
around it. -/
theorem Traced.goBack (h : s.Traced g) (books : s.Bookkept g) (bounds : s.Bounded g)
    (hlt : s.low v < s.index v) : (s.goBack outer (s.low v)).Traced g := by
  constructor
  case path =>
    have path := h.path
    rw [callers_of_calls hcalls] at path
    exact path.tail
  case edge_of_unexplored =>
    intro a b hab
    exact h.edge_of_unexplored a b ((unexplored_goBack hcalls).mp hab)
  case explored =>
    intro a b ha hab
    rw [mem_marks_goBack] at ha ⊢
    rw [unexplored_goBack hcalls]
    exact h.explored a b ha hab
  case reaches_younger =>
    intro c hc u hu hle
    rw [index_goBack, index_goBack] at hle
    exact h.reaches_younger c (mem_callers_of_outer hcalls hc) u hu hle
  case reaches_caller =>
    intro u hu
    rw [stack_goBack] at hu
    simp only [index_goBack]
    obtain ⟨c, hc, hle, huc⟩ := h.reaches_caller u hu
    by_cases hcv : c = v
    · subst hcv
      obtain ⟨d, hd, hdc, hcd⟩ := bounds.reaches_outer hcalls books h hlt
      exact ⟨d, hd, by omega, huc.trans hcd⟩
    · rw [callers_of_calls hcalls, List.mem_cons] at hc
      exact ⟨c, hc.resolve_left hcv, hle, huc⟩

/-- What bounded the innermost visit now bounds the visit around it. -/
theorem Bounded.goBack (h : s.Bounded g) (books : s.Bookkept g) (trace : s.Traced g)
    (hlt : s.low v < s.index v) : (s.goBack outer (s.low v)).Bounded g := by
  have hvc : v ∈ s.callers := mem_callers_of_head hcalls
  have hvs : v ∈ s.stack := books.mem_stack_of_mem_callers hvc
  have low_le_low : ∀ u, (s.goBack outer (s.low v)).low u ≤ s.low u := by
    intro u
    rw [low_goBack]
    split
    · exact Nat.min_le_left _ _
    · exact Nat.le_refl _
  constructor
  case low_le =>
    intro u hu
    rw [index_goBack]
    exact Nat.le_trans (low_le_low u) (h.low_le u hu)
  case low_reached =>
    intro u hu
    rw [stack_goBack] at hu
    simp only [stack_goBack, index_goBack, low_goBack]
    split
    · next hparent =>
        have hu' : u ∈ outer.map (·.1) := List.mem_of_mem_head? hparent
        cases Nat.le_total (s.low u) (s.low v) with
        | inl hle => rw [Nat.min_eq_left hle]; exact h.low_reached u hu
        | inr hle =>
            obtain ⟨x, hx, hindex, hvx⟩ := h.low_reached v hvs
            -- the visit around is older than `v`, so it reaches `v` and all that `v` reaches
            have huv := trace.reaches_younger u (mem_callers_of_outer hcalls hu') v hvs
              (Nat.le_of_lt (books.index_outer_lt hcalls hu'))
            exact ⟨x, hx, by rw [Nat.min_eq_right hle]; exact hindex, huv.trans hvx⟩
    · exact h.low_reached u hu
  case low_bounds =>
    intro a ha b hb hab
    rw [stack_goBack] at ha hb
    rw [unexplored_goBack hcalls, index_goBack]
    cases h.low_bounds a ha b hb hab with
    | inl unexplored => exact .inl unexplored
    | inr bounded =>
        obtain ⟨c, hc, hle⟩ := bounded
        have le_of_outer : ∀ d ∈ outer.map (·.1), s.index d ≤ s.index a →
            s.index d ≤ s.index c := fun d hd => hc.le_index d (mem_callers_of_outer hcalls hd)
        by_cases hcv : c = v
        · subst hcv
          -- the visit around becomes the innermost one, and has been handed the low index
          obtain ⟨p, hp⟩ : ∃ p, (outer.map (·.1)).head? = some p := by
            obtain ⟨d, hd, -⟩ := h.reaches_outer hcalls books trace hlt
            exact Option.isSome_iff_exists.mp (List.isSome_head?.mpr (List.ne_nil_of_mem hd))
          have hpo : p ∈ outer.map (·.1) := List.mem_of_mem_head? hp
          have hpc := books.index_outer_lt hcalls hpo
          refine .inr ⟨p, ⟨hpo, ?_, fun d hd _ => ?_⟩, ?_⟩
          · rw [index_goBack, index_goBack]
            exact Nat.le_trans (Nat.le_of_lt hpc) hc.index_le
          · exact (books.goBack hcalls).index_le_head hp hd
          · rw [low_goBack, if_pos hp]
            exact Nat.le_trans (Nat.min_le_right _ _) hle
        · have hco : c ∈ outer.map (·.1) := by
            have hcs := hc.mem_callers
            rw [callers_of_calls hcalls, List.mem_cons] at hcs
            exact hcs.resolve_left hcv
          refine .inr ⟨c, ⟨hco, ?_, fun d hd hda => ?_⟩, Nat.le_trans (low_le_low c) hle⟩
          · rw [index_goBack, index_goBack]; exact hc.index_le
          · rw [index_goBack, index_goBack] at hda ⊢
            exact le_of_outer d hd hda

/-- A return that leaves the node on the stack keeps the invariant. -/
theorem Sound.stay (h : s.Sound g) (hlt : s.low v < s.index v) :
    (s.goBack outer (s.low v)).Sound g where
  toBookkept := h.toBookkept.goBack hcalls
  toTraced := h.toTraced.goBack hcalls h.toBookkept h.toBounded hlt
  toBounded := h.toBounded.goBack hcalls h.toBookkept h.toTraced hlt
  completed := h.completed

end finish

/-! ## the component is complete -/

omit [Ord α] [Std.TransOrd α] [Std.LawfulEqOrd α] in
/-- A stack is cut behind the node. -/
theorem popThrough_of_mem {stack : List α} (hv : v ∈ stack) :
    ∃ above rest, stack = above ++ v :: rest ∧ popThrough v stack = (above ++ [v], rest) := by
  induction stack with
  | nil => exact absurd hv List.not_mem_nil
  | cons w stack ih =>
      by_cases hw : w = v
      · subst hw
        exact ⟨[], stack, rfl, by simp [popThrough]⟩
      · have hv' : v ∈ stack := (List.mem_cons.mp hv).resolve_left (Ne.symm hw)
        obtain ⟨above, rest, hstack, hpop⟩ := ih hv'
        exact ⟨w :: above, rest, by rw [hstack]; rfl, by simp [popThrough, hw, hpop]⟩

section detach

omit [Std.LawfulEqOrd α]

/-- The component of a node takes the nodes that are not older off the stack, and
leaves the older ones. -/
theorem Bookkept.mem_popThrough (h : s.Bookkept g) (hv : v ∈ s.stack) {u : α} :
    (u ∈ (popThrough v s.stack).1 ↔ u ∈ s.stack ∧ s.index v ≤ s.index u) ∧
      (u ∈ (popThrough v s.stack).2 ↔ u ∈ s.stack ∧ s.index u < s.index v) := by
  obtain ⟨above, rest, hstack, hpop⟩ := popThrough_of_mem hv
  have falling := h.falling
  rw [hstack] at falling
  obtain ⟨-, below, across⟩ := List.pairwise_append.mp falling
  have younger : ∀ x ∈ above, s.index v < s.index x := fun x hx =>
    across x hx v List.mem_cons_self
  have older : ∀ x ∈ rest, s.index x < s.index v := fun x hx =>
    List.rel_of_pairwise_cons below hx
  rw [hpop, hstack]
  simp only [List.mem_append, List.mem_cons, List.not_mem_nil, or_false]
  constructor
  · constructor
    · intro hu
      cases hu with
      | inl hu => exact ⟨.inl hu, Nat.le_of_lt (younger u hu)⟩
      | inr hu => exact ⟨.inr (.inl hu), by rw [hu]⟩
    · rintro ⟨hu | hu | hu, hle⟩
      · exact .inl hu
      · exact .inr hu
      · exact absurd (older u hu) (by omega)
  · constructor
    · intro hu
      exact ⟨.inr (.inr hu), older u hu⟩
    · rintro ⟨hu | rfl | hu, hlt⟩
      · exact absurd (younger u hu) (by omega)
      · exact absurd hlt (Nat.lt_irrefl _)
      · exact hu

/-- The component is made of the nodes on the stack that are no older than its first node. -/
theorem Bookkept.mem_members (h : s.Bookkept g) (hv : v ∈ s.stack) {u : α} :
    u ∈ (popThrough v s.stack).1 ↔ u ∈ s.stack ∧ s.index v ≤ s.index u :=
  (h.mem_popThrough hv).1

/-- The older nodes stay on the stack. -/
theorem Bookkept.mem_stack_detach (h : s.Bookkept g) (hv : v ∈ s.stack) {u : α} :
    u ∈ (s.detach v).stack ↔ u ∈ s.stack ∧ s.index u < s.index v :=
  (h.mem_popThrough hv).2

/-- The visit of the first node of a component ends, and the component is complete. -/
def endComponent (s : Search α) (v : α) (outer : List (α × List α)) : Search α :=
  (s.goBack outer (s.low v)).detach v

theorem mem_marks_endComponent {u : α} : u ∈ (s.endComponent v outer).marks ↔ u ∈ s.marks := by
  rw [endComponent, mem_marks_detach, mem_marks_goBack]

/-- The end of a component takes no unexplored edge away. -/
theorem unexplored_endComponent (hcalls : s.calls = (v, []) :: outer) {a b : α} :
    (s.endComponent v outer).Unexplored a b ↔ s.Unexplored a b := by
  rw [endComponent, unexplored_detach, unexplored_goBack hcalls]

theorem Bookkept.mem_stack_endComponent (h : s.Bookkept g) (hv : v ∈ s.stack) {u : α} :
    u ∈ (s.endComponent v outer).stack ↔ u ∈ s.stack ∧ s.index u < s.index v :=
  h.mem_stack_detach hv

end detach

/-- The members of the component go from the stack to the complete components. -/
theorem Bookkept.detach (h : s.Bookkept g) (hv : v ∈ s.stack)
    (older : ∀ c ∈ s.callers, s.index c < s.index v) : (s.detach v).Bookkept g := by
  have parts : (popThrough v s.stack).1 ++ (s.detach v).stack = s.stack :=
    popThrough_append v s.stack
  have kept : (s.detach v).stack.Sublist s.stack := by
    rw [← parts]
    exact List.sublist_append_right _ _
  have complete_eq : (s.detach v).complete.flatten =
      (popThrough v s.stack).1 ++ s.complete.flatten := rfl
  constructor
  case nodup_fresh => exact h.nodup_fresh
  case mem_fresh =>
    intro u
    rw [mem_marks_detach]
    exact h.mem_fresh u
  case mem_nodes =>
    intro u hu
    exact h.mem_nodes u (mem_marks_detach.mp hu)
  case mem_marks =>
    intro u
    have split : u ∈ s.stack ↔ u ∈ (popThrough v s.stack).1 ∨ u ∈ (s.detach v).stack := by
      rw [← List.mem_append, parts]
    rw [mem_marks_detach, h.mem_marks, complete_eq, List.mem_append, split]
    tauto
  case onStack_iff =>
    intro u
    rw [onStack_detach, h.mem_stack_detach hv]
    split
    · next hu =>
        have hu' := (h.mem_members hv).mp hu
        simp only [Bool.false_eq_true, false_iff]
        omega
    · next hu =>
        rw [h.mem_members hv] at hu
        rw [h.onStack_iff]
        constructor
        · intro hs
          exact ⟨hs, by by_contra hle; exact hu ⟨hs, by omega⟩⟩
        · intro hs
          exact hs.1
  case nodup =>
    have nodup := h.nodup
    rw [← parts, List.append_assoc] at nodup
    rw [complete_eq]
    exact (List.perm_append_comm_assoc _ _ _).nodup_iff.mp nodup
  case index_lt =>
    intro u hu
    rw [index_detach, size_marks_detach]
    exact h.index_lt u (kept.subset hu)
  case falling =>
    simp only [index_detach]
    exact h.falling.sublist kept
  case callers_sublist =>
    rw [callers_detach]
    have all := h.callers_sublist
    rw [← parts] at all
    obtain ⟨members, rest, hcallers, hmembers, hrest⟩ := List.sublist_append_iff.mp all
    -- no suspended visit is as young as a member
    have none : members = [] := by
      apply List.eq_nil_iff_forall_not_mem.mpr
      intro c hc
      have young := ((h.mem_members hv).mp (hmembers.subset hc)).2
      exact absurd (older c (by rw [hcallers]; exact List.mem_append_left _ hc)) (by omega)
    rw [hcallers, none, List.nil_append]
    exact hrest

theorem index_endComponent {u : α} : (s.endComponent v outer).index u = s.index u := by
  rw [endComponent, index_detach, index_goBack]

section detach

variable (hcalls : s.calls = (v, []) :: outer)
include hcalls

/-- The visits around the component are older, so that none of their nodes goes with it. -/
theorem Bookkept.endComponent (h : s.Bookkept g) : (s.endComponent v outer).Bookkept g := by
  apply (h.goBack hcalls).detach (h.mem_stack_of_mem_callers (mem_callers_of_head hcalls))
  intro c hc
  rw [index_goBack, index_goBack]
  exact h.index_outer_lt hcalls hc

/-- Nothing is handed on: the parent's low index is at most its own index, which is smaller. -/
theorem Bounded.low_goBack_eq (h : s.Bounded g) (books : s.Bookkept g)
    (heq : s.low v = s.index v) (u : α) : (s.goBack outer (s.low v)).low u = s.low u := by
  rw [low_goBack]
  split
  · next hparent =>
      have hu : u ∈ outer.map (·.1) := List.mem_of_mem_head? hparent
      have hle := h.low_le u (books.mem_stack_of_mem_callers (mem_callers_of_outer hcalls hu))
      have hlt := books.index_outer_lt hcalls hu
      exact Nat.min_eq_left (by omega)
  · rfl

omit [Std.LawfulEqOrd α] in
/-- The members of the component reach each other, by way of its first node. -/
theorem Traced.reaches_members (h : s.Traced g) (books : s.Bookkept g) {a b : α}
    (ha : a ∈ (popThrough v s.stack).1) (hb : b ∈ (popThrough v s.stack).1) :
    g.Reaches a b := by
  have hvc : v ∈ s.callers := mem_callers_of_head hcalls
  have hvs : v ∈ s.stack := books.mem_stack_of_mem_callers hvc
  have hhead : s.callers.head? = some v := head?_callers hcalls
  rw [books.mem_members hvs] at ha hb
  obtain ⟨c, hc, -, hac⟩ := h.reaches_caller a ha.1
  have hcv := h.reaches_younger c hc v hvs (books.index_le_head hhead hc)
  have hvb := h.reaches_younger v hvc b hb.1 hb.2
  exact (hac.trans hcv).trans hvb

omit [Std.LawfulEqOrd α] in
/-- No edge leads from a member of the component to an older open node. -/
theorem Bounded.edge_members (h : s.Bounded g) (books : s.Bookkept g) (trace : s.Traced g)
    (heq : s.low v = s.index v) {a b : α} (ha : a ∈ (popThrough v s.stack).1)
    (edge : g.Edge a b) : b ∈ (popThrough v s.stack).1 ∨ b ∈ s.complete.flatten := by
  have hvc : v ∈ s.callers := mem_callers_of_head hcalls
  have hvs : v ∈ s.stack := books.mem_stack_of_mem_callers hvc
  have hhead : s.callers.head? = some v := head?_callers hcalls
  rw [books.mem_members hvs] at ha
  have explored : ¬ s.Unexplored a b := by
    intro unexplored
    obtain ⟨ws, hcall, hb⟩ := unexplored
    rw [hcalls, List.mem_cons] at hcall
    cases hcall with
    | inl he =>
        obtain rfl : ws = [] := congrArg Prod.snd he
        exact List.not_mem_nil hb
    | inr hcall =>
        have hlt := books.index_outer_lt hcalls (List.mem_map.mpr ⟨_, hcall, rfl⟩)
        exact absurd ha.2 (by simpa using hlt)
  have hb : b ∈ s.marks :=
    (trace.explored a b (books.mem_marks_of_mem_stack ha.1) edge).resolve_right explored
  cases (books.mem_marks b).mp hb with
  | inr hb => exact .inr hb
  | inl hb =>
      obtain ⟨c, hc, hle⟩ := (h.low_bounds a ha.1 b hb edge).resolve_left explored
      have hcs := books.mem_stack_of_mem_callers hc.mem_callers
      -- the innermost visit around a member is that of `v`
      have hcv : c = v := by
        have hle := books.index_le_head hhead hc.mem_callers
        have hge := hc.le_index v hvc ha.2
        exact books.eq_of_index_eq hcs hvs (Nat.le_antisymm hle hge)
      rw [hcv, heq] at hle
      exact .inl ((books.mem_members hvs).mpr ⟨hb, hle⟩)

/-- No open node is left that reached a visit only by way of the component. -/
theorem Traced.endComponent (h : s.Traced g) (books : s.Bookkept g) :
    (s.endComponent v outer).Traced g := by
  have hvs : v ∈ s.stack := books.mem_stack_of_mem_callers (mem_callers_of_head hcalls)
  constructor
  case path =>
    have path := h.path
    rw [callers_of_calls hcalls] at path
    exact path.tail
  case edge_of_unexplored =>
    intro a b hab
    exact h.edge_of_unexplored a b ((unexplored_endComponent hcalls).mp hab)
  case explored =>
    intro a b ha hab
    rw [mem_marks_endComponent] at ha ⊢
    rw [unexplored_endComponent hcalls]
    exact h.explored a b ha hab
  case reaches_younger =>
    intro c hc u hu hle
    rw [index_endComponent, index_endComponent] at hle
    have hus := ((books.mem_stack_endComponent hvs).mp hu).1
    exact h.reaches_younger c (mem_callers_of_outer hcalls hc) u hus hle
  case reaches_caller =>
    intro u hu
    obtain ⟨hus, huv⟩ := (books.mem_stack_endComponent hvs).mp hu
    obtain ⟨c, hc, hle, hreach⟩ := h.reaches_caller u hus
    have houter := mem_outer_of_index_lt hcalls hc (Nat.lt_of_le_of_lt hle huv)
    refine ⟨c, houter, ?_, hreach⟩
    rw [index_endComponent, index_endComponent]
    exact hle

/-- What is left open had its low indices below the component. -/
theorem Bounded.endComponent (h : s.Bounded g) (books : s.Bookkept g)
    (heq : s.low v = s.index v) : (s.endComponent v outer).Bounded g := by
  have hvs : v ∈ s.stack := books.mem_stack_of_mem_callers (mem_callers_of_head hcalls)
  have low_eq : ∀ u, (s.endComponent v outer).low u = s.low u := fun u =>
    low_detach.trans (h.low_goBack_eq hcalls books heq u)
  constructor
  case low_le =>
    intro u hu
    rw [low_eq, index_endComponent]
    exact h.low_le u ((books.mem_stack_endComponent hvs).mp hu).1
  case low_reached =>
    intro u hu
    obtain ⟨hus, huv⟩ := (books.mem_stack_endComponent hvs).mp hu
    obtain ⟨x, hx, hindex, hreach⟩ := h.low_reached u hus
    have hle := h.low_le u hus
    have hxs : x ∈ (s.endComponent v outer).stack :=
      (books.mem_stack_endComponent hvs).mpr ⟨hx, by omega⟩
    refine ⟨x, hxs, ?_, hreach⟩
    rw [low_eq, index_endComponent]
    exact hindex
  case low_bounds =>
    intro a ha b hb hab
    obtain ⟨has, hav⟩ := (books.mem_stack_endComponent hvs).mp ha
    obtain ⟨hbs, -⟩ := (books.mem_stack_endComponent hvs).mp hb
    rw [unexplored_endComponent hcalls, index_endComponent]
    cases h.low_bounds a has b hbs hab with
    | inl unexplored => exact .inl unexplored
    | inr bounded =>
        obtain ⟨c, hc, hle⟩ := bounded
        have hco := mem_outer_of_index_lt hcalls hc.mem_callers
          (Nat.lt_of_le_of_lt hc.index_le hav)
        refine .inr ⟨c, ⟨hco, ?_, fun d hd hda => ?_⟩, by rw [low_eq]; exact hle⟩
        · rw [index_endComponent, index_endComponent]
          exact hc.index_le
        · rw [index_endComponent, index_endComponent] at hda ⊢
          exact hc.le_index d (mem_callers_of_outer hcalls hd) hda

/-- The end of a component keeps the invariant: the component is strongly connected and complete. -/
theorem Sound.endComponent (h : s.Sound g) (heq : s.low v = s.index v) :
    (s.endComponent v outer).Sound g where
  toBookkept := h.toBookkept.endComponent hcalls
  toTraced := h.toTraced.endComponent hcalls h.toBookkept
  toBounded := h.toBounded.endComponent hcalls h.toBookkept heq
  completed := by
    have hvs : v ∈ s.stack := h.mem_stack_of_mem_callers (mem_callers_of_head hcalls)
    have hv : v ∈ (popThrough v s.stack).1 := (h.mem_members hvs).mpr ⟨hvs, Nat.le_refl _⟩
    have reaches : ∀ a ∈ (popThrough v s.stack).1, ∀ b ∈ (popThrough v s.stack).1,
        g.Reaches a b := fun _ ha _ hb => h.toTraced.reaches_members hcalls h.toBookkept ha hb
    have edges : ∀ a ∈ (popThrough v s.stack).1, ∀ b, g.Edge a b →
        b ∈ (popThrough v s.stack).1 ∨ b ∈ s.complete.flatten := fun _ ha _ hab =>
      h.toBounded.edge_members hcalls h.toBookkept h.toTraced heq ha hab
    exact ⟨List.ne_nil_of_mem hv, reaches, edges, h.completed⟩

end detach

/-! ## both together -/

/-- The end of a visit. -/
theorem Sound.finish (h : s.Sound g) (hcalls : s.calls = (v, []) :: outer) :
    (s.finish v outer).Sound g := by
  have hvs : v ∈ s.stack := h.mem_stack_of_mem_callers (mem_callers_of_head hcalls)
  rw [finish_eq (h.mem_marks_of_mem_stack hvs)]
  split
  · next heq => exact h.endComponent hcalls heq
  · next hne => exact h.stay hcalls (Nat.lt_of_le_of_ne (h.low_le v hvs) hne)

end Search

end LRGrammar
