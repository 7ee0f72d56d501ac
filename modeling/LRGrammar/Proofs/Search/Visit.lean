import LRGrammar.Proofs.Search.Invariant

/-!
# LRGrammar.Proofs.Search.Visit

The invariant of the search survives the steps that go forward: the visit of a
fresh node, which is a root or a successor of the innermost visit, and the look
at a successor that was visited before.

* `Search.Sound.visit`, `Search.Sound.look`.
-/

namespace LRGrammar

namespace Search

variable {α : Type} [DecidableEq α] [Ord α] [Std.TransOrd α] [Std.LawfulEqOrd α]
variable {g : Digraph α} {s : Search α} {v w : α} {calls : List (α × List α)}

/-! ## the visit of a fresh node -/

/-- The nodes on the stack keep their visiting index. -/
theorem Bookkept.index_visit_of_mem (h : s.Bookkept g) (hw : w ∈ s.fresh) {u : α}
    (hu : u ∈ s.stack) : ((s.withCalls calls).visit g w).index u = s.index u := by
  have hne : u ≠ w := fun he => h.not_mem_stack_of_fresh hw (he ▸ hu)
  simp [hne]

/-- The nodes on the stack keep their low index. -/
theorem Bookkept.low_visit_of_mem (h : s.Bookkept g) (hw : w ∈ s.fresh) {u : α}
    (hu : u ∈ s.stack) : ((s.withCalls calls).visit g w).low u = s.low u := by
  have hne : u ≠ w := fun he => h.not_mem_stack_of_fresh hw (he ▸ hu)
  simp [hne]

/-- The node of a visit is numbered by the nodes visited before it. -/
theorem index_visit_self : ((s.withCalls calls).visit g w).index w = s.marks.size := by
  simp [withCalls]

/-- Its low index starts as that number. -/
theorem low_visit_self : ((s.withCalls calls).visit g w).low w = s.marks.size := by
  simp [withCalls]

/-- A fresh node that is visited goes to the top of the stack. -/
theorem Bookkept.visit (h : s.Bookkept g) (hw : w ∈ s.fresh) (ahead : s.Approaches w calls) :
    ((s.withCalls calls).visit g w).Bookkept g := by
  obtain ⟨hnode, hmark⟩ := (h.mem_fresh w).mp hw
  have hstack : w ∉ s.stack := h.not_mem_stack_of_fresh hw
  have hcomplete : w ∉ s.complete.flatten := fun hc => hmark ((h.mem_marks w).mpr (.inr hc))
  constructor
  case nodup_fresh => exact h.nodup_fresh.erase w
  case mem_fresh =>
    intro u
    show u ∈ s.fresh.erase w ↔ _
    rw [h.nodup_fresh.mem_erase_iff, h.mem_fresh, mem_marks_visit]
    show _ ↔ u ∈ g.nodes ∧ ¬(u = w ∨ u ∈ s.marks)
    tauto
  case mem_nodes =>
    intro u hu
    cases mem_marks_visit.mp hu with
    | inl hu => rw [hu]; exact hnode
    | inr hu => exact h.mem_nodes u hu
  case mem_marks =>
    intro u
    rw [mem_marks_visit]
    show u = w ∨ u ∈ s.marks ↔ u ∈ w :: s.stack ∨ u ∈ s.complete.flatten
    rw [h.mem_marks, List.mem_cons, or_assoc]
  case onStack_iff =>
    intro u
    rw [onStack_visit, onStack_withCalls]
    show _ ↔ u ∈ w :: s.stack
    by_cases hu : u = w
    · simp [hu]
    · simp [hu, h.onStack_iff]
  case nodup =>
    show (w :: (s.stack ++ s.complete.flatten)).Nodup
    exact List.nodup_cons.mpr ⟨by simp [hstack, hcomplete], h.nodup⟩
  case index_lt =>
    intro u hu
    rw [size_marks_visit (by exact hmark)]
    cases List.mem_cons.mp hu with
    | inl hu => rw [hu, index_visit_self]; exact Nat.lt_succ_self _
    | inr hu => rw [h.index_visit_of_mem hw hu]; exact Nat.lt_succ_of_lt (h.index_lt u hu)
  case falling =>
    refine List.pairwise_cons.mpr ⟨fun u hu => ?_, ?_⟩
    · rw [h.index_visit_of_mem hw hu, index_visit_self]
      exact h.index_lt u hu
    · refine h.falling.imp_of_mem fun ha hb hlt => ?_
      rw [h.index_visit_of_mem hw ha, h.index_visit_of_mem hw hb]
      exact hlt
  case callers_sublist =>
    rw [ahead.callers_visit]
    exact h.callers_sublist.cons_cons w

/-- A new visit is the innermost; it is reached from every visit around it. -/
theorem Traced.visit (h : s.Traced g) (books : s.Bookkept g) (hw : w ∈ s.fresh)
    (ahead : s.Approaches w calls) (edge : ∀ c, s.callers.head? = some c → g.Edge c w) :
    ((s.withCalls calls).visit g w).Traced g := by
  have hmark : w ∉ s.marks := ((books.mem_fresh w).mp hw).2
  have reaches_new : ∀ c ∈ s.callers, g.Reaches c w := by
    intro c hc
    obtain ⟨v, hv⟩ : ∃ v, s.callers.head? = some v :=
      Option.isSome_iff_exists.mp (List.isSome_head?.mpr (List.ne_nil_of_mem hc))
    have hvs := books.mem_stack_of_mem_callers (List.mem_of_mem_head? hv)
    have to_head := h.reaches_younger c hc v hvs (books.index_le_head hv hc)
    exact to_head.trans (.of_edge (edge v hv))
  constructor
  case path =>
    rw [ahead.callers_visit, List.isChain_cons]
    exact ⟨fun c hc => edge c hc, h.path⟩
  case edge_of_unexplored =>
    intro a b hab
    cases unexplored_visit.mp hab with
    | inl new => rw [new.1]; exact new.2
    | inr hab => exact h.edge_of_unexplored a b ((ahead.unexplored a b).mpr (.inr hab))
  case explored =>
    intro a b ha hab
    cases mem_marks_visit.mp ha with
    | inl ha =>
        rw [ha] at hab ⊢
        exact .inr (unexplored_visit.mpr (.inl ⟨rfl, hab⟩))
    | inr ha =>
        by_cases hb : b = w
        · exact .inl (mem_marks_visit.mpr (.inl hb))
        · cases h.explored a b ha hab with
          | inl hb' => exact .inl (mem_marks_visit.mpr (.inr hb'))
          | inr hab => exact .inr (ahead.unexplored_visit hab hb)
  case reaches_younger =>
    intro c hc u hu hle
    rw [ahead.callers_visit, List.mem_cons] at hc
    cases hc with
    | inl hc =>
        rw [hc] at hle ⊢
        cases List.mem_cons.mp hu with
        | inl hu => rw [hu]; exact .refl g w
        | inr hu =>
            -- the new node is the youngest, so no other one is as young
            rw [index_visit_self, books.index_visit_of_mem hw hu] at hle
            exact absurd (books.index_lt u hu) (by omega)
    | inr hc =>
        cases List.mem_cons.mp hu with
        | inl hu => rw [hu]; exact reaches_new c hc
        | inr hu =>
            rw [books.index_visit_of_mem hw (books.mem_stack_of_mem_callers hc),
              books.index_visit_of_mem hw hu] at hle
            exact h.reaches_younger c hc u hu hle
  case reaches_caller =>
    intro u hu
    rw [ahead.callers_visit]
    cases List.mem_cons.mp hu with
    | inl hu =>
        rw [hu]
        exact ⟨w, List.mem_cons_self, Nat.le_refl _, .refl g w⟩
    | inr hu =>
        obtain ⟨c, hc, hle, hreach⟩ := h.reaches_caller u hu
        refine ⟨c, List.mem_cons_of_mem w hc, ?_, hreach⟩
        rw [books.index_visit_of_mem hw (books.mem_stack_of_mem_callers hc),
          books.index_visit_of_mem hw hu]
        exact hle

/-- The innermost visit around an older node is what it was. -/
theorem Bookkept.innermost_visit (h : s.Bookkept g) (hw : w ∈ s.fresh)
    (ahead : s.Approaches w calls) {c u : α} (hu : u ∈ s.stack) (hc : s.Innermost c u) :
    ((s.withCalls calls).visit g w).Innermost c u := by
  have hcs := h.mem_stack_of_mem_callers hc.mem_callers
  constructor
  case mem_callers =>
    rw [ahead.callers_visit]
    exact List.mem_cons_of_mem w hc.mem_callers
  case index_le =>
    rw [h.index_visit_of_mem hw hcs, h.index_visit_of_mem hw hu]
    exact hc.index_le
  case le_index =>
    intro d hd hle
    rw [ahead.callers_visit, List.mem_cons] at hd
    rw [h.index_visit_of_mem hw hu] at hle
    cases hd with
    | inl hd =>
        rw [hd, index_visit_self] at hle
        exact absurd (h.index_lt u hu) (by omega)
    | inr hd =>
        rw [h.index_visit_of_mem hw (h.mem_stack_of_mem_callers hd)] at hle ⊢
        rw [h.index_visit_of_mem hw hcs]
        exact hc.le_index d hd hle

/-- An unvisited node is younger than every open node, so an edge to it bounds nothing. -/
theorem Bounded.visit (h : s.Bounded g) (books : s.Bookkept g) (trace : s.Traced g)
    (hw : w ∈ s.fresh) (ahead : s.Approaches w calls) :
    ((s.withCalls calls).visit g w).Bounded g := by
  have hmark : w ∉ s.marks := ((books.mem_fresh w).mp hw).2
  constructor
  case low_le =>
    intro u hu
    cases List.mem_cons.mp hu with
    | inl hu => rw [hu, low_visit_self, index_visit_self]
    | inr hu =>
        rw [books.low_visit_of_mem hw hu, books.index_visit_of_mem hw hu]
        exact h.low_le u hu
  case low_reached =>
    intro u hu
    cases List.mem_cons.mp hu with
    | inl hu =>
        rw [hu]
        exact ⟨w, List.mem_cons_self, by rw [low_visit_self, index_visit_self], .refl g w⟩
    | inr hu =>
        obtain ⟨x, hx, hindex, hreach⟩ := h.low_reached u hu
        refine ⟨x, List.mem_cons_of_mem w hx, ?_, hreach⟩
        rw [books.index_visit_of_mem hw hx, books.low_visit_of_mem hw hu]
        exact hindex
  case low_bounds =>
    intro a ha b hb hab
    cases List.mem_cons.mp ha with
    | inl ha =>
        rw [ha] at hab ⊢
        exact .inl (unexplored_visit.mpr (.inl ⟨rfl, hab⟩))
    | inr ha =>
        cases List.mem_cons.mp hb with
        | inl hb =>
            -- the edge just taken, or a second one like it: its source is being visited
            rw [hb] at hab ⊢
            have unexplored : s.Unexplored a w :=
              (trace.explored a w (books.mem_marks_of_mem_stack ha) hab).resolve_left hmark
            have hca := mem_callers_of_unexplored unexplored
            refine .inr ⟨a, books.innermost_visit hw ahead ha (.of_mem_callers hca), ?_⟩
            rw [books.low_visit_of_mem hw ha, index_visit_self]
            exact Nat.le_trans (h.low_le a ha) (Nat.le_of_lt (books.index_lt a ha))
        | inr hb =>
            have hne : b ≠ w := fun he => books.not_mem_stack_of_fresh hw (he ▸ hb)
            cases h.low_bounds a ha b hb hab with
            | inl unexplored => exact .inl (ahead.unexplored_visit unexplored hne)
            | inr bounded =>
                obtain ⟨c, hc, hle⟩ := bounded
                refine .inr ⟨c, books.innermost_visit hw ahead ha hc, ?_⟩
                rw [books.low_visit_of_mem hw (books.mem_stack_of_mem_callers hc.mem_callers),
                  books.index_visit_of_mem hw hb]
                exact hle

/-! ## the look at a visited node -/

/-- A look moves no visit. -/
theorem Approaches.innermost_look (ahead : s.Approaches w calls) {c u : α}
    (hc : s.Innermost c u) : ((s.withCalls calls).look v w).Innermost c u := by
  constructor
  case mem_callers =>
    rw [ahead.callers_look]
    exact hc.mem_callers
  case index_le =>
    rw [index_look, index_look]
    exact hc.index_le
  case le_index =>
    intro d hd hle
    rw [ahead.callers_look] at hd
    rw [index_look, index_look] at hle ⊢
    exact hc.le_index d hd hle

/-- Looking at an edge moves no node from where it is listed. -/
theorem Bookkept.look (h : s.Bookkept g) (ahead : s.Approaches w calls) :
    ((s.withCalls calls).look v w).Bookkept g := by
  apply h.of_views
  case fresh => exact fresh_look
  case stack => exact stack_look
  case complete => exact complete_look
  case mem => intro u; exact mem_marks_look
  case size => exact size_marks_look
  case index => intro u; exact index_look
  case onStack => intro u; exact onStack_look
  case callers =>
    rw [ahead.callers_look]

/-- An edge to a visited node need not be followed. -/
theorem Traced.look (h : s.Traced g) (ahead : s.Approaches w calls) (hw : w ∈ s.marks) :
    ((s.withCalls calls).look v w).Traced g := by
  constructor
  case path => rw [ahead.callers_look]; exact h.path
  case edge_of_unexplored =>
    intro a b hab
    exact h.edge_of_unexplored a b ((ahead.unexplored a b).mpr (.inr (unexplored_look.mp hab)))
  case explored =>
    intro a b ha hab
    rw [mem_marks_look] at ha ⊢
    rw [unexplored_look]
    cases h.explored a b ha hab with
    | inl hb => exact .inl hb
    | inr unexplored =>
        cases (ahead.unexplored a b).mp unexplored with
        | inl followed => rw [followed.2]; exact .inl hw
        | inr unexplored => exact .inr unexplored
  case reaches_younger =>
    intro c hc u hu hle
    rw [ahead.callers_look] at hc
    rw [stack_look] at hu
    rw [index_look, index_look] at hle
    exact h.reaches_younger c hc u hu hle
  case reaches_caller =>
    intro u hu
    rw [stack_look] at hu
    obtain ⟨c, hc, hle, hreach⟩ := h.reaches_caller u hu
    refine ⟨c, by rw [ahead.callers_look]; exact hc, ?_, hreach⟩
    rw [index_look, index_look]
    exact hle

/-- The edge that was looked at is bounded by the low index of the innermost visit. -/
theorem Bounded.look (h : s.Bounded g) (books : s.Bookkept g) (ahead : s.Approaches w calls)
    (hv : s.callers.head? = some v) (edge : g.Edge v w) :
    ((s.withCalls calls).look v w).Bounded g := by
  have hvc : v ∈ s.callers := List.mem_of_mem_head? hv
  have low_eq : ∀ u, ((s.withCalls calls).look v w).low u =
      if u = v ∧ s.onStack w then min (s.low u) (s.index w) else s.low u := fun u => low_look
  have low_le_low : ∀ u, ((s.withCalls calls).look v w).low u ≤ s.low u := by
    intro u
    rw [low_eq]
    split
    · exact Nat.min_le_left _ _
    · exact Nat.le_refl _
  constructor
  case low_le =>
    intro u hu
    rw [stack_look] at hu
    rw [index_look]
    exact Nat.le_trans (low_le_low u) (h.low_le u hu)
  case low_reached =>
    intro u hu
    rw [stack_look] at hu
    obtain ⟨x, hx, hindex, hreach⟩ := h.low_reached u hu
    simp only [stack_look, index_look, low_eq]
    split
    · next hlow =>
        obtain ⟨rfl, hw⟩ := hlow
        cases Nat.le_total (s.low u) (s.index w) with
        | inl hle => exact ⟨x, hx, by rw [Nat.min_eq_left hle]; exact hindex, hreach⟩
        | inr hle =>
            have hws : w ∈ s.stack := (books.onStack_iff w).mp hw
            exact ⟨w, hws, by rw [Nat.min_eq_right hle]; rfl, .of_edge edge⟩
    · exact ⟨x, hx, hindex, hreach⟩
  case low_bounds =>
    intro a ha b hb hab
    rw [stack_look] at ha hb
    rw [unexplored_look, index_look]
    cases h.low_bounds a ha b hb hab with
    | inl unexplored =>
        cases (ahead.unexplored a b).mp unexplored with
        | inl followed =>
            -- the edge looked at: its source is the innermost visit, which takes the minimum
            obtain ⟨hav, rfl⟩ := followed
            obtain rfl : v = a := Option.some.inj (hv.symm.trans hav)
            refine .inr ⟨v, ahead.innermost_look (.of_mem_callers hvc), ?_⟩
            rw [low_eq, if_pos ⟨rfl, (books.onStack_iff b).mpr hb⟩]
            exact Nat.min_le_right _ _
        | inr unexplored => exact .inl unexplored
    | inr bounded =>
        obtain ⟨c, hc, hle⟩ := bounded
        exact .inr ⟨c, ahead.innermost_look hc, Nat.le_trans (low_le_low c) hle⟩

/-! ## both together -/

/-- The visit of a fresh node keeps the invariant. -/
theorem Sound.visit (h : s.Sound g) (hw : w ∈ s.fresh) (ahead : s.Approaches w calls) :
    ((s.withCalls calls).visit g w).Sound g where
  toBookkept := h.toBookkept.visit hw ahead
  toTraced := h.toTraced.visit h.toBookkept hw ahead fun _ => h.edge_of_approaches ahead
  toBounded := h.toBounded.visit h.toBookkept h.toTraced hw ahead
  completed := h.completed

/-- A look at a node that was visited before keeps the invariant. -/
theorem Sound.look (h : s.Sound g) (ahead : s.Approaches w calls)
    (hv : s.callers.head? = some v) (hw : w ∉ s.fresh) :
    ((s.withCalls calls).look v w).Sound g := by
  have edge := h.edge_of_approaches ahead hv
  have hnode := (Digraph.mem_nodes_of_mem_successors edge).2
  exact {
    toBookkept := h.toBookkept.look ahead
    toTraced := h.toTraced.look ahead (h.mem_marks_of_not_mem_fresh hnode hw)
    toBounded := h.toBounded.look h.toBookkept ahead hv edge
    completed := by rw [complete_look]; exact h.completed }

end Search

end LRGrammar
