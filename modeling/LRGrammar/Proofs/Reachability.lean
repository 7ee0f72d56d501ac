import LRGrammar.Proofs.Findings

/-!
# LRGrammar.Proofs.Reachability

The symbols that can be reached are those that occur in what the start symbols derive.
A path through the bodies picks one symbol of each body on its way; a derivation keeps
all of them.  So every symbol of a derived sequence ends a path, and along a path one
can derive and keep the symbol that comes next.

* `Derives.exists_path` — the symbols of a derived sequence end paths;
* `occurs_iff_path` — occurrence in derived sequences, told by paths;
* `Grammar.checkReachability_verdict` — what the check finds.
-/

namespace LRGrammar

variable {P : List Production} {xs ys : List Symbol} {root s : Symbol}

/-! ## occurrence -/

/-- The symbol occurs in some sequence that the root derives. -/
def Occurs (P : List Production) (root s : Symbol) : Prop :=
  ∃ form, Derives P [root] form ∧ s ∈ form

/-- The root itself is such a sequence. -/
theorem occurs_self (P : List Production) (root : Symbol) : Occurs P root root :=
  ⟨[root], .refl P [root], List.mem_singleton_self root⟩

/-- Every symbol of a derived sequence ends a path from a symbol of the first one. -/
theorem Derives.exists_path (h : Derives P xs ys) (hs : s ∈ ys) :
    ∃ x ∈ xs, Relation.ReflTransGen (Produces P) x s := by
  induction h generalizing s with
  | refl => exact ⟨s, hs, .refl⟩
  | tail _ step ih =>
      obtain @⟨p, before, after, hp⟩ := step
      rw [List.mem_append, List.mem_append] at hs
      rcases hs with (hbefore | hbody) | hafter
      · exact ih (List.mem_append_left _ hbefore)
      · obtain ⟨x, hx, path⟩ := ih (s := p.lhs) (List.mem_append_right before List.mem_cons_self)
        exact ⟨x, hx, path.tail ⟨p, hp, rfl, hbody⟩⟩
      · exact ih (List.mem_append_right before (List.mem_cons_of_mem p.lhs hafter))

/-- Where a symbol occurs, the symbols of its bodies occur too. -/
theorem Occurs.tail {a : Symbol} (h : Occurs P root a) (step : Produces P a s) :
    Occurs P root s := by
  obtain ⟨form, derives, ha⟩ := h
  obtain ⟨p, hp, rfl, hs⟩ := step
  obtain ⟨before, after, rfl⟩ := List.append_of_mem ha
  have replaced : Derives P [root] (before ++ p.rhs ++ after) :=
    Relation.ReflTransGen.tail derives (.replace before after hp)
  exact ⟨_, replaced, List.mem_append_left after (List.mem_append_right before hs)⟩

/-- Occurrence and paths are the same. -/
theorem occurs_iff_path : Occurs P root s ↔ Relation.ReflTransGen (Produces P) root s := by
  constructor
  · intro ⟨form, derives, hs⟩
    obtain ⟨x, hx, path⟩ := derives.exists_path hs
    rwa [List.mem_singleton.mp hx] at path
  · intro path
    induction path with
    | refl => exact occurs_self P root
    | tail _ step ih => exact ih.tail step

namespace Grammar

variable {ο : Type}

/-! ## the check -/

/-- The symbols to blame are those that occur in nothing that a start symbol derives. -/
theorem mem_unreachable_iff_not_occurs (g : Grammar ο) (s : Symbol) :
    s ∈ g.unreachable ↔
      s ∈ g.symbols ∧ ¬ ∃ start ∈ g.starts, Occurs g.productions start s := by
  simp only [mem_unreachable, mem_reachable, occurs_iff_path]

/-- **The check finds the symbols that no start symbol leads to**: it passes if and only if
every symbol of the grammar occurs in some sequence that a start symbol derives, and
otherwise names exactly those that occur in none.  So it names no start symbol, known or
unknown, and no symbol that only levels and anchors mention. -/
theorem checkReachability_verdict (history : List (Declaration ο)) :
    let g := replay history
    (g.checkReachability.value = .ok () ↔
        ∀ s ∈ g.symbols, ∃ start ∈ g.starts, Occurs g.productions start s) ∧
      (g.checkReachability.value = .ok () ∨
        ∃ orphans, g.checkReachability.value = .error (.unreachable orphans) ∧
          (∀ s, s ∈ orphans ↔
            s ∈ g.symbols ∧ ¬ ∃ start ∈ g.starts, Occurs g.productions start s) ∧
          ∀ s ∈ orphans, s ∉ g.starts ∧ ∃ r, .rule r ∈ history ∧ (s = r.lhs ∨ s ∈ r.rhs)) := by
  intro g
  obtain ⟨hok, herror⟩ := Check.blame_verdict .unreachable g.mem_unreachable_iff_not_occurs
  refine ⟨hok.trans (by simp only [not_and, Classical.not_not]), herror.imp_right ?_⟩
  rintro ⟨orphans, hblamed, hexact⟩
  refine ⟨orphans, hblamed, hexact, fun s hs => ?_⟩
  obtain ⟨hsymbol, hnowhere⟩ := (hexact s).mp hs
  obtain ⟨p, hp, hmentioned⟩ := ((coherent_replay history).mem_symbols s).mp hsymbol
  obtain ⟨r, hr, rfl⟩ := List.mem_map.mp hp
  exact ⟨fun hstart => hnowhere ⟨s, hstart, occurs_self g.productions s⟩,
    r, mem_rules_replay hr, hmentioned⟩

end Grammar

end LRGrammar
