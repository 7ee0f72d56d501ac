/-!
# LRGrammar.Proofs.Joined

Lists that are put together from parts, with a mark between the parts or behind each of
them.  Where no part contains the mark, the whole tells the parts.

* `eq_and_eq_of_append_cons_eq` — a list is cut at its first mark in one way;
* `List.intercalate` is one-to-one on parts without a mark (`eq_of_intercalate_eq`), where
  the separator contains it;
* `eq_of_flatMap_append_eq` — and so is ending every part with the mark.
-/

namespace LRGrammar

variable {α : Type} {mark : α}

/-- A list is cut at its first mark in one way only. -/
theorem eq_and_eq_of_append_cons_eq {xs ys rest rest' : List α} (hxs : mark ∉ xs)
    (hys : mark ∉ ys) (h : xs ++ mark :: rest = ys ++ mark :: rest') : xs = ys ∧ rest = rest' := by
  induction xs generalizing ys with
  | nil =>
      cases ys with
      | nil => exact ⟨rfl, (List.cons.inj h).2⟩
      | cons y ys =>
          have hy : mark = y := (List.cons.inj h).1
          exact absurd (hy ▸ List.mem_cons_self) hys
  | cons x xs ih =>
      cases ys with
      | nil =>
          have hx : x = mark := (List.cons.inj h).1
          exact absurd (hx ▸ List.mem_cons_self) hxs
      | cons y ys =>
          obtain ⟨rfl, htail⟩ := List.cons.inj h
          obtain ⟨rfl, hrest⟩ := ih (List.not_mem_of_not_mem_cons hxs)
            (List.not_mem_of_not_mem_cons hys) htail
          exact ⟨rfl, hrest⟩

/-! ## parts with a separator between them -/

/-- What stands in a joined list stands in the separator or in a part. -/
theorem mem_or_mem_of_mem_intercalate {separator : List α} {parts : List (List α)} {x : α}
    (h : x ∈ separator.intercalate parts) : x ∈ separator ∨ ∃ part ∈ parts, x ∈ part := by
  induction parts with
  | nil => exact absurd h List.not_mem_nil
  | cons part parts ih =>
      cases parts with
      | nil =>
          rw [List.intercalate_singleton] at h
          exact .inr ⟨part, List.mem_cons_self, h⟩
      | cons next parts =>
          rw [List.intercalate_cons_cons, List.mem_append, List.mem_append] at h
          rcases h with (h | h) | h
          · exact .inr ⟨part, List.mem_cons_self, h⟩
          · exact .inl h
          · exact (ih h).imp_right fun ⟨p, hp, hx⟩ => ⟨p, List.mem_cons_of_mem part hp, hx⟩

/-- Parts without the mark can be read off what they are joined to. -/
theorem eq_of_intercalate_eq (before after : List α) (hbefore : mark ∉ before)
    {parts others : List (List α)} (hparts : ∀ part ∈ parts, mark ∉ part)
    (hothers : ∀ part ∈ others, mark ∉ part) (hne : parts ≠ []) (hne' : others ≠ [])
    (h : (before ++ mark :: after).intercalate parts =
      (before ++ mark :: after).intercalate others) : parts = others := by
  induction parts generalizing others with
  | nil => exact absurd rfl hne
  | cons x parts ih =>
      cases others with
      | nil => exact absurd rfl hne'
      | cons y others =>
          have hx : mark ∉ x := hparts x List.mem_cons_self
          have hy : mark ∉ y := hothers y List.mem_cons_self
          cases parts with
          | nil =>
              cases others with
              | nil => simpa only [List.intercalate_singleton, List.cons.injEq, and_true] using h
              | cons y' others =>
                  rw [List.intercalate_singleton, List.intercalate_cons_cons] at h
                  -- the one part would hold the mark of a separator
                  exact absurd (by simp [h]) hx
          | cons x' parts =>
              cases others with
              | nil =>
                  rw [List.intercalate_singleton, List.intercalate_cons_cons] at h
                  exact absurd (by simp [← h]) hy
              | cons y' others =>
                  -- both wholes are cut at their first mark, inside the first separator
                  simp only [List.intercalate_cons_cons, ← List.append_assoc] at h
                  simp only [List.append_assoc (_ ++ before), List.cons_append] at h
                  obtain ⟨hfront, hback⟩ := eq_and_eq_of_append_cons_eq
                    (List.not_mem_append hx hbefore) (List.not_mem_append hy hbefore) h
                  rw [List.append_cancel_right hfront,
                    ih (fun part hpart => hparts part (List.mem_cons_of_mem x hpart))
                      (fun part hpart => hothers part (List.mem_cons_of_mem y hpart))
                      (List.cons_ne_nil _ _) (List.cons_ne_nil _ _)
                      (List.append_cancel_left hback)]

/-! ## parts that end with a mark -/

theorem eq_of_flatMap_append_eq {parts others : List (List α)}
    (hparts : ∀ part ∈ parts, mark ∉ part) (hothers : ∀ part ∈ others, mark ∉ part)
    (h : (parts.flatMap fun part => part ++ [mark]) = others.flatMap fun part => part ++ [mark]) :
    parts = others := by
  induction parts generalizing others with
  | nil =>
      cases others with
      | nil => rfl
      | cons y others => simp at h
  | cons x parts ih =>
      cases others with
      | nil => simp at h
      | cons y others =>
          rw [List.flatMap_cons, List.flatMap_cons, List.append_assoc, List.append_assoc,
            List.singleton_append, List.singleton_append] at h
          obtain ⟨rfl, hrest⟩ := eq_and_eq_of_append_cons_eq (hparts x List.mem_cons_self)
            (hothers y List.mem_cons_self) h
          rw [ih (fun part hpart => hparts part (List.mem_cons_of_mem x hpart))
            (fun part hpart => hothers part (List.mem_cons_of_mem x hpart)) hrest]

end LRGrammar
