import LRGrammar.Derivation

/-!
# LRGrammar.Proofs.Leading

What a derived sequence can begin with, told by single productions: a left-hand
side begins with a symbol of a right-hand side if everything before that symbol
can vanish.

* `DerivesEmpty.of_closed` — the symbols that derive the empty sequence are the
  least set that holds the left-hand side wherever it holds the whole body;
* `derives_cons_iff` — a symbol derives a sequence that begins with another one
  exactly when single steps of beginning lead from the one to the other.
-/

namespace LRGrammar

/-! ## vanishing -/

/-- A left-hand side derives the empty sequence if its whole body does. -/
theorem derivesEmpty_of_mem {P : List Production} {p : Production} (hp : p ∈ P)
    (h : ∀ x ∈ p.rhs, DerivesEmpty P x) : DerivesEmpty P p.lhs :=
  (Derives.of_mem hp).trans (derives_nil_iff.mpr h)

/-- A set of symbols that holds a left-hand side wherever it holds the whole body
holds all symbols of a sequence if it holds all symbols of one that it derives. -/
theorem Derives.forall_mem_of_closed {P : List Production} {N : Symbol → Prop}
    (closed : ∀ p ∈ P, (∀ x ∈ p.rhs, N x) → N p.lhs) {xs ys : List Symbol}
    (h : Derives P xs ys) (hys : ∀ y ∈ ys, N y) : ∀ x ∈ xs, N x := by
  induction h using Relation.ReflTransGen.head_induction_on with
  | refl => exact hys
  | head step _ ih =>
      obtain ⟨before, after, hp⟩ := step
      intro x hx
      rw [List.mem_append, List.mem_cons] at hx
      rcases hx with hx | rfl | hx
      · exact ih x (by simp [hx])
      · exact closed _ hp fun y hy => ih y (by simp [hy])
      · exact ih x (by simp [hx])

theorem DerivesEmpty.of_closed {P : List Production} {N : Symbol → Prop} {s : Symbol}
    (h : DerivesEmpty P s) (closed : ∀ p ∈ P, (∀ x ∈ p.rhs, N x) → N p.lhs) : N s :=
  Derives.forall_mem_of_closed closed h (fun _ hy => absurd hy List.not_mem_nil) s
    List.mem_cons_self

/-! ## beginning -/

/-- By one production, a phrase of `s` can begin with a phrase of `x`: all that
stands before `x` can vanish. -/
def Begins (P : List Production) (s x : Symbol) : Prop :=
  ∃ p ∈ P, ∃ before after, p.lhs = s ∧ p.rhs = before ++ x :: after ∧
    ∀ y ∈ before, DerivesEmpty P y

theorem Begins.derives {P : List Production} {s x : Symbol} (h : Begins P s x) :
    ∃ after, Derives P [s] (x :: after) := by
  obtain ⟨p, hp, before, after, rfl, hrhs, hbefore⟩ := h
  refine ⟨after, (Derives.of_mem hp).trans ?_⟩
  rw [hrhs]
  exact (derives_nil_iff.mpr hbefore).append_right (x :: after)

/-- What something begins with stands on a right-hand side. -/
theorem Begins.exists_mem_rhs {P : List Production} {s x : Symbol} (h : Begins P s x) :
    ∃ p ∈ P, x ∈ p.rhs := by
  obtain ⟨p, hp, before, after, -, hrhs, -⟩ := h
  refine ⟨p, hp, ?_⟩
  rw [hrhs]
  exact List.mem_append_right before List.mem_cons_self

/-- An occurrence of a symbol in two sequences in a row is in one of them. -/
theorem append_eq_append_cons {α : Type} {xs ys before after : List α} {x : α}
    (h : xs ++ ys = before ++ x :: after) :
    (∃ rest, xs = before ++ x :: rest ∧ after = rest ++ ys) ∨
      (∃ rest, before = xs ++ rest ∧ ys = rest ++ x :: after) := by
  rcases List.append_eq_append_iff.mp h with ⟨rest, hbefore, hys⟩ | ⟨rest, hxs, hcons⟩
  · exact .inr ⟨rest, hbefore, hys⟩
  · cases rest with
    | nil => exact .inr ⟨[], by simpa using hxs.symm, by simpa using hcons.symm⟩
    | cons y rest =>
        obtain ⟨rfl, rfl⟩ : x = y ∧ after = rest ++ ys := by simpa using hcons
        exact .inl ⟨rest, hxs, rfl⟩

/-- The first symbol of a derived sequence comes from a symbol of the sequence that
it was derived from, with nothing left before it. -/
theorem Derives.exists_front {P : List Production} {xs : List Symbol} {t : Symbol}
    {tail : List Symbol} (h : Derives P xs (t :: tail)) :
    ∃ before x after, xs = before ++ x :: after ∧ (∀ y ∈ before, DerivesEmpty P y) ∧
      Relation.ReflTransGen (Begins P) x t := by
  induction h using Relation.ReflTransGen.head_induction_on with
  | refl => exact ⟨[], t, tail, rfl, fun y hy => absurd hy List.not_mem_nil, .refl⟩
  | head step _ ih =>
      obtain ⟨before, x, after, hys, hbefore, path⟩ := ih
      obtain @⟨p, pre, post, hp⟩ := step
      rw [List.append_assoc] at hys
      -- `x` stands before the body that was put in, in it, or behind it
      rcases append_eq_append_cons hys with ⟨rest, rfl, rfl⟩ | ⟨middle, rfl, hmiddle⟩
      · exact ⟨before, x, rest ++ p.lhs :: post, by simp, hbefore, path⟩
      · have hpre : ∀ y ∈ pre, DerivesEmpty P y := fun y hy =>
          hbefore y (List.mem_append_left _ hy)
        rcases append_eq_append_cons hmiddle with ⟨rest, hrhs, -⟩ | ⟨rest, rfl, rfl⟩
        · have begins : Begins P p.lhs x := ⟨p, hp, middle, rest, rfl, hrhs,
            fun y hy => hbefore y (List.mem_append_right _ hy)⟩
          exact ⟨pre, p.lhs, post, rfl, hpre, .head begins path⟩
        · have hlhs : DerivesEmpty P p.lhs := derivesEmpty_of_mem hp fun y hy =>
            hbefore y (by simp [hy])
          refine ⟨pre ++ p.lhs :: rest, x, after, by simp, fun y hy => ?_, path⟩
          rw [List.mem_append, List.mem_cons] at hy
          rcases hy with hy | rfl | hy
          · exact hpre y hy
          · exact hlhs
          · exact hbefore y (by simp [hy])

/-- A symbol derives a sequence that begins with `t` exactly when it comes down to
`t` by steps of beginning. -/
theorem derives_cons_iff {P : List Production} {s t : Symbol} :
    (∃ tail, Derives P [s] (t :: tail)) ↔ Relation.ReflTransGen (Begins P) s t := by
  constructor
  · intro ⟨tail, h⟩
    obtain ⟨before, x, after, hs, -, path⟩ := h.exists_front
    cases before with
    | nil =>
        obtain ⟨rfl, -⟩ : s = x ∧ [] = after := by simpa using hs
        exact path
    | cons y before => simp at hs
  · intro path
    induction path with
    | refl => exact ⟨[], .refl P [s]⟩
    | tail _ begins ih =>
        obtain ⟨tail, h⟩ := ih
        obtain ⟨after, h'⟩ := begins.derives
        exact ⟨after ++ tail, h.trans (h'.append_right tail)⟩

end LRGrammar
