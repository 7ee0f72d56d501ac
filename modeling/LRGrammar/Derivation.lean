import LRGrammar.Production
import Mathlib.Logic.Relation

/-!
# LRGrammar.Derivation

What the productions mean: a sequence of symbols is rewritten by replacing one
occurrence of a left-hand side by a right-hand side, and derives whatever can be
reached by such steps.

* `Derives.append` — two sequences in a row derive what each of them derives, in a row;
* `Derives.exists_append` — and nothing else;
* `Derives.mono` — more productions derive more;
* `derives_singleton_iff`, `derives_nil_iff` — what a single symbol derives, and what
  derives the empty sequence.
-/

namespace LRGrammar

/-- Replace one occurrence of a left-hand side by a right-hand side. -/
inductive Rewrites (productions : List Production) : List Symbol → List Symbol → Prop where
  | replace {p : Production} (before after : List Symbol) (h : p ∈ productions) :
      Rewrites productions (before ++ p.lhs :: after) (before ++ p.rhs ++ after)

/-- Rewrite any number of times. -/
def Derives (productions : List Production) : List Symbol → List Symbol → Prop :=
  Relation.ReflTransGen (Rewrites productions)

/-- The symbol derives the empty sequence. -/
def DerivesEmpty (productions : List Production) (s : Symbol) : Prop :=
  Derives productions [s] []

/-! ## rewriting inside a sequence -/

namespace Rewrites

variable {P Q : List Production} {xs ys : List Symbol}

/-- A step may be taken behind other symbols. -/
theorem append_left (h : Rewrites P xs ys) (before : List Symbol) :
    Rewrites P (before ++ xs) (before ++ ys) := by
  obtain ⟨pre, post, hp⟩ := h
  simpa using Rewrites.replace (before ++ pre) post hp

/-- A step may be taken before other symbols. -/
theorem append_right (h : Rewrites P xs ys) (after : List Symbol) :
    Rewrites P (xs ++ after) (ys ++ after) := by
  obtain ⟨pre, post, hp⟩ := h
  simpa using Rewrites.replace pre (post ++ after) hp

/-- More productions allow all the steps. -/
theorem mono (h : Rewrites P xs ys) (hPQ : P ⊆ Q) : Rewrites Q xs ys := by
  obtain ⟨pre, post, hp⟩ := h
  exact .replace pre post (hPQ hp)

/-- A step in two sequences in a row is a step in one of them. -/
theorem append_cases {zs : List Symbol} (h : Rewrites P (xs ++ ys) zs) :
    (∃ us, Rewrites P xs us ∧ zs = us ++ ys) ∨ (∃ vs, Rewrites P ys vs ∧ zs = xs ++ vs) := by
  generalize hw : xs ++ ys = ws at h
  obtain ⟨pre, post, hp⟩ := h
  rename_i p
  rcases List.append_eq_append_iff.mp hw with ⟨mid, rfl, rfl⟩ | ⟨mid, rfl, hmid⟩
  · exact .inr ⟨_, .replace mid post hp, by simp⟩
  · cases mid with
    | nil =>
        simp only [List.nil_append] at hmid
        subst hmid
        exact .inr ⟨_, .replace [] post hp, by simp⟩
    | cons x mid =>
        obtain ⟨rfl, rfl⟩ : p.lhs = x ∧ post = mid ++ ys := by simpa using hmid
        exact .inl ⟨_, .replace pre mid hp, by simp⟩

end Rewrites

/-- A single symbol is replaced by the body of a production. -/
theorem rewrites_singleton_iff {P : List Production} {a : Symbol} {ys : List Symbol} :
    Rewrites P [a] ys ↔ ⟨a, ys⟩ ∈ P := by
  constructor
  · intro h
    generalize hform : [a] = form at h
    obtain @⟨p, before, after, hp⟩ := h
    -- the replaced occurrence is all there is
    obtain ⟨rfl, rfl, rfl⟩ : before = [] ∧ p.lhs = a ∧ after = [] := by
      cases before with
      | nil => simpa [eq_comm] using hform
      | cons y rest => simp at hform
    simpa using hp
  · intro h
    simpa using Rewrites.replace [] [] h

/-! ## derivations inside a sequence -/

namespace Derives

variable {P Q : List Production} {xs ys us vs zs : List Symbol}

theorem refl (P : List Production) (xs : List Symbol) : Derives P xs xs :=
  Relation.ReflTransGen.refl

theorem trans (h : Derives P xs ys) (k : Derives P ys zs) : Derives P xs zs :=
  Relation.ReflTransGen.trans h k

/-- A left-hand side derives its right-hand sides. -/
theorem of_mem {p : Production} (h : p ∈ P) : Derives P [p.lhs] p.rhs :=
  .single (by simpa using Rewrites.replace [] [] h)

/-- A derivation may go on behind other symbols. -/
theorem append_left (h : Derives P xs ys) (before : List Symbol) :
    Derives P (before ++ xs) (before ++ ys) := by
  induction h with
  | refl => exact refl P _
  | tail _ step ih => exact ih.tail (step.append_left before)

/-- A derivation may go on before other symbols. -/
theorem append_right (h : Derives P xs ys) (after : List Symbol) :
    Derives P (xs ++ after) (ys ++ after) := by
  induction h with
  | refl => exact refl P _
  | tail _ step ih => exact ih.tail (step.append_right after)

/-- Two sequences in a row derive what each of them derives, in a row. -/
theorem append (h : Derives P xs us) (k : Derives P ys vs) : Derives P (xs ++ ys) (us ++ vs) :=
  (h.append_right ys).trans (k.append_left us)

/-- More productions derive more. -/
theorem mono (h : Derives P xs ys) (hPQ : P ⊆ Q) : Derives Q xs ys := by
  induction h with
  | refl => exact refl Q _
  | tail _ step ih => exact ih.tail (step.mono hPQ)

/-- What two sequences in a row derive falls into what each of them derives. -/
theorem exists_append (h : Derives P (xs ++ ys) zs) :
    ∃ us vs, zs = us ++ vs ∧ Derives P xs us ∧ Derives P ys vs := by
  induction h with
  | refl => exact ⟨xs, ys, rfl, refl P xs, refl P ys⟩
  | tail _ step ih =>
      obtain ⟨us, vs, rfl, hus, hvs⟩ := ih
      rcases step.append_cases with ⟨us', left, rfl⟩ | ⟨vs', right, rfl⟩
      · exact ⟨us', vs, rfl, hus.tail left, hvs⟩
      · exact ⟨us, vs', rfl, hus, hvs.tail right⟩

end Derives

/-- A symbol derives itself, and what the bodies for it derive. -/
theorem derives_singleton_iff {P : List Production} {a : Symbol} {ys : List Symbol} :
    Derives P [a] ys ↔ ys = [a] ∨ ∃ p ∈ P, p.lhs = a ∧ Derives P p.rhs ys := by
  constructor
  · intro h
    cases Relation.ReflTransGen.cases_head h with
    | inl hsame => exact .inl hsame.symm
    | inr hstep =>
        obtain ⟨body, step, rest⟩ := hstep
        exact .inr ⟨⟨a, body⟩, rewrites_singleton_iff.mp step, rfl, rest⟩
  · rintro (rfl | ⟨p, hp, rfl, h⟩)
    · exact .refl P [a]
    · exact (Derives.of_mem hp).trans h

/-- A sequence derives nothing at all exactly when each of its symbols does. -/
theorem derives_nil_iff {P : List Production} {xs : List Symbol} :
    Derives P xs [] ↔ ∀ x ∈ xs, DerivesEmpty P x := by
  induction xs with
  | nil => simp [Derives.refl]
  | cons x rest ih =>
      rw [List.forall_mem_cons, ← ih]
      constructor
      · intro h
        obtain ⟨us, vs, hnil, hus, hvs⟩ := @Derives.exists_append P [x] rest [] h
        obtain ⟨rfl, rfl⟩ := List.append_eq_nil_iff.mp hnil.symm
        exact ⟨hus, hvs⟩
      · rintro ⟨hx, hrest⟩
        exact @Derives.append P [x] rest [] [] hx hrest

end LRGrammar
