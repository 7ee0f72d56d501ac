import LRGrammar.Proofs.ActionText
import LRGrammar.RuleTable

/-!
# LRGrammar.Proofs.Table.Cells

What stands in the cells of the rule table, and when it can be read back.  A body is read
back if its symbols have names without blanks (`PlainName`), and a text that was set to the
right of a column if it does not begin with a blank itself.

* `mem_sequenceText`, `Rule.mem_cells` — which characters the cells are written with;
* `symbols_eq_of_sequenceText_eq` — the symbols of a body can be read off its text;
* `RuleTable.RightAligned.text_eq` — a text can be read off its cell.
-/

namespace LRGrammar

variable {c : Char} {symbols others : List Symbol} {tag : Symbol}

/-! ## bodies -/

theorem toList_sequenceText_of_ne_nil (h : symbols ≠ []) :
    (sequenceText symbols).toList = [' '].intercalate (symbols.map String.toList) := by
  rw [sequenceText, if_neg (mt List.isEmpty_iff.mp h), String.toList_intercalate]
  rfl

/-- A body is written with the names of its symbols and blanks between them, or as `ε`. -/
theorem mem_sequenceText (h : c ∈ (sequenceText symbols).toList) :
    c ∈ ['ε', ' '] ∨ ∃ s ∈ symbols, c ∈ s.toList := by
  cases symbols with
  | nil => exact .inl (List.mem_append_left [' '] h)
  | cons s rest =>
      rw [toList_sequenceText_of_ne_nil (List.cons_ne_nil s rest)] at h
      rcases mem_or_mem_of_mem_intercalate h with h | ⟨part, hpart, h⟩
      · exact .inl (List.mem_append_right ['ε'] h)
      · obtain ⟨name, hname, rfl⟩ := List.mem_map.mp hpart
        exact .inr ⟨name, hname, h⟩

/-- A name that can be told from what stands around it in the rule table.  Every name without
whitespace is such, if it has no bar, is not empty and is not the one that is written for
an empty body. -/
structure PlainName (s : Symbol) : Prop where
  ne_empty : s ≠ ""
  ne_epsilon : s ≠ "ε"
  no_blank : ' ' ∉ s.toList
  no_newline : '\n' ∉ s.toList
  no_bar : '│' ∉ s.toList

/-- A tag that can be told from what stands around it in the rule table.  It may hold blanks,
but not begin with one. -/
structure PlainTag (tag : Symbol) : Prop where
  head_ne_blank : tag.toList.head? ≠ some ' '
  no_newline : '\n' ∉ tag.toList
  no_bar : '│' ∉ tag.toList

instance (s : Symbol) : Decidable (PlainName s) :=
  decidable_of_iff (s ≠ "" ∧ s ≠ "ε" ∧ ' ' ∉ s.toList ∧ '\n' ∉ s.toList ∧ '│' ∉ s.toList)
    ⟨fun ⟨hempty, hepsilon, hblank, hnewline, hbar⟩ => ⟨hempty, hepsilon, hblank, hnewline, hbar⟩,
      fun h => ⟨h.ne_empty, h.ne_epsilon, h.no_blank, h.no_newline, h.no_bar⟩⟩

instance (tag : Symbol) : Decidable (PlainTag tag) :=
  decidable_of_iff (tag.toList.head? ≠ some ' ' ∧ '\n' ∉ tag.toList ∧ '│' ∉ tag.toList)
    ⟨fun ⟨hhead, hnewline, hbar⟩ => ⟨hhead, hnewline, hbar⟩,
      fun h => ⟨h.head_ne_blank, h.no_newline, h.no_bar⟩⟩

/-- No body of plain names is written as the empty one is. -/
theorem sequenceText_ne_epsilon (hne : symbols ≠ []) (h : ∀ s ∈ symbols, PlainName s) :
    sequenceText symbols ≠ "ε" := by
  intro heq
  have hlists := congrArg String.toList heq
  rw [toList_sequenceText_of_ne_nil hne] at hlists
  match symbols with
  | [s] =>
      have hs : s.toList = "ε".toList := by simpa using hlists
      exact (h s List.mem_cons_self).ne_epsilon (String.toList_inj.mp hs)
  | s :: next :: rest =>
      have hblank : ' ' ∈ [' '].intercalate ((s :: next :: rest).map String.toList) := by
        simp [List.intercalate_cons_cons]
      rw [hlists] at hblank
      exact absurd hblank (by decide)

/-- The symbols of a body can be read off its text. -/
theorem symbols_eq_of_sequenceText_eq (hsymbols : ∀ s ∈ symbols, PlainName s)
    (hothers : ∀ s ∈ others, PlainName s) (h : sequenceText symbols = sequenceText others) :
    symbols = others := by
  by_cases hempty : symbols = []
  · by_cases hempty' : others = []
    · rw [hempty, hempty']
    · rw [hempty] at h
      exact absurd h.symm (sequenceText_ne_epsilon hempty' hothers)
  · by_cases hempty' : others = []
    · rw [hempty'] at h
      exact absurd h (sequenceText_ne_epsilon hempty hsymbols)
    · have hlists := congrArg String.toList h
      rw [toList_sequenceText_of_ne_nil hempty, toList_sequenceText_of_ne_nil hempty'] at hlists
      have no_blank : ∀ names : List Symbol, (∀ s ∈ names, PlainName s) →
          ∀ part ∈ names.map String.toList, ' ' ∉ part := by
        intro names hnames part hpart
        obtain ⟨s, hs, rfl⟩ := List.mem_map.mp hpart
        exact (hnames s hs).no_blank
      have hparts := eq_of_intercalate_eq [] [] List.not_mem_nil (no_blank symbols hsymbols)
        (no_blank others hothers) (mt List.map_eq_nil_iff.mp hempty)
        (mt List.map_eq_nil_iff.mp hempty') hlists
      exact (List.map_inj_right fun _ _ => String.toList_inj.mp).mp hparts

/-- A name with a blank is taken for two. -/
example : sequenceText ["else", "if"] = sequenceText ["else if"] := by decide

/-! ## cells -/

variable {ο : Type} {r : Rule ο} {id : Nat} {text : String}

/-- The cells of a rule are written with its names, its tag, digits, and the signs that stand
between these. -/
theorem Rule.mem_cells (htext : text ∈ r.cells id) (h : c ∈ text.toList) :
    c ∈ ['ε', ',', ' ', '$', '(', ')'] ∨ c.isDigit ∨
      (∃ s, (s = r.lhs ∨ s ∈ r.rhs) ∧ c ∈ s.toList) ∨
      ∃ tag places, r.action = .construct tag places ∧ c ∈ tag.toList := by
  simp only [cells, List.mem_cons, List.not_mem_nil, or_false] at htext
  rcases htext with rfl | rfl | rfl | rfl
  · exact .inr (.inl (Action.isDigit_of_mem_repr h))
  · exact .inr (.inr (.inl ⟨r.lhs, .inl rfl, h⟩))
  · rcases mem_sequenceText h with hsign | ⟨s, hs, hc⟩
    · have hsub : ['ε', ' '] ⊆ ['ε', ',', ' ', '$', '(', ')'] := by decide
      exact .inl (hsub hsign)
    · exact .inr (.inr (.inl ⟨s, .inr hs, hc⟩))
  · rcases Action.mem_text h with hsign | hdigit | htag
    · exact .inl (List.mem_cons_of_mem 'ε' hsign)
    · exact .inr (.inl hdigit)
    · exact .inr (.inr (.inr htag))

/-- A body of plain names does not begin with a blank, nor does the empty one. -/
theorem head?_sequenceText_ne_blank (h : ∀ s ∈ symbols, PlainName s) :
    (sequenceText symbols).toList.head? ≠ some ' ' := by
  cases symbols with
  | nil => decide
  | cons s rest =>
      have hs := h s List.mem_cons_self
      obtain ⟨front, back, hname⟩ := List.exists_cons_of_ne_nil
        (mt String.toList_eq_nil_iff.mp hs.ne_empty)
      intro hhead
      have hfront : (sequenceText (s :: rest)).toList.head? = some front := by
        rw [toList_sequenceText_of_ne_nil (List.cons_ne_nil s rest), List.map_cons, hname]
        cases rest with
        | nil => rfl
        | cons next rest => rw [List.map_cons, List.intercalate_cons_cons]; rfl
      rw [hfront, Option.some.injEq] at hhead
      exact hs.no_blank (by rw [hname, hhead]; exact List.mem_cons_self)

/-- No action begins with a blank, if its tag does not. -/
theorem Action.head?_text_ne_blank {a : Action}
    (h : ∀ tag places, a = .construct tag places → tag.toList.head? ≠ some ' ') :
    a.text.toList.head? ≠ some ' ' := by
  cases a with
  | rename position => rw [toList_text_rename, List.head?_cons]; decide
  | construct tag places =>
      rw [toList_text_construct, List.head?_append]
      have htag := h tag places rfl
      cases hhead : tag.toList.head? with
      | none => rw [Option.none_or, List.head?_cons]; decide
      | some front => rw [Option.some_or, ← hhead]; exact htag

/-- No cell begins with a blank, if names and tag are plain. -/
theorem Rule.head?_ne_blank (hnames : ∀ s, s = r.lhs ∨ s ∈ r.rhs → PlainName s)
    (htag : ∀ tag places, r.action = .construct tag places → PlainTag tag)
    (htext : text ∈ r.cells id) : text.toList.head? ≠ some ' ' := by
  simp only [cells, List.mem_cons, List.not_mem_nil, or_false] at htext
  rcases htext with rfl | rfl | rfl | rfl
  · intro hhead
    exact absurd (Action.isDigit_of_mem_repr (List.mem_of_head? hhead)) (by decide)
  · intro hhead
    exact (hnames r.lhs (.inl rfl)).no_blank (List.mem_of_head? hhead)
  · exact head?_sequenceText_ne_blank fun s hs => hnames s (.inr hs)
  · exact Action.head?_text_ne_blank fun tag places h => (htag tag places h).head_ne_blank

namespace RuleTable

/-- The text stands at the right end of a column of the width, behind nothing but blanks. -/
def RightAligned (width : Nat) (text : String) (cell : List Char) : Prop :=
  ∃ blanks, blanks + text.length = width ∧ cell = List.replicate blanks ' ' ++ text.toList

/-- A text that does not begin with a blank can be read off its cell. -/
theorem RightAligned.text_eq {width width' : Nat} {text' : String} {cell : List Char}
    (h : RightAligned width text cell) (h' : RightAligned width' text' cell)
    (hhead : text.toList.head? ≠ some ' ') (hhead' : text'.toList.head? ≠ some ' ') :
    text = text' := by
  have read : ∀ (blanks : Nat) (xs : List Char), xs.head? ≠ some ' ' →
      (List.replicate blanks ' ' ++ xs).dropWhile (· = ' ') = xs := by
    intro blanks xs hxs
    have hblanks : ∀ x ∈ List.replicate blanks ' ', decide (x = ' ') = true :=
      fun x hx => decide_eq_true (List.eq_of_mem_replicate hx)
    rw [List.dropWhile_append_of_pos hblanks]
    cases xs with
    | nil => rfl
    | cons x xs => exact List.dropWhile_cons_of_neg (by simpa using hxs)
  obtain ⟨blanks, -, hcell⟩ := h
  obtain ⟨blanks', -, rfl⟩ := h'
  have hread := congrArg (List.dropWhile (· = ' ')) hcell
  rw [read _ _ hhead, read _ _ hhead'] at hread
  exact String.toList_inj.mp hread.symm

end RuleTable

end LRGrammar
