import LRGrammar.Proofs.Table.Cells
import Mathlib.Algebra.GroupWithZero.Nat
import Mathlib.Data.List.Forall2
import Mathlib.Data.List.Induction
import Mathlib.Order.Bounds.Defs

/-!
# LRGrammar.Proofs.Table.Layout

What stands where in the rule table.  Columns are as wide as their widest cell, so a cell is
never wider than its column and every line comes out equally long (`Grammar.LaidOut`).
Under the headings the lines come in sixes: a divider, and the rows of five rules
(`RuleTable.getElem?_body`).

* `RuleTable.isGreatest_widths` — a column is as wide as its widest cell;
* `RuleTable.shows_row` — a row shows its texts at the right ends of the columns;
* `RuleTable.getElem?_firstJoint` — where two lines of different kinds differ;
* `Grammar.laidOut_tableLines` — what stands in which line;
* `Grammar.not_mem_of_mem_tableLines` — no line is broken, if no name is.
-/

namespace LRGrammar

section Intercalate

variable {α : Type} {separator : List α}

/-- A joined list is as long as its parts and the separators between them. -/
theorem length_intercalate {parts : List (List α)} (hne : parts ≠ []) :
    (separator.intercalate parts).length =
      (parts.map List.length).sum + separator.length * (parts.length - 1) := by
  induction parts with
  | nil => exact absurd rfl hne
  | cons part parts ih =>
      cases parts with
      | nil => simp
      | cons next parts =>
          have hlater := ih (List.cons_ne_nil next parts)
          rw [List.length_cons, Nat.add_sub_cancel] at hlater
          rw [List.intercalate_cons_cons, List.length_append, List.length_append, hlater]
          simp only [List.map_cons, List.sum_cons, List.length_cons, Nat.add_sub_cancel,
            Nat.mul_succ]
          omega

/-- The first separator stands right behind the first part. -/
theorem getElem?_intercalate (first second : List α) (parts : List (List α)) {i : Nat}
    (hi : i < separator.length) :
    (separator.intercalate (first :: second :: parts))[first.length + i]? = separator[i]? := by
  rw [List.intercalate_cons_cons, List.append_assoc,
    List.getElem?_append_right (Nat.le_add_right _ _), Nat.add_sub_cancel_left,
    List.getElem?_append_left hi]

end Intercalate

namespace RuleTable

variable {rows : List (List String)} {columns : List Nat} {texts : List String} {k w : Nat}

/-! ## columns -/

/-- Every row has a text for each column. -/
def Full (rows : List (List String)) : Prop := ∀ texts ∈ rows, texts.length = headings.length

/-- How many characters the texts of a column have. -/
def lengths (rows : List (List String)) (k : Nat) : Set Nat :=
  {n | ∃ texts ∈ rows, ∃ text, texts[k]? = some text ∧ text.length = n}

theorem widths_cons :
    widths (texts :: rows) = List.zipWith max (texts.map String.length) (widths rows) :=
  rfl

/-- There is a width for each heading. -/
theorem length_widths (h : Full rows) : (widths rows).length = headings.length := by
  induction rows with
  | nil => rfl
  | cons texts rows ih =>
      have hrow : texts.length = headings.length := h texts List.mem_cons_self
      have hrest := ih fun row hrow => h row (List.mem_cons_of_mem texts hrow)
      rw [widths_cons, List.length_zipWith, List.length_map, hrow, hrest, Nat.min_self]

/-- No text is longer than its column is wide, and one is as long, unless the column is empty. -/
theorem upperBound_widths (hw : (widths rows)[k]? = some w) :
    (∀ n ∈ lengths rows k, n ≤ w) ∧ (w = 0 ∨ w ∈ lengths rows k) := by
  induction rows generalizing w with
  | nil =>
      have hw : (List.replicate headings.length 0)[k]? = some w := hw
      obtain rfl := List.eq_of_mem_replicate (List.mem_of_getElem? hw)
      exact ⟨fun n ⟨texts, hmem, _⟩ => absurd hmem List.not_mem_nil, .inl rfl⟩
  | cons texts rows ih =>
      rw [widths_cons, List.getElem?_zipWith_eq_some] at hw
      obtain ⟨x, y, hx, hy, rfl⟩ := hw
      rw [List.getElem?_map, Option.map_eq_some_iff] at hx
      obtain ⟨text, htext, rfl⟩ := hx
      obtain ⟨hbound, hattained⟩ := ih hy
      constructor
      · rintro n ⟨other, hother, text', htext', rfl⟩
        rcases List.mem_cons.mp hother with rfl | hother
        · rw [htext] at htext'
          rw [Option.some.inj htext']
          exact Nat.le_max_left _ _
        · exact Nat.le_trans (hbound _ ⟨other, hother, text', htext', rfl⟩) (Nat.le_max_right _ _)
      · rcases Nat.le_total y text.length with hle | hle
        · rw [Nat.max_eq_left hle]
          exact .inr ⟨texts, List.mem_cons_self, text, htext, rfl⟩
        · rw [Nat.max_eq_right hle]
          exact hattained.imp_right fun ⟨other, hother, hlength⟩ =>
            ⟨other, List.mem_cons_of_mem texts hother, hlength⟩

/-- A column is as wide as its widest cell, its heading included. -/
theorem isGreatest_widths (hw : (widths (texts :: rows))[k]? = some w) :
    IsGreatest (lengths (texts :: rows) k) w := by
  obtain ⟨hbound, hattained⟩ := upperBound_widths hw
  refine ⟨?_, hbound⟩
  rcases hattained with hempty | hattained
  · rw [widths_cons, List.getElem?_zipWith_eq_some] at hw
    obtain ⟨x, -, hx, -, -⟩ := hw
    rw [List.getElem?_map, Option.map_eq_some_iff] at hx
    obtain ⟨text, htext, -⟩ := hx
    have hmem : text.length ∈ lengths (texts :: rows) k :=
      ⟨texts, List.mem_cons_self, text, htext, rfl⟩
    have hzero : text.length = w := by
      have := hbound _ hmem
      omega
    rwa [hzero] at hmem
  · exact hattained

/-! ## one line -/

/-- The line shows the texts in the columns, one cell each, with bars between them. -/
def Shows (columns : List Nat) (texts : List String) (line : List Char) : Prop :=
  ∃ cells, line = [' ', '│', ' '].intercalate cells ∧
    List.Forall₂ (fun column cell => RightAligned column.1 column.2 cell) (columns.zip texts) cells

/-- No text is longer than its column is wide. -/
def Fits (columns : List Nat) (texts : List String) : Prop :=
  List.Forall₂ (fun column text => String.length text ≤ column) columns texts

/-- A row whose texts fit shows them. -/
theorem shows_row (h : Fits columns texts) : Shows columns texts (row columns texts) := by
  refine ⟨List.zipWith cell columns texts, rfl, ?_⟩
  induction h with
  | nil => exact .nil
  | @cons column text columns texts hle _ ih =>
      refine .cons ⟨column - text.length, Nat.sub_add_cancel hle, ?_⟩ ih
      rw [cell, List.leftpad, String.length_toList]

/-- Cells are as wide as their columns. -/
theorem lengths_cells (h : Fits columns texts) :
    (List.zipWith cell columns texts).map List.length = columns := by
  induction h with
  | nil => rfl
  | cons hle _ ih => rw [List.zipWith_cons_cons, List.map_cons, length_cell hle, ih]

/-- The strokes of a border are as long as the columns are wide. -/
theorem lengths_strokes : (columns.map fun width => List.replicate width '─').map List.length =
    columns := by
  simp [Function.comp_def]

/-- A row is as long as its columns are wide, with three characters between two of them. -/
theorem length_row (h : Fits columns texts) (hne : columns ≠ []) :
    (row columns texts).length = columns.sum + 3 * (columns.length - 1) := by
  have hcells := lengths_cells h
  have hcount := congrArg List.length hcells
  rw [List.length_map] at hcount
  have hparts : List.zipWith cell columns texts ≠ [] :=
    List.ne_nil_of_length_pos (hcount ▸ List.length_pos_iff.mpr hne)
  rw [row, length_intercalate hparts, hcells, hcount]
  rfl

/-- A border is as long as a row. -/
theorem length_border (joint : Char) (hne : columns ≠ []) :
    (border joint columns).length = columns.sum + 3 * (columns.length - 1) := by
  rw [border, length_intercalate (mt List.map_eq_nil_iff.mp hne), lengths_strokes, List.length_map]
  rfl

/-- What stands at the first joint of a line. -/
def firstJoint (columns : List Nat) (chars : List Char) : Option Char := chars[columns.headD 0 + 1]?

/-- Between the first two columns a border has its joint. -/
theorem firstJoint_border (joint : Char) (h : 1 < columns.length) :
    firstJoint columns (border joint columns) = some joint := by
  match columns with
  | first :: second :: columns =>
      have hseparator : 1 < ['─', joint, '─'].length := Nat.le.step .refl
      have hjoint := getElem?_intercalate (List.replicate first '─') (List.replicate second '─')
        (columns.map fun width => List.replicate width '─') hseparator
      rw [List.length_replicate] at hjoint
      exact hjoint

/-- Between the first two columns a row has a bar. -/
theorem firstJoint_row (h : Fits columns texts) (hcolumns : 1 < columns.length) :
    firstJoint columns (row columns texts) = some '│' := by
  match columns, texts, h with
  | first :: second :: columns, text :: next :: texts, .cons hle _ =>
      have hseparator : 1 < [' ', '│', ' '].length := by decide
      have hjoint := getElem?_intercalate (cell first text) (cell second next)
        (List.zipWith cell columns texts) hseparator
      rw [length_cell hle] at hjoint
      exact hjoint

/-! ## all lines -/

/-- The lines between the headings and the last border. -/
def body (columns : List Nat) (rows : List (List String)) : List (List Char) :=
  rows.zipIdx.flatMap fun (texts, id) => ruleLines columns id texts

theorem body_concat : body columns (rows ++ [texts]) =
    body columns rows ++ ruleLines columns rows.length texts := by
  rw [body, List.zipIdx_append, List.flatMap_append, Nat.zero_add]
  simp [body]

/-- Every fifth rule brings a divider, and so does the first. -/
theorem length_body : (body columns rows).length = rows.length + (rows.length + 4) / 5 := by
  induction rows using List.reverseRecOn with
  | nil => rfl
  | append_singleton rows texts ih =>
      rw [body_concat, List.length_append, ih, List.length_append, List.length_singleton]
      by_cases hdivider : rows.length % 5 = 0
      · rw [ruleLines, if_pos hdivider, List.length_cons, List.length_singleton]
        omega
      · rw [ruleLines, if_neg hdivider, List.length_singleton]
        omega

/-- The lines come in sixes: a divider, and the rows of five rules. -/
theorem getElem?_body {j : Nat} (hj : j < rows.length + (rows.length + 4) / 5) :
    (body columns rows)[j]? =
      if j % 6 = 0 then some (border '┼' columns)
      else (rows[j - j / 6 - 1]?).map (row columns) := by
  induction rows using List.reverseRecOn with
  | nil => exact absurd hj (Nat.not_lt_zero j)
  | append_singleton rows texts ih =>
      rw [List.length_append, List.length_singleton] at hj
      rw [body_concat, List.getElem?_append, length_body]
      by_cases hbefore : j < rows.length + (rows.length + 4) / 5
      · -- a line of an earlier rule
        rw [if_pos hbefore, ih hbefore]
        by_cases hdivider : j % 6 = 0
        · rw [if_pos hdivider, if_pos hdivider]
        · have hrow : j - j / 6 - 1 < rows.length := by omega
          rw [if_neg hdivider, if_neg hdivider, List.getElem?_append_left hrow]
      · rw [if_neg hbefore]
        -- a line of the last rule, which may come with a divider
        by_cases hfifth : rows.length % 5 = 0
        · rw [ruleLines, if_pos hfifth]
          by_cases hdivider : j % 6 = 0
          · have hfirst : j - (rows.length + (rows.length + 4) / 5) = 0 := by omega
            rw [if_pos hdivider, hfirst, List.getElem?_cons_zero]
          · have hsecond : j - (rows.length + (rows.length + 4) / 5) = 1 := by omega
            have hrow : j - j / 6 - 1 = rows.length := by omega
            rw [if_neg hdivider, hsecond, hrow, List.getElem?_concat_length]
            rfl
        · have hfirst : j - (rows.length + (rows.length + 4) / 5) = 0 := by omega
          have hdivider : ¬j % 6 = 0 := by omega
          have hrow : j - j / 6 - 1 = rows.length := by omega
          rw [ruleLines, if_neg hfifth, if_neg hdivider, hfirst, hrow, List.getElem?_concat_length]
          rfl

/-- All lines: between the borders the headings, and the body under them. -/
def drawn (columns : List Nat) (rows : List (List String)) : List (List Char) :=
  border '┬' columns :: row columns headings :: (body columns rows ++ [border '┴' columns])

/-- There are three lines besides rows and dividers. -/
theorem length_drawn :
    (drawn columns rows).length = rows.length + 3 + (rows.length + 4) / 5 := by
  rw [drawn, List.length_cons, List.length_cons, List.length_append, length_body,
    List.length_singleton]
  omega

/-- Behind the borders, and the headings, each line draws a row or divides rows. -/
theorem mem_drawn {line : List Char} (h : line ∈ drawn columns rows) :
    (∃ joint ∈ ['┬', '┼', '┴'], line = border joint columns) ∨
      ∃ texts ∈ headings :: rows, line = row columns texts := by
  rw [drawn, List.mem_cons, List.mem_cons, List.mem_append, List.mem_singleton] at h
  rcases h with rfl | rfl | h | rfl
  · exact .inl ⟨'┬', by decide, rfl⟩
  · exact .inr ⟨headings, List.mem_cons_self, rfl⟩
  · obtain ⟨⟨texts, id⟩, hmem, h⟩ := List.mem_flatMap.mp h
    have hrow : texts ∈ headings :: rows := List.mem_cons_of_mem headings
      (List.mem_of_getElem? (List.mem_zipIdx_iff_getElem?.mp hmem))
    have h : line ∈ if id % 5 = 0 then [border '┼' columns, row columns texts]
      else [row columns texts] := h
    split at h
    · rw [List.mem_cons, List.mem_singleton] at h
      exact h.imp (fun heq => ⟨'┼', by decide, heq⟩) fun heq => ⟨texts, hrow, heq⟩
    · exact .inr ⟨texts, hrow, List.mem_singleton.mp h⟩
  · exact .inl ⟨'┴', by decide, rfl⟩

/-- The table is drawn with strokes, bars, blanks, and what its texts are written with. -/
theorem mem_of_mem_drawn {line : List Char} (h : line ∈ drawn columns rows) {c : Char}
    (hc : c ∈ line) : c ∈ ['─', '┬', '┼', '┴', ' ', '│'] ∨
      ∃ texts ∈ headings :: rows, ∃ text ∈ texts, c ∈ text.toList := by
  rcases mem_drawn h with ⟨joint, hjoint, rfl⟩ | ⟨texts, htexts, rfl⟩
  · have hjoints : ['┬', '┼', '┴'] ⊆ ['─', '┬', '┼', '┴', ' ', '│'] := by decide
    rcases mem_or_mem_of_mem_intercalate hc with hc | ⟨part, hpart, hc⟩
    · rcases List.mem_cons.mp hc with rfl | hc
      · exact .inl List.mem_cons_self
      · rcases List.mem_cons.mp hc with rfl | hc
        · exact .inl (hjoints hjoint)
        · rw [List.mem_singleton.mp hc]
          exact .inl List.mem_cons_self
    · obtain ⟨width, -, rfl⟩ := List.mem_map.mp hpart
      rw [List.eq_of_mem_replicate hc]
      exact .inl List.mem_cons_self
  · have hsigns : [' ', '│', ' '] ⊆ ['─', '┬', '┼', '┴', ' ', '│'] := by decide
    rcases mem_or_mem_of_mem_intercalate hc with hc | ⟨part, hpart, hc⟩
    · exact .inl (hsigns hc)
    · obtain ⟨k, hk⟩ := List.mem_iff_getElem?.mp hpart
      obtain ⟨width, text, -, htext, rfl⟩ := List.getElem?_zipWith_eq_some.mp hk
      rcases List.mem_append.mp hc with hc | hc
      · exact .inl (hsigns (by simp [List.eq_of_mem_replicate hc]))
      · exact .inr ⟨texts, htexts, text, List.mem_of_getElem? htext, hc⟩

/-- The body of the table begins with the third line. -/
theorem getElem?_drawn {j : Nat} (hj : j < rows.length + (rows.length + 4) / 5) :
    (drawn columns rows)[j + 2]? =
      if j % 6 = 0 then some (border '┼' columns)
      else (rows[j - j / 6 - 1]?).map (row columns) := by
  have hbody : j < (body columns rows).length := by rw [length_body]; exact hj
  rw [drawn, List.getElem?_cons_succ, List.getElem?_cons_succ, List.getElem?_append_left hbody,
    getElem?_body hj]

/-- The row of a rule comes behind those of all rules before it, and the dividers up to it. -/
theorem getElem?_drawn_row {id : Nat} (h : rows[id]? = some texts) :
    (drawn columns rows)[id + id / 5 + 3]? = some (row columns texts) := by
  have hid : id < rows.length := (List.getElem?_eq_some_iff.mp h).1
  have hbody : id + id / 5 + 1 < rows.length + (rows.length + 4) / 5 := by omega
  have hdivider : ¬(id + id / 5 + 1) % 6 = 0 := by omega
  have hrow : id + id / 5 + 1 - (id + id / 5 + 1) / 6 - 1 = id := by omega
  rw [getElem?_drawn hbody, if_neg hdivider, hrow, h]
  rfl

/-- Dividers stand before the rows of every fifth rule, and nowhere else. -/
theorem getElem?_drawn_eq_divider_iff (hcolumns : 1 < columns.length)
    (hfits : ∀ texts ∈ headings :: rows, Fits columns texts) {i : Nat} :
    (drawn columns rows)[i]? = some (border '┼' columns) ↔
      ∃ id < rows.length, id % 5 = 0 ∧ i + 1 = id + id / 5 + 3 := by
  have border_ne : ∀ joint, joint ≠ '┼' → border joint columns ≠ border '┼' columns := by
    intro joint hjoint heq
    have hsame := congrArg (firstJoint columns) heq
    rw [firstJoint_border joint hcolumns, firstJoint_border '┼' hcolumns] at hsame
    exact hjoint (Option.some.inj hsame)
  have row_ne : ∀ texts ∈ headings :: rows, row columns texts ≠ border '┼' columns := by
    intro texts htexts heq
    have hsame := congrArg (firstJoint columns) heq
    rw [firstJoint_row (hfits texts htexts) hcolumns, firstJoint_border '┼' hcolumns] at hsame
    exact absurd hsame (by decide)
  constructor
  · intro h
    match i with
    | 0 => exact absurd (Option.some.inj h) (border_ne '┬' (by decide))
    | 1 => exact absurd (Option.some.inj h) (row_ne headings List.mem_cons_self)
    | j + 2 =>
        by_cases hj : j < rows.length + (rows.length + 4) / 5
        · rw [getElem?_drawn hj] at h
          by_cases hdivider : j % 6 = 0
          · exact ⟨j - j / 6, by omega, by omega, by omega⟩
          · rw [if_neg hdivider, Option.map_eq_some_iff] at h
            obtain ⟨texts, htexts, heq⟩ := h
            exact absurd heq
              (row_ne texts (List.mem_cons_of_mem headings (List.mem_of_getElem? htexts)))
        -- the last border
        · rw [drawn, List.getElem?_cons_succ, List.getElem?_cons_succ,
            List.getElem?_append_right (by rw [length_body]; omega)] at h
          exact absurd (List.mem_singleton.mp (List.mem_of_getElem? h)).symm
            (border_ne '┴' (by decide))
  · rintro ⟨id, hid, hfifth, hi⟩
    obtain rfl : i = id + id / 5 + 2 := by omega
    have hbody : id + id / 5 < rows.length + (rows.length + 4) / 5 := by omega
    have hdivider : (id + id / 5) % 6 = 0 := by omega
    rw [getElem?_drawn hbody, if_pos hdivider]

/-- Where no text is longer than its column is wide, all texts of the rows fit. -/
theorem fits_widths (h : Full rows) (htexts : texts ∈ rows) : Fits (widths rows) texts := by
  refine List.forall₂_iff_get.mpr ⟨(length_widths h).trans (h texts htexts).symm, ?_⟩
  intro k hk hk'
  have hw : (widths rows)[k]? = some ((widths rows).get ⟨k, hk⟩) := List.getElem?_eq_getElem hk
  have htext : texts[k]? = some (texts.get ⟨k, hk'⟩) := List.getElem?_eq_getElem hk'
  exact (upperBound_widths hw).1 _ ⟨texts, htexts, _, htext, rfl⟩

end RuleTable

namespace Grammar

variable {ο : Type} {g : Grammar ο}

open RuleTable

/-- The rows of the table come in the order of the ids. -/
theorem getElem?_tableRows (g : Grammar ο) (id : Nat) :
    g.tableRows[id]? = (g.rule? id).map (·.cells id) := by
  rw [tableRows, List.getElem?_map, List.getElem?_zipIdx, Option.map_map, Nat.zero_add]
  rfl

theorem length_tableRows (g : Grammar ο) : g.tableRows.length = g.ruleCount := by
  rw [tableRows, List.length_map, List.length_zipIdx, ruleCount]

theorem full_tableRows (g : Grammar ο) : Full (headings :: g.tableRows) := by
  intro texts htexts
  rcases List.mem_cons.mp htexts with rfl | htexts
  · rfl
  · obtain ⟨⟨r, id⟩, -, rfl⟩ := List.mem_map.mp htexts
    rfl

/-- What stands in which line of the rule table, the first one being line zero. -/
structure LaidOut (g : Grammar ο) (columns : List Nat) (lines : List (List Char)) : Prop where
  length_columns : columns.length = 4
  isGreatest : ∀ k w, columns[k]? = some w → IsGreatest (lengths (headings :: g.tableRows) k) w
  length_lines : lines.length = g.ruleCount + 3 + (g.ruleCount + 4) / 5
  length_line : ∀ line ∈ lines, line.length = columns.sum + 9
  top : lines.head? = some (border '┬' columns)
  headings : ∃ line, lines[1]? = some line ∧ Shows columns headings line
  /-- A rule has behind it the first border, the headings, the rules before it, and a
  divider before the first and each fifth rule up to it. -/
  row : ∀ id r, g.rule? id = some r →
    ∃ line, lines[id + id / 5 + 3]? = some line ∧ Shows columns (r.cells id) line
  /-- The dividers stand right before the rows of every fifth rule. -/
  divider : ∀ i, lines[i]? = some (border '┼' columns) ↔
    ∃ id < g.ruleCount, id % 5 = 0 ∧ i + 1 = id + id / 5 + 3
  bottom : lines.getLast? = some (border '┴' columns)

/-- Every rule table is laid out in columns as wide as their widest cells. -/
theorem laidOut_tableLines (g : Grammar ο) :
    g.LaidOut (widths (RuleTable.headings :: g.tableRows)) g.tableLines := by
  have hfull := g.full_tableRows
  have hcolumns := length_widths hfull
  have hwidest : ∀ k w, (widths (RuleTable.headings :: g.tableRows))[k]? = some w →
      IsGreatest (lengths (RuleTable.headings :: g.tableRows) k) w :=
    fun _ _ hw => isGreatest_widths hw
  have hfits : ∀ texts ∈ RuleTable.headings :: g.tableRows,
      Fits (widths (RuleTable.headings :: g.tableRows)) texts :=
    fun _ htexts => fits_widths hfull htexts
  have hdrawn : g.tableLines =
      drawn (widths (RuleTable.headings :: g.tableRows)) g.tableRows := rfl
  rw [hdrawn]
  generalize widths (RuleTable.headings :: g.tableRows) = columns at *
  have hne : columns ≠ [] := List.ne_nil_of_length_pos (hcolumns ▸ by decide)
  have hseveral : 1 < columns.length := hcolumns ▸ by decide
  constructor
  case length_columns => exact hcolumns
  case isGreatest => exact hwidest
  case length_lines => rw [length_drawn, length_tableRows]
  case length_line =>
    intro line hline
    have hgaps : 3 * (columns.length - 1) = 9 := by rw [hcolumns]; rfl
    rcases mem_drawn hline with ⟨joint, -, rfl⟩ | ⟨texts, htexts, rfl⟩
    · rw [length_border joint hne, hgaps]
    · rw [length_row (hfits texts htexts) hne, hgaps]
  case top => rfl
  case headings => exact ⟨_, rfl, shows_row (hfits _ List.mem_cons_self)⟩
  case row =>
    intro id r hr
    have hrow : g.tableRows[id]? = some (r.cells id) := by rw [getElem?_tableRows, hr]; rfl
    exact ⟨_, getElem?_drawn_row hrow,
      shows_row (hfits _ (List.mem_cons_of_mem _ (List.mem_of_getElem? hrow)))⟩
  case divider =>
    intro i
    rw [getElem?_drawn_eq_divider_iff hseveral hfits, length_tableRows]
  case bottom => rw [drawn, ← List.cons_append, ← List.cons_append, List.getLast?_concat]

/-- No line of the table is broken, if no name and no tag is. -/
theorem not_mem_of_mem_tableLines
    (hnames : ∀ r ∈ g.rules, ∀ s, s = r.lhs ∨ s ∈ r.rhs → '\n' ∉ s.toList)
    (htags : ∀ r ∈ g.rules, ∀ tag places, r.action = .construct tag places → '\n' ∉ tag.toList) :
    ∀ line ∈ g.tableLines, '\n' ∉ line := by
  intro line hline hnewline
  rcases mem_of_mem_drawn hline hnewline with hsign | ⟨texts, htexts, text, htext, hc⟩
  · exact absurd hsign (by decide)
  · rcases List.mem_cons.mp htexts with rfl | htexts
    · have hheadings : ∀ text ∈ RuleTable.headings, '\n' ∉ text.toList := by decide
      exact hheadings text htext hc
    · obtain ⟨⟨r, id⟩, hmem, rfl⟩ := List.mem_map.mp htexts
      have hr : r ∈ g.rules := List.mem_of_getElem? (List.mem_zipIdx_iff_getElem?.mp hmem)
      rcases Rule.mem_cells htext hc with hsign | hdigit | ⟨s, hs, hc⟩ | ⟨tag, places, htag, hc⟩
      · exact absurd hsign (by decide)
      · exact absurd hdigit (by decide)
      · exact hnames r hr s hs hc
      · exact htags r hr tag places htag hc

end Grammar

end LRGrammar
