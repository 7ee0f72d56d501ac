import LRGrammar.Declaration
import LRGrammar.Proofs.Table.Layout

/-!
# LRGrammar.Proofs.Table.Legible

The rule table loses nothing of a rule that it shows.  It is read backwards from how it was
drawn: the text is cut into lines at the newlines, the number of the lines tells the number
of the rules and so which line is whose row, a row is cut into cells at the bars, and a cell
is rid of the blanks in front.  How wide the columns are, which depends on all rules, need
not be known for that.

* `RuleTable.Shows.texts_eq` — the texts of a row can be read off its line;
* `Rule.eq_of_cells_eq` — and the rule, off the texts of its row;
* `Grammar.rules_eq_of_table_eq` — so the rules can be read off the table.
-/

namespace LRGrammar

/-! ## rows -/

namespace RuleTable

variable {widths widths' : List Nat} {texts texts' : List String} {cells : List (List Char)}
  {line : List Char}

/-- A text that can be read off its cell, and a cell that can be cut off its row. -/
structure Legible (text : String) : Prop where
  no_bar : '│' ∉ text.toList
  head_ne_blank : text.toList.head? ≠ some ' '

/-- The cell reads as the text, which is set to the right of a column of some width. -/
def Reads (text : String) (cell : List Char) : Prop :=
  Legible text ∧ ∃ width, RightAligned width text cell

theorem Reads.no_bar {text : String} {cell : List Char} (h : Reads text cell) : '│' ∉ cell := by
  obtain ⟨hlegible, width, blanks, -, rfl⟩ := h
  refine List.not_mem_append (fun hbar => ?_) hlegible.no_bar
  exact absurd (List.eq_of_mem_replicate hbar) (by decide)

/-- No cell reads as two texts. -/
theorem leftUnique_reads : Relator.LeftUnique Reads := by
  rintro text text' cell ⟨hlegible, width, haligned⟩ ⟨hlegible', width', haligned'⟩
  exact haligned.text_eq haligned' hlegible.head_ne_blank hlegible'.head_ne_blank

theorem no_bar_of_reads (h : List.Forall₂ Reads texts cells) : ∀ cell ∈ cells, '│' ∉ cell := by
  induction h with
  | nil => exact fun cell hcell => absurd hcell List.not_mem_nil
  | cons hreads _ ih => exact List.forall_mem_cons.mpr ⟨hreads.no_bar, ih⟩

/-- Cells that read as the texts, and a line that is made of these cells. -/
theorem Shows.exists_reads (h : Shows widths texts line) (hlength : texts.length ≤ widths.length)
    (hlegible : ∀ text ∈ texts, Legible text) :
    ∃ cells, line = [' ', '│', ' '].intercalate cells ∧ List.Forall₂ Reads texts cells := by
  obtain ⟨cells, hline, haligned⟩ := h
  refine ⟨cells, hline, (List.forall₂_and_left texts cells).mpr ⟨hlegible, ?_⟩⟩
  rw [← List.map_snd_zip hlength, List.forall₂_map_left_iff]
  exact haligned.imp fun column cell hcell => ⟨column.1, hcell⟩

/-- The texts of a row can be read off its line, whatever the widths of the columns are. -/
theorem Shows.texts_eq (h : Shows widths texts line) (h' : Shows widths' texts' line)
    (hlength : texts.length ≤ widths.length) (hlength' : texts'.length ≤ widths'.length)
    (hne : texts ≠ []) (hne' : texts' ≠ []) (hlegible : ∀ text ∈ texts, Legible text)
    (hlegible' : ∀ text ∈ texts', Legible text) : texts = texts' := by
  obtain ⟨cells, rfl, hreads⟩ := h.exists_reads hlength hlegible
  obtain ⟨cells', hline, hreads'⟩ := h'.exists_reads hlength' hlegible'
  have hcut : cells = cells' := by
    refine eq_of_intercalate_eq [' '] [' '] (by decide) (no_bar_of_reads hreads)
      (no_bar_of_reads hreads') ?_ ?_ hline
    · rintro rfl
      exact hne (List.forall₂_nil_right_iff.mp hreads)
    · rintro rfl
      exact hne' (List.forall₂_nil_right_iff.mp hreads')
  subst hcut
  exact leftUnique_reads.forall₂ hreads hreads'

end RuleTable

/-! ## rules -/

namespace Rule

variable {ο ο' : Type} {r : Rule ο} {r' : Rule ο'} {id : RuleId}

/-- The names and the tag of the rule can be told from what stands around them in the rule
table. -/
structure Legible (r : Rule ο) : Prop where
  name : ∀ s, s = r.lhs ∨ s ∈ r.rhs → PlainName s
  tag : ∀ tag places, r.action = .construct tag places → PlainTag tag

instance : (r : Rule ο) → Decidable r.Legible
  | ⟨p, _, .rename _, _⟩ =>
      decidable_of_iff (∀ s ∈ p.lhs :: p.rhs, PlainName s)
        ⟨fun h => ⟨fun s hs => h s (List.mem_cons.mpr hs), nofun⟩,
          fun h s hs => h.name s (List.mem_cons.mp hs)⟩
  | ⟨p, _, .construct tag places, _⟩ =>
      decidable_of_iff ((∀ s ∈ p.lhs :: p.rhs, PlainName s) ∧ PlainTag tag)
        ⟨fun ⟨hname, htag⟩ => ⟨fun s hs => hname s (List.mem_cons.mpr hs), fun _ _ heq =>
            (Action.construct.inj heq).1 ▸ htag⟩,
          fun h => ⟨fun s hs => h.name s (List.mem_cons.mp hs), h.tag tag places rfl⟩⟩

theorem Legible.text (h : r.Legible) {text : String} (htext : text ∈ r.cells id) :
    RuleTable.Legible text where
  no_bar hbar := by
    rcases mem_cells htext hbar with hsign | hdigit | ⟨s, hs, hbar⟩ | ⟨tag, places, htag, hbar⟩
    · exact absurd hsign (by decide)
    · exact absurd hdigit (by decide)
    · exact (h.name s hs).no_bar hbar
    · exact (h.tag tag places htag).no_bar hbar
  head_ne_blank := head?_ne_blank h.name h.tag htext

/-- The rule can be read off the texts of its row. -/
theorem eq_of_cells_eq (h : r.Legible) (h' : r'.Legible) (hcells : r.cells id = r'.cells id) :
    r.lhs = r'.lhs ∧ r.rhs = r'.rhs ∧ r.action = r'.action := by
  simp only [cells, List.cons.injEq, and_true, true_and] at hcells
  obtain ⟨hlhs, hrhs, haction⟩ := hcells
  exact ⟨hlhs, symbols_eq_of_sequenceText_eq (fun s hs => h.name s (.inr hs))
    (fun s hs => h'.name s (.inr hs)) hrhs, Action.eq_of_text_eq haction⟩

end Rule

/-! ## the table -/

namespace Grammar

variable {ο ο' : Type} {g : Grammar ο} {g' : Grammar ο'}

open RuleTable

theorem no_newline_of_legible (h : ∀ r ∈ g.rules, r.Legible) :
    ∀ line ∈ g.tableLines, '\n' ∉ line :=
  not_mem_of_mem_tableLines (fun r hr s hs => ((h r hr).name s hs).no_newline)
    fun r hr tag places htag => ((h r hr).tag tag places htag).no_newline

theorem tableLines_eq_of_table_eq (h : ∀ r ∈ g.rules, r.Legible)
    (h' : ∀ r ∈ g'.rules, r.Legible) (htable : g.table = g'.table) :
    g.tableLines = g'.tableLines := by
  have hlists := congrArg String.toList htable
  rw [table, table, String.toList_ofList, String.toList_ofList] at hlists
  exact eq_of_flatMap_append_eq (no_newline_of_legible h) (no_newline_of_legible h') hlists

/-- The number of the rules can be read off the lines of the table. -/
theorem ruleCount_eq_of_tableLines_eq (hlines : g.tableLines = g'.tableLines) :
    g.ruleCount = g'.ruleCount := by
  have hlength := g.laidOut_tableLines.length_lines
  have hlength' := g'.laidOut_tableLines.length_lines
  rw [hlines] at hlength
  omega

/-- The rule of an id can be read off the lines of the table. -/
theorem rule_eq_of_tableLines_eq (hlines : g.tableLines = g'.tableLines) {id : RuleId}
    {r : Rule ο} {r' : Rule ο'} (hr : g.rule? id = some r) (hr' : g'.rule? id = some r')
    (h : r.Legible) (h' : r'.Legible) :
    r.lhs = r'.lhs ∧ r.rhs = r'.rhs ∧ r.action = r'.action := by
  obtain ⟨line, hline, hshows⟩ := g.laidOut_tableLines.row id r hr
  obtain ⟨line', hline', hshows'⟩ := g'.laidOut_tableLines.row id r' hr'
  obtain rfl : line = line' := by
    rw [hlines, hline'] at hline
    exact (Option.some.inj hline).symm
  have hcells : r.cells id = r'.cells id := hshows.texts_eq hshows'
    (Nat.le_of_eq g.laidOut_tableLines.length_columns.symm)
    (Nat.le_of_eq g'.laidOut_tableLines.length_columns.symm) (List.cons_ne_nil _ _)
    (List.cons_ne_nil _ _) (fun _ htext => h.text htext) fun _ htext => h'.text htext
  exact Rule.eq_of_cells_eq h h' hcells

/-- **The rule table loses nothing on ordinary names.**  Two grammars that have the same rule
table, be it printed or not, have the same rules, but for anchors and origins, if every name and
every tag can be told from what stands around it. -/
theorem rules_eq_of_table_eq (h : ∀ r ∈ g.rules, r.Legible) (h' : ∀ r ∈ g'.rules, r.Legible)
    (htable : g.table = g'.table) :
    g.rules.map (fun r => (r.lhs, r.rhs, r.action)) =
      g'.rules.map fun r => (r.lhs, r.rhs, r.action) := by
  have hlines := tableLines_eq_of_table_eq h h' htable
  have hcount : g.rules.length = g'.rules.length := ruleCount_eq_of_tableLines_eq hlines
  refine List.ext_getElem (by rw [List.length_map, List.length_map, hcount]) ?_
  intro id hid hid'
  rw [List.length_map] at hid hid'
  obtain ⟨hlhs, hrhs, haction⟩ := rule_eq_of_tableLines_eq hlines
    (List.getElem?_eq_getElem hid) (List.getElem?_eq_getElem hid')
    (h _ (List.getElem_mem hid)) (h' _ (List.getElem_mem hid'))
  rw [List.getElem_map, List.getElem_map, hlhs, hrhs, haction]

/-- Sums, with a tag that looks like an action of its own, and an empty body. -/
def plainSums : List (Declaration Nat) :=
  [.level .left ["+"],
    .rule ⟨⟨"Σ", ["Σ", "+", "term"]⟩, some "+", .construct "add ($0, " [0, 2], 7⟩,
    .rule ⟨⟨"Σ", ["term"]⟩, none, .rename 0, 8⟩,
    .rule ⟨⟨"term", []⟩, none, .construct "" [], 9⟩]

/-- The same rules without levels and origins, and one that is refused. -/
def unlevelledSums : List (Declaration Unit) :=
  [.rule ⟨⟨"Σ", ["Σ", "+", "term"]⟩, none, .construct "add ($0, " [0, 2], ()⟩,
    .rule ⟨⟨"Σ", ["term"]⟩, none, .rename 0, ()⟩,
    .rule ⟨⟨"Σ", ["term"]⟩, none, .construct "term" [0], ()⟩,
    .rule ⟨⟨"term", []⟩, none, .construct "" [], ()⟩]

/-- Levels and origins do not show. -/
theorem rules_eq_of_table_eq_sums :
    let g := replay plainSums
    let g' := replay unlevelledSums
    (∀ r ∈ g.rules, r.Legible) ∧ (∀ r ∈ g'.rules, r.Legible) ∧ g.table = g'.table ∧
      g.ruleCount = 3 ∧ g.precedence ≠ g'.precedence ∧
      g.rules.map (fun r => (r.lhs, r.rhs, r.action)) =
        g'.rules.map fun r => (r.lhs, r.rhs, r.action) := by
  intro g g'
  have hlegible : ∀ r ∈ g.rules, r.Legible := by decide +kernel
  have hlegible' : ∀ r ∈ g'.rules, r.Legible := by decide +kernel
  have hrows : g.tableRows = g'.tableRows := by decide +kernel
  have htable : g.table = g'.table := by rw [table, table, tableLines, tableLines, hrows]
  exact ⟨hlegible, hlegible', htable, by decide +kernel, by decide +kernel,
    rules_eq_of_table_eq hlegible hlegible' htable⟩

end Grammar

end LRGrammar
