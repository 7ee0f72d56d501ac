import LRGrammar.Proofs.History
import LRGrammar.Proofs.Table.Layout

/-!
# LRGrammar.Proofs.Table.Printing

Which rule tables are printed, and as what text.  Only so many blanks can be set before a text,
and the text of a column that needs the most of them is its shortest one, so all comes down to
how much the lengths of the texts differ (`Grammar.Printable`).  Names can be of any length, and
one that is too long for its heading is enough to keep a table from being printed.

* `RuleTable.forall_paddable_iff` — when the blanks suffice;
* `Grammar.printedTable_eq_some_iff` — when a table is printed, and which text that gives;
* `Grammar.not_printable_of_mem` — a name too long for its heading;
* `Grammar.table_layout` — what stands where in that text, if no name breaks a line.
-/

namespace LRGrammar

namespace RuleTable

variable {rows : List (List String)}

/-- The blanks suffice if no text is longer than another one of its column by more than they
can make up for. -/
theorem forall_paddable_iff (h : Full rows) :
    (∀ texts ∈ rows, Paddable (widths rows) texts) ↔
      ∀ k, ∀ m ∈ lengths rows k, ∀ n ∈ lengths rows k, n ≤ m + maxPadding := by
  constructor
  · rintro hpaddable k m ⟨texts, htexts, text, htext, rfl⟩ n hn
    have hk : k < (widths rows).length := by
      rw [length_widths h, ← h texts htexts]
      exact (List.getElem?_eq_some_iff.mp htext).1
    have hw : (widths rows)[k]? = some (widths rows)[k] := List.getElem?_eq_getElem hk
    have hcolumn : ((widths rows)[k], text) ∈ (widths rows).zip texts :=
      List.mem_of_getElem? (List.getElem?_zip_eq_some.mpr ⟨hw, htext⟩)
    -- the text is padded to the width of its column, which is at least `n`
    have hpadding : (widths rows)[k] - text.length ≤ maxPadding :=
      hpaddable texts htexts _ hcolumn
    have hwidest : n ≤ (widths rows)[k] := (upperBound_widths hw).1 n hn
    omega
  · rintro hlengths texts htexts ⟨w, text⟩ hcolumn
    obtain ⟨k, hk⟩ := List.mem_iff_getElem?.mp hcolumn
    obtain ⟨hw, htext⟩ := List.getElem?_zip_eq_some.mp hk
    -- a width is zero, or the length of a text of the column
    rcases (upperBound_widths hw).2 with rfl | hattained
    · exact Nat.le_trans (Nat.sub_le 0 text.length) (Nat.zero_le maxPadding)
    · have hlongest := hlengths k text.length ⟨texts, htexts, text, htext, rfl⟩ w hattained
      exact Nat.sub_le_iff_le_add'.mpr hlongest

end RuleTable

namespace Grammar

variable {ο : Type} {g : Grammar ο}

open RuleTable

/-- No text of the rule table is longer than another one of its column by more blanks than can
be set before that one. -/
def Printable (g : Grammar ο) : Prop :=
  ∀ k, ∀ m ∈ lengths (headings :: g.tableRows) k, ∀ n ∈ lengths (headings :: g.tableRows) k,
    n ≤ m + maxPadding

/-- A printable table is printed as its text, and no other is printed. -/
theorem printedTable_eq_some_iff {text : String} :
    g.printedTable = some text ↔ g.Printable ∧ g.table = text := by
  rw [printedTable, Option.ite_none_right_eq_some, Option.some.injEq,
    forall_paddable_iff g.full_tableRows, Printable]

/-- No table is printed that has a left-hand side too long to be set under its heading. -/
theorem not_printable_of_mem {r : Rule ο} (hr : r ∈ g.rules)
    (hlong : "Symbol".length + maxPadding < r.lhs.length) : ¬g.Printable := by
  intro h
  obtain ⟨id, hid⟩ := List.mem_iff_getElem?.mp hr
  have hrow : r.cells id ∈ g.tableRows := by
    refine List.mem_of_getElem? (i := id) ?_
    rw [getElem?_tableRows, rule?, hid]
    rfl
  have hheading : "Symbol".length ∈ lengths (headings :: g.tableRows) 1 :=
    ⟨headings, List.mem_cons_self, "Symbol", rfl, rfl⟩
  have hlhs : r.lhs.length ∈ lengths (headings :: g.tableRows) 1 :=
    ⟨r.cells id, List.mem_cons_of_mem headings hrow, r.lhs, rfl, rfl⟩
  exact absurd (h 1 _ hheading _ hlhs) (Nat.not_le.mpr hlong)

/-- **The layout of the rule table.**  Let no name and no tag hold a newline.  Then the table
of a grammar with `n` rules has `n + 3` lines, and one more for every five rules begun; all are
equally long, and stand where `LaidOut` says.  Printing gives just these lines, each of them
ended, if no text is longer than another one of its column by more than `maxPadding`, and
gives nothing otherwise. -/
theorem table_layout (history : List (Declaration ο))
    (hnames : ∀ s ∈ (replay history).symbols, '\n' ∉ s.toList)
    (htags : ∀ r ∈ (replay history).rules, ∀ tag places,
      r.action = .construct tag places → '\n' ∉ tag.toList) :
    ∃ columns lines, (replay history).LaidOut columns lines ∧ (∀ line ∈ lines, '\n' ∉ line) ∧
      ∀ text, (replay history).printedTable = some text ↔
        (replay history).Printable ∧ text.toList = lines.flatMap fun line => line ++ ['\n'] := by
  refine ⟨_, (replay history).tableLines, laidOut_tableLines _, ?_, fun text => ?_⟩
  · refine not_mem_of_mem_tableLines (fun r hr s hs => hnames s ?_) htags
    exact ((coherent_replay history).mem_symbols s).mpr
      ⟨r.toProduction, List.mem_map.mpr ⟨r, hr, rfl⟩, hs⟩
  · rw [printedTable_eq_some_iff, ← String.toList_inj, table, String.toList_ofList, eq_comm]

/-- Six rules, with a symbol that has no name and a body and a tag that are empty. -/
def sixRules : List (Declaration Unit) :=
  [.rule ⟨⟨"Σ", ["Σ", "+", "term"]⟩, none, .construct "add" [0, 2], ()⟩,
    .rule ⟨⟨"Σ", ["term"]⟩, none, .rename 0, ()⟩,
    .rule ⟨⟨"term", ["(", "Σ", ")"]⟩, none, .rename 1, ()⟩,
    .rule ⟨⟨"term", ["number", ""]⟩, none, .construct "number" [0], ()⟩,
    .rule ⟨⟨"", []⟩, none, .construct "" [], ()⟩,
    .rule ⟨⟨"", ["'"]⟩, none, .construct "" [0, 0], ()⟩]

/-- The sixth rule opens a second group of five. -/
theorem table_layout_sixRules :
    let g := replay sixRules
    (∀ s ∈ g.symbols, '\n' ∉ s.toList) ∧
      (∀ r ∈ g.rules, ∀ tag places, r.action = .construct tag places → '\n' ∉ tag.toList) ∧
      ∃ columns lines text, g.LaidOut columns lines ∧ (∀ line ∈ lines, '\n' ∉ line) ∧
        g.printedTable = some text ∧
        text.toList = (lines.flatMap fun line => line ++ ['\n']) ∧ lines.length = 11 ∧
        lines[8]? = some (border '┼' columns) := by
  intro g
  have hcount : g.ruleCount = 6 := by decide +kernel
  have hnames : ∀ s ∈ g.symbols.toList, '\n' ∉ s.toList := by decide +kernel
  have htexts : ∀ r ∈ g.rules, '\n' ∉ r.action.text.toList := by decide +kernel
  have hnames' : ∀ s ∈ g.symbols, '\n' ∉ s.toList :=
    fun s hs => hnames s (Std.ExtTreeSet.mem_toList.mpr hs)
  have htags : ∀ r ∈ g.rules, ∀ tag places, r.action = .construct tag places →
      '\n' ∉ tag.toList := by
    intro r hr tag places haction hnewline
    refine htexts r hr ?_
    rw [haction, Action.toList_text_construct]
    exact List.mem_append_left _ hnewline
  have hpaddable : ∀ texts ∈ headings :: g.tableRows,
      Paddable (widths (headings :: g.tableRows)) texts := by decide +kernel
  have hprinted : g.printedTable = some g.table :=
    printedTable_eq_some_iff.mpr ⟨(forall_paddable_iff g.full_tableRows).mp hpaddable, rfl⟩
  obtain ⟨columns, lines, hlaid, hlines, htext⟩ := table_layout sixRules hnames' htags
  refine ⟨hnames', htags, columns, lines, g.table, hlaid, hlines, hprinted,
    ((htext g.table).mp hprinted).2, ?_, ?_⟩
  · rw [hlaid.length_lines, hcount]
  · exact (hlaid.divider 8).mpr ⟨5, hcount ▸ by decide, rfl, rfl⟩

/-- One rule for the symbol. -/
def ruleFor (s : Symbol) : List (Declaration Unit) := [.rule ⟨⟨s, ["x"]⟩, none, .rename 0, ()⟩]

theorem rules_ruleFor (s : Symbol) :
    (replay (ruleFor s)).rules = [⟨⟨s, ["x"]⟩, none, .rename 0, ()⟩] := rfl

/-- The rule has two symbols. -/
theorem eq_or_eq_of_mem_symbols_ruleFor {s name : Symbol}
    (h : name ∈ (replay (ruleFor s)).symbols) : name = s ∨ name = "x" := by
  obtain ⟨p, hp, hname⟩ := ((coherent_replay (ruleFor s)).mem_symbols name).mp h
  rw [productions, rules_ruleFor, List.map_singleton, List.mem_singleton] at hp
  subst hp
  exact hname.imp_right List.mem_singleton.mp

/-- A symbol too long for its heading keeps the table from being printed. -/
theorem printedTable_ruleFor {s : Symbol} (hlong : "Symbol".length + maxPadding < s.length) :
    (replay (ruleFor s)).printedTable = none := by
  have hmem : ⟨⟨s, ["x"]⟩, none, .rename 0, ()⟩ ∈ (replay (ruleFor s)).rules := by
    rw [rules_ruleFor]
    exact List.mem_singleton_self _
  refine Option.eq_none_iff_forall_ne_some.mpr fun text htext => ?_
  exact not_printable_of_mem hmem hlong (printedTable_eq_some_iff.mp htext).1

/-- A name of so many letters. -/
def nameOf (length : Nat) : Symbol := String.ofList (List.replicate length 'a')

theorem length_nameOf (length : Nat) : (nameOf length).length = length := by
  rw [nameOf, String.length_ofList, List.length_replicate]

theorem eq_of_mem_nameOf {length : Nat} {c : Char} (h : c ∈ (nameOf length).toList) : c = 'a' := by
  rw [nameOf, String.toList_ofList] at h
  exact List.eq_of_mem_replicate h

/-- Names and tags without newlines are not enough for a table to be printed: one letter more
than can be set under its heading, and nothing is. -/
theorem printedTable_longName :
    let g := replay (ruleFor (nameOf 65542))
    (∀ s ∈ g.symbols, '\n' ∉ s.toList) ∧
      (∀ r ∈ g.rules, ∀ tag places, r.action = .construct tag places → '\n' ∉ tag.toList) ∧
      g.printedTable = none := by
  refine ⟨fun s hs hnewline => ?_, fun r hr tag places haction => ?_, ?_⟩
  · rcases eq_or_eq_of_mem_symbols_ruleFor hs with rfl | rfl
    · exact absurd (eq_of_mem_nameOf hnewline) (by decide)
    · exact absurd hnewline (by decide)
  · rw [rules_ruleFor, List.mem_singleton] at hr
    subst hr
    exact absurd haction nofun
  · refine printedTable_ruleFor ?_
    rw [length_nameOf]
    decide

end Grammar

end LRGrammar
