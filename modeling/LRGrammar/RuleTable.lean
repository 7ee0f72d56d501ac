import LRGrammar.Grammar

/-!
# LRGrammar.RuleTable

The rules of a grammar as a table drawn with box characters: one row for each
rule, a divider above every fifth of them, and every cell set to the right of
its column.  Columns are as wide as their widest cell, counted in characters.

* `RuleTable.length_cell` — a cell is as wide as its column, if that is wide enough.
-/

namespace LRGrammar

/-- The row of a rule: its id, its left-hand side, its body and its action. -/
def Rule.cells {ο : Type} (id : RuleId) (r : Rule ο) : List String :=
  [id.repr, r.lhs, sequenceText r.rhs, r.action.text]

namespace RuleTable

/-- What stands over the columns. -/
def headings : List String := ["#", "Symbol", "Produces", "Using"]

/-- The width of every column of the rows. -/
def widths (rows : List (List String)) : List Nat :=
  rows.foldr (fun row below => List.zipWith max (row.map String.length) below)
    (List.replicate headings.length 0)

/-! ## lines -/

/-- A horizontal line over the columns, with `joint` where two of them meet. -/
def border (joint : Char) (widths : List Nat) : List Char :=
  ['─', joint, '─'].intercalate (widths.map fun width => List.replicate width '─')

/-- The most blanks that can be set before a text. -/
def maxPadding : Nat := 65535

/-- No text of the row needs more blanks before it than can be set there. -/
def Paddable (widths : List Nat) (cells : List String) : Prop :=
  ∀ column ∈ widths.zip cells, column.1 - column.2.length ≤ maxPadding

instance (widths : List Nat) (cells : List String) : Decidable (Paddable widths cells) :=
  inferInstanceAs (Decidable (∀ column ∈ widths.zip cells, column.1 - column.2.length ≤ maxPadding))

/-- A text set to the right of a column. -/
def cell (width : Nat) (text : String) : List Char := text.toList.leftpad width ' '

theorem length_cell {width : Nat} {text : String} (h : text.length ≤ width) :
    (cell width text).length = width := by
  simp [cell, String.length_toList, h]

/-- The cells of a row, each in its column. -/
def row (widths : List Nat) (cells : List String) : List Char :=
  [' ', '│', ' '].intercalate (List.zipWith cell widths cells)

/-- The row of a rule, under a divider if its id is a multiple of five. -/
def ruleLines (widths : List Nat) (id : RuleId) (cells : List String) : List (List Char) :=
  if id % 5 = 0 then [border '┼' widths, row widths cells] else [row widths cells]

end RuleTable

namespace Grammar

variable {ο : Type}

/-- The rows of all rules, in the order of declaration. -/
def tableRows (g : Grammar ο) : List (List String) :=
  g.rules.zipIdx.map fun (r, id) => r.cells id

/-- The lines of the rule table. -/
def tableLines (g : Grammar ο) : List (List Char) :=
  let widths := RuleTable.widths (RuleTable.headings :: g.tableRows)
  RuleTable.border '┬' widths :: RuleTable.row widths RuleTable.headings ::
    g.tableRows.zipIdx.flatMap (fun (cells, id) => RuleTable.ruleLines widths id cells) ++
    [RuleTable.border '┴' widths]

/-- The text of the rule table, every line ended. -/
def table (g : Grammar ο) : String :=
  String.ofList (g.tableLines.flatMap fun line => line ++ ['\n'])

/-- What printing the rule table gives: its text, or nothing at all if some text of it needs
more blanks than can be set before one. -/
def printedTable (g : Grammar ο) : Option String :=
  let rows := RuleTable.headings :: g.tableRows
  if ∀ cells ∈ rows, RuleTable.Paddable (RuleTable.widths rows) cells then some g.table else none

end Grammar

end LRGrammar
