import Std.Data.ExtTreeMap
import Std.Data.ExtTreeSet

/-!
# LRGrammar.Symbol

Symbols are names, and a name is any text, compared character by character.
Sets of symbols and tables keyed by symbols are *extensional*: two of them are
equal exactly when they hold the same entries, whatever order those were added
in, and they list their entries in the order of the names.

* `SymbolSet.mem_ofList` — membership in a set given by listing it;
* `SymbolSet.mem_unions` — membership in the union of a list of sets;
* `SymbolMap.getElem?_fill` — the entries of a table after filling in some symbols.
-/

namespace LRGrammar

/-- A terminal or a non-terminal, given by its name. -/
abbrev Symbol := String

/-- A finite set of symbols, listed by `toList` in increasing order. -/
abbrev SymbolSet := Std.ExtTreeSet Symbol compare

/-- A finite table from symbols to values, listed by `toList` in increasing order. -/
abbrev SymbolMap (β : Type) := Std.ExtTreeMap Symbol β compare

namespace SymbolSet

/-- The set of the listed symbols. -/
def ofList (symbols : List Symbol) : SymbolSet := Std.ExtTreeSet.ofList symbols compare

@[simp] theorem mem_ofList {symbols : List Symbol} {s : Symbol} :
    s ∈ ofList symbols ↔ s ∈ symbols := by
  simp [ofList, Std.ExtTreeSet.mem_ofList]

/-- The symbols that lie in some set of the list. -/
def unions (sets : List SymbolSet) : SymbolSet := ofList (sets.flatMap (·.toList))

/-- A symbol is in the union if it is in one of the sets. -/
@[simp] theorem mem_unions {sets : List SymbolSet} {s : Symbol} :
    s ∈ unions sets ↔ ∃ set ∈ sets, s ∈ set := by
  simp [unions, Std.ExtTreeSet.mem_toList]

theorem mem_insert {set : SymbolSet} {s x : Symbol} :
    x ∈ set.insert s ↔ x = s ∨ x ∈ set := by
  rw [Std.ExtTreeSet.mem_insert, Std.compare_eq_iff_eq, eq_comm]

theorem mem_filter {set : SymbolSet} {test : Symbol → Bool} {s : Symbol} :
    s ∈ set.filter test ↔ s ∈ set ∧ test s := by
  rw [Std.ExtTreeSet.mem_filter]
  simp

/-- The names in increasing order, separated by commas. -/
def commaSeparated (symbols : SymbolSet) : String := ", ".intercalate symbols.toList

end SymbolSet

namespace SymbolMap

variable {β : Type}

/-- Tables are compared by their entries. -/
instance decidableEq [DecidableEq β] : DecidableEq (SymbolMap β) := inferInstance

/-- What is looked up with nothing in place of an absent entry was found in an entry. -/
theorem mem_getD_empty {table : SymbolMap SymbolSet} {s x : Symbol} :
    x ∈ table.getD s ∅ ↔ ∃ set, table[s]? = some set ∧ x ∈ set := by
  rw [Std.ExtTreeMap.getD_eq_getD_getElem?]
  cases table[s]? with
  | none => simp
  | some set => simp

/-- A symbol is in the table if it has a value there. -/
theorem mem_iff_getElem? {table : SymbolMap β} {s : Symbol} :
    s ∈ table ↔ ∃ value, table[s]? = some value := by
  rw [Std.ExtTreeMap.mem_iff_isSome_getElem?, Option.isSome_iff_exists]

/-- Two tables of sets are equal if they have the same keys and the same entries. -/
theorem ext_mem {table other : SymbolMap SymbolSet} (hkeys : ∀ s, s ∈ table ↔ s ∈ other)
    (hentries : ∀ s x, x ∈ table.getD s ∅ ↔ x ∈ other.getD s ∅) : table = other := by
  apply Std.ExtTreeMap.ext_getElem?
  intro s
  have hset : table.getD s ∅ = other.getD s ∅ := Std.ExtTreeSet.ext_mem fun x => hentries s x
  rw [Std.ExtTreeMap.getD_eq_getD_getElem?, Std.ExtTreeMap.getD_eq_getD_getElem?] at hset
  have hkey := hkeys s
  rw [mem_iff_getElem?, mem_iff_getElem?] at hkey
  cases htable : table[s]? with
  | none =>
      cases hother : other[s]? with
      | none => rfl
      | some set => simp [htable, hother] at hkey
  | some set =>
      cases hother : other[s]? with
      | none => simp [htable, hother] at hkey
      | some set' =>
          rw [htable, hother, Option.getD_some, Option.getD_some] at hset
          rw [hset]

/-- Enter a value for every listed symbol, in place of what stood there. -/
def fill (table : SymbolMap β) (symbols : List Symbol) (value : Symbol → β) : SymbolMap β :=
  symbols.foldl (fun filled s => filled.insert s (value s)) table

@[simp] theorem fill_nil (table : SymbolMap β) (value : Symbol → β) : fill table [] value = table :=
  rfl

@[simp] theorem fill_cons (table : SymbolMap β) (s : Symbol) (rest : List Symbol)
    (value : Symbol → β) :
    fill table (s :: rest) value = fill (table.insert s (value s)) rest value := rfl

/-- The listed symbols have their new value, and all others the one from before. -/
theorem getElem?_fill {table : SymbolMap β} {symbols : List Symbol} {value : Symbol → β}
    {s : Symbol} :
    (fill table symbols value)[s]? = if s ∈ symbols then some (value s) else table[s]? := by
  induction symbols generalizing table with
  | nil => simp
  | cons x rest ih =>
      rw [fill_cons, ih, Std.ExtTreeMap.getElem?_insert]
      grind [Std.compare_eq_iff_eq]

theorem mem_fill {table : SymbolMap β} {symbols : List Symbol} {value : Symbol → β} {s : Symbol} :
    s ∈ fill table symbols value ↔ s ∈ symbols ∨ s ∈ table := by
  rw [Std.ExtTreeMap.mem_iff_isSome_getElem?, Std.ExtTreeMap.mem_iff_isSome_getElem?, getElem?_fill]
  by_cases h : s ∈ symbols <;> simp [h]

end SymbolMap

/-- A sequence of symbols as text: the names separated by blanks, or `ε` when there are none. -/
def sequenceText (symbols : List Symbol) : String :=
  if symbols.isEmpty then "ε" else " ".intercalate symbols

end LRGrammar
