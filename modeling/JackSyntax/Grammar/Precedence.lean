import JackSyntax.Text.Quoted
import JackSyntax.Token.Basic

/-!
# Precedence tables

A precedence table gives levels to symbols: the higher the level, the tighter an
operator binds.  It must give one to each of the nine binary operators of Jack; a
symbol beyond those becomes an operator by having one.

`PrecedenceTable.flat` puts all operators on one level, as the language does.
`PrecedenceTable.arithmetic` follows the conventions of arithmetic.
-/

namespace JackSyntax

/-- The binary operators of Jack, sorted by code point. -/
def binaryOperators : List String := ["&", "*", "+", "-", "/", "<", "=", ">", "|"]

/-- Levels for symbols, the nine binary operators among them. -/
structure PrecedenceTable where
  entries : List (String × Int)
  covers : ∀ operator ∈ binaryOperators, operator ∈ entries.map Prod.fst

/-- The binary operators for which a table has no level. -/
structure MissingLevels where
  operators : List String
deriving DecidableEq

/-- The missing operators in words. -/
def MissingLevels.message (error : MissingLevels) : String :=
  "precedence table has no level for [" ++
    String.intercalate ", " (error.operators.map Text.quoted) ++ "]"

namespace PrecedenceTable

/-- The level of a text. -/
def levelOf? (table : PrecedenceTable) (text : String) : Option Int :=
  table.entries.lookup text

/-- The level of a token: only symbols have one. -/
def level? (table : PrecedenceTable) (token : Token) : Option Int :=
  match token.kind, token.value with
  | .symbol, .text content => table.levelOf? content
  | _, _ => none

/-- A level in its place among ascending levels, unless it is one of them. -/
def insertLevel (level : Int) : List Int → List Int
  | [] => [level]
  | first :: rest =>
      if level < first then level :: first :: rest
      else if level = first then first :: rest
      else first :: insertLevel level rest

/-- The different levels of a table, ascending. -/
def levels (table : PrecedenceTable) : List Int :=
  (table.entries.map Prod.snd).foldr insertLevel []

theorem mem_insertLevel {level other : Int} {levels : List Int} :
    other ∈ insertLevel level levels ↔ other = level ∨ other ∈ levels := by
  induction levels with
  | nil => simp [insertLevel]
  | cons first rest ih =>
      unfold insertLevel
      split
      · simp
      split
      · next hsame => simp [hsame]
      · simp only [List.mem_cons, ih]
        exact or_left_comm

theorem pairwise_insertLevel (level : Int) {levels : List Int}
    (hlevels : levels.Pairwise (· < ·)) : (insertLevel level levels).Pairwise (· < ·) := by
  induction levels with
  | nil => simp [insertLevel]
  | cons first rest ih =>
      have hrest := List.pairwise_cons.mp hlevels
      unfold insertLevel
      split
      · next hless =>
          refine List.pairwise_cons.mpr ⟨fun other hother => ?_, hlevels⟩
          rcases List.mem_cons.mp hother with rfl | hother
          · exact hless
          · exact Int.lt_trans hless (hrest.1 other hother)
      split
      · exact hlevels
      · next hless hsame =>
          refine List.pairwise_cons.mpr ⟨fun other hother => ?_, ih hrest.2⟩
          rcases mem_insertLevel.mp hother with rfl | hother
          · omega
          · exact hrest.1 other hother

/-- The levels are those of the entries. -/
theorem mem_levels {table : PrecedenceTable} {level : Int} :
    level ∈ table.levels ↔ level ∈ table.entries.map Prod.snd := by
  unfold levels
  induction table.entries.map Prod.snd with
  | nil => simp
  | cons first rest ih => simp [mem_insertLevel, ih]

/-- The levels ascend, and no level comes twice. -/
theorem pairwise_levels (table : PrecedenceTable) : table.levels.Pairwise (· < ·) := by
  unfold levels
  induction table.entries.map Prod.snd with
  | nil => simp
  | cons first rest ih => exact pairwise_insertLevel first ih

/-! ## Making a table -/

/-- The binary operators without an entry, sorted. -/
def missing (entries : List (String × Int)) : List String :=
  binaryOperators.filter fun operator => !(entries.map Prod.fst).contains operator

theorem covers_of_missing_eq_nil {entries : List (String × Int)}
    (hmissing : missing entries = []) :
    ∀ operator ∈ binaryOperators, operator ∈ entries.map Prod.fst := by
  intro operator hoperator
  have hkept := List.filter_eq_nil_iff.mp hmissing operator hoperator
  simpa using hkept

/-- The table with the given entries, or the operators it lacks. -/
def ofEntries (entries : List (String × Int)) : Except MissingLevels PrecedenceTable :=
  if hmissing : missing entries = [] then
    .ok ⟨entries, covers_of_missing_eq_nil hmissing⟩
  else .error ⟨missing entries⟩

/-- One level for all operators, which then apply from left to right. -/
def flat : PrecedenceTable where
  entries := binaryOperators.map fun operator => (operator, 1)
  covers := by decide

/-- Products before sums, sums before comparisons, comparisons before logic. -/
def arithmetic : PrecedenceTable where
  entries :=
    [("*", 4), ("/", 4), ("+", 3), ("-", 3), ("<", 2), (">", 2), ("=", 2), ("&", 1), ("|", 1)]
  covers := by decide

end PrecedenceTable

end JackSyntax
