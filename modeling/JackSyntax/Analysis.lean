import JackSyntax.Cursor
import JackSyntax.Source.Scan

/-!
# Analyzing a source text

`analyze` turns a source text into a parse tree: it scans the text, checks the precedence
table, and reads one class.  The first of these steps that fails decides the error.  The room
for the calls within the class is a parameter, since a machine sets it.
-/

namespace JackSyntax

/-- The version of the analyzer. -/
def version : String := "0.1.0"

/-- Why a source text has no parse tree. -/
inductive AnalysisError
  | lexical (error : LexicalError)
  | precedence (error : MissingLevels)
  | grammatical (error : SyntaxError)
deriving DecidableEq

/-- The error in words. -/
def AnalysisError.message : AnalysisError → String
  | .lexical error => error.message
  | .precedence error => error.message
  | .grammatical error => error.message

/-- Reads tokens as one class, with room for so many calls within it. -/
def parseTokens (table : PrecedenceTable) (room : Nat) (tokens : List Token) :
    Except SyntaxError Tree :=
  ((Cursor.ofTokens tokens).read (parseProgram table (table.callStack room))).1

/-- Scans a source text and checks the entries of a precedence table, in this order. -/
def prepare (entries : List (String × Int)) (source : String) :
    Except AnalysisError (PrecedenceTable × List Token) :=
  match tokenize source with
  | .error error => .error (.lexical error)
  | .ok tokens =>
      match PrecedenceTable.ofEntries entries with
      | .error error => .error (.precedence error)
      | .ok table => .ok (table, tokens)

/-- The parse tree of a source text. -/
def analyze (room : Nat) (entries : List (String × Int)) (source : String) :
    Except AnalysisError Tree :=
  match prepare entries source with
  | .error error => .error error
  | .ok (table, tokens) => (parseTokens table room tokens).mapError .grammatical

/-- The room for calls within the class that a machine usually has. -/
def usualRoom : Nat := 980

end JackSyntax
