import JackSyntax.Grammar.Outcome
import JackSyntax.Text.Quoted

/-!
# Syntax errors

A syntax error reports why reading stopped, at the token where it stopped.  At the end of
the input there is no such token, and the place is that of the last token of the input;
an empty input has the place line 1, column 1.

An empty input cannot nest too deeply: the class itself is always read, and it stops for
want of its first token.  So an error of excessive nesting has the place of a token.
-/

namespace JackSyntax

/-- A token in a message: its kind, and its value as a number or in quotes.  As in
`TokenValue.toText`, it may have any number of digits. -/
def Token.description (token : Token) : String :=
  token.kind.tag ++ " " ++
    match token.value with
    | .integer number => toString number
    | .text content => Text.quoted content

/-- Why reading stopped, and where. -/
structure SyntaxError where
  obstacle : Obstacle
  /-- The token at which it stopped, if it was not the end of the input. -/
  found? : Option Token
  line : Int
  column : Int
deriving DecidableEq

namespace SyntaxError

/-- The error of stopping before some tokens of an input with a given last token. -/
def before (obstacle : Obstacle) (rest : List Token) (last? : Option Token) : SyntaxError :=
  match rest.head?.or last? with
  | some token => ⟨obstacle, rest.head?, token.line, token.column⟩
  | none => ⟨obstacle, none, 1, 1⟩

/-- The error in words, without its place. -/
def description (error : SyntaxError) : String :=
  match error.obstacle with
  | .unexpected expected =>
      "expected " ++ expected.description ++ ", found " ++
        (error.found?.map Token.description).getD "end of input"
  | .tooDeep => "nesting too deep"

/-- The error in words. -/
def message (error : SyntaxError) : String :=
  "line " ++ toString error.line ++ ", col " ++ toString error.column ++ ": " ++
    error.description

end SyntaxError

end JackSyntax
