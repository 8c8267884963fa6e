import JackSyntax.Token.Basic

/-!
# What the grammar expects

Where a text does not follow the grammar, a message names what could have stood
there: literal words in single quotes, classes of tokens by their names, and the end
of the input.
-/

namespace JackSyntax

/-- Several texts as an enumeration: commas, and `or` before the last one. -/
def enumerate : List String → String
  | [] => ""
  | [text] => text
  | [text, last] => text ++ " or " ++ last
  | text :: rest => text ++ ", " ++ enumerate rest

/-- One thing that the grammar allows at a place. -/
inductive Alternative
  /-- A keyword or a symbol. -/
  | literal (word : String)
  /-- Any token of a kind. -/
  | ofKind (kind : TokenKind)
  /-- An identifier that names a class. -/
  | className
  | endOfInput
deriving DecidableEq

/-- An alternative in words. -/
def Alternative.description : Alternative → String
  | .literal word => "'" ++ word ++ "'"
  | .ofKind kind => kind.tag
  | .className => "class name"
  | .endOfInput => "end of input"

/-- What the grammar allows at a place: one list of alternatives, or one list or
another. -/
inductive Expected
  | oneOf (alternatives : List Alternative)
  | either (first second : Expected)
deriving DecidableEq

namespace Expected

/-- All that is allowed. -/
def alternatives : Expected → List Alternative
  | oneOf alternatives => alternatives
  | either first second => first.alternatives ++ second.alternatives

/-- What is allowed, in words. -/
def description : Expected → String
  | oneOf alternatives => enumerate (alternatives.map Alternative.description)
  | either first second => first.description ++ " or " ++ second.description

/-- One of several literal words. -/
def words (words : List String) : Expected :=
  oneOf (words.map Alternative.literal)

end Expected

end JackSyntax
