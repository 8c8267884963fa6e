/-!
# Tokens

A token is a word of the source text: its kind, its value, and the line and column
at which it starts.  An integer constant that was scanned has a number as its value
and every other token a text; since `1` and `"1"` are different values, the two are
kept apart in `TokenValue`.

`Token.lexeme` writes a token the way a source text would.
-/

namespace JackSyntax

/-- The five kinds of tokens. -/
inductive TokenKind
  | keyword
  | symbol
  | identifier
  | integerConstant
  | stringConstant
deriving DecidableEq

namespace TokenKind

/-- The name of a kind, which is also the tag of its elements in a document. -/
def tag : TokenKind → String
  | keyword => "keyword"
  | symbol => "symbol"
  | identifier => "identifier"
  | integerConstant => "integerConstant"
  | stringConstant => "stringConstant"

/-- Every kind. -/
def all : List TokenKind :=
  [keyword, symbol, identifier, integerConstant, stringConstant]

theorem mem_all (kind : TokenKind) : kind ∈ all := by
  cases kind <;> decide

/-- The kind with a given name. -/
def ofTag? (tag : String) : Option TokenKind :=
  all.find? fun kind => kind.tag == tag

@[simp] theorem ofTag?_tag (kind : TokenKind) : ofTag? kind.tag = some kind := by
  cases kind <;> decide

end TokenKind

/-- What a token stands for: a number, or a text. -/
inductive TokenValue
  | integer (number : Int)
  | text (content : String)
deriving DecidableEq

/-- A value as text, a number in decimal digits.  A number of more than 4300 digits has a text
here as well, though it may be refused elsewhere; a scan never finds one. -/
def TokenValue.toText : TokenValue → String
  | .integer number => toString number
  | .text content => content

/-- A token and its place.  A token that was not scanned may have any numbers for its
place; they are zero where none are given. -/
structure Token where
  kind : TokenKind
  value : TokenValue
  line : Int := 0
  column : Int := 0
deriving DecidableEq

namespace Token

/-- The token as a source text writes it: a string constant between double quotes,
any other token as its value alone. -/
def lexeme (token : Token) : String :=
  match token.kind with
  | .stringConstant => "\"" ++ token.value.toText ++ "\""
  | _ => token.value.toText

/-- Whether a token is of a kind and its value is one of the given texts. -/
def isOneOf (kind : TokenKind) (texts : List String) (token : Token) : Bool :=
  token.kind = kind &&
    match token.value with
    | .text content => texts.contains content
    | .integer _ => false

/-- Whether a token is one of the given keywords. -/
def isKeyword (words : List String) (token : Token) : Bool :=
  token.isOneOf .keyword words

/-- Whether a token is one of the given symbols. -/
def isSymbol (marks : List String) (token : Token) : Bool :=
  token.isOneOf .symbol marks

theorem isOneOf_eq_true_iff {kind : TokenKind} {texts : List String} {token : Token} :
    token.isOneOf kind texts = true ↔
      token.kind = kind ∧ ∃ content ∈ texts, token.value = .text content := by
  cases hvalue : token.value <;> simp [isOneOf, hvalue]

end Token

end JackSyntax
