import JackSyntax.Grammar.Expected

/-!
# Grammar rules

A rule describes how the parts of a production follow each other.  Rules are data: the
grammar of Jack is a table of them (`JackSyntax.Grammar.Jack`), and
`JackSyntax.Grammar.Parse` reads tokens by a rule.

A choice is made by the next token alone.  `Rule.branch` and `Rule.many` name the class
of tokens, their guard, that decides.
-/

namespace JackSyntax

/-- The productions of the grammar; each of them makes one node of the parse tree. -/
inductive Nonterminal
  | classDec
  | classVarDec
  | subroutineDec
  | parameterList
  | subroutineBody
  | varDec
  | statements
  | letStatement
  | ifStatement
  | whileStatement
  | doStatement
  | returnStatement
  | expression
  | term
  | expressionList
deriving DecidableEq

/-- The label of the nodes that a production makes. -/
def Nonterminal.label : Nonterminal → String
  | .classDec => "class"
  | .classVarDec => "classVarDec"
  | .subroutineDec => "subroutineDec"
  | .parameterList => "parameterList"
  | .subroutineBody => "subroutineBody"
  | .varDec => "varDec"
  | .statements => "statements"
  | .letStatement => "letStatement"
  | .ifStatement => "ifStatement"
  | .whileStatement => "whileStatement"
  | .doStatement => "doStatement"
  | .returnStatement => "returnStatement"
  | .expression => "expression"
  | .term => "term"
  | .expressionList => "expressionList"

/-- A class of tokens. -/
inductive Terminal
  /-- Every token of a kind. -/
  | ofKind (kind : TokenKind)
  | keyword (words : List String)
  | symbol (marks : List String)
  | either (first second : Terminal)
deriving DecidableEq

namespace Terminal

/-- Whether a token belongs to a class. -/
def accepts : Terminal → Token → Bool
  | ofKind kind, token => token.kind = kind
  | keyword words, token => token.isKeyword words
  | symbol marks, token => token.isSymbol marks
  | either first second, token => first.accepts token || second.accepts token

/-- Whether the next of some tokens belongs to a class. -/
def acceptsNext (terminal : Terminal) (tokens : List Token) : Bool :=
  tokens.head?.any terminal.accepts

/-- A class as something to expect. -/
def expected : Terminal → Expected
  | ofKind kind => .oneOf [.ofKind kind]
  | keyword words => .words words
  | symbol marks => .words marks
  | either first second => .either first.expected second.expected

@[simp] theorem acceptsNext_nil (terminal : Terminal) : terminal.acceptsNext [] = false := rfl

@[simp] theorem acceptsNext_cons (terminal : Terminal) (token : Token)
    (tokens : List Token) : terminal.acceptsNext (token :: tokens) = terminal.accepts token :=
  rfl

end Terminal

/-- How the parts of a production follow each other. -/
inductive Rule
  /-- Nothing. -/
  | empty
  /-- One token of a class; what to name when another token stands there. -/
  | token (terminal : Terminal) (expected : Expected)
  /-- No token can stand here. -/
  | fail (expected : Expected)
  /-- The node of a production. -/
  | call (name : Nonterminal)
  /-- Operands joined by binary operators and grouped by their precedence. -/
  | operators (operand : Nonterminal)
  | seq (first second : Rule)
  /-- The first rule where the next token belongs to the guard, the second elsewhere. -/
  | branch (guard : Terminal) (taken otherwise : Rule)
  /-- The rule again and again, as long as the next token belongs to the guard. -/
  | many (guard : Terminal) (item : Rule)
deriving DecidableEq

namespace Rule

/-- One token of a class. -/
def terminal (terminal : Terminal) : Rule :=
  token terminal terminal.expected

/-- One of several keywords. -/
def keyword (words : List String) : Rule :=
  terminal (.keyword words)

/-- A symbol. -/
def symbol (mark : String) : Rule :=
  terminal (.symbol [mark])

/-- A name. -/
def identifier : Rule :=
  terminal (.ofKind .identifier)

/-- The rules of a list, one after the other. -/
def sequence : List Rule → Rule
  | [] => empty
  | [rule] => rule
  | rule :: rules => seq rule (sequence rules)

/-- The first rule whose guard holds of the next token. -/
def choice (branches : List (Terminal × Rule)) (otherwise : Rule) : Rule :=
  branches.foldr (fun entry rule => branch entry.1 entry.2 rule) otherwise

/-- The rule where the next token belongs to the guard, and nothing elsewhere. -/
def optional (guard : Terminal) (rule : Rule) : Rule :=
  branch guard rule empty

/-- The rule unless the next token belongs to the guard. -/
def unlessNext (guard : Terminal) (rule : Rule) : Rule :=
  branch guard empty rule

end Rule

end JackSyntax
