import JackSyntax.Grammar.Rule

/-!
# The grammar of Jack

`Nonterminal.rule` gives the rule of every production:

* `class`: `'class' NAME '{' (classVarDec | subroutineDec)* '}'`
* `classVarDec`: `('static' | 'field') type NAME (',' NAME)* ';'`
* `subroutineDec`: `('constructor' | 'function' | 'method') ('void' | type) NAME
  '(' parameterList ')' subroutineBody`
* `parameterList`: `(type NAME (',' type NAME)*)?`
* `subroutineBody`: `'{' varDec* statements '}'`
* `varDec`: `'var' type NAME (',' NAME)* ';'`
* `statements`: `(letStatement | ifStatement | whileStatement | doStatement |
  returnStatement)*`
* `letStatement`: `'let' NAME ('[' expression ']')? '=' expression ';'`
* `ifStatement`: `'if' '(' expression ')' block ('else' block)?`
* `whileStatement`: `'while' '(' expression ')' block`
* `doStatement`: `'do' NAME call ';'`
* `returnStatement`: `'return' expression? ';'`
* `expression`: `term (op term)*`
* `term`: `INTEGER | STRING | 'true' | 'false' | 'null' | 'this' | NAME |
  NAME '[' expression ']' | NAME call | '(' expression ')' | ('-' | '~') term`
* `expressionList`: `(expression (',' expression)*)?`

where a type is `'int' | 'char' | 'boolean' | NAME`, a block is `'{' statements '}'`, a
call is `('.' NAME)? '(' expressionList ')'`, and an operator is a symbol with a level in
the precedence table.  Types, blocks, calls and operators make no nodes of their own.

A parameter list, an expression list and the value of a return statement are left out
exactly where the token that closes them comes next.
-/

namespace JackSyntax

namespace Rule

/-! ## Parts of several productions -/

/-- The words of the built-in types. -/
def builtinTypes : List String := ["int", "char", "boolean"]

/-- The words that are types in a declaration; only a subroutine may return nothing. -/
def typeWords (allowVoid : Bool) : List String :=
  if allowVoid then builtinTypes ++ ["void"] else builtinTypes

/-- The tokens that name a type: the words of the built-in ones and all identifiers. -/
def typeStart (allowVoid : Bool) : Terminal :=
  .either (.keyword (typeWords allowVoid)) (.ofKind .identifier)

/-- A type as something to expect. -/
def typeExpected (allowVoid : Bool) : Expected :=
  .either (.words (typeWords allowVoid)) (.oneOf [.className])

/-- A built-in type or the name of a class. -/
def typeName (allowVoid : Bool) : Rule :=
  token (typeStart allowVoid) (typeExpected allowVoid)

/-- A comma, and more. -/
def commaThen (rule : Rule) : Rule :=
  many (.symbol [","]) (seq (symbol ",") rule)

/-- A type and the names declared with it. -/
def typedNames : Rule :=
  sequence [typeName false, identifier, commaThen identifier, symbol ";"]

/-- A type and one name. -/
def typedName : Rule :=
  seq (typeName false) identifier

/-- An expression between a pair of symbols. -/
def enclosed (opening closing : String) : Rule :=
  sequence [symbol opening, call .expression, symbol closing]

/-- Statements between braces. -/
def block : Rule :=
  sequence [symbol "\x7b", call .statements, symbol "\x7d"]

/-- A statement, by the word it begins with. -/
def statement : Rule :=
  choice
    [(.keyword ["let"], call .letStatement), (.keyword ["if"], call .ifStatement),
      (.keyword ["while"], call .whileStatement), (.keyword ["do"], call .doStatement)]
    (call .returnStatement)

/-- The arguments of a call. -/
def arguments : Rule :=
  sequence [symbol "(", call .expressionList, symbol ")"]

/-- What follows the first name of a call: the arguments, or a dot, another name and
then the arguments. -/
def callBranches : List (Terminal × Rule) :=
  [(.symbol ["."], sequence [symbol ".", identifier, arguments]),
    (.symbol ["("], arguments)]

/-! ## Classes of keywords and symbols -/

/-- The words that begin a declaration of class variables. -/
def classVarWords : List String := ["static", "field"]

/-- The words that begin a declaration of a subroutine. -/
def subroutineWords : List String := ["constructor", "function", "method"]

/-- The words that begin a statement. -/
def statementWords : List String := ["let", "if", "while", "do", "return"]

/-- The words that are terms by themselves. -/
def constantWords : List String := ["true", "false", "null", "this"]

/-- The operators that stand before their operand. -/
def unaryOperators : List String := ["-", "~"]

/-- What a term may begin with. -/
def termStart : Expected :=
  .oneOf (.ofKind .integerConstant :: .ofKind .stringConstant :: .ofKind .identifier ::
    (constantWords ++ "(" :: unaryOperators).map .literal)

end Rule

open Rule in
/-- The rule of every production. -/
def Nonterminal.rule : Nonterminal → Rule
  | .classDec =>
      sequence [
        keyword ["class"], identifier, symbol "\x7b",
        many (.keyword (classVarWords ++ subroutineWords))
          (branch (.keyword classVarWords) (call .classVarDec) (call .subroutineDec)),
        token (.symbol ["\x7d"]) (.words (classVarWords ++ subroutineWords ++ ["\x7d"]))]
  | .classVarDec => seq (keyword classVarWords) typedNames
  | .subroutineDec =>
      sequence [
        keyword subroutineWords, typeName true, identifier, symbol "(", call .parameterList,
        symbol ")", call .subroutineBody]
  | .parameterList => unlessNext (.symbol [")"]) (seq typedName (commaThen typedName))
  | .subroutineBody =>
      sequence [
        symbol "\x7b", many (.keyword ["var"]) (call .varDec), call .statements,
        symbol "\x7d"]
  | .varDec => seq (keyword ["var"]) typedNames
  | .statements => many (.keyword statementWords) statement
  | .letStatement =>
      sequence [
        keyword ["let"], identifier, optional (.symbol ["["]) (enclosed "[" "]"), symbol "=",
        call .expression, symbol ";"]
  | .ifStatement =>
      sequence [
        keyword ["if"], enclosed "(" ")", block,
        optional (.keyword ["else"]) (seq (keyword ["else"]) block)]
  | .whileStatement => sequence [keyword ["while"], enclosed "(" ")", block]
  | .doStatement =>
      sequence [
        keyword ["do"], identifier, choice callBranches (fail (.words ["(", "."])), symbol ";"]
  | .returnStatement =>
      sequence [
        keyword ["return"], unlessNext (.symbol [";"]) (call .expression), symbol ";"]
  | .expression => operators .term
  | .term =>
      choice [
        (.ofKind .integerConstant, terminal (.ofKind .integerConstant)),
        (.ofKind .stringConstant, terminal (.ofKind .stringConstant)),
        (.keyword constantWords, keyword constantWords),
        (.ofKind .identifier,
          seq identifier (choice ((.symbol ["["], enclosed "[" "]") :: callBranches) empty)),
        (.symbol ["("], enclosed "(" ")"),
        (.symbol unaryOperators, seq (terminal (.symbol unaryOperators)) (call .term))]
        (fail termStart)
  | .expressionList =>
      unlessNext (.symbol [")"]) (seq (call .expression) (commaThen (call .expression)))

end JackSyntax
