import JackSyntax.Cursor

/-!
# Sessions

In a session somebody works with a cursor by hand: moves it, looks at the tokens beside
it, requires tokens for a node, and has productions read.  All of this shares the one
cursor.  An operation that fails leaves the session at a place from which the next one
goes on.
-/

namespace JackSyntax

/-- What the next token is required to be. -/
inductive Requirement
  | keyword (words : List String)
  | symbol (marks : List String)
  | identifier
  | typeName (allowVoid : Bool)
deriving DecidableEq

namespace Requirement

/-- The tokens that meet a requirement. -/
def terminal : Requirement → Terminal
  | keyword words => .keyword words
  | symbol marks => .symbol marks
  | identifier => .ofKind .identifier
  | typeName allowVoid => Rule.typeStart allowVoid

/-- A requirement as something to expect. -/
def expected : Requirement → Expected
  | typeName allowVoid => Rule.typeExpected allowVoid
  | requirement => requirement.terminal.expected

end Requirement

/-- One operation of a session. -/
inductive Operation
  | advance
  | retreat
  | peek
  | hasMore
  | current
  | last
  | kind
  /-- The value of the current token, which must have a given kind. -/
  | value (kind : TokenKind)
  /-- Whether the next token belongs to a class. -/
  | isNext (terminal : Terminal)
  /-- Takes the next token, and adds it to the node. -/
  | require (requirement : Requirement)
  | read (name : Nonterminal)
  | readProgram
deriving DecidableEq

/-- What an operation answers. -/
inductive Answer
  | nothing
  | flag (holds : Bool)
  | token (token : Token)
  /-- A token, if there is one at the place in question. -/
  | place (token? : Option Token)
  | kind (kind : TokenKind)
  | value (value : TokenValue)
  | tree (tree : Tree)

/-- Why an operation fails. -/
inductive SessionError
  | cursor (error : CursorError)
  | grammatical (error : SyntaxError)
deriving DecidableEq

/-- A cursor, and the node to which required tokens are added. -/
structure Session where
  cursor : Cursor
  /-- The children of the node. -/
  children : List Tree

namespace Session

/-- The session before the first of some tokens, with the children that the node has. -/
def start (tokens : List Token) (children : List Tree) : Session :=
  ⟨.ofTokens tokens, children⟩

/-- Looks, and changes nothing. -/
def look {α : Type} (session : Session) (seen : Except CursorError α) (answer : α → Answer) :
    Except SessionError Answer × Session :=
  ((seen.mapError .cursor).map answer, session)

/-- Takes the next token if it meets a requirement. -/
def require (session : Session) (requirement : Requirement) :
    Except SessionError Answer × Session :=
  match session.cursor.read (readToken requirement.terminal requirement.expected) with
  | (.ok token, cursor) => (.ok (.token token), ⟨cursor, session.children ++ [.leaf token]⟩)
  | (.error error, cursor) => (.error (.grammatical error), { session with cursor })

/-- Reads a tree. -/
def readTree (session : Session) (parser : Parser Tree) : Except SessionError Answer × Session :=
  match session.cursor.read parser with
  | (.ok tree, cursor) => (.ok (.tree tree), { session with cursor })
  | (.error error, cursor) => (.error (.grammatical error), { session with cursor })

/-- The answer of an operation, and the session after it. -/
def perform (table : PrecedenceTable) (stack : CallStack) (session : Session) :
    Operation → Except SessionError Answer × Session
  | .advance =>
      match session.cursor.advance with
      | .ok (token, cursor) => (.ok (.token token), { session with cursor })
      | .error error => (.error (.cursor error), session)
  | .retreat =>
      match session.cursor.retreat with
      | .ok cursor => (.ok .nothing, { session with cursor })
      | .error error => (.error (.cursor error), session)
  | .peek => session.look (.ok session.cursor.peek?) .place
  | .hasMore => session.look (.ok session.cursor.hasMore) .flag
  | .current => session.look session.cursor.current .token
  | .last => session.look (.ok session.cursor.last?) .place
  | .kind => session.look session.cursor.kind .kind
  | .value kind => session.look (session.cursor.valueOf kind) .value
  | .isNext terminal => session.look (.ok (terminal.acceptsNext session.cursor.ahead)) .flag
  | .require requirement => session.require requirement
  | .read name => session.readTree (name.parse table stack)
  | .readProgram => session.readTree (parseProgram table stack)

end Session

end JackSyntax
