import JackSyntax.Grammar.Parse
import JackSyntax.Grammar.SyntaxError

/-!
# A cursor over tokens

A cursor stands between the tokens that were taken and those still to come.  It moves
onto the next token, and back by one token; a second step back needs a step forward
before it.  Reading a production moves it past the tokens that were read, also when the
reading stops half way: then it stands before the token that was in the way.
-/

namespace JackSyntax

/-- The tokens on both sides of a cursor. -/
structure Cursor where
  /-- The tokens already taken, last one first. -/
  behind : List Token
  ahead : List Token
  /-- Whether a step back is allowed. -/
  mayRetreat : Bool
deriving DecidableEq

/-- What a cursor cannot do. -/
inductive CursorError
  | endOfInput
  | noPriorToken
  | noCurrentToken
  /-- The current token has another kind than the one asked for. -/
  | wrongKind (found wanted : TokenKind)
deriving DecidableEq

/-- The error in words. -/
def CursorError.message : CursorError → String
  | .endOfInput => "advance() called with no tokens remaining"
  | .noPriorToken => "retreat() requires an advance() since the last retreat"
  | .noCurrentToken => "no current token; call advance() first"
  | .wrongKind found wanted => "current token is " ++ found.tag ++ ", not " ++ wanted.tag

namespace Cursor

/-- The cursor before the first of some tokens. -/
def ofTokens (tokens : List Token) : Cursor :=
  ⟨[], tokens, false⟩

/-- All tokens, in order. -/
def tokens (cursor : Cursor) : List Token :=
  cursor.behind.reverse ++ cursor.ahead

/-- The number of tokens taken. -/
def position (cursor : Cursor) : Nat :=
  cursor.behind.length

/-! ## Looking -/

/-- Whether a token is left to take. -/
def hasMore (cursor : Cursor) : Bool :=
  !cursor.ahead.isEmpty

/-- The next token. -/
def peek? (cursor : Cursor) : Option Token :=
  cursor.ahead.head?

/-- The token taken last. -/
def current (cursor : Cursor) : Except CursorError Token :=
  match cursor.behind with
  | [] => .error .noCurrentToken
  | token :: _ => .ok token

/-- The last of all tokens. -/
def last? (cursor : Cursor) : Option Token :=
  cursor.ahead.getLast?.or cursor.behind.head?

/-- The kind of the token taken last. -/
def kind (cursor : Cursor) : Except CursorError TokenKind :=
  cursor.current.map Token.kind

/-- The value of the token taken last, which must have a given kind. -/
def valueOf (cursor : Cursor) (kind : TokenKind) : Except CursorError TokenValue :=
  match cursor.current with
  | .error error => .error error
  | .ok token => if token.kind = kind then .ok token.value else .error (.wrongKind token.kind kind)

/-! ## Moving -/

/-- The next token and the cursor after it. -/
def advance (cursor : Cursor) : Except CursorError (Token × Cursor) :=
  match cursor.ahead with
  | [] => .error .endOfInput
  | token :: ahead => .ok (token, ⟨token :: cursor.behind, ahead, true⟩)

/-- The cursor before the token taken last. -/
def retreat (cursor : Cursor) : Except CursorError Cursor :=
  match cursor.mayRetreat, cursor.behind with
  | true, token :: behind => .ok ⟨behind, token :: cursor.ahead, false⟩
  | _, _ => .error .noPriorToken

/-- The cursor before the given last tokens of those ahead. -/
def moveTo (cursor : Cursor) (rest : List Token) : Cursor :=
  let taken := cursor.ahead.take (cursor.ahead.length - rest.length)
  ⟨taken.reverse ++ cursor.behind, rest, cursor.mayRetreat || !taken.isEmpty⟩

/-- Reads the tokens ahead, and moves the cursor to where the reading ended. -/
def read {α : Type} (cursor : Cursor) (parser : Parser α) : Except SyntaxError α × Cursor :=
  match parser cursor.ahead with
  | .done value rest => (.ok value, cursor.moveTo rest)
  | .stopped obstacle rest => (.error (.before obstacle rest cursor.last?), cursor.moveTo rest)

@[simp] theorem tokens_ofTokens (tokens : List Token) : (ofTokens tokens).tokens = tokens := rfl

@[simp] theorem position_ofTokens (tokens : List Token) : (ofTokens tokens).position = 0 := rfl

theorem tokens_advance {cursor moved : Cursor} {token : Token}
    (hadvance : cursor.advance = .ok (token, moved)) : moved.tokens = cursor.tokens := by
  cases hahead : cursor.ahead with
  | nil => simp [advance, hahead] at hadvance
  | cons next rest =>
      simp only [advance, hahead, Except.ok.injEq, Prod.mk.injEq] at hadvance
      simp [tokens, ← hadvance.2, hahead]

theorem tokens_retreat {cursor moved : Cursor} (hretreat : cursor.retreat = .ok moved) :
    moved.tokens = cursor.tokens := by
  unfold retreat at hretreat
  split at hretreat
  · next hbehind =>
      simp only [Except.ok.injEq] at hretreat
      simp [tokens, ← hretreat, hbehind]
  · simp at hretreat

theorem tokens_moveTo {cursor : Cursor} {rest : List Token} (hrest : rest <:+ cursor.ahead) :
    (cursor.moveTo rest).tokens = cursor.tokens := by
  obtain ⟨taken, htaken⟩ := hrest
  simp [tokens, moveTo, ← htaken]

theorem read_congr {α : Type} {cursor : Cursor} {first second : Parser α}
    (hsame : first cursor.ahead = second cursor.ahead) :
    cursor.read first = cursor.read second := by
  rw [read, read, hsame]

theorem read_map {α β : Type} (f : α → β) (cursor : Cursor) (parser : Parser α) :
    cursor.read (fun tokens => (parser tokens).map f) =
      ((cursor.read parser).1.map f, (cursor.read parser).2) := by
  cases hread : parser cursor.ahead <;> simp [read, hread, Except.map]

theorem last?_eq (cursor : Cursor) : cursor.last? = cursor.tokens.getLast? := by
  simp [last?, tokens, List.getLast?_append]

end Cursor

end JackSyntax
