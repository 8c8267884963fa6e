import JackSyntax.Source.Character
import JackSyntax.Text.Quoted
import JackSyntax.Token.Basic
import JackSyntax.Token.Vocabulary

/-!
# The front of a source text

`Front.read` decides what a text begins with: a blank or a comment, which stand for
nothing, a token, or something that is no token at all.  It splits the text into the
characters that were read and the rest, and loses none of them (`Front.read_text`).

Every class takes the longest stretch it can: a word ends before the first character
that no word holds, a run of digits before the first other character, and a line
comment before the line feed.
-/

namespace JackSyntax

/-! ## Faults -/

/-- Why a text does not begin with a token. -/
inductive LexicalFault
  | unexpectedCharacter (c : Char)
  | unterminatedString
  | unterminatedComment
  /-- An integer above the greatest one, with its digits as written. -/
  | integerTooLarge (digits : String)
  /-- A run of digits that is too long to be read as a number. -/
  | tooManyDigits (count : Nat)
deriving DecidableEq

/-- The fault in words. -/
def LexicalFault.description : LexicalFault → String
  | .unexpectedCharacter c => "unexpected character " ++ Text.quoted (String.singleton c)
  | .unterminatedString => "unterminated string constant"
  | .unterminatedComment => "unterminated block comment"
  | .integerTooLarge digits =>
      "integer constant " ++ digits ++ " exceeds " ++ toString Vocabulary.maxInteger
  | .tooManyDigits count =>
      "Exceeds the limit (" ++ toString Vocabulary.maxDigits ++
        " digits) for integer string conversion: value has " ++ toString count ++
        " digits; use sys.set_int_max_str_digits() to increase the limit"

/-! ## Reading the front -/

/-- What stands at the front of a text. -/
inductive Reading
  /-- A blank or a comment. -/
  | trivia
  | token (kind : TokenKind) (value : TokenValue)
  | fault (fault : LexicalFault)
deriving DecidableEq

/-- What stands at the front of a text, the characters read, and the rest. -/
structure Front where
  reading : Reading
  spelled : List Char
  rest : List Char
deriving DecidableEq

namespace Front

/-- The whole text. -/
def text (front : Front) : List Char :=
  front.spelled ++ front.rest

/-- The text of a string constant, after its opening quote: it ends at the next quote,
which must come before the end of the line. -/
def readString (text : List Char) : Front :=
  let content := text.takeWhile isStringChar
  match text.dropWhile isStringChar with
  | '"' :: rest =>
      ⟨.token .stringConstant (.text (String.ofList content)), '"' :: content ++ ['"'], rest⟩
  | rest => ⟨.fault .unterminatedString, '"' :: content, rest⟩

/-- What a run of digits stands for. -/
def integerReading (digits : List Char) : Reading :=
  if Vocabulary.maxDigits < digits.length then .fault (.tooManyDigits digits.length)
  else if Vocabulary.maxInteger < digitsValue digits then
    .fault (.integerTooLarge (String.ofList digits))
  else .token .integerConstant (.integer (digitsValue digits))

/-- A run of digits with the given first one. -/
def readInteger (first : Char) (text : List Char) : Front :=
  let digits := first :: text.takeWhile Char.isDigit
  ⟨integerReading digits, digits, text.dropWhile Char.isDigit⟩

/-- The kind of a word: a keyword if it is reserved. -/
def wordKind (word : String) : TokenKind :=
  if word ∈ Vocabulary.keywords then .keyword else .identifier

/-- A word with the given first character. -/
def readWord (first : Char) (text : List Char) : Front :=
  let word := first :: text.takeWhile isWordChar
  ⟨.token (wordKind (String.ofList word)) (.text (String.ofList word)), word,
    text.dropWhile isWordChar⟩

/-- A single character that is a token, or no token at all. -/
def readSymbol (c : Char) (text : List Char) : Front :=
  if c ∈ Vocabulary.symbols then ⟨.token .symbol (.text (String.singleton c)), [c], text⟩
  else ⟨.fault (.unexpectedCharacter c), [c], text⟩

/-- A comment that ends before the line feed, after its two slashes. -/
def readLineComment (text : List Char) : Front :=
  ⟨.trivia, '/' :: '/' :: text.takeWhile (· ≠ '\n'), text.dropWhile (· ≠ '\n')⟩

/-- A comment that ends with the next star followed by a slash, after the characters
of it that have been read (last one first). -/
def readBlockComment (before : List Char) : List Char → Front
  | '*' :: '/' :: rest => ⟨.trivia, ('/' :: '*' :: before).reverse, rest⟩
  | c :: rest => readBlockComment (c :: before) rest
  | [] => ⟨.fault .unterminatedComment, before.reverse, []⟩

/-- A slash opens a comment if another slash or a star follows, and is a symbol by
itself otherwise. -/
def readSlash : List Char → Front
  | '/' :: rest => readLineComment rest
  | '*' :: rest => readBlockComment ['*', '/'] rest
  | text => readSymbol '/' text

/-- The front of a text with the given first character. -/
def read (first : Char) (text : List Char) : Front :=
  if first = '"' then readString text
  else if first.isDigit then readInteger first text
  else if isWordStart first then readWord first text
  else if isBlank first then ⟨.trivia, [first], text⟩
  else if first = '/' then readSlash text
  else readSymbol first text

/-! ## Nothing is lost -/

theorem readString_text (text : List Char) : (readString text).text = '"' :: text := by
  have hsplit : text.takeWhile isStringChar ++ text.dropWhile isStringChar = text :=
    List.takeWhile_append_dropWhile
  unfold readString
  split
  · next rest hrest =>
      rw [hrest] at hsplit
      simp [Front.text, hsplit]
  · simp [Front.text]

theorem readInteger_text (first : Char) (text : List Char) :
    (readInteger first text).text = first :: text := by
  simp [readInteger, Front.text]

theorem readWord_text (first : Char) (text : List Char) :
    (readWord first text).text = first :: text := by
  simp [readWord, Front.text]

theorem readSymbol_text (c : Char) (text : List Char) :
    (readSymbol c text).text = c :: text := by
  unfold readSymbol
  split <;> rfl

theorem readLineComment_text (text : List Char) :
    (readLineComment text).text = '/' :: '/' :: text := by
  simp [readLineComment, Front.text]

theorem readBlockComment_text (before text : List Char) :
    (readBlockComment before text).text = before.reverse ++ text := by
  fun_induction readBlockComment before text with
  | case1 => simp [Front.text]
  | case2 before c rest _ ih => simp [ih]
  | case3 => simp [Front.text]

theorem readSlash_text (text : List Char) : (readSlash text).text = '/' :: text := by
  unfold readSlash
  split
  · exact readLineComment_text _
  · simp [readBlockComment_text]
  · exact readSymbol_text _ _

/-- What was read and the rest make up the text. -/
theorem read_text (first : Char) (text : List Char) :
    (read first text).text = first :: text := by
  unfold read
  split
  · next hquote => rw [hquote, readString_text]
  split
  · exact readInteger_text first text
  split
  · exact readWord_text first text
  split
  · rfl
  split
  · next hslash => rw [hslash, readSlash_text]
  · exact readSymbol_text first text

/-! ## Something is read -/

theorem readBlockComment_spelled_ne_nil {before : List Char} (text : List Char)
    (hbefore : before ≠ []) : (readBlockComment before text).spelled ≠ [] := by
  fun_induction readBlockComment before text with
  | case1 => simp
  | case2 before c rest _ ih => exact ih (by simp)
  | case3 => simpa using hbefore

/-- At least one character is read. -/
theorem read_spelled_ne_nil (first : Char) (text : List Char) :
    (read first text).spelled ≠ [] := by
  unfold read
  split
  · unfold readString
    split <;> simp
  split
  · simp [readInteger]
  split
  · simp [readWord]
  split
  · simp
  split
  · unfold readSlash
    split
    · simp [readLineComment]
    · exact readBlockComment_spelled_ne_nil _ (by simp)
    · unfold readSymbol
      split <;> simp
  · unfold readSymbol
    split <;> simp

/-- The rest is shorter than the text. -/
theorem length_read_rest_lt (first : Char) (text : List Char) :
    (read first text).rest.length < (first :: text).length := by
  have hlength := congrArg List.length (read_text first text)
  have hspelled := List.length_pos_iff.mpr (read_spelled_ne_nil first text)
  simp only [Front.text, List.length_append] at hlength
  omega

end Front

end JackSyntax
