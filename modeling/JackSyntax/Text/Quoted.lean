import JackSyntax.Text.Printable

/-!
# Quoted text

Messages name pieces of source text in quotes.  `Text.quoted` puts single quotes
around a text, or double quotes where the text holds a single quote and no double
one, so that the quote in use rarely needs a backslash.  A backslash, the quote in
use, the tab, the line feed and the carriage return are written with a backslash;
any other character that is not printable is written as its code point in lower-case
hexadecimal digits.
-/

namespace JackSyntax.Text

/-- The last `width` hexadecimal digits of a number, the most significant first. -/
def hexDigits : Nat → Nat → List Char
  | 0, _ => []
  | width + 1, number => hexDigits width (number / 16) ++ [Nat.digitChar (number % 16)]

@[simp] theorem length_hexDigits (width number : Nat) :
    (hexDigits width number).length = width := by
  induction width generalizing number with
  | zero => rfl
  | succ width ih => simp [hexDigits, ih]

/-- A code point in the shortest of the three fixed widths that can hold it. -/
def codePointEscape (code : Nat) : List Char :=
  if code < 0x100 then '\\' :: 'x' :: hexDigits 2 code
  else if code < 0x10000 then '\\' :: 'u' :: hexDigits 4 code
  else '\\' :: 'U' :: hexDigits 8 code

/-- One character of a text that stands between two of the given quotes. -/
def escapeChar (quote c : Char) : List Char :=
  if c = quote ∨ c = '\\' then ['\\', c]
  else if c = '\t' then ['\\', 't']
  else if c = '\n' then ['\\', 'n']
  else if c = '\r' then ['\\', 'r']
  else if isPrintable c then [c]
  else codePointEscape c.toNat

/-- The quote that goes around a text: the double quote only where it saves a
backslash. -/
def quoteFor (text : List Char) : Char :=
  if '\'' ∈ text ∧ '"' ∉ text then '"' else '\''

/-- A text between quotes. -/
def quoted (text : String) : String :=
  let quote := quoteFor text.toList
  String.ofList (quote :: text.toList.flatMap (escapeChar quote) ++ [quote])

end JackSyntax.Text
