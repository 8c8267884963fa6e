/-!
# The vocabulary of Jack

The reserved words, the punctuation and operator characters, and the greatest integer
constant.  Both lists are sorted by code point.
-/

namespace JackSyntax.Vocabulary

/-- The reserved words. -/
def keywords : List String :=
  ["boolean", "char", "class", "constructor", "do", "else", "false", "field", "function",
    "if", "int", "let", "method", "null", "return", "static", "this", "true", "var", "void",
    "while"]

/-- The characters that are tokens by themselves. -/
def symbols : List Char :=
  ['&', '(', ')', '*', '+', ',', '-', '.', '/', ';', '<', '=', '>', '[', ']', '{', '|', '}',
    '~']

/-- Integer constants are the non-negative numbers of a 16-bit word. -/
def maxInteger : Nat := 32767

/-- No number is read from a longer run of digits, leading zeros included. -/
def maxDigits : Nat := 4300

end JackSyntax.Vocabulary
