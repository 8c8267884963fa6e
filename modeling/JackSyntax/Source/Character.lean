/-!
# Classes of characters

The characters that a source text is made of fall into classes, and a token begins and
goes on with characters of certain classes only.  Letters and digits are those of ASCII.
-/

namespace JackSyntax

/-- The characters that separate tokens and mean nothing else. -/
def isBlank (c : Char) : Bool :=
  c = ' ' || c = '\t' || c = '\r' || c = '\n' || c = '\x0c'

/-- The characters a word may begin with: the letters of ASCII and the underscore. -/
def isWordStart (c : Char) : Bool :=
  c.isAlpha || c = '_'

/-- The characters a word may go on with: those and the decimal digits. -/
def isWordChar (c : Char) : Bool :=
  c.isAlphanum || c = '_'

/-- The characters a string constant may hold. -/
def isStringChar (c : Char) : Bool :=
  c ≠ '"' && c ≠ '\n'

/-- The number that a run of digits writes. -/
def digitsValue (digits : List Char) : Nat :=
  Nat.ofDigitChars 10 digits 0

theorem digitsValue_repr (number : Nat) : digitsValue number.repr.toList = number := by
  rw [Nat.toList_repr]
  exact Nat.ofDigitChars_toDigits (by decide) (by decide)

/-- Leading zeros do not count. -/
theorem digitsValue_zeros_append (count : Nat) (digits : List Char) :
    digitsValue (List.replicate count '0' ++ digits) = digitsValue digits := by
  induction count with
  | zero => rfl
  | succ count ih =>
      rw [List.replicate_succ, List.cons_append, digitsValue, Nat.ofDigitChars_cons]
      exact ih

end JackSyntax
