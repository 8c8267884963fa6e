/-!
# Decimal digits of every script

Each script that counts in tens has ten digits at consecutive code points, from its zero
to its nine.  `Text.isDecimalDigit` tells these characters (the general category `Nd` of
Unicode 14) from all others; the digits of ASCII are the first of them.
-/

namespace JackSyntax.Text

/-- The code points of the zeros, in ascending order. -/
def decimalZeros : List Nat := [
  0x30, 0x660, 0x6F0, 0x7C0, 0x966, 0x9E6, 0xA66, 0xAE6, 0xB66, 0xBE6, 0xC66, 0xCE6, 0xD66,
  0xDE6, 0xE50, 0xED0, 0xF20, 0x1040, 0x1090, 0x17E0, 0x1810, 0x1946, 0x19D0, 0x1A80,
  0x1A90, 0x1B50, 0x1BB0, 0x1C40, 0x1C50, 0xA620, 0xA8D0, 0xA900, 0xA9D0, 0xA9F0, 0xAA50,
  0xABF0, 0xFF10, 0x104A0, 0x10D30, 0x11066, 0x110F0, 0x11136, 0x111D0, 0x112F0, 0x11450,
  0x114D0, 0x11650, 0x116C0, 0x11730, 0x118E0, 0x11950, 0x11C50, 0x11D50, 0x11DA0, 0x16A60,
  0x16AC0, 0x16B50, 0x1D7CE, 0x1D7D8, 0x1D7E2, 0x1D7EC, 0x1D7F6, 0x1E140, 0x1E2F0, 0x1E950,
  0x1FBF0]

/-- A character is a decimal digit when it is one of the ten from a zero on. -/
def isDecimalDigit (c : Char) : Bool :=
  decimalZeros.any fun first => first ≤ c.toNat && c.toNat < first + 10

/-- The digits of ASCII are decimal digits. -/
theorem isDecimalDigit_of_isDigit {c : Char} (hdigit : c.isDigit = true) :
    isDecimalDigit c = true := by
  obtain ⟨hleast, hgreatest⟩ := Char.isDigit_iff_toNat.mp hdigit
  have hzero : 0x30 ∈ decimalZeros := by decide
  refine List.any_eq_true.mpr ⟨0x30, hzero, ?_⟩
  simp only [Bool.and_eq_true, decide_eq_true_eq]
  have : '0'.toNat = 0x30 := rfl
  have : '9'.toNat = 0x39 := rfl
  omega

/-- Below the end of ASCII no other character is a decimal digit. -/
theorem isDigit_of_isDecimalDigit {c : Char} (hdigit : isDecimalDigit c = true)
    (hascii : c.toNat < 128) : c.isDigit = true := by
  obtain ⟨first, hfirst, hrange⟩ := List.any_eq_true.mp hdigit
  simp only [Bool.and_eq_true, decide_eq_true_eq] at hrange
  have hzeros : ∀ first ∈ decimalZeros, first = 0x30 ∨ 128 ≤ first := by decide
  have := hzeros first hfirst
  refine Char.isDigit_iff_toNat.mpr ?_
  have : '0'.toNat = 0x30 := rfl
  have : '9'.toNat = 0x39 := rfl
  omega

end JackSyntax.Text
