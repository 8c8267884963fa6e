import JackSyntax.Source.Front
import JackSyntax.Source.Position

/-!
# Scanning a source text

`scan` reads a text front by front and keeps the tokens, each with the place at which
it starts.  It ends at the end of the text or at the first fault.  A fault ends the
scan just past the characters that were read for it; it is reported at the place where
they start.

`tokenize` keeps the tokens of a scan without a fault.
-/

namespace JackSyntax

/-- A fault and the line and column at which the faulty text starts. -/
structure LexicalError where
  fault : LexicalFault
  line : Nat
  column : Nat
deriving DecidableEq

/-- The fault in words, after its place.  A run of digits of excessive length is
reported without a place. -/
def LexicalError.message (error : LexicalError) : String :=
  match error.fault with
  | .tooManyDigits count => (LexicalFault.tooManyDigits count).description
  | fault =>
      "line " ++ toString error.line ++ ", col " ++ toString error.column ++ ": " ++
        fault.description

/-- What a scan found: the tokens in order, the place where it ended, and the fault
that ended it early, if one did. -/
structure Scan where
  tokens : List Token
  stop : Position
  error? : Option LexicalError
deriving DecidableEq

/-- Scans a text that starts at a given place, after the tokens already found (last
one first). -/
def scanFrom (found : List Token) (position : Position) : List Char → Scan
  | [] => ⟨found.reverse, position, none⟩
  | first :: text =>
      let front := Front.read first text
      let stop := position.after front.spelled
      match front.reading with
      | .trivia => scanFrom found stop front.rest
      | .token kind value =>
          scanFrom (⟨kind, value, position.line, position.column⟩ :: found) stop front.rest
      | .fault fault =>
          ⟨found.reverse, stop, some ⟨fault, position.line, position.column⟩⟩
termination_by text => text.length
decreasing_by all_goals exact Front.length_read_rest_lt first text

/-- Tokens found earlier come first and change nothing else. -/
theorem scanFrom_append (found earlier : List Token) (position : Position)
    (text : List Char) :
    scanFrom (found ++ earlier) position text =
      { scanFrom found position text with
        tokens := earlier.reverse ++ (scanFrom found position text).tokens } := by
  fun_induction scanFrom found position text with
  | case1 => simp [scanFrom]
  | case2 found position first text front stop htrivia ih =>
      rw [scanFrom, ← ih]
      simp only [front, stop] at htrivia ⊢
      simp only [htrivia]
  | case3 found position first text front stop kind value htoken ih =>
      rw [scanFrom, ← ih]
      simp only [front, stop] at htoken ⊢
      simp only [htoken, List.cons_append]
  | case4 found position first text front stop fault hfault =>
      rw [scanFrom]
      simp only [front] at hfault
      simp [hfault, stop, front]

/-- Scans a whole source text. -/
def scan (source : String) : Scan :=
  scanFrom [] .start source.toList

/-- The tokens of a source text. -/
def tokenize (source : String) : Except LexicalError (List Token) :=
  let result := scan source
  match result.error? with
  | none => .ok result.tokens
  | some error => .error error

end JackSyntax
