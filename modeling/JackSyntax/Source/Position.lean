/-!
# Positions in a source text

A position counts the characters before it, and names its line and column, both from
one.  Only the line feed ends a line: every other character, the tab and the carriage
return too, takes one column.
-/

namespace JackSyntax

/-- A place between two characters of a text. -/
structure Position where
  /-- The number of characters before it. -/
  offset : Nat
  line : Nat
  column : Nat
deriving DecidableEq

namespace Position

/-- The place before the first character. -/
def start : Position := ⟨0, 1, 1⟩

/-- The place after one more character. -/
def next (position : Position) (c : Char) : Position :=
  if c = '\n' then ⟨position.offset + 1, position.line + 1, 1⟩
  else ⟨position.offset + 1, position.line, position.column + 1⟩

/-- The place after a stretch of text. -/
def after (position : Position) (text : List Char) : Position :=
  text.foldl next position

@[simp] theorem after_nil (position : Position) : position.after [] = position := rfl

@[simp] theorem after_cons (position : Position) (c : Char) (text : List Char) :
    position.after (c :: text) = (position.next c).after text := rfl

@[simp] theorem after_append (position : Position) (first second : List Char) :
    position.after (first ++ second) = (position.after first).after second := by
  simp [after]

@[simp] theorem offset_next (position : Position) (c : Char) :
    (position.next c).offset = position.offset + 1 := by
  unfold next
  split <;> rfl

@[simp] theorem offset_after (position : Position) (text : List Char) :
    (position.after text).offset = position.offset + text.length := by
  induction text generalizing position with
  | nil => rfl
  | cons c text ih => simp [ih]; omega

end Position

end JackSyntax
