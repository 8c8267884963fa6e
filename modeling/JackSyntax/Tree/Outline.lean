import JackSyntax.Tree.Basic

/-!
# Outlines

An outline shows a tree without kinds and places: every node as its label and the
outlines of its children, every token as its lexeme.
-/

namespace JackSyntax

/-- A lexeme, or a label with the outlines under it. -/
inductive Outline
  | word (lexeme : String)
  | group (label : String) (parts : List Outline)

namespace Tree

mutual

/-- The outline of a tree. -/
def outline : Tree → Outline
  | leaf token => .word token.lexeme
  | node label children => .group label (outlineAll children)

/-- The outlines of several trees. -/
def outlineAll : List Tree → List Outline
  | [] => []
  | tree :: trees => outline tree :: outlineAll trees

end

end Tree

end JackSyntax
