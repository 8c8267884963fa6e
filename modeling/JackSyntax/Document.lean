import JackSyntax.Tree.Walk

/-!
# XML documents

A document has one element per line.  A token is an element of its kind with the value
between two spaces; a node is an opening tag, its parts indented by two more spaces,
and a closing tag.  Of the characters of a value only `&`, `<` and `>` are escaped, and
labels are written as they are.

`Document.ofTree` writes a tree with a stack of its own, and `Document.layout` says what
the lines are by following the structure of the tree.  `Document.ofTokens` writes a
flat list of tokens.
-/

namespace JackSyntax.Document

/-! ## Elements -/

/-- A character of a value. -/
def escapeChar (c : Char) : List Char :=
  if c = '&' then "&amp;".toList
  else if c = '<' then "&lt;".toList
  else if c = '>' then "&gt;".toList
  else [c]

/-- A value without markup characters. -/
def escape (value : String) : String :=
  String.ofList (value.toList.flatMap escapeChar)

/-- The tag that begins an element. -/
def openTag (label : String) : String :=
  "<" ++ label ++ ">"

/-- The tag that ends an element. -/
def closeTag (label : String) : String :=
  "</" ++ label ++ ">"

/-- A token on one line. -/
def element (token : Token) : String :=
  openTag token.kind.tag ++ " " ++ escape token.value.toText ++ " " ++ closeTag token.kind.tag

/-- A line at a given depth. -/
def indent (depth : Nat) (line : String) : String :=
  String.ofList (List.replicate (2 * depth) ' ') ++ line

/-- Lines as text, each with its line feed. -/
def unlines (lines : List String) : String :=
  String.join (lines.map fun line => line ++ "\n")

/-! ## The layout of a tree -/

mutual

/-- The lines of a tree at a given depth. -/
def layout (depth : Nat) : Tree → List String
  | .leaf token => [indent depth (element token)]
  | .node label children =>
      indent depth (openTag label) :: layoutAll (depth + 1) children ++
        [indent depth (closeTag label)]

/-- The lines of several trees at a given depth. -/
def layoutAll (depth : Nat) : List Tree → List String
  | [] => []
  | tree :: trees => layout depth tree ++ layoutAll depth trees

end

/-! ## Writing a tree -/

/-- The measure of a stack of open elements: every element counts once more for its
end. -/
def openSize : List (String × List Tree) → Nat
  | [] => 0
  | (_, pending) :: stack => Tree.sizeAll pending + 1 + openSize stack

/-- Writes what is left of the open elements, innermost first, after the lines already
written (last one first).  The number of open elements is the depth of the next line. -/
def write (written : List String) : List (String × List Tree) → List String
  | [] => written.reverse
  | (label, []) :: stack =>
      write (indent stack.length (closeTag label) :: written) stack
  | (label, .leaf token :: pending) :: stack =>
      write (indent (stack.length + 1) (element token) :: written) ((label, pending) :: stack)
  | (label, .node inner children :: pending) :: stack =>
      write (indent (stack.length + 1) (openTag inner) :: written)
        ((inner, children) :: (label, pending) :: stack)
termination_by stack => openSize stack
decreasing_by all_goals simp [openSize, Tree.sizeAll, Tree.size]; try omega

/-- The lines of the document of a tree. -/
def treeLines : Tree → List String
  | .leaf token => [element token]
  | .node label children => write [openTag label] [(label, children)]

/-- The document of a tree. -/
def ofTree (tree : Tree) : String :=
  unlines (treeLines tree)

/-! ## Writing tokens -/

/-- The lines of the document of a list of tokens. -/
def tokenLines (tokens : List Token) : List String :=
  openTag "tokens" :: tokens.map element ++ [closeTag "tokens"]

/-- The document of a list of tokens. -/
def ofTokens (tokens : List Token) : String :=
  unlines (tokenLines tokens)

end JackSyntax.Document
