import JackSyntax.Document
import JackSyntax.Proofs.Trees.Tokens

/-!
# The lines of a document

The writer keeps the open elements on a stack of its own, and the number of open elements
is the depth of the next line.  What it still has to write is, for every open element, the
layout of the children that are left and then the closing tag (`pendingLines`), so the
lines of a document are the layout of its tree (`treeLines_eq_layout`).

The places of tokens are not written (`ofTree_mapTokens`).
-/

namespace JackSyntax.Document

open JackSyntax.Tree

theorem toList_unlines_cons (line : String) (lines : List String) :
    (unlines (line :: lines)).toList = line.toList ++ '\n' :: (unlines lines).toList := by
  simp [unlines]

theorem toList_unlines_append (first second : List String) :
    (unlines (first ++ second)).toList = (unlines first).toList ++ (unlines second).toList := by
  simp [unlines]

@[simp] theorem indent_zero (line : String) : indent 0 line = line := by
  simp [indent]

/-! ## Writing with a stack -/

/-- The lines that are still to be written for the open elements, innermost first. -/
def pendingLines : List (String × List Tree) → List String
  | [] => []
  | (label, pending) :: stack =>
      layoutAll (stack.length + 1) pending ++
        indent stack.length (closeTag label) :: pendingLines stack

theorem write_eq (written : List String) (stack : List (String × List Tree)) :
    write written stack = written.reverse ++ pendingLines stack := by
  fun_induction write written stack with
  | case1 written => simp [pendingLines]
  | case2 written label stack ih => simpa [pendingLines, layoutAll] using ih
  | case3 written label token pending stack ih =>
      simpa [pendingLines, layoutAll, layout] using ih
  | case4 written label inner children pending stack ih =>
      simpa [pendingLines, layoutAll, layout] using ih

/-- The lines of a document are the layout of its tree. -/
theorem treeLines_eq_layout (tree : Tree) : treeLines tree = layout 0 tree := by
  cases tree with
  | leaf token => simp [treeLines, layout]
  | node label children => simp [treeLines, write_eq, pendingLines, layout]

/-! ## What is not written -/

mutual

theorem layout_mapTokens {change : Token → Token}
    (hchange : ∀ token, element (change token) = element token) (depth : Nat) :
    ∀ tree : Tree, layout depth (tree.mapTokens change) = layout depth tree
  | leaf token => by rw [mapTokens, layout, layout, hchange]
  | node label children => by
      rw [mapTokens, layout, layout, layoutAll_mapTokensAll hchange (depth + 1) children]

theorem layoutAll_mapTokensAll {change : Token → Token}
    (hchange : ∀ token, element (change token) = element token) (depth : Nat) :
    ∀ trees : List Tree, layoutAll depth (mapTokensAll change trees) = layoutAll depth trees
  | [] => rfl
  | tree :: trees => by
      rw [mapTokensAll, layoutAll, layoutAll, layout_mapTokens hchange depth tree,
        layoutAll_mapTokensAll hchange depth trees]

end

/-- The document is the same when only what is not written of the tokens changes. -/
theorem ofTree_mapTokens {change : Token → Token}
    (hchange : ∀ token, element (change token) = element token) (tree : Tree) :
    ofTree (tree.mapTokens change) = ofTree tree := by
  rw [ofTree, ofTree, treeLines_eq_layout, treeLines_eq_layout, layout_mapTokens hchange]

end JackSyntax.Document
