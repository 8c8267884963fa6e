import JackSyntax.Tree.Basic

/-!
# Walks over a tree with an explicit stack

A parse tree is as deep as its source nests, so the walks keep what is still to be
visited in a stack of their own.  `Tree.tokens` keeps the unvisited children of every
node on the way down; `Tree.nodes` keeps single nodes and replaces the one it visits by
its child nodes.  Searching and counting follow the order of `Tree.nodes`.
-/

namespace JackSyntax.Tree

/-! ## Tokens -/

/-- The measure of a stack of unvisited children: every level counts once more for its
end. -/
def pendingSize : List (List Tree) → Nat
  | [] => 0
  | pending :: stack => sizeAll pending + 1 + pendingSize stack

/-- Visits the children on a stack, innermost level first, after the tokens already
visited (last one first). -/
def tokensFrom (visited : List Token) : List (List Tree) → List Token
  | [] => visited.reverse
  | [] :: stack => tokensFrom visited stack
  | (leaf token :: pending) :: stack => tokensFrom (token :: visited) (pending :: stack)
  | (node _ children :: pending) :: stack =>
      tokensFrom visited (children :: pending :: stack)
termination_by stack => pendingSize stack
decreasing_by all_goals simp [pendingSize, sizeAll, size]; try omega

/-- The tokens of a tree in the order of the source text. -/
def tokens (tree : Tree) : List Token :=
  tokensFrom [] [[tree]]

/-! ## Nodes -/

private theorem sizeAll_filter_le (keep : Tree → Bool) (trees : List Tree) :
    sizeAll (trees.filter keep) ≤ sizeAll trees := by
  induction trees with
  | nil => simp
  | cons tree trees ih =>
      by_cases hkeep : keep tree <;> simp [hkeep, sizeAll] <;> omega

/-- Visits the trees on a stack, after the nodes already visited (last one first).
Tokens are passed over. -/
def nodesFrom (visited : List Tree) : List Tree → List Tree
  | [] => visited.reverse
  | leaf _ :: stack => nodesFrom visited stack
  | node label children :: stack =>
      nodesFrom (node label children :: visited)
        ((node label children).childNodes ++ stack)
termination_by stack => sizeAll stack
decreasing_by
  · simp [sizeAll, size]
  · have := sizeAll_filter_le isNode children
    simp only [childNodes, Tree.children, sizeAll_append, sizeAll, size]
    omega

/-- The nodes of a tree, each before the nodes under it. -/
def nodes (tree : Tree) : List Tree :=
  nodesFrom [] [tree]

/-- The first node with a label. -/
def find? (tree : Tree) (label : String) : Option Tree :=
  tree.nodes.find? (hasLabel label)

/-- Every node with a label. -/
def findAll (tree : Tree) (label : String) : List Tree :=
  tree.nodes.filter (hasLabel label)

/-- The number of nodes. -/
def countNodes (tree : Tree) : Nat :=
  tree.nodes.length

end JackSyntax.Tree
