import JackSyntax.Tree.Walk

/-!
# What the walks visit

The walks with a stack visit the tokens and the nodes that the structural definitions name,
in the same order: at every moment a walk still has to visit the leaves, or the nodes, of
the trees on its stack, the innermost level first.
-/

namespace JackSyntax.Tree

/-- The leaves still to be visited from a stack of unvisited children. -/
def pendingLeaves (stack : List (List Tree)) : List Token :=
  stack.flatMap leavesAll

theorem tokensFrom_eq (visited : List Token) (stack : List (List Tree)) :
    tokensFrom visited stack = visited.reverse ++ pendingLeaves stack := by
  fun_induction tokensFrom visited stack with
  | case1 visited => simp [pendingLeaves]
  | case2 visited stack ih => simpa [pendingLeaves, leavesAll] using ih
  | case3 visited token pending stack ih => simpa [pendingLeaves, leavesAll, leaves] using ih
  | case4 visited label children pending stack ih =>
      simpa [pendingLeaves, leavesAll, leaves] using ih

/-- The walk visits the leaves of the tree from left to right. -/
theorem tokens_eq_leaves (tree : Tree) : tree.tokens = tree.leaves := by
  rw [tokens, tokensFrom_eq]
  simp [pendingLeaves, leavesAll]

theorem preorderAll_filter_isNode (trees : List Tree) :
    preorderAll (trees.filter isNode) = preorderAll trees := by
  induction trees with
  | nil => rfl
  | cons tree trees ih =>
      cases tree with
      | leaf token => simpa [isNode, preorderAll, preorder] using ih
      | node label children =>
          rw [List.filter_cons_of_pos rfl, preorderAll, preorderAll, ih]

theorem nodesFrom_eq (visited stack : List Tree) :
    nodesFrom visited stack = visited.reverse ++ preorderAll stack := by
  fun_induction nodesFrom visited stack with
  | case1 visited => simp [preorderAll]
  | case2 visited token stack ih => simpa [preorderAll, preorder] using ih
  | case3 visited label children stack ih =>
      have hchildren : preorderAll (node label children).childNodes = preorderAll children :=
        preorderAll_filter_isNode children
      rw [preorderAll_append, hchildren] at ih
      simpa [preorderAll, preorder] using ih

/-- The walk visits the nodes of the tree, each before the nodes under it. -/
theorem nodes_eq_preorder (tree : Tree) : tree.nodes = tree.preorder := by
  rw [nodes, nodesFrom_eq]
  simp [preorderAll]

end JackSyntax.Tree
