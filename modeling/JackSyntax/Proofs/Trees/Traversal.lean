import JackSyntax.Proofs.Trees.Tour
import Mathlib.Logic.Function.Iterate

/-!
# The walks turn by turn

A walk goes around a loop until its stack is empty.  `tokenTurn` and `nodeTurn` are one turn
of the two loops: what is visited in the turn, and the stack after it.  Every turn of the
first lowers the measure of its stack by one (`iterate_tokenTurn`), and every turn of the
second takes one node off what is still to be visited (`iterate_nodeTurn`), so the number of
turns is known before the walk begins, however deep the tree.

`walks_list_every_part_once` puts this together with the tour of the tree.
-/

namespace JackSyntax.Tree

/-! ## Tokens -/

/-- One turn of the walk over the tokens: the innermost level of unvisited children ends, or
gives its next child, a token to visit or a node to go down into. -/
def tokenTurn : List Token × List (List Tree) → List Token × List (List Tree)
  | (visited, []) => (visited, [])
  | (visited, [] :: stack) => (visited, stack)
  | (visited, (leaf token :: pending) :: stack) => (token :: visited, pending :: stack)
  | (visited, (node _ children :: pending) :: stack) => (visited, children :: pending :: stack)

/-- The walk over the tokens ends after as many turns as the measure of its stack. -/
theorem iterate_tokenTurn (visited : List Token) (stack : List (List Tree)) :
    tokenTurn^[pendingSize stack] (visited, stack) = ((tokensFrom visited stack).reverse, []) := by
  fun_induction tokensFrom visited stack with
  | case1 visited => rw [List.reverse_reverse]; rfl
  | case2 visited stack ih =>
      have hturn : pendingSize ([] :: stack) = pendingSize stack + 1 := by
        simp only [pendingSize, sizeAll]
        omega
      rw [hturn, Function.iterate_succ_apply]
      exact ih
  | case3 visited token pending stack ih =>
      have hturn : pendingSize ((leaf token :: pending) :: stack) =
          pendingSize (pending :: stack) + 1 := by
        simp only [pendingSize, sizeAll, size]
        omega
      rw [hturn, Function.iterate_succ_apply]
      exact ih
  | case4 visited label children pending stack ih =>
      have hturn : pendingSize ((node label children :: pending) :: stack) =
          pendingSize (children :: pending :: stack) + 1 := by
        simp only [pendingSize, sizeAll, size]
        omega
      rw [hturn, Function.iterate_succ_apply]
      exact ih

/-! ## Nodes -/

/-- One turn of the walk over the nodes: the node on top is visited, and its child nodes take
its place. -/
def nodeTurn : List Tree × List Tree → List Tree × List Tree
  | (visited, []) => (visited, [])
  | (visited, part :: stack) => (part :: visited, part.childNodes ++ stack)

/-- The walk over the nodes ends after as many turns as there are nodes on its stack and
under them. -/
theorem iterate_nodeTurn (visited stack : List Tree) (hstack : ∀ part ∈ stack, part.isNode = true) :
    nodeTurn^[(preorderAll stack).length] (visited, stack) =
      ((nodesFrom visited stack).reverse, []) := by
  fun_induction nodesFrom visited stack with
  | case1 visited => rw [List.reverse_reverse]; rfl
  | case2 visited token stack ih => exact absurd (hstack _ List.mem_cons_self) Bool.false_ne_true
  | case3 visited label children stack ih =>
      have hturn : (preorderAll (node label children :: stack)).length =
          (preorderAll ((node label children).childNodes ++ stack)).length + 1 := by
        have hchildren : preorderAll (node label children).childNodes = preorderAll children :=
          preorderAll_filter_isNode children
        rw [preorderAll_append, hchildren]
        rfl
      have hnodes : ∀ part ∈ (node label children).childNodes ++ stack, part.isNode = true := by
        intro part hpart
        rcases List.mem_append.mp hpart with hchild | hpart
        · exact (List.mem_filter.mp hchild).2
        · exact hstack part (List.mem_cons_of_mem _ hpart)
      rw [hturn, Function.iterate_succ_apply]
      exact ih hnodes

mutual

/-- The number of nodes of a tree, by its structure. -/
def nodeCount : Tree → Nat
  | leaf _ => 0
  | node _ children => nodeCountAll children + 1

/-- The number of nodes of several trees together. -/
def nodeCountAll : List Tree → Nat
  | [] => 0
  | tree :: trees => nodeCount tree + nodeCountAll trees

end

mutual

theorem length_preorder : ∀ tree : Tree, tree.preorder.length = tree.nodeCount
  | leaf _ => rfl
  | node label children => by
      rw [preorder, List.length_cons, length_preorderAll children, nodeCount]

theorem length_preorderAll :
    ∀ trees : List Tree, (preorderAll trees).length = nodeCountAll trees
  | [] => rfl
  | tree :: trees => by
      rw [preorderAll, List.length_append, length_preorder tree, length_preorderAll trees,
        nodeCountAll]

end

/-! ## Searching -/

/-- What is searched for by its label is a node. -/
theorem hasLabel_eq (label : String) :
    hasLabel label = fun part => part.isNode && hasLabel label part := by
  funext part
  cases part <;> simp [hasLabel, isNode]

theorem findAll_eq_partsOf (tree : Tree) (label : String) :
    tree.findAll label = partsOf (hasLabel label) tree.tour := by
  rw [findAll, nodes_eq_preorder, ← partsOf_isNode_tour, partsOf_filter, ← hasLabel_eq]

/-! ## The main result -/

/-- The walks with a stack of their own end, and visit what the structure of the tree says.

The walk over the tokens starts with the children of the root, takes as many turns as they
have tokens, ends and beginnings of nodes, and one more, and visits the tokens of the tree
from left to right.  The walk over the nodes takes a turn for every node, and visits each
before the nodes under it, the root first.  Both visit every part once, at ascending paths;
so do the searches among the nodes with a label, and a single search gives the first one. -/
theorem walks_list_every_part_once (label : String) (children : List Tree) :
    let tree := node label children
    (tokenTurn^[sizeAll children + 1] ([], [children]) = (tree.tokens.reverse, []) ∧
        tree.tokens = tree.leaves ∧
        tree.ListsParts (fun part => !part.isNode) (tree.tokens.map leaf)) ∧
      (nodeTurn^[tree.countNodes] ([], [tree]) = (tree.nodes.reverse, []) ∧
        tree.nodes = tree.preorder ∧
        tree.ListsParts isNode tree.nodes ∧
        tree.countNodes = tree.nodeCount) ∧
      ∀ wanted : String,
        tree.findAll wanted = tree.preorder.filter (hasLabel wanted) ∧
          tree.ListsParts (hasLabel wanted) (tree.findAll wanted) ∧
          tree.find? wanted = (tree.findAll wanted).head? := by
  intro tree
  have htokens : tree.tokens = tree.leaves := tokens_eq_leaves tree
  have hnodes : tree.nodes = tree.preorder := nodes_eq_preorder tree
  refine ⟨⟨?_, htokens, ?_⟩, ⟨?_, hnodes, ?_, ?_⟩, fun wanted => ⟨?_, ?_, ?_⟩⟩
  · have hturns := iterate_tokenTurn [] [children]
    rw [tokensFrom_eq] at hturns
    rw [htokens]
    simpa [pendingSize, pendingLeaves, tree, leaves] using hturns
  · rw [htokens, ← partsOf_isLeaf_tour]
    exact listsParts_partsOf tree _
  · have hturns := iterate_nodeTurn [] [tree] (by simp [tree, isNode])
    rwa [preorderAll, preorderAll, List.append_nil, ← hnodes] at hturns
  · rw [hnodes, ← partsOf_isNode_tour]
    exact listsParts_partsOf tree _
  · rw [countNodes, hnodes, length_preorder]
  · rw [findAll, hnodes]
  · rw [findAll_eq_partsOf]
    exact listsParts_partsOf tree _
  · rw [find?, findAll, List.head?_filter]

end JackSyntax.Tree
