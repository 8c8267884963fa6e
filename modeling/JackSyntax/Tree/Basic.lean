import JackSyntax.Token.Basic

/-!
# Parse trees

A parse tree has tokens at its leaves.  An inner node carries the name of the
production it stands for and its parts, nodes and tokens mixed, in the order of the
source text.

The functions of this module follow the structure of the tree.  `JackSyntax.Tree.Walk`
visits the same tokens and nodes with a stack of its own.
-/

namespace JackSyntax

/-- A token, or a labelled node with its children. -/
inductive Tree
  | leaf (token : Token)
  | node (label : String) (children : List Tree)

namespace Tree

/-- Whether a tree is a node with the given label. -/
def hasLabel (label : String) : Tree → Bool
  | leaf _ => false
  | node own _ => own = label

/-- The label of a node. -/
def label? : Tree → Option String
  | leaf _ => none
  | node label _ => some label

/-- The children of a node; a token has none. -/
def children : Tree → List Tree
  | leaf _ => []
  | node _ children => children

/-- Whether a tree is an inner node. -/
def isNode : Tree → Bool
  | leaf _ => false
  | node _ _ => true

/-- The children that are nodes themselves. -/
def childNodes (tree : Tree) : List Tree :=
  tree.children.filter isNode

mutual

/-- The number of nodes and tokens of a tree, every node counted twice: once for its
beginning and once for its end. -/
def size : Tree → Nat
  | leaf _ => 1
  | node _ children => sizeAll children + 2

/-- The sizes of several trees together. -/
def sizeAll : List Tree → Nat
  | [] => 0
  | tree :: trees => size tree + sizeAll trees

end

mutual

/-- The tokens of a tree from left to right. -/
def leaves : Tree → List Token
  | leaf token => [token]
  | node _ children => leavesAll children

/-- The tokens of several trees from left to right. -/
def leavesAll : List Tree → List Token
  | [] => []
  | tree :: trees => leaves tree ++ leavesAll trees

end

mutual

/-- The nodes of a tree, each before the nodes under it. -/
def preorder : Tree → List Tree
  | leaf _ => []
  | node label children => node label children :: preorderAll children

/-- The nodes of several trees, one tree after the other. -/
def preorderAll : List Tree → List Tree
  | [] => []
  | tree :: trees => preorder tree ++ preorderAll trees

end

theorem sizeAll_append (first second : List Tree) :
    sizeAll (first ++ second) = sizeAll first + sizeAll second := by
  induction first with
  | nil => simp [sizeAll]
  | cons tree trees ih => simp [sizeAll, ih]; omega

theorem leavesAll_append (first second : List Tree) :
    leavesAll (first ++ second) = leavesAll first ++ leavesAll second := by
  induction first with
  | nil => rfl
  | cons tree trees ih => simp [leavesAll, ih]

theorem preorderAll_append (first second : List Tree) :
    preorderAll (first ++ second) = preorderAll first ++ preorderAll second := by
  induction first with
  | nil => rfl
  | cons tree trees ih => simp [preorderAll, ih]

theorem size_pos (tree : Tree) : 0 < tree.size := by
  cases tree <;> simp [size]

theorem mem_preorderAll {trees : List Tree} {part : Tree} :
    part ∈ preorderAll trees ↔ ∃ tree ∈ trees, part ∈ tree.preorder := by
  induction trees with
  | nil => simp [preorderAll]
  | cons tree trees ih => simp [preorderAll, ih]

/-- Induction over trees, with a hypothesis for every child of a node. -/
@[elab_as_elim]
theorem induction {motive : Tree → Prop} (leaf : ∀ token, motive (leaf token))
    (node : ∀ label children, (∀ child ∈ children, motive child) →
      motive (node label children)) : ∀ tree, motive tree
  | .leaf token => leaf token
  | .node label children =>
      node label children fun child _ => induction leaf node child

end Tree

end JackSyntax
