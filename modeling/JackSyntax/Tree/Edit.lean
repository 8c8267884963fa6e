import JackSyntax.Tree.Basic

/-!
# Building trees by hand

A path leads from the root of a tree to a part of it: at every node it names a child by
its index, tokens counted.  `Tree.at?` follows a path, `Tree.addAt?` appends a child to
the node it leads to, and `Tree.wrap` puts a tree under new roots.
-/

namespace JackSyntax.Tree

/-- The part of a tree that a path leads to. -/
def at? (tree : Tree) : List Nat → Option Tree
  | [] => some tree
  | index :: path => do
      let child ← tree.children[index]?
      child.at? path

/-- A node with one more child at the end. -/
def add? : Tree → Tree → Option Tree
  | leaf _, _ => none
  | node label children, child => some (node label (children ++ [child]))

/-- A tree with one more child at the node that a path leads to. -/
def addAt? (tree : Tree) : List Nat → Tree → Option Tree
  | [], child => tree.add? child
  | index :: path, child =>
      match tree with
      | leaf _ => none
      | node label children => do
          let part ← children[index]?
          let grown ← part.addAt? path child
          some (node label (children.set index grown))

/-- A tree under as many new roots as asked for, one inside the other. -/
def wrap (label : String) : Nat → Tree → Tree
  | 0, tree => tree
  | count + 1, tree => wrap label count (node label [tree])

end JackSyntax.Tree
