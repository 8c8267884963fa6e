import JackSyntax.Tree.Basic

/-!
# Nodes and the nodes under them

Which nodes are in a tree: those under its nodes are (`mem_preorder_trans`), and every
node but the root is a child of another one (`exists_parent`).  What holds of every label in
a tree (`EveryLabel`) holds of the labels under its children.
-/

namespace JackSyntax.Tree

theorem mem_preorder_self {tree : Tree} (htree : tree.isNode = true) : tree ∈ tree.preorder := by
  cases tree with
  | leaf token => simp [isNode] at htree
  | node label children => simp [preorder]

theorem mem_preorder_trans {tree part inner : Tree} (hpart : part ∈ tree.preorder)
    (hinner : inner ∈ part.preorder) : inner ∈ tree.preorder := by
  induction tree using Tree.induction with
  | leaf token => simp [preorder] at hpart
  | node label children ih =>
      rcases List.mem_cons.mp hpart with rfl | hpart
      · exact hinner
      · obtain ⟨child, hchild, hpart⟩ := mem_preorderAll.mp hpart
        exact List.mem_cons_of_mem _ (mem_preorderAll.mpr ⟨child, hchild, ih child hchild hpart⟩)

theorem mem_preorder_of_child {tree child : Tree} {label : String} {children : List Tree}
    (hnode : .node label children ∈ tree.preorder) (hchild : child ∈ children)
    (hisNode : child.isNode = true) : child ∈ tree.preorder := by
  refine mem_preorder_trans hnode (List.mem_cons_of_mem _ ?_)
  exact mem_preorderAll.mpr ⟨child, hchild, mem_preorder_self hisNode⟩

/-- A node other than the root is a child of some node. -/
theorem exists_parent {tree part : Tree} (hpart : part ∈ tree.preorder) :
    part = tree ∨ ∃ label children, .node label children ∈ tree.preorder ∧ part ∈ children := by
  induction tree using Tree.induction with
  | leaf token => simp [preorder] at hpart
  | node label children ih =>
      rcases List.mem_cons.mp hpart with rfl | hpart
      · exact Or.inl rfl
      · obtain ⟨child, hchild, hpart⟩ := mem_preorderAll.mp hpart
        right
        rcases ih child hchild hpart with rfl | ⟨own, parts, hown, hmem⟩
        · exact ⟨label, children, by simp [preorder], hchild⟩
        · refine ⟨own, parts, List.mem_cons_of_mem _ ?_, hmem⟩
          exact mem_preorderAll.mpr ⟨child, hchild, hown⟩

/-! ## Labels -/

/-- Whether every label in a tree has a property. -/
def EveryLabel (property : String → Prop) (tree : Tree) : Prop :=
  ∀ label children, .node label children ∈ tree.preorder → property label

section EveryLabel

variable {property : String → Prop} {label : String} {children : List Tree}

theorem EveryLabel.root (htree : (node label children).EveryLabel property) : property label :=
  htree label children List.mem_cons_self

theorem EveryLabel.child (htree : (node label children).EveryLabel property) :
    ∀ child ∈ children, child.EveryLabel property :=
  fun _ hchild own parts hpart =>
    htree own parts (List.mem_cons_of_mem _ (mem_preorderAll.mpr ⟨_, hchild, hpart⟩))

theorem EveryLabel.mono {other : String → Prop} {tree : Tree} (htree : tree.EveryLabel property)
    (hother : ∀ label, property label → other label) : tree.EveryLabel other :=
  fun label children hnode => hother label (htree label children hnode)

end EveryLabel

end JackSyntax.Tree
