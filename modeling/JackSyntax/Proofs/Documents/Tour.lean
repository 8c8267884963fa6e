import JackSyntax.Proofs.Documents.Layout
import JackSyntax.Proofs.Trees.Tour

/-!
# One line for every stop

The document of a tree has one line for every stop of a tour around it: the opening tag
where the tour comes to a node, the element of a token, and the closing tag where it leaves
a node, each as deep as the path to the part is long (`layout_eq_map_tour`).  Labels and
values may hold anything, line feeds and markup included, so it is the stop of a line, and
not its text, that says whether it opens or closes a node and which one.

`document_follows_tour` reads off the tour what the lines of a document are.
-/

namespace JackSyntax.Document

open JackSyntax.Tree

/-- Lines with a line feed after each are lines with line feeds between them and one at the
end. -/
theorem unlines_eq_intercalate {lines : List String} (hlines : lines ≠ []) :
    unlines lines = "\n".intercalate lines ++ "\n" := by
  induction lines with
  | nil => exact absurd rfl hlines
  | cons line lines ih =>
      cases lines with
      | nil => simp [unlines]
      | cons next lines =>
          rw [String.intercalate_cons_cons, String.append_assoc, ← ih (List.cons_ne_nil _ _)]
          simp [unlines]

theorem layout_ne_nil (depth : Nat) (tree : Tree) : layout depth tree ≠ [] := by
  cases tree <;> simp [layout]

/-! ## The line of a stop -/

/-- What a document says where a tour comes to a part. -/
def arrivalText : Tree → String
  | .leaf token => element token
  | .node label _ => openTag label

/-- What a document says at a stop. -/
def stopText (stop : Stop) : String :=
  match stop.leaving, stop.part with
  | true, .node label _ => closeTag label
  | _, part => arrivalText part

/-- The line of a stop on a tour that begins at a given depth. -/
def stopLine (depth : Nat) (stop : Stop) : String :=
  indent (depth + stop.path.length) (stopText stop)

theorem stopLine_under (depth index : Nat) (stop : Stop) :
    stopLine depth (stop.under index) = stopLine (depth + 1) stop := by
  rw [stopLine, stopLine, Stop.under_path, List.length_cons, ← Nat.add_assoc,
    Nat.add_right_comm]
  rfl

mutual

/-- The lines of a tree are those of the stops of its tour. -/
theorem layout_eq_map_tour (depth : Nat) :
    ∀ tree : Tree, layout depth tree = tree.tour.map (stopLine depth)
  | leaf token => rfl
  | node label children => by
      rw [layout, layoutAll_eq_map_tourAll depth 0 children, tour, List.map_append,
        List.map_cons]
      rfl

theorem layoutAll_eq_map_tourAll (depth index : Nat) :
    ∀ trees : List Tree, layoutAll (depth + 1) trees = (tourAll index trees).map (stopLine depth)
  | [] => rfl
  | tree :: trees => by
      have hunder : stopLine depth ∘ Stop.under index = stopLine (depth + 1) :=
        funext (stopLine_under depth index)
      rw [layoutAll, tourAll, List.map_append, List.map_map, hunder,
        layout_eq_map_tour (depth + 1) tree, layoutAll_eq_map_tourAll depth (index + 1) trees]

end

/-! ## The lines of a kind -/

/-- The lines where the tour comes to the parts of a kind. -/
theorem map_stopText_arrivals (kind : Tree → Bool) (stops : List Stop) :
    (stops.filter (Stop.arrivesAt kind)).map stopText = (partsOf kind stops).map arrivalText := by
  rw [partsOf, List.map_map]
  refine List.map_congr_left fun stop hstop => ?_
  have harrival : stop.leaving = false := (Stop.arrivesAt_iff.mp (List.mem_filter.mp hstop).2).1
  rw [stopText, harrival]
  rfl

/-- The lines that open nodes are the labels of the nodes, each before those under it. -/
theorem opening_lines (tree : Tree) :
    (tree.tour.filter (Stop.arrivesAt isNode)).map stopText =
      (tree.nodes.filterMap label?).map openTag := by
  rw [map_stopText_arrivals, nodes_eq_preorder, ← partsOf_isNode_tour, List.map_filterMap,
    ← List.filterMap_eq_map]
  refine List.filterMap_congr fun part hpart => ?_
  cases part with
  | leaf token => exact absurd (kind_of_mem_partsOf hpart) Bool.false_ne_true
  | node label children => rfl

/-- The lines of the tokens, from left to right. -/
theorem element_lines (tree : Tree) :
    (tree.tour.filter (Stop.arrivesAt fun part => !part.isNode)).map stopText =
      tree.tokens.map element := by
  rw [map_stopText_arrivals, partsOf_isLeaf_tour, List.map_map, tokens_eq_leaves]
  rfl

mutual

/-- Two lines for every node and one for every token. -/
theorem length_layout (depth : Nat) : ∀ tree : Tree,
    (layout depth tree).length = 2 * tree.preorder.length + tree.leaves.length
  | leaf token => rfl
  | node label children => by
      have hchildren := length_layoutAll (depth + 1) children
      simp only [layout, preorder, leaves, List.length_append, List.length_cons, List.length_nil]
      omega

theorem length_layoutAll (depth : Nat) : ∀ trees : List Tree,
    (layoutAll depth trees).length =
      2 * (preorderAll trees).length + (leavesAll trees).length
  | [] => rfl
  | tree :: trees => by
      have hfirst := length_layout depth tree
      have hrest := length_layoutAll depth trees
      simp only [layoutAll, preorderAll, leavesAll, List.length_append]
      omega

end

/-! ## The main result -/

/-- The writer with a stack of its own writes the layout of the tree, in lines with one line
feed after the last.  There is a line for every stop of a tour around the tree.  Those that
open nodes have the labels of the nodes in the order in which the nodes are visited, those
of tokens are the elements of the tokens in their order, and every node is closed once, after
exactly the lines of what is under it.  So there are two lines for every node and one for
every token. -/
theorem document_follows_tour (tree : Tree) :
    treeLines tree = layout 0 tree ∧
      ofTree tree = "\n".intercalate (layout 0 tree) ++ "\n" ∧
      layout 0 tree = tree.tour.map (stopLine 0) ∧
      (tree.tour.filter (Stop.arrivesAt isNode)).map stopText =
        (tree.nodes.filterMap label?).map openTag ∧
      (tree.tour.filter (Stop.arrivesAt fun part => !part.isNode)).map stopText =
        tree.tokens.map element ∧
      (∀ path part, tree.at? path = some part → part.isNode = true →
        Encloses tree.tour path part) ∧
      (treeLines tree).length = 2 * tree.countNodes + tree.tokens.length := by
  refine ⟨treeLines_eq_layout tree, ?_, layout_eq_map_tour 0 tree, opening_lines tree,
    element_lines tree, fun path part => tour_encloses, ?_⟩
  · rw [ofTree, treeLines_eq_layout, unlines_eq_intercalate (layout_ne_nil 0 tree)]
  · rw [treeLines_eq_layout, length_layout, countNodes, nodes_eq_preorder, tokens_eq_leaves]

theorem document_follows_tour_nested :
    let inner := node "b>" []
    let tree := node "a" [leaf ⟨.identifier, .text "<", 0, 0⟩, inner]
    treeLines tree =
        ["<a>", "  <identifier> &lt; </identifier>", "  <b>>", "  </b>>", "</a>"] ∧
      tree.at? [1] = some inner ∧ inner.isNode = true ∧ Encloses tree.tour [1] inner := by
  intro inner tree
  obtain ⟨hlines, -, -, -, -, hencloses, -⟩ := document_follows_tour tree
  exact ⟨hlines.trans (by decide), rfl, rfl, hencloses [1] inner rfl rfl⟩

end JackSyntax.Document
