import JackSyntax.Proofs.Source.Decomposition
import JackSyntax.Tree.Outline

/-!
# Trees with other tokens

`Tree.mapTokens` puts another token in place of every token of a tree, and leaves the
nodes as they are.  `Token.unplaced` forgets where a token stands, so two trees are the
same up to places when they are the same after `mapTokens Token.unplaced`.

What does not look at what is changed is the same for both trees
(`outline_mapTokens`), and changes that tell fewer tokens apart make more trees equal
(`mapTokens_congr`).
-/

namespace JackSyntax

/-- A token without its place. -/
def Token.unplaced (token : Token) : Token :=
  ⟨token.kind, token.value, 0, 0⟩

theorem Token.unplaced_eq_iff {one other : Token} :
    one.unplaced = other.unplaced ↔ one.content = other.content := by
  simp [unplaced, content]

namespace Tree

mutual

/-- The tree with another token in place of every token. -/
def mapTokens (change : Token → Token) : Tree → Tree
  | leaf token => leaf (change token)
  | node label children => node label (mapTokensAll change children)

/-- The same for several trees. -/
def mapTokensAll (change : Token → Token) : List Tree → List Tree
  | [] => []
  | tree :: trees => mapTokens change tree :: mapTokensAll change trees

end

variable {change other : Token → Token}

theorem mapTokensAll_eq_map (change : Token → Token) (trees : List Tree) :
    mapTokensAll change trees = trees.map (mapTokens change) := by
  induction trees with
  | nil => rfl
  | cons tree trees ih => rw [mapTokensAll, ih, List.map_cons]

theorem mapTokensAll_append (change : Token → Token) (first second : List Tree) :
    mapTokensAll change (first ++ second) =
      mapTokensAll change first ++ mapTokensAll change second := by
  simp [mapTokensAll_eq_map]

mutual

theorem leaves_mapTokens (change : Token → Token) :
    ∀ tree : Tree, (tree.mapTokens change).leaves = tree.leaves.map change
  | leaf _ => rfl
  | node _ children => leavesAll_mapTokensAll change children

theorem leavesAll_mapTokensAll (change : Token → Token) :
    ∀ trees : List Tree, leavesAll (mapTokensAll change trees) = (leavesAll trees).map change
  | [] => rfl
  | tree :: trees => by
      rw [mapTokensAll, leavesAll, leavesAll, List.map_append, leaves_mapTokens change tree,
        leavesAll_mapTokensAll change trees]

end

mutual

theorem outline_mapTokens (hchange : ∀ token, (change token).lexeme = token.lexeme) :
    ∀ tree : Tree, (tree.mapTokens change).outline = tree.outline
  | leaf token => congrArg Outline.word (hchange token)
  | node label children => congrArg (Outline.group label) (outlineAll_mapTokensAll hchange children)

theorem outlineAll_mapTokensAll (hchange : ∀ token, (change token).lexeme = token.lexeme) :
    ∀ trees : List Tree, outlineAll (mapTokensAll change trees) = outlineAll trees
  | [] => rfl
  | tree :: trees => by
      rw [mapTokensAll, outlineAll, outlineAll, outline_mapTokens hchange tree,
        outlineAll_mapTokensAll hchange trees]

end

mutual

/-- Trees that are the same after one change are the same after another one that tells no
more of their tokens apart. -/
theorem mapTokens_congr : ∀ tree tree' : Tree,
    (∀ token ∈ tree.leaves, ∀ token' ∈ tree'.leaves, change token = change token' →
      other token = other token') →
    tree.mapTokens change = tree'.mapTokens change → tree.mapTokens other = tree'.mapTokens other
  | leaf token, leaf token', hchange, hsame => by
      rw [mapTokens, mapTokens, leaf.injEq] at hsame
      rw [mapTokens, mapTokens, hchange token (by simp [leaves]) token' (by simp [leaves]) hsame]
  | node label children, node label' children', hchange, hsame => by
      rw [mapTokens, mapTokens, node.injEq] at hsame
      rw [mapTokens, mapTokens, hsame.1, mapTokensAll_congr children children' hchange hsame.2]
  | leaf token, node label children, _, hsame => by simp [mapTokens] at hsame
  | node label children, leaf token, _, hsame => by simp [mapTokens] at hsame

theorem mapTokensAll_congr : ∀ trees trees' : List Tree,
    (∀ token ∈ leavesAll trees, ∀ token' ∈ leavesAll trees', change token = change token' →
      other token = other token') →
    mapTokensAll change trees = mapTokensAll change trees' →
    mapTokensAll other trees = mapTokensAll other trees'
  | [], [], _, _ => rfl
  | tree :: trees, tree' :: trees', hchange, hsame => by
      rw [mapTokensAll, mapTokensAll, List.cons.injEq] at hsame
      have hfirst := mapTokens_congr tree tree' (fun token htoken token' htoken' =>
        hchange token (List.mem_append_left _ htoken) token' (List.mem_append_left _ htoken'))
        hsame.1
      have hrest := mapTokensAll_congr trees trees' (fun token htoken token' htoken' =>
        hchange token (List.mem_append_right _ htoken) token'
          (List.mem_append_right _ htoken')) hsame.2
      rw [mapTokensAll, mapTokensAll, hfirst, hrest]
  | [], tree' :: trees', _, hsame => by simp [mapTokensAll] at hsame
  | tree :: trees, [], _, hsame => by simp [mapTokensAll] at hsame

end

end Tree

end JackSyntax
