import JackSyntax.Proofs.Documents.Decoding

/-!
# The two documents of a program

The document of the tree of a program and the document of its tokens have the same
elements, line by line.  The tree adds lines that hold only a tag, and indentation.

* `linesOf_unlines`: a document falls into the lines it was made of.  Neither labels nor
  tokens of a source text hold a line feed.
* `isTag_element`: the line of a token never looks like a tag.
* `among_layout`: what stays of the lines of a tree when the tags are dropped, and what the
  tags are.
* `nested_tagsOf`, `count_tagsOf`: the tags are nested, and every node has two of them.
* `documents_agree`: the result for whole programs.
-/

namespace JackSyntax

/-- Every production. -/
def Nonterminal.all : List Nonterminal :=
  [classDec, classVarDec, subroutineDec, parameterList, subroutineBody, varDec, statements,
    letStatement, ifStatement, whileStatement, doStatement, returnStatement, expression, term,
    expressionList]

theorem Nonterminal.mem_all (name : Nonterminal) : name ∈ all := by
  cases name <;> decide

namespace Document

open JackSyntax.Tree

/-! ## Lines -/

/-- The lines of a text, each up to its line feed. -/
def linesOf (text : String) : List String :=
  ((text.toList.splitOn '\n').dropLast).map String.ofList

/-- A line without the spaces it begins with. -/
def dedent (line : String) : String :=
  String.ofList (line.toList.dropWhile (· = ' '))

theorem toList_unlines (lines : List String) :
    (unlines lines).toList = ['\n'].intercalate (lines.map String.toList ++ [[]]) := by
  induction lines with
  | nil => rfl
  | cons line lines ih =>
      have hnext : ∃ piece pieces, lines.map String.toList ++ [[]] = piece :: pieces :=
        List.exists_cons_of_ne_nil (by simp)
      obtain ⟨piece, pieces, hpieces⟩ := hnext
      rw [toList_unlines_cons, ih, List.map_cons, List.cons_append, hpieces,
        List.intercalate_cons_cons, List.append_assoc, List.singleton_append]

/-- Lines without line feeds are found again in their text. -/
theorem linesOf_unlines {lines : List String} (hlines : ∀ line ∈ lines, '\n' ∉ line.toList) :
    linesOf (unlines lines) = lines := by
  have hpieces : ∀ piece ∈ lines.map String.toList ++ [[]], '\n' ∉ piece := by
    intro piece hpiece
    rcases List.mem_append.mp hpiece with hpiece | hlast
    · obtain ⟨line, hline, rfl⟩ := List.mem_map.mp hpiece
      exact hlines line hline
    · rw [List.mem_singleton.mp hlast]
      exact List.not_mem_nil
  -- the text ends with a line feed, so the last piece is empty
  rw [linesOf, toList_unlines, List.splitOn_intercalate '\n' hpieces (by simp),
    List.dropLast_concat, List.map_map]
  exact List.map_id'' (fun _ => String.ofList_toList) lines

theorem dedent_indent {line : String} {c : Char} {more : List Char}
    (hline : line.toList = c :: more) (hc : c ≠ ' ') (depth : Nat) :
    dedent (indent depth line) = line := by
  have hspaces : ∀ c ∈ List.replicate (2 * depth) ' ', decide (c = ' ') = true := by simp
  have hstart : (c :: more).dropWhile (· = ' ') = c :: more :=
    List.dropWhile_cons_of_neg (by simpa using hc)
  rw [dedent, indent, String.toList_append, String.toList_ofList,
    List.dropWhile_append_of_pos hspaces, hline, hstart, ← hline, String.ofList_toList]

/-! ## Tags -/

/-- Whether a line is the opening or the closing tag of a production. -/
def isTag (line : String) : Bool :=
  Nonterminal.all.any fun name =>
    line = openTag name.label || line = closeTag name.label

theorem isTag_iff {line : String} :
    isTag line = true ↔
      ∃ name : Nonterminal, line = openTag name.label ∨ line = closeTag name.label := by
  simp [isTag, Nonterminal.mem_all]

theorem isTag_openTag (name : Nonterminal) : isTag (openTag name.label) = true :=
  isTag_iff.mpr ⟨name, Or.inl rfl⟩

theorem isTag_closeTag (name : Nonterminal) : isTag (closeTag name.label) = true :=
  isTag_iff.mpr ⟨name, Or.inr rfl⟩

theorem toList_openTag (label : String) :
    (openTag label).toList = '<' :: label.toList ++ ['>'] := by
  simp [openTag]

theorem toList_closeTag (label : String) :
    (closeTag label).toList = '<' :: '/' :: label.toList ++ ['>'] := by
  simp [closeTag]

theorem toList_element (token : Token) :
    (element token).toList = '<' :: token.kind.tag.toList ++ '>' :: ' ' ::
      (escape token.value.toText).toList ++ ' ' :: (closeTag token.kind.tag).toList := by
  simp [element, openTag]

section Characters

variable {label : String} {c : Char}

/-- A tag holds nothing but letters and its marks. -/
theorem not_mem_openTag (hlabel : IsLettered label) (hletter : c.isAlpha = false)
    (hmark : c ∉ ['<', '/', '>']) : c ∉ (openTag label).toList := by
  simp only [List.mem_cons, List.not_mem_nil, or_false, not_or] at hmark
  simp [toList_openTag, hlabel.not_mem hletter, hmark]

theorem not_mem_closeTag (hlabel : IsLettered label) (hletter : c.isAlpha = false)
    (hmark : c ∉ ['<', '/', '>']) : c ∉ (closeTag label).toList := by
  simp only [List.mem_cons, List.not_mem_nil, or_false, not_or] at hmark
  simp [toList_closeTag, hlabel.not_mem hletter, hmark]

end Characters

/-- A tag holds no space, and the value of an element stands between two. -/
theorem isTag_element (token : Token) : isTag (element token) = false := by
  have hspace : ' ' ∈ (element token).toList := by simp [toList_element]
  rw [Bool.eq_false_iff, ne_eq, isTag_iff]
  rintro ⟨name, htag | htag⟩
  · exact not_mem_openTag name.isLettered_label rfl (by decide) (htag ▸ hspace)
  · exact not_mem_closeTag name.isLettered_label rfl (by decide) (htag ▸ hspace)

/-- Lines of tags that are properly nested: every opening tag has its own closing tag after
it, and what is between the two is nested again. -/
inductive Nested : List String → Prop
  | nil : Nested []
  | element (name : Nonterminal) {inside after : List String} (hinside : Nested inside)
      (hafter : Nested after) :
      Nested (openTag name.label :: inside ++ closeTag name.label :: after)

theorem Nested.append {first second : List String} (hfirst : Nested first)
    (hsecond : Nested second) : Nested (first ++ second) := by
  induction hfirst with
  | nil => exact hsecond
  | @element name inside after hinside hafter ihinside ihafter =>
      simpa using Nested.element name hinside ihafter

/-! ## What is dropped and what stays -/

/-- The lines that are not only a tag, without indentation. -/
def elementsAmong (lines : List String) : List String :=
  (lines.filter fun line => !isTag (dedent line)).map dedent

/-- The lines that are only a tag, without indentation. -/
def tagsAmong (lines : List String) : List String :=
  (lines.filter fun line => isTag (dedent line)).map dedent

theorem elementsAmong_append (first second : List String) :
    elementsAmong (first ++ second) = elementsAmong first ++ elementsAmong second := by
  simp [elementsAmong]

theorem tagsAmong_append (first second : List String) :
    tagsAmong (first ++ second) = tagsAmong first ++ tagsAmong second := by
  simp [tagsAmong]

theorem dedent_openTag (depth : Nat) (label : String) :
    dedent (indent depth (openTag label)) = openTag label :=
  dedent_indent (toList_openTag label) (by decide) depth

theorem dedent_closeTag (depth : Nat) (label : String) :
    dedent (indent depth (closeTag label)) = closeTag label :=
  dedent_indent (toList_closeTag label) (by decide) depth

theorem dedent_element (depth : Nat) (token : Token) :
    dedent (indent depth (element token)) = element token :=
  dedent_indent (toList_element token) (by decide) depth

/-- The line of a token stays. -/
theorem among_element (depth : Nat) (token : Token) :
    elementsAmong [indent depth (element token)] = [element token] ∧
      tagsAmong [indent depth (element token)] = [] := by
  simp [elementsAmong, tagsAmong, dedent_element, isTag_element]

/-- The tags of a node around some lines are dropped. -/
theorem among_enclosed (depth : Nat) (name : Nonterminal) (lines : List String) :
    elementsAmong (indent depth (openTag name.label) :: lines ++
        [indent depth (closeTag name.label)]) = elementsAmong lines ∧
      tagsAmong (indent depth (openTag name.label) :: lines ++
        [indent depth (closeTag name.label)]) =
          openTag name.label :: tagsAmong lines ++ [closeTag name.label] := by
  simp [elementsAmong, tagsAmong, dedent_openTag, dedent_closeTag, isTag_openTag, isTag_closeTag]

mutual

/-- The tags of the nodes of a tree, in the order of its document. -/
def tagsOf : Tree → List String
  | .leaf _ => []
  | .node label children => openTag label :: tagsOfAll children ++ [closeTag label]

/-- The tags of several trees, one tree after the other. -/
def tagsOfAll : List Tree → List String
  | [] => []
  | tree :: trees => tagsOf tree ++ tagsOfAll trees

end

mutual

/-- The lines of a tree are the elements of its tokens and the tags of its nodes, mixed. -/
theorem among_layout (depth : Nat) : ∀ tree : Tree, tree.EveryLabel Nonterminal.IsLabel →
    elementsAmong (layout depth tree) = tree.leaves.map element ∧
      tagsAmong (layout depth tree) = tagsOf tree
  | leaf token, _ => among_element depth token
  | node label children, htree => by
      obtain ⟨name, rfl⟩ := htree.root
      obtain ⟨hinside, hinsideTags⟩ := among_layoutAll (depth + 1) children htree.child
      obtain ⟨helements, htags⟩ := among_enclosed depth name (layoutAll (depth + 1) children)
      constructor
      · rw [layout, helements, hinside, leaves]
      · rw [layout, htags, hinsideTags, tagsOf]

theorem among_layoutAll (depth : Nat) : ∀ trees : List Tree,
    (∀ tree ∈ trees, tree.EveryLabel Nonterminal.IsLabel) →
      elementsAmong (layoutAll depth trees) = (leavesAll trees).map element ∧
        tagsAmong (layoutAll depth trees) = tagsOfAll trees
  | [], _ => ⟨rfl, rfl⟩
  | tree :: trees, htrees => by
      obtain ⟨helements, htags⟩ := among_layout depth tree (htrees tree List.mem_cons_self)
      obtain ⟨hrest, hrestTags⟩ := among_layoutAll depth trees
        (fun other hother => htrees other (List.mem_cons_of_mem _ hother))
      rw [layoutAll, elementsAmong_append, tagsAmong_append, helements, htags, hrest, hrestTags,
        leavesAll, List.map_append]
      exact ⟨rfl, rfl⟩

end

/-! ## The tags of a tree -/

mutual

theorem nested_tagsOf : ∀ tree : Tree, tree.EveryLabel Nonterminal.IsLabel → Nested (tagsOf tree)
  | leaf _, _ => .nil
  | node label children, htree => by
      obtain ⟨name, rfl⟩ := htree.root
      exact .element name (nested_tagsOfAll children htree.child) .nil

theorem nested_tagsOfAll : ∀ trees : List Tree,
    (∀ tree ∈ trees, tree.EveryLabel Nonterminal.IsLabel) → Nested (tagsOfAll trees)
  | [], _ => .nil
  | tree :: trees, htrees =>
      (nested_tagsOf tree (htrees tree List.mem_cons_self)).append
        (nested_tagsOfAll trees fun other hother => htrees other (List.mem_cons_of_mem _ hother))

end

/-- The two tags of a node; a token has none. -/
def ownTags : Tree → List String
  | .leaf _ => []
  | .node label _ => [openTag label, closeTag label]

mutual

/-- Every node of a tree has its two tags among the tags of the tree. -/
theorem perm_tagsOf : ∀ tree : Tree, (tagsOf tree).Perm (tree.preorder.flatMap ownTags)
  | leaf _ => .nil
  | node label children => by
      have hchildren := perm_tagsOfAll children
      rw [tagsOf, preorder, List.flatMap_cons, ownTags, List.cons_append, List.cons_append,
        List.cons_append, List.nil_append]
      exact .cons _ ((List.perm_append_singleton _ _).trans (.cons _ hchildren))

theorem perm_tagsOfAll : ∀ trees : List Tree,
    (tagsOfAll trees).Perm ((preorderAll trees).flatMap ownTags)
  | [] => .nil
  | tree :: trees => by
      rw [tagsOfAll, preorderAll, List.flatMap_append]
      exact (perm_tagsOf tree).append (perm_tagsOfAll trees)

end

theorem openTag_inj {label other : String} : openTag label = openTag other ↔ label = other := by
  rw [← String.toList_inj, toList_openTag, toList_openTag, ← String.toList_inj]
  simp

theorem closeTag_inj {label other : String} : closeTag label = closeTag other ↔ label = other := by
  rw [← String.toList_inj, toList_closeTag, toList_closeTag, ← String.toList_inj]
  simp

/-- No label begins with a slash. -/
theorem openTag_ne_closeTag {label : String} (hlabel : IsLettered label) (other : String) :
    openTag label ≠ closeTag other := by
  intro hsame
  rw [← String.toList_inj, toList_openTag, toList_closeTag] at hsame
  have hchars : label.toList ++ ['>'] = '/' :: other.toList ++ ['>'] := by simpa using hsame
  have hslash := List.append_cancel_right hchars
  exact hlabel.not_mem (c := '/') rfl (hslash ▸ List.mem_cons_self)

/-- If a line stands once for every tree of a kind, and not for others, it stands as often as
there are trees of the kind. -/
theorem count_flatMap_of_once {line : String} {lines : Tree → List String} {kind : Tree → Bool}
    {trees : List Tree}
    (honce : ∀ tree ∈ trees, (lines tree).count line = if kind tree then 1 else 0) :
    (trees.flatMap lines).count line = (trees.filter kind).length := by
  induction trees with
  | nil => rfl
  | cons tree trees ih =>
      have hrest := ih fun other hother => honce other (List.mem_cons_of_mem _ hother)
      rw [List.flatMap_cons, List.count_append, honce tree List.mem_cons_self, hrest,
        List.filter_cons]
      split
      · rw [List.length_cons, Nat.add_comm]
      · rw [Nat.zero_add]

/-- As many opening tags of a production as nodes, and as many closing tags. -/
theorem count_tagsOf {tree : Tree} (htree : tree.EveryLabel Nonterminal.IsLabel)
    (name : Nonterminal) :
    (tagsOf tree).count (openTag name.label) = (tree.findAll name.label).length ∧
      (tagsOf tree).count (closeTag name.label) = (tree.findAll name.label).length := by
  rw [(perm_tagsOf tree).count_eq, (perm_tagsOf tree).count_eq, findAll, nodes_eq_preorder]
  have hname := name.isLettered_label
  -- of the two tags of a node one is of the other sort, and never the line that is counted
  refine ⟨count_flatMap_of_once ?_, count_flatMap_of_once ?_⟩
  · rintro (token | ⟨label, children⟩) hpart
    · rfl
    · have hclose : closeTag label ≠ openTag name.label := (openTag_ne_closeTag hname label).symm
      simp [ownTags, List.count_cons, hasLabel, openTag_inj, hclose]
  · rintro (token | ⟨label, children⟩) hpart
    · rfl
    · obtain ⟨own, rfl⟩ := htree label children hpart
      have hopen : openTag own.label ≠ closeTag name.label :=
        openTag_ne_closeTag own.isLettered_label name.label
      simp [ownTags, List.count_cons, hasLabel, closeTag_inj, hopen]

/-! ## Line feeds -/

theorem feed_not_mem_escape {value : String} (hvalue : '\n' ∉ value.toList) :
    '\n' ∉ (escape value).toList := by
  rw [escape, String.toList_ofList, List.mem_flatMap]
  rintro ⟨c, hc, hfeed⟩
  unfold escapeChar at hfeed
  split at hfeed
  · exact absurd hfeed (by decide)
  split at hfeed
  · exact absurd hfeed (by decide)
  split at hfeed
  · exact absurd hfeed (by decide)
  · exact hvalue (List.mem_singleton.mp hfeed ▸ hc)

theorem feed_not_mem_element {token : Token} (htoken : token.Scannable) :
    '\n' ∉ (element token).toList := by
  have hlexeme : '\n' ∉ token.lexeme.toList :=
    (@Token.Scannable.spells token htoken [] (Or.inl rfl)).not_mem_feed
  have hvalue : '\n' ∉ token.value.toText.toList := by
    intro hfeed
    apply hlexeme
    unfold Token.lexeme
    split
    · simp [hfeed]
    · exact hfeed
  have hopen : '\n' ∉ (openTag token.kind.tag).toList :=
    not_mem_openTag token.kind.isLettered_tag rfl (by decide)
  have hclose : '\n' ∉ (closeTag token.kind.tag).toList :=
    not_mem_closeTag token.kind.isLettered_tag rfl (by decide)
  simp [element, hopen, hclose, feed_not_mem_escape hvalue]

theorem feed_not_mem_indent {line : String} (hline : '\n' ∉ line.toList) (depth : Nat) :
    '\n' ∉ (indent depth line).toList := by
  simp [indent, hline]

mutual

theorem feed_not_mem_layout (depth : Nat) : ∀ tree : Tree, tree.EveryLabel IsLettered →
    (∀ token ∈ tree.leaves, token.Scannable) →
      ∀ line ∈ layout depth tree, '\n' ∉ line.toList
  | leaf token, _, hleaves, line, hline => by
      rw [List.mem_singleton.mp hline]
      exact feed_not_mem_indent (feed_not_mem_element (hleaves token List.mem_cons_self)) depth
  | node label children, htree, hleaves, line, hline => by
      rw [layout, List.cons_append, List.mem_cons, List.mem_append, List.mem_singleton] at hline
      rcases hline with rfl | hline | rfl
      · exact feed_not_mem_indent (not_mem_openTag htree.root rfl (by decide)) depth
      · exact feed_not_mem_layoutAll (depth + 1) children htree.child hleaves line hline
      · exact feed_not_mem_indent (not_mem_closeTag htree.root rfl (by decide)) depth

theorem feed_not_mem_layoutAll (depth : Nat) : ∀ trees : List Tree,
    (∀ tree ∈ trees, tree.EveryLabel IsLettered) →
      (∀ token ∈ leavesAll trees, token.Scannable) →
        ∀ line ∈ layoutAll depth trees, '\n' ∉ line.toList
  | tree :: trees, htrees, hleaves, line, hline => by
      rcases List.mem_append.mp hline with hline | hline
      · exact feed_not_mem_layout depth tree (htrees tree List.mem_cons_self)
          (fun token htoken => hleaves token (List.mem_append_left _ htoken)) line hline
      · exact feed_not_mem_layoutAll depth trees
          (fun other hother => htrees other (List.mem_cons_of_mem _ hother))
          (fun token htoken => hleaves token (List.mem_append_right _ htoken)) line hline

end

theorem linesOf_ofTree {tree : Tree} (htree : tree.EveryLabel IsLettered)
    (hleaves : ∀ token ∈ tree.leaves, token.Scannable) : linesOf (ofTree tree) = layout 0 tree := by
  rw [ofTree, treeLines_eq_layout]
  exact linesOf_unlines (feed_not_mem_layout 0 tree htree hleaves)

theorem linesOf_ofTokens {tokens : List Token} (htokens : ∀ token ∈ tokens, token.Scannable) :
    linesOf (ofTokens tokens) =
      openTag "tokens" :: tokens.map element ++ [closeTag "tokens"] := by
  refine linesOf_unlines fun line hline => ?_
  rw [tokenLines, List.cons_append, List.mem_cons, List.mem_append, List.mem_singleton] at hline
  rcases hline with rfl | hline | rfl
  · decide
  · obtain ⟨token, htoken, rfl⟩ := List.mem_map.mp hline
    exact feed_not_mem_element (htokens token htoken)
  · decide

end Document

/-! ## The main result -/

open Document in
/-- The document of the tokens of a program and the document of its tree agree, whatever the
table and the call stack.  The lines of the tree that are not only a tag are, without
indentation, exactly the lines of the tokens.  The lines that are only a tag are properly
nested, with one class around all the others, and there are as many opening and as many
closing tags of a production as it has nodes in the tree. -/
theorem documents_agree {source : String} {tokens : List Token} {table : PrecedenceTable}
    {stack : CallStack} {tree : Tree} (htokens : tokenize source = .ok tokens)
    (hread : ((Cursor.ofTokens tokens).read (parseProgram table stack)).1 = .ok tree) :
    linesOf (ofTokens tokens) =
        openTag "tokens" :: elementsAmong (linesOf (ofTree tree)) ++ [closeTag "tokens"] ∧
      (∃ inside, Nested inside ∧ tagsAmong (linesOf (ofTree tree)) =
        openTag Nonterminal.classDec.label :: inside ++
          [closeTag Nonterminal.classDec.label]) ∧
      ∀ name : Nonterminal,
        (tagsAmong (linesOf (ofTree tree))).count (openTag name.label) =
            (tree.findAll name.label).length ∧
          (tagsAmong (linesOf (ofTree tree))).count (closeTag name.label) =
            (tree.findAll name.label).length := by
  obtain ⟨⟨children, rfl⟩, hgrouped, rfl⟩ := sound_of_read hread
  have hleaves := scannable_of_tokenize htokens
  obtain ⟨helements, htags⟩ := among_layout 0 _ hgrouped.everyLabel
  rw [linesOf_ofTokens hleaves, linesOf_ofTree hgrouped.isLettered hleaves, helements, htags]
  exact ⟨rfl, ⟨tagsOfAll children, nested_tagsOfAll children hgrouped.everyLabel.child, rfl⟩,
    count_tagsOf hgrouped.everyLabel⟩

theorem documents_agree_sample :
    let source := "class A\x7bfunction int f()\x7breturn 1<2;\x7d\x7d"
    ∃ tokens tree, tokenize source = .ok tokens ∧
      ((Cursor.ofTokens tokens).read
        (parseProgram .arithmetic (PrecedenceTable.arithmetic.callStack 20))).1 = .ok tree ∧
      Document.linesOf (Document.ofTokens tokens) =
        Document.openTag "tokens" ::
          Document.elementsAmong (Document.linesOf (Document.ofTree tree)) ++
            [Document.closeTag "tokens"] := by
  intro source
  have htokens : tokenize source =
      .ok [⟨.keyword, .text "class", 1, 1⟩, ⟨.identifier, .text "A", 1, 7⟩,
        ⟨.symbol, .text "\x7b", 1, 8⟩, ⟨.keyword, .text "function", 1, 9⟩,
        ⟨.keyword, .text "int", 1, 18⟩, ⟨.identifier, .text "f", 1, 22⟩,
        ⟨.symbol, .text "(", 1, 23⟩, ⟨.symbol, .text ")", 1, 24⟩, ⟨.symbol, .text "\x7b", 1, 25⟩,
        ⟨.keyword, .text "return", 1, 26⟩, ⟨.integerConstant, .integer 1, 1, 33⟩,
        ⟨.symbol, .text "<", 1, 34⟩, ⟨.integerConstant, .integer 2, 1, 35⟩,
        ⟨.symbol, .text ";", 1, 36⟩, ⟨.symbol, .text "\x7d", 1, 37⟩,
        ⟨.symbol, .text "\x7d", 1, 38⟩] := by
    cbv
  exact ⟨_, _, htokens, rfl,
    (@documents_agree source _ .arithmetic (PrecedenceTable.arithmetic.callStack 20) _ htokens
      rfl).1⟩

end JackSyntax
