import JackSyntax.Cursor
import JackSyntax.Proofs.Grammar.Soundness
import JackSyntax.Proofs.Reading.Comparison

/-!
# The table only regroups

`Tree.ungrouped` splices out every group of a tree.  Two tables with the same operators
among the tokens then give the same tree, or the same error at the same token
(`read_eq_of_hasLevel_eq`): reading takes the same steps with both, and grouping is all
that they do differently (`ungroupedAll_group`).

With the flat table there is nothing to splice out (`ungrouped_eq_self`), so its tree is
what every table with just the binary operators comes to.
-/

namespace JackSyntax

namespace Tree

/-! ## Splicing out groups -/

/-- The items of a group; any other tree stays as it is. -/
def spliced : Tree → List Tree
  | node outer [node inner items] =>
      if outer = Nonterminal.term.label ∧ inner = Nonterminal.expression.label then items
      else [node outer [node inner items]]
  | tree => [tree]

mutual

/-- The tree without groups: below its root, the items of every group stand in its
place. -/
def ungrouped : Tree → Tree
  | leaf token => leaf token
  | node label children => node label (ungroupedAll children)

/-- Several trees without groups. -/
def ungroupedAll : List Tree → List Tree
  | [] => []
  | tree :: trees => spliced (ungrouped tree) ++ ungroupedAll trees

end

theorem spliced_groupOf (items : List Tree) : spliced (groupOf items) = items := by
  simp [groupOf, spliced]

theorem spliced_of_not_isGroup {tree : Tree} (htree : ¬ tree.IsGroup) :
    spliced tree = [tree] := by
  unfold spliced
  split
  · next outer inner items =>
      refine if_neg fun hlabels => htree ⟨items, ?_⟩
      rw [hlabels.1, hlabels.2, groupOf]
  · rfl

theorem not_isGroup_of_label_ne {label : String} (children : List Tree)
    (hlabel : label ≠ Nonterminal.term.label) : ¬ (node label children).IsGroup := by
  rintro ⟨items, hgroup⟩
  exact hlabel (node.inj hgroup).1

theorem ungroupedAll_append (first second : List Tree) :
    ungroupedAll (first ++ second) = ungroupedAll first ++ ungroupedAll second := by
  induction first with
  | nil => rfl
  | cons tree trees ih => simp [ungroupedAll, ih]

theorem ungroupedAll_singleton (tree : Tree) : ungroupedAll [tree] = spliced (ungrouped tree) := by
  rw [ungroupedAll, ungroupedAll, List.append_nil]

theorem ungroupedAll_node {label : String} (children : List Tree)
    (hlabel : label ≠ Nonterminal.term.label) :
    ungroupedAll [node label children] = [node label (ungroupedAll children)] := by
  rw [ungroupedAll_singleton, ungrouped]
  exact spliced_of_not_isGroup (not_isGroup_of_label_ne _ hlabel)

/-- Groups are taken apart again, down to the items they were made of. -/
theorem ungroupedAll_grouped (items : List Tree) :
    ungroupedAll (grouped items) = ungroupedAll items := by
  rcases grouped_cases items with ⟨item, rfl, -⟩ | hgrouped
  · rfl
  · have hexpression : Nonterminal.expression.label ≠ Nonterminal.term.label := by decide
    calc
      ungroupedAll (grouped items) = ungroupedAll [groupOf items] := by
        rw [hgrouped]
      _ = spliced (groupOf (ungroupedAll items)) := by
        rw [ungroupedAll_singleton, groupOf, ungrouped, ungroupedAll_node items hexpression]
        rfl
      _ = ungroupedAll items := spliced_groupOf _

theorem ungroupedAll_group (table : PrecedenceTable) (items : List Tree) :
    ungroupedAll (table.group items) = ungroupedAll items :=
  PrecedenceTable.eq_of_group rfl ungroupedAll_append ungroupedAll_grouped items

/-! ## Trees without groups -/

private theorem ungroupedAll_eq_self {trees : List Tree}
    (htrees : ∀ tree ∈ trees, tree.ungrouped = tree ∧ ¬ tree.IsGroup) :
    ungroupedAll trees = trees := by
  induction trees with
  | nil => rfl
  | cons tree trees ih =>
      obtain ⟨hsame, hplain⟩ := htrees tree List.mem_cons_self
      have hrest := ih fun other hother => htrees other (List.mem_cons_of_mem tree hother)
      rw [ungroupedAll, hsame, spliced_of_not_isGroup hplain, hrest, List.singleton_append]

theorem ungrouped_eq_self {tree : Tree} (htree : ∀ part ∈ tree.preorder, ¬ part.IsGroup) :
    tree.ungrouped = tree := by
  induction tree using Tree.induction with
  | leaf token => rfl
  | node label children ih =>
      have hchildren : ∀ child ∈ children, child.ungrouped = child ∧ ¬ child.IsGroup := by
        intro child hchild
        have hparts : ∀ part ∈ child.preorder, ¬ part.IsGroup := by
          intro part hpart
          apply htree
          exact List.mem_cons_of_mem _ (mem_preorderAll.mpr ⟨child, hchild, hpart⟩)
        refine ⟨ih child hchild hparts, ?_⟩
        cases child with
        | leaf token => simp [IsGroup, groupOf]
        | node own parts => exact hparts _ (mem_preorder_self rfl)
      rw [ungrouped, ungroupedAll_eq_self hchildren]

end Tree

open JackSyntax.Tree

/-! ## Reading with two tables -/

/-- Tables with the same operators make the same trees up to groups. -/
def PrecedenceTable.regrouping (table other : PrecedenceTable) : Likeness table other where
  token := table.SameToken other
  trees first first' := ungroupedAll first = ungroupedAll first'
  accepts := accepts_eq_of_sameToken table other
  hasLevel := hasLevel_eq_of_sameToken table other
  nil := rfl
  leaf := by
    rintro one _ ⟨rfl, -⟩
    rfl
  append := by
    intro first first' second second' hfirst hsecond
    rw [ungroupedAll_append, ungroupedAll_append, hfirst, hsecond]
  node := by
    intro name children children' hchildren
    rw [ungroupedAll_singleton, ungroupedAll_singleton, ungrouped, ungrouped, hchildren]
  expression := by
    intro items items' hitems
    rw [ungroupedAll_singleton, ungroupedAll_singleton, ungrouped, ungrouped,
      ungroupedAll_group, ungroupedAll_group, hitems]

/-- A program has a class at its root, so nothing of it is spliced out. -/
private theorem ungroupedAll_program {table : PrecedenceTable} {stack : CallStack}
    {tokens rest : List Token} {tree : Tree}
    (hread : parseProgram table stack tokens = .done tree rest) :
    ungroupedAll [tree] = [tree.ungrouped] := by
  obtain ⟨hclass, -⟩ := parseProgram_eq_done_iff.mp hread
  obtain ⟨children, rfl⟩ := Nonterminal.exists_children hclass
  have hlabel : Nonterminal.classDec.label ≠ Nonterminal.term.label := by decide
  rw [ungroupedAll_node children hlabel, ungrouped]

section TwoTables

variable {first second : PrecedenceTable} {stack stack' : CallStack} {tokens : List Token}

private theorem map_ungrouped_eq
    (hlevels : ∀ token ∈ tokens, first.hasLevel token = second.hasLevel token)
    (hstack : stack = stack' ∨ (parseProgram first stack tokens).wentTooDeep = false ∧
      (parseProgram second stack' tokens).wentTooDeep = false) :
    (parseProgram first stack tokens).map ungrouped =
      (parseProgram second stack' tokens).map ungrouped := by
  have haligned : Aligned (first.SameToken second)
      (parseProgram first stack tokens).rest (parseProgram first stack tokens).rest tokens tokens :=
    .of_suffix (forward_parseProgram first stack tokens) fun token htoken =>
      ⟨rfl, hlevels token htoken⟩
  have hagree := alike_parseProgram (first.regrouping second) (Classical.em (stack = stack'))
    tokens tokens _ haligned
  -- the call stacks differ only where neither reading has gone too deep
  generalize hfirst : parseProgram first stack tokens = outcome at hagree hstack ⊢
  generalize hsecond : parseProgram second stack' tokens = outcome' at hagree hstack ⊢
  cases hagree with
  | @done tree tree' rest htrees =>
      have hsame : [tree.ungrouped] = [tree'.ungrouped] := by
        rw [← ungroupedAll_program hfirst, ← ungroupedAll_program hsecond]
        exact htrees
      rw [Outcome.map_done, Outcome.map_done, List.singleton_inj.mp hsame]
      rfl
  | stopped => rfl
  | deepFirst hdeep => simpa [Outcome.wentTooDeep] using (hstack.resolve_left hdeep).1
  | deepSecond hdeep => simpa [Outcome.wentTooDeep] using (hstack.resolve_left hdeep).2

end TwoTables

/-- With two tables that have the same operators among the tokens, reading a program
succeeds with both or with none.  On success the trees are the same up to groups, and with
the flat table there are none; on failure the errors are the same.  The cursor ends at the
same place. -/
theorem read_eq_of_hasLevel_eq {first second : PrecedenceTable} {cursor : Cursor}
    {stack stack' : CallStack}
    (hlevels : ∀ token ∈ cursor.ahead, first.hasLevel token = second.hasLevel token)
    (hstack : stack = stack' ∨
      (parseProgram first stack cursor.ahead).wentTooDeep = false ∧
        (parseProgram second stack' cursor.ahead).wentTooDeep = false) :
    (cursor.read (parseProgram first stack)).1.map ungrouped =
        (cursor.read (parseProgram second stack')).1.map ungrouped ∧
      (cursor.read (parseProgram first stack)).2 =
        (cursor.read (parseProgram second stack')).2 ∧
      (second = .flat →
        (cursor.read (parseProgram first stack)).1.map ungrouped =
          (cursor.read (parseProgram second stack')).1) := by
  have houtcome := map_ungrouped_eq hlevels hstack
  have hread : cursor.read (fun tokens => (parseProgram first stack tokens).map ungrouped) =
      cursor.read fun tokens => (parseProgram second stack' tokens).map ungrouped :=
    Cursor.read_congr houtcome
  rw [Cursor.read_map, Cursor.read_map, Prod.mk.injEq] at hread
  refine ⟨hread.1, hread.2, ?_⟩
  rintro rfl
  rw [hread.1]
  unfold Cursor.read
  cases hflat : parseProgram .flat stack' cursor.ahead with
  | stopped obstacle rest => rfl
  | done tree rest =>
      obtain ⟨hclass, -⟩ := parseProgram_eq_done_iff.mp hflat
      have hplain := (wellFormed_of_parse_flat hclass).1
      exact congrArg Except.ok (ungrouped_eq_self hplain)

/-- The arithmetic table makes a group of the product, the flat table does not.  The trees are
the same but for that. -/
theorem read_eq_of_hasLevel_eq_sample :
    ∃ tree flat,
      ((Cursor.ofTokens sampleProgram).read
        (parseProgram .arithmetic (PrecedenceTable.arithmetic.callStack 20))).1 = .ok tree ∧
      ((Cursor.ofTokens sampleProgram).read
        (parseProgram .flat (PrecedenceTable.flat.callStack 20))).1 = .ok flat ∧
      tree.ungrouped = flat ∧ (∃ part ∈ tree.preorder, part.IsGroup) ∧
      ∀ part ∈ flat.preorder, ¬ part.IsGroup := by
  obtain ⟨tree, htree, items, hgroup⟩ : ∃ tree,
      ((Cursor.ofTokens sampleProgram).read
        (parseProgram .arithmetic (PrecedenceTable.arithmetic.callStack 20))).1 = .ok tree ∧
      ∃ items, tree.preorder[8]? = some (groupOf items) := ⟨_, rfl, _, rfl⟩
  obtain ⟨flat, hflat, hread⟩ : ∃ flat,
      ((Cursor.ofTokens sampleProgram).read
        (parseProgram .flat (PrecedenceTable.flat.callStack 20))).1 = .ok flat ∧
      parseProgram .flat (PrecedenceTable.flat.callStack 20) sampleProgram = .done flat [] :=
    ⟨_, rfl, rfl⟩
  have hsame :
      ((Cursor.ofTokens sampleProgram).read
        (parseProgram .arithmetic (PrecedenceTable.arithmetic.callStack 20))).1.map ungrouped =
      ((Cursor.ofTokens sampleProgram).read
        (parseProgram .flat (PrecedenceTable.flat.callStack 20))).1 :=
    (read_eq_of_hasLevel_eq (by decide) (Or.inr ⟨rfl, rfl⟩)).2.2 rfl
  rw [htree, hflat] at hsame
  obtain ⟨hclass, -⟩ := parseProgram_eq_done_iff.mp hread
  exact ⟨tree, flat, htree, hflat, Except.ok.inj hsame,
    ⟨_, List.mem_of_getElem? hgroup, items, rfl⟩, (wellFormed_of_parse_flat hclass).1⟩

end JackSyntax
