import JackSyntax.Proofs.Grammar.Soundness
import JackSyntax.Proofs.Reading.Comparison

/-!
# Expressions are split at their weakest operators

The main result on expressions: what is read is a maximal run of terms and operators, and
its node holds the run split at the weakest operators (`parse_expression_splits`).

That the levels count only by their order is a comparison of two readings.  The tables
have to agree on which of the tokens are operators at all.  Of the levels only those of
the operators in the result matter (`Tree.operators`): a minus sign before a term, for
instance, may have any level.
-/

namespace JackSyntax

namespace Tree

/-! ## The operators in a tree -/

mutual

/-- The operators in a tree, which counts as one itself if it is an item of an
expression. -/
def operatorsIn (isItem : Bool) : Tree → List Token
  | leaf token => if isItem then [token] else []
  | node label children => operatorsInAll (label = Nonterminal.expression.label) children

/-- The operators in several trees. -/
def operatorsInAll (isItem : Bool) : List Tree → List Token
  | [] => []
  | tree :: trees => operatorsIn isItem tree ++ operatorsInAll isItem trees

end

/-- The binary operators in a tree: the tokens among the children of its expressions. -/
def operators (tree : Tree) : List Token :=
  operatorsIn false tree

theorem operatorsInAll_append (isItem : Bool) (first second : List Tree) :
    operatorsInAll isItem (first ++ second) =
      operatorsInAll isItem first ++ operatorsInAll isItem second := by
  induction first with
  | nil => rfl
  | cons tree trees ih => simp [operatorsInAll, ih]

theorem operatorsInAll_subset (isItem : Bool) (trees : List Tree) :
    operatorsInAll false trees ⊆ operatorsInAll isItem trees := by
  induction trees with
  | nil => exact List.nil_subset _
  | cons tree trees ih =>
      rw [operatorsInAll, operatorsInAll]
      refine List.append_subset.mpr ⟨?_, List.subset_append_of_subset_right _ ih⟩
      apply List.subset_append_of_subset_left
      cases tree with
      | leaf token => exact List.nil_subset _
      | node label children => exact List.Subset.refl _

theorem mem_operatorsInAll {items : List Tree} {token : Token} (htoken : .leaf token ∈ items) :
    token ∈ operatorsInAll true items := by
  obtain ⟨before, after, rfl⟩ := List.append_of_mem htoken
  simp [operatorsInAll_append, operatorsInAll, operatorsIn]

theorem operatorsInAll_node (isItem : Bool) (label : String) (children : List Tree) :
    operatorsInAll isItem [.node label children] =
      operatorsInAll (label = Nonterminal.expression.label) children := by
  simp [operatorsInAll, operatorsIn]

theorem operatorsInAll_grouped (items : List Tree) :
    operatorsInAll true (grouped items) = operatorsInAll true items := by
  rcases grouped_cases items with ⟨item, rfl, -⟩ | hgrouped
  · rfl
  · rw [hgrouped, groupOf, operatorsInAll_node, operatorsInAll_node]
    rfl

/-- Grouping moves operators into groups, and loses none. -/
theorem operatorsInAll_group (table : PrecedenceTable) (items : List Tree) :
    operatorsInAll true (table.group items) = operatorsInAll true items :=
  PrecedenceTable.eq_of_group rfl (operatorsInAll_append true) operatorsInAll_grouped items

end Tree

/-! ## Tables with the same order -/

/-- Tables that have the same operators make the same trees, as long as they order the
operators in these trees in the same way. -/
def PrecedenceTable.SameOrder.likeness {table other : PrecedenceTable} {tokens : List Token}
    (hsame : table.SameOrder other tokens) : Likeness table other where
  token := table.SameToken other
  trees first first' := Tree.operatorsInAll false first ⊆ tokens → first = first'
  accepts := accepts_eq_of_sameToken table other
  hasLevel := hasLevel_eq_of_sameToken table other
  nil := fun _ => rfl
  leaf := by
    rintro one _ ⟨rfl, -⟩ _
    rfl
  append := by
    intro first first' second second' hfirst hsecond hsubset
    rw [Tree.operatorsInAll_append] at hsubset
    obtain ⟨hbefore, hafter⟩ := List.append_subset.mp hsubset
    rw [hfirst hbefore, hsecond hafter]
  node := by
    intro name children children' hchildren hsubset
    rw [Tree.operatorsInAll_node] at hsubset
    have hplain := List.Subset.trans (Tree.operatorsInAll_subset _ children) hsubset
    rw [hchildren hplain]
  expression := by
    intro items items' hitems hsubset
    rw [Tree.operatorsInAll_node] at hsubset
    have hoperators : Tree.operatorsInAll true items ⊆ tokens :=
      Tree.operatorsInAll_group table items ▸ hsubset
    have hgroup : table.group items = other.group items :=
      group_congr hsame fun token htoken => hoperators (Tree.mem_operatorsInAll htoken)
    have hplain := List.Subset.trans (Tree.operatorsInAll_subset true items) hoperators
    rw [hgroup, hitems hplain]

/-- What a production reads is read with another table as well, if the tables have the
same operators among the tokens looked at and order those in the tree in the same way.  Within
another call stack the reading may go too deep instead. -/
theorem parse_eq_of_sameOrder {table other : PrecedenceTable} {stack stack' : CallStack}
    {name : Nonterminal} {taken rest : List Token} {tree : Tree}
    (hread : name.parse table stack (taken ++ rest) = .done tree rest)
    (hlevels : ∀ token ∈ taken ++ rest.take 1, table.hasLevel token = other.hasLevel token)
    (hsame : table.SameOrder other tree.operators)
    (hstack : stack = stack' ∨ (name.parse other stack' (taken ++ rest)).wentTooDeep = false) :
    name.parse other stack' (taken ++ rest) = .done tree rest := by
  have haligned : Aligned (table.SameToken other) rest rest (taken ++ rest) (taken ++ rest) :=
    Aligned.refl fun token htoken => ⟨rfl, hlevels token htoken⟩
  have hagree := Nonterminal.alike_parse hsame.likeness (Classical.em (stack = stack')) name _ _
    rest (by rwa [hread])
  rw [hread] at hagree
  generalize name.parse other stack' (taken ++ rest) = outcome at hagree hstack
  cases hagree with
  | done htrees =>
      have hoperators : Tree.operatorsInAll false [tree] ⊆ tree.operators := by
        simp [Tree.operatorsInAll, Tree.operators]
      rw [List.singleton_inj.mp (htrees hoperators)]
  | deepSecond hdeep => simpa [Outcome.wentTooDeep] using hstack.resolve_left hdeep

/-! ## The main result -/

/-- Without room no term is read, and so no run of terms. -/
theorem ReadsRun.room_pos {table : PrecedenceTable} {stack : CallStack} {caller : Nonterminal}
    {isOperator : Token → Bool} {tokens rest : List Token} {items : List Tree}
    (hrun : ReadsRun isOperator (Nonterminal.term.parse table (stack.within caller .term)) tokens
      items rest) : 0 < stack.room := by
  have hterm : ∀ {tokens rest tree},
      Nonterminal.term.parse table (stack.within caller .term) tokens = .done tree rest →
        0 < stack.room := by
    intro tokens rest tree hread
    have hroom : 0 < stack.room - 1 - stack.between caller .term :=
      (Nonterminal.parse_eq_done_iff.mp hread).1
    omega
  cases hrun with
  | last hread _ => exact hterm hread
  | more hread _ _ => exact hterm hread

/-- Reading an expression succeeds with just the maximal runs of terms and operators, and its
node holds the run split at the weakest operators.  No expression in it has a lone group as
its only child.  Of the table it depends on nothing but which tokens are operators and how
those between terms are ordered; within another call stack it may only go too deep. -/
theorem parse_expression_splits {table : PrecedenceTable} {stack : CallStack}
    {tokens rest : List Token} {tree : Tree} :
    (Nonterminal.expression.parse table stack tokens = .done tree rest ↔
      ∃ items, ReadsRun table.hasLevel
          (Nonterminal.term.parse table (stack.within .expression .term)) tokens items rest ∧
        tree = .node Nonterminal.expression.label (table.group items)) ∧
    (Nonterminal.expression.parse table stack tokens = .done tree rest →
      (∀ items, .node Nonterminal.expression.label [.groupOf items] ∉ tree.preorder) ∧
      ∀ (other : PrecedenceTable) (stack' : CallStack) (taken : List Token),
        tokens = taken ++ rest →
        (∀ token ∈ taken ++ rest.take 1, table.hasLevel token = other.hasLevel token) →
        table.SameOrder other tree.operators →
        (stack = stack' ∨
          (Nonterminal.expression.parse other stack' tokens).wentTooDeep = false) →
        Nonterminal.expression.parse other stack' tokens = .done tree rest) := by
  have hforward := (Nonterminal.advancing_parseInner table stack .expression).forward .term
  refine ⟨⟨?_, ?_⟩, fun hread => ⟨?_, ?_⟩⟩
  · intro hread
    obtain ⟨hroom, -⟩ := Nonterminal.parse_eq_done_iff.mp hread
    rw [parse_expression_eq table hroom] at hread
    obtain ⟨items, hchain, rfl⟩ := Outcome.map_eq_done_iff.mp hread
    exact ⟨items, (readChain_eq_done_iff hforward).mp hchain, rfl⟩
  · rintro ⟨items, hrun, rfl⟩
    rw [parse_expression_eq table hrun.room_pos]
    exact Outcome.map_eq_done_iff.mpr ⟨items, (readChain_eq_done_iff hforward).mpr hrun, rfl⟩
  · intro items hlone
    obtain ⟨children, -, -, hgrouped⟩ := Nonterminal.sound_parse table stack _ _ _ _ hread
    -- beside the group there would have to be an operator
    obtain ⟨-, beside, hbeside, -⟩ := hgrouped.groups _ _ hlone items List.mem_cons_self
    simp [Tree.groupOf] at hbeside
  · rintro other stack' taken rfl hlevels hsame hstack
    exact parse_eq_of_sameOrder hread hlevels hsame hstack

/-- The product in `1 + 2 * 3` binds tighter, and becomes a group. -/
theorem parse_expression_splits_sum :
    let tokens : List Token :=
      [⟨.integerConstant, .integer 1, 1, 1⟩, ⟨.symbol, .text "+", 1, 3⟩,
        ⟨.integerConstant, .integer 2, 1, 5⟩, ⟨.symbol, .text "*", 1, 7⟩,
        ⟨.integerConstant, .integer 3, 1, 9⟩, ⟨.symbol, .text ";", 1, 10⟩]
    let stack := PrecedenceTable.arithmetic.callStack 10
    ∃ tree rest, Nonterminal.expression.parse .arithmetic stack tokens = .done tree rest ∧
      (∃ items, ReadsRun PrecedenceTable.arithmetic.hasLevel
          (Nonterminal.term.parse .arithmetic (stack.within .expression .term)) tokens items
          rest ∧
        tree = .node Nonterminal.expression.label (PrecedenceTable.arithmetic.group items)) ∧
      ∀ items, .node Nonterminal.expression.label [.groupOf items] ∉ tree.preorder := by
  intro tokens stack
  obtain ⟨tree, rest, hread⟩ :
      ∃ tree rest, Nonterminal.expression.parse .arithmetic stack tokens = .done tree rest :=
    ⟨_, _, rfl⟩
  exact ⟨tree, rest, hread, parse_expression_splits.1.mp hread,
    (parse_expression_splits.2 hread).1⟩

end JackSyntax
