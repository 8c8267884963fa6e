import JackSyntax.Proofs.Grammar.Productions
import JackSyntax.Proofs.Operators.Climbing
import JackSyntax.Proofs.Reading.Conservation
import JackSyntax.Proofs.Trees.Nodes
import JackSyntax.Proofs.Trees.Walks

/-!
# Trees follow the grammar

Whatever is read, the tree follows the documented grammar node by node.  The only
addition are groups, which take the place of operands beside looser operators.  Both are
put together in `Tree.WellGrouped`, and a production that succeeds makes such a tree
(`Nonterminal.sound_parse`).

Rules without operators are handled by induction over the rule (`Rule.sound_parse`).  For
an expression the run of operands and operators is sound as it was read, and grouping
keeps it sound (`sound_group`): a group holds a shorter run, whose operators all bind
tighter than one that stays beside it.
-/

namespace JackSyntax

open Computability

/-! ## What is shown of a tree -/

/-- Whether some items have an operator that binds looser than all operators among some
others. -/
def PrecedenceTable.HasLooser (table : PrecedenceTable) (items others : List Tree) : Prop :=
  ∃ beside, .leaf beside ∈ items ∧ table.hasLevel beside = true ∧
    ∀ inside, .leaf inside ∈ others → table.Looser beside inside

/-- Every node in the tree follows the grammar, or is the group of an expression with an
operator; and a group stands only in an expression, beside an operator that binds looser
than those in the group. -/
structure Tree.WellGrouped (table : PrecedenceTable) (tree : Tree) : Prop where
  follows : ∀ label children, .node label children ∈ tree.preorder →
    (∃ name : Nonterminal, label = name.label ∧ children ∈ name.production table.hasLevel) ∨
      ∃ items, .node label children = Tree.groupOf items ∧ 3 ≤ items.length
  groups : ∀ label children, .node label children ∈ tree.preorder →
    ∀ items, .groupOf items ∈ children →
      label = Nonterminal.expression.label ∧ table.HasLooser children items

section Nodes

variable {table : PrecedenceTable}

theorem Tree.wellGrouped_leaf (token : Token) : (Tree.leaf token).WellGrouped table :=
  ⟨by simp [Tree.preorder], by simp [Tree.preorder]⟩

/-- A node is well grouped if its children are, and the node itself is. -/
theorem Tree.WellGrouped.of_children {label : String} {children : List Tree}
    (hchildren : ∀ child ∈ children, child.WellGrouped table)
    (hfollows : (∃ name : Nonterminal, label = name.label ∧
        children ∈ name.production table.hasLevel) ∨
      ∃ items, .node label children = Tree.groupOf items ∧ 3 ≤ items.length)
    (hgroups : ∀ items, .groupOf items ∈ children →
      label = Nonterminal.expression.label ∧ table.HasLooser children items) :
    (Tree.node label children).WellGrouped table := by
  constructor
  · intro own parts hpart
    rcases List.mem_cons.mp hpart with heq | hpart
    · cases heq
      exact hfollows
    · obtain ⟨child, hchild, hpart⟩ := Tree.mem_preorderAll.mp hpart
      exact (hchildren child hchild).follows own parts hpart
  · intro own parts hpart
    rcases List.mem_cons.mp hpart with heq | hpart
    · cases heq
      exact hgroups
    · obtain ⟨child, hchild, hpart⟩ := Tree.mem_preorderAll.mp hpart
      exact (hchildren child hchild).groups own parts hpart

/-- Whether a label is the label of a production. -/
def Nonterminal.IsLabel (label : String) : Prop :=
  ∃ name : Nonterminal, label = name.label

/-- A group is a term, so every label is the label of a production. -/
theorem Tree.WellGrouped.everyLabel {tree : Tree} (htree : tree.WellGrouped table) :
    tree.EveryLabel Nonterminal.IsLabel := by
  intro label children hnode
  rcases htree.follows label children hnode with ⟨name, hlabel, -⟩ | ⟨items, hgroup, -⟩
  · exact ⟨name, hlabel⟩
  · exact ⟨.term, (Tree.node.inj hgroup).1⟩

end Nodes

/-! ## Productions make no groups of their own -/

namespace Form

/-- Every sequence of a language begins with a token. -/
def StartsWithToken (form : Language Tree) : Prop :=
  ∀ trees ∈ form, ∃ token rest, trees = .leaf token :: rest

theorem startsWithToken_token (allowed : Token → Bool) : StartsWithToken (token allowed) := by
  rintro _ ⟨token, -, rfl⟩
  exact ⟨token, [], rfl⟩

theorem StartsWithToken.add {first second : Language Tree} (hfirst : StartsWithToken first)
    (hsecond : StartsWithToken second) : StartsWithToken (first + second) := by
  intro trees htrees
  rcases (Language.mem_add _ _ _).mp htrees with htrees | htrees
  · exact hfirst trees htrees
  · exact hsecond trees htrees

theorem StartsWithToken.mul {first : Language Tree} (hfirst : StartsWithToken first)
    (second : Language Tree) : StartsWithToken (first * second) := by
  intro trees htrees
  obtain ⟨before, hbefore, after, -, rfl⟩ := Language.mem_mul.mp htrees
  obtain ⟨token, rest, rfl⟩ := hfirst before hbefore
  exact ⟨token, rest ++ after, rfl⟩

theorem startsWithToken_subroutineCall : StartsWithToken subroutineCall := by
  have hname : StartsWithToken name := startsWithToken_token _
  exact (hname.mul _).add (((hname.mul _).mul _).mul _)

end Form

theorem startsWithToken_term (operator : Token → Bool) :
    Form.StartsWithToken (Nonterminal.term.production operator) := by
  have htoken := Form.startsWithToken_token
  have hname : Form.StartsWithToken Form.name := htoken _
  refine .add (.add (.add (.add (.add (.add (.add (htoken _) (htoken _)) ?_) hname) ?_) ?_) ?_) ?_
  · exact (((htoken _).add (htoken _)).add (htoken _)).add (htoken _)
  · exact ((hname.mul _).mul _).mul _
  · exact Form.startsWithToken_subroutineCall
  · exact ((htoken _).mul _).mul _
  · exact ((htoken _).add (htoken _)).mul _

/-- A node that follows its production is no group. -/
theorem not_isGroup_of_mem_production {operator : Token → Bool} {name : Nonterminal}
    {children : List Tree} (hchildren : children ∈ name.production operator) :
    ¬ (Tree.node name.label children).IsGroup := by
  rintro ⟨items, hgroup⟩
  obtain ⟨hlabel, rfl⟩ := Tree.node.inj hgroup
  obtain rfl := Nonterminal.label_injective hlabel
  obtain ⟨token, rest, hstart⟩ := startsWithToken_term operator _ hchildren
  simp at hstart

/-! ## Rules without operators -/

/-- Readers of the productions that make nothing but well-grouped nodes. -/
def SoundReaders (table : PrecedenceTable) (production : Nonterminal → Parser Tree) : Prop :=
  ∀ name tokens tree rest, production name tokens = .done tree rest →
    ∃ children, tree = .node name.label children ∧
      children ∈ name.production table.hasLevel ∧ tree.WellGrouped table

section Sound

variable {table : PrecedenceTable} {production : Nonterminal → Parser Tree}

theorem append_mem_kstar {form : Language Tree} {part rest : List Tree} (hpart : part ∈ form)
    (hrest : rest ∈ form∗) : part ++ rest ∈ form∗ := by
  rw [← Language.one_add_self_mul_kstar_eq_kstar]
  exact (Language.mem_add _ _ _).mpr (Or.inr (Language.append_mem_mul hpart hrest))

/-- What a repetition reads is a repetition of what its item reads. -/
theorem repeatWhile_mem_kstar {begins : Token → Bool} {item : Parser (List Tree)}
    {form : Language Tree}
    (hitem : ∀ tokens trees rest, item tokens = .done trees rest → trees ∈ form)
    {tokens rest : List Token} {trees : List Tree}
    (hread : repeatWhile begins item tokens = .done trees rest) : trees ∈ form∗ := by
  refine repeatWhile_induction (motive := fun _ trees _ => trees ∈ form∗) ?_ ?_ hread
  · exact fun tokens => Language.nil_mem_kstar form
  · intro tokens trees middle others rest hread hmore
    exact append_mem_kstar (hitem tokens trees middle hread) hmore

/-- Sequences of trees that all have a property. -/
def Form.every (property : Tree → Prop) : Language Tree :=
  {trees | ∀ tree ∈ trees, property tree}

/-- A rule without operators reads what it describes, and no groups. -/
theorem Rule.sound_parse (hproduction : SoundReaders table production) {rule : Rule}
    (hrule : rule.isPlain = true) {tokens rest : List Token} {trees : List Tree}
    (hread : rule.parse table production tokens = .done trees rest) :
    trees ∈ rule.language table.hasLevel ∧
      ∀ tree ∈ trees, tree.WellGrouped table ∧ ¬ tree.IsGroup := by
  induction rule generalizing tokens rest trees with
  | empty =>
      simp only [Rule.parse, Outcome.done.injEq] at hread
      simp [← hread.1, language]
  | token terminal expected =>
      obtain ⟨token, htoken, rfl⟩ := Outcome.map_eq_done_iff.mp hread
      refine ⟨⟨token, (readToken_eq_done_iff.mp htoken).1, rfl⟩, ?_⟩
      simp [Tree.wellGrouped_leaf, Tree.IsGroup, Tree.groupOf]
  | fail expected => simp [Rule.parse] at hread
  | call name =>
      obtain ⟨tree, htree, rfl⟩ := Outcome.map_eq_done_iff.mp hread
      obtain ⟨children, rfl, hchildren, hgrouped⟩ := hproduction name _ tree _ htree
      refine ⟨⟨children, rfl⟩, ?_⟩
      simpa using ⟨hgrouped, not_isGroup_of_mem_production hchildren⟩
  | operators name => simp [isPlain] at hrule
  | seq first second ihfirst ihsecond =>
      rw [isPlain, Bool.and_eq_true] at hrule
      obtain ⟨before, middle, hbefore, hread⟩ := Outcome.andThen_eq_done_iff.mp hread
      obtain ⟨after, hafter, rfl⟩ := Outcome.map_eq_done_iff.mp hread
      have hfirst := ihfirst hrule.1 hbefore
      have hsecond := ihsecond hrule.2 hafter
      refine ⟨Language.append_mem_mul hfirst.1 hsecond.1, fun tree htree => ?_⟩
      rcases List.mem_append.mp htree with htree | htree
      · exact hfirst.2 tree htree
      · exact hsecond.2 tree htree
  | branch guard taken otherwise ihtaken ihotherwise =>
      rw [isPlain, Bool.and_eq_true] at hrule
      rw [Rule.parse] at hread
      split at hread
      · have htaken := ihtaken hrule.1 hread
        exact ⟨(Language.mem_add _ _ _).mpr (Or.inl htaken.1), htaken.2⟩
      · have hotherwise := ihotherwise hrule.2 hread
        exact ⟨(Language.mem_add _ _ _).mpr (Or.inr hotherwise.1), hotherwise.2⟩
  | many guard item ih =>
      -- the trees of all items together are again a sequence of good trees
      have hgood : trees ∈ (Form.every fun tree => tree.WellGrouped table ∧ ¬ tree.IsGroup)∗ :=
        repeatWhile_mem_kstar (fun _ _ _ hitem => (ih hrule hitem).2) hread
      obtain ⟨parts, rfl, hparts⟩ := Language.mem_kstar.mp hgood
      refine ⟨repeatWhile_mem_kstar (fun _ _ _ hitem => (ih hrule hitem).1) hread, ?_⟩
      intro tree htree
      obtain ⟨part, hpart, htree⟩ := List.mem_flatten.mp htree
      exact hparts part hpart tree htree

/-! ## Expressions -/

private theorem mem_node_of_isTerm {tree : Tree} (htree : tree.IsTerm) :
    [tree] ∈ Form.node .term := by
  cases tree with
  | leaf token => simp [Tree.IsTerm, Tree.hasLabel] at htree
  | node label children =>
      obtain rfl : label = Nonterminal.term.label := of_decide_eq_true htree
      exact ⟨children, rfl⟩

/-- The children of an expression are terms with operators between them. -/
theorem mem_production_expression_iff {operator : Token → Bool} {items : List Tree} :
    items ∈ Nonterminal.expression.production operator ↔
      Alternates Tree.IsTerm (operator ·) items := by
  constructor
  · intro hitems
    obtain ⟨first, ⟨children, rfl⟩, more, hmore, rfl⟩ := Language.mem_mul.mp hitems
    obtain ⟨links, rfl, hlinks⟩ := Language.mem_kstar.mp hmore
    clear hitems hmore
    induction links generalizing children with
    | nil => exact .last rfl
    | cons link links ih =>
        obtain ⟨_, ⟨token, htoken, rfl⟩, _, ⟨next, rfl⟩, rfl⟩ :=
          Language.mem_mul.mp (hlinks link List.mem_cons_self)
        refine .more rfl htoken (ih next fun other hother => ?_)
        exact hlinks other (List.mem_cons_of_mem _ hother)
  · intro hitems
    induction hitems with
    | @last tree htree =>
        have hnode := mem_node_of_isTerm htree
        exact Language.mem_mul.mpr ⟨_, hnode, [], Language.nil_mem_kstar _, by simp⟩
    | @more tree token items htree htoken hitems ih =>
        have hnode := mem_node_of_isTerm htree
        obtain ⟨first, hfirst, more, hmore, rfl⟩ := Language.mem_mul.mp ih
        have hlink : [.leaf token] ++ first ∈ Form.token operator * Form.node .term :=
          Language.append_mem_mul ⟨token, htoken, rfl⟩ hfirst
        refine Language.mem_mul.mpr ⟨_, hnode, [.leaf token] ++ first ++ more, ?_, by simp⟩
        exact append_mem_kstar hlink hmore

/-- The group of a sound run is sound. -/
private theorem wellGrouped_expression {items : List Tree}
    (hitems : Alternates Tree.IsTerm (table.hasLevel ·) items)
    (hchildren : ∀ item ∈ items, item.WellGrouped table)
    (hgroups : ∀ inner, .groupOf inner ∈ items → table.HasLooser items inner) :
    (Tree.node Nonterminal.expression.label items).WellGrouped table :=
  .of_children hchildren
    (Or.inl ⟨.expression, rfl, mem_production_expression_iff.mpr hitems⟩)
    fun inner hinner => ⟨rfl, hgroups inner hinner⟩

private theorem wellGrouped_groupOf {items : List Tree}
    (hexpression : (Tree.node Nonterminal.expression.label items).WellGrouped table)
    (hlength : 3 ≤ items.length) : (Tree.groupOf items).WellGrouped table := by
  refine .of_children (by simpa using hexpression) (Or.inr ⟨items, rfl, hlength⟩) ?_
  intro inner hinner
  have hlabel := (Tree.node.inj (List.mem_singleton.mp hinner)).1
  simp [Nonterminal.label] at hlabel

theorem Alternates.three_le_length {operand : Tree → Prop} {operator : Token → Prop}
    {items : List Tree} (hitems : Alternates operand operator items)
    (hseveral : 1 < items.length) : 3 ≤ items.length := by
  cases hitems with
  | last htree => simp at hseveral
  | more htree htoken hitems =>
      have := List.length_pos_iff.mpr hitems.ne_nil
      simp only [List.length_cons]
      omega

/-- Grouping keeps a run sound. -/
theorem sound_group {items : List Tree} (hitems : Alternates Tree.IsTerm (table.hasLevel ·) items)
    (hgood : ∀ item ∈ items, item.WellGrouped table ∧ ¬ item.IsGroup) :
    (Tree.node Nonterminal.expression.label (table.group items)).WellGrouped table := by
  induction hlength : items.length using Nat.strongRecOn generalizing items with
  | ind length ih =>
      subst hlength
      refine wellGrouped_expression (table.alternates_group hitems) ?_ ?_
      · intro item hitem
        rcases PrecedenceTable.mem_group hitems hitem with hitem | ⟨piece, hgroup⟩
        · exact (hgood item hitem).1
        · -- a group holds a shorter run
          have hpiece := ih piece.length hgroup.shorter hgroup.alternates
            (fun other hother => hgood other (hgroup.subset hother)) rfl
          have hseveral := PrecedenceTable.one_lt_length_group hgroup.alternates hgroup.several
          have hrun := table.alternates_group hgroup.alternates
          exact hgroup.eq_groupOf ▸ wellGrouped_groupOf hpiece (hrun.three_le_length hseveral)
      · intro inner hinner
        rcases PrecedenceTable.mem_group hitems hinner with hitem | ⟨piece, hgroup⟩
        · exact absurd ⟨inner, rfl⟩ (hgood _ hitem).2
        · obtain ⟨beside, hbeside, htighter⟩ := hgroup.tighter
          have heq := hgroup.eq_groupOf
          simp only [Tree.groupOf, Tree.node.injEq, List.cons.injEq, true_and,
            and_true] at heq
          subst heq
          have hoperator : table.hasLevel beside = true := by
            rcases (table.alternates_group hitems).mem hbeside with hterm | hleaf
            · simp [Tree.IsTerm, Tree.hasLabel] at hterm
            · obtain ⟨other, hother, hlevel⟩ := hleaf
              exact (Tree.leaf.inj hother) ▸ hlevel
          refine ⟨beside, hbeside, hoperator, fun inside hinside => ?_⟩
          exact htighter inside (PrecedenceTable.mem_of_leaf_mem_group hinside)

end Sound

/-! ## Productions -/

theorem Nonterminal.sound_parse (table : PrecedenceTable) (stack : CallStack) :
    SoundReaders table (Nonterminal.parse table stack) := by
  induction stack using CallStack.induction with
  | full stack hfull =>
      intro name tokens tree rest hread
      simp [parse_of_full hfull] at hread
  | call stack hroom ih =>
      intro name tokens tree rest hread
      have hinner : SoundReaders table (name.parseInner table stack) := fun callee =>
        ih name callee callee
      by_cases hname : name = .expression
      · -- the run is sound as it was read, before it is grouped
        subst hname
        rw [parse_expression_eq table hroom] at hread
        obtain ⟨items, hchain, rfl⟩ := Outcome.map_eq_done_iff.mp hread
        have hforward := (Nonterminal.advancing_parseInner table stack .expression).forward .term
        have hread := ((readChain_eq_done_iff hforward).mp hchain).alternates
        have hgood : ∀ item ∈ items, item.WellGrouped table ∧ ¬ item.IsGroup := by
          intro item hitem
          rcases hread.mem hitem with ⟨before, after, hterm⟩ | ⟨token, rfl, -⟩
          · obtain ⟨children, rfl, hchildren, hgrouped⟩ := hinner _ _ _ _ hterm
            exact ⟨hgrouped, not_isGroup_of_mem_production hchildren⟩
          · simp [Tree.wellGrouped_leaf, Tree.IsGroup, Tree.groupOf]
        have hitems : Alternates Tree.IsTerm (table.hasLevel ·) items := by
          refine hread.mono ?_ fun _ _ htoken => htoken
          rintro tree ⟨before, after, hterm⟩
          obtain ⟨children, rfl⟩ := Nonterminal.exists_children hterm
          exact Tree.isTerm_node children
        exact ⟨_, rfl, mem_production_expression_iff.mpr (table.alternates_group hitems),
          sound_group hitems hgood⟩
      · obtain ⟨-, children, hparts, rfl⟩ := parse_eq_done_iff.mp hread
        have hrule := Rule.sound_parse hinner (isPlain_rule hname) hparts
        have hchildren := language_rule table.hasLevel name ▸ hrule.1
        refine ⟨children, rfl, hchildren, ?_⟩
        refine .of_children (fun child hchild => (hrule.2 child hchild).1)
          (Or.inl ⟨name, rfl, hchildren⟩) fun items hitems => ?_
        exact absurd ⟨items, rfl⟩ (hrule.2 _ hitems).2

/-! ## The flat table makes no groups -/

/-- The expression in a group has an operator. -/
private theorem exists_operator_of_group {table : PrecedenceTable} {tree : Tree}
    (htree : tree.WellGrouped table) {items : List Tree}
    (hgroup : Tree.groupOf items ∈ tree.preorder) : ∃ token, .leaf token ∈ items := by
  have hlength : 3 ≤ items.length := by
    rcases htree.follows _ _ hgroup with ⟨name, hlabel, hchildren⟩ | ⟨others, heq, hlength⟩
    · have hproper := not_isGroup_of_mem_production hchildren
      exact absurd ⟨items, by rw [← hlabel]; rfl⟩ hproper
    · simp only [Tree.groupOf, Tree.node.injEq, List.cons.injEq, true_and, and_true] at heq
      exact heq ▸ hlength
  have hexpression : .node Nonterminal.expression.label items ∈ tree.preorder :=
    Tree.mem_preorder_of_child hgroup (by simp) rfl
  rcases htree.follows _ _ hexpression with ⟨name, hlabel, hchildren⟩ | ⟨others, heq, -⟩
  · obtain rfl : Nonterminal.expression = name := Nonterminal.label_injective hlabel
    cases mem_production_expression_iff.mp hchildren with
    | last htree => simp at hlength
    | @more first token rest htree htoken hitems => exact ⟨token, by simp⟩
  · simp [Tree.groupOf, Nonterminal.label] at heq

theorem Tree.WellGrouped.not_isGroup_of_flat {tree : Tree} (htree : tree.WellGrouped .flat)
    (hroot : ¬ tree.IsGroup) : ∀ part ∈ tree.preorder, ¬ part.IsGroup := by
  rintro part hpart ⟨items, rfl⟩
  rcases Tree.exists_parent hpart with rfl | ⟨label, children, hnode, hchild⟩
  · exact hroot ⟨items, rfl⟩
  · obtain ⟨-, beside, -, -, htighter⟩ := htree.groups label children hnode items hchild
    obtain ⟨inside, hinside⟩ := exists_operator_of_group htree hpart
    exact PrecedenceTable.not_looser_flat beside inside (htighter inside hinside)

/-- With the flat table, the trees of the productions are well formed as they are. -/
theorem wellFormed_of_parse_flat {stack : CallStack} {name : Nonterminal}
    {tokens rest : List Token} {tree : Tree}
    (hread : name.parse .flat stack tokens = .done tree rest) :
    (∀ part ∈ tree.preorder, ¬ part.IsGroup) ∧ tree.WellFormed (·.isSymbol binaryOperators) := by
  obtain ⟨children, rfl, hchildren, hgrouped⟩ := Nonterminal.sound_parse .flat stack _ _ _ _ hread
  have hplain := hgrouped.not_isGroup_of_flat (not_isGroup_of_mem_production hchildren)
  refine ⟨hplain, fun label parts hpart => ?_⟩
  rw [← PrecedenceTable.hasLevel_flat]
  exact (hgrouped.follows label parts hpart).resolve_right
    fun ⟨items, heq, _⟩ => hplain _ hpart ⟨items, heq⟩

/-! ## Programs -/

/-- The tree of a program is a well-grouped class that holds exactly the tokens there were. -/
theorem sound_parseProgram {table : PrecedenceTable} {stack : CallStack}
    {tokens rest : List Token} {tree : Tree}
    (hread : parseProgram table stack tokens = .done tree rest) :
    (∃ children, tree = .node Nonterminal.classDec.label children) ∧
      tree.WellGrouped table ∧ tree.leaves = tokens := by
  obtain ⟨hclass, -⟩ := parseProgram_eq_done_iff.mp hread
  obtain ⟨children, rfl, -, hgrouped⟩ := Nonterminal.sound_parse table _ _ _ _ _ hclass
  have hleaves := Nonterminal.leaves_parse table _ .classDec _ _ _ hclass
  exact ⟨⟨children, rfl⟩, hgrouped, by simpa using hleaves⟩

/-- Every tree that is read follows the grammar, up to groups of tighter operators, and
holds exactly the tokens there were.  With the flat table it follows the grammar as it
is, and so the tokens are a sentence of the grammar. -/
theorem follows_of_parseProgram {table : PrecedenceTable} {stack : CallStack}
    {tokens rest : List Token} {tree : Tree}
    (hread : parseProgram table stack tokens = .done tree rest) :
    tree.hasLabel Nonterminal.classDec.label = true ∧ tree.WellGrouped table ∧
      tree.tokens = tokens ∧
      (table = .flat → (∀ part ∈ tree.preorder, ¬ part.IsGroup) ∧
        tree.WellFormed (·.isSymbol binaryOperators)) := by
  obtain ⟨hclass, -⟩ := parseProgram_eq_done_iff.mp hread
  obtain ⟨children, rfl, -, hgrouped⟩ := Nonterminal.sound_parse table _ _ _ _ _ hclass
  have hleaves := Nonterminal.leaves_parse table _ .classDec _ _ _ hclass
  refine ⟨rfl, hgrouped, ?_, ?_⟩
  · rw [Tree.tokens_eq_leaves]
    simpa using hleaves
  · rintro rfl
    exact wellFormed_of_parse_flat hclass

/-- The tokens of `class A { function int f() { return 1 + 2 * 3; } }`. -/
def sampleProgram : List Token :=
  [⟨.keyword, .text "class", 1, 1⟩, ⟨.identifier, .text "A", 1, 7⟩,
    ⟨.symbol, .text "\x7b", 1, 9⟩, ⟨.keyword, .text "function", 1, 11⟩,
    ⟨.keyword, .text "int", 1, 20⟩, ⟨.identifier, .text "f", 1, 24⟩,
    ⟨.symbol, .text "(", 1, 25⟩, ⟨.symbol, .text ")", 1, 26⟩, ⟨.symbol, .text "\x7b", 1, 28⟩,
    ⟨.keyword, .text "return", 1, 30⟩, ⟨.integerConstant, .integer 1, 1, 37⟩,
    ⟨.symbol, .text "+", 1, 39⟩, ⟨.integerConstant, .integer 2, 1, 41⟩,
    ⟨.symbol, .text "*", 1, 43⟩, ⟨.integerConstant, .integer 3, 1, 45⟩,
    ⟨.symbol, .text ";", 1, 46⟩, ⟨.symbol, .text "\x7d", 1, 48⟩,
    ⟨.symbol, .text "\x7d", 1, 50⟩]

theorem follows_of_parseProgram_sample :
    ∃ tree, parseProgram .arithmetic (PrecedenceTable.arithmetic.callStack 20) sampleProgram =
        .done tree [] ∧
      tree.WellGrouped .arithmetic ∧ tree.tokens = sampleProgram := by
  obtain ⟨tree, hread⟩ : ∃ tree, parseProgram .arithmetic
      (PrecedenceTable.arithmetic.callStack 20) sampleProgram = .done tree [] := ⟨_, rfl⟩
  obtain ⟨-, hgrouped, htokens, -⟩ := follows_of_parseProgram hread
  exact ⟨tree, hread, hgrouped, htokens⟩

end JackSyntax
