import JackSyntax.Cursor
import JackSyntax.Proofs.Grammar.Lookahead
import JackSyntax.Proofs.Grammar.Soundness

/-!
# Every tree of the grammar is read

The tokens of a well-formed tree are read as that tree, so the grammar is unambiguous and
every sentence of it is accepted (`read_tokens_of_wellFormed`).

The induction is on the room in the call stack, and goes through the rule of a production
part by part (`Rule.ReadsBack`, `Rule.readsBack`): the part that is read next leaves tokens
that may stand after it, and as the rule is predictive, the next token lets every choice go
the way the tree went.
An expression is a run of operands, and with the flat table it stays as it was read
(`parse_expression_gives`).

Reading may go too deep, but only where the tree is so high (`Tree.height`) that there is no
room for its calls.  `Outcome.Gives` carries this exception through the proof.
-/

namespace JackSyntax

open Computability JackSyntax.Tree

/-! ## Heights -/

namespace Tree

mutual

/-- The number of nodes on the longest way down from the root. -/
def height : Tree → Nat
  | leaf _ => 0
  | node _ children => heightAll children + 1

/-- The largest of several heights. -/
def heightAll : List Tree → Nat
  | [] => 0
  | tree :: trees => max (height tree) (heightAll trees)

end

theorem height_le_heightAll {tree : Tree} {trees : List Tree} (htree : tree ∈ trees) :
    tree.height ≤ heightAll trees := by
  induction trees with
  | nil => simp at htree
  | cons other trees ih =>
      rw [heightAll]
      rcases List.mem_cons.mp htree with rfl | htree
      · omega
      · have := ih htree
        omega

end Tree

/-! ## Outcomes up to the call stack -/

/-- An outcome gives a value, or has gone too deep where the call stack is too small. -/
inductive Outcome.Gives {α : Type} (shallow : Prop) (value : α) (rest : List Token) :
    Outcome α → Prop
  | done : Gives shallow value rest (.done value rest)
  | tooDeep {left : List Token} (hshallow : shallow) :
      Gives shallow value rest (.stopped .tooDeep left)

namespace Outcome.Gives

variable {α β : Type} {shallow : Prop} {value : α} {rest : List Token} {outcome : Outcome α}

theorem mono {other : Prop} (hgives : outcome.Gives shallow value rest)
    (hother : shallow → other) : outcome.Gives other value rest := by
  cases hgives with
  | done => exact .done
  | tooDeep hshallow => exact .tooDeep (hother hshallow)

theorem map (f : α → β) (hgives : outcome.Gives shallow value rest) :
    (outcome.map f).Gives shallow (f value) rest := by
  cases hgives with
  | done => exact .done
  | tooDeep hshallow => exact .tooDeep hshallow

theorem andThen {next : α → List Token → Outcome β} {result : β} {left : List Token}
    (hgives : outcome.Gives shallow value rest)
    (hnext : (next value rest).Gives shallow result left) :
    (outcome.andThen next).Gives shallow result left := by
  cases hgives with
  | done => exact hnext
  | tooDeep hshallow => exact .tooDeep hshallow

theorem eq_done (hgives : outcome.Gives shallow value rest)
    (hdeep : outcome.wentTooDeep = false) : outcome = .done value rest := by
  cases hgives with
  | done => rfl
  | tooDeep hshallow => simp [wentTooDeep] at hdeep

theorem not_wentTooDeep (hgives : outcome.Gives shallow value rest) (hdeep : ¬ shallow) :
    outcome.wentTooDeep = false := by
  cases hgives with
  | done => rfl
  | tooDeep hshallow => exact absurd hshallow hdeep

end Outcome.Gives

/-! ## Rules without operators -/

theorem subset_of_all_contains {ahead other : List Lookahead}
    (hall : ahead.all other.contains = true) : ahead ⊆ other := by
  intro one hone
  exact List.contains_iff_mem.mp (List.all_eq_true.mp hall one hone)

/-- The tokens of a tree are read as that tree, with every production that makes nodes of
its label. -/
def Tree.ReadBy (shallow : Prop) (production : Nonterminal → Parser Tree) (tree : Tree) : Prop :=
  ∀ name : Nonterminal, tree.hasLabel name.label = true → ∀ rest, Admits name.follow rest →
    (production name (tree.leaves ++ rest)).Gives shallow tree rest

section Rules

variable {table : PrecedenceTable} {operator : Token → Bool} {shallow : Prop}
  {production : Nonterminal → Parser Tree}

/-- A repetition is read back if its items are, each where it stands. -/
theorem repeatWhile_gives {guard : Terminal} {item : Parser (List Tree)}
    (hproductive : Parser.Productive item) {parts : List (List Tree)} {rest : List Token}
    (hend : guard.acceptsNext rest = false)
    (hitems : ∀ part others, part :: others <:+ parts →
      guard.acceptsNext (leavesAll part ++ (leavesAll others.flatten ++ rest)) = true ∧
        (item (leavesAll part ++ (leavesAll others.flatten ++ rest))).Gives shallow part
          (leavesAll others.flatten ++ rest)) :
    (repeatWhile guard.accepts item (leavesAll parts.flatten ++ rest)).Gives shallow
      parts.flatten rest := by
  induction parts with
  | nil =>
      rw [List.flatten_nil, leavesAll, List.nil_append, repeatWhile_of_not_begins hend]
      exact .done
  | cons part parts ih =>
      obtain ⟨hbegins, hgives⟩ := hitems part parts List.suffix_rfl
      have hmore := ih fun other others hsuffix =>
        hitems other others (hsuffix.trans (List.suffix_cons part parts))
      rw [Terminal.acceptsNext] at hbegins
      rw [List.flatten_cons, leavesAll_append, List.append_assoc, repeatWhile_eq hproductive,
        if_pos hbegins]
      exact hgives.andThen (hmore.map (part ++ ·))

/-- Whatever a rule describes is read back, if the tokens after it may stand there. -/
def Rule.ReadsBack (table : PrecedenceTable) (operator : Token → Bool) (shallow : Prop)
    (production : Nonterminal → Parser Tree) (rule : Rule) : Prop :=
  ∀ after trees rest, rule.predictive after = true → trees ∈ rule.language operator →
    (∀ tree ∈ trees, tree.Opens) → (∀ tree ∈ trees, tree.ReadBy shallow production) →
    Admits after rest →
      (rule.parse table production (leavesAll trees ++ rest)).Gives shallow trees rest

namespace Rule.ReadsBack

theorem token (terminal : Terminal) (expected : Expected) :
    (Rule.token terminal expected).ReadsBack table operator shallow production := by
  rintro after _ rest - ⟨token, haccepts, rfl⟩ - - -
  have hparse : (Rule.token terminal expected).parse table production
      (leavesAll [.leaf token] ++ rest) = .done [.leaf token] rest := by
    simp [Rule.parse, leavesAll, leaves, readToken, haccepts]
  rw [hparse]
  exact .done

theorem call (name : Nonterminal) :
    (Rule.call name).ReadsBack table operator shallow production := by
  rintro after _ rest hpredictive ⟨children, rfl⟩ - hread hrest
  have hfollow := hrest.mono (subset_of_all_contains hpredictive)
  have hgives := hread _ List.mem_cons_self name (by simp [hasLabel]) rest hfollow
  rw [leavesAll, leavesAll, List.append_nil]
  exact hgives.map ([·])

theorem seq {first second : Rule} (hplain : second.isPlain = true)
    (hfirst : first.ReadsBack table operator shallow production)
    (hsecond : second.ReadsBack table operator shallow production) :
    (Rule.seq first second).ReadsBack table operator shallow production := by
  intro after trees rest hpredictive htrees hopens hread hrest
  rw [Rule.predictive, Bool.and_eq_true] at hpredictive
  obtain ⟨parts, hparts, more, hmore, rfl⟩ := Language.mem_mul.mp htrees
  have hopensMore : ∀ tree ∈ more, tree.Opens := fun tree htree =>
    hopens tree (List.mem_append_right parts htree)
  -- what the second part begins with may stand after the first
  have hahead : Admits (second.ahead after) (leavesAll more ++ rest) :=
    (starts_of_mem hplain hmore hopensMore).admits hrest
  have hgives := hfirst _ parts _ hpredictive.1 hparts
    (fun tree htree => hopens tree (List.mem_append_left more htree))
    (fun tree htree => hread tree (List.mem_append_left more htree)) hahead
  have hgivesMore := hsecond _ more _ hpredictive.2 hmore hopensMore
    (fun tree htree => hread tree (List.mem_append_right parts htree)) hrest
  rw [leavesAll_append, List.append_assoc]
  exact hgives.andThen (hgivesMore.map (parts ++ ·))

theorem branch {guard : Terminal} {taken otherwise : Rule} (hplain : taken.isPlain = true)
    (hplain' : otherwise.isPlain = true)
    (htaken : taken.ReadsBack table operator shallow production)
    (hotherwise : otherwise.ReadsBack table operator shallow production) :
    (Rule.branch guard taken otherwise).ReadsBack table operator shallow production := by
  intro after trees rest hpredictive htrees hopens hread hrest
  simp only [Rule.predictive, Bool.and_eq_true] at hpredictive
  obtain ⟨⟨⟨hguard, hapart⟩, hpredictive⟩, hpredictive'⟩ := hpredictive
  rw [Rule.parse]
  -- the next token shows which of the two the trees belong to
  rcases (Language.mem_add _ _ _).mp htrees with htrees | htrees
  · have hahead : Admits (taken.ahead after) (leavesAll trees ++ rest) :=
      (starts_of_mem hplain htrees hopens).admits hrest
    have haccepts : guard.acceptsNext (leavesAll trees ++ rest) = true :=
      Terminal.admits_lookaheads_iff.mp (hahead.mono (subset_of_all_contains hguard))
    rw [if_pos haccepts]
    exact htaken after trees rest hpredictive htrees hopens hread hrest
  · have hahead : Admits (otherwise.ahead after) (leavesAll trees ++ rest) :=
      (starts_of_mem hplain' htrees hopens).admits hrest
    rw [if_neg (by simp [not_acceptsNext_of_apartFrom hapart hahead])]
    exact hotherwise after trees rest hpredictive' htrees hopens hread hrest

theorem many (hproduction : Advancing production) {guard : Terminal} {item : Rule}
    (hplain : item.isPlain = true)
    (hitem : item.ReadsBack table operator shallow production) :
    (Rule.many guard item).ReadsBack table operator shallow production := by
  intro after trees rest hpredictive htrees hopens hread hrest
  simp only [Rule.predictive, Bool.and_eq_true, Bool.not_eq_true'] at hpredictive
  obtain ⟨⟨⟨hempty, hguard⟩, hapart⟩, hpredictive⟩ := hpredictive
  have hproductive : Parser.Productive (item.parse table production) :=
    productive_parse hproduction item hempty
  obtain ⟨parts, rfl, hparts⟩ := Language.mem_kstar.mp htrees
  apply repeatWhile_gives hproductive (not_acceptsNext_of_apartFrom hapart hrest)
  intro part others hsuffix
  have hpart := hparts part (hsuffix.subset List.mem_cons_self)
  have hmem : ∀ tree ∈ part ++ others.flatten, tree ∈ parts.flatten := by
    intro tree htree
    rw [← List.flatten_cons] at htree
    obtain ⟨one, hone, htree⟩ := List.mem_flatten.mp htree
    exact List.mem_flatten.mpr ⟨one, hsuffix.subset hone, htree⟩
  have hopensPart : ∀ tree ∈ part, tree.Opens := fun tree htree =>
    hopens tree (hmem tree (List.mem_append_left _ htree))
  -- after an item comes another item, or what comes after all of them
  have hahead : Admits (item.first ++ after) (leavesAll others.flatten ++ rest) := by
    have hothers : others.flatten ∈ (Rule.many guard item).language operator :=
      Language.join_mem_kstar fun other hother =>
        hparts other (hsuffix.subset (List.mem_cons_of_mem part hother))
    have hstarts := starts_of_mem (show (Rule.many guard item).isPlain = true from hplain)
      hothers fun tree htree => hopens tree (hmem tree (List.mem_append_right part htree))
    exact hstarts.admits hrest
  constructor
  · have hadmits := (starts_of_mem hplain hpart hopensPart).admits hahead
    rw [hempty, if_neg Bool.false_ne_true, List.append_nil] at hadmits
    exact Terminal.admits_lookaheads_iff.mp (hadmits.mono (subset_of_all_contains hguard))
  · exact hitem _ part _ hpredictive hpart hopensPart
      (fun tree htree => hread tree (hmem tree (List.mem_append_left _ htree))) hahead

end Rule.ReadsBack

theorem Rule.readsBack (hproduction : Advancing production) {rule : Rule}
    (hplain : rule.isPlain = true) :
    rule.ReadsBack table operator shallow production := by
  induction rule with
  | empty =>
      intro after trees rest _ htrees _ _ _
      obtain rfl := (Language.mem_one trees).mp htrees
      exact .done
  | token terminal expected => exact .token terminal expected
  | fail expected =>
      intro after trees rest _ htrees _ _ _
      exact absurd htrees (Language.notMem_zero trees)
  | call name => exact .call name
  | operators name => simp [isPlain] at hplain
  | seq first second ihfirst ihsecond =>
      rw [isPlain, Bool.and_eq_true] at hplain
      exact .seq hplain.2 (ihfirst hplain.1) (ihsecond hplain.2)
  | branch guard taken otherwise ihtaken ihotherwise =>
      rw [isPlain, Bool.and_eq_true] at hplain
      exact .branch hplain.1 hplain.2 (ihtaken hplain.1) (ihotherwise hplain.2)
  | many guard item ih => exact .many hproduction hplain (ih hplain)

end Rules

/-! ## Expressions -/

/-- A run is read back if its operands are, each before an operator or the end. -/
theorem readChain_gives {isOperator : Token → Bool} {operand : Parser Tree} {shallow : Prop}
    (hforward : Parser.Forward operand) {follow : List Lookahead}
    (hoperator : ∀ token rest, isOperator token = true → Admits follow (token :: rest))
    {items : List Tree} (hitems : Alternates Tree.IsTerm (isOperator ·) items)
    (hread : ∀ tree ∈ items, tree.IsTerm → ∀ rest, Admits follow rest →
      (operand (tree.leaves ++ rest)).Gives shallow tree rest)
    {rest : List Token} (hrest : Admits follow rest)
    (hend : rest.head?.any isOperator = false) :
    (readChain isOperator operand (leavesAll items ++ rest)).Gives shallow items rest := by
  induction hitems with
  | @last tree htree =>
      have hgives := hread tree List.mem_cons_self htree rest hrest
      rw [leavesAll, leavesAll, List.append_nil]
      generalize hoperand : operand (tree.leaves ++ rest) = outcome at hgives
      cases hgives with
      | done =>
          rw [readChain_of_end hoperand hend]
          exact .done
      | tooDeep hshallow =>
          rw [readChain_of_stopped hoperand]
          exact .tooDeep hshallow
  | @more tree token items htree htoken hitems ih =>
      have hmore := ih fun other hother =>
        hread other (List.mem_cons_of_mem _ (List.mem_cons_of_mem _ hother))
      have hgives := hread tree List.mem_cons_self htree (token :: (leavesAll items ++ rest))
        (hoperator token _ htoken)
      have htokens : leavesAll (tree :: .leaf token :: items) ++ rest =
          tree.leaves ++ token :: (leavesAll items ++ rest) := by
        simp [leavesAll, leaves]
      rw [htokens]
      generalize hoperand : operand (tree.leaves ++ token :: (leavesAll items ++ rest)) = outcome
        at hgives
      cases hgives with
      | done =>
          rw [readChain_of_operator hforward hoperand htoken]
          exact hmore.map (tree :: .leaf token :: ·)
      | tooDeep hshallow =>
          rw [readChain_of_stopped hoperand]
          exact .tooDeep hshallow

/-- With the flat table an expression is read back as it is. -/
theorem parse_expression_gives {shallow : Prop} {stack : CallStack} (hroom : 0 < stack.room)
    {items : List Tree}
    (hitems : items ∈ Nonterminal.expression.production (·.isSymbol binaryOperators))
    (hread : ∀ item ∈ items,
      item.ReadBy shallow (Nonterminal.expression.parseInner .flat stack))
    {rest : List Token} (hrest : Admits Nonterminal.expression.follow rest) :
    (Nonterminal.expression.parse .flat stack (leavesAll items ++ rest)).Gives shallow
      (.node Nonterminal.expression.label items) rest := by
  have hforward := (Nonterminal.advancing_parseInner .flat stack .expression).forward .term
  have hpredictive := predictive_rule .expression
  rw [Nonterminal.rule, Rule.predictive, Bool.and_eq_true] at hpredictive
  have hfollow := subset_of_all_contains hpredictive.1
  have hoperator : ∀ token rest, PrecedenceTable.flat.hasLevel token = true →
      Admits Nonterminal.term.follow (token :: rest) := by
    intro token rest htoken
    rw [PrecedenceTable.hasLevel_flat] at htoken
    have hadmits : Admits (Terminal.symbol binaryOperators).lookaheads (token :: rest) :=
      Terminal.admits_lookaheads_iff.mpr htoken
    exact hadmits.mono (List.Subset.trans (List.subset_append_left _ _) hfollow)
  have hend : rest.head?.any PrecedenceTable.flat.hasLevel = false := by
    rw [PrecedenceTable.hasLevel_flat]
    exact not_acceptsNext_of_apartFrom hpredictive.2 hrest
  have hrun : Alternates Tree.IsTerm (PrecedenceTable.flat.hasLevel ·) items := by
    rw [PrecedenceTable.hasLevel_flat]
    exact mem_production_expression_iff.mp hitems
  -- no operator binds tighter than another, so the run is not grouped
  have hgroup : PrecedenceTable.flat.group items = items :=
    PrecedenceTable.group_eq_self hrun fun first second _ _ =>
      PrecedenceTable.not_looser_flat first second
  have hchain := readChain_gives hforward hoperator hrun
    (fun item hitem hterm => hread item hitem .term hterm)
    (hrest.mono (List.Subset.trans (List.subset_append_right _ _) hfollow)) hend
  rw [parse_expression_eq .flat hroom]
  have hgives := hchain.map fun run =>
    Tree.node Nonterminal.expression.label (PrecedenceTable.flat.group run)
  rwa [hgroup] at hgives

/-! ## Trees -/

/-- The tokens of a well-formed tree are read as that tree, if the call stack is not too
small. -/
theorem Tree.WellFormed.readBy {tree : Tree} (htree : tree.WellFormed (·.isSymbol binaryOperators))
    (stack : CallStack) (most : Nat) :
    tree.ReadBy (stack.AtMostBetween most → stack.room < (most + 1) * tree.height)
      (Nonterminal.parse .flat stack) := by
  induction stack using CallStack.induction generalizing tree with
  | full stack hfull =>
      intro name hlabel rest hrest
      cases tree with
      | leaf token => simp [hasLabel] at hlabel
      | node label children =>
          rw [Nonterminal.parse_of_full hfull]
          refine .tooDeep fun _ => ?_
          rw [hfull]
          exact Nat.mul_pos (Nat.succ_pos most) (Nat.succ_pos _)
  | call stack hroom ih =>
      intro name hlabel rest hrest
      cases tree with
      | leaf token => simp [hasLabel] at hlabel
      | node label children =>
          obtain rfl : label = name.label := of_decide_eq_true hlabel
          have hchildren := htree.mem_production
          have hread : ∀ child ∈ children,
              child.ReadBy (stack.AtMostBetween most →
                  stack.room < (most + 1) * (node name.label children).height)
                (name.parseInner .flat stack) := by
            intro child hchild other hother left hleft
            refine (ih name other (htree.child hchild) other hother left hleft).mono
              fun hshallow hmost => ?_
            have hroom : stack.room - 1 - stack.between name other < (most + 1) * child.height :=
              hshallow hmost
            have hheight := Nat.mul_le_mul_left (most + 1) (height_le_heightAll hchild)
            have hbetween := hmost name other
            rw [height, Nat.mul_succ]
            omega
          have hproduction := Nonterminal.advancing_parseInner .flat stack name
          by_cases hname : name = .expression
          · subst hname
            exact parse_expression_gives hroom hchildren hread hrest
          · have hopens : ∀ child ∈ children, child.Opens := fun child hchild =>
              (htree.child hchild).opens
            rw [← language_rule] at hchildren
            have hrule : name.rule.ReadsBack .flat (·.isSymbol binaryOperators)
                (stack.AtMostBetween most →
                  stack.room < (most + 1) * (node name.label children).height)
                (name.parseInner .flat stack) :=
              Rule.readsBack hproduction (isPlain_rule hname)
            have hgives := hrule name.follow children rest (predictive_rule name) hchildren hopens
              hread hrest
            rw [Nonterminal.parse_eq hroom]
            exact hgives.map (node name.label)

/-- The tokens of a whole program are read as its tree. -/
theorem parseProgram_gives {tree : Tree}
    (hclass : tree.hasLabel Nonterminal.classDec.label = true)
    (htree : tree.WellFormed (·.isSymbol binaryOperators)) (stack : CallStack) (most : Nat) :
    (parseProgram .flat stack tree.tokens).Gives
      (stack.AtMostBetween most → stack.room < (most + 1) * tree.height) tree [] := by
  have hend : Admits Nonterminal.classDec.follow [] := ⟨.atEnd, List.mem_cons_self, rfl⟩
  have hshallow : (stack.extended.AtMostBetween most →
      stack.extended.room < (most + 1) * tree.height) →
        stack.AtMostBetween most → stack.room < (most + 1) * tree.height :=
    fun hextended hmost => Nat.lt_of_succ_lt (hextended hmost)
  have hgives := (htree.readBy stack.extended most .classDec hclass [] hend).mono hshallow
  rw [List.append_nil, ← tokens_eq_leaves] at hgives
  exact hgives.andThen .done

/-- Every well-formed tree with a class at its root is what its tokens are read as, unless
reading goes too deep, which it does not where the call stack has room for the calls of as
many productions as the tree is high.  All tokens are taken.  No other tree of this kind has
the same tokens. -/
theorem read_tokens_of_wellFormed {tree : Tree}
    (hclass : tree.hasLabel Nonterminal.classDec.label = true)
    (htree : tree.WellFormed (·.isSymbol binaryOperators)) :
    (∀ stack, (parseProgram .flat stack tree.tokens).wentTooDeep = false →
      (Cursor.ofTokens tree.tokens).read (parseProgram .flat stack) =
        (.ok tree, (Cursor.ofTokens tree.tokens).moveTo [])) ∧
    (∀ (stack : CallStack) (most : Nat), stack.AtMostBetween most →
      (most + 1) * tree.height ≤ stack.room →
        (parseProgram .flat stack tree.tokens).wentTooDeep = false) ∧
    ∀ other : Tree, other.hasLabel Nonterminal.classDec.label = true →
      other.WellFormed (·.isSymbol binaryOperators) → other.tokens = tree.tokens →
      other = tree := by
  have hgives := parseProgram_gives hclass htree
  refine ⟨?_, ?_, ?_⟩
  · intro stack hdeep
    have hread := (hgives stack 0).eq_done hdeep
    simp only [Cursor.read, Cursor.ofTokens, hread]
  · intro stack most hmost hheight
    exact (hgives stack most).not_wentTooDeep fun hshallow =>
      Nat.not_lt.mpr hheight (hshallow hmost)
  · intro other hotherClass hother htokens
    -- with enough room for both, both are what the tokens are read as
    let stack := CallStack.ofProductions (max other.height tree.height)
    have hmost : stack.AtMostBetween 0 := fun _ _ => Nat.le_refl 0
    have hroom : stack.room = max other.height tree.height := rfl
    have hotherGives := parseProgram_gives hotherClass hother stack 0
    have hread := (hgives stack 0).eq_done
      ((hgives stack 0).not_wentTooDeep fun hshallow => by have := hshallow hmost; omega)
    have hotherRead := hotherGives.eq_done
      (hotherGives.not_wentTooDeep fun hshallow => by have := hshallow hmost; omega)
    rw [htokens, hread] at hotherRead
    exact (Outcome.done.inj hotherRead).1.symm

theorem read_tokens_of_wellFormed_sample :
    ∃ tree : Tree, tree.tokens = sampleProgram ∧ tree.WellFormed (·.isSymbol binaryOperators) ∧
      ∀ (stack : CallStack) (most : Nat), stack.AtMostBetween most →
        (most + 1) * tree.height ≤ stack.room →
          (parseProgram .flat stack sampleProgram).wentTooDeep = false := by
  let stack := PrecedenceTable.flat.callStack 20
  obtain ⟨tree, hread⟩ :
      ∃ tree, Nonterminal.classDec.parse .flat stack sampleProgram = .done tree [] := ⟨_, rfl⟩
  obtain ⟨children, rfl⟩ := Nonterminal.exists_children hread
  have htokens : (node Nonterminal.classDec.label children).tokens = sampleProgram := by
    rw [tokens_eq_leaves]
    simpa using Nonterminal.leaves_parse .flat stack .classDec _ _ _ hread
  have htree := (wellFormed_of_parse_flat hread).2
  have hresult := read_tokens_of_wellFormed (by rfl) htree
  rw [htokens] at hresult
  exact ⟨_, htokens, htree, hresult.2.1⟩

end JackSyntax
