import JackSyntax.Proofs.Operators.Climbing
import Mathlib.Data.List.Forall2

/-!
# Comparing two readings

Two readings may differ in their tables, in their depths, and in the tokens that they
never look at.  `Nonterminal.alike_parse` says that they take the same steps all the same,
and so end in the same way.

* **Tokens.**  The tokens correspond one by one, as far as the first reading goes and one
  token further (`Aligned`).  Nothing is asked of those after it.
* **Tables.**  What a correspondence has to respect is put together in `Likeness`:
  corresponding tokens belong to the same classes of the grammar and are operators of both
  tables or of none, and corresponding runs make corresponding expressions.
* **Depths.**  With different depths one of the readings may go too deep where the other
  does not; the parameter `deep` tells whether this is allowed.
-/

namespace JackSyntax

/-! ## Corresponding tokens -/

/-- Two lists of tokens correspond as far as the ends `rest` and `left`, and in the first
token of these. -/
inductive Aligned (same : Token → Token → Prop) (rest left : List Token) :
    List Token → List Token → Prop
  | here (hhead : Option.Rel same rest.head? left.head?) : Aligned same rest left rest left
  | step {token token' : Token} {tokens tokens' : List Token} (htoken : same token token')
      (hmore : Aligned same rest left tokens tokens') :
      Aligned same rest left (token :: tokens) (token' :: tokens')

namespace Aligned

variable {same : Token → Token → Prop} {rest left tokens tokens' : List Token}

theorem length_le (haligned : Aligned same rest left tokens tokens') :
    rest.length ≤ tokens.length := by
  induction haligned with
  | here hhead => exact Nat.le_refl _
  | step htoken hmore ih => exact Nat.le_succ_of_le ih

theorem head (haligned : Aligned same rest left tokens tokens') :
    Option.Rel same tokens.head? tokens'.head? := by
  cases haligned with
  | here hhead => exact hhead
  | step htoken hmore => exact .some htoken

/-- Where the first list ends, so does the second. -/
theorem eq_left (haligned : Aligned same rest left rest tokens') : tokens' = left := by
  cases haligned with
  | here hhead => rfl
  | step htoken hmore =>
      have hlength := hmore.length_le
      rw [List.length_cons] at hlength
      omega

/-- A correspondence may be split wherever the first list can be. -/
theorem split {middle : List Token} (haligned : Aligned same rest left tokens tokens')
    (hrest : rest <:+ middle) (hmiddle : middle <:+ tokens) :
    ∃ middle', Aligned same rest left middle middle' ∧
      Aligned same middle middle' tokens tokens' := by
  induction haligned with
  | here hhead =>
      obtain rfl := hrest.eq_of_length (Nat.le_antisymm hrest.length_le hmiddle.length_le)
      exact ⟨left, .here hhead, .here hhead⟩
  | step htoken hmore ih =>
      rcases List.suffix_cons_iff.mp hmiddle with rfl | hmiddle
      · exact ⟨_, .step htoken hmore, .here (.some htoken)⟩
      · obtain ⟨middle', hlater, hearlier⟩ := ih hmiddle
        exact ⟨middle', hlater, .step htoken hearlier⟩

theorem append {taken taken' : List Token} (htaken : List.Forall₂ same taken taken')
    (hhead : Option.Rel same rest.head? left.head?) :
    Aligned same rest left (taken ++ rest) (taken' ++ left) := by
  induction htaken with
  | nil => exact .here hhead
  | cons htoken htokens ih => exact .step htoken ih

/-- Tokens that correspond to themselves are aligned with themselves. -/
theorem refl {taken : List Token} (hsame : ∀ token ∈ taken ++ rest.take 1, same token token) :
    Aligned same rest rest (taken ++ rest) (taken ++ rest) := by
  induction taken with
  | nil =>
      apply Aligned.here
      cases rest with
      | nil => exact .none
      | cons token rest => exact .some (hsame token (by simp))
  | cons token taken ih =>
      refine .step (hsame token (by simp)) (ih fun other hother => ?_)
      exact hsame other (List.mem_cons_of_mem token hother)

theorem of_suffix (hrest : rest <:+ tokens) (hsame : ∀ token ∈ tokens, same token token) :
    Aligned same rest rest tokens tokens := by
  obtain ⟨taken, rfl⟩ := hrest
  refine refl fun token htoken => hsame token ?_
  rcases List.mem_append.mp htoken with htaken | hnext
  · exact List.mem_append_left rest htaken
  · exact List.mem_append_right taken (List.mem_of_mem_take hnext)

end Aligned

/-! ## Corresponding outcomes -/

/-- Two outcomes agree: both readings stop at the same obstacle, or both succeed with
related values.  The second leaves the tokens `left`.  If `deep` holds, one of them may
also have gone too deep. -/
inductive Outcome.Agree {α : Type} (deep : Prop) (related : α → α → Prop) (left : List Token) :
    Outcome α → Outcome α → Prop
  | done {value value' : α} {rest : List Token} (hvalue : related value value') :
      Agree deep related left (.done value rest) (.done value' left)
  | stopped {obstacle : Obstacle} {rest : List Token} :
      Agree deep related left (.stopped obstacle rest) (.stopped obstacle left)
  | deepFirst {rest : List Token} {outcome : Outcome α} (hdeep : deep) :
      Agree deep related left (.stopped .tooDeep rest) outcome
  | deepSecond {rest : List Token} {outcome : Outcome α} (hdeep : deep) :
      Agree deep related left outcome (.stopped .tooDeep rest)

theorem Outcome.Agree.map {α β : Type} {deep : Prop} {related : α → α → Prop}
    {narrower : β → β → Prop} {left : List Token} {outcome outcome' : Outcome α} {f g : α → β}
    (hagree : outcome.Agree deep related left outcome')
    (hvalue : ∀ value value', related value value' → narrower (f value) (g value')) :
    (outcome.map f).Agree deep narrower left (outcome'.map g) := by
  cases hagree with
  | done hrelated => exact .done (hvalue _ _ hrelated)
  | stopped => exact .stopped
  | deepFirst hdeep => exact .deepFirst hdeep
  | deepSecond hdeep => exact .deepSecond hdeep

/-- Two readers agree from some tokens on: whenever other tokens correspond to these as
far as the first reader goes, the outcomes agree. -/
def Parser.AlikeAt {α : Type} (same : Token → Token → Prop) (deep : Prop)
    (related : α → α → Prop) (first second : Parser α) (tokens : List Token) : Prop :=
  ∀ tokens' left, Aligned same (first tokens).rest left tokens tokens' →
    (first tokens).Agree deep related left (second tokens')

/-- Two readers agree from everywhere on. -/
def Parser.Alike {α : Type} (same : Token → Token → Prop) (deep : Prop)
    (related : α → α → Prop) (first second : Parser α) : Prop :=
  ∀ tokens, AlikeAt same deep related first second tokens

section Combinators

variable {α β : Type} {same : Token → Token → Prop} {deep : Prop} {related : α → α → Prop}

theorem Parser.Alike.map {first second : Parser α} {narrower : β → β → Prop} {f g : α → β}
    (halike : Parser.Alike same deep related first second)
    (hvalue : ∀ value value', related value value' → narrower (f value) (g value')) :
    Parser.Alike same deep narrower (fun tokens => (first tokens).map f)
      fun tokens => (second tokens).map g := by
  intro tokens tokens' left haligned
  rw [Outcome.rest_map] at haligned
  exact (halike tokens tokens' left haligned).map hvalue

theorem Parser.AlikeAt.andThen {first second : Parser α} {next next' : α → Parser β}
    {narrower : β → β → Prop} {tokens : List Token} (hfirst : Parser.Forward first)
    (hnext : ∀ value, Parser.Forward (next value))
    (halike : Parser.AlikeAt same deep related first second tokens)
    (hmore : ∀ value middle, first tokens = .done value middle → ∀ value',
      related value value' → Parser.AlikeAt same deep narrower (next value) (next' value') middle) :
    Parser.AlikeAt same deep narrower (fun tokens => (first tokens).andThen next)
      (fun tokens => (second tokens).andThen next') tokens := by
  intro tokens' left haligned
  simp only at haligned ⊢
  cases hread : first tokens with
  | stopped obstacle rest =>
      rw [hread, Outcome.andThen_stopped] at haligned
      have hagree := halike tokens' left (by rwa [hread])
      rw [hread] at hagree
      generalize second tokens' = outcome at hagree
      cases hagree with
      | stopped => exact .stopped
      | deepFirst hdeep => exact .deepFirst hdeep
      | deepSecond hdeep => exact .deepSecond hdeep
  | done value middle =>
      rw [hread, Outcome.andThen_done] at haligned
      -- the place between the two parts has its counterpart in the other tokens
      obtain ⟨middle', hlater, hearlier⟩ :=
        haligned.split (hnext value middle) (hfirst.rest_suffix hread)
      have hagree := halike tokens' middle' (by rwa [hread])
      rw [hread] at hagree
      generalize second tokens' = outcome at hagree
      cases hagree with
      | done hvalue => exact hmore value middle hread _ hvalue middle' left hlater
      | deepSecond hdeep => exact .deepSecond hdeep

theorem Parser.Alike.andThen {first second : Parser α} {next next' : α → Parser β}
    {narrower : β → β → Prop} (hfirst : Parser.Forward first)
    (hnext : ∀ value, Parser.Forward (next value))
    (halike : Parser.Alike same deep related first second)
    (hmore : ∀ value value', related value value' →
      Parser.Alike same deep narrower (next value) (next' value')) :
    Parser.Alike same deep narrower (fun tokens => (first tokens).andThen next)
      fun tokens => (second tokens).andThen next' :=
  fun tokens => .andThen hfirst hnext (halike tokens) fun value middle _ value' hvalue =>
    hmore value value' hvalue middle

end Combinators

/-- The next tokens correspond, so a test that respects the correspondence has the same
answer for both. -/
theorem any_head?_eq {same : Token → Token → Prop} {test test' : Token → Bool}
    {tokens tokens' : List Token} (hhead : Option.Rel same tokens.head? tokens'.head?)
    (htest : ∀ token token', same token token' → test token = test' token') :
    tokens.head?.any test = tokens'.head?.any test' := by
  generalize tokens.head? = next at hhead
  generalize tokens'.head? = next' at hhead
  cases hhead with
  | some htoken => exact htest _ _ htoken
  | none => rfl

/-! ## Reading tokens and repetition -/

section Steps

variable {same : Token → Token → Prop} {deep : Prop}

theorem alike_readToken {terminal : Terminal}
    (haccepts : ∀ token token', same token token' →
      terminal.accepts token = terminal.accepts token') (expected : Expected) :
    Parser.Alike same deep same (readToken terminal expected) (readToken terminal expected) := by
  intro tokens tokens' left haligned
  cases tokens with
  | nil =>
      obtain rfl := haligned.eq_left
      have hhead := haligned.head
      cases tokens' with
      | nil => exact .stopped
      | cons token' tokens' => cases hhead
  | cons token tokens =>
      cases haccept : terminal.accepts token with
      | true =>
          simp only [readToken, haccept, if_true] at haligned ⊢
          cases haligned with
          | step htoken hmore =>
              obtain rfl := hmore.eq_left
              rw [haccepts _ _ htoken] at haccept
              simp only [haccept, if_true]
              exact .done htoken
      | false =>
          simp only [readToken, haccept, Bool.false_eq_true, if_false] at haligned ⊢
          obtain rfl := haligned.eq_left
          have hhead := haligned.head
          cases tokens' with
          | nil => cases hhead
          | cons token' tokens' =>
              cases hhead with
              | some htoken =>
                  rw [haccepts _ _ htoken] at haccept
                  simp only [haccept, Bool.false_eq_true, if_false]
                  exact .stopped

theorem alike_repeatWhile {related : List Tree → List Tree → Prop} (hnil : related [] [])
    (happend : ∀ first first' second second', related first first' → related second second' →
      related (first ++ second) (first' ++ second'))
    {begins begins' : Token → Bool} {item item' : Parser (List Tree)}
    (hbegins : ∀ token token', same token token' → begins token = begins' token')
    (hforward : Parser.Forward item) (hproductive : Parser.Productive item)
    (hproductive' : Parser.Productive item') (hitem : Parser.Alike same deep related item item') :
    Parser.Alike same deep related (repeatWhile begins item) (repeatWhile begins' item') := by
  intro tokens
  induction hlength : tokens.length using Nat.strongRecOn generalizing tokens with
  | ind length ih =>
      subst hlength
      intro tokens' left haligned
      -- the same test decides on both sides, and an item leaves fewer tokens
      have hany := any_head?_eq haligned.head hbegins
      rw [repeatWhile_eq hproductive] at haligned ⊢
      rw [repeatWhile_eq hproductive', ← hany]
      cases hbegin : tokens.head?.any begins with
      | false =>
          simp only [hbegin, Bool.false_eq_true, if_false] at haligned ⊢
          obtain rfl := haligned.eq_left
          exact .done hnil
      | true =>
          simp only [hbegin, if_true] at haligned ⊢
          refine Parser.AlikeAt.andThen hforward (fun trees => (forward_repeatWhile hforward).map _)
            (hitem tokens) ?_ tokens' left haligned
          intro trees middle hread trees' htrees middle' left hmiddle
          have hshorter : middle.length < tokens.length := by
            cases tokens with
            | nil => simp at hbegin
            | cons token tokens => exact Nat.lt_succ_of_le (hproductive _ _ _ _ hread)
          rw [Outcome.rest_map] at hmiddle
          refine (ih _ hshorter middle rfl middle' left hmiddle).map fun more more' hmore => ?_
          exact happend trees trees' more more' htrees hmore

end Steps

/-! ## What corresponds -/

/-- The classes of tokens that a rule looks for. -/
def Rule.terminals : Rule → List Terminal
  | empty | fail _ | call _ | operators _ => []
  | token terminal _ => [terminal]
  | seq first second => first.terminals ++ second.terminals
  | branch guard taken otherwise => guard :: (taken.terminals ++ otherwise.terminals)
  | many guard item => guard :: item.terminals

/-- A correspondence of tokens and of trees between readings with two tables. -/
structure Likeness (table table' : PrecedenceTable) where
  token : Token → Token → Prop
  trees : List Tree → List Tree → Prop
  accepts : ∀ (name : Nonterminal), ∀ terminal ∈ name.rule.terminals, ∀ one one',
    token one one' → terminal.accepts one = terminal.accepts one'
  hasLevel : ∀ one one', token one one' → table.hasLevel one = table'.hasLevel one'
  nil : trees [] []
  leaf : ∀ one one', token one one' → trees [.leaf one] [.leaf one']
  append : ∀ first first' second second', trees first first' → trees second second' →
    trees (first ++ second) (first' ++ second')
  node : ∀ (name : Nonterminal) children children', trees children children' →
    trees [.node name.label children] [.node name.label children']
  expression : ∀ items items', trees items items' →
    trees [.node Nonterminal.expression.label (table.group items)]
      [.node Nonterminal.expression.label (table'.group items')]

/-- The same token, and an operator of both tables or of none. -/
def PrecedenceTable.SameToken (table table' : PrecedenceTable) (one one' : Token) : Prop :=
  one = one' ∧ table.hasLevel one = table'.hasLevel one

theorem accepts_eq_of_sameToken (table table' : PrecedenceTable) :
    ∀ (name : Nonterminal), ∀ terminal ∈ name.rule.terminals, ∀ one one',
      table.SameToken table' one one' → terminal.accepts one = terminal.accepts one' := by
  rintro name terminal - one _ ⟨rfl, -⟩
  rfl

theorem hasLevel_eq_of_sameToken (table table' : PrecedenceTable) :
    ∀ one one', table.SameToken table' one one' → table.hasLevel one = table'.hasLevel one' := by
  rintro one _ ⟨rfl, hlevel⟩
  exact hlevel

section Grammar

variable {table table' : PrecedenceTable} {deep : Prop} (like : Likeness table table')

/-- Two readers of trees agree. -/
def Likeness.Alike (deep : Prop) (first second : Parser Tree) : Prop :=
  Parser.Alike like.token deep (fun tree tree' => like.trees [tree] [tree']) first second

theorem alike_readLink {operand operand' : Parser Tree} (hforward : Parser.Forward operand)
    (hoperand : like.Alike deep operand operand') :
    Parser.Alike like.token deep like.trees (readLink operand) (readLink operand') := by
  intro tokens tokens' left haligned
  cases tokens with
  | nil =>
      obtain rfl := haligned.eq_left
      have hhead := haligned.head
      cases tokens' with
      | nil => exact .done like.nil
      | cons token' tokens' => cases hhead
  | cons token tokens =>
      rw [readLink_cons, Outcome.rest_map] at haligned
      rw [readLink_cons]
      obtain ⟨after, hafter, htoken⟩ :=
        haligned.split (hforward tokens) (List.suffix_cons token tokens)
      cases htoken with
      | step htoken hmore =>
          obtain rfl := hmore.eq_left
          rw [readLink_cons]
          refine (hoperand tokens _ left hafter).map fun tree tree' htree => ?_
          exact like.append [.leaf token] [.leaf _] [tree] [tree'] (like.leaf _ _ htoken) htree

theorem alike_readChain {operand operand' : Parser Tree} (hforward : Parser.Forward operand)
    (hforward' : Parser.Forward operand') (hoperand : like.Alike deep operand operand') :
    Parser.Alike like.token deep like.trees (readChain table.hasLevel operand)
      (readChain table'.hasLevel operand') := by
  refine Parser.Alike.andThen hforward
    (fun first => (forward_repeatWhile (forward_readLink hforward)).map (first :: ·)) hoperand ?_
  intro first first' hfirst
  have hlinks := alike_repeatWhile like.nil like.append like.hasLevel (forward_readLink hforward)
    (productive_readLink hforward) (productive_readLink hforward')
    (alike_readLink like hforward hoperand)
  exact hlinks.map fun more more' hmore => like.append [first] [first'] more more' hfirst hmore

variable {production production' : Nonterminal → Parser Tree}

theorem Rule.alike_parse (hforward : Advancing production) (hforward' : Advancing production')
    (hproduction : ∀ name, like.Alike deep (production name) (production' name)) {rule : Rule}
    (haccepts : ∀ terminal ∈ rule.terminals, ∀ one one', like.token one one' →
      terminal.accepts one = terminal.accepts one')
    (hplain : rule.isPlain = true) (hiterable : rule.iterable = true) :
    Parser.Alike like.token deep like.trees (rule.parse table production)
      (rule.parse table' production') := by
  induction rule with
  | empty =>
      intro tokens tokens' left haligned
      obtain rfl := haligned.eq_left
      exact .done like.nil
  | token terminal expected =>
      exact (alike_readToken (haccepts terminal List.mem_cons_self) expected).map like.leaf
  | fail expected =>
      intro tokens tokens' left haligned
      obtain rfl := haligned.eq_left
      exact .stopped
  | call name => exact (hproduction name).map fun tree tree' htree => htree
  | operators name => simp [isPlain] at hplain
  | seq first second ihfirst ihsecond =>
      rw [isPlain, Bool.and_eq_true] at hplain
      rw [iterable, Bool.and_eq_true] at hiterable
      obtain ⟨hfirst, hsecond⟩ := List.forall_mem_append.mp haccepts
      refine Parser.Alike.andThen (forward_parse hforward first)
        (fun trees => (forward_parse hforward second).map (trees ++ ·))
        (ihfirst hfirst hplain.1 hiterable.1) fun trees trees' htrees => ?_
      exact (ihsecond hsecond hplain.2 hiterable.2).map fun more more' hmore =>
        like.append trees trees' more more' htrees hmore
  | branch guard taken otherwise ihtaken ihotherwise =>
      rw [isPlain, Bool.and_eq_true] at hplain
      rw [iterable, Bool.and_eq_true] at hiterable
      obtain ⟨hguard, hparts⟩ := List.forall_mem_cons.mp haccepts
      obtain ⟨htaken, hotherwise⟩ := List.forall_mem_append.mp hparts
      intro tokens tokens' left haligned
      have hnext : guard.acceptsNext tokens = guard.acceptsNext tokens' :=
        any_head?_eq haligned.head hguard
      simp only [Rule.parse] at haligned ⊢
      rw [← hnext]
      cases haccept : guard.acceptsNext tokens with
      | true =>
          simp only [haccept, if_true] at haligned ⊢
          exact ihtaken htaken hplain.1 hiterable.1 tokens tokens' left haligned
      | false =>
          simp only [haccept, Bool.false_eq_true, if_false] at haligned ⊢
          exact ihotherwise hotherwise hplain.2 hiterable.2 tokens tokens' left haligned
  | many guard item ih =>
      obtain ⟨hguard, hitem⟩ := List.forall_mem_cons.mp haccepts
      rw [iterable, Bool.and_eq_true, Bool.not_eq_true'] at hiterable
      exact alike_repeatWhile like.nil like.append hguard (forward_parse hforward item)
        (productive_parse hforward item hiterable.1) (productive_parse hforward' item hiterable.1)
        (ih hitem hplain hiterable.2)

/-- Two readings of a production agree, if their call stacks are the same or going too deep
is left out of account. -/
theorem Nonterminal.alike_parse {stack stack' : CallStack} (hstack : stack = stack' ∨ deep)
    (name : Nonterminal) :
    like.Alike deep (name.parse table stack) (name.parse table' stack') := by
  induction stack using CallStack.induction generalizing stack' name with
  | full stack hfull =>
      intro tokens tokens' left haligned
      rw [parse_of_full hfull] at haligned ⊢
      rcases hstack with rfl | hdeep
      · obtain rfl := haligned.eq_left
        rw [parse_of_full hfull]
        exact .stopped
      · exact .deepFirst hdeep
  | call stack hroom ih =>
      rcases Nat.eq_zero_or_pos stack'.room with hfull | hroom'
      · intro tokens tokens' left haligned
        rw [parse_of_full hfull]
        refine .deepSecond (hstack.resolve_left ?_)
        rintro rfl
        omega
      · have hproduction : ∀ callee, like.Alike deep (name.parseInner table stack callee)
            (name.parseInner table' stack' callee) := fun callee =>
          ih name callee (hstack.imp_left (congrArg (CallStack.within · name callee))) callee
        have hforward := Nonterminal.advancing_parseInner table stack name
        have hforward' := Nonterminal.advancing_parseInner table' stack' name
        by_cases hname : name = .expression
        · subst hname
          intro tokens tokens' left haligned
          -- level by level the readings differ, run by run they do not
          rw [parse_expression_eq table hroom] at haligned ⊢
          rw [parse_expression_eq table' hroom']
          have hchain := alike_readChain like (hforward.forward .term) (hforward'.forward .term)
            (hproduction .term)
          rw [Outcome.rest_map] at haligned
          exact (hchain tokens tokens' left haligned).map like.expression
        · rw [funext (parse_eq hroom table name), funext (parse_eq hroom' table' name)]
          exact (Rule.alike_parse like hforward hforward' hproduction (like.accepts name)
            (isPlain_rule hname) (iterable_rule name)).map fun children children' =>
              like.node name children children'

/-- Two readings of a program agree. -/
theorem alike_parseProgram {stack stack' : CallStack} (hstack : stack = stack' ∨ deep) :
    like.Alike deep (parseProgram table stack) (parseProgram table' stack') := by
  have hextended := hstack.imp_left (congrArg CallStack.extended)
  refine Parser.Alike.andThen ((Nonterminal.advancing_parse table _).forward .classDec)
    forward_requireEnd (Nonterminal.alike_parse like hextended .classDec) ?_
  intro tree tree' htree tokens tokens' left haligned
  have hleft : tokens' = left := by
    cases tokens <;> exact haligned.eq_left
  have hhead := haligned.head
  subst hleft
  cases tokens with
  | nil =>
      cases tokens' with
      | nil => exact .done htree
      | cons token' tokens' => cases hhead
  | cons token tokens =>
      cases tokens' with
      | nil => cases hhead
      | cons token' tokens' => exact .stopped

end Grammar

end JackSyntax
