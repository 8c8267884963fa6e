import JackSyntax.Proofs.Grammar.Completeness
import Mathlib

/-!
# Sentences of the grammar

The tokens of well-formed trees are the sentences of the grammar
(`Nonterminal.sentences`, `Rule.sentences`), and every sentence of a class is accepted
(`accepted_of_mem_sentences`).

No part of the grammar is idle:

* every production has a sentence (`Nonterminal.exists_sentence`), so what has been begun
  can be finished;
* every token that the table of first tokens admits begins a sentence
  (`goesOn_of_mem_first`), so the table is exact.

Both hold because productions call each other in finitely many steps.  They are computed
in rounds: a round looks at the rule of each production and uses what the rounds before
it have found (`Nonterminal.fillableWithin`, `Nonterminal.openingsWithin`).
-/

namespace JackSyntax

open Computability JackSyntax.Tree

/-! ## The tokens of trees -/

/-- The tokens of the well-formed trees in a language of trees. -/
def tokensOf (form : Language Tree) : Language Token :=
  {tokens | ∃ trees ∈ form, (∀ tree ∈ trees, tree.WellFormed (·.isSymbol binaryOperators)) ∧
    leavesAll trees = tokens}

/-- The sentences of a production: the tokens of its nodes. -/
def Nonterminal.sentences (name : Nonterminal) : Language Token :=
  tokensOf (Form.node name)

/-- The sentences of a rule: the tokens of the trees that it describes. -/
def Rule.sentences (rule : Rule) : Language Token :=
  tokensOf (rule.language (·.isSymbol binaryOperators))

theorem tokensOf_mono {form wider : Language Tree} (hform : form ≤ wider) :
    tokensOf form ≤ tokensOf wider := by
  rintro tokens ⟨trees, htrees, hwell, rfl⟩
  exact ⟨trees, hform htrees, hwell, rfl⟩

theorem nil_mem_tokensOf {form : Language Tree} (hform : [] ∈ form) : [] ∈ tokensOf form :=
  ⟨[], hform, by simp, rfl⟩

theorem mul_tokensOf_le (first second : Language Tree) :
    tokensOf first * tokensOf second ≤ tokensOf (first * second) := by
  intro tokens htokens
  obtain ⟨_, ⟨trees, htrees, hwell, rfl⟩, _, ⟨more, hmore, hwell', rfl⟩, rfl⟩ :=
    Language.mem_mul.mp htokens
  refine ⟨trees ++ more, Language.append_mem_mul htrees hmore, fun tree htree => ?_,
    leavesAll_append trees more⟩
  exact (List.mem_append.mp htree).elim (hwell tree) (hwell' tree)

theorem kstar_tokensOf_le (form : Language Tree) : (tokensOf form)∗ ≤ tokensOf form∗ := by
  refine kstar_le_of_mul_le_left ?_ ((mul_tokensOf_le form∗ form).trans ?_)
  · rintro tokens htokens
    obtain rfl := (Language.mem_one tokens).mp htokens
    exact nil_mem_tokensOf (Language.nil_mem_kstar form)
  · exact tokensOf_mono kstar_mul_le_kstar

theorem singleton_mem_tokensOf {allowed : Token → Bool} {token : Token}
    (hallowed : allowed token = true) : [token] ∈ tokensOf (Form.token allowed) :=
  ⟨[.leaf token], ⟨token, hallowed, rfl⟩, by simp [Tree.WellFormed, preorder], rfl⟩

theorem Tree.WellFormed.of_children {operator : Token → Bool} {name : Nonterminal}
    {children : List Tree} (hchildren : children ∈ name.production operator)
    (hwell : ∀ child ∈ children, child.WellFormed operator) :
    (Tree.node name.label children).WellFormed operator := by
  intro label parts hpart
  rcases List.mem_cons.mp hpart with heq | hpart
  · cases heq
    exact ⟨name, rfl, hchildren⟩
  · obtain ⟨child, hchild, hpart⟩ := mem_preorderAll.mp hpart
    exact hwell child hchild label parts hpart

theorem Nonterminal.sentences_le_operators (name : Nonterminal) :
    name.sentences ≤ (Rule.operators name).sentences :=
  tokensOf_mono (le_mul_of_one_le_right' one_le_kstar)

/-- The node of a production holds the trees that its rule describes. -/
theorem Nonterminal.rule_sentences_le (name : Nonterminal) :
    name.rule.sentences ≤ name.sentences := by
  rintro _ ⟨children, hchildren, hwell, rfl⟩
  rw [language_rule] at hchildren
  refine ⟨[.node name.label children], ⟨children, rfl⟩, ?_, by simp [leavesAll, leaves]⟩
  simpa using Tree.WellFormed.of_children hchildren hwell

/-! ## Acceptance -/

/-- Whether some tokens are read as a program, if there is enough room for the calls. -/
def Accepted (table : PrecedenceTable) (tokens : List Token) : Prop :=
  ∃ stack tree rest, parseProgram table stack tokens = .done tree rest

/-- With the flat table, every sentence of a class is accepted. -/
theorem accepted_of_mem_sentences {tokens : List Token}
    (htokens : tokens ∈ Nonterminal.classDec.sentences) : Accepted .flat tokens := by
  obtain ⟨_, ⟨children, rfl⟩, hwell, rfl⟩ := htokens
  have htree := hwell _ List.mem_cons_self
  -- there is room for as many productions as the tree is high, with no calls between them
  have hgives := parseProgram_gives (by simp [hasLabel]) htree
    (.ofProductions (Tree.node Nonterminal.classDec.label children).height) 0
  have hroom : ¬ (.ofProductions (Tree.node Nonterminal.classDec.label children).height :
      CallStack).room < (0 + 1) * (Tree.node Nonterminal.classDec.label children).height := by
    simp [CallStack.ofProductions]
  have hread := hgives.eq_done (hgives.not_wentTooDeep fun hshallow =>
    hroom (hshallow fun _ _ => Nat.le_refl 0))
  rw [tokens_eq_leaves] at hread
  exact ⟨_, _, [], by simpa [leavesAll] using hread⟩

/-! ## Every production has a sentence -/

theorem Lookahead.exists_token {ahead : Lookahead} (hahead : ahead ≠ .atEnd) :
    ∃ token, ahead.admits [token] = true := by
  cases ahead with
  | atEnd => exact absurd rfl hahead
  | ofKind kind => exact ⟨⟨kind, .integer 0, 0, 0⟩, by simp [admits]⟩
  | text kind content =>
      refine ⟨⟨kind, .text content, 0, 0⟩, ?_⟩
      simp [admits, Token.isOneOf]

theorem Terminal.accepts_of_admits {terminal : Terminal} {ahead : Lookahead}
    (hahead : ahead ∈ terminal.lookaheads) {token : Token}
    (htoken : ahead.admits [token] = true) : terminal.accepts token = true := by
  have haccepts : terminal.acceptsNext [token] = true :=
    admits_lookaheads_iff.mp ⟨ahead, hahead, htoken⟩
  simpa using haccepts

/-- Whether a rule has a sentence, as far as this is known of the productions. -/
def Rule.fillable (known : Nonterminal → Bool) : Rule → Bool
  | empty | many _ _ => true
  | token terminal _ => terminal.lookaheads.any fun ahead => ahead ≠ .atEnd
  | fail _ => false
  | call name | operators name => known name
  | seq first second => first.fillable known && second.fillable known
  | branch _ taken otherwise => taken.fillable known || otherwise.fillable known

/-- Whether a production has a sentence, found in some rounds. -/
def Nonterminal.fillableWithin : Nat → Nonterminal → Bool
  | 0, _ => false
  | rounds + 1, name => name.rule.fillable (fillableWithin rounds)

theorem Rule.exists_sentence {known : Nonterminal → Bool}
    (hknown : ∀ name, known name = true → ∃ tokens, tokens ∈ name.sentences) {rule : Rule}
    (hrule : rule.fillable known = true) : ∃ tokens, tokens ∈ rule.sentences := by
  induction rule with
  | empty => exact ⟨[], nil_mem_tokensOf Language.nil_mem_one⟩
  | token terminal expected =>
      obtain ⟨ahead, hahead, hne⟩ := List.any_eq_true.mp hrule
      obtain ⟨token, htoken⟩ := Lookahead.exists_token (of_decide_eq_true hne)
      exact ⟨[token], singleton_mem_tokensOf (Terminal.accepts_of_admits hahead htoken)⟩
  | fail expected => exact absurd hrule Bool.false_ne_true
  | call name => exact hknown name hrule
  | operators name =>
      obtain ⟨tokens, htokens⟩ := hknown name hrule
      exact ⟨tokens, name.sentences_le_operators htokens⟩
  | seq first second ihfirst ihsecond =>
      rw [fillable, Bool.and_eq_true] at hrule
      obtain ⟨before, hbefore⟩ := ihfirst hrule.1
      obtain ⟨after, hafter⟩ := ihsecond hrule.2
      exact ⟨before ++ after, mul_tokensOf_le _ _ (Language.append_mem_mul hbefore hafter)⟩
  | branch guard taken otherwise ihtaken ihotherwise =>
      rcases Bool.or_eq_true_iff.mp hrule with htaken | hotherwise
      · obtain ⟨tokens, htokens⟩ := ihtaken htaken
        exact ⟨tokens, tokensOf_mono le_self_add htokens⟩
      · obtain ⟨tokens, htokens⟩ := ihotherwise hotherwise
        exact ⟨tokens, tokensOf_mono le_add_self htokens⟩
  | many guard item ih => exact ⟨[], nil_mem_tokensOf (Language.nil_mem_kstar _)⟩

theorem Nonterminal.fillableWithin_three (name : Nonterminal) :
    name.fillableWithin 3 = true := by
  cases name <;> decide

theorem Nonterminal.exists_sentence (name : Nonterminal) : ∃ tokens, tokens ∈ name.sentences := by
  have hrounds : ∀ rounds name, fillableWithin rounds name = true →
      ∃ tokens, tokens ∈ name.sentences := by
    intro rounds
    induction rounds with
    | zero => exact fun name hname => absurd hname Bool.false_ne_true
    | succ rounds ih =>
        intro name hname
        obtain ⟨tokens, htokens⟩ := Rule.exists_sentence ih hname
        exact ⟨tokens, name.rule_sentences_le htokens⟩
  exact hrounds 3 name name.fillableWithin_three

/-- Whether a rule has a sentence. -/
def Rule.isFillable (rule : Rule) : Bool :=
  rule.fillable fun _ => true

theorem Rule.exists_sentence_of_isFillable {rule : Rule} (hrule : rule.isFillable = true) :
    ∃ tokens, tokens ∈ rule.sentences :=
  exists_sentence (fun name _ => name.exists_sentence) hrule

/-! ## Every first token begins a sentence -/

theorem Nonterminal.nil_mem_sentences {name : Nonterminal} (hname : name.mayBeEmpty = true) :
    [] ∈ name.sentences := by
  apply name.rule_sentences_le
  cases name
  case statements => exact nil_mem_tokensOf (Language.nil_mem_kstar _)
  case parameterList | expressionList =>
    exact nil_mem_tokensOf ((Language.mem_add _ _ _).mpr (Or.inl Language.nil_mem_one))
  all_goals exact absurd hname Bool.false_ne_true

theorem Rule.nil_mem_sentences {rule : Rule} (hrule : rule.mayBeEmpty = true) :
    [] ∈ rule.sentences := by
  induction rule with
  | empty => exact nil_mem_tokensOf Language.nil_mem_one
  | token terminal expected => exact absurd hrule Bool.false_ne_true
  | fail expected => exact absurd hrule Bool.false_ne_true
  | call name => exact Nonterminal.nil_mem_sentences hrule
  | operators name => exact name.sentences_le_operators (Nonterminal.nil_mem_sentences hrule)
  | seq first second ihfirst ihsecond =>
      rw [mayBeEmpty, Bool.and_eq_true] at hrule
      exact mul_tokensOf_le _ _
        (Language.append_mem_mul (ihfirst hrule.1) (ihsecond hrule.2))
  | branch guard taken otherwise ihtaken ihotherwise =>
      rcases Bool.or_eq_true_iff.mp hrule with htaken | hotherwise
      · exact tokensOf_mono le_self_add (ihtaken htaken)
      · exact tokensOf_mono le_add_self (ihotherwise hotherwise)
  | many guard item ih => exact nil_mem_tokensOf (Language.nil_mem_kstar _)

/-- After some tokens, every token that a condition admits goes on towards a word of a
language. -/
def GoesOn (language : Language Token) (taken : List Token) (ahead : Lookahead) : Prop :=
  ∀ token, ahead.admits [token] = true → ∃ more, taken ++ token :: more ∈ language

namespace GoesOn

variable {language other : Language Token} {taken : List Token} {ahead : Lookahead}

theorem mono (hahead : GoesOn language taken ahead) (hle : language ≤ other) :
    GoesOn other taken ahead := by
  intro token htoken
  obtain ⟨more, hmore⟩ := hahead token htoken
  exact ⟨more, hle hmore⟩

theorem mul_right (hahead : GoesOn language taken ahead) (hother : ∃ tokens, tokens ∈ other) :
    GoesOn (language * other) taken ahead := by
  intro token htoken
  obtain ⟨more, hmore⟩ := hahead token htoken
  obtain ⟨tokens, htokens⟩ := hother
  refine ⟨more ++ tokens, ?_⟩
  simpa using Language.append_mem_mul hmore htokens

theorem mul_left {before : List Token} (hbefore : before ∈ other)
    (hahead : GoesOn language taken ahead) : GoesOn (other * language) (before ++ taken) ahead := by
  intro token htoken
  obtain ⟨more, hmore⟩ := hahead token htoken
  refine ⟨more, ?_⟩
  simpa using Language.append_mem_mul hbefore hmore

end GoesOn

/-- Conditions under which a token begins a sentence of a rule, given such conditions for
the productions. -/
def Rule.openings (known : Nonterminal → List Lookahead) : Rule → List Lookahead
  | empty | fail _ => []
  | token terminal _ => terminal.lookaheads
  | call name | operators name => known name
  | seq first second =>
      (if second.isFillable then first.openings known else []) ++
        if first.mayBeEmpty then second.openings known else []
  | branch _ taken otherwise => taken.openings known ++ otherwise.openings known
  | many _ item => item.openings known

/-- Conditions under which a token begins a sentence of a production, found in some
rounds. -/
def Nonterminal.openingsWithin : Nat → Nonterminal → List Lookahead
  | 0, _ => []
  | rounds + 1, name => name.rule.openings (openingsWithin rounds)

theorem Rule.goesOn_of_mem_openings {known : Nonterminal → List Lookahead}
    (hknown : ∀ name, ∀ ahead ∈ known name, GoesOn name.sentences [] ahead) {rule : Rule}
    {ahead : Lookahead} (hahead : ahead ∈ rule.openings known) :
    GoesOn rule.sentences [] ahead := by
  induction rule with
  | empty => simp [openings] at hahead
  | token terminal expected =>
      intro token htoken
      exact ⟨[], singleton_mem_tokensOf (Terminal.accepts_of_admits hahead htoken)⟩
  | fail expected => simp [openings] at hahead
  | call name => exact hknown name ahead hahead
  | operators name => exact (hknown name ahead hahead).mono name.sentences_le_operators
  | seq first second ihfirst ihsecond =>
      rcases List.mem_append.mp hahead with hfirst | hsecond
      · split at hfirst
        · next hfillable =>
            exact ((ihfirst hfirst).mul_right
              (exists_sentence_of_isFillable hfillable)).mono (mul_tokensOf_le _ _)
        · simp at hfirst
      · split at hsecond
        · next hempty =>
            exact (GoesOn.mul_left (nil_mem_sentences hempty) (ihsecond hsecond)).mono
              (mul_tokensOf_le _ _)
        · simp at hsecond
  | branch guard taken otherwise ihtaken ihotherwise =>
      rcases List.mem_append.mp hahead with htaken | hotherwise
      · exact (ihtaken htaken).mono (tokensOf_mono le_self_add)
      · exact (ihotherwise hotherwise).mono (tokensOf_mono le_add_self)
  | many guard item ih => exact (ih hahead).mono (tokensOf_mono le_kstar)

theorem Nonterminal.first_subset_openingsWithin (name : Nonterminal) :
    name.first.lookaheads ⊆ name.openingsWithin 3 := by
  cases name <;> decide

/-- The table of first tokens holds nothing that could not begin a sentence. -/
theorem Nonterminal.goesOn_of_mem_first {name : Nonterminal} {ahead : Lookahead}
    (hahead : ahead ∈ name.first.lookaheads) : GoesOn name.sentences [] ahead := by
  have hrounds : ∀ rounds name, ∀ ahead ∈ openingsWithin rounds name,
      GoesOn name.sentences [] ahead := by
    intro rounds
    induction rounds with
    | zero => exact fun name ahead hahead => absurd hahead List.not_mem_nil
    | succ rounds ih =>
        intro name ahead hahead
        exact (Rule.goesOn_of_mem_openings ih hahead).mono name.rule_sentences_le
  exact hrounds 3 name ahead (name.first_subset_openingsWithin hahead)

end JackSyntax
