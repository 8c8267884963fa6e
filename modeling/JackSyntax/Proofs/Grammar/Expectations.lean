import JackSyntax.Proofs.Grammar.Sentences
import JackSyntax.Token.Vocabulary

/-!
# What is expected is possible

Where reading stops at an unexpected token, the message names alternatives.  With the flat
table each of them could have stood there: the tokens taken before, and then a token of the
alternative, begin an accepted program (`possible_of_parseProgram`).

Most rules name only what they could have begun with themselves.  A message may also name
what the parts before the rule could have gone on with, as after the declarations of a
class, or the alternatives of a choice that were not taken.  `Rule.honest` computes
whether these are all that the messages of a rule name, given what else could stand where
the rule begins, and the rule of every production passes (`honest_rule`).

`Outcome.Towards` is what reading preserves, one lemma for each way to put readers
together: the tokens taken are a sentence, or the beginning of one that all alternatives
go on with.
-/

namespace JackSyntax

open Computability JackSyntax.Tree

/-! ## Alternatives as conditions on the next token -/

/-- The tokens that an alternative stands for.  Keywords and symbols are named by words of
the vocabulary. -/
def Alternative.lookahead? : Alternative → Option Lookahead
  | literal word =>
      if Vocabulary.keywords.contains word then some (.text .keyword word)
      else if (Vocabulary.symbols.map String.singleton).contains word then
        some (.text .symbol word)
      else none
  | ofKind .keyword | ofKind .symbol => none
  | ofKind kind => some (.ofKind kind)
  | className => some (.ofKind .identifier)
  | endOfInput => some .atEnd

/-- Whether an alternative stands for tokens under one of some conditions. -/
def Alternative.isAmong (ahead : List Lookahead) (alternative : Alternative) : Bool :=
  alternative.lookahead?.any fun one => one ≠ .atEnd && ahead.contains one

theorem Alternative.exists_of_isAmong {ahead : List Lookahead} {alternative : Alternative}
    (hamong : alternative.isAmong ahead = true) :
    ∃ one, alternative.lookahead? = some one ∧ one ≠ .atEnd ∧ one ∈ ahead := by
  rw [isAmong] at hamong
  cases hone : alternative.lookahead? with
  | none => simp [hone] at hamong
  | some one => simpa [hone] using hamong

/-- Whether something is expected, and all of it stands for tokens under some
conditions. -/
def Expected.isWithin (ahead : List Lookahead) (expected : Expected) : Bool :=
  !expected.alternatives.isEmpty && expected.alternatives.all (Alternative.isAmong ahead)

/-! ## Messages of rules -/

namespace Rule

/-- Conditions under which a token begins a sentence of a rule. -/
def begins (rule : Rule) : List Lookahead :=
  rule.openings fun name => name.first.lookaheads

/-- Conditions under which a token may follow the tokens of a rule and still belong to
it. -/
def again : Rule → List Lookahead
  | many _ item => item.begins
  | _ => []

/-- Whether the messages of a rule name only what may stand there, given what else may
stand where the rule begins, and whether the rule can be finished wherever it stops. -/
def honest (here : List Lookahead) : Rule → Bool
  | empty | call _ | operators _ => true
  | token terminal expected => expected.isWithin (terminal.lookaheads ++ here)
  | fail expected => expected.isWithin here
  | seq first second => second.isFillable && first.honest here && second.honest first.again
  | branch _ taken otherwise =>
      taken.honest (otherwise.begins ++ here) && otherwise.honest (taken.begins ++ here)
  | many _ item => item.honest []

theorem goesOn_of_mem_begins {rule : Rule} {ahead : Lookahead} (hahead : ahead ∈ rule.begins) :
    GoesOn rule.sentences [] ahead :=
  goesOn_of_mem_openings (fun _ _ hfirst => Nonterminal.goesOn_of_mem_first hfirst) hahead

theorem goesOn_of_mem_again {rule : Rule} {ahead : Lookahead} (hahead : ahead ∈ rule.again)
    {taken : List Token} (htaken : taken ∈ rule.sentences) :
    GoesOn rule.sentences taken ahead := by
  cases rule with
  | many guard item =>
      have hitem := GoesOn.mul_left htaken (goesOn_of_mem_begins hahead)
      rw [List.append_nil] at hitem
      refine hitem.mono ((mul_tokensOf_le _ _).trans (tokensOf_mono ?_))
      exact kstar_mul_le_kstar
  | _ => exact absurd hahead List.not_mem_nil

end Rule

theorem honest_rule (name : Nonterminal) : name.rule.honest [] = true := by
  cases name <;> decide

/-! ## Outcomes on the way to a sentence -/

/-- After some tokens, an alternative goes on towards a word of a language; or no tokens
have been taken yet, and it meets a condition for what may stand here instead. -/
def Alternative.Fits (here : List Lookahead) (language : Language Token) (taken : List Token)
    (alternative : Alternative) : Prop :=
  ∃ ahead, alternative.lookahead? = some ahead ∧ ahead ≠ .atEnd ∧
    (GoesOn language taken ahead ∨ (taken = [] ∧ ahead ∈ here))

/-- Reading has taken a word of a language; or it has stopped before an unexpected token,
and all alternatives fit there. -/
inductive Outcome.Towards {α : Type} (here : List Lookahead) (language : Language Token)
    (tokens : List Token) : Outcome α → Prop
  | done {value : α} {taken rest : List Token} (htaken : taken ∈ language)
      (htokens : tokens = taken ++ rest) : Towards here language tokens (.done value rest)
  | unexpected {expected : Expected} {taken rest : List Token}
      (htokens : tokens = taken ++ rest) (hsome : expected.alternatives ≠ [])
      (hfits : ∀ alternative ∈ expected.alternatives, alternative.Fits here language taken) :
      Towards here language tokens (.stopped (.unexpected expected) rest)
  | tooDeep {rest : List Token} : Towards here language tokens (.stopped .tooDeep rest)

theorem Expected.fits_of_isWithin (language : Language Token) {ahead here : List Lookahead}
    {expected : Expected} (hwithin : expected.isWithin (ahead ++ here) = true)
    (hahead : ∀ one ∈ ahead, GoesOn language [] one) :
    expected.alternatives ≠ [] ∧
      ∀ alternative ∈ expected.alternatives, alternative.Fits here language [] := by
  rw [isWithin, Bool.and_eq_true, List.all_eq_true] at hwithin
  refine ⟨by simpa using hwithin.1, fun alternative halternative => ?_⟩
  obtain ⟨one, hone, hne, hmem⟩ :=
    Alternative.exists_of_isAmong (hwithin.2 alternative halternative)
  refine ⟨one, hone, hne, (List.mem_append.mp hmem).imp (hahead one) ?_⟩
  exact fun hhere => ⟨rfl, hhere⟩

namespace Alternative.Fits

variable {here other : List Lookahead} {language wider : Language Token} {taken : List Token}
  {alternative : Alternative}

theorem mono (hfits : alternative.Fits here language taken) (hle : language ≤ wider)
    (hother : ∀ one ∈ here, GoesOn wider [] one ∨ one ∈ other) :
    alternative.Fits other wider taken := by
  obtain ⟨one, hone, hne, hgoes | ⟨rfl, hhere⟩⟩ := hfits
  · exact ⟨one, hone, hne, Or.inl (hgoes.mono hle)⟩
  · exact ⟨one, hone, hne, (hother one hhere).imp_right fun hother => ⟨rfl, hother⟩⟩

theorem mul_right (hfits : alternative.Fits here language taken)
    (hwider : ∃ tokens, tokens ∈ wider) : alternative.Fits here (language * wider) taken := by
  obtain ⟨one, hone, hne, hgoes⟩ := hfits
  exact ⟨one, hone, hne, hgoes.imp_left fun hgoes => hgoes.mul_right hwider⟩

/-- Where a second part stops, what has been read belongs to the first part as well. -/
theorem mul_left {before : List Token} (hbefore : before ∈ wider)
    (hnonempty : ∃ tokens, tokens ∈ language)
    (hagain : ∀ one ∈ here, GoesOn wider before one)
    (hfits : alternative.Fits here language taken) :
    alternative.Fits other (wider * language) (before ++ taken) := by
  obtain ⟨one, hone, hne, hgoes | ⟨rfl, hhere⟩⟩ := hfits
  · exact ⟨one, hone, hne, Or.inl (hgoes.mul_left hbefore)⟩
  · refine ⟨one, hone, hne, Or.inl ?_⟩
    rw [List.append_nil]
    exact (hagain one hhere).mul_right hnonempty

end Alternative.Fits

namespace Outcome.Towards

variable {α β : Type} {here other : List Lookahead} {language wider : Language Token}
  {tokens : List Token} {outcome : Outcome α}

theorem map (f : α → β) (htowards : outcome.Towards here language tokens) :
    (outcome.map f).Towards here language tokens := by
  cases htowards with
  | done htaken htokens => exact .done htaken htokens
  | unexpected htokens hsome hfits => exact .unexpected htokens hsome hfits
  | tooDeep => exact .tooDeep

theorem mono (htowards : outcome.Towards here language tokens) (hle : language ≤ wider)
    (hother : ∀ one ∈ here, GoesOn wider [] one ∨ one ∈ other) :
    outcome.Towards other wider tokens := by
  cases htowards with
  | done htaken htokens => exact .done (hle htaken) htokens
  | unexpected htokens hsome hfits =>
      exact .unexpected htokens hsome fun alternative halternative =>
        (hfits alternative halternative).mono hle hother
  | tooDeep => exact .tooDeep

/-- Reading on after a first part, which may go on itself under the conditions `again`. -/
theorem append_left {again : List Lookahead} {before rest : List Token}
    (hbefore : before ∈ wider) (hfinish : ∃ tokens, tokens ∈ language)
    (hagain : ∀ one ∈ again, GoesOn wider before one)
    (htowards : outcome.Towards again language rest) :
    outcome.Towards here (wider * language) (before ++ rest) := by
  cases htowards with
  | done htaken hrest =>
      refine .done (Language.append_mem_mul hbefore htaken) ?_
      rw [hrest, List.append_assoc]
  | unexpected hrest hsome hfits =>
      refine .unexpected (by rw [hrest, List.append_assoc]) hsome ?_
      intro alternative halternative
      exact (hfits alternative halternative).mul_left hbefore hfinish hagain
  | tooDeep => exact .tooDeep

/-- Two readers in a row. -/
theorem andThen (again : List Lookahead) {next : α → List Token → Outcome β}
    (hfirst : outcome.Towards here language tokens) (hfinish : ∃ tokens, tokens ∈ wider)
    (hagain : ∀ taken ∈ language, ∀ one ∈ again, GoesOn language taken one)
    (hnext : ∀ value rest, (next value rest).Towards again wider rest) :
    (outcome.andThen next).Towards here (language * wider) tokens := by
  cases hfirst with
  | @done value before rest hbefore htokens =>
      rw [andThen_done, htokens]
      exact (hnext value rest).append_left hbefore hfinish (hagain before hbefore)
  | unexpected htokens hsome hfits =>
      exact .unexpected htokens hsome fun alternative halternative =>
        (hfits alternative halternative).mul_right hfinish
  | tooDeep => exact .tooDeep

end Outcome.Towards

section Readers

variable {here : List Lookahead} {language : Language Token}

theorem towards_readToken {terminal : Terminal} {expected : Expected}
    (hwithin : expected.isWithin (terminal.lookaheads ++ here) = true) (tokens : List Token) :
    (readToken terminal expected tokens).Towards here (tokensOf (Form.token terminal.accepts))
      tokens := by
  have hstop := Expected.fits_of_isWithin (tokensOf (Form.token terminal.accepts)) hwithin
    fun one hone token htoken =>
      ⟨[], singleton_mem_tokensOf (Terminal.accepts_of_admits hone htoken)⟩
  cases tokens with
  | nil => exact .unexpected rfl hstop.1 hstop.2
  | cons token tokens =>
      rw [readToken]
      split
      · next haccepts => exact .done (singleton_mem_tokensOf haccepts) rfl
      · exact .unexpected rfl hstop.1 hstop.2

/-- A repetition stops where one of its items does. -/
theorem towards_repeatWhile {begins : Token → Bool} {item : Parser (List Tree)}
    (hitem : ∀ tokens, tokens.head?.any begins = true →
      (item tokens).Towards [] language tokens) (tokens : List Token) :
    (repeatWhile begins item tokens).Towards [] language∗ tokens := by
  have hfrom : ∀ budget read tokens,
      (repeatFrom begins item read budget tokens).Towards [] language∗ tokens := by
    intro budget
    induction budget with
    | nil => exact fun read tokens => .done (Language.nil_mem_kstar language) rfl
    | cons _ budget ih =>
        intro read tokens
        unfold repeatFrom
        split
        · next hbegins =>
            have hnil : ∃ tokens, tokens ∈ language∗ := ⟨[], Language.nil_mem_kstar language⟩
            refine ((hitem tokens hbegins).andThen [] hnil (by simp)
              fun trees rest => ih _ rest).mono mul_kstar_le_kstar (by simp)
        · exact .done (Language.nil_mem_kstar language) rfl
  exact hfrom tokens [] tokens

/-- A run stops where one of its operands does. -/
theorem towards_readChain {isOperator : Token → Bool} {operand : Parser Tree}
    (hoperand : ∀ tokens, (operand tokens).Towards [] language tokens)
    (hnonempty : ∃ tokens, tokens ∈ language) (tokens : List Token) :
    (readChain isOperator operand tokens).Towards []
      (language * (tokensOf (Form.token isOperator) * language)∗) tokens := by
  have hlink : ∀ tokens, tokens.head?.any isOperator = true →
      (readLink operand tokens).Towards [] (tokensOf (Form.token isOperator) * language)
        tokens := by
    intro tokens hhead
    cases tokens with
    | nil => simp at hhead
    | cons token rest =>
        have hoperator : [token] ∈ tokensOf (Form.token isOperator) :=
          singleton_mem_tokensOf (by simpa using hhead)
        rw [readLink_cons]
        exact ((hoperand rest).map _).append_left hoperator hnonempty (by simp)
  refine (hoperand tokens).andThen [] ⟨[], Language.nil_mem_kstar _⟩ (by simp) ?_
  exact fun first rest => (towards_repeatWhile hlink rest).map _

/-! ## Rules and productions -/

variable {table : PrecedenceTable} {production : Nonterminal → Parser Tree}

theorem Rule.towards_parse
    (hproduction : ∀ name tokens, (production name tokens).Towards [] name.sentences tokens)
    {rule : Rule} (hplain : rule.isPlain = true) (hhonest : rule.honest here = true)
    (tokens : List Token) :
    (rule.parse table production tokens).Towards here rule.sentences tokens := by
  induction rule generalizing here tokens with
  | empty => exact .done (nil_mem_tokensOf Language.nil_mem_one) rfl
  | token terminal expected => exact (towards_readToken hhonest tokens).map _
  | fail expected =>
      have hwithin : expected.isWithin ([] ++ here) = true := hhonest
      have hstop := Expected.fits_of_isWithin (fail expected).sentences hwithin (by simp)
      exact .unexpected rfl hstop.1 hstop.2
  | call name => exact ((hproduction name tokens).map _).mono le_rfl (by simp)
  | operators name => exact absurd hplain Bool.false_ne_true
  | seq first second ihfirst ihsecond =>
      rw [isPlain, Bool.and_eq_true] at hplain
      simp only [honest, Bool.and_eq_true] at hhonest
      obtain ⟨⟨hfillable, hfirst⟩, hsecond⟩ := hhonest
      refine ((ihfirst hplain.1 hfirst tokens).andThen first.again
        (exists_sentence_of_isFillable hfillable) ?_ ?_).mono (mul_tokensOf_le _ _) fun _ => Or.inr
      · exact fun taken htaken one hone => goesOn_of_mem_again hone htaken
      · exact fun trees rest => (ihsecond hplain.2 hsecond rest).map _
  | branch guard taken otherwise ihtaken ihotherwise =>
      rw [isPlain, Bool.and_eq_true] at hplain
      rw [honest, Bool.and_eq_true] at hhonest
      have hleft : taken.sentences ≤ (branch guard taken otherwise).sentences :=
        tokensOf_mono le_self_add
      have hright : otherwise.sentences ≤ (branch guard taken otherwise).sentences :=
        tokensOf_mono le_add_self
      -- what the other side could begin with fits as well
      rw [Rule.parse]
      split
      · refine (ihtaken hplain.1 hhonest.1 tokens).mono hleft fun one hone => ?_
        exact (List.mem_append.mp hone).imp_left fun hone =>
          (goesOn_of_mem_begins hone).mono hright
      · refine (ihotherwise hplain.2 hhonest.2 tokens).mono hright fun one hone => ?_
        exact (List.mem_append.mp hone).imp_left fun hone =>
          (goesOn_of_mem_begins hone).mono hleft
  | many guard item ih =>
      exact (towards_repeatWhile (fun tokens _ => ih hplain hhonest tokens) tokens).mono
        (kstar_tokensOf_le _) (by simp)

end Readers

theorem Nonterminal.towards_parse (stack : CallStack) (name : Nonterminal)
    (tokens : List Token) :
    (name.parse .flat stack tokens).Towards [] name.sentences tokens := by
  induction stack using CallStack.induction generalizing name tokens with
  | full stack hfull =>
      rw [parse_of_full hfull]
      exact .tooDeep
  | call stack hroom ih =>
      have hinner : ∀ callee tokens,
          (name.parseInner .flat stack callee tokens).Towards [] callee.sentences tokens :=
        fun callee tokens => ih name callee callee tokens
      by_cases hname : name = .expression
      · subst hname
        let operators := Form.token (·.isSymbol binaryOperators)
        have hrun : term.sentences * (tokensOf operators * term.sentences)∗ ≤
            expression.sentences :=
          calc
            _ ≤ term.sentences * (tokensOf (operators * Form.node .term))∗ :=
              mul_le_mul_right (kstar_mono (mul_tokensOf_le _ _)) _
            _ ≤ term.sentences * tokensOf (operators * Form.node .term)∗ :=
              mul_le_mul_right (kstar_tokensOf_le _) _
            _ ≤ expression.rule.sentences := mul_tokensOf_le _ _
            _ ≤ expression.sentences := rule_sentences_le .expression
        rw [parse_expression_eq .flat hroom, PrecedenceTable.hasLevel_flat]
        exact ((towards_readChain (hinner .term) (exists_sentence .term) tokens).map _).mono hrun
          (by simp)
      · rw [parse_eq hroom]
        exact ((Rule.towards_parse hinner (isPlain_rule hname) (honest_rule name)
          tokens).map _).mono name.rule_sentences_le (by simp)

/-! ## Programs -/

/-- An alternative is possible after some tokens: a token of the alternative goes on
towards an accepted program, and the end of the input makes one of the tokens. -/
def Alternative.Possible (table : PrecedenceTable) (taken : List Token)
    (alternative : Alternative) : Prop :=
  ∃ ahead, alternative.lookahead? = some ahead ∧
    (ahead = .atEnd → Accepted table taken) ∧ GoesOn {tokens | Accepted table tokens} taken ahead

/-- Where something is possible, what was taken can be completed. -/
theorem Alternative.Possible.viable {table : PrecedenceTable} {taken : List Token}
    {alternative : Alternative} (hpossible : alternative.Possible table taken) :
    ∃ more, Accepted table (taken ++ more) := by
  obtain ⟨ahead, -, hend, hgoes⟩ := hpossible
  by_cases hatEnd : ahead = .atEnd
  · exact ⟨[], by simpa using hend hatEnd⟩
  · obtain ⟨token, htoken⟩ := Lookahead.exists_token hatEnd
    obtain ⟨more, hmore⟩ := hgoes token htoken
    exact ⟨token :: more, hmore⟩

/-- Where reading stops with the flat table, something is expected, and all of it is
possible. -/
theorem possible_of_parseProgram {stack : CallStack} {tokens rest : List Token}
    {expected : Expected}
    (hread : parseProgram .flat stack tokens = .stopped (.unexpected expected) rest) :
    ∃ taken, tokens = taken ++ rest ∧ expected.alternatives ≠ [] ∧
      ∀ alternative ∈ expected.alternatives, alternative.Possible .flat taken := by
  have htowards := Nonterminal.towards_parse stack.extended .classDec tokens
  have haccepted : Nonterminal.classDec.sentences ≤ {tokens | Accepted .flat tokens} :=
    fun _ => accepted_of_mem_sentences
  rw [parseProgram] at hread
  generalize Nonterminal.classDec.parse .flat stack.extended tokens = outcome at hread htowards
  cases htowards with
  | @done tree taken left htaken htokens =>
      -- the class is complete, and only the end of the input is named
      cases left with
      | nil => simp [requireEnd] at hread
      | cons token left =>
          simp only [Outcome.andThen_done, requireEnd, Outcome.stopped.injEq,
            Obstacle.unexpected.injEq] at hread
          obtain ⟨rfl, rfl⟩ := hread
          refine ⟨taken, htokens, by simp [Expected.alternatives], ?_⟩
          rintro alternative halternative
          obtain rfl := List.mem_singleton.mp halternative
          refine ⟨.atEnd, rfl, fun _ => haccepted htaken, fun token htoken => ?_⟩
          simp [Lookahead.admits] at htoken
  | @unexpected named taken left htokens hsome hfits =>
      simp only [Outcome.andThen_stopped, Outcome.stopped.injEq,
        Obstacle.unexpected.injEq] at hread
      obtain ⟨rfl, rfl⟩ := hread
      refine ⟨taken, htokens, hsome, fun alternative halternative => ?_⟩
      obtain ⟨ahead, hahead, hne, hgoes | ⟨-, hnone⟩⟩ := hfits alternative halternative
      · exact ⟨ahead, hahead, fun hend => absurd hend hne, hgoes.mono haccepted⟩
      · exact absurd hnone List.not_mem_nil
  | tooDeep => simp at hread

end JackSyntax
