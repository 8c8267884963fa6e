import JackSyntax.Proofs.Reading.Depth
import Mathlib

/-!
# Before a call

How deep a reading goes is a matter of what is read before each call.  Tokens are weighed
for that (`Weighing`).  The shape of a rule tells how much it takes at least (`Rule.gain`),
and which productions it calls after how much (`Rule.callSites`); `Rule.Calls.exists_site`
says that the readings keep to it.

With every token of weight one this bounds the depth.  The productions have ranks such that
a call goes to a lower rank, but for a few calls that open a construct of the source
(`Nonterminal.nests`), and these are made after a token.  So in a reading of `n`
tokens no more productions are open than its rank and three times `n`
(`Nonterminal.not_tooDeep`), and readers without a call stack exist, one family of them
(`unlimited_iff`).
-/

namespace JackSyntax

/-! ## Weights -/

/-- A weight for every token, and one for every class of tokens that none in it falls short
of.  An operator does not weigh less than nothing. -/
structure Weighing (table : PrecedenceTable) where
  token : Token → Int
  terminal : Terminal → Int
  terminal_le : ∀ (terms : Terminal) (one : Token), terms.accepts one = true →
    terminal terms ≤ token one
  operator_nonneg : ∀ one : Token, table.hasLevel one = true → 0 ≤ token one

namespace Rule

/-- The least weight that a rule takes, by the least weights of the classes of tokens. -/
def gain (least : Terminal → Int) : Rule → Int
  | token terminal _ => least terminal
  | seq first second => first.gain least + second.gain least
  | branch _ taken otherwise => min (taken.gain least) (otherwise.gain least)
  | empty | fail _ | call _ | operators _ | many _ _ => 0

/-- Whether a rule repeats nothing that might weigh less than nothing. -/
def isSteady (least : Terminal → Int) : Rule → Bool
  | empty | token _ _ | fail _ | call _ | operators _ => true
  | seq first second => first.isSteady least && second.isSteady least
  | branch _ taken otherwise => taken.isSteady least && otherwise.isSteady least
  | many _ item => decide (0 ≤ item.gain least) && item.isSteady least

/-- The productions that a rule calls, each with the least weight taken before, if `before`
was taken before the rule. -/
def callSites (least : Terminal → Int) (before : Int) : Rule → List (Nonterminal × Int)
  | empty | token _ _ | fail _ => []
  | call name | operators name => [(name, before)]
  | seq first second =>
      first.callSites least before ++ second.callSites least (before + first.gain least)
  | branch _ taken otherwise => taken.callSites least before ++ otherwise.callSites least before
  | many _ item => item.callSites least before

end Rule

namespace Weighing

variable {table : PrecedenceTable} (weigh : Weighing table)

/-- The weight of some tokens. -/
def total (tokens : List Token) : Int :=
  (tokens.map weigh.token).sum

@[simp] theorem total_nil : weigh.total [] = 0 := rfl

@[simp] theorem total_cons (one : Token) (tokens : List Token) :
    weigh.total (one :: tokens) = weigh.token one + weigh.total tokens := by
  simp [total]

@[simp] theorem total_append (first second : List Token) :
    weigh.total (first ++ second) = weigh.total first + weigh.total second := by
  simp [total]

/-- A weight at least is taken from some tokens up to a place. -/
def TakesTo (least : Int) (tokens place : List Token) : Prop :=
  ∃ taken, tokens = taken ++ place ∧ least ≤ weigh.total taken

/-- Where a reader succeeds, it has taken a weight at least. -/
def Takes {α : Type} (least : Int) (parser : Parser α) : Prop :=
  ∀ tokens value rest, parser tokens = .done value rest → weigh.TakesTo least tokens rest

end Weighing

section Weights

variable {table : PrecedenceTable} {weigh : Weighing table} {α β : Type}

theorem Weighing.TakesTo.refl (tokens : List Token) : weigh.TakesTo 0 tokens tokens :=
  ⟨[], rfl, Int.le_refl 0⟩

theorem Weighing.TakesTo.trans {least more : Int} {tokens middle place : List Token}
    (hfirst : weigh.TakesTo least tokens middle) (hsecond : weigh.TakesTo more middle place) :
    weigh.TakesTo (least + more) tokens place := by
  obtain ⟨taken, rfl, htaken⟩ := hfirst
  obtain ⟨further, rfl, hfurther⟩ := hsecond
  exact ⟨taken ++ further, by simp, by simp only [Weighing.total_append]; omega⟩

theorem Weighing.TakesTo.mono {least less : Int} {tokens place : List Token}
    (htakes : weigh.TakesTo least tokens place) (hless : less ≤ least) :
    weigh.TakesTo less tokens place := by
  obtain ⟨taken, htaken, hleast⟩ := htakes
  exact ⟨taken, htaken, by omega⟩

theorem Weighing.TakesTo.cons {one : Token} (hone : 0 ≤ weigh.token one) (tokens : List Token) :
    weigh.TakesTo 0 (one :: tokens) tokens :=
  ⟨[one], rfl, by simpa using hone⟩

namespace Weighing.Takes

theorem map {least : Int} {parser : Parser α} (hparser : weigh.Takes least parser) (f : α → β) :
    weigh.Takes least fun tokens => (parser tokens).map f := by
  intro tokens value rest hread
  obtain ⟨read, hread, -⟩ := Outcome.map_eq_done_iff.mp hread
  exact hparser tokens read rest hread

theorem andThen {least more : Int} {first : Parser α} {next : α → Parser β}
    (hfirst : weigh.Takes least first) (hnext : ∀ value, weigh.Takes more (next value)) :
    weigh.Takes (least + more) fun tokens => (first tokens).andThen next := by
  intro tokens value rest hread
  obtain ⟨read, middle, hread, hmore⟩ := Outcome.andThen_eq_done_iff.mp hread
  exact (hfirst tokens read middle hread).trans (hnext read middle value rest hmore)

end Weighing.Takes

theorem takes_readToken (terminal : Terminal) (expected : Expected) :
    weigh.Takes (weigh.terminal terminal) (readToken terminal expected) := by
  intro tokens token rest hread
  obtain ⟨haccepts, rfl⟩ := readToken_eq_done_iff.mp hread
  exact ⟨[token], rfl, by simpa using weigh.terminal_le terminal token haccepts⟩

section Repetition

variable {begins : Token → Bool} {item : Parser (List Tree)}

theorem takes_repeatWhile
    (hitem : ∀ tokens trees rest, tokens.head?.any begins = true →
      item tokens = .done trees rest → weigh.TakesTo 0 tokens rest) :
    weigh.Takes 0 (repeatWhile begins item) := by
  have hfrom : ∀ budget read, weigh.Takes 0 (repeatFrom begins item read budget) := by
    intro budget
    induction budget with
    | nil =>
        intro read tokens trees rest hread
        cases hread
        exact .refl _
    | cons _ budget ih =>
        intro read tokens trees rest hread
        rw [repeatFrom] at hread
        split at hread
        · next hbegins =>
            obtain ⟨first, middle, hfirst, hmore⟩ := Outcome.andThen_eq_done_iff.mp hread
            exact (hitem tokens first middle hbegins hfirst).trans (ih _ middle trees rest hmore)
        · cases hread
          exact .refl _
  exact fun tokens => hfrom tokens [] tokens

theorem ComesTo.any_place {tokens place : List Token} (hcomes : ComesTo begins item tokens place) :
    place.head?.any begins = true := by
  induction hcomes with
  | here hbegins => exact hbegins
  | later _ _ _ ih => exact ih

theorem ComesTo.takesTo
    (hitem : ∀ tokens trees rest, tokens.head?.any begins = true →
      item tokens = .done trees rest → weigh.TakesTo 0 tokens rest)
    {tokens place : List Token} (hcomes : ComesTo begins item tokens place) :
    weigh.TakesTo 0 tokens place := by
  induction hcomes with
  | here hbegins => exact .refl _
  | later hbegins hread _ ih => exact (hitem _ _ _ hbegins hread).trans ih

/-- An operator and an operand after it weigh what the operand does at least. -/
theorem takesTo_readOperation (hitem : weigh.Takes 0 item)
    (hbegins : ∀ one, begins one = true → table.hasLevel one = true) (tokens : List Token)
    (trees : List Tree) (rest : List Token) (hbegin : tokens.head?.any begins = true)
    (hread : readOperation item tokens = .done trees rest) : weigh.TakesTo 0 tokens rest := by
  cases tokens with
  | nil => simp at hbegin
  | cons operator after =>
      obtain ⟨read, hread, -⟩ := Outcome.map_eq_done_iff.mp hread
      have hoperator := weigh.operator_nonneg operator (hbegins operator (by simpa using hbegin))
      exact (Weighing.TakesTo.cons hoperator after).trans (hitem after read rest hread)

theorem takes_readLevels (hitem : weigh.Takes 0 item) (levels : List Int) :
    weigh.Takes 0 (readLevels table item levels) := by
  induction levels with
  | nil => exact hitem
  | cons level tighter ih =>
      have hlevel : ∀ one, table.isOperator level one = true → table.hasLevel one = true := by
        intro one hone
        rw [PrecedenceTable.isOperator, decide_eq_true_eq] at hone
        exact PrecedenceTable.hasLevel_iff.mpr ⟨level, hone⟩
      have hmore := takes_repeatWhile (takesTo_readOperation ih hlevel)
      exact ih.andThen fun first => hmore.map (joined first)

end Repetition

variable {production : Nonterminal → Parser Tree}

theorem Rule.takes_parse (hproduction : ∀ name, weigh.Takes 0 (production name)) {rule : Rule}
    (hsteady : rule.isSteady weigh.terminal = true) :
    weigh.Takes (rule.gain weigh.terminal) (rule.parse table production) := by
  induction rule with
  | empty =>
      intro tokens trees rest hread
      cases hread
      exact .refl _
  | token terminal expected => exact (takes_readToken terminal expected).map _
  | fail expected =>
      intro tokens trees rest hread
      cases hread
  | call name => exact (hproduction name).map ([·])
  | operators name => exact takes_readLevels ((hproduction name).map ([·])) table.levels
  | seq first second ihfirst ihsecond =>
      rw [isSteady, Bool.and_eq_true] at hsteady
      exact (ihfirst hsteady.1).andThen fun trees => (ihsecond hsteady.2).map (trees ++ ·)
  | branch guard taken otherwise ihtaken ihotherwise =>
      rw [isSteady, Bool.and_eq_true] at hsteady
      intro tokens trees rest hread
      rw [Rule.parse] at hread
      split at hread
      · exact (ihtaken hsteady.1 tokens trees rest hread).mono (Int.min_le_left _ _)
      · exact (ihotherwise hsteady.2 tokens trees rest hread).mono (Int.min_le_right _ _)
  | many guard item ih =>
      rw [isSteady, Bool.and_eq_true, decide_eq_true_eq] at hsteady
      exact takes_repeatWhile fun tokens trees rest _ hread =>
        (ih hsteady.2 tokens trees rest hread).mono hsteady.1

/-- Before a production that the reading of a rule comes to, the rule has taken what one of
its call sites says. -/
theorem Rule.Calls.exists_site (hproduction : ∀ name, weigh.Takes 0 (production name))
    {rule : Rule} (hsteady : rule.isSteady weigh.terminal = true) {tokens place : List Token}
    {callee : Nonterminal} (hcalls : rule.Calls table production tokens callee place)
    (before : Int) :
    ∃ least, (callee, before + least) ∈ rule.callSites weigh.terminal before ∧
      weigh.TakesTo least tokens place := by
  induction hcalls generalizing before with
  | call | operand => exact ⟨0, by simp [callSites], .refl _⟩
  | @nextOperand name tokens rest place tree operator hread hcomes =>
      have hoperand := hproduction name tokens tree rest hread
      have hlinks := hcomes.takesTo
        (takesTo_readOperation ((hproduction name).map ([·])) fun _ hlevel => hlevel)
      have hoperator := weigh.operator_nonneg operator (by simpa using hcomes.any_place)
      exact ⟨0, by simp [callSites], (hoperand.trans hlinks).trans (.cons hoperator place)⟩
  | first _ ih =>
      rw [isSteady, Bool.and_eq_true] at hsteady
      obtain ⟨least, hsite, htakes⟩ := ih hsteady.1 before
      exact ⟨least, List.mem_append_left _ hsite, htakes⟩
  | @second first second _ _ _ _ _ hread _ ih =>
      rw [isSteady, Bool.and_eq_true] at hsteady
      obtain ⟨least, hsite, htakes⟩ := ih hsteady.2 (before + first.gain weigh.terminal)
      refine ⟨first.gain weigh.terminal + least, List.mem_append_right _ ?_, ?_⟩
      · rwa [← Int.add_assoc]
      · exact (takes_parse hproduction hsteady.1 _ _ _ hread).trans htakes
  | taken _ _ ih =>
      rw [isSteady, Bool.and_eq_true] at hsteady
      obtain ⟨least, hsite, htakes⟩ := ih hsteady.1 before
      exact ⟨least, List.mem_append_left _ hsite, htakes⟩
  | otherwise _ _ ih =>
      rw [isSteady, Bool.and_eq_true] at hsteady
      obtain ⟨least, hsite, htakes⟩ := ih hsteady.2 before
      exact ⟨least, List.mem_append_right _ hsite, htakes⟩
  | item hcomes _ ih =>
      rw [isSteady, Bool.and_eq_true, decide_eq_true_eq] at hsteady
      obtain ⟨least, hsite, htakes⟩ := ih hsteady.2 before
      have hitems := hcomes.takesTo fun tokens trees rest _ hread =>
        (takes_parse hproduction hsteady.2 tokens trees rest hread).mono hsteady.1
      exact ⟨least, hsite, (hitems.trans htakes).mono (by omega)⟩

/-- A weighing by which every production takes at least nothing. -/
def Weighing.IsSteady (weigh : Weighing table) : Prop :=
  ∀ name : Nonterminal, name.rule.isSteady weigh.terminal = true ∧
    0 ≤ name.rule.gain weigh.terminal

theorem Nonterminal.takes_parse (hsteady : weigh.IsSteady) (stack : CallStack)
    (name : Nonterminal) : weigh.Takes 0 (name.parse table stack) := by
  induction stack using CallStack.induction generalizing name with
  | full stack hfull =>
      intro tokens tree rest hread
      simp [parse_of_full hfull] at hread
  | call stack hroom ih =>
      obtain ⟨hrule, hgain⟩ := hsteady name
      intro tokens tree rest hread
      obtain ⟨-, children, hchildren, -⟩ := parse_eq_done_iff.mp hread
      exact (Rule.takes_parse (fun callee => ih name callee callee) hrule tokens children rest
        hchildren).mono hgain

end Weights

/-! ## Ranks -/

/-- Every token weighs one. -/
def Weighing.count (table : PrecedenceTable) : Weighing table where
  token _ := 1
  terminal _ := 1
  terminal_le _ _ _ := Int.le_refl 1
  operator_nonneg _ _ := by decide

theorem Weighing.total_count (table : PrecedenceTable) (tokens : List Token) :
    (count table).total tokens = tokens.length := by
  induction tokens with
  | nil => rfl
  | cons one tokens ih =>
      have hone : (count table).token one = 1 := rfl
      rw [total_cons, ih, hone, List.length_cons]
      omega

theorem Weighing.isSteady_count (table : PrecedenceTable) : (count table).IsSteady := by
  have hsteady : ∀ name : Nonterminal, name.rule.isSteady (fun _ => 1) = true ∧
      0 ≤ name.rule.gain fun _ => 1 := by
    intro name
    cases name <;> decide
  exact hsteady

namespace Nonterminal

/-- A call that opens a construct of the source: a block of statements, or what is in a
term, that is, an expression in parentheses or in brackets, arguments, or the operand of a
unary operator. -/
def nests : Nonterminal → Nonterminal → Bool
  | ifStatement, statements | whileStatement, statements => true
  | term, _ => true
  | _, _ => false

/-- The most productions that are open at a time where no construct is. -/
def rank : Nonterminal → Nat
  | classDec => 8
  | subroutineDec => 7
  | subroutineBody => 6
  | statements => 5
  | doStatement => 4
  | letStatement | ifStatement | whileStatement | returnStatement | expressionList => 3
  | expression => 2
  | term | classVarDec | parameterList | varDec => 1

theorem rank_pos (name : Nonterminal) : 0 < name.rank := by
  cases name <;> decide

/-- A call goes to a lower rank, or opens a construct after a token and goes up by two ranks
at most. -/
theorem rank_lt_of_mem_callSites : ∀ (name : Nonterminal),
    ∀ site ∈ name.rule.callSites (fun _ => 1) 0,
      site.1.rank < name.rank + (if name.nests site.1 then 3 else 0) ∧
        (if name.nests site.1 then 1 else 0) ≤ site.2 := by
  intro name
  cases name <;> decide

end Nonterminal

section Ranks

variable {table : PrecedenceTable} {production : Nonterminal → Parser Tree}
  {name callee : Nonterminal} {tokens place : List Token}

theorem Rule.Calls.rank_lt (hproduction : ∀ name, (Weighing.count table).Takes 0 (production name))
    (hcalls : name.rule.Calls table production tokens callee place) :
    callee.rank < name.rank + (if name.nests callee then 3 else 0) ∧
      place.length + (if name.nests callee then 1 else 0) ≤ tokens.length := by
  obtain ⟨hsteady, -⟩ := Weighing.isSteady_count table name
  obtain ⟨least, hsite, taken, rfl, hleast⟩ := hcalls.exists_site hproduction hsteady 0
  obtain ⟨hrank, hbefore⟩ := name.rank_lt_of_mem_callSites _ hsite
  refine ⟨hrank, ?_⟩
  rw [Weighing.total_count] at hleast
  rw [List.length_append]
  cases hnests : name.nests callee <;>
    simp only [hnests, Bool.false_eq_true, if_false, if_true] at hbefore ⊢ <;> omega

/-- Room for productions as many as the rank and three for each token is enough. -/
theorem Nonterminal.not_tooDeep {count : Nat} (hcount : name.rank + 3 * tokens.length ≤ count) :
    (name.parse table (.ofProductions count) tokens).wentTooDeep = false := by
  induction count generalizing name tokens with
  | zero =>
      have hpos := name.rank_pos
      omega
  | succ count ih =>
      rw [Bool.eq_false_iff]
      intro hdeep
      obtain ⟨callee, place, hcalls, hplace⟩ := exists_call (Nat.succ_pos count) hdeep
      obtain ⟨hrank, hlength⟩ :=
        hcalls.rank_lt fun callee => takes_parse (Weighing.isSteady_count table) _ callee
      have hless : callee.rank + 3 * place.length ≤ count := by
        cases hnests : name.nests callee <;>
          simp only [hnests, Bool.false_eq_true, if_false, if_true] at hrank hlength <;> omega
      rw [CallStack.within_ofProductions, ih hless] at hplace
      cases hplace

end Ranks

/-! ## Readers without a call stack -/

/-- Reads a production with room for as many productions as the tokens can need. -/
def Nonterminal.read (table : PrecedenceTable) (name : Nonterminal) : Parser Tree :=
  fun tokens => name.parse table (.ofProductions (name.rank + 3 * tokens.length)) tokens

section Unlimited

variable {table : PrecedenceTable}

theorem Nonterminal.wentTooDeep_read (name : Nonterminal) (tokens : List Token) :
    (name.read table tokens).wentTooDeep = false :=
  not_tooDeep (Nat.le_refl _)

theorem Nonterminal.takes_read {weigh : Weighing table} (hsteady : weigh.IsSteady)
    (name : Nonterminal) : weigh.Takes 0 (name.read table) :=
  fun tokens => takes_parse hsteady _ name tokens

theorem Nonterminal.parse_within_read (stack : CallStack) (name : Nonterminal)
    (tokens : List Token) :
    (name.parse table stack tokens).Within (name.read table tokens) := by
  -- a stack with room for both, in which no calls are between the productions
  let count := name.rank + 3 * tokens.length
  let larger := CallStack.ofProductions (max stack.room count)
  have hfits : stack.FitsIn larger := ⟨Nat.le_max_left _ _, fun _ _ => Nat.zero_le _⟩
  have hfits' : (CallStack.ofProductions count).FitsIn larger :=
    ⟨Nat.le_max_right _ _, fun _ _ => Nat.le_refl _⟩
  have hread : name.read table tokens = name.parse table larger tokens :=
    (within_parse hfits' name tokens).eq (name.wentTooDeep_read tokens)
  rw [hread]
  exact within_parse hfits name tokens

theorem unlimited_read : Unlimited table (Nonterminal.read table) := by
  intro name tokens
  have hdeep : (name.read table tokens).wentTooDeep = false := name.wentTooDeep_read tokens
  have hroom : 0 < (CallStack.ofProductions (name.rank + 3 * tokens.length)).room :=
    Nat.lt_of_lt_of_le name.rank_pos (Nat.le_add_right _ _)
  rw [Nonterminal.read, Nonterminal.parse_eq hroom] at hdeep ⊢
  exact ((Rule.within_parse (fun callee => Nonterminal.parse_within_read _ callee) name.rule
    tokens).map _).eq hdeep

/-- There is one family of readers without a call stack, and it never goes too deep. -/
theorem unlimited_iff {production : Nonterminal → Parser Tree} :
    Unlimited table production ↔ production = Nonterminal.read table := by
  constructor
  · intro hunlimited
    funext name tokens
    exact ((hunlimited.within_parse _ name tokens).eq (name.wentTooDeep_read tokens)).symm
  · rintro rfl
    exact unlimited_read

end Unlimited

end JackSyntax
