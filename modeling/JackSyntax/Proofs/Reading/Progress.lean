import JackSyntax.Grammar.Parse

/-!
# Reading goes forward

A reader leaves an end of the tokens it was given (`Parser.Forward`), and most readers
take a token at least when they succeed (`Parser.Productive`).  For a rule the second is
a matter of its shape, which `Rule.mayBeEmpty` computes; `Nonterminal.advancing_parse`
is the result for all productions.

The main use is `repeatWhile_eq`: where every item takes a token, the budget of a
repetition is never the reason for which it ends, and so it may be unrolled item by item.
The grammar repeats only such items (`iterable_rule`).
-/

namespace JackSyntax

namespace Parser

variable {α β : Type}

/-- Whatever a reader leaves is an end of what it was given. -/
def Forward (parser : Parser α) : Prop :=
  ∀ tokens, (parser tokens).rest <:+ tokens

/-- A reader that succeeds takes a token, if there is one. -/
def Productive (parser : Parser α) : Prop :=
  ∀ token tokens value rest, parser (token :: tokens) = .done value rest →
    rest.length ≤ tokens.length

theorem Forward.map {parser : Parser α} (hparser : Forward parser) (f : α → β) :
    Forward fun tokens => (parser tokens).map f := by
  intro tokens
  simpa using hparser tokens

theorem Productive.map {parser : Parser α} (hparser : Productive parser) (f : α → β) :
    Productive fun tokens => (parser tokens).map f := by
  intro token tokens value rest hread
  obtain ⟨read, hread, -⟩ := Outcome.map_eq_done_iff.mp hread
  exact hparser token tokens read rest hread

theorem Forward.rest_suffix {parser : Parser α} (hparser : Forward parser)
    {tokens rest : List Token} {value : α} (hread : parser tokens = .done value rest) :
    rest <:+ tokens := by
  have hsuffix := hparser tokens
  rwa [hread] at hsuffix

theorem Forward.andThen {first : Parser α} {next : α → Parser β} (hfirst : Forward first)
    (hnext : ∀ value, Forward (next value)) :
    Forward fun tokens => (first tokens).andThen next := by
  intro tokens
  have hsuffix := hfirst tokens
  cases hread : first tokens with
  | stopped obstacle rest =>
      rw [hread] at hsuffix
      simpa [hread, Outcome.rest] using hsuffix
  | done value rest =>
      rw [hread] at hsuffix
      simpa [hread] using (hnext value rest).trans hsuffix

/-- Of two readers in a row, one that takes a token is enough. -/
theorem Productive.andThen {first : Parser α} {next : α → Parser β} (hfirst : Forward first)
    (hnext : ∀ value, Forward (next value))
    (htakes : Productive first ∨ ∀ value, Productive (next value)) :
    Productive fun tokens => (first tokens).andThen next := by
  intro token tokens value rest hread
  obtain ⟨read, middle, hread, hmore⟩ := Outcome.andThen_eq_done_iff.mp hread
  have hmiddle := hfirst.rest_suffix hread
  have hrest := (hnext read).rest_suffix hmore
  rcases htakes with htakes | htakes
  · exact Nat.le_trans hrest.length_le (htakes token tokens read middle hread)
  · cases middle with
    | nil => simp [List.suffix_nil.mp hrest]
    | cons other after =>
        have hlength := htakes read other after value rest hmore
        have := hmiddle.length_le
        simp only [List.length_cons] at this
        omega

end Parser

theorem forward_readToken (terminal : Terminal) (expected : Expected) :
    Parser.Forward (readToken terminal expected) := by
  intro tokens
  cases tokens with
  | nil => exact List.suffix_rfl
  | cons token tokens =>
      simp only [readToken]
      split
      · exact List.suffix_cons token tokens
      · exact List.suffix_rfl

theorem readToken_eq_done_iff {terminal : Terminal} {expected : Expected} {token : Token}
    {tokens rest : List Token} :
    readToken terminal expected tokens = .done token rest ↔
      terminal.accepts token = true ∧ tokens = token :: rest := by
  cases tokens with
  | nil => simp [readToken]
  | cons next tokens =>
      rw [readToken]
      cases haccepts : terminal.accepts next with
      | true =>
          rw [if_pos rfl, Outcome.done.injEq, List.cons.injEq]
          constructor
          · rintro ⟨rfl, rfl⟩
            exact ⟨haccepts, rfl, rfl⟩
          · exact fun h => h.2
      | false =>
          rw [if_neg Bool.false_ne_true]
          constructor
          · intro hstopped
            cases hstopped
          · rintro ⟨htoken, hsame⟩
            rw [(List.cons.inj hsame).1, htoken] at haccepts
            cases haccepts

theorem productive_readToken (terminal : Terminal) (expected : Expected) :
    Parser.Productive (readToken terminal expected) := by
  intro token tokens value rest hread
  have hsame := (readToken_eq_done_iff.mp hread).2
  exact Nat.le_of_eq (congrArg List.length (List.cons.inj hsame).2.symm)

/-! ## Repetition -/

section Repetition

variable {begins : Token → Bool} {item : Parser (List Tree)}

theorem forward_repeatFrom (hitem : Parser.Forward item) (read : List Tree)
    (budget : List Token) : Parser.Forward (repeatFrom begins item read budget) := by
  induction budget generalizing read with
  | nil => exact fun tokens => List.suffix_rfl
  | cons _ budget ih =>
      intro tokens
      unfold repeatFrom
      split
      · exact hitem.andThen (fun trees => ih (trees.reverse ++ read)) tokens
      · exact List.suffix_rfl

theorem forward_repeatWhile (hitem : Parser.Forward item) :
    Parser.Forward (repeatWhile begins item) :=
  fun tokens => forward_repeatFrom hitem [] tokens tokens

/-- Induction over the items that a repetition has read. -/
theorem repeatWhile_induction {motive : List Token → List Tree → List Token → Prop}
    (stop : ∀ tokens, motive tokens [] tokens)
    (more : ∀ tokens trees middle others rest, item tokens = .done trees middle →
      motive middle others rest → motive tokens (trees ++ others) rest)
    {tokens rest : List Token} {trees : List Tree}
    (hread : repeatWhile begins item tokens = .done trees rest) : motive tokens trees rest := by
  have hfrom : ∀ budget tokens trees,
      repeatFrom begins item [] budget tokens = .done trees rest → motive tokens trees rest := by
    intro budget
    induction budget with
    | nil =>
        intro tokens trees hread
        cases hread
        exact stop _
    | cons _ budget ih =>
        intro tokens trees hread
        rw [repeatFrom] at hread
        split at hread
        · obtain ⟨first, middle, hfirst, hread⟩ := Outcome.andThen_eq_done_iff.mp hread
          rw [repeatFrom_eq] at hread
          obtain ⟨others, hothers, rfl⟩ := Outcome.map_eq_done_iff.mp hread
          have hmore := more tokens first middle others rest hfirst (ih middle others hothers)
          simpa using hmore
        · cases hread
          exact stop _
  exact hfrom tokens tokens trees hread

/-- All budgets with an entry for every token give the same result. -/
private theorem repeatFrom_budget (hitem : Parser.Productive item) (read : List Tree)
    (tokens : List Token) {budget other : List Token} (hbudget : tokens.length ≤ budget.length)
    (hother : tokens.length ≤ other.length) :
    repeatFrom begins item read budget tokens = repeatFrom begins item read other tokens := by
  induction budget generalizing read tokens other with
  | nil =>
      have hnil : tokens = [] := by simpa using hbudget
      cases other <;> simp [hnil, repeatFrom]
  | cons _ budget ih =>
      cases tokens with
      | nil => cases other <;> simp [repeatFrom]
      | cons token tokens =>
          cases other with
          | nil => simp at hother
          | cons _ other =>
              simp only [List.length_cons, Nat.add_le_add_iff_right] at hbudget hother
              unfold repeatFrom
              split
              · cases hread : item (token :: tokens) with
                | stopped obstacle rest => rfl
                | done trees rest =>
                    have hrest := hitem token tokens trees rest hread
                    exact ih _ rest (Nat.le_trans hrest hbudget) (Nat.le_trans hrest hother)
              · rfl

/-- A repetition unrolled: an item, if one begins here, and the repetition again. -/
theorem repeatWhile_eq (hitem : Parser.Productive item) (tokens : List Token) :
    repeatWhile begins item tokens =
      if tokens.head?.any begins then
        (item tokens).andThen fun trees rest =>
          (repeatWhile begins item rest).map (trees ++ ·)
      else .done [] tokens := by
  cases tokens with
  | nil => simp [repeatWhile, repeatFrom]
  | cons token tokens =>
      unfold repeatWhile
      rw [repeatFrom]
      split
      · cases hread : item (token :: tokens) with
        | stopped obstacle rest => rfl
        | done trees rest =>
            have hrest := hitem token tokens trees rest hread
            simp only [Outcome.andThen_done]
            rw [repeatFrom_eq, repeatFrom_budget hitem [] rest hrest (Nat.le_refl _)]
            simp
      · simp

theorem repeatWhile_of_begins (hitem : Parser.Productive item) {token : Token}
    (tokens : List Token) (hbegins : begins token = true) :
    repeatWhile begins item (token :: tokens) =
      (item (token :: tokens)).andThen fun trees rest =>
        (repeatWhile begins item rest).map (trees ++ ·) := by
  rw [repeatWhile_eq hitem]
  simp [hbegins]

theorem repeatWhile_of_not_begins {tokens : List Token}
    (hbegins : tokens.head?.any begins = false) :
    repeatWhile begins item tokens = .done [] tokens := by
  cases tokens with
  | nil => simp [repeatWhile, repeatFrom]
  | cons token tokens =>
      simp only [List.head?_cons, Option.any_some] at hbegins
      simp [repeatWhile, repeatFrom, hbegins]

end Repetition

/-! ## Operators -/

theorem forward_readOperation {operand : Parser (List Tree)}
    (hoperand : Parser.Forward operand) : Parser.Forward (readOperation operand) := by
  intro tokens
  cases tokens with
  | nil => exact List.suffix_rfl
  | cons operator rest =>
      simpa [readOperation] using (hoperand rest).trans (List.suffix_cons operator rest)

theorem productive_readOperation {operand : Parser (List Tree)}
    (hoperand : Parser.Forward operand) : Parser.Productive (readOperation operand) := by
  intro token tokens value rest hread
  obtain ⟨items, hread, -⟩ := Outcome.map_eq_done_iff.mp hread
  exact (hoperand.rest_suffix hread).length_le

theorem forward_readLevels (table : PrecedenceTable) {operand : Parser (List Tree)}
    (hoperand : Parser.Forward operand) (levels : List Int) :
    Parser.Forward (readLevels table operand levels) := by
  induction levels with
  | nil => exact hoperand
  | cons level tighter ih =>
      exact ih.andThen fun first =>
        (forward_repeatWhile (forward_readOperation ih)).map (joined first)

theorem productive_readLevels (table : PrecedenceTable) {operand : Parser (List Tree)}
    (hforward : Parser.Forward operand) (hoperand : Parser.Productive operand)
    (levels : List Int) : Parser.Productive (readLevels table operand levels) := by
  induction levels with
  | nil => exact hoperand
  | cons level tighter ih =>
      have htighter := forward_readLevels table hforward tighter
      exact Parser.Productive.andThen htighter
        (fun first => (forward_repeatWhile (forward_readOperation htighter)).map (joined first))
        (Or.inl ih)

/-! ## Rules -/

/-- Whether a production may make a node without any token. -/
def Nonterminal.mayBeEmpty : Nonterminal → Bool
  | .parameterList | .statements | .expressionList => true
  | _ => false

namespace Rule

/-- Whether a rule may succeed without taking a token. -/
def mayBeEmpty : Rule → Bool
  | empty => true
  | token _ _ | fail _ => false
  | call name | operators name => name.mayBeEmpty
  | seq first second => first.mayBeEmpty && second.mayBeEmpty
  | branch _ taken otherwise => taken.mayBeEmpty || otherwise.mayBeEmpty
  | many _ _ => true

/-- Whether a rule repeats nothing that may be empty. -/
def iterable : Rule → Bool
  | empty | token _ _ | fail _ | call _ | operators _ => true
  | seq first second => first.iterable && second.iterable
  | branch _ taken otherwise => taken.iterable && otherwise.iterable
  | many _ item => !item.mayBeEmpty && item.iterable

/-- Whether a rule reads no operators itself. -/
def isPlain : Rule → Bool
  | empty | token _ _ | fail _ | call _ => true
  | operators _ => false
  | seq first second => first.isPlain && second.isPlain
  | branch _ taken otherwise => taken.isPlain && otherwise.isPlain
  | many _ item => item.isPlain

end Rule

theorem mayBeEmpty_rule (name : Nonterminal) : name.rule.mayBeEmpty = name.mayBeEmpty := by
  cases name <;> rfl

theorem iterable_rule (name : Nonterminal) : name.rule.iterable = true := by
  cases name <;> rfl

theorem isPlain_rule {name : Nonterminal} (hname : name ≠ .expression) :
    name.rule.isPlain = true := by
  cases name <;> first | rfl | exact absurd rfl hname

/-- Readers of the productions that all go forward, and take a token where the
production cannot be empty. -/
structure Advancing (production : Nonterminal → Parser Tree) : Prop where
  forward : ∀ name, Parser.Forward (production name)
  productive : ∀ name, name.mayBeEmpty = false → Parser.Productive (production name)

section Rules

variable {table : PrecedenceTable} {production : Nonterminal → Parser Tree}

theorem Rule.forward_parse (hproduction : Advancing production) (rule : Rule) :
    Parser.Forward (rule.parse table production) := by
  induction rule with
  | empty => exact fun tokens => List.suffix_rfl
  | token terminal expected =>
      exact (forward_readToken terminal expected).map fun token => [Tree.leaf token]
  | fail expected => exact fun tokens => List.suffix_rfl
  | call name => exact (hproduction.forward name).map ([·])
  | operators name =>
      exact forward_readLevels table ((hproduction.forward name).map ([·])) table.levels
  | seq first second ihfirst ihsecond =>
      exact ihfirst.andThen fun trees => ihsecond.map (trees ++ ·)
  | branch guard taken otherwise ihtaken ihotherwise =>
      intro tokens
      unfold Rule.parse
      split
      · exact ihtaken tokens
      · exact ihotherwise tokens
  | many guard item ih => exact forward_repeatWhile ih

theorem Rule.productive_parse (hproduction : Advancing production) (rule : Rule)
    (hrule : rule.mayBeEmpty = false) : Parser.Productive (rule.parse table production) := by
  induction rule with
  | empty => simp [mayBeEmpty] at hrule
  | token terminal expected =>
      exact (productive_readToken terminal expected).map fun token => [Tree.leaf token]
  | fail expected =>
      intro token tokens value rest hread
      simp [Rule.parse] at hread
  | call name => exact (hproduction.productive name hrule).map ([·])
  | operators name =>
      exact productive_readLevels table ((hproduction.forward name).map ([·]))
        ((hproduction.productive name hrule).map ([·])) table.levels
  | seq first second ihfirst ihsecond =>
      simp only [mayBeEmpty, Bool.and_eq_false_iff] at hrule
      exact Parser.Productive.andThen (forward_parse hproduction first)
        (fun trees => (forward_parse hproduction second).map (trees ++ ·))
        (hrule.imp ihfirst fun hsecond trees => (ihsecond hsecond).map (trees ++ ·))
  | branch guard taken otherwise ihtaken ihotherwise =>
      simp only [mayBeEmpty, Bool.or_eq_false_iff] at hrule
      intro token tokens value rest hread
      unfold Rule.parse at hread
      split at hread
      · exact ihtaken hrule.1 token tokens value rest hread
      · exact ihotherwise hrule.2 token tokens value rest hread
  | many guard item ih => simp [mayBeEmpty] at hrule

end Rules

/-- Every production goes forward, within any call stack. -/
theorem Nonterminal.advancing_parse (table : PrecedenceTable) (stack : CallStack) :
    Advancing (Nonterminal.parse table stack) := by
  induction stack using CallStack.induction with
  | full stack hroom =>
      refine ⟨fun name tokens => ?_, fun name _ token tokens value rest hread => ?_⟩
      · rw [parse_of_full hroom]
        exact List.suffix_rfl
      · simp [parse_of_full hroom] at hread
  | call stack hroom ih =>
      have hinner : ∀ name : Nonterminal, Advancing (name.parseInner table stack) := fun name =>
        ⟨fun callee => (ih name callee).forward callee,
          fun callee => (ih name callee).productive callee⟩
      constructor
      · intro name
        rw [funext (parse_eq hroom table name)]
        exact (Rule.forward_parse (hinner name) name.rule).map _
      · intro name hname
        have hrule : name.rule.mayBeEmpty = false := (mayBeEmpty_rule name).trans hname
        rw [funext (parse_eq hroom table name)]
        exact (Rule.productive_parse (hinner name) name.rule hrule).map _

theorem Nonterminal.advancing_parseInner (table : PrecedenceTable) (stack : CallStack)
    (caller : Nonterminal) : Advancing (caller.parseInner table stack) :=
  ⟨fun callee => (advancing_parse table _).forward callee,
    fun callee => (advancing_parse table _).productive callee⟩

theorem forward_requireEnd (tree : Tree) : Parser.Forward (requireEnd tree) := by
  intro tokens
  cases tokens <;> exact List.suffix_rfl

theorem forward_parseProgram (table : PrecedenceTable) (stack : CallStack) :
    Parser.Forward (parseProgram table stack) :=
  ((Nonterminal.advancing_parse table stack.extended).forward .classDec).andThen
    forward_requireEnd

/-- A program is read when its class is, and nothing is left. -/
theorem parseProgram_eq_done_iff {table : PrecedenceTable} {stack : CallStack}
    {tokens rest : List Token} {tree : Tree} :
    parseProgram table stack tokens = .done tree rest ↔
      Nonterminal.classDec.parse table stack.extended tokens = .done tree [] ∧ rest = [] := by
  constructor
  · intro hread
    obtain ⟨read, left, hclass, hend⟩ := Outcome.andThen_eq_done_iff.mp hread
    cases left with
    | nil =>
        simp only [requireEnd, Outcome.done.injEq] at hend
        exact ⟨hend.1 ▸ hclass, hend.2.symm⟩
    | cons token left => simp [requireEnd] at hend
  · rintro ⟨hclass, rfl⟩
    simp [parseProgram, hclass, requireEnd]

end JackSyntax
