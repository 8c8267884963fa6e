import JackSyntax.Proofs.Operators.Climbing

/-!
# The depth of a reading

`Nonterminal.parse` stops where more calls are open than there is room for.  Two things are
shown about that stop.

* It is the only thing that the call stack changes.  A reading either goes too deep or has
  the outcome of the same reading with more room (`Outcome.Within`), and every way to put
  readers together keeps this (`Rule.within_parse`).  So it also has the outcome of readers
  that know no call stack at all (`Unlimited`), if there are such.
* It comes from a call.  `Rule.Calls` says which productions the reading of a rule comes to,
  and where: a repetition comes to its items one after the other (`ComesTo`), and a chain of
  operands to its operands.  A reading goes too deep if and only if one of the productions
  goes too deep that it comes to (`Nonterminal.exists_call`, `Nonterminal.tooDeep_of_call`).
-/

namespace JackSyntax

/-! ## The same outcome, or too deep -/

namespace Outcome

variable {α β : Type}

@[simp] theorem wentTooDeep_map (f : α → β) (outcome : Outcome α) :
    (outcome.map f).wentTooDeep = outcome.wentTooDeep := by
  cases outcome with
  | done value rest => rfl
  | stopped obstacle rest => cases obstacle <;> rfl

/-- A reading that goes too deep reads nothing more. -/
theorem andThen_of_tooDeep {outcome : Outcome α} (hdeep : outcome.wentTooDeep = true)
    (next : α → List Token → Outcome β) : (outcome.andThen next).wentTooDeep = true := by
  cases outcome with
  | done value rest => simp [wentTooDeep] at hdeep
  | stopped obstacle rest => cases obstacle <;> simp_all [wentTooDeep]

/-- Two readings in a row go too deep if the first does, or the second where the first one
ended. -/
theorem tooDeep_andThen {outcome : Outcome α} {next : α → List Token → Outcome β}
    (hdeep : (outcome.andThen next).wentTooDeep = true) :
    outcome.wentTooDeep = true ∨
      ∃ value rest, outcome = .done value rest ∧ (next value rest).wentTooDeep = true := by
  cases outcome with
  | done value rest => exact Or.inr ⟨value, rest, rfl, hdeep⟩
  | stopped obstacle rest => exact Or.inl (by cases obstacle <;> simp_all [wentTooDeep])

/-- An outcome under a limit, and the one with more room. -/
def Within (limited full : Outcome α) : Prop :=
  limited.wentTooDeep = true ∨ limited = full

theorem Within.eq {limited full : Outcome α} (hwithin : limited.Within full)
    (hdeep : limited.wentTooDeep = false) : limited = full :=
  hwithin.resolve_left (by simp [hdeep])

theorem Within.eq_done {limited full : Outcome α} (hwithin : limited.Within full) {value : α}
    {rest : List Token} (hdone : limited = .done value rest) : full = .done value rest :=
  (hwithin.eq (by rw [hdone]; rfl)).symm.trans hdone

theorem Within.map {limited full : Outcome α} (hwithin : limited.Within full) (f : α → β) :
    (limited.map f).Within (full.map f) :=
  hwithin.imp (by simp) (congrArg _)

theorem Within.andThen {limited full : Outcome α} {next next' : α → List Token → Outcome β}
    (hwithin : limited.Within full)
    (hnext : ∀ value rest, (next value rest).Within (next' value rest)) :
    (limited.andThen next).Within (full.andThen next') := by
  rcases hwithin with hdeep | rfl
  · exact Or.inl (andThen_of_tooDeep hdeep next)
  · cases limited with
    | done value rest => exact hnext value rest
    | stopped obstacle rest => exact Or.inr rfl

end Outcome

section Readers

variable {begins : Token → Bool} {item item' : Parser (List Tree)}

theorem within_repeatFrom (hitem : ∀ tokens, (item tokens).Within (item' tokens))
    (read : List Tree) (budget tokens : List Token) :
    (repeatFrom begins item read budget tokens).Within
      (repeatFrom begins item' read budget tokens) := by
  induction budget generalizing read tokens with
  | nil => exact Or.inr rfl
  | cons _ budget ih =>
      unfold repeatFrom
      split
      · exact (hitem tokens).andThen fun trees rest => ih (trees.reverse ++ read) rest
      · exact Or.inr rfl

theorem within_readOperation (hitem : ∀ tokens, (item tokens).Within (item' tokens))
    (tokens : List Token) : (readOperation item tokens).Within (readOperation item' tokens) := by
  cases tokens with
  | nil => exact Or.inr rfl
  | cons operator rest => exact (hitem rest).map _

theorem within_readLevels (table : PrecedenceTable)
    (hitem : ∀ tokens, (item tokens).Within (item' tokens)) (levels : List Int)
    (tokens : List Token) :
    (readLevels table item levels tokens).Within (readLevels table item' levels tokens) := by
  induction levels generalizing tokens with
  | nil => exact hitem tokens
  | cons level tighter ih =>
      refine (ih tokens).andThen fun first rest => Outcome.Within.map ?_ (joined first)
      exact within_repeatFrom (within_readOperation ih) [] rest rest

end Readers

/-- Readers of the productions that know no call stack: each reads by its rule, and what the
rule calls is read by these readers again. -/
def Unlimited (table : PrecedenceTable) (production : Nonterminal → Parser Tree) : Prop :=
  ∀ name tokens, production name tokens =
    (name.rule.parse table production tokens).map (Tree.node name.label)

section Limits

variable {table : PrecedenceTable} {production production' : Nonterminal → Parser Tree}

theorem Rule.within_parse
    (hproduction : ∀ name tokens, (production name tokens).Within (production' name tokens))
    (rule : Rule) (tokens : List Token) :
    (rule.parse table production tokens).Within (rule.parse table production' tokens) := by
  induction rule generalizing tokens with
  | empty | token terminal expected | fail expected => exact Or.inr rfl
  | call name => exact (hproduction name tokens).map ([·])
  | operators name =>
      exact within_readLevels table (fun tokens => (hproduction name tokens).map ([·]))
        table.levels tokens
  | seq first second ihfirst ihsecond =>
      exact (ihfirst tokens).andThen fun trees rest => (ihsecond rest).map (trees ++ ·)
  | branch guard taken otherwise ihtaken ihotherwise =>
      unfold Rule.parse
      split
      · exact ihtaken tokens
      · exact ihotherwise tokens
  | many guard item ih => exact within_repeatFrom ih [] tokens tokens

theorem Nonterminal.wentTooDeep_of_full {stack : CallStack} (hfull : stack.room = 0)
    (name : Nonterminal) (tokens : List Token) :
    (name.parse table stack tokens).wentTooDeep = true := by
  rw [parse_of_full hfull]
  rfl

/-- More room changes an outcome only where the reading went too deep. -/
theorem Nonterminal.within_parse {stack larger : CallStack} (hfits : stack.FitsIn larger)
    (name : Nonterminal) (tokens : List Token) :
    (name.parse table stack tokens).Within (name.parse table larger tokens) := by
  induction stack using CallStack.induction generalizing larger name tokens with
  | full stack hfull => exact Or.inl (wentTooDeep_of_full hfull name tokens)
  | call stack hroom ih =>
      have hinner : ∀ callee place, (name.parseInner table stack callee place).Within
          (name.parseInner table larger callee place) := fun callee place =>
        ih name callee (hfits.within name callee) callee place
      rw [parse_eq hroom, parse_eq (Nat.lt_of_lt_of_le hroom hfits.room_le)]
      exact (Rule.within_parse hinner name.rule tokens).map (Tree.node name.label)

/-- Whatever the call stack, a reading has the outcome of readers without one, or goes too
deep. -/
theorem Unlimited.within_parse (hunlimited : Unlimited table production) (stack : CallStack)
    (name : Nonterminal) (tokens : List Token) :
    (name.parse table stack tokens).Within (production name tokens) := by
  induction stack using CallStack.induction generalizing name tokens with
  | full stack hfull => exact Or.inl (Nonterminal.wentTooDeep_of_full hfull name tokens)
  | call stack hroom ih =>
      have hinner : ∀ callee place,
          (name.parseInner table stack callee place).Within (production callee place) :=
        fun callee place => ih name callee callee place
      rw [hunlimited name tokens, Nonterminal.parse_eq hroom]
      exact (Rule.within_parse hinner name.rule tokens).map (Tree.node name.label)

end Limits

/-! ## Calls -/

/-- A repetition comes to an item: to one that begins here, or after that to a later one. -/
inductive ComesTo (begins : Token → Bool) (item : Parser (List Tree)) :
    List Token → List Token → Prop
  | here {tokens : List Token} (hbegins : tokens.head?.any begins = true) :
      ComesTo begins item tokens tokens
  | later {tokens middle place : List Token} {trees : List Tree}
      (hbegins : tokens.head?.any begins = true) (hread : item tokens = .done trees middle)
      (hmore : ComesTo begins item middle place) : ComesTo begins item tokens place

/-- The reading of a rule comes to a production at a place, when the productions before it
are read by the given readers. -/
inductive Rule.Calls (table : PrecedenceTable) (production : Nonterminal → Parser Tree) :
    Rule → List Token → Nonterminal → List Token → Prop
  | call {name : Nonterminal} {tokens : List Token} :
      Calls table production (.call name) tokens name tokens
  | operand {name : Nonterminal} {tokens : List Token} :
      Calls table production (.operators name) tokens name tokens
  /-- An operand after an operator. -/
  | nextOperand {name : Nonterminal} {tokens rest place : List Token} {tree : Tree}
      {operator : Token} (hread : production name tokens = .done tree rest)
      (hcomes : ComesTo table.hasLevel (readLink (production name)) rest (operator :: place)) :
      Calls table production (.operators name) tokens name place
  | first {first second : Rule} {tokens place : List Token} {callee : Nonterminal}
      (hcalls : Calls table production first tokens callee place) :
      Calls table production (.seq first second) tokens callee place
  | second {first second : Rule} {tokens rest place : List Token} {trees : List Tree}
      {callee : Nonterminal} (hread : first.parse table production tokens = .done trees rest)
      (hcalls : Calls table production second rest callee place) :
      Calls table production (.seq first second) tokens callee place
  | taken {guard : Terminal} {taken otherwise : Rule} {tokens place : List Token}
      {callee : Nonterminal} (hguard : guard.acceptsNext tokens = true)
      (hcalls : Calls table production taken tokens callee place) :
      Calls table production (.branch guard taken otherwise) tokens callee place
  | otherwise {guard : Terminal} {taken otherwise : Rule} {tokens place : List Token}
      {callee : Nonterminal} (hguard : guard.acceptsNext tokens = false)
      (hcalls : Calls table production otherwise tokens callee place) :
      Calls table production (.branch guard taken otherwise) tokens callee place
  | item {guard : Terminal} {item : Rule} {tokens middle place : List Token}
      {callee : Nonterminal}
      (hcomes : ComesTo guard.accepts (item.parse table production) tokens middle)
      (hcalls : Calls table production item middle callee place) :
      Calls table production (.many guard item) tokens callee place

/-! ### A reading that goes too deep has a call that does -/

section Repetition

variable {begins : Token → Bool} {item item' : Parser (List Tree)}

theorem ComesTo.mono
    (hitem : ∀ tokens trees rest, item tokens = .done trees rest → item' tokens = .done trees rest)
    {tokens place : List Token} (hcomes : ComesTo begins item tokens place) :
    ComesTo begins item' tokens place := by
  induction hcomes with
  | here hbegins => exact .here hbegins
  | later hbegins hread _ ih => exact .later hbegins (hitem _ _ _ hread) ih

theorem exists_comesTo_of_tooDeep {read : List Tree} {budget tokens : List Token}
    (hdeep : (repeatFrom begins item read budget tokens).wentTooDeep = true) :
    ∃ place, ComesTo begins item tokens place ∧ (item place).wentTooDeep = true := by
  induction budget generalizing read tokens with
  | nil => simp [repeatFrom, Outcome.wentTooDeep] at hdeep
  | cons _ budget ih =>
      rw [repeatFrom] at hdeep
      split at hdeep
      · next hbegins =>
          rcases Outcome.tooDeep_andThen hdeep with hhere | ⟨trees, rest, hread, hlater⟩
          · exact ⟨tokens, .here hbegins, hhere⟩
          · obtain ⟨place, hcomes, hplace⟩ := ih hlater
            exact ⟨place, .later hbegins hread hcomes, hplace⟩
      · simp [Outcome.wentTooDeep] at hdeep

/-- A repetition under a limit goes too deep if an item does that it would come to without
the limit. -/
theorem ComesTo.tooDeep (hproductive : Parser.Productive item)
    (hwithin : ∀ tokens, (item tokens).Within (item' tokens)) {tokens place : List Token}
    (hcomes : ComesTo begins item' tokens place) (hdeep : (item place).wentTooDeep = true) :
    (repeatWhile begins item tokens).wentTooDeep = true := by
  induction hcomes with
  | here hbegins =>
      rw [repeatWhile_eq hproductive, if_pos hbegins]
      exact Outcome.andThen_of_tooDeep hdeep _
  | later hbegins hread _ ih =>
      rw [repeatWhile_eq hproductive, if_pos hbegins]
      rcases hwithin _ with hhere | hsame
      · exact Outcome.andThen_of_tooDeep hhere _
      · rw [hsame, hread, Outcome.andThen_done, Outcome.wentTooDeep_map]
        exact ih hdeep

end Repetition

section Calls

variable {table : PrecedenceTable} {production production' : Nonterminal → Parser Tree}

theorem Rule.exists_call {rule : Rule} (hplain : rule.isPlain = true) {tokens : List Token}
    (hdeep : (rule.parse table production tokens).wentTooDeep = true) :
    ∃ callee place, rule.Calls table production tokens callee place ∧
      (production callee place).wentTooDeep = true := by
  induction rule generalizing tokens with
  | empty | fail expected => simp [Rule.parse, Outcome.wentTooDeep] at hdeep
  | token terminal expected =>
      rw [Rule.parse, Outcome.wentTooDeep_map] at hdeep
      cases tokens with
      | nil => simp [readToken, Outcome.wentTooDeep] at hdeep
      | cons token tokens =>
          rw [readToken] at hdeep
          split at hdeep <;> simp [Outcome.wentTooDeep] at hdeep
  | call name => exact ⟨name, tokens, .call, by simpa [Rule.parse] using hdeep⟩
  | operators name => simp [isPlain] at hplain
  | seq first second ihfirst ihsecond =>
      rw [isPlain, Bool.and_eq_true] at hplain
      rcases Outcome.tooDeep_andThen hdeep with hfirst | ⟨trees, rest, hread, hsecond⟩
      · obtain ⟨callee, place, hcalls, hplace⟩ := ihfirst hplain.1 hfirst
        exact ⟨callee, place, .first hcalls, hplace⟩
      · obtain ⟨callee, place, hcalls, hplace⟩ := ihsecond hplain.2 (by simpa using hsecond)
        exact ⟨callee, place, .second hread hcalls, hplace⟩
  | branch guard taken otherwise ihtaken ihotherwise =>
      rw [isPlain, Bool.and_eq_true] at hplain
      rw [Rule.parse] at hdeep
      split at hdeep
      · next hguard =>
          obtain ⟨callee, place, hcalls, hplace⟩ := ihtaken hplain.1 hdeep
          exact ⟨callee, place, .taken hguard hcalls, hplace⟩
      · next hguard =>
          obtain ⟨callee, place, hcalls, hplace⟩ := ihotherwise hplain.2 hdeep
          exact ⟨callee, place, .otherwise (by simpa using hguard) hcalls, hplace⟩
  | many guard item ih =>
      obtain ⟨middle, hcomes, hmiddle⟩ := exists_comesTo_of_tooDeep hdeep
      obtain ⟨callee, place, hcalls, hplace⟩ := ih hplain hmiddle
      exact ⟨callee, place, .item hcomes hcalls, hplace⟩

theorem exists_operand_of_tooDeep {name : Nonterminal} {tokens : List Token}
    (hdeep : (readChain table.hasLevel (production name) tokens).wentTooDeep = true) :
    ∃ place, (Rule.operators name).Calls table production tokens name place ∧
      (production name place).wentTooDeep = true := by
  rcases Outcome.tooDeep_andThen hdeep with hfirst | ⟨tree, rest, hread, hmore⟩
  · exact ⟨tokens, .operand, hfirst⟩
  · rw [Outcome.wentTooDeep_map] at hmore
    obtain ⟨link, hcomes, hlink⟩ := exists_comesTo_of_tooDeep hmore
    cases link with
    | nil => simp [readLink, readOperation, Outcome.wentTooDeep] at hlink
    | cons operator place =>
        rw [readLink_cons, Outcome.wentTooDeep_map] at hlink
        exact ⟨place, .nextOperand hread hcomes, hlink⟩

/-! ### A call that goes too deep makes the reading do so -/

/-- Readers that read more come to the same places. -/
theorem Rule.Calls.mono
    (hwithin : ∀ name tokens, (production name tokens).Within (production' name tokens))
    {rule : Rule} {tokens place : List Token} {callee : Nonterminal}
    (hcalls : rule.Calls table production tokens callee place) :
    rule.Calls table production' tokens callee place := by
  have hdone := fun (rule : Rule) tokens trees rest
    (hread : rule.parse table production tokens = .done trees rest) =>
      (Rule.within_parse hwithin rule tokens).eq_done hread
  induction hcalls with
  | call => exact .call
  | operand => exact .operand
  | nextOperand hread hcomes =>
      refine .nextOperand ((hwithin _ _).eq_done hread)
        (hcomes.mono fun tokens trees rest hlink => ?_)
      exact (within_readOperation (fun tokens => (hwithin _ tokens).map ([·])) tokens).eq_done hlink
  | first _ ih => exact .first ih
  | second hread _ ih => exact .second (hdone _ _ _ _ hread) ih
  | taken hguard _ ih => exact .taken hguard ih
  | otherwise hguard _ ih => exact .otherwise hguard ih
  | item hcomes _ ih => exact .item (hcomes.mono (hdone _)) ih

theorem Rule.Calls.tooDeep (hadvancing : Advancing production)
    (hwithin : ∀ name tokens, (production name tokens).Within (production' name tokens))
    {rule : Rule} (hplain : rule.isPlain = true) (hiterable : rule.iterable = true)
    {tokens place : List Token} {callee : Nonterminal}
    (hcalls : rule.Calls table production' tokens callee place)
    (hdeep : (production callee place).wentTooDeep = true) :
    (rule.parse table production tokens).wentTooDeep = true := by
  induction hcalls with
  | call => simpa [Rule.parse] using hdeep
  | operand | nextOperand hread hcomes => simp [isPlain] at hplain
  | first _ ih =>
      rw [isPlain, Bool.and_eq_true] at hplain
      rw [iterable, Bool.and_eq_true] at hiterable
      exact Outcome.andThen_of_tooDeep (ih hplain.1 hiterable.1 hdeep) _
  | second hread _ ih =>
      rw [isPlain, Bool.and_eq_true] at hplain
      rw [iterable, Bool.and_eq_true] at hiterable
      rw [Rule.parse]
      -- under the limit the first part is read as without it, or goes too deep itself
      rcases Rule.within_parse hwithin _ _ with hfirst | hsame
      · exact Outcome.andThen_of_tooDeep hfirst _
      · rw [hsame, hread, Outcome.andThen_done, Outcome.wentTooDeep_map]
        exact ih hplain.2 hiterable.2 hdeep
  | taken hguard _ ih =>
      rw [isPlain, Bool.and_eq_true] at hplain
      rw [iterable, Bool.and_eq_true] at hiterable
      rw [Rule.parse, if_pos hguard]
      exact ih hplain.1 hiterable.1 hdeep
  | otherwise hguard _ ih =>
      rw [isPlain, Bool.and_eq_true] at hplain
      rw [iterable, Bool.and_eq_true] at hiterable
      rw [Rule.parse, if_neg (by simp [hguard])]
      exact ih hplain.2 hiterable.2 hdeep
  | item hcomes _ ih =>
      rw [iterable, Bool.and_eq_true, Bool.not_eq_true'] at hiterable
      exact hcomes.tooDeep (productive_parse hadvancing _ hiterable.1)
        (Rule.within_parse hwithin _) (ih hplain hiterable.2 hdeep)

theorem tooDeep_of_operand {name : Nonterminal} (hforward : Parser.Forward (production name))
    (hwithin : ∀ name tokens, (production name tokens).Within (production' name tokens))
    {tokens place : List Token} {callee : Nonterminal}
    (hcalls : (Rule.operators name).Calls table production' tokens callee place)
    (hdeep : (production callee place).wentTooDeep = true) :
    (readChain table.hasLevel (production name) tokens).wentTooDeep = true := by
  cases hcalls with
  | operand => exact Outcome.andThen_of_tooDeep hdeep _
  | nextOperand hread hcomes =>
      rw [readChain]
      rcases hwithin name tokens with hfirst | hsame
      · exact Outcome.andThen_of_tooDeep hfirst _
      · rw [hsame, hread, Outcome.andThen_done, Outcome.wentTooDeep_map]
        refine hcomes.tooDeep (productive_readLink hforward)
          (within_readOperation fun tokens => (hwithin name tokens).map ([·])) ?_
        rwa [readLink_cons, Outcome.wentTooDeep_map]

end Calls

namespace Nonterminal

variable {table : PrecedenceTable} {stack : CallStack} {name : Nonterminal}
  {tokens : List Token}

/-- Where a reading goes too deep for which there is room, a production does that it comes
to. -/
theorem exists_call (hroom : 0 < stack.room)
    (hdeep : (name.parse table stack tokens).wentTooDeep = true) :
    ∃ callee place,
      name.rule.Calls table (name.parseInner table stack) tokens callee place ∧
        (callee.parse table (stack.within name callee) place).wentTooDeep = true := by
  by_cases hname : name = .expression
  · subst hname
    rw [parse_expression_eq table hroom, Outcome.wentTooDeep_map] at hdeep
    obtain ⟨place, hcalls, hplace⟩ := exists_operand_of_tooDeep hdeep
    exact ⟨.term, place, hcalls, hplace⟩
  · rw [parse_eq hroom, Outcome.wentTooDeep_map] at hdeep
    exact Rule.exists_call (isPlain_rule hname) hdeep

/-- A reading goes too deep where a production does that it would come to without the
limit. -/
theorem tooDeep_of_call {production : Nonterminal → Parser Tree}
    (hunlimited : Unlimited table production) {callee : Nonterminal} {place : List Token}
    (hcalls : name.rule.Calls table production tokens callee place)
    (hdeep : (callee.parse table (stack.within name callee) place).wentTooDeep = true) :
    (name.parse table stack tokens).wentTooDeep = true := by
  rcases Nat.eq_zero_or_pos stack.room with hfull | hroom
  · exact wentTooDeep_of_full hfull name tokens
  have hadvancing := Nonterminal.advancing_parseInner table stack name
  have hwithin : ∀ callee place,
      (name.parseInner table stack callee place).Within (production callee place) :=
    fun callee place => hunlimited.within_parse _ callee place
  by_cases hname : name = .expression
  · subst hname
    rw [parse_expression_eq table hroom, Outcome.wentTooDeep_map]
    exact tooDeep_of_operand (hadvancing.forward .term) hwithin hcalls hdeep
  · rw [parse_eq hroom, Outcome.wentTooDeep_map]
    exact hcalls.tooDeep hadvancing hwithin (isPlain_rule hname) (iterable_rule name) hdeep

end Nonterminal

end JackSyntax
