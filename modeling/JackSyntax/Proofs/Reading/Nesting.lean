import JackSyntax.Analysis
import JackSyntax.Proofs.Reading.Calls

/-!
# The limit on nesting

There is room for so many calls while a program is read, and this limit has no other effect
than to stop sources that are nested deeply.

What is open at a place is a list of productions (`Opens`), each called by the one before
it, and with them the calls between them (`openCalls`).  A reading goes too deep exactly
where these are more than there is room for (`Nonterminal.wentTooDeep_iff`).  By the ranks of
the productions the list is no longer than a constant and three times the constructs that
are open (`Opens.length_lt`): calls that open none go down in rank, and what repeats is
called from the same production again.

The constructs can be counted in the source as well (`Opens.nestings_lt`).  Each of them is
opened by a bracket that is not closed before the place, or it is a unary operator, and then
the term after it begins with the next token.

The calls are not counted too high: parentheses and unary operators take all that are counted
for them, whatever comes after (`tooDeep_of_openings`).
-/

namespace JackSyntax

/-! ## Open productions -/

/-- The productions that are open within the first one at a place, from the outermost to the
innermost, when the first one is read from some tokens. -/
inductive Opens (table : PrecedenceTable) :
    Nonterminal → List Nonterminal → List Token → Prop
  | none (name : Nonterminal) (tokens : List Token) : Opens table name [] tokens
  | more {name callee : Nonterminal} {inner : List Nonterminal} {tokens place : List Token}
      (hcalls : name.rule.Calls table (Nonterminal.read table) tokens callee place)
      (hmore : Opens table callee inner place) : Opens table name (callee :: inner) tokens

/-- The constructs of the source that are open with some productions. -/
def nestings : Nonterminal → List Nonterminal → Nat
  | _, [] => 0
  | name, callee :: inner => nestings callee inner + (if name.nests callee then 1 else 0)

/-- The calls that are open with some productions: that of each, and those between them. -/
def openCalls (between : Nonterminal → Nonterminal → Nat) :
    Nonterminal → List Nonterminal → Nat
  | _, [] => 1
  | name, callee :: inner => 1 + between name callee + openCalls between callee inner

section Stacks

variable {table : PrecedenceTable} {stack : CallStack} {name : Nonterminal}
  {inner : List Nonterminal} {tokens : List Token}

theorem openCalls_pos (between : Nonterminal → Nonterminal → Nat) (name : Nonterminal)
    (inner : List Nonterminal) : 0 < openCalls between name inner := by
  cases inner <;> simp only [openCalls] <;> omega

/-- With so many calls at most between two productions, the open calls are bounded by the
open productions. -/
theorem CallStack.AtMostBetween.openCalls_le {most : Nat} (hmost : stack.AtMostBetween most)
    (name : Nonterminal) (inner : List Nonterminal) :
    openCalls stack.between name inner ≤ (most + 1) * (inner.length + 1) := by
  induction inner generalizing name with
  | nil => simp [openCalls]
  | cons callee inner ih =>
      have hbetween := hmost name callee
      have hinner := ih callee
      rw [openCalls, List.length_cons, Nat.mul_succ]
      omega

/-- A reading goes too deep where more calls are open than there is room for: those of the
production that is read, and of what is open within it. -/
theorem Nonterminal.wentTooDeep_iff :
    (name.parse table stack tokens).wentTooDeep = true ↔
      ∃ inner, Opens table name inner tokens ∧
        stack.room < openCalls stack.between name inner := by
  induction stack using CallStack.induction generalizing name tokens with
  | full stack hfull =>
      refine ⟨fun _ => ⟨[], .none name tokens, ?_⟩, fun _ => wentTooDeep_of_full hfull name tokens⟩
      rw [hfull]
      exact openCalls_pos _ _ _
  | call stack hroom ih =>
      constructor
      · intro hdeep
        obtain ⟨callee, place, hcalls, hplace⟩ := exists_call hroom hdeep
        obtain ⟨inner, hopens, hmore⟩ := (ih name callee).mp hplace
        have hless : stack.room - 1 - stack.between name callee <
            openCalls stack.between callee inner := hmore
        refine ⟨callee :: inner, .more (hcalls.mono fun _ => parse_within_read _ _) hopens, ?_⟩
        rw [openCalls]
        omega
      · rintro ⟨_, hopens, hmore⟩
        cases hopens with
        | none =>
            rw [openCalls] at hmore
            omega
        | @more _ callee inner _ place hcalls hinner =>
            have hpos := openCalls_pos stack.between callee inner
            have hless : stack.room - 1 - stack.between name callee <
                openCalls stack.between callee inner := by
              rw [openCalls] at hmore
              omega
            exact tooDeep_of_call unlimited_read hcalls
              ((ih name callee).mpr ⟨inner, hinner, hless⟩)

/-- Only what is nested adds to the open productions. -/
theorem Opens.length_lt (hopens : Opens table name inner tokens) :
    inner.length < name.rank + 3 * nestings name inner := by
  induction hopens with
  | none name tokens => simpa [nestings] using name.rank_pos
  | @more name callee inner tokens place hcalls hmore ih =>
      obtain ⟨hrank, -⟩ :=
        hcalls.rank_lt (Nonterminal.takes_read (Weighing.isSteady_count table))
      rw [List.length_cons, nestings]
      cases hnests : name.nests callee <;>
        simp only [hnests, Bool.false_eq_true, if_false, if_true] at hrank ⊢ <;> omega

/-- With the readers of a table, the calls that are open are bounded by the constructs of the
source that are open and by the levels of operators. -/
theorem Opens.openCalls_le (hopens : Opens table name inner tokens) :
    openCalls table.callsBetween name inner ≤
      (2 * table.levels.length + 2) * (name.rank + 3 * nestings name inner) :=
  calc openCalls table.callsBetween name inner
      ≤ (2 * table.levels.length + 2) * (inner.length + 1) :=
        (table.atMostBetween_callStack 0).openCalls_le name inner
    _ ≤ (2 * table.levels.length + 2) * (name.rank + 3 * nestings name inner) :=
        Nat.mul_le_mul_left _ hopens.length_lt

/-! ### Calls that are needed -/

/-- A parenthesis or a unary operator that a term may begin with. -/
def Token.opensTerm (token : Token) : Bool :=
  token.isSymbol ["("] || token.isSymbol Rule.unaryOperators

theorem Rule.Calls.of_parenthesis {production : Nonterminal → Parser Tree} {token : Token}
    (htoken : token.isSymbol ["("] = true) (tokens : List Token) :
    Nonterminal.term.rule.Calls table production (token :: tokens) .expression tokens := by
  obtain ⟨hkind, mark, hmark, hvalue⟩ := Token.isOneOf_eq_true_iff.mp htoken
  obtain ⟨kind, value, line, column⟩ := token
  obtain rfl : kind = .symbol := hkind
  obtain rfl : value = .text mark := hvalue
  obtain rfl := List.mem_singleton.mp hmark
  exact .otherwise rfl (.otherwise rfl (.otherwise rfl (.otherwise rfl
    (.taken rfl (.second rfl (.first .call))))))

theorem Rule.Calls.of_unary {production : Nonterminal → Parser Tree} {token : Token}
    (htoken : token.isSymbol Rule.unaryOperators = true) (tokens : List Token) :
    Nonterminal.term.rule.Calls table production (token :: tokens) .term tokens := by
  obtain ⟨hkind, mark, hmark, hvalue⟩ := Token.isOneOf_eq_true_iff.mp htoken
  obtain ⟨kind, value, line, column⟩ := token
  obtain rfl : kind = .symbol := hkind
  obtain rfl : value = .text mark := hvalue
  simp only [Rule.unaryOperators, List.mem_cons, List.not_mem_nil, or_false] at hmark
  rcases hmark with rfl | rfl <;>
    exact .otherwise rfl (.otherwise rfl (.otherwise rfl (.otherwise rfl (.otherwise rfl
      (.taken rfl (.second rfl .call))))))

theorem Token.isSymbol_unary_of_parenthesis {token : Token}
    (htoken : token.isSymbol ["("] = true) : token.isSymbol Rule.unaryOperators = false := by
  obtain ⟨-, mark, hmark, hvalue⟩ := Token.isOneOf_eq_true_iff.mp htoken
  obtain rfl := List.mem_singleton.mp hmark
  rw [Bool.eq_false_iff]
  intro hunary
  obtain ⟨-, other, hother, hsame⟩ := Token.isOneOf_eq_true_iff.mp hunary
  obtain rfl : "(" = other := TokenValue.text.inj (hvalue.symm.trans hsame)
  exact absurd hother (by decide)

/-- What is open in a term after some parentheses and unary operators, whatever comes next. -/
theorem Opens.exists_of_openings (table : PrecedenceTable) {opening : List Token}
    (hopening : ∀ token ∈ opening, token.opensTerm = true) (rest : List Token) :
    ∃ inner, Opens table .term inner (opening ++ rest) ∧
      openCalls table.callsBetween .term inner =
        (2 * table.levels.length + 2) * opening.countP (Token.isSymbol ["("]) +
          opening.countP (Token.isSymbol Rule.unaryOperators) + 1 := by
  induction opening with
  | nil => exact ⟨[], .none _ _, rfl⟩
  | cons token opening ih =>
      obtain ⟨inner, hopens, hcalls⟩ := ih fun other hother =>
        hopening other (List.mem_cons_of_mem token hother)
      by_cases htoken : token.isSymbol ["("] = true
      · -- a term, and an expression within its parentheses
        have hother := Token.isSymbol_unary_of_parenthesis htoken
        refine ⟨.expression :: .term :: inner,
          .more (.of_parenthesis htoken _) (.more .operand hopens), ?_⟩
        rw [openCalls, openCalls, hcalls, List.countP_cons_of_pos htoken,
          List.countP_cons_of_neg (by simp [hother]), Nat.mul_succ]
        simp only [PrecedenceTable.callsBetween]
        omega
      · -- a term that is the operand of another one
        have hunary := (Bool.or_eq_true_iff.mp
          (hopening token List.mem_cons_self)).resolve_left htoken
        refine ⟨.term :: inner, .more (.of_unary hunary _) hopens, ?_⟩
        rw [openCalls, hcalls, List.countP_cons_of_neg htoken, List.countP_cons_of_pos hunary]
        simp only [PrecedenceTable.callsBetween]
        omega

/-- An expression goes too deep that begins with more parentheses and unary operators than
there is room for, whatever comes after them.  Each parenthesis takes the calls of a term, of
an expression, and of all levels of operators between them. -/
theorem tooDeep_of_openings {opening : List Token} {room : Nat}
    (hopening : ∀ token ∈ opening, token.opensTerm = true) (rest : List Token)
    (hroom : room < (2 * table.levels.length + 2) * (opening.countP (Token.isSymbol ["("]) + 1) +
      opening.countP (Token.isSymbol Rule.unaryOperators)) :
    (Nonterminal.expression.parse table (table.callStack room) (opening ++ rest)).wentTooDeep =
      true := by
  obtain ⟨inner, hopens, hcalls⟩ := Opens.exists_of_openings table hopening rest
  refine Nonterminal.wentTooDeep_iff.mpr ⟨.term :: inner, .more .operand hopens, ?_⟩
  have hlevels : openCalls table.callsBetween .expression (.term :: inner) =
      1 + 2 * table.levels.length + openCalls table.callsBetween .term inner := rfl
  change room < openCalls table.callsBetween .expression (.term :: inner)
  rw [hlevels, hcalls]
  rw [Nat.mul_succ] at hroom
  omega

/-- The parentheses of `((1))` need just as much room as that. -/
example :
    let tokens : List Token :=
      [⟨.symbol, .text "(", 1, 1⟩, ⟨.symbol, .text "(", 1, 2⟩, ⟨.integerConstant, .integer 1, 1, 3⟩,
        ⟨.symbol, .text ")", 1, 4⟩, ⟨.symbol, .text ")", 1, 5⟩]
    let deep (room : Nat) : Bool := (Nonterminal.expression.parse .arithmetic
      (PrecedenceTable.arithmetic.callStack room) tokens).wentTooDeep
    deep 29 = true ∧ deep 30 = false := by decide

/-- The condition of a loop and the arguments of a subroutine take one call more. -/
example :
    let loop : List Token :=
      [⟨.keyword, .text "while", 1, 1⟩, ⟨.symbol, .text "(", 1, 6⟩,
        ⟨.integerConstant, .integer 1, 1, 7⟩, ⟨.symbol, .text ")", 1, 8⟩,
        ⟨.symbol, .text "\x7b", 1, 9⟩, ⟨.symbol, .text "\x7d", 1, 10⟩]
    let call : List Token :=
      [⟨.identifier, .text "f", 1, 1⟩, ⟨.symbol, .text "(", 1, 2⟩,
        ⟨.integerConstant, .integer 1, 1, 3⟩, ⟨.symbol, .text ")", 1, 4⟩]
    let deep (name : Nonterminal) (room : Nat) (tokens : List Token) : Bool :=
      (name.parse .flat (PrecedenceTable.flat.callStack room) tokens).wentTooDeep
    deep .whileStatement 5 loop = true ∧ deep .whileStatement 6 loop = false ∧
      deep .term 6 call = true ∧ deep .term 7 call = false := by decide

end Stacks

/-! ## Brackets -/

/-- Whether a token opens a pair of brackets. -/
def Token.opensBracket (token : Token) : Bool :=
  token.isSymbol ["(", "[", "\x7b"]

/-- Whether a token closes a pair of brackets. -/
def Token.closesBracket (token : Token) : Bool :=
  token.isSymbol [")", "]", "\x7d"]

/-- The most brackets that are open at a place: by how many the opening ones before it
outnumber the closing ones. -/
def bracketDepth : List Token → Nat
  | [] => 0
  | token :: tokens =>
      if token.opensBracket then bracketDepth tokens + 1
      else if token.closesBracket then bracketDepth tokens - 1
      else bracketDepth tokens

/-- The unary operators that come next. -/
def unaryAhead : List Token → Nat
  | [] => 0
  | token :: tokens => if token.isSymbol Rule.unaryOperators then unaryAhead tokens + 1 else 0

/-- The most unary operators in a row. -/
def unaryRun : List Token → Nat
  | [] => 0
  | token :: tokens => max (unaryAhead (token :: tokens)) (unaryRun tokens)

/-- What a token adds to the open brackets. -/
def Token.bracketWeight (token : Token) : Int :=
  if token.opensBracket then 1 else if token.closesBracket then -1 else 0

/-- What a token of a class adds to the open brackets at least. -/
def Terminal.bracketWeight : Terminal → Int
  | ofKind kind => if kind = .symbol then -1 else 0
  | keyword _ => 0
  | symbol marks =>
      if marks.all (["(", "[", "\x7b"].contains ·) then 1
      else if marks.any ([")", "]", "\x7d"].contains ·) then -1
      else 0
  | either first second => min first.bracketWeight second.bracketWeight

theorem Token.bracketWeight_of_kind {token : Token} (hkind : token.kind ≠ .symbol) :
    token.bracketWeight = 0 := by
  simp [bracketWeight, opensBracket, closesBracket, isSymbol, isOneOf, hkind]

theorem Token.neg_one_le_bracketWeight (token : Token) : -1 ≤ token.bracketWeight := by
  unfold bracketWeight
  split
  · decide
  · split <;> decide

theorem Terminal.bracketWeight_le (terminal : Terminal) (token : Token)
    (haccepts : terminal.accepts token = true) :
    terminal.bracketWeight ≤ token.bracketWeight := by
  induction terminal with
  | ofKind kind =>
      rw [accepts, decide_eq_true_eq] at haccepts
      rw [bracketWeight]
      split
      · exact token.neg_one_le_bracketWeight
      · next hkind =>
          exact Int.le_of_eq (Token.bracketWeight_of_kind (haccepts ▸ hkind)).symm
  | keyword words =>
      obtain ⟨hkind, -⟩ := Token.isOneOf_eq_true_iff.mp haccepts
      exact Int.le_of_eq (Token.bracketWeight_of_kind (by simp [hkind])).symm
  | symbol marks =>
      obtain ⟨hkind, mark, hmark, hvalue⟩ := Token.isOneOf_eq_true_iff.mp haccepts
      rw [bracketWeight]
      split
      · next hopening =>
          have hopens : token.opensBracket = true :=
            Token.isOneOf_eq_true_iff.mpr
              ⟨hkind, mark, by simpa using List.all_eq_true.mp hopening mark hmark, hvalue⟩
          exact Int.le_of_eq (if_pos hopens).symm
      split
      · exact token.neg_one_le_bracketWeight
      · next hclosing =>
          have hfree : token.closesBracket = false := by
            rw [Bool.eq_false_iff]
            intro hcloses
            obtain ⟨-, other, hother, hsame⟩ := Token.isOneOf_eq_true_iff.mp hcloses
            rw [hvalue, TokenValue.text.injEq] at hsame
            subst hsame
            exact hclosing (List.any_eq_true.mpr ⟨mark, hmark, by simpa using hother⟩)
          rw [Token.bracketWeight, hfree]
          split <;> decide
  | either first second ihfirst ihsecond =>
      rw [accepts, Bool.or_eq_true] at haccepts
      rw [bracketWeight]
      rcases haccepts with hfirst | hsecond
      · exact Int.le_trans (Int.min_le_left _ _) (ihfirst hfirst)
      · exact Int.le_trans (Int.min_le_right _ _) (ihsecond hsecond)

/-- Whether a table has no level for a symbol that closes a bracket. -/
def PrecedenceTable.SparesBrackets (table : PrecedenceTable) : Prop :=
  ∀ entry ∈ table.entries, entry.1 ∉ [")", "]", "\x7d"]

instance (table : PrecedenceTable) : Decidable table.SparesBrackets :=
  inferInstanceAs (Decidable (∀ entry ∈ table.entries, entry.1 ∉ [")", "]", "\x7d"]))

example : PrecedenceTable.arithmetic.SparesBrackets := by decide

theorem PrecedenceTable.SparesBrackets.closesBracket {table : PrecedenceTable}
    (htable : table.SparesBrackets) {token : Token} (hlevel : table.hasLevel token = true) :
    token.closesBracket = false := by
  rw [Bool.eq_false_iff]
  intro hcloses
  obtain ⟨hkind, mark, hmark, hvalue⟩ := Token.isOneOf_eq_true_iff.mp hcloses
  obtain ⟨level, hlevel⟩ := PrecedenceTable.hasLevel_iff.mp hlevel
  simp only [level?, hkind, hvalue, levelOf?] at hlevel
  obtain ⟨before, after, hentries, -⟩ := List.lookup_eq_some_iff.mp hlevel
  exact htable (mark, level) (by simp [hentries]) hmark

/-- Every token weighs what it adds to the open brackets. -/
def Weighing.brackets {table : PrecedenceTable} (htable : table.SparesBrackets) :
    Weighing table where
  token := Token.bracketWeight
  terminal := Terminal.bracketWeight
  terminal_le := Terminal.bracketWeight_le
  operator_nonneg one hone := by
    rw [Token.bracketWeight, htable.closesBracket hone]
    split <;> decide

theorem Weighing.isSteady_brackets {table : PrecedenceTable} (htable : table.SparesBrackets) :
    (brackets htable).IsSteady := by
  have hsteady : ∀ name : Nonterminal, name.rule.isSteady Terminal.bracketWeight = true ∧
      0 ≤ name.rule.gain Terminal.bracketWeight := by
    intro name
    cases name <;> decide
  exact hsteady

/-- No call is made with a bracket closed that was open before the caller, and a call that
opens a construct is made after a bracket, unless it is that of an operand. -/
theorem Nonterminal.brackets_of_mem_callSites : ∀ (name : Nonterminal),
    ∀ site ∈ name.rule.callSites Terminal.bracketWeight 0,
      (if name.nests site.1 && site.1 != .term then 1 else 0) ≤ site.2 := by
  intro name
  cases name <;> decide

/-- Brackets that are opened before a place add to those that are open later. -/
theorem bracketDepth_of_takesTo {table : PrecedenceTable} {htable : table.SparesBrackets}
    {least : Int} {tokens place : List Token}
    (htakes : (Weighing.brackets htable).TakesTo least tokens place) :
    least + bracketDepth place ≤ bracketDepth tokens := by
  obtain ⟨taken, rfl, hleast⟩ := htakes
  suffices hall : (Weighing.brackets htable).total taken + bracketDepth place ≤
      bracketDepth (taken ++ place) by omega
  clear hleast
  induction taken with
  | nil => simp
  | cons token taken ih =>
      have htoken : (Weighing.brackets htable).token token = token.bracketWeight := rfl
      rw [Weighing.total_cons, htoken, Token.bracketWeight, List.cons_append, bracketDepth]
      split
      · omega
      · split <;> omega

/-! ## Unary operators -/

theorem unaryAhead_le_unaryRun (tokens : List Token) : unaryAhead tokens ≤ unaryRun tokens := by
  cases tokens with
  | nil => exact Nat.le_refl 0
  | cons token tokens => exact Nat.le_max_left _ _

theorem unaryRun_le_of_suffix {tokens place : List Token} (hplace : place <:+ tokens) :
    unaryRun place ≤ unaryRun tokens := by
  obtain ⟨taken, rfl⟩ := hplace
  induction taken with
  | nil => exact Nat.le_refl _
  | cons token taken ih => exact Nat.le_trans ih (Nat.le_max_right _ _)

section Unary

variable {table : PrecedenceTable} {production : Nonterminal → Parser Tree}
  {tokens place : List Token} {callee : Nonterminal}

/-- A choice makes the calls of one of its branches. -/
theorem Rule.Calls.of_choice {branches : List (Terminal × Rule)} {otherwise : Rule}
    (hcalls : (Rule.choice branches otherwise).Calls table production tokens callee place) :
    (∃ entry ∈ branches, entry.2.Calls table production tokens callee place) ∨
      otherwise.Calls table production tokens callee place := by
  induction branches with
  | nil => exact Or.inr hcalls
  | cons entry branches ih =>
      cases hcalls with
      | taken hguard htaken => exact Or.inl ⟨entry, List.mem_cons_self, htaken⟩
      | otherwise hguard hother =>
          refine (ih hother).imp_left ?_
          rintro ⟨later, hlater, hcalls⟩
          exact ⟨later, List.mem_cons_of_mem entry hlater, hcalls⟩

/-- A term that is called by a term is the operand of a unary operator. -/
theorem Rule.Calls.of_term
    (hproduction : ∀ name, (Weighing.count table).Takes 0 (production name))
    (hcalls : Nonterminal.term.rule.Calls table production tokens .term place) :
    ∃ operator, operator.isSymbol Rule.unaryOperators = true ∧ tokens = operator :: place := by
  have hsite : ∀ {rule : Rule}, rule.isSteady (fun _ => 1) = true →
      rule.Calls table production tokens .term place →
        Nonterminal.term ∈ (rule.callSites (fun _ => 1) 0).map Prod.fst := by
    intro rule hsteady hcalls
    obtain ⟨least, hsite, -⟩ := hcalls.exists_site hproduction hsteady 0
    exact List.mem_map.mpr ⟨_, hsite, rfl⟩
  rcases hcalls.of_choice with ⟨entry, hentry, hcalls⟩ | hfail
  · simp only [List.mem_cons, List.not_mem_nil, or_false] at hentry
    rcases hentry with rfl | rfl | rfl | rfl | rfl | rfl
    case inr.inr.inr.inr.inr =>
      cases hcalls with
      | first hoperator => cases hoperator
      | second hread hoperand =>
          obtain ⟨operator, htoken, -⟩ := Outcome.map_eq_done_iff.mp hread
          obtain ⟨haccepts, rfl⟩ := readToken_eq_done_iff.mp htoken
          cases hoperand
          exact ⟨operator, haccepts, rfl⟩
    -- no other branch calls a term
    all_goals exact absurd (hsite (by decide) hcalls) (by decide)
  · cases hfail

end Unary

/-! ## Constructs in the source -/

theorem Nonterminal.eq_term_of_nests {name : Nonterminal} (hnests : name.nests .term = true) :
    name = .term := by
  cases name <;> first | rfl | simp [nests] at hnests

section Constructs

variable {table : PrecedenceTable} {name : Nonterminal} {inner : List Nonterminal}
  {tokens : List Token}

/-- Unary operators next to each other are counted from the term that they stand before. -/
theorem Opens.nestings_le_ahead (htable : table.SparesBrackets) {run : Nat}
    (hopens : Opens table name inner tokens) (hrun : unaryRun tokens ≤ run) :
    nestings name inner ≤
      (if name = .term then unaryAhead tokens else run) + bracketDepth tokens * (run + 1) := by
  induction hopens with
  | none name tokens => simp [nestings]
  | @more name callee inner tokens place hcalls hmore ih =>
      obtain ⟨hsteady, -⟩ := Weighing.isSteady_brackets htable name
      obtain ⟨least, hsite, htakes⟩ :=
        hcalls.exists_site (Nonterminal.takes_read (Weighing.isSteady_brackets htable)) hsteady 0
      have hleast := name.brackets_of_mem_callSites _ hsite
      have hdepth := bracketDepth_of_takesTo htakes
      have hplace : place <:+ tokens := by
        obtain ⟨taken, htaken, -⟩ := htakes
        exact ⟨taken, htaken.symm⟩
      have hbelow : unaryRun place ≤ run := Nat.le_trans (unaryRun_le_of_suffix hplace) hrun
      have hahead := Nat.le_trans (unaryAhead_le_unaryRun place) hbelow
      have hinner := ih hbelow
      rw [nestings]
      cases hnests : name.nests callee with
      | false =>
          have hname : name ≠ .term := by
            rintro rfl
            simp [Nonterminal.nests] at hnests
          have hless : bracketDepth place ≤ bracketDepth tokens := by
            simp only [hnests, Bool.false_and, Bool.false_eq_true, if_false] at hleast
            omega
          have hproduct := Nat.mul_le_mul_right (run + 1) hless
          rw [if_neg hname]
          split at hinner <;> simp only [Bool.false_eq_true, if_false] <;> omega
      | true =>
          by_cases hcallee : callee = .term
          · -- a unary operator and its operand
            subst hcallee
            obtain rfl := Nonterminal.eq_term_of_nests hnests
            obtain ⟨operator, hoperator, rfl⟩ :=
              hcalls.of_term (Nonterminal.takes_read (Weighing.isSteady_count table))
            have hless : bracketDepth place ≤ bracketDepth (operator :: place) := by
              simp only [bne_self_eq_false, Bool.and_false, Bool.false_eq_true, if_false] at hleast
              omega
            have hproduct := Nat.mul_le_mul_right (run + 1) hless
            simp only [if_true, unaryAhead, hoperator] at hinner ⊢
            omega
          · -- a bracket stands before the callee
            have hless : bracketDepth place + 1 ≤ bracketDepth tokens := by
              simp only [hnests, bne_iff_ne, ne_eq, hcallee, not_false_eq_true, Bool.true_and,
                if_true] at hleast
              omega
            have hproduct := Nat.mul_le_mul_right (run + 1) hless
            rw [Nat.succ_mul] at hproduct
            rw [if_neg hcallee] at hinner
            simp only [if_true]
            omega

/-- The constructs that are open at a place are at most as many as the brackets that are open
there, with as many unary operators before each of them, and after the last one, as there
are in a row. -/
theorem Opens.nestings_lt (htable : table.SparesBrackets)
    (hopens : Opens table name inner tokens) :
    nestings name inner < (bracketDepth tokens + 1) * (unaryRun tokens + 1) := by
  have hbound := hopens.nestings_le_ahead htable (Nat.le_refl _)
  have hahead := unaryAhead_le_unaryRun tokens
  rw [Nat.succ_mul]
  split at hbound <;> omega

end Constructs

/-! ## The main result -/

/-- Reads one class, without a limit, and requires the input to end after it. -/
def readProgram (table : PrecedenceTable) : Parser Tree :=
  fun tokens => (Nonterminal.classDec.read table tokens).andThen requireEnd

section Program

variable {table : PrecedenceTable} {stack : CallStack} {tokens : List Token}

theorem wentTooDeep_andThen_requireEnd (outcome : Outcome Tree) :
    (outcome.andThen requireEnd).wentTooDeep = outcome.wentTooDeep := by
  cases outcome with
  | done tree rest => cases rest <;> rfl
  | stopped obstacle rest => rfl

theorem parseProgram_within {larger : CallStack} (hfits : stack.FitsIn larger)
    (tokens : List Token) :
    (parseProgram table stack tokens).Within (parseProgram table larger tokens) :=
  (Nonterminal.within_parse hfits.extended .classDec tokens).andThen fun _ _ => Or.inr rfl

theorem parseProgram_within_read (stack : CallStack) (tokens : List Token) :
    (parseProgram table stack tokens).Within (readProgram table tokens) :=
  (Nonterminal.parse_within_read stack.extended .classDec tokens).andThen fun _ _ => Or.inr rfl

/-- There is always room for the class, so a program goes too deep where more calls are open
within it than there is room for. -/
theorem wentTooDeep_parseProgram_iff :
    (parseProgram table stack tokens).wentTooDeep = true ↔
      ∃ inner, Opens table .classDec inner tokens ∧
        stack.room + 1 < openCalls stack.between .classDec inner := by
  rw [parseProgram, wentTooDeep_andThen_requireEnd, Nonterminal.wentTooDeep_iff]
  rfl

/-- Without tokens nothing is nested. -/
theorem not_tooDeep_nil (table : PrecedenceTable) (stack : CallStack) :
    (parseProgram table stack []).wentTooDeep = false := by
  rw [parseProgram, wentTooDeep_andThen_requireEnd,
    Nonterminal.parse_eq (Nat.succ_pos stack.room), Outcome.wentTooDeep_map]
  rfl

/-- An error of excessive nesting is always at a token: the next one, or the last one at the
end of the input. -/
theorem exists_place_of_tooDeep {error : SyntaxError}
    (hread : ((Cursor.ofTokens tokens).read (parseProgram table stack)).1 = .error error)
    (hdeep : error.obstacle = .tooDeep) :
    ∃ token, error.found?.or tokens.getLast? = some token ∧
      error.line = token.line ∧ error.column = token.column := by
  obtain ⟨last, hlast⟩ : ∃ last, tokens.getLast? = some last := by
    cases tokens with
    | nil => cases hread; cases hdeep
    | cons first tokens => exact ⟨_, List.getLast?_cons⟩
  unfold Cursor.read at hread
  split at hread
  · cases hread
  · next obstacle rest hstopped =>
      obtain rfl := Except.error.inj hread
      rw [Cursor.last?_eq, Cursor.tokens_ofTokens, hlast] at hdeep ⊢
      cases rest with
      | nil => exact ⟨last, rfl, rfl, rfl⟩
      | cons token rest => exact ⟨token, rfl, rfl, rfl⟩

/-- A reading that goes too deep ends with the error of excessive nesting. -/
theorem exists_error_of_tooDeep (cursor : Cursor) {parser : Parser Tree}
    (hdeep : (parser cursor.ahead).wentTooDeep = true) :
    ∃ error, (cursor.read parser).1 = .error error ∧ error.obstacle = .tooDeep := by
  unfold Cursor.read
  cases hread : parser cursor.ahead with
  | done tree rest => simp [hread, Outcome.wentTooDeep] at hdeep
  | stopped obstacle rest =>
      obtain rfl : obstacle = .tooDeep := by
        cases obstacle <;> simp_all [Outcome.wentTooDeep]
      refine ⟨_, rfl, ?_⟩
      unfold SyntaxError.before
      split <;> rfl

/-- The analysis of a source is the same with more room, unless it says that the source is
nested too deeply. -/
theorem analyze_of_larger {room larger : Nat} (hroom : room ≤ larger)
    {entries : List (String × Int)} {source : String}
    (hshallow : ∀ error, analyze room entries source = .error (.grammatical error) →
      error.obstacle ≠ .tooDeep) :
    analyze larger entries source = analyze room entries source := by
  unfold analyze at hshallow ⊢
  cases hprepare : prepare entries source with
  | error error => rfl
  | ok prepared =>
      obtain ⟨table, tokens⟩ := prepared
      simp only [hprepare] at hshallow ⊢
      have hwithin : (parseProgram table (table.callStack room) tokens).Within
          (parseProgram table (table.callStack larger) tokens) :=
        parseProgram_within (table.fitsIn_callStack hroom) tokens
      rcases hwithin with hdeep | hsame
      · obtain ⟨error, hread, hobstacle⟩ := exists_error_of_tooDeep (.ofTokens tokens) hdeep
        exact absurd hobstacle (hshallow error (by rw [parseTokens, hread]; rfl))
      · rw [parseTokens, parseTokens, Cursor.read_congr hsame.symm]

end Program

end JackSyntax
