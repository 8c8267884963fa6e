import JackSyntax.Grammar.CallStack
import JackSyntax.Grammar.Jack
import JackSyntax.Grammar.Outcome
import JackSyntax.Tree.Basic

/-!
# Reading tokens by the grammar

`Rule.parse` reads tokens by a rule and collects the trees it makes;
`Nonterminal.parse` makes a node of them.  No decision needs more than the next token,
and none is ever taken back.

Productions contain each other, so reading is bounded by a call stack: a production leaves
to those it calls what its own call, and the calls on the way to them, do not take, and none
is read without room for its call.  Everything that repeats, such as operands, arguments and
statements, is called from the same production again.

## Operators

Operands and operators are read level by level (`readLevels`): the operands of a level
are what the tighter levels read.  Where a level reads no operator, it leaves what the
tighter ones have read as it is.  Where it reads one, an operand that has operators of
its own becomes a group, a term that holds an expression.
-/

namespace JackSyntax

/-- What reads some tokens. -/
abbrev Parser (α : Type) := List Token → Outcome α

/-- Reads one token of a class. -/
def readToken (terminal : Terminal) (expected : Expected) : Parser Token
  | [] => .stopped (.unexpected expected) []
  | token :: rest =>
      if terminal.accepts token then .done token rest
      else .stopped (.unexpected expected) (token :: rest)

/-! ## Repetition -/

/-- Reads items as long as the next token lets one begin, after the trees already read
(last one first).  There are at most as many items as the budget has entries. -/
def repeatFrom (begins : Token → Bool) (item : Parser (List Tree)) (read : List Tree) :
    List Token → Parser (List Tree)
  | [], tokens => .done read.reverse tokens
  | _ :: budget, tokens =>
      if tokens.head?.any begins then
        (item tokens).andThen fun trees rest =>
          repeatFrom begins item (trees.reverse ++ read) budget rest
      else .done read.reverse tokens

/-- Reads items as long as the next token lets one begin.  Each item takes a token at
least, so there are no more items than tokens. -/
def repeatWhile (begins : Token → Bool) (item : Parser (List Tree)) : Parser (List Tree) :=
  fun tokens => repeatFrom begins item [] tokens tokens

/-- The trees already read come first and change nothing else. -/
theorem repeatFrom_eq (begins : Token → Bool) (item : Parser (List Tree))
    (read : List Tree) (budget tokens : List Token) :
    repeatFrom begins item read budget tokens =
      (repeatFrom begins item [] budget tokens).map (read.reverse ++ ·) := by
  induction budget generalizing read tokens with
  | nil => simp [repeatFrom]
  | cons _ budget ih =>
      unfold repeatFrom
      split
      · cases item tokens with
        | stopped obstacle rest => rfl
        | done trees rest =>
            rw [Outcome.andThen_done, Outcome.andThen_done, ih,
              ih (trees.reverse ++ [])]
            cases repeatFrom begins item [] budget rest <;> simp
      · simp

/-! ## Operators -/

/-- Operands and operators as one operand: an operand alone is itself, and more of them
become a group. -/
def grouped (items : List Tree) : List Tree :=
  match items with
  | [item] => [item]
  | items => [.node Nonterminal.term.label [.node Nonterminal.expression.label items]]

/-- What was read before and after the first operator of a level. -/
def joined (first more : List Tree) : List Tree :=
  if more.isEmpty then first else grouped first ++ more

/-- Whether a token is an operator of a level. -/
def PrecedenceTable.isOperator (table : PrecedenceTable) (level : Int) (token : Token) : Bool :=
  table.level? token = some level

/-- Takes the next token as an operator, and an operand after it. -/
def readOperation (operand : Parser (List Tree)) : Parser (List Tree)
  | [] => .done [] []
  | operator :: rest => (operand rest).map fun items => .leaf operator :: grouped items

/-- Reads operands and the operators of some levels, given from the loosest to the
tightest. -/
def readLevels (table : PrecedenceTable) (operand : Parser (List Tree)) :
    List Int → Parser (List Tree)
  | [] => operand
  | level :: tighter => fun tokens =>
      (readLevels table operand tighter tokens).andThen fun first rest =>
        (repeatWhile (table.isOperator level)
          (readOperation (readLevels table operand tighter)) rest).map (joined first)

/-! ## Rules and productions -/

/-- Reads tokens by a rule, given a way to read the productions it calls. -/
def Rule.parse (table : PrecedenceTable) (production : Nonterminal → Parser Tree) :
    Rule → Parser (List Tree)
  | .empty, tokens => .done [] tokens
  | .token terminal expected, tokens =>
      (readToken terminal expected tokens).map fun token => [.leaf token]
  | .fail expected, tokens => .stopped (.unexpected expected) tokens
  | .call name, tokens => (production name tokens).map ([·])
  | .operators name, tokens =>
      readLevels table (fun tokens => (production name tokens).map ([·])) table.levels tokens
  | .seq first second, tokens =>
      (first.parse table production tokens).andThen fun trees rest =>
        (second.parse table production rest).map (trees ++ ·)
  | .branch guard taken otherwise, tokens =>
      if guard.acceptsNext tokens then taken.parse table production tokens
      else otherwise.parse table production tokens
  | .many guard item, tokens => repeatWhile guard.accepts (item.parse table production) tokens

/-- Reads a production within the room for some calls, after so many of them have been made
on the way to it. -/
def Nonterminal.parseAfter (table : PrecedenceTable)
    (between : Nonterminal → Nonterminal → Nat) : Nat → Nat → Nonterminal → Parser Tree
  | 0, _, _, tokens => .stopped .tooDeep tokens
  | room + 1, calls + 1, name, tokens => parseAfter table between room calls name tokens
  | room + 1, 0, name, tokens =>
      (name.rule.parse table
        (fun callee => parseAfter table between room (between name callee) callee) tokens).map
          (Tree.node name.label)

/-- Reads a production within a call stack. -/
def Nonterminal.parse (table : PrecedenceTable) (stack : CallStack) (name : Nonterminal) :
    Parser Tree :=
  name.parseAfter table stack.between stack.room 0

/-- Reads the productions that one production calls. -/
def Nonterminal.parseInner (table : PrecedenceTable) (stack : CallStack)
    (caller callee : Nonterminal) : Parser Tree :=
  callee.parse table (stack.within caller callee)

/-- The calls on the way to a production leave less room for it. -/
theorem Nonterminal.parseAfter_eq (table : PrecedenceTable)
    (between : Nonterminal → Nonterminal → Nat) (room calls : Nat) (name : Nonterminal) :
    name.parseAfter table between room calls = name.parse table ⟨room - calls, between⟩ := by
  induction room generalizing calls with
  | zero =>
      rw [Nat.zero_sub]
      funext tokens
      cases calls <;> rfl
  | succ room ih =>
      cases calls with
      | zero => rfl
      | succ calls =>
          rw [Nat.succ_sub_succ, ← ih]
          rfl

/-- Without room for its call, no production is read. -/
theorem Nonterminal.parse_of_full {stack : CallStack} (hroom : stack.room = 0)
    (table : PrecedenceTable) (name : Nonterminal) (tokens : List Token) :
    name.parse table stack tokens = .stopped .tooDeep tokens := by
  rw [Nonterminal.parse, hroom]
  rfl

/-- A production is read by its rule. -/
theorem Nonterminal.parse_eq {stack : CallStack} (hroom : 0 < stack.room)
    (table : PrecedenceTable) (name : Nonterminal) (tokens : List Token) :
    name.parse table stack tokens =
      (name.rule.parse table (name.parseInner table stack) tokens).map
        (Tree.node name.label) := by
  obtain ⟨room, between⟩ := stack
  obtain ⟨room, rfl⟩ := Nat.exists_eq_succ_of_ne_zero (Nat.ne_of_gt hroom)
  have hinner : (fun callee => callee.parseAfter table between room (between name callee)) =
      name.parseInner table ⟨room + 1, between⟩ := by
    funext callee
    exact callee.parseAfter_eq table between room (between name callee)
  rw [← hinner]
  rfl

theorem Nonterminal.parse_eq_done_iff {table : PrecedenceTable} {stack : CallStack}
    {name : Nonterminal} {tokens rest : List Token} {tree : Tree} :
    name.parse table stack tokens = .done tree rest ↔
      0 < stack.room ∧ ∃ children,
        name.rule.parse table (name.parseInner table stack) tokens = .done children rest ∧
          .node name.label children = tree := by
  rcases Nat.eq_zero_or_pos stack.room with hzero | hpos
  · simp [parse_of_full hzero, hzero]
  · rw [parse_eq hpos, Outcome.map_eq_done_iff, and_iff_right hpos]

/-- Requires that no token is left. -/
def requireEnd (tree : Tree) : Parser Tree
  | [] => .done tree []
  | token :: rest => .stopped (.unexpected (.oneOf [.endOfInput])) (token :: rest)

/-- Reads one class and requires the input to end after it.  The stack is what there is room
for within the class. -/
def parseProgram (table : PrecedenceTable) (stack : CallStack) : Parser Tree :=
  fun tokens => (Nonterminal.classDec.parse table stack.extended tokens).andThen requireEnd

end JackSyntax
