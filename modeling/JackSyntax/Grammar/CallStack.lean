import JackSyntax.Grammar.Precedence
import JackSyntax.Grammar.Rule

/-!
# Call stacks

Productions contain each other, so to read one is to make calls within calls, and there is
room for so many of them only.  A call is that of a production, or one on the way from a
production to one that it contains: some productions leave parts of their rules to calls of
their own.  `PrecedenceTable.callStack` counts those of the readers of a table.

Calls that only look at the next token, take it, or add to a node are over before the next
one is made.  They are not counted: a stack is what there is room for beside them.
-/

namespace JackSyntax

/-- The room for calls within each other. -/
structure CallStack where
  /-- How many calls may be open. -/
  room : Nat
  /-- How many calls are made between that of a production and that of one it contains. -/
  between : Nonterminal → Nonterminal → Nat

namespace CallStack

/-- What one production leaves to another one that it contains. -/
def within (stack : CallStack) (caller callee : Nonterminal) : CallStack :=
  { stack with room := stack.room - 1 - stack.between caller callee }

/-- The stack with room for one more call. -/
def extended (stack : CallStack) : CallStack :=
  { stack with room := stack.room + 1 }

/-- The stack with room for some productions within each other, whatever calls are between
them. -/
def ofProductions (count : Nat) : CallStack :=
  ⟨count, fun _ _ => 0⟩

/-- Where no calls are between them, a production leaves room for all but itself. -/
theorem within_ofProductions (count : Nat) (caller callee : Nonterminal) :
    (ofProductions (count + 1)).within caller callee = ofProductions count := rfl

theorem within_room_lt {stack : CallStack} (hroom : 0 < stack.room)
    (caller callee : Nonterminal) : (stack.within caller callee).room < stack.room := by
  simp only [within]
  omega

/-- Whether there is room in a larger stack for all that there is room for in a stack. -/
structure FitsIn (stack larger : CallStack) : Prop where
  room_le : stack.room ≤ larger.room
  between_le : ∀ caller callee, larger.between caller callee ≤ stack.between caller callee

theorem FitsIn.within {stack larger : CallStack} (hfits : stack.FitsIn larger)
    (caller callee : Nonterminal) :
    (stack.within caller callee).FitsIn (larger.within caller callee) where
  room_le := by
    have hroom := hfits.room_le
    have hbetween := hfits.between_le caller callee
    simp only [CallStack.within]
    omega
  between_le := hfits.between_le

theorem FitsIn.extended {stack larger : CallStack} (hfits : stack.FitsIn larger) :
    stack.extended.FitsIn larger.extended :=
  ⟨Nat.succ_le_succ hfits.room_le, hfits.between_le⟩

/-- Whether there are never more calls than so many between two productions. -/
def AtMostBetween (stack : CallStack) (most : Nat) : Prop :=
  ∀ caller callee, stack.between caller callee ≤ most

/-- What holds of a stack without room, and of a stack if it holds of what its productions
leave to those that they contain, holds of every stack. -/
@[elab_as_elim]
theorem induction {motive : CallStack → Prop} (stack : CallStack)
    (full : ∀ stack, stack.room = 0 → motive stack)
    (call : ∀ stack, 0 < stack.room → (∀ caller callee, motive (stack.within caller callee)) →
      motive stack) : motive stack := by
  generalize hroom : stack.room = room
  induction room using Nat.strongRecOn generalizing stack with
  | ind room ih =>
      subst hroom
      rcases Nat.eq_zero_or_pos stack.room with hzero | hpos
      · exact full stack hzero
      · exact call stack hpos fun caller callee =>
          ih _ (within_room_lt hpos caller callee) _ rfl

end CallStack

/-- How many calls the readers of a table make between that of a production and that of one
it contains: two for each level of operators in an expression, one for the condition and one
for the block of a statement, and one for the arguments of a subroutine. -/
def PrecedenceTable.callsBetween (table : PrecedenceTable) :
    Nonterminal → Nonterminal → Nat
  | .expression, _ => 2 * table.levels.length
  | .ifStatement, _ | .whileStatement, _ | .doStatement, _ => 1
  | .term, .expressionList => 1
  | _, _ => 0

/-- A stack with room for so many calls of the readers of a table. -/
def PrecedenceTable.callStack (table : PrecedenceTable) (room : Nat) : CallStack :=
  ⟨room, table.callsBetween⟩

theorem PrecedenceTable.fitsIn_callStack (table : PrecedenceTable) {room larger : Nat}
    (hroom : room ≤ larger) : (table.callStack room).FitsIn (table.callStack larger) :=
  ⟨hroom, fun _ _ => Nat.le_refl _⟩

theorem PrecedenceTable.atMostBetween_callStack (table : PrecedenceTable) (room : Nat) :
    (table.callStack room).AtMostBetween (2 * table.levels.length + 1) := by
  intro caller callee
  cases caller <;> cases callee <;> simp [callStack, callsBetween]

end JackSyntax
