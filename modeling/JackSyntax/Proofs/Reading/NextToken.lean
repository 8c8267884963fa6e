import JackSyntax.Proofs.Reading.Comparison
import JackSyntax.Proofs.Reading.Faithfulness

/-!
# Reading sees one token ahead

What a reading comes to is settled by the tokens that it takes and the one after them.  Two
inputs that agree so far (`Cursor.AgreeUpTo`) give the same tree or the same error and leave
the cursor at the same position, whatever comes later (`productions_see_one_ahead`).

The steps of two such readings are compared for equal tokens and equal trees
(`PrecedenceTable.equality`).  An error needs one argument more: at the end of an input it
is placed at the last token, and inputs that agree up to the end of both are the same.
-/

namespace JackSyntax

/-- Equal tokens make equal trees. -/
def PrecedenceTable.equality (table : PrecedenceTable) : Likeness table table where
  token := Eq
  trees := Eq
  accepts := by
    rintro name terminal - one _ rfl
    rfl
  hasLevel := by
    rintro one _ rfl
    rfl
  nil := rfl
  leaf := by
    rintro one _ rfl
    rfl
  append := by
    rintro first _ second _ rfl rfl
    rfl
  node := by
    rintro name children _ rfl
    rfl
  expression := by
    rintro items _ rfl
    rfl

namespace Cursor

/-! ## Inputs that agree -/

/-- Two cursors stand at the same position, and their inputs agree below another one and in
the token there, which both of them have or neither. -/
structure AgreeUpTo (first second : Cursor) (stop : Nat) : Prop where
  position_eq : first.position = second.position
  below : ∀ index < stop, first.tokens[index]? = second.tokens[index]?
  next : first.tokens[stop]? = second.tokens[stop]?

theorem getElem?_tokens_position_add (cursor : Cursor) (index : Nat) :
    cursor.tokens[cursor.position + index]? = cursor.ahead[index]? := by
  rw [tokens, position, List.getElem?_append_right (by simp)]
  simp

namespace AgreeUpTo

variable {first second : Cursor} {taken rest : List Token}

/-- The tokens taken are ahead of the second cursor as well, and the same token follows. -/
theorem exists_ahead (hagree : first.AgreeUpTo second (first.position + taken.length))
    (hahead : first.ahead = taken ++ rest) :
    ∃ left, second.ahead = taken ++ left ∧ rest.head? = left.head? := by
  have htaken : second.ahead.take taken.length = taken := by
    refine List.ext_getElem? fun index => ?_
    rcases Nat.lt_or_ge index taken.length with hindex | hindex
    · have hbelow := hagree.below (first.position + index) (by omega)
      rw [getElem?_tokens_position_add, hagree.position_eq, getElem?_tokens_position_add,
        hahead, List.getElem?_append_left hindex] at hbelow
      rw [List.getElem?_take_of_lt hindex, hbelow]
    · rw [List.getElem?_take_eq_none hindex, List.getElem?_eq_none hindex]
  have hnext := hagree.next
  rw [getElem?_tokens_position_add, hagree.position_eq, getElem?_tokens_position_add, hahead,
    List.getElem?_append_right (Nat.le_refl _), Nat.sub_self] at hnext
  refine ⟨second.ahead.drop taken.length, ?_, ?_⟩
  · calc second.ahead
        = second.ahead.take taken.length ++ second.ahead.drop taken.length :=
          (List.take_append_drop _ _).symm
      _ = taken ++ second.ahead.drop taken.length := by rw [htaken]
  · rw [List.head?_drop, ← hnext, List.head?_eq_getElem?]

/-- Inputs that agree up to the end of the first are the same. -/
theorem tokens_eq_of_end (hagree : first.AgreeUpTo second (first.position + taken.length))
    (hahead : first.ahead = taken) : first.tokens = second.tokens := by
  have hlength : first.tokens.length = first.position + taken.length := by
    simp [tokens, position, hahead]
  have hnext := hagree.next
  rw [List.getElem?_eq_none (Nat.le_of_eq hlength), eq_comm, List.getElem?_eq_none_iff] at hnext
  refine List.ext_getElem? fun index => ?_
  rcases Nat.lt_or_ge index (first.position + taken.length) with hindex | hindex
  · exact hagree.below index hindex
  · rw [List.getElem?_eq_none (by omega), List.getElem?_eq_none (by omega)]

end AgreeUpTo

end Cursor

/-! ## Errors -/

/-- An error is placed by the token at which reading stopped, and at the end of the input by
the last token. -/
theorem SyntaxError.before_congr {obstacle : Obstacle} {rest left : List Token}
    {last? last?' : Option Token} (hhead : rest.head? = left.head?)
    (hlast : rest = [] → last? = last?') :
    before obstacle rest last? = before obstacle left last?' := by
  rw [before, before, ← hhead]
  cases rest with
  | nil => rw [hlast rfl]
  | cons token rest => rfl

/-! ## The main result -/

namespace Parser

/-- A reading comes to the same for all inputs that agree with one as far as it is read and
in the token after that. -/
def SeesOneAhead (parser : Parser Tree) : Prop :=
  ∀ first second : Cursor, first.AgreeUpTo second (first.read parser).2.position →
    (second.read parser).1 = (first.read parser).1 ∧
      (second.read parser).2.position = (first.read parser).2.position

theorem seesOneAhead {table : PrecedenceTable} {parser : Parser Tree}
    (hforward : parser.Forward) (halike : table.equality.Alike False parser parser) :
    parser.SeesOneAhead := by
  intro first second hagree
  obtain ⟨taken, htaken⟩ := hforward first.ahead
  have hahead : first.ahead = taken ++ (parser first.ahead).rest := htaken.symm
  have hstop : (first.read parser).2.position = first.position + taken.length := by
    rw [Cursor.snd_read, Cursor.position_moveTo hahead]
  rw [hstop] at hagree ⊢
  obtain ⟨left, hleft, hhead⟩ := hagree.exists_ahead hahead
  have hlast : (parser first.ahead).rest = [] → first.last? = second.last? := by
    intro hend
    rw [hend, List.append_nil] at hahead
    rw [Cursor.last?_eq, Cursor.last?_eq, hagree.tokens_eq_of_end hahead]
  have haligned : Aligned Eq (parser first.ahead).rest left first.ahead second.ahead := by
    nth_rewrite 2 [hahead]
    rw [hleft]
    refine .append (List.forall₂_same.mpr fun _ _ => rfl) ?_
    rw [hhead]
    cases left.head? with
    | none => exact .none
    | some token => exact .some rfl
  have houtcomes := halike first.ahead second.ahead left haligned
  have hsecond : (second.moveTo left).position = first.position + taken.length := by
    rw [Cursor.position_moveTo hleft, hagree.position_eq]
  rw [Cursor.read, Cursor.read]
  generalize parser first.ahead = outcome at houtcomes hhead hlast ⊢
  generalize parser second.ahead = outcome' at houtcomes ⊢
  cases houtcomes with
  | done htrees => exact ⟨congrArg Except.ok (List.singleton_inj.mp htrees).symm, hsecond⟩
  | stopped =>
      exact ⟨congrArg Except.error (SyntaxError.before_congr hhead hlast).symm, hsecond⟩
  | deepFirst hdeep => exact hdeep.elim
  | deepSecond hdeep => exact hdeep.elim

end Parser

/-- Every production sees one token ahead, and so does the reading of a whole program, with
all precedence tables and within all call stacks. -/
theorem productions_see_one_ahead (table : PrecedenceTable) (stack : CallStack) :
    (∀ name : Nonterminal, (name.parse table stack).SeesOneAhead) ∧
      (parseProgram table stack).SeesOneAhead := by
  have hstack : stack = stack ∨ False := Or.inl rfl
  refine ⟨fun name => ?_, ?_⟩
  · exact Parser.seesOneAhead ((Nonterminal.advancing_parse table stack).forward name)
      (Nonterminal.alike_parse table.equality hstack name)
  · exact Parser.seesOneAhead (forward_parseProgram table stack)
      (alike_parseProgram table.equality hstack)

/-- A statement ends before the word `return`, and what stands after that is not looked at. -/
theorem productions_see_one_ahead_statement :
    let start : List Token :=
      [⟨.keyword, .text "let", 1, 1⟩, ⟨.identifier, .text "x", 1, 5⟩,
        ⟨.symbol, .text "=", 1, 7⟩, ⟨.integerConstant, .integer 1, 1, 9⟩,
        ⟨.symbol, .text ";", 1, 10⟩, ⟨.keyword, .text "return", 2, 1⟩]
    let first := Cursor.ofTokens (start ++ [⟨.symbol, .text ";", 2, 7⟩])
    let second := Cursor.ofTokens (start ++ [⟨.keyword, .text "else", 3, 1⟩])
    let stack := PrecedenceTable.arithmetic.callStack 20
    let parser := Nonterminal.letStatement.parse .arithmetic stack
    first.AgreeUpTo second (first.read parser).2.position ∧
      (∃ tree, (first.read parser).1 = .ok tree) ∧
      (second.read parser).1 = (first.read parser).1 := by
  intro start first second stack parser
  have hstop : (first.read parser).2.position = 5 := rfl
  have hagree : first.AgreeUpTo second (first.read parser).2.position := by
    rw [hstop]
    exact ⟨rfl, by decide, rfl⟩
  exact ⟨hagree, ⟨_, rfl⟩, ((productions_see_one_ahead .arithmetic stack).1 _ _ _ hagree).1⟩

end JackSyntax
