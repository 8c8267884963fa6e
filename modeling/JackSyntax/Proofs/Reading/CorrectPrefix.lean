import JackSyntax.Proofs.Grammar.Expectations
import JackSyntax.Proofs.Reading.Comparison
import JackSyntax.Proofs.Reading.Faithfulness

/-!
# Errors are at the first impossible token

A syntax error is reported as early as it can be known.  The tokens before the error begin
an accepted program; with the token at which reading stopped they begin none; and each of
the alternatives that the message names could have stood there
(`correctPrefix_of_read`).

* That the token is impossible is the comparison of two readings: no reading of the same
  tokens, up to and including that one, goes further.
* That the alternatives are possible is known for the flat table
  (`possible_of_parseProgram`).  Another table may give levels to marks that are no symbols
  of the language, and so have operators that the flat table does not know.  Such a token is
  compared with a plus sign, which no rule looks for either (`SameRole`).
-/

namespace JackSyntax

open JackSyntax.Tree

/-! ## Tokens with the same role -/

/-- Tokens that no rule tells apart, and that are operators of two tables or of none. -/
structure SameRole (table table' : PrecedenceTable) (one one' : Token) : Prop where
  accepts : ∀ (name : Nonterminal), ∀ terminal ∈ name.rule.terminals,
    terminal.accepts one = terminal.accepts one'
  hasLevel : table.hasLevel one = table'.hasLevel one'

namespace SameRole

variable {table table' : PrecedenceTable} {one one' : Token}

theorem refl (table : PrecedenceTable) (one : Token) : SameRole table table one one :=
  ⟨fun _ _ _ => rfl, rfl⟩

theorem symm (hsame : SameRole table table' one one') : SameRole table' table one' one :=
  ⟨fun name terminal hterminal => (hsame.accepts name terminal hterminal).symm,
    hsame.hasLevel.symm⟩

/-- Readings of tokens with the same roles take the same steps, whatever they make of
them. -/
def likeness (table table' : PrecedenceTable) : Likeness table table' where
  token := SameRole table table'
  trees _ _ := True
  accepts name terminal hterminal _ _ hsame := hsame.accepts name terminal hterminal
  hasLevel _ _ hsame := hsame.hasLevel
  nil := trivial
  leaf _ _ _ := trivial
  append _ _ _ _ _ _ := trivial
  node _ _ _ _ := trivial
  expression _ _ _ := trivial

end SameRole

/-! ## Acceptance -/

section Acceptance

variable {table table' : PrecedenceTable} {tokens tokens' taken taken' rest left : List Token}

theorem Accepted.of_sameRole (htokens : List.Forall₂ (SameRole table table') tokens tokens')
    (haccepted : Accepted table tokens) : Accepted table' tokens' := by
  obtain ⟨stack, tree, rest, hread⟩ := haccepted
  obtain ⟨-, rfl⟩ := parseProgram_eq_done_iff.mp hread
  have haligned : Aligned (SameRole table table') [] [] (tokens ++ []) (tokens' ++ []) :=
    .append htokens .none
  rw [List.append_nil, List.append_nil] at haligned
  have hstack : stack = stack ∨ False := Or.inl rfl
  have hagree := alike_parseProgram (SameRole.likeness table table') hstack tokens tokens' []
    (by rwa [hread])
  rw [hread] at hagree
  generalize hother : parseProgram table' stack tokens' = outcome at hagree
  cases hagree with
  | done htrees => exact ⟨stack, _, [], hother⟩
  | deepSecond hdeep => exact hdeep.elim

/-- Accepted tokens are read within every call stack that has enough room for them. -/
theorem Accepted.done_or_wentTooDeep (haccepted : Accepted table tokens) (stack : CallStack) :
    (∃ tree, parseProgram table stack tokens = .done tree []) ∨
      (parseProgram table stack tokens).wentTooDeep = true := by
  obtain ⟨enough, tree, rest, hread⟩ := haccepted
  obtain ⟨-, rfl⟩ := parseProgram_eq_done_iff.mp hread
  have haligned : Aligned (SameRole table table) [] [] tokens tokens :=
    .of_suffix (List.nil_suffix) fun token _ => .refl table token
  have hagree := alike_parseProgram (SameRole.likeness table table)
    (Or.inr trivial : enough = stack ∨ True) tokens tokens [] (by rwa [hread])
  rw [hread] at hagree
  generalize hother : parseProgram table stack tokens = outcome at hagree ⊢
  cases hagree with
  | done htrees => exact Or.inl ⟨_, rfl⟩
  | deepSecond _ => exact Or.inr rfl

/-- Where reading stops depends on the roles of the tokens up to the one it stops at. -/
theorem parseProgram_eq_stopped {stack : CallStack} {obstacle : Obstacle}
    (htaken : List.Forall₂ (SameRole table table') taken taken')
    (hnext : Option.Rel (SameRole table table') rest.head? left.head?)
    (hread : parseProgram table stack (taken ++ rest) = .stopped obstacle rest) :
    parseProgram table' stack (taken' ++ left) = .stopped obstacle left := by
  have hstack : stack = stack ∨ False := Or.inl rfl
  have hagree := alike_parseProgram (SameRole.likeness table table') hstack (taken ++ rest)
    (taken' ++ left) left (by rw [hread]; exact .append htaken hnext)
  rw [hread] at hagree
  generalize parseProgram table' stack (taken' ++ left) = outcome at hagree ⊢
  cases hagree with
  | stopped => rfl
  | deepFirst hdeep => exact hdeep.elim
  | deepSecond hdeep => exact hdeep.elim

/-- What comes after the token at which reading stops cannot help. -/
theorem not_accepted_of_unexpected {stack : CallStack} {expected : Expected}
    (hread : parseProgram table stack (taken ++ rest) = .stopped (.unexpected expected) rest)
    (hhead : rest.head? = left.head?) : ¬ Accepted table (taken ++ left) := by
  intro haccepted
  have htaken : List.Forall₂ (SameRole table table) taken taken :=
    List.forall₂_same.mpr fun token _ => .refl table token
  have hnext : Option.Rel (SameRole table table) rest.head? left.head? := by
    rw [hhead]
    cases left.head? with
    | none => exact .none
    | some token => exact .some (.refl table token)
  have hstopped := parseProgram_eq_stopped htaken hnext hread
  rcases haccepted.done_or_wentTooDeep stack with ⟨tree, hdone⟩ | hdeep
  · simp [hstopped] at hdone
  · simp [hstopped, Outcome.wentTooDeep] at hdeep

end Acceptance

/-! ## Marks beyond the language -/

/-- Among the symbols of the language, just the binary operators have a level. -/
def PrecedenceTable.OnlyBinary (table : PrecedenceTable) : Prop :=
  ∀ mark ∈ Vocabulary.symbols, (table.levelOf? (String.singleton mark)).isSome = true →
    String.singleton mark ∈ binaryOperators

instance (table : PrecedenceTable) : Decidable table.OnlyBinary :=
  decidable_of_iff (Vocabulary.symbols.all fun mark =>
      (table.levelOf? (String.singleton mark)).isSome = true →
        String.singleton mark ∈ binaryOperators)
    (by simp only [PrecedenceTable.OnlyBinary, List.all_eq_true, decide_eq_true_eq])

/-- Whether a token is a mark that the language does not know. -/
def Token.IsForeign (token : Token) : Prop :=
  token.kind = .symbol ∧ ∃ content, token.value = .text content ∧
    content ∉ Vocabulary.symbols.map String.singleton

/-- Whether a class of tokens holds no marks beyond the language. -/
def Terminal.isFamiliar : Terminal → Bool
  | ofKind kind => kind ≠ .symbol
  | keyword _ => true
  | symbol marks => marks.all (Vocabulary.symbols.map String.singleton).contains
  | either first second => first.isFamiliar && second.isFamiliar

theorem isFamiliar_of_mem_terminals (name : Nonterminal) :
    ∀ terminal ∈ name.rule.terminals, terminal.isFamiliar = true := by
  cases name <;> decide

theorem Token.IsForeign.not_accepts {token : Token} (htoken : token.IsForeign)
    {terminal : Terminal} (hterminal : terminal.isFamiliar = true) :
    terminal.accepts token = false := by
  obtain ⟨hkind, content, hvalue, hcontent⟩ := htoken
  induction terminal with
  | ofKind kind =>
      have hne : kind ≠ .symbol := of_decide_eq_true hterminal
      simp [Terminal.accepts, hkind, hne.symm]
  | keyword words => simp [Terminal.accepts, Token.isKeyword, Token.isOneOf, hkind]
  | symbol marks =>
      have hmarks : content ∉ marks := fun hmem =>
        hcontent (List.contains_iff_mem.mp (List.all_eq_true.mp hterminal content hmem))
      simp [Terminal.accepts, Token.isSymbol, Token.isOneOf, hkind, hvalue, hmarks]
  | either first second ihfirst ihsecond =>
      rw [Terminal.isFamiliar, Bool.and_eq_true] at hterminal
      rw [Terminal.accepts, ihfirst hterminal.1, ihsecond hterminal.2]
      rfl

/-- An operator that no rule looks for. -/
def plusSign : Token := ⟨.symbol, .text "+", 0, 0⟩

theorem not_accepts_plusSign (name : Nonterminal) :
    ∀ terminal ∈ name.rule.terminals, terminal.accepts plusSign = false := by
  cases name <;> decide

/-- A token that no rule looks for and that is no operator: its value is of the wrong
kind. -/
def deadToken : Token := ⟨.keyword, .integer 0, 0, 0⟩

theorem not_accepts_deadToken (name : Nonterminal) :
    ∀ terminal ∈ name.rule.terminals, terminal.accepts deadToken = false := by
  cases name <;> decide

namespace PrecedenceTable

variable {table : PrecedenceTable} {token : Token}

theorem hasLevel_eq_true_iff : table.hasLevel token = true ↔ token.kind = .symbol ∧
    ∃ content, token.value = .text content ∧ (table.levelOf? content).isSome = true := by
  rw [hasLevel, level?]
  split
  · next hkind hvalue => simp [hkind, hvalue]
  · next hother =>
      constructor
      · simp
      · rintro ⟨hkind, content, hvalue, -⟩
        exact absurd hvalue (hother content hkind)

theorem isSome_levelOf? {text : String} (htext : text ∈ binaryOperators) :
    (table.levelOf? text).isSome = true := by
  obtain ⟨entry, hentry, rfl⟩ := List.mem_map.mp (table.covers text htext)
  exact List.lookup_isSome_iff.mpr ⟨entry, hentry, beq_self_eq_true _⟩

/-- Only marks beyond the language are operators of the table and not of the flat one. -/
theorem OnlyBinary.hasLevel_cases (htable : table.OnlyBinary) (token : Token) :
    table.hasLevel token = flat.hasLevel token ∨
      (table.hasLevel token = true ∧ flat.hasLevel token = false ∧ token.IsForeign) := by
  have hflat : flat.hasLevel token = token.isSymbol binaryOperators := by rw [hasLevel_flat]
  rw [hflat]
  cases hbinary : token.isSymbol binaryOperators with
  | true =>
      obtain ⟨hkind, content, hcontent, hvalue⟩ := Token.isOneOf_eq_true_iff.mp hbinary
      exact Or.inl (hasLevel_eq_true_iff.mpr ⟨hkind, content, hvalue, isSome_levelOf? hcontent⟩)
  | false =>
      cases hlevel : table.hasLevel token with
      | false => exact Or.inl rfl
      | true =>
          obtain ⟨hkind, content, hvalue, hsome⟩ := hasLevel_eq_true_iff.mp hlevel
          refine Or.inr ⟨rfl, rfl, hkind, content, hvalue, fun hmem => ?_⟩
          obtain ⟨mark, hmark, rfl⟩ := List.mem_map.mp hmem
          have hoperator : token.isSymbol binaryOperators = true :=
            Token.isOneOf_eq_true_iff.mpr ⟨hkind, _, htable mark hmark hsome, hvalue⟩
          simp [hbinary] at hoperator

/-- Every token has the role that some token has with the flat table. -/
theorem OnlyBinary.exists_sameRole_flat (htable : table.OnlyBinary) (token : Token) :
    ∃ plain, SameRole table .flat token plain := by
  rcases htable.hasLevel_cases token with hsame | ⟨hlevel, -, hforeign⟩
  · exact ⟨token, fun _ _ _ => rfl, hsame⟩
  · refine ⟨plusSign, fun name terminal hterminal => ?_, hlevel⟩
    rw [hforeign.not_accepts (isFamiliar_of_mem_terminals name terminal hterminal),
      not_accepts_plusSign name terminal hterminal]

theorem OnlyBinary.exists_sameRole (htable : table.OnlyBinary) (plain : Token) :
    ∃ token, SameRole table .flat token plain := by
  rcases htable.hasLevel_cases plain with hsame | ⟨-, hlevel, hforeign⟩
  · exact ⟨plain, fun _ _ _ => rfl, hsame⟩
  · refine ⟨deadToken, fun name terminal hterminal => ?_, hlevel.symm⟩
    rw [hforeign.not_accepts (isFamiliar_of_mem_terminals name terminal hterminal),
      not_accepts_deadToken name terminal hterminal]

/-- The tokens that messages name have the same role with the flat table. -/
theorem OnlyBinary.sameRole_of_lookahead (htable : table.OnlyBinary) {alternative : Alternative}
    {ahead : Lookahead} (hahead : alternative.lookahead? = some ahead)
    (htoken : ahead.admits [token] = true) : SameRole table .flat token token := by
  refine ⟨fun _ _ _ => rfl, (htable.hasLevel_cases token).resolve_right ?_⟩
  rintro ⟨-, -, hkind, content, hvalue, hcontent⟩
  cases alternative with
  | literal word =>
      rw [Alternative.lookahead?] at hahead
      split at hahead
      · obtain rfl := Option.some.inj hahead
        obtain ⟨hother, -⟩ := Token.isOneOf_eq_true_iff.mp htoken
        simp [hkind] at hother
      · split at hahead
        · next hword =>
            obtain rfl := Option.some.inj hahead
            obtain ⟨-, other, hother, hsame⟩ := Token.isOneOf_eq_true_iff.mp htoken
            obtain rfl := List.mem_singleton.mp hother
            obtain rfl := TokenValue.text.inj (hvalue.symm.trans hsame)
            exact hcontent (List.contains_iff_mem.mp hword)
        · simp at hahead
  | ofKind kind =>
      cases kind <;> simp [Alternative.lookahead?] at hahead <;>
        simp [← hahead, Lookahead.admits, hkind] at htoken
  | className =>
      obtain rfl := Option.some.inj hahead
      simp [Lookahead.admits, hkind] at htoken
  | endOfInput =>
      obtain rfl := Option.some.inj hahead
      simp [Lookahead.admits] at htoken

end PrecedenceTable

/-! ## The main result -/

/-- With the flat table, reading stops at the counterpart of the same token. -/
theorem PrecedenceTable.OnlyBinary.exists_flat_stop {table : PrecedenceTable}
    (htable : table.OnlyBinary) {stack : CallStack} {taken rest : List Token} {obstacle : Obstacle}
    (hread : parseProgram table stack (taken ++ rest) = .stopped obstacle rest) :
    ∃ taken' rest', List.Forall₂ (SameRole table .flat) taken taken' ∧
      parseProgram .flat stack (taken' ++ rest') = .stopped obstacle rest' := by
  choose plain hplain using htable.exists_sameRole_flat
  have htaken : List.Forall₂ (SameRole table .flat) taken (taken.map plain) :=
    List.forall₂_map_right_iff.mpr (List.forall₂_same.mpr fun token _ => hplain token)
  have hnext : Option.Rel (SameRole table .flat) rest.head? (rest.map plain).head? := by
    cases rest with
    | nil => exact .none
    | cons token rest => exact .some (hplain token)
  exact ⟨taken.map plain, rest.map plain, htaken, parseProgram_eq_stopped htaken hnext hread⟩

/-- What is possible with the flat table is possible with every table that has no other
operators among the symbols of the language. -/
theorem Alternative.Possible.of_flat {table : PrecedenceTable} (htable : table.OnlyBinary)
    {taken taken' : List Token} (htaken : List.Forall₂ (SameRole .flat table) taken' taken)
    {alternative : Alternative} (hpossible : alternative.Possible .flat taken') :
    alternative.Possible table taken := by
  obtain ⟨ahead, hahead, hend, hgoes⟩ := hpossible
  refine ⟨ahead, hahead, fun hatEnd => (hend hatEnd).of_sameRole htaken, ?_⟩
  intro token htoken
  obtain ⟨more, hmore⟩ := hgoes token htoken
  choose back hback using htable.exists_sameRole
  have hrest : List.Forall₂ (SameRole .flat table) more (more.map back) :=
    List.forall₂_map_right_iff.mpr (List.forall₂_same.mpr fun token _ => (hback token).symm)
  have hnext : SameRole .flat table token token :=
    (htable.sameRole_of_lookahead hahead htoken).symm
  exact ⟨more.map back, hmore.of_sameRole (List.rel_append htaken (.cons hnext hrest))⟩

theorem possible_of_unexpected {table : PrecedenceTable} (htable : table.OnlyBinary)
    {stack : CallStack} {taken rest : List Token} {expected : Expected}
    (hread : parseProgram table stack (taken ++ rest) = .stopped (.unexpected expected) rest) :
    expected.alternatives ≠ [] ∧
      ∀ alternative ∈ expected.alternatives, alternative.Possible table taken := by
  obtain ⟨taken', rest', htaken, hflat⟩ := htable.exists_flat_stop hread
  have hback : List.Forall₂ (SameRole .flat table) taken' taken :=
    (htaken.imp fun _ _ hrole => hrole.symm).flip
  obtain ⟨_, hsplit, hsome, hpossible⟩ := possible_of_parseProgram hflat
  obtain rfl := List.append_cancel_right hsplit
  exact ⟨hsome, fun alternative halternative => (hpossible alternative halternative).of_flat
    htable hback⟩

/-- Reading stops as early as possible: the tokens up to a position begin an accepted
program, with the token there they begin none, and each of the alternatives could have stood
there. -/
structure CorrectPrefix (table : PrecedenceTable) (tokens : List Token) (position : Nat)
    (expected : Expected) : Prop where
  viable : ∃ more, Accepted table (tokens.take position ++ more)
  impossible : ∀ token, tokens[position]? = some token →
    ∀ more, ¬ Accepted table (tokens.take position ++ token :: more)
  incomplete : tokens[position]? = none → ¬ Accepted table tokens
  possible : ∀ alternative ∈ expected.alternatives,
    alternative.Possible table (tokens.take position)

theorem CorrectPrefix.of_unexpected {table : PrecedenceTable} (htable : table.OnlyBinary)
    {stack : CallStack} {taken rest : List Token} {expected : Expected}
    (hread : parseProgram table stack (taken ++ rest) = .stopped (.unexpected expected) rest) :
    CorrectPrefix table (taken ++ rest) taken.length expected := by
  have hfound : (taken ++ rest)[taken.length]? = rest.head? := by
    rw [List.getElem?_append_right (Nat.le_refl _), Nat.sub_self, List.head?_eq_getElem?]
  obtain ⟨hsome, hpossible⟩ := possible_of_unexpected htable hread
  constructor
  case viable =>
    obtain ⟨alternative, halternative⟩ := List.exists_mem_of_ne_nil _ hsome
    rw [List.take_left]
    exact (hpossible alternative halternative).viable
  case impossible =>
    intro token htoken more
    rw [hfound] at htoken
    rw [List.take_left]
    exact not_accepted_of_unexpected hread htoken
  case incomplete =>
    intro _
    exact not_accepted_of_unexpected hread rfl
  case possible =>
    rwa [List.take_left]

/-- An error other than nesting too deep is at the first token that cannot stand there, or
at the end of the input if that comes too early, and it names only what can stand there. -/
theorem correctPrefix_of_read {table : PrecedenceTable} (htable : table.OnlyBinary)
    {stack : CallStack} {tokens : List Token} {error : SyntaxError} {cursor : Cursor}
    {expected : Expected}
    (hread : (Cursor.ofTokens tokens).read (parseProgram table stack) = (.error error, cursor))
    (hobstacle : error.obstacle = .unexpected expected) :
    error.found? = tokens[cursor.position]? ∧
      CorrectPrefix table tokens cursor.position expected := by
  obtain ⟨taken, htaken⟩ := forward_parseProgram table stack tokens
  rw [Cursor.read] at hread
  cases hparse : parseProgram table stack tokens with
  | done tree rest => simp [Cursor.ofTokens, hparse] at hread
  | stopped obstacle rest =>
      simp only [Cursor.ofTokens, hparse, Prod.mk.injEq, Except.error.injEq] at hread
      obtain ⟨rfl, rfl⟩ := hread
      rw [SyntaxError.obstacle_before] at hobstacle
      subst hobstacle
      rw [hparse] at htaken
      obtain rfl : taken ++ rest = tokens := htaken
      have hposition : (Cursor.moveTo ⟨[], taken ++ rest, false⟩ rest).position =
          taken.length := by
        rw [Cursor.position_moveTo rfl]
        exact Nat.zero_add _
      rw [hposition]
      refine ⟨?_, .of_unexpected htable hparse⟩
      rw [SyntaxError.found?_before, List.getElem?_append_right (Nat.le_refl _), Nat.sub_self,
        List.head?_eq_getElem?]

/-- After the name in `class A ;` only an opening brace is possible. -/
theorem correctPrefix_of_read_class :
    let tokens : List Token :=
      [⟨.keyword, .text "class", 1, 1⟩, ⟨.identifier, .text "A", 1, 7⟩,
        ⟨.symbol, .text ";", 1, 9⟩]
    ∃ error cursor, (Cursor.ofTokens tokens).read
        (parseProgram .arithmetic (PrecedenceTable.arithmetic.callStack 0)) =
        (.error error, cursor) ∧ error.found? = some ⟨.symbol, .text ";", 1, 9⟩ ∧
      CorrectPrefix .arithmetic tokens 2 (.words ["\x7b"]) := by
  intro tokens
  obtain ⟨error, cursor, hread, hfound, hposition, hobstacle⟩ :
      ∃ error cursor, (Cursor.ofTokens tokens).read
        (parseProgram .arithmetic (PrecedenceTable.arithmetic.callStack 0)) =
        (.error error, cursor) ∧ error.found? = some ⟨.symbol, .text ";", 1, 9⟩ ∧
        cursor.position = 2 ∧ error.obstacle = .unexpected (.words ["\x7b"]) :=
    ⟨_, _, rfl, rfl, rfl, rfl⟩
  have hresult := correctPrefix_of_read (by decide) hread hobstacle
  rw [hposition] at hresult
  exact ⟨error, cursor, hread, hfound, hresult.2⟩

end JackSyntax
