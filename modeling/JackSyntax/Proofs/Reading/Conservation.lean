import JackSyntax.Proofs.Reading.Progress

/-!
# Reading keeps the tokens

The leaves of what is read, followed by what is left, are the tokens there were: nothing
is dropped, repeated or put in another order, also where operands are moved into groups.
Every part of a reader has this property (`Parser.Keeps`), and so has every production
(`Nonterminal.leaves_parse`).
-/

namespace JackSyntax

open JackSyntax.Tree

/-- The leaves of the trees that are read are the tokens taken. -/
def Parser.Keeps (parser : Parser (List Tree)) : Prop :=
  ∀ tokens trees rest, parser tokens = .done trees rest → leavesAll trees ++ rest = tokens

/-- The same of what makes a single tree. -/
def Parser.KeepsTree (parser : Parser Tree) : Prop :=
  ∀ tokens tree rest, parser tokens = .done tree rest → tree.leaves ++ rest = tokens

theorem Parser.KeepsTree.keeps {parser : Parser Tree} (hparser : parser.KeepsTree) :
    Parser.Keeps fun tokens => (parser tokens).map ([·]) := by
  intro tokens trees rest hread
  obtain ⟨tree, htree, rfl⟩ := Outcome.map_eq_done_iff.mp hread
  simpa [leavesAll] using hparser tokens tree rest htree

/-! ## Repetition and operators -/

theorem leavesAll_grouped (items : List Tree) : leavesAll (grouped items) = leavesAll items := by
  match items with
  | [] => simp [grouped, leavesAll, leaves]
  | [item] => rfl
  | _ :: _ :: _ => simp [grouped, leavesAll, leaves]

theorem leavesAll_joined (first more : List Tree) :
    leavesAll (joined first more) = leavesAll first ++ leavesAll more := by
  cases more with
  | nil => simp [joined, leavesAll]
  | cons item items => simp [joined, leavesAll_append, leavesAll_grouped]

theorem keeps_repeatWhile {begins : Token → Bool} {item : Parser (List Tree)}
    (hitem : Parser.Keeps item) : Parser.Keeps (repeatWhile begins item) := by
  intro tokens trees rest hread
  refine repeatWhile_induction
    (motive := fun tokens trees rest => leavesAll trees ++ rest = tokens) ?_ ?_ hread
  · exact fun tokens => rfl
  · intro tokens trees middle others rest hread hmore
    rw [leavesAll_append, List.append_assoc, hmore]
    exact hitem tokens trees middle hread

theorem keeps_readOperation {operand : Parser (List Tree)} (hoperand : Parser.Keeps operand) :
    Parser.Keeps (readOperation operand) := by
  intro tokens trees rest hread
  cases tokens with
  | nil =>
      simp only [readOperation, Outcome.done.injEq] at hread
      simp [← hread.1, ← hread.2, leavesAll]
  | cons operator tokens =>
      obtain ⟨items, hitems, rfl⟩ := Outcome.map_eq_done_iff.mp hread
      simp [leavesAll, leaves, leavesAll_grouped, hoperand tokens items rest hitems]

theorem keeps_readLevels (table : PrecedenceTable) {operand : Parser (List Tree)}
    (hoperand : Parser.Keeps operand) (levels : List Int) :
    Parser.Keeps (readLevels table operand levels) := by
  induction levels with
  | nil => exact hoperand
  | cons level tighter ih =>
      intro tokens trees rest hread
      obtain ⟨first, middle, hfirst, hread⟩ := Outcome.andThen_eq_done_iff.mp hread
      obtain ⟨more, hmore, rfl⟩ := Outcome.map_eq_done_iff.mp hread
      have htokens := ih tokens first middle hfirst
      have hmiddle := keeps_repeatWhile (keeps_readOperation ih) middle more rest hmore
      rw [leavesAll_joined, List.append_assoc, hmiddle, htokens]

/-! ## Rules and productions -/

theorem Rule.keeps_parse {table : PrecedenceTable} {production : Nonterminal → Parser Tree}
    (hproduction : ∀ name, (production name).KeepsTree) (rule : Rule) :
    Parser.Keeps (rule.parse table production) := by
  induction rule with
  | empty =>
      intro tokens trees rest hread
      simp only [Rule.parse, Outcome.done.injEq] at hread
      simp [← hread.1, hread.2, leavesAll]
  | token terminal expected =>
      intro tokens trees rest hread
      obtain ⟨token, htoken, rfl⟩ := Outcome.map_eq_done_iff.mp hread
      rw [(readToken_eq_done_iff.mp htoken).2]
      rfl
  | fail expected =>
      intro tokens trees rest hread
      simp [Rule.parse] at hread
  | call name => exact (hproduction name).keeps
  | operators name => exact keeps_readLevels table (hproduction name).keeps table.levels
  | seq first second ihfirst ihsecond =>
      intro tokens trees rest hread
      obtain ⟨before, middle, hbefore, hread⟩ := Outcome.andThen_eq_done_iff.mp hread
      obtain ⟨after, hafter, rfl⟩ := Outcome.map_eq_done_iff.mp hread
      rw [leavesAll_append, List.append_assoc, ihsecond middle after rest hafter,
        ihfirst tokens before middle hbefore]
  | branch guard taken otherwise ihtaken ihotherwise =>
      intro tokens trees rest hread
      rw [Rule.parse] at hread
      split at hread
      · exact ihtaken tokens trees rest hread
      · exact ihotherwise tokens trees rest hread
  | many guard item ih => exact keeps_repeatWhile ih

theorem Nonterminal.leaves_parse (table : PrecedenceTable) (stack : CallStack)
    (name : Nonterminal) : (name.parse table stack).KeepsTree := by
  induction stack using CallStack.induction generalizing name with
  | full stack hroom =>
      intro tokens tree rest hread
      simp [parse_of_full hroom] at hread
  | call stack hroom ih =>
      intro tokens tree rest hread
      obtain ⟨-, children, hchildren, rfl⟩ := parse_eq_done_iff.mp hread
      exact Rule.keeps_parse (fun callee => ih name callee callee) name.rule tokens children rest
        hchildren

end JackSyntax
