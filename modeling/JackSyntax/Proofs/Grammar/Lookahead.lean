import JackSyntax.Proofs.Grammar.Productions
import JackSyntax.Proofs.Reading.Progress

/-!
# One token of lookahead

The grammar never needs more than the next token to decide how to go on.  Two tables say
why: what the first token of a production may be (`Nonterminal.first`), and what may stand
after it (`Nonterminal.follow`).

* `Rule.predictive` checks of a rule that the guard of every choice and of every
  repetition tells the next tokens of one alternative from those of the other, and
  `predictive_rule` that the rule of every production passes.
* `Tree.WellFormed.opens` says that the first table is right: the tokens of a well-formed
  tree start in the way it says.
-/

namespace JackSyntax

open Computability

/-! ## What may stand next -/

/-- A condition on the next token. -/
inductive Lookahead
  /-- No token is left. -/
  | atEnd
  | ofKind (kind : TokenKind)
  | text (kind : TokenKind) (content : String)
deriving DecidableEq

namespace Lookahead

/-- Whether some tokens begin as the condition says. -/
def admits : Lookahead → List Token → Bool
  | atEnd, [] => true
  | ofKind kind, token :: _ => token.kind = kind
  | text kind content, token :: _ => token.isOneOf kind [content]
  | _, _ => false

/-- Whether two conditions exclude each other. -/
def apart : Lookahead → Lookahead → Bool
  | atEnd, atEnd => false
  | ofKind kind, ofKind kind' => kind ≠ kind'
  | ofKind kind, text kind' _ => kind ≠ kind'
  | text kind _, ofKind kind' => kind ≠ kind'
  | text kind content, text kind' content' => kind ≠ kind' || content ≠ content'
  | _, _ => true

theorem not_admits_of_apart {one other : Lookahead} {tokens : List Token}
    (hapart : one.apart other = true) (hone : one.admits tokens = true) :
    other.admits tokens = false := by
  cases tokens with
  | nil => cases one <;> cases other <;> simp_all [admits, apart]
  | cons token tokens =>
      rw [Bool.eq_false_iff]
      intro hother
      cases one <;> cases other <;>
        simp_all [admits, apart, Token.isOneOf_eq_true_iff]

end Lookahead

/-- Whether some tokens begin as one of several conditions says. -/
def Admits (ahead : List Lookahead) (tokens : List Token) : Prop :=
  ∃ one ∈ ahead, one.admits tokens = true

namespace Admits

variable {ahead other : List Lookahead} {tokens : List Token}

theorem mono (hadmits : Admits ahead tokens) (hsubset : ahead ⊆ other) : Admits other tokens := by
  obtain ⟨one, hone, htokens⟩ := hadmits
  exact ⟨one, hsubset hone, htokens⟩

/-- Only the next token counts, if there is one. -/
theorem append (hadmits : Admits ahead tokens) (hne : tokens ≠ []) (rest : List Token) :
    Admits ahead (tokens ++ rest) := by
  cases tokens with
  | nil => exact absurd rfl hne
  | cons token tokens =>
      obtain ⟨one, hone, htokens⟩ := hadmits
      refine ⟨one, hone, ?_⟩
      cases one <;> exact htokens

end Admits

/-- The conditions that a class of tokens puts on the next one. -/
def Terminal.lookaheads : Terminal → List Lookahead
  | ofKind kind => [.ofKind kind]
  | keyword words => words.map (.text .keyword)
  | symbol marks => marks.map (.text .symbol)
  | either first second => first.lookaheads ++ second.lookaheads

theorem admits_text_iff {kind : TokenKind} {texts : List String} {tokens : List Token} :
    Admits (texts.map (.text kind)) tokens ↔ tokens.head?.any (·.isOneOf kind texts) = true := by
  cases tokens with
  | nil => simp [Admits, Lookahead.admits]
  | cons token tokens =>
      rw [List.head?_cons, Option.any_some, Token.isOneOf_eq_true_iff]
      simp only [Admits, List.mem_map, exists_exists_and_eq_and, Lookahead.admits,
        Token.isOneOf_eq_true_iff, List.mem_singleton, exists_eq_left]
      constructor
      · rintro ⟨content, hcontent, hkind, hvalue⟩
        exact ⟨hkind, content, hcontent, hvalue⟩
      · rintro ⟨hkind, content, hcontent, hvalue⟩
        exact ⟨content, hcontent, hkind, hvalue⟩

theorem Terminal.admits_lookaheads_iff {terminal : Terminal} {tokens : List Token} :
    Admits terminal.lookaheads tokens ↔ terminal.acceptsNext tokens = true := by
  induction terminal with
  | ofKind kind => cases tokens <;> simp [lookaheads, Admits, Lookahead.admits, accepts]
  | keyword words => exact admits_text_iff
  | symbol marks => exact admits_text_iff
  | either first second ihfirst ihsecond =>
      have hor : (either first second).acceptsNext tokens =
          (first.acceptsNext tokens || second.acceptsNext tokens) := by
        cases tokens <;> rfl
      rw [hor, Bool.or_eq_true, ← ihfirst, ← ihsecond]
      simp [lookaheads, Admits, or_and_right, exists_or]

/-- Whether no tokens can begin as one of either conditions say. -/
def apartFrom (ahead other : List Lookahead) : Bool :=
  ahead.all fun one => other.all one.apart

theorem not_acceptsNext_of_apartFrom {guard : Terminal} {ahead : List Lookahead}
    {tokens : List Token} (hapart : apartFrom ahead guard.lookaheads = true)
    (hadmits : Admits ahead tokens) : guard.acceptsNext tokens = false := by
  rw [Bool.eq_false_iff]
  intro haccepts
  obtain ⟨one, hone, htokens⟩ := hadmits
  obtain ⟨other, hother, haccepts⟩ := Terminal.admits_lookaheads_iff.mpr haccepts
  have hone' := List.all_eq_true.mp (List.all_eq_true.mp hapart one hone) other hother
  simp [Lookahead.not_admits_of_apart hone' htokens] at haccepts

/-! ## The tables -/

open Rule in
/-- The tokens with which a production may begin. -/
def Nonterminal.first : Nonterminal → Terminal
  | .classDec => .keyword ["class"]
  | .classVarDec => .keyword classVarWords
  | .subroutineDec => .keyword subroutineWords
  | .parameterList => typeStart false
  | .subroutineBody => .symbol ["\x7b"]
  | .varDec => .keyword ["var"]
  | .statements => .keyword statementWords
  | .letStatement => .keyword ["let"]
  | .ifStatement => .keyword ["if"]
  | .whileStatement => .keyword ["while"]
  | .doStatement => .keyword ["do"]
  | .returnStatement => .keyword ["return"]
  | .expression | .term | .expressionList =>
      .either (.either (.ofKind .integerConstant) (.ofKind .stringConstant))
        (.either (.either (.keyword constantWords) (.ofKind .identifier))
          (.symbol ("(" :: unaryOperators)))

open Rule in
/-- What may stand after a production. -/
def Nonterminal.follow : Nonterminal → List Lookahead
  | .classDec => [.atEnd]
  | .classVarDec | .subroutineDec | .subroutineBody =>
      (Terminal.either (.keyword (classVarWords ++ subroutineWords))
        (.symbol ["\x7d"])).lookaheads
  | .parameterList | .expressionList => (Terminal.symbol [")"]).lookaheads
  | .varDec =>
      (Terminal.either (.keyword ("var" :: statementWords)) (.symbol ["\x7d"])).lookaheads
  | .statements => (Terminal.symbol ["\x7d"]).lookaheads
  | .letStatement | .ifStatement | .whileStatement | .doStatement | .returnStatement =>
      (Terminal.either (.keyword statementWords) (.symbol ["\x7d"])).lookaheads
  | .expression => (Terminal.symbol [")", "]", ";", ","]).lookaheads
  | .term => (Terminal.symbol ([")", "]", ";", ","] ++ binaryOperators)).lookaheads

namespace Rule

/-- The tokens with which a rule may begin. -/
def first : Rule → List Lookahead
  | empty | fail _ => []
  | token terminal _ => terminal.lookaheads
  | call name | operators name => name.first.lookaheads
  | seq before after => before.first ++ if before.mayBeEmpty then after.first else []
  | branch _ taken otherwise => taken.first ++ otherwise.first
  | many _ item => item.first

/-- What may stand where a rule begins, given what may stand after it. -/
def ahead (rule : Rule) (after : List Lookahead) : List Lookahead :=
  rule.first ++ if rule.mayBeEmpty then after else []

/-- Whether the next token decides every choice in a rule, given what may stand after
it. -/
def predictive (after : List Lookahead) : Rule → Bool
  | empty | token _ _ | fail _ => true
  | call name => after.all name.follow.contains
  | operators name =>
      ((Terminal.symbol binaryOperators).lookaheads ++ after).all name.follow.contains &&
        apartFrom after (Terminal.symbol binaryOperators).lookaheads
  | seq first second => first.predictive (second.ahead after) && second.predictive after
  | branch guard taken otherwise =>
      (taken.ahead after).all guard.lookaheads.contains &&
        apartFrom (otherwise.ahead after) guard.lookaheads &&
        taken.predictive after && otherwise.predictive after
  | many guard item =>
      !item.mayBeEmpty && item.first.all guard.lookaheads.contains &&
        apartFrom after guard.lookaheads && item.predictive (item.first ++ after)

end Rule

theorem first_rule (name : Nonterminal) : name.rule.first ⊆ name.first.lookaheads := by
  cases name <;> decide

/-- The grammar is predictive. -/
theorem predictive_rule (name : Nonterminal) : name.rule.predictive name.follow = true := by
  cases name <;> decide

/-! ## The first table is right -/

/-- Some tokens start in a given way: with a token that a condition admits, or there are
none. -/
def Starts (first : List Lookahead) (mayBeEmpty : Bool) (tokens : List Token) : Prop :=
  (tokens = [] ∧ mayBeEmpty = true) ∨ (tokens ≠ [] ∧ Admits first tokens)

namespace Starts

variable {first later : List Lookahead} {mayBeEmpty mayLater : Bool} {tokens rest : List Token}

theorem nil (first : List Lookahead) : Starts first true [] :=
  Or.inl ⟨rfl, rfl⟩

theorem mono (hstarts : Starts first mayBeEmpty tokens) (hfirst : first ⊆ later)
    (hempty : mayBeEmpty = true → mayLater = true) : Starts later mayLater tokens := by
  rcases hstarts with ⟨hnil, hmay⟩ | ⟨hne, hadmits⟩
  · exact Or.inl ⟨hnil, hempty hmay⟩
  · exact Or.inr ⟨hne, hadmits.mono hfirst⟩

theorem append (hstarts : Starts first mayBeEmpty tokens) (hrest : Starts later mayLater rest) :
    Starts (first ++ if mayBeEmpty then later else []) (mayBeEmpty && mayLater)
      (tokens ++ rest) := by
  rcases hstarts with ⟨rfl, rfl⟩ | ⟨hne, hadmits⟩
  · rw [List.nil_append, Bool.true_and, if_pos rfl]
    exact hrest.mono (List.subset_append_right first later) id
  · refine Or.inr ⟨by simp [hne], ?_⟩
    exact (hadmits.append hne rest).mono (List.subset_append_left first _)

/-- What may stand where the tokens start, given what stands after them. -/
theorem admits (hstarts : Starts first mayBeEmpty tokens) (hrest : Admits later rest) :
    Admits (first ++ if mayBeEmpty then later else []) (tokens ++ rest) := by
  rcases hstarts with ⟨rfl, rfl⟩ | ⟨hne, hadmits⟩
  · rw [List.nil_append, if_pos rfl]
    exact hrest.mono (List.subset_append_right first later)
  · exact (hadmits.append hne rest).mono (List.subset_append_left first _)

end Starts

/-- The tokens of a tree start as the table says for its production. -/
def Tree.Opens (tree : Tree) : Prop :=
  ∀ name : Nonterminal, tree.hasLabel name.label = true →
    Starts name.first.lookaheads name.mayBeEmpty tree.leaves

section Opening

variable {operator : Token → Bool}

open JackSyntax.Tree

theorem Rule.starts_of_mem {rule : Rule} (hplain : rule.isPlain = true) {trees : List Tree}
    (htrees : trees ∈ rule.language operator) (hopens : ∀ tree ∈ trees, tree.Opens) :
    Starts rule.first rule.mayBeEmpty (leavesAll trees) := by
  induction rule generalizing trees with
  | empty =>
      obtain rfl := (Language.mem_one trees).mp htrees
      exact .nil _
  | token terminal expected =>
      obtain ⟨token, haccepts, rfl⟩ := htrees
      exact Or.inr ⟨by simp [leavesAll, leaves], Terminal.admits_lookaheads_iff.mpr haccepts⟩
  | fail expected => exact absurd htrees (Language.notMem_zero trees)
  | call name =>
      obtain ⟨children, rfl⟩ := htrees
      have hstarts := hopens _ List.mem_cons_self name (by simp [hasLabel])
      rwa [leavesAll, leavesAll, List.append_nil]
  | operators name => simp [isPlain] at hplain
  | seq before after ihbefore ihafter =>
      rw [isPlain, Bool.and_eq_true] at hplain
      obtain ⟨parts, hparts, more, hmore, rfl⟩ := Language.mem_mul.mp htrees
      have hstarts := ihbefore hplain.1 hparts fun tree htree =>
        hopens tree (List.mem_append_left more htree)
      have hlater := ihafter hplain.2 hmore fun tree htree =>
        hopens tree (List.mem_append_right parts htree)
      rw [leavesAll_append]
      exact hstarts.append hlater
  | branch guard taken otherwise ihtaken ihotherwise =>
      rw [isPlain, Bool.and_eq_true] at hplain
      rcases (Language.mem_add _ _ _).mp htrees with htaken | hotherwise
      · refine (ihtaken hplain.1 htaken hopens).mono (List.subset_append_left _ _) fun h => ?_
        rw [mayBeEmpty, h, Bool.true_or]
      · refine (ihotherwise hplain.2 hotherwise hopens).mono (List.subset_append_right _ _)
          fun h => ?_
        rw [mayBeEmpty, h, Bool.or_true]
  | many guard item ih =>
      obtain ⟨parts, rfl, hparts⟩ := Language.mem_kstar.mp htrees
      clear htrees
      induction parts with
      | nil => exact .nil _
      | cons part parts ihparts =>
          rw [List.flatten_cons] at hopens ⊢
          have hpart := ih hplain (hparts part List.mem_cons_self) fun tree htree =>
            hopens tree (List.mem_append_left _ htree)
          have hmore := ihparts
            (fun other hother => hparts other (List.mem_cons_of_mem part hother))
            fun tree htree => hopens tree (List.mem_append_right part htree)
          rw [leavesAll_append]
          -- where the first part is empty, the later ones begin in the same way
          refine (hpart.append hmore).mono ?_ fun _ => rfl
          rw [first]
          split <;> simp

theorem Tree.WellFormed.child {label : String} {children : List Tree} {child : Tree}
    (htree : (Tree.node label children).WellFormed operator) (hchild : child ∈ children) :
    child.WellFormed operator := by
  intro own parts hpart
  apply htree
  exact List.mem_cons_of_mem _ (mem_preorderAll.mpr ⟨child, hchild, hpart⟩)

theorem Tree.WellFormed.mem_production {name : Nonterminal} {children : List Tree}
    (htree : (Tree.node name.label children).WellFormed operator) :
    children ∈ name.production operator := by
  obtain ⟨other, hlabel, hchildren⟩ := htree name.label children List.mem_cons_self
  rwa [Nonterminal.label_injective hlabel]

theorem Tree.WellFormed.opens {tree : Tree} (htree : tree.WellFormed operator) :
    tree.Opens := by
  induction tree using Tree.induction with
  | leaf token =>
      intro name hlabel
      simp [hasLabel] at hlabel
  | node label children ih =>
      intro name hlabel
      obtain rfl : label = name.label := of_decide_eq_true hlabel
      have hopens : ∀ child ∈ children, child.Opens := fun child hchild =>
        ih child hchild (htree.child hchild)
      have hchildren := htree.mem_production
      rw [← language_rule] at hchildren
      by_cases hname : name = .expression
      · -- an expression begins as its first term does
        subst hname
        obtain ⟨_, ⟨parts, rfl⟩, more, -, rfl⟩ := Language.mem_mul.mp hchildren
        rcases hopens _ List.mem_cons_self .term rfl with ⟨-, hfalse⟩ | ⟨hne, hadmits⟩
        · exact absurd hfalse (by decide)
        · have hleaves : (node Nonterminal.expression.label
              ([node Nonterminal.term.label parts] ++ more)).leaves =
                (node Nonterminal.term.label parts).leaves ++ leavesAll more := rfl
          rw [hleaves]
          exact Or.inr ⟨by simp [hne], hadmits.append hne _⟩
      · have hstarts := Rule.starts_of_mem (isPlain_rule hname) hchildren hopens
        rw [mayBeEmpty_rule] at hstarts
        exact hstarts.mono (first_rule name) id

end Opening

end JackSyntax
