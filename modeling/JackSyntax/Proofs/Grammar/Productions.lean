import JackSyntax.Grammar.Jack
import JackSyntax.Tree.Basic
import Mathlib.Computability.Language
import Mathlib.Tactic.Abel

/-!
# The grammar as a table of languages

`Nonterminal.production` writes the grammar of Jack down as it is documented, without
guards, without the order in which choices are tried, and without messages: the children
that a node of a production may have form a language over trees, built from tokens and
nodes by concatenation `*`, union `+` and repetition `∗`.  It has a parameter, the tokens
that are binary operators.

`Rule.language` forgets the guards of a rule, and `language_rule` says that what is left
of the rules is the documented grammar.

A tree is well formed (`Tree.WellFormed`) when every node in it carries the label of a
production, and its children are in the language of that production.
-/

namespace JackSyntax

open Computability

/-! ## The documented grammar -/

namespace Form

/-- A token of a class. -/
def token (allowed : Token → Bool) : Language Tree :=
  {trees | ∃ token, allowed token = true ∧ trees = [.leaf token]}

/-- A token of a kind. -/
def ofKind (kind : TokenKind) : Language Tree :=
  token fun token => token.kind = kind

/-- A keyword. -/
def word (word : String) : Language Tree :=
  token (·.isKeyword [word])

/-- A symbol. -/
def mark (mark : String) : Language Tree :=
  token (·.isSymbol [mark])

/-- A node of a production. -/
def node (name : Nonterminal) : Language Tree :=
  {trees | ∃ children, trees = [.node name.label children]}

/-- Something, or nothing. -/
def optional (form : Language Tree) : Language Tree :=
  form + 1

/-- The name of a class, a variable or a subroutine. -/
def name : Language Tree :=
  ofKind .identifier

/-- A built-in type or the name of a class. -/
def typeName : Language Tree :=
  word "int" + word "char" + word "boolean" + name

/-- A type and the names declared with it. -/
def typedNames : Language Tree :=
  typeName * name * (mark "," * name)∗ * mark ";"

/-- Statements between braces. -/
def block : Language Tree :=
  mark "\x7b" * node .statements * mark "\x7d"

/-- The arguments of a call. -/
def arguments : Language Tree :=
  mark "(" * node .expressionList * mark ")"

/-- A call of a subroutine, by its name alone or by the name of its class or variable
before it. -/
def subroutineCall : Language Tree :=
  name * arguments + name * mark "." * name * arguments

end Form

open Form in
/-- The children that a node of a production may have, where some tokens are the binary
operators. -/
def Nonterminal.production (operator : Token → Bool) : Nonterminal → Language Tree
  | .classDec =>
      word "class" * name * mark "\x7b" * (node .classVarDec + node .subroutineDec)∗ *
        mark "\x7d"
  | .classVarDec => (word "static" + word "field") * typedNames
  | .subroutineDec =>
      (word "constructor" + word "function" + word "method") * (word "void" + typeName) *
        name * mark "(" * node .parameterList * mark ")" * node .subroutineBody
  | .parameterList => optional (typeName * name * (mark "," * typeName * name)∗)
  | .subroutineBody => mark "\x7b" * (node .varDec)∗ * node .statements * mark "\x7d"
  | .varDec => word "var" * typedNames
  | .statements =>
      (node .letStatement + node .ifStatement + node .whileStatement + node .doStatement +
        node .returnStatement)∗
  | .letStatement =>
      word "let" * name * optional (mark "[" * node .expression * mark "]") * mark "=" *
        node .expression * mark ";"
  | .ifStatement =>
      word "if" * mark "(" * node .expression * mark ")" * block *
        optional (word "else" * block)
  | .whileStatement => word "while" * mark "(" * node .expression * mark ")" * block
  | .doStatement => word "do" * subroutineCall * mark ";"
  | .returnStatement => word "return" * optional (node .expression) * mark ";"
  | .expression => node .term * (token operator * node .term)∗
  | .term =>
      ofKind .integerConstant + ofKind .stringConstant +
        (word "true" + word "false" + word "null" + word "this") +
        name + name * mark "[" * node .expression * mark "]" + subroutineCall +
        mark "(" * node .expression * mark ")" + (mark "-" + mark "~") * node .term
  | .expressionList => optional (node .expression * (mark "," * node .expression)∗)

/-! ## The rules describe the documented grammar -/

/-- The children that a rule describes, whatever its guards decide. -/
def Rule.language (operator : Token → Bool) : Rule → Language Tree
  | .empty => 1
  | .token terminal _ => Form.token terminal.accepts
  | .fail _ => 0
  | .call name => Form.node name
  | .operators name => Form.node name * (Form.token operator * Form.node name)∗
  | .seq first second => first.language operator * second.language operator
  | .branch _ taken otherwise => taken.language operator + otherwise.language operator
  | .many _ item => (item.language operator)∗

namespace Form

theorem token_ofKind (kind : TokenKind) : token (Terminal.ofKind kind).accepts = ofKind kind :=
  rfl

theorem token_either (first second : Terminal) :
    token (Terminal.either first second).accepts =
      token first.accepts + token second.accepts := by
  ext trees
  simp only [Language.mem_add]
  constructor
  · rintro ⟨token, haccepts, rfl⟩
    rcases Bool.or_eq_true_iff.mp haccepts with haccepts | haccepts
    · exact Or.inl ⟨token, haccepts, rfl⟩
    · exact Or.inr ⟨token, haccepts, rfl⟩
  · rintro (⟨token, haccepts, rfl⟩ | ⟨token, haccepts, rfl⟩)
    · exact ⟨token, Bool.or_eq_true_iff.mpr (Or.inl haccepts), rfl⟩
    · exact ⟨token, Bool.or_eq_true_iff.mpr (Or.inr haccepts), rfl⟩

/-- Any one of several texts is the first of them or one of the others. -/
theorem token_isOneOf_cons (kind : TokenKind) (text : String) (texts : List String) :
    token (·.isOneOf kind (text :: texts)) =
      token (·.isOneOf kind [text]) + token (·.isOneOf kind texts) := by
  ext trees
  simp only [Language.mem_add]
  constructor
  · rintro ⟨token, haccepts, rfl⟩
    obtain ⟨hkind, content, hcontent, hvalue⟩ := Token.isOneOf_eq_true_iff.mp haccepts
    rcases List.mem_cons.mp hcontent with rfl | hcontent
    · exact Or.inl ⟨token, Token.isOneOf_eq_true_iff.mpr ⟨hkind, _, by simp, hvalue⟩, rfl⟩
    · exact Or.inr ⟨token, Token.isOneOf_eq_true_iff.mpr ⟨hkind, _, hcontent, hvalue⟩, rfl⟩
  · rintro (⟨token, haccepts, rfl⟩ | ⟨token, haccepts, rfl⟩)
    · obtain ⟨hkind, content, hcontent, hvalue⟩ := Token.isOneOf_eq_true_iff.mp haccepts
      refine ⟨token, Token.isOneOf_eq_true_iff.mpr ⟨hkind, content, ?_, hvalue⟩, rfl⟩
      exact List.mem_cons.mpr (Or.inl (List.mem_singleton.mp hcontent))
    · obtain ⟨hkind, content, hcontent, hvalue⟩ := Token.isOneOf_eq_true_iff.mp haccepts
      refine ⟨token, Token.isOneOf_eq_true_iff.mpr ⟨hkind, content, ?_, hvalue⟩, rfl⟩
      exact List.mem_cons_of_mem text hcontent

theorem token_keyword_cons (text next : String) (texts : List String) :
    token (Terminal.keyword (text :: next :: texts)).accepts =
      word text + token (Terminal.keyword (next :: texts)).accepts :=
  token_isOneOf_cons .keyword text (next :: texts)

theorem token_keyword_singleton (text : String) :
    token (Terminal.keyword [text]).accepts = word text :=
  rfl

theorem token_symbol_cons (text next : String) (texts : List String) :
    token (Terminal.symbol (text :: next :: texts)).accepts =
      mark text + token (Terminal.symbol (next :: texts)).accepts :=
  token_isOneOf_cons .symbol text (next :: texts)

theorem token_symbol_singleton (text : String) :
    token (Terminal.symbol [text]).accepts = mark text :=
  rfl

end Form

namespace Rule

variable (operator : Token → Bool)

theorem language_symbol (mark : String) :
    (symbol mark).language operator = Form.mark mark :=
  rfl

theorem language_identifier : identifier.language operator = Form.name :=
  rfl

theorem language_typeName : (typeName false).language operator = Form.typeName := by
  simp only [typeName, typeStart, typeWords, builtinTypes, language, Form.token_either,
    Form.token_keyword_cons, Form.token_keyword_singleton, Form.token_ofKind, Form.typeName,
    Form.name, add_assoc, Bool.false_eq_true, if_false]

theorem language_typeName_void :
    (typeName true).language operator = Form.word "void" + Form.typeName := by
  simp only [typeName, typeStart, typeWords, builtinTypes, language, Form.token_either,
    List.cons_append, List.nil_append, Form.token_keyword_cons, Form.token_keyword_singleton,
    Form.token_ofKind, Form.typeName, Form.name, if_true]
  abel

theorem language_typedNames : typedNames.language operator = Form.typedNames := by
  simp only [typedNames, Rule.sequence, commaThen, language, language_symbol, language_identifier,
    language_typeName, Form.typedNames, mul_assoc]

theorem language_enclosed (opening closing : String) :
    (enclosed opening closing).language operator =
      Form.mark opening * (Form.node .expression * Form.mark closing) :=
  rfl

theorem language_block : block.language operator = Form.block := by
  simp only [block, Rule.sequence, language, language_symbol, Form.block, mul_assoc]

theorem language_arguments : arguments.language operator = Form.arguments := by
  simp only [arguments, Rule.sequence, language, language_symbol, Form.arguments, mul_assoc]

theorem language_choice_cons (guard : Terminal) (rule : Rule)
    (branches : List (Terminal × Rule)) (otherwise : Rule) :
    (choice ((guard, rule) :: branches) otherwise).language operator =
      rule.language operator + (choice branches otherwise).language operator :=
  rfl

theorem language_choice_nil (otherwise : Rule) :
    (choice [] otherwise).language operator = otherwise.language operator :=
  rfl

/-- What follows the first name of a call, or something else. -/
theorem language_callBranches (otherwise : Rule) :
    (choice callBranches otherwise).language operator =
      Form.mark "." * (Form.name * Form.arguments) +
        (Form.arguments + otherwise.language operator) := by
  simp only [callBranches, language_choice_cons, language_choice_nil, Rule.sequence, language,
    language_symbol, language_identifier, language_arguments]

end Rule

open Rule in
/-- Without its guards, the rule of every production is the documented one. -/
theorem language_rule (operator : Token → Bool) (name : Nonterminal) :
    name.rule.language operator = name.production operator := by
  cases name with
  | classDec =>
      simp only [Nonterminal.rule, Nonterminal.production, Rule.sequence, language, keyword,
        terminal, language_symbol, language_identifier, Form.token_keyword_singleton,
        Form.token_symbol_singleton, mul_assoc]
  | classVarDec =>
      simp only [Nonterminal.rule, Nonterminal.production, language, keyword, terminal,
        classVarWords, language_typedNames, Form.token_keyword_cons,
        Form.token_keyword_singleton]
  | subroutineDec =>
      simp only [Nonterminal.rule, Nonterminal.production, Rule.sequence, language, keyword,
        terminal, subroutineWords, language_symbol, language_identifier,
        language_typeName_void, Form.token_keyword_cons, Form.token_keyword_singleton,
        mul_assoc, add_assoc]
  | parameterList =>
      simp only [Nonterminal.rule, Nonterminal.production, unlessNext, typedName, commaThen,
        language, language_symbol, language_identifier, language_typeName, Form.optional,
        mul_assoc]
      exact add_comm _ _
  | subroutineBody =>
      simp only [Nonterminal.rule, Nonterminal.production, Rule.sequence, language,
        language_symbol, mul_assoc]
  | varDec =>
      simp only [Nonterminal.rule, Nonterminal.production, language, keyword, terminal,
        language_typedNames, Form.token_keyword_singleton]
  | statements =>
      simp only [Nonterminal.rule, Nonterminal.production, statement, language_choice_cons,
        language_choice_nil, language, add_assoc]
  | letStatement =>
      simp only [Nonterminal.rule, Nonterminal.production, Rule.sequence, Rule.optional, language,
        keyword, terminal, language_symbol, language_identifier, language_enclosed,
        Form.token_keyword_singleton, Form.optional, mul_assoc]
  | ifStatement =>
      simp only [Nonterminal.rule, Nonterminal.production, Rule.sequence, Rule.optional, language,
        keyword, terminal, language_enclosed, language_block, Form.token_keyword_singleton,
        Form.optional, mul_assoc]
  | whileStatement =>
      simp only [Nonterminal.rule, Nonterminal.production, Rule.sequence, language, keyword,
        terminal, language_enclosed, language_block, Form.token_keyword_singleton, mul_assoc]
  | doStatement =>
      simp only [Nonterminal.rule, Nonterminal.production, Rule.sequence, language, keyword,
        terminal, language_symbol, language_identifier, language_callBranches,
        Form.token_keyword_singleton, Form.subroutineCall, mul_assoc, mul_add, add_mul,
        add_zero]
      exact add_comm _ _
  | returnStatement =>
      simp only [Nonterminal.rule, Nonterminal.production, Rule.sequence, unlessNext, language,
        keyword, terminal, language_symbol, Form.token_keyword_singleton, Form.optional,
        mul_assoc, add_comm]
  | expression => rfl
  | term =>
      simp only [Nonterminal.rule, Nonterminal.production, language_choice_cons,
        language_choice_nil, language, keyword, terminal, constantWords, unaryOperators,
        language_identifier, language_enclosed, language_callBranches, Form.token_ofKind,
        Form.token_keyword_cons, Form.token_keyword_singleton, Form.token_symbol_cons,
        Form.token_symbol_singleton, Form.subroutineCall, mul_assoc, mul_add, mul_one]
      abel
  | expressionList =>
      simp only [Nonterminal.rule, Nonterminal.production, unlessNext, commaThen, language,
        language_symbol, Form.optional]
      exact add_comm _ _

/-! ## Well-formed trees -/

namespace Nonterminal

/-- The production whose nodes have a label. -/
def ofLabel? (label : String) : Option Nonterminal :=
  [classDec, classVarDec, subroutineDec, parameterList, subroutineBody, varDec, statements,
    letStatement, ifStatement, whileStatement, doStatement, returnStatement, expression, term,
    expressionList].find? fun name => name.label = label

theorem ofLabel?_label (name : Nonterminal) : ofLabel? name.label = some name := by
  cases name <;> rfl

/-- The label of a node tells its production. -/
theorem label_injective {first second : Nonterminal} (hlabel : first.label = second.label) :
    first = second := by
  have hsame : some first = some second := by
    rw [← ofLabel?_label first, hlabel, ofLabel?_label]
  exact Option.some.inj hsame

end Nonterminal

/-- Every node in the tree carries the label of a production, and has children that the
production allows. -/
def Tree.WellFormed (operator : Token → Bool) (tree : Tree) : Prop :=
  ∀ label children, .node label children ∈ tree.preorder →
    ∃ name : Nonterminal, label = name.label ∧ children ∈ name.production operator

end JackSyntax
