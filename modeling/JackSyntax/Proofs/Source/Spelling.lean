import JackSyntax.Proofs.Source.Decomposition

/-!
# Scanning what was written

The tokens that a scan can find are the scannable ones (`Token.Scannable`), and each of
them is found again where its lexeme stands before a blank or at the end of the text
(`Token.Scannable.spells`).  So the lexemes of any scannable tokens, joined by single
spaces, are scanned to the same tokens, all on the first line (`scanFrom_spaced`).
-/

namespace JackSyntax

/-- The lexemes of some tokens with single spaces between them. -/
def joinedLexemes (tokens : List Token) : String :=
  String.intercalate " " (tokens.map Token.lexeme)

/-- Whether a source text can have a token: a reserved word, a symbol, a word that is not
reserved, a number up to the greatest integer, or a text without quotes and line feeds. -/
def Token.Scannable (token : Token) : Prop :=
  match token.kind, token.value with
  | .keyword, .text content => content ∈ Vocabulary.keywords
  | .symbol, .text content => ∃ c ∈ Vocabulary.symbols, content = String.singleton c
  | .identifier, .text content => IsWord content.toList ∧ content ∉ Vocabulary.keywords
  | .integerConstant, .integer number => 0 ≤ number ∧ number ≤ Vocabulary.maxInteger
  | .stringConstant, .text content => '"' ∉ content.toList ∧ '\n' ∉ content.toList
  | _, _ => False

/-! ## Tokens that are found are scannable -/

theorem Spells.scannable {kind : TokenKind} {value : TokenValue} {spelled rest : List Char}
    (hspells : Spells kind value spelled rest) (line column : Int) :
    Token.Scannable ⟨kind, value, line, column⟩ := by
  cases hspells with
  | keyword hword hreserved hend => exact hreserved
  | identifier hword hfree hend => exact ⟨by rwa [String.toList_ofList], hfree⟩
  | integer hdigits hvalue => exact ⟨Int.natCast_nonneg _, Int.ofNat_le.mpr hvalue⟩
  | string hcontent =>
      simp only [Token.Scannable, String.toList_ofList]
      exact hcontent
  | symbol hsymbol hslash => exact ⟨_, hsymbol, rfl⟩

theorem scannable_of_mem_scanFrom (found : List Token) (position : Position) (text : List Char)
    (hfound : ∀ token ∈ found, token.Scannable) :
    ∀ token ∈ (scanFrom found position text).tokens, token.Scannable := by
  fun_induction scanFrom found position text with
  | case1 found position => simpa using hfound
  | case2 found position first text front stop htrivia ih => exact ih hfound
  | case3 found position first text front stop kind value htoken ih =>
      have hsound : front.Sound := Front.sound_read first text
      rw [Front.Sound, htoken] at hsound
      refine ih fun token htoken => ?_
      rcases List.mem_cons.mp htoken with rfl | htoken
      · exact hsound.scannable _ _
      · exact hfound token htoken
  | case4 found position first text front stop fault hfault => simpa using hfound

theorem scannable_of_tokenize {source : String} {tokens : List Token}
    (htokens : tokenize source = .ok tokens) : ∀ token ∈ tokens, token.Scannable := by
  obtain ⟨-, rfl⟩ := tokenize_eq_ok_iff.mp htokens
  exact scannable_of_mem_scanFrom [] .start source.toList (by simp)

/-! ## Scannable tokens are found -/

theorem isWord_of_mem_keywords {word : String} (hword : word ∈ Vocabulary.keywords) :
    IsWord word.toList := by
  have hall : ∀ word ∈ Vocabulary.keywords, word.toList.head?.any isWordStart = true ∧
      word.toList.all isWordChar = true := by
    decide +kernel
  obtain ⟨hstart, hchars⟩ := hall word hword
  cases hlist : word.toList with
  | nil => simp [hlist] at hstart
  | cons first more =>
      rw [hlist, List.all_cons, Bool.and_eq_true] at hchars
      exact ⟨first, more, rfl, by simpa [hlist] using hstart, List.all_eq_true.mp hchars.2⟩

/-- What stands after a lexeme in a list of lexemes with spaces between them. -/
def SpaceOrEnd (rest : List Char) : Prop :=
  rest = [] ∨ rest.head? = some ' '

theorem SpaceOrEnd.not_any {rest : List Char} (hrest : SpaceOrEnd rest) {test : Char → Bool}
    (htest : test ' ' = false) : rest.head?.any test = false := by
  rcases hrest with rfl | hrest
  · rfl
  · rw [hrest, Option.any_some, htest]

theorem digitRun_repr (number : Nat) {rest : List Char} (hrest : SpaceOrEnd rest) :
    DigitRun number.repr.toList rest where
  ne_nil := by
    intro hnil
    have hpos : 0 < number.repr.length := Nat.length_repr_pos
    rw [← String.length_toList, hnil] at hpos
    exact Nat.lt_irrefl 0 hpos
  isDigit := by
    intro c hc
    rw [Nat.toList_repr] at hc
    exact Nat.isDigit_of_mem_toDigits (by decide) (by decide) hc
  stops := hrest.not_any (by decide)

theorem IsWord.not_digitRun {word rest : List Char} (hword : IsWord word) :
    ¬ DigitRun word rest := by
  obtain ⟨first, more, rfl, hstart, -⟩ := hword
  intro hrun
  have hdigit := hrun.isDigit first List.mem_cons_self
  rw [not_isDigit_of_isWordStart hstart] at hdigit
  exact Bool.false_ne_true hdigit

/-- Only integer constants are spelled by digits. -/
theorem Spells.kind_of_digitRun {kind : TokenKind} {value : TokenValue}
    {spelled rest : List Char} (hspells : Spells kind value spelled rest)
    (hrun : DigitRun spelled rest) : kind = .integerConstant := by
  cases hspells with
  | keyword hword hreserved hend => exact absurd hrun hword.not_digitRun
  | identifier hword hfree hend => exact absurd hrun hword.not_digitRun
  | integer hdigits hvalue => rfl
  | string hcontent =>
      have hquote := hrun.isDigit '"' List.mem_cons_self
      exact absurd hquote (by decide)
  | @symbol c rest hsymbol hslash =>
      have hdigit := hrun.isDigit c List.mem_cons_self
      rw [(apart_of_mem_symbols c hsymbol).2.1] at hdigit
      exact absurd hdigit Bool.false_ne_true

/-- A scannable token is spelled by its lexeme. -/
theorem Token.Scannable.spells {token : Token} (htoken : token.Scannable) {rest : List Char}
    (hrest : SpaceOrEnd rest) :
    Spells token.kind token.value token.lexeme.toList rest := by
  obtain ⟨kind, value, line, column⟩ := token
  cases kind with
  | keyword =>
      cases value with
      | integer number => exact htoken.elim
      | text content =>
          have hreserved : content ∈ Vocabulary.keywords := htoken
          have hspells := Spells.keyword (isWord_of_mem_keywords hreserved)
            (by rwa [String.ofList_toList]) (hrest.not_any (by decide))
          rwa [String.ofList_toList] at hspells
  | symbol =>
      cases value with
      | integer number => exact htoken.elim
      | text content =>
          obtain ⟨c, hsymbol, rfl⟩ := htoken
          have hlexeme : (String.singleton c).toList = [c] := String.toList_singleton c
          have hslash : rest.head? ≠ some '/' ∧ rest.head? ≠ some '*' := by
            rcases hrest with rfl | hrest
            · exact ⟨by simp, by simp⟩
            · rw [hrest]
              exact ⟨by decide, by decide⟩
          have hspells := Spells.symbol hsymbol fun _ => hslash
          rwa [← hlexeme] at hspells
  | identifier =>
      cases value with
      | integer number => exact htoken.elim
      | text content =>
          obtain ⟨hword, hfree⟩ := htoken
          have hspells := Spells.identifier hword (by rwa [String.ofList_toList])
            (hrest.not_any (by decide))
          rwa [String.ofList_toList] at hspells
  | integerConstant =>
      cases value with
      | text content => exact htoken.elim
      | integer number =>
          obtain ⟨hnonneg, hlimit⟩ := htoken
          obtain ⟨value, rfl⟩ := Int.eq_ofNat_of_zero_le hnonneg
          have hvalue : digitsValue value.repr.toList ≤ Vocabulary.maxInteger := by
            rw [digitsValue_repr]
            exact Int.ofNat_le.mp hlimit
          have hspells := Spells.integer (digitRun_repr value hrest) hvalue
          rwa [digitsValue_repr] at hspells
  | stringConstant =>
      cases value with
      | integer number => exact htoken.elim
      | text content =>
          have hspells : Spells .stringConstant (.text (String.ofList content.toList))
              ('"' :: (content.toList ++ ['"'])) rest := .string htoken
          have hlexeme : Token.lexeme ⟨.stringConstant, .text content, line, column⟩ =
              "\"" ++ content ++ "\"" := rfl
          rw [String.ofList_toList] at hspells
          rw [hlexeme, String.toList_append, String.toList_append]
          exact hspells

theorem Token.Scannable.length_le {token : Token} (htoken : token.Scannable)
    (hkind : token.kind = .integerConstant) :
    token.lexeme.toList.length ≤ Vocabulary.maxDigits := by
  obtain ⟨kind, value, line, column⟩ := token
  obtain rfl : kind = .integerConstant := hkind
  cases value with
  | text content => exact htoken.elim
  | integer number =>
      obtain ⟨hnonneg, hlimit⟩ := htoken
      obtain ⟨value, rfl⟩ := Int.eq_ofNat_of_zero_le hnonneg
      have hsmall : value ≤ Vocabulary.maxInteger := Int.ofNat_le.mp hlimit
      have hlexeme : Token.lexeme ⟨.integerConstant, .integer value, line, column⟩ =
          value.repr := rfl
      have hlength : value.repr.length ≤ 5 := by
        rw [Nat.length_repr_le_iff (by decide)]
        exact Nat.lt_of_le_of_lt hsmall (by decide)
      rw [hlexeme, String.length_toList]
      exact Nat.le_trans hlength (by decide)

/-- The lexeme of a scannable token is read as that token. -/
theorem Token.Scannable.read? {token : Token} (htoken : token.Scannable) {rest : List Char}
    (hrest : SpaceOrEnd rest) :
    Front.read? (token.lexeme.toList ++ rest) =
      some ⟨.token token.kind token.value, token.lexeme.toList, rest⟩ :=
  Front.read?_of_spells (htoken.spells hrest) fun hrun =>
    htoken.length_le ((htoken.spells hrest).kind_of_digitRun hrun)

/-! ## Places on one line -/

theorem Spells.not_mem_feed {kind : TokenKind} {value : TokenValue} {spelled rest : List Char}
    (hspells : Spells kind value spelled rest) : '\n' ∉ spelled := by
  have hword : ∀ {word : List Char}, IsWord word → '\n' ∉ word := by
    rintro _ ⟨first, more, rfl, hstart, hmore⟩ hfeed
    rcases List.mem_cons.mp hfeed with rfl | hfeed
    · exact absurd hstart (by decide)
    · exact absurd (hmore _ hfeed) (by decide)
  cases hspells with
  | keyword hisWord hreserved hend => exact hword hisWord
  | identifier hisWord hfree hend => exact hword hisWord
  | integer hdigits hvalue =>
      intro hfeed
      exact absurd (hdigits.isDigit _ hfeed) (by decide)
  | string hcontent => simpa using hcontent.2
  | @symbol c rest hsymbol hslash =>
      rw [List.mem_singleton]
      rintro rfl
      exact absurd hsymbol (by decide)

theorem Position.after_of_not_mem_feed {text : List Char} (htext : '\n' ∉ text)
    (position : Position) :
    position.after text =
      ⟨position.offset + text.length, position.line, position.column + text.length⟩ := by
  induction text generalizing position with
  | nil => rfl
  | cons c text ih =>
      rw [List.mem_cons, not_or] at htext
      rw [Position.after_cons, ih htext.2, Position.next, if_neg (Ne.symm htext.1)]
      simp only [List.length_cons, Position.mk.injEq, true_and]
      omega

/-- Some tokens on a line, with single spaces between them, from a column on. -/
def placedOn (line column : Nat) : List Token → List Token
  | [] => []
  | token :: tokens =>
      { token with line := line, column := column } ::
        placedOn line (column + token.lexeme.length + 1) tokens

theorem map_content_placedOn (line column : Nat) (tokens : List Token) :
    (placedOn line column tokens).map Token.content = tokens.map Token.content := by
  induction tokens generalizing column with
  | nil => rfl
  | cons token tokens ih => simp [placedOn, ih, Token.content]

theorem map_lexeme_placedOn (line column : Nat) (tokens : List Token) :
    (placedOn line column tokens).map Token.lexeme = tokens.map Token.lexeme := by
  induction tokens generalizing column with
  | nil => rfl
  | cons token tokens ih => simp [placedOn, ih, Token.lexeme]

theorem getElem?_placedOn {line column index : Nat} {tokens : List Token} {token : Token}
    (htoken : (placedOn line column tokens)[index]? = some token) :
    token.line = line ∧
      token.column = ((column +
        ((tokens.take index).map fun earlier => earlier.lexeme.length + 1).sum : Nat) : Int) := by
  induction tokens generalizing column index with
  | nil => simp [placedOn] at htoken
  | cons first tokens ih =>
      cases index with
      | zero =>
          simp only [placedOn, List.getElem?_cons_zero, Option.some.injEq] at htoken
          simp [← htoken]
      | succ index =>
          rw [placedOn, List.getElem?_cons_succ] at htoken
          obtain ⟨hline, hcolumn⟩ := ih htoken
          refine ⟨hline, ?_⟩
          rw [hcolumn, List.take_succ_cons, List.map_cons, List.sum_cons]
          omega

/-! ## Scanning joined lexemes -/

/-- The lexemes of some tokens with single spaces between them, as characters. -/
def spaced (tokens : List Token) : List Char :=
  [' '].intercalate (tokens.map fun token => token.lexeme.toList)

theorem toList_joinedLexemes (tokens : List Token) :
    (joinedLexemes tokens).toList = spaced tokens := by
  rw [joinedLexemes, String.toList_intercalate, List.map_map]
  rfl

/-- The first lexeme is scanned, and the space after it passed over. -/
theorem scanFrom_spaced_cons {token : Token} (htoken : token.Scannable) (tokens : List Token)
    (found : List Token) (position : Position) :
    scanFrom found position (spaced (token :: tokens)) =
      scanFrom (⟨token.kind, token.value, position.line, position.column⟩ :: found)
        (position.after (token.lexeme.toList ++ if tokens.isEmpty then [] else [' ']))
        (spaced tokens) := by
  cases tokens with
  | nil =>
      have htext : spaced [token] = token.lexeme.toList ++ [] := by simp [spaced]
      rw [htext, scanFrom_of_token found position (htoken.read? (Or.inl rfl))]
      simp [spaced]
  | cons next tokens =>
      have htext : spaced (token :: next :: tokens) =
          token.lexeme.toList ++ ' ' :: spaced (next :: tokens) := by
        simp [spaced]
      have hspace : Front.read? (' ' :: spaced (next :: tokens)) =
          some ⟨.trivia, [' '], spaced (next :: tokens)⟩ :=
        congrArg some (Front.read_of_isBlank (by decide) _)
      rw [htext, scanFrom_of_token found position (htoken.read? (Or.inr rfl)),
        scanFrom_of_trivia _ _ hspace, Position.after_append]
      rfl

/-- Scannable tokens written with spaces between them are scanned again, where they now
stand. -/
theorem scanFrom_spaced {tokens : List Token} (htokens : ∀ token ∈ tokens, token.Scannable)
    (found : List Token) (position : Position) :
    (scanFrom found position (spaced tokens)).error? = none ∧
      (scanFrom found position (spaced tokens)).tokens =
        found.reverse ++ placedOn position.line position.column tokens := by
  induction tokens generalizing found position with
  | nil => simp [spaced, scanFrom, placedOn]
  | cons token tokens ih =>
      have htoken := htokens token List.mem_cons_self
      have hfeed : '\n' ∉ token.lexeme.toList := (htoken.spells (Or.inl rfl)).not_mem_feed
      rw [scanFrom_spaced_cons htoken]
      obtain ⟨herror, hscanned⟩ := ih
        (fun other hother => htokens other (List.mem_cons_of_mem token hother))
        (⟨token.kind, token.value, position.line, position.column⟩ :: found)
        (position.after (token.lexeme.toList ++ if tokens.isEmpty then [] else [' ']))
      refine ⟨herror, ?_⟩
      rw [hscanned]
      cases tokens with
      | nil => simp [placedOn]
      | cons next tokens =>
          have hspace : '\n' ∉ token.lexeme.toList ++ [' '] := by simpa using hfeed
          simp only [List.isEmpty_cons, Bool.false_eq_true, if_false]
          rw [Position.after_of_not_mem_feed hspace]
          simp [placedOn, Nat.add_assoc, String.length_toList]

/-! ## The main result -/

/-- All tokens of a source text are scannable, and scannable tokens are found again, in the
same order and on one line, in the text of their lexemes with single spaces between them.
So that text is not changed by scanning it and joining the lexemes again. -/
theorem tokenize_joinedLexemes :
    (∀ source tokens, tokenize source = .ok tokens → ∀ token ∈ tokens, token.Scannable) ∧
      (∀ tokens : List Token, (∀ token ∈ tokens, token.Scannable) →
        ∃ scanned, tokenize (joinedLexemes tokens) = .ok scanned ∧
          scanned.map Token.content = tokens.map Token.content ∧
          (∀ index token, scanned[index]? = some token → token.line = 1 ∧
            token.column = ((1 +
              ((tokens.take index).map fun earlier => earlier.lexeme.length + 1).sum : Nat) :
                Int)) ∧
          joinedLexemes scanned = joinedLexemes tokens) ∧
      ∀ source tokens, tokenize source = .ok tokens →
        ∃ scanned, tokenize (joinedLexemes tokens) = .ok scanned ∧
          joinedLexemes scanned = joinedLexemes tokens := by
  have hscannable : ∀ source tokens, tokenize source = .ok tokens →
      ∀ token ∈ tokens, token.Scannable := by
    intro source tokens hread
    obtain ⟨-, rfl⟩ := tokenize_eq_ok_iff.mp hread
    exact scannable_of_mem_scanFrom [] .start source.toList (by simp)
  have hagain : ∀ tokens : List Token, (∀ token ∈ tokens, token.Scannable) →
      tokenize (joinedLexemes tokens) = .ok (placedOn 1 1 tokens) := by
    intro tokens htokens
    rw [tokenize_eq_ok_iff, scan, toList_joinedLexemes]
    exact scanFrom_spaced htokens [] .start
  have hjoined : ∀ tokens, joinedLexemes (placedOn 1 1 tokens) = joinedLexemes tokens := by
    intro tokens
    rw [joinedLexemes, map_lexeme_placedOn, joinedLexemes]
  refine ⟨hscannable, fun tokens htokens => ?_, fun source tokens hread => ?_⟩
  · exact ⟨_, hagain tokens htokens, map_content_placedOn 1 1 tokens,
      fun index token htoken => getElem?_placedOn htoken, hjoined tokens⟩
  · exact ⟨_, hagain tokens (hscannable source tokens hread), hjoined tokens⟩

end JackSyntax
