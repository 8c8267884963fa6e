import JackSyntax.Source.Scan
import Mathlib

/-!
# The lexical grammar

What a source text is made of, said without a reader: the pieces that separate tokens
(`Separates`), and the lexemes of tokens (`Spells`).  Both are relations to the text that
comes after, since a word, a number or a line comment ends only where it cannot go on,
and a slash is a symbol only where it opens no comment.

The front of a text is read by this grammar, in both directions:

* `Front.read?_of_separates` and `Front.read?_of_spells`: where a piece or a lexeme stands,
  it is what is read there.
* `Front.sound_read`: what is read as a piece or as a token is one.
-/

namespace JackSyntax

/-! ## Pieces and lexemes -/

/-- A piece of text that separates tokens, before the rest of the text. -/
inductive Separates : List Char → List Char → Prop
  | blank {c : Char} {rest : List Char} (hblank : isBlank c = true) : Separates [c] rest
  /-- From two slashes up to the next line feed, or to the end of the text. -/
  | lineComment {content rest : List Char} (hcontent : '\n' ∉ content)
      (hend : rest = [] ∨ rest.head? = some '\n') :
      Separates ('/' :: '/' :: content) rest
  /-- From a slash and a star to the first star and slash after them. -/
  | blockComment {content rest : List Char} (hcontent : ¬ ['*', '/'] <:+: content) :
      Separates ('/' :: '*' :: (content ++ ['*', '/'])) rest

/-- Whether some characters are a word: one that may begin a word, and then any that may
be in a word. -/
def IsWord (word : List Char) : Prop :=
  ∃ first more, word = first :: more ∧ isWordStart first = true ∧
    ∀ c ∈ more, isWordChar c = true

/-- A run of digits that goes on as far as it can. -/
structure DigitRun (digits rest : List Char) : Prop where
  ne_nil : digits ≠ []
  isDigit : ∀ c ∈ digits, c.isDigit = true
  stops : rest.head?.any Char.isDigit = false

/-- The lexeme of a token of some kind and value, before the rest of the text. -/
inductive Spells : TokenKind → TokenValue → List Char → List Char → Prop
  | keyword {word rest : List Char} (hword : IsWord word)
      (hreserved : String.ofList word ∈ Vocabulary.keywords)
      (hend : rest.head?.any isWordChar = false) :
      Spells .keyword (.text (String.ofList word)) word rest
  | identifier {word rest : List Char} (hword : IsWord word)
      (hfree : String.ofList word ∉ Vocabulary.keywords)
      (hend : rest.head?.any isWordChar = false) :
      Spells .identifier (.text (String.ofList word)) word rest
  | integer {digits rest : List Char} (hdigits : DigitRun digits rest)
      (hvalue : digitsValue digits ≤ Vocabulary.maxInteger) :
      Spells .integerConstant (.integer (digitsValue digits)) digits rest
  | string {content rest : List Char} (hcontent : '"' ∉ content ∧ '\n' ∉ content) :
      Spells .stringConstant (.text (String.ofList content)) ('"' :: (content ++ ['"'])) rest
  | symbol {c : Char} {rest : List Char} (hsymbol : c ∈ Vocabulary.symbols)
      (hslash : c = '/' → rest.head? ≠ some '/' ∧ rest.head? ≠ some '*') :
      Spells .symbol (.text (String.singleton c)) [c] rest

/-! ## Runs of characters -/

section Runs

variable {test : Char → Bool} {run rest : List Char}

theorem takeWhile_run (hrun : ∀ c ∈ run, test c = true) (hend : rest.head?.any test = false) :
    (run ++ rest).takeWhile test = run := by
  rw [List.takeWhile_append_of_pos hrun]
  cases rest with
  | nil => simp
  | cons c rest =>
      have hc : ¬ test c = true := by simpa using hend
      rw [List.takeWhile_cons_of_neg hc, List.append_nil]

theorem dropWhile_run (hrun : ∀ c ∈ run, test c = true) (hend : rest.head?.any test = false) :
    (run ++ rest).dropWhile test = rest := by
  rw [List.dropWhile_append_of_pos hrun]
  cases rest with
  | nil => rfl
  | cons c rest =>
      have hc : ¬ test c = true := by simpa using hend
      rw [List.dropWhile_cons_of_neg hc]

theorem head?_dropWhile (test : Char → Bool) (text : List Char) :
    (text.dropWhile test).head?.any test = false := by
  induction text with
  | nil => rfl
  | cons c text ih =>
      cases hc : test c with
      | true => rwa [List.dropWhile_cons_of_pos hc]
      | false => simp [hc]

end Runs

theorem isStringChar_iff {c : Char} : isStringChar c = true ↔ c ≠ '"' ∧ c ≠ '\n' := by
  simp [isStringChar]

theorem forall_isStringChar_iff {content : List Char} :
    (∀ c ∈ content, isStringChar c = true) ↔ '"' ∉ content ∧ '\n' ∉ content := by
  simp only [isStringChar_iff]
  constructor
  · intro hcontent
    exact ⟨fun hquote => (hcontent _ hquote).1 rfl, fun hfeed => (hcontent _ hfeed).2 rfl⟩
  · rintro ⟨hquote, hfeed⟩ c hc
    exact ⟨fun heq => hquote (heq ▸ hc), fun heq => hfeed (heq ▸ hc)⟩

/-! ## Where pieces and lexemes begin -/

theorem not_isDigit_of_isWordStart {c : Char} (hstart : isWordStart c = true) :
    c.isDigit = false := by
  rw [isWordStart, Bool.or_eq_true, decide_eq_true_eq] at hstart
  rcases hstart with hletter | rfl
  · rw [Bool.eq_false_iff]
    intro hdigit
    simp only [Char.isAlpha, Char.isUpper, Char.isLower, Bool.or_eq_true, Bool.and_eq_true,
      decide_eq_true_eq] at hletter
    simp only [Char.isDigit, Bool.and_eq_true, decide_eq_true_eq] at hdigit
    grind
  · decide

theorem ne_quote_of_isWordStart {c : Char} (hstart : isWordStart c = true) : c ≠ '"' := by
  rintro rfl
  exact absurd hstart (by decide)

theorem ne_quote_of_isDigit {c : Char} (hdigit : c.isDigit = true) : c ≠ '"' := by
  rintro rfl
  exact absurd hdigit (by decide)

theorem apart_of_isBlank {c : Char} (hblank : isBlank c = true) :
    c ≠ '"' ∧ c.isDigit = false ∧ isWordStart c = false := by
  simp only [isBlank, Bool.or_eq_true, decide_eq_true_eq] at hblank
  rcases hblank with (((rfl | rfl) | rfl) | rfl) | rfl <;> decide

theorem apart_of_mem_symbols : ∀ c ∈ Vocabulary.symbols,
    c ≠ '"' ∧ c.isDigit = false ∧ isWordStart c = false ∧ isBlank c = false := by
  have hall : Vocabulary.symbols.all (fun c =>
      c ≠ '"' ∧ c.isDigit = false ∧ isWordStart c = false ∧ isBlank c = false) = true := by
    decide
  exact fun c hc => of_decide_eq_true (List.all_eq_true.mp hall c hc)

namespace Front

/-! ## What stands there is read -/

theorem read_of_isDigit {first : Char} (hdigit : first.isDigit = true) (text : List Char) :
    read first text = readInteger first text := by
  rw [read, if_neg (ne_quote_of_isDigit hdigit), if_pos hdigit]

theorem read_of_isWordStart {first : Char} (hstart : isWordStart first = true)
    (text : List Char) : read first text = readWord first text := by
  rw [read, if_neg (ne_quote_of_isWordStart hstart),
    if_neg (by simp [not_isDigit_of_isWordStart hstart]), if_pos hstart]

theorem read_of_isBlank {first : Char} (hblank : isBlank first = true) (text : List Char) :
    read first text = ⟨.trivia, [first], text⟩ := by
  obtain ⟨hquote, hdigit, hstart⟩ := apart_of_isBlank hblank
  rw [read, if_neg hquote, if_neg (by simp [hdigit]), if_neg (by simp [hstart]), if_pos hblank]

theorem read_slash (text : List Char) : read '/' text = readSlash text := by
  obtain ⟨hquote, hdigit, hstart, hblank⟩ := apart_of_mem_symbols '/' (by decide)
  rw [read, if_neg hquote, if_neg (by simp [hdigit]), if_neg (by simp [hstart]),
    if_neg (by simp [hblank]), if_pos rfl]

theorem readBlockComment_eq {content : List Char} (hcontent : ¬ ['*', '/'] <:+: content)
    (before rest : List Char) :
    readBlockComment before (content ++ ['*', '/'] ++ rest) =
      ⟨.trivia, before.reverse ++ content ++ ['*', '/'], rest⟩ := by
  induction content generalizing before with
  | nil => simp [readBlockComment]
  | cons c content ih =>
      have hmore := ih
        (fun hinside => hcontent (hinside.trans (List.suffix_cons c content).isInfix)) (c :: before)
      have hopen : ∀ more, c :: (content ++ ['*', '/'] ++ rest) ≠ '*' :: '/' :: more := by
        intro more heq
        obtain ⟨rfl, hrest⟩ := List.cons.inj heq
        cases content with
        | nil => simp at hrest
        | cons next content =>
            obtain ⟨rfl, -⟩ := List.cons.inj hrest
            exact hcontent ⟨[], content, rfl⟩
      rw [List.cons_append, List.cons_append, readBlockComment]
      · rw [hmore]
        simp
      · intro more hstar hslash
        exact hopen more (by rw [hstar, hslash])

/-- The front of a text, if it is not empty. -/
def read? : List Char → Option Front
  | [] => none
  | first :: text => some (read first text)

theorem read?_eq_some_iff {text : List Char} {front : Front} :
    read? text = some front ↔ ∃ first more, text = first :: more ∧ read first more = front := by
  cases text <;> simp [read?]

/-- Where a separating piece stands, it is read as such. -/
theorem read?_of_separates {piece rest : List Char} (hpiece : Separates piece rest) :
    read? (piece ++ rest) = some ⟨.trivia, piece, rest⟩ := by
  cases hpiece with
  | blank hblank => exact congrArg some (read_of_isBlank hblank rest)
  | @lineComment content rest hcontent hend =>
      have hrun : ∀ c ∈ content, decide (c ≠ '\n') = true := fun c hc =>
        decide_eq_true fun heq => hcontent (heq ▸ hc)
      have hstop : rest.head?.any (fun c => decide (c ≠ '\n')) = false := by
        rcases hend with rfl | hend <;> simp [*]
      rw [List.cons_append, List.cons_append, read?, read_slash, readSlash, readLineComment,
        takeWhile_run hrun hstop, dropWhile_run hrun hstop]
  | blockComment hcontent =>
      rw [List.cons_append, List.cons_append, read?, read_slash, readSlash,
        readBlockComment_eq hcontent]
      simp

/-- Where a run of digits stands, it is read as a number. -/
theorem read?_of_digitRun {digits rest : List Char} (hdigits : DigitRun digits rest) :
    read? (digits ++ rest) = some ⟨integerReading digits, digits, rest⟩ := by
  obtain ⟨hne, hdigit, hend⟩ := hdigits
  cases digits with
  | nil => exact absurd rfl hne
  | cons first more =>
      have hmore : ∀ c ∈ more, c.isDigit = true := fun c hc =>
        hdigit c (List.mem_cons_of_mem first hc)
      rw [List.cons_append, read?, read_of_isDigit (hdigit first List.mem_cons_self),
        readInteger, takeWhile_run hmore hend, dropWhile_run hmore hend]

/-- Where a word stands, it is read as such. -/
theorem read?_of_word {word rest : List Char} (hword : IsWord word)
    (hend : rest.head?.any isWordChar = false) :
    read? (word ++ rest) =
      some ⟨.token (wordKind (String.ofList word)) (.text (String.ofList word)), word, rest⟩ := by
  obtain ⟨first, more, rfl, hstart, hmore⟩ := hword
  rw [List.cons_append, read?, read_of_isWordStart hstart, readWord, takeWhile_run hmore hend,
    dropWhile_run hmore hend]

theorem read?_of_symbol {c : Char} {rest : List Char} (hsymbol : c ∈ Vocabulary.symbols)
    (hslash : c = '/' → rest.head? ≠ some '/' ∧ rest.head? ≠ some '*') :
    read? (c :: rest) = some ⟨.token .symbol (.text (String.singleton c)), [c], rest⟩ := by
  obtain ⟨hquote, hdigit, hstart, hblank⟩ := apart_of_mem_symbols c hsymbol
  have hread : readSymbol c rest = ⟨.token .symbol (.text (String.singleton c)), [c], rest⟩ := by
    rw [readSymbol, if_pos hsymbol]
  by_cases hc : c = '/'
  · subst hc
    rw [read?, read_slash, readSlash]
    · rw [hread]
    · rintro more rfl
      exact (hslash rfl).1 rfl
    · rintro more rfl
      exact (hslash rfl).2 rfl
  · rw [read?, read, if_neg hquote, if_neg (by simp [hdigit]), if_neg (by simp [hstart]),
      if_neg (by simp [hblank]), if_neg hc, hread]

/-- Where a lexeme stands, it is read as its token, if it is not too long a run of
digits. -/
theorem read?_of_spells {kind : TokenKind} {value : TokenValue} {spelled rest : List Char}
    (hspells : Spells kind value spelled rest)
    (hlimit : DigitRun spelled rest → spelled.length ≤ Vocabulary.maxDigits) :
    read? (spelled ++ rest) = some ⟨.token kind value, spelled, rest⟩ := by
  cases hspells with
  | keyword hword hreserved hend => rw [read?_of_word hword hend, wordKind, if_pos hreserved]
  | identifier hword hfree hend => rw [read?_of_word hword hend, wordKind, if_neg hfree]
  | integer hdigits hvalue =>
      have hlength := hlimit hdigits
      rw [read?_of_digitRun hdigits, integerReading, if_neg (Nat.not_lt.mpr hlength),
        if_neg (Nat.not_lt.mpr hvalue)]
  | @string content rest hcontent =>
      have hrun := forall_isStringChar_iff.mpr hcontent
      have hstop : ('"' :: rest).head?.any isStringChar = false := by simp [isStringChar]
      have htext : '"' :: (content ++ ['"']) ++ rest = '"' :: (content ++ '"' :: rest) := by simp
      rw [htext, read?, read, if_pos rfl, readString, takeWhile_run hrun hstop,
        dropWhile_run hrun hstop]
      rfl
  | symbol hsymbol hslash => exact read?_of_symbol hsymbol hslash

/-! ## What is read stands there -/

/-- What a front is read as, said by the lexical grammar. -/
def Sound (front : Front) : Prop :=
  match front.reading with
  | .trivia => Separates front.spelled front.rest
  | .token kind value => Spells kind value front.spelled front.rest
  | .fault _ => True

theorem sound_readString (text : List Char) : (readString text).Sound := by
  have hcontent : ∀ c ∈ text.takeWhile isStringChar, isStringChar c = true := fun c hc =>
    List.mem_takeWhile_imp hc
  unfold readString
  split
  · exact .string (forall_isStringChar_iff.mp hcontent)
  · exact trivial

theorem digitRun_takeWhile {first : Char} (hdigit : first.isDigit = true) (text : List Char) :
    DigitRun (first :: text.takeWhile Char.isDigit) (text.dropWhile Char.isDigit) where
  ne_nil := List.cons_ne_nil _ _
  isDigit := by
    intro c hc
    rcases List.mem_cons.mp hc with rfl | hc
    · exact hdigit
    · exact List.mem_takeWhile_imp hc
  stops := head?_dropWhile Char.isDigit text

theorem sound_integer {digits rest : List Char} (hdigits : DigitRun digits rest) :
    Sound ⟨integerReading digits, digits, rest⟩ := by
  unfold integerReading
  split
  · exact trivial
  split
  · exact trivial
  · next hvalue => exact .integer hdigits (Nat.not_lt.mp hvalue)

theorem sound_word {word rest : List Char} (hword : IsWord word)
    (hend : rest.head?.any isWordChar = false) :
    Sound ⟨.token (wordKind (String.ofList word)) (.text (String.ofList word)), word, rest⟩ := by
  unfold wordKind
  split
  · next hreserved => exact .keyword hword hreserved hend
  · next hfree => exact .identifier hword hfree hend

theorem sound_readWord {first : Char} (hstart : isWordStart first = true) (text : List Char) :
    (readWord first text).Sound :=
  sound_word ⟨first, _, rfl, hstart, fun _ hc => List.mem_takeWhile_imp hc⟩
    (head?_dropWhile isWordChar text)

theorem sound_readSymbol {c : Char} {text : List Char}
    (hslash : c = '/' → text.head? ≠ some '/' ∧ text.head? ≠ some '*') :
    (readSymbol c text).Sound := by
  unfold readSymbol
  split
  · next hsymbol => exact .symbol hsymbol hslash
  · exact trivial

theorem sound_readLineComment (text : List Char) : (readLineComment text).Sound := by
  have hcontent : '\n' ∉ text.takeWhile (fun c => decide (c ≠ '\n')) := fun hfeed =>
    absurd (List.mem_takeWhile_imp hfeed) (by simp)
  have hstop := head?_dropWhile (fun c => decide (c ≠ '\n')) text
  refine Separates.lineComment hcontent ?_
  change text.dropWhile (fun c => decide (c ≠ '\n')) = [] ∨
    (text.dropWhile (fun c => decide (c ≠ '\n'))).head? = some '\n'
  cases hrest : text.dropWhile (fun c => decide (c ≠ '\n')) with
  | nil => exact Or.inl rfl
  | cons c rest =>
      rw [hrest] at hstop
      right
      simpa using hstop

/-- One more character completes a star and slash only as a slash after a star. -/
theorem not_infix_concat {content : List Char} {c : Char} (hcontent : ¬ ['*', '/'] <:+: content)
    (hlast : content.getLast? = some '*' → c ≠ '/') : ¬ ['*', '/'] <:+: content ++ [c] := by
  rw [List.infix_concat_iff, List.suffix_concat_iff]
  rintro ((hnil | ⟨before, heq, hsuffix⟩) | hinside)
  · exact List.cons_ne_nil _ _ hnil
  · have hsplit : ['*'] ++ ['/'] = before ++ [c] := heq
    obtain ⟨rfl, hc⟩ := List.append_inj' hsplit rfl
    obtain ⟨earlier, rfl⟩ := hsuffix
    exact hlast (by simp) (List.singleton_inj.mp hc).symm
  · exact hcontent hinside

/-- A comment that has not ended goes on by one more character, unless that character and
the next one end it. -/
theorem open_concat {content text : List Char} {c : Char} (hcontent : ¬ ['*', '/'] <:+: content)
    (hlast : content.getLast? = some '*' → (c :: text).head? ≠ some '/')
    (hopen : ∀ more, c = '*' → text = '/' :: more → False) :
    ¬ ['*', '/'] <:+: content ++ [c] ∧
      ((content ++ [c]).getLast? = some '*' → text.head? ≠ some '/') := by
  refine ⟨not_infix_concat hcontent fun hstar hslash => ?_, fun hstar hslash => ?_⟩
  · exact hlast hstar (by rw [hslash]; rfl)
  · obtain ⟨more, rfl⟩ := List.head?_eq_some_iff.mp hslash
    exact hopen more (by simpa using hstar) rfl

/-- A comment that has been read as far as some characters after its opening, with no star
and slash among them. -/
theorem sound_readBlockComment {content text : List Char}
    (hcontent : ¬ ['*', '/'] <:+: content)
    (hlast : content.getLast? = some '*' → text.head? ≠ some '/') :
    (readBlockComment (content.reverse ++ ['*', '/']) text).Sound := by
  generalize hbefore : content.reverse ++ ['*', '/'] = before
  fun_induction readBlockComment before text generalizing content with
  | case1 before rest =>
      subst hbefore
      have hpiece : Separates ('/' :: '*' :: (content ++ ['*', '/'])) rest := .blockComment hcontent
      simpa [Sound] using hpiece
  | case2 before c rest hopen ih =>
      obtain ⟨hmore, hend⟩ := open_concat hcontent hlast hopen
      exact ih hmore hend (by simp [← hbefore])
  | case3 before => exact trivial

/-- What is read as a piece or as a token is one. -/
theorem sound_read (first : Char) (text : List Char) : (read first text).Sound := by
  unfold read
  split
  · exact sound_readString text
  split
  · next hdigit => exact sound_integer (digitRun_takeWhile hdigit text)
  split
  · next hstart => exact sound_readWord hstart text
  split
  · next hblank => exact .blank hblank
  split
  · unfold readSlash
    split
    · exact sound_readLineComment _
    · exact @sound_readBlockComment [] _ (by simp) (by simp)
    · next hline hblock =>
        refine sound_readSymbol fun _ => ⟨fun hnext => ?_, fun hnext => ?_⟩
        · obtain ⟨more, rfl⟩ := List.head?_eq_some_iff.mp hnext
          exact hline more rfl
        · obtain ⟨more, rfl⟩ := List.head?_eq_some_iff.mp hnext
          exact hblock more rfl
  · next hslash => exact sound_readSymbol fun heq => absurd heq hslash

end Front

/-! ## Scanning on from a front -/

section Steps

variable {text spelled rest : List Char}

theorem scanFrom_of_trivia (found : List Token) (position : Position)
    (hread : Front.read? text = some ⟨.trivia, spelled, rest⟩) :
    scanFrom found position text = scanFrom found (position.after spelled) rest := by
  obtain ⟨first, more, rfl, hfront⟩ := Front.read?_eq_some_iff.mp hread
  rw [scanFrom]
  simp only [hfront]

theorem scanFrom_of_token (found : List Token) (position : Position) {kind : TokenKind}
    {value : TokenValue} (hread : Front.read? text = some ⟨.token kind value, spelled, rest⟩) :
    scanFrom found position text =
      scanFrom (⟨kind, value, position.line, position.column⟩ :: found)
        (position.after spelled) rest := by
  obtain ⟨first, more, rfl, hfront⟩ := Front.read?_eq_some_iff.mp hread
  rw [scanFrom]
  simp only [hfront]

theorem scanFrom_of_fault (found : List Token) (position : Position) {fault : LexicalFault}
    (hread : Front.read? text = some ⟨.fault fault, spelled, rest⟩) :
    scanFrom found position text =
      ⟨found.reverse, position.after spelled,
        some ⟨fault, position.line, position.column⟩⟩ := by
  obtain ⟨first, more, rfl, hfront⟩ := Front.read?_eq_some_iff.mp hread
  rw [scanFrom]
  simp only [hfront]

end Steps

end JackSyntax
